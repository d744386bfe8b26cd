import ScriptFront.Program.Expansion
/-! The type annotations of a chunk, in source order: of names, parameters, results, properties,
associated types, aliases and type tests, at any depth. -/
namespace ScriptFront.Program
open Syntax

def annotationsOfNames (names : List TypedName) : List TypeExpr := names.filterMap (·.type?)
def annotationsOfSignature (s : Signature) : List TypeExpr :=
  annotationsOfNames s.parameters ++ s.returns

mutual

def annotationsOfExpr : Expr → List TypeExpr
  | .nil _ | .varArgs _ | .literal _ | .name _ _ => []
  | .routine _ r => annotationsOfRoutine r
  | .unary _ _ e => annotationsOfExpr e
  | .binary _ _ a b => annotationsOfExpr a ++ annotationsOfExpr b
  | .table _ items => annotationsOfItems items
  | .parenthesized _ e => annotationsOfExpr e
  | .call c => annotationsOfCall c
  | .index x => annotationsOfIndex x
  | .typeTest _ e t => annotationsOfExpr e ++ [t]

def annotationsOfCall : Call → List TypeExpr
  | .plain _ e args => annotationsOfExpr e ++ annotationsOfExprs args
  | .method _ e _ args => annotationsOfExpr e ++ annotationsOfExprs args

def annotationsOfIndex : Index → List TypeExpr
  | .element _ e k => annotationsOfExpr e ++ annotationsOfExpr k
  | .field _ e _ => annotationsOfExpr e

def annotationsOfItem : TableItem → List TypeExpr
  | .positional v | .named _ v => annotationsOfExpr v
  | .keyed k v => annotationsOfExpr k ++ annotationsOfExpr v

def annotationsOfRoutine : Routine → List TypeExpr
  | ⟨sig, body⟩ => annotationsOfSignature sig ++ annotationsOfBlock body

def annotationsOfStmt : Stmt → List TypeExpr
  | .scope _ body => annotationsOfBlock body
  | .assign _ targets values => annotationsOfTargets targets ++ annotationsOfExprs values
  | .update _ target _ value => annotationsOfTarget target ++ annotationsOfExpr value
  | .whileLoop _ condition body => annotationsOfExpr condition ++ annotationsOfBlock body
  | .repeatLoop _ body condition => annotationsOfBlock body ++ annotationsOfExpr condition
  | .choice _ branches otherwise =>
    annotationsOfBranches branches ++ match otherwise with
      | some body => annotationsOfBlock body
      | none => []
  | .numericFor _ counter start stop step body =>
    annotationsOfNames [counter] ++ annotationsOfExpr start ++ annotationsOfExpr stop ++
      (match step with
        | some e => annotationsOfExpr e
        | none => []) ++ annotationsOfBlock body
  | .genericFor _ names iterators body =>
    annotationsOfNames names ++ annotationsOfExprs iterators ++ annotationsOfBlock body
  | .localNames _ names values => annotationsOfNames names ++ annotationsOfExprs values
  | .localRoutine _ _ r | .routine _ _ _ r => annotationsOfRoutine r
  | .goto _ _ | .label _ _ | .breakLoop _ => []
  | .returnValues _ values => annotationsOfExprs values
  | .call _ c => annotationsOfCall c

def annotationsOfTarget : Target → List TypeExpr
  | .name n => annotationsOfNames [n]
  | .index x => annotationsOfIndex x

def annotationsOfBranch : Branch → List TypeExpr
  | ⟨condition, body⟩ => annotationsOfExpr condition ++ annotationsOfBlock body

def annotationsOfExprs : List Expr → List TypeExpr
  | [] => []
  | e :: es => annotationsOfExpr e ++ annotationsOfExprs es

def annotationsOfItems : List TableItem → List TypeExpr
  | [] => []
  | x :: xs => annotationsOfItem x ++ annotationsOfItems xs

def annotationsOfBlock : List Stmt → List TypeExpr
  | [] => []
  | s :: ss => annotationsOfStmt s ++ annotationsOfBlock ss

def annotationsOfTargets : List Target → List TypeExpr
  | [] => []
  | t :: ts => annotationsOfTarget t ++ annotationsOfTargets ts

def annotationsOfBranches : List Branch → List TypeExpr
  | [] => []
  | b :: bs => annotationsOfBranch b ++ annotationsOfBranches bs

end

def annotationsOfClassMember : ClassMember → List TypeExpr
  | .property _ _ t initial => t :: annotationsOfExprs initial.toList
  | .override _ _ v => annotationsOfExpr v
  | .method _ _ r => annotationsOfRoutine r

def annotationsOfProtocolMember : ProtocolMember → List TypeExpr
  | .property _ _ t => [t]
  | .method _ _ s => annotationsOfSignature s

def annotationsOfDeclaration : Declaration → List TypeExpr
  | .ofClass d => d.members.flatMap annotationsOfClassMember
  | .ofProtocol d => d.members.flatMap annotationsOfProtocolMember
  | .ofEnum d => d.cases.flatMap fun c => c.associated.map (·.type)

def annotationsOfTopItem : Item → List TypeExpr
  | .object d => annotationsOfDeclaration d
  | .typeAlias a => [a.type]
  | .statement s => annotationsOfStmt s

def annotationsOfChunk (c : Chunk) : List TypeExpr := c.flatMap annotationsOfTopItem

/-- The types of annotations by the index of their first token, in token order. -/
abbrev TypeTable := List (TokenIndex × Ty)

namespace TypeTable

/-- A later type for the same index takes the place of an earlier one. -/
def insert (index : TokenIndex) (t : Ty) : TypeTable → TypeTable
  | [] => [(index, t)]
  | (i, u) :: rest =>
    if index < i then (index, t) :: (i, u) :: rest
    else if index = i then (index, t) :: rest
    else (i, u) :: insert index t rest

def find? (table : TypeTable) (index : TokenIndex) : Option Ty := table.lookup index

def ofAnnotations (d : Declared) (annotations : List TypeExpr) : Expanding TypeTable :=
  annotations.foldlM (fun table t => do return insert t.anchor (← typeOf d [] t) table) []

end TypeTable

end ScriptFront.Program
