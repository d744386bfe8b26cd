import ScriptFront.Syntax.Declaration
/-! The canonical spelling of a chunk: one token list for each tree, whatever sugar it was read
from. Arguments stand in round brackets, table items and enum cases have commas between them and
none at the end, and a semicolon stands between two statements only. -/
namespace ScriptFront.Syntax

/-- Token lists one after the other, with a separator between them. -/
def separated (separator : Token) : List (List Token) → List Token
  | [] => []
  | first :: more => first ++ more.flatMap (separator :: ·)

def commas : List (List Token) → List Token := separated (.operator .comma)

def Literal.spelling : Literal → List Token
  | bool _ true => [.keyword .true_]
  | bool _ false => [.keyword .false_]
  | number _ v => [.number v]
  | string _ v => [.string v]

def UnaryOp.token : UnaryOp → Token
  | negate => .operator .minus
  | not => .keyword .not_
  | length => .operator .hash

def Arithmetic.sign : Arithmetic → Operator
  | add => .plus
  | subtract => .minus
  | multiply => .star
  | divide => .slash
  | modulo => .percent
  | power => .caret

def BinaryOp.token : BinaryOp → Token
  | or => .keyword .or_
  | and => .keyword .and_
  | equal => .operator .doubleEqual
  | notEqual => .operator .notEqual
  | less => .operator .less
  | lessEqual => .operator .lessEqual
  | greater => .operator .greater
  | greaterEqual => .operator .greaterEqual
  | concat => .operator .doubleDot
  | arithmetic op => .operator op.sign

/-- The operator of the assignment form, such as `+=`. -/
def Arithmetic.assignment : Arithmetic → Operator
  | add => .plusEqual
  | subtract => .minusEqual
  | multiply => .starEqual
  | divide => .slashEqual
  | modulo => .percentEqual
  | power => .caretEqual

def TypeExpr.spelling : TypeExpr → List Token
  | name _ n => [.name n]
  | member _ p n => [.name p, .operator .dot, .name n]
  | optional _ t => t.spelling ++ [.operator .question]
  | array _ t => .operator .squareLeft :: t.spelling ++ [.operator .squareRight]
  | dictionary _ k v =>
    .operator .squareLeft :: k.spelling ++ .operator .colon :: v.spelling ++
      [.operator .squareRight]

/-- A list that is left out when it is empty, behind the token that announces it. -/
def clause (token : Token) : List (List Token) → List Token
  | [] => []
  | list => token :: commas list

def TypedName.spelling (n : TypedName) : List Token :=
  .name n.name :: clause (.operator .colon) (n.type?.toList.map TypeExpr.spelling)

def Signature.spelling (s : Signature) : List Token :=
  .operator .roundLeft ::
    commas (s.parameters.map TypedName.spelling ++
      if s.isVariadic then [[.operator .tripleDot]] else []) ++
    .operator .roundRight :: clause (.operator .colon) (s.returns.map TypeExpr.spelling)

/-- `a.b.c`, or `a.b:c` for a method. -/
def spellingOfPath (isMethod : Bool) : List String → List Token
  | [] => []
  | [w] => [.name w]
  | [v, w] => [.name v, .operator (if isMethod then .colon else .dot), .name w]
  | w :: ws => .name w :: .operator .dot :: spellingOfPath isMethod ws

mutual

def Expr.spelling : Expr → List Token
  | .nil _ => [.keyword .nil_]
  | .varArgs _ => [.operator .tripleDot]
  | .literal l => l.spelling
  | .routine _ r => .keyword .function_ :: r.spelling
  | .unary _ op e => op.token :: e.spelling
  | .binary _ op a b => a.spelling ++ op.token :: b.spelling
  | .table _ items =>
    .operator .curlyLeft :: commas (spellingsOfItems items) ++ [.operator .curlyRight]
  | .parenthesized _ e => .operator .roundLeft :: e.spelling ++ [.operator .roundRight]
  | .call c => c.spelling
  | .name _ n => [.name n]
  | .index x => x.spelling
  | .typeTest _ e t => e.spelling ++ .keyword .is_ :: t.spelling

def Call.spelling : Call → List Token
  | .plain _ e args =>
    e.spelling ++ .operator .roundLeft :: commas (spellingsOfExprs args) ++ [.operator .roundRight]
  | .method _ e m args =>
    e.spelling ++ .operator .colon :: .name m :: .operator .roundLeft ::
      commas (spellingsOfExprs args) ++ [.operator .roundRight]

def Index.spelling : Index → List Token
  | .element _ e k => e.spelling ++ .operator .squareLeft :: k.spelling ++ [.operator .squareRight]
  | .field _ e n => e.spelling ++ [.operator .dot, .name n]

def TableItem.spelling : TableItem → List Token
  | .positional v => v.spelling
  | .named n v => .name n :: .operator .equal :: v.spelling
  | .keyed k v =>
    .operator .squareLeft :: k.spelling ++ .operator .squareRight :: .operator .equal :: v.spelling

def Routine.spelling : Routine → List Token
  | ⟨sig, body⟩ =>
    sig.spelling ++ separated (.operator .semicolon) (spellingsOfBlock body) ++ [.keyword .end_]

def Stmt.spelling : Stmt → List Token
  | .scope _ body =>
    .keyword .do_ :: separated (.operator .semicolon) (spellingsOfBlock body) ++ [.keyword .end_]
  | .assign _ targets values =>
    commas (spellingsOfTargets targets) ++ .operator .equal :: commas (spellingsOfExprs values)
  | .update _ target op value => target.spelling ++ .operator op.assignment :: value.spelling
  | .whileLoop _ condition body =>
    .keyword .while_ :: condition.spelling ++ .keyword .do_ ::
      separated (.operator .semicolon) (spellingsOfBlock body) ++ [.keyword .end_]
  | .repeatLoop _ body condition =>
    .keyword .repeat_ :: separated (.operator .semicolon) (spellingsOfBlock body) ++
      .keyword .until_ :: condition.spelling
  | .choice _ branches otherwise =>
    .keyword .if_ :: separated (.keyword .elseif_) (spellingsOfBranches branches) ++
      (match otherwise with
        | some body => .keyword .else_ :: separated (.operator .semicolon) (spellingsOfBlock body)
        | none => []) ++ [.keyword .end_]
  | .numericFor _ counter start stop step body =>
    .keyword .for_ :: counter.spelling ++ .operator .equal :: start.spelling ++
      .operator .comma :: stop.spelling ++
      (match step with
        | some e => .operator .comma :: e.spelling
        | none => []) ++ .keyword .do_ ::
      separated (.operator .semicolon) (spellingsOfBlock body) ++ [.keyword .end_]
  | .genericFor _ names iterators body =>
    .keyword .for_ :: commas (names.map TypedName.spelling) ++ .keyword .in_ ::
      commas (spellingsOfExprs iterators) ++ .keyword .do_ ::
      separated (.operator .semicolon) (spellingsOfBlock body) ++ [.keyword .end_]
  | .localNames _ names values =>
    .keyword .local_ :: commas (names.map TypedName.spelling) ++
      clause (.operator .equal) (spellingsOfExprs values)
  | .localRoutine _ n r => .keyword .local_ :: .keyword .function_ :: .name n :: r.spelling
  | .routine _ path isMethod r =>
    .keyword .function_ :: spellingOfPath isMethod path ++ r.spelling
  | .goto _ l => [.keyword .goto_, .name l]
  | .label _ n => [.operator .doubleColon, .name n, .operator .doubleColon]
  | .returnValues _ values => .keyword .return_ :: commas (spellingsOfExprs values)
  | .breakLoop _ => [.keyword .break_]
  | .call _ c => c.spelling

def Target.spelling : Target → List Token
  | .name n => n.spelling
  | .index x => x.spelling

def Branch.spelling : Branch → List Token
  | ⟨condition, body⟩ =>
    condition.spelling ++ .keyword .then_ ::
      separated (.operator .semicolon) (spellingsOfBlock body)

def spellingsOfExprs : List Expr → List (List Token)
  | [] => []
  | e :: es => e.spelling :: spellingsOfExprs es

def spellingsOfItems : List TableItem → List (List Token)
  | [] => []
  | x :: xs => x.spelling :: spellingsOfItems xs

def spellingsOfBlock : List Stmt → List (List Token)
  | [] => []
  | s :: ss => s.spelling :: spellingsOfBlock ss

def spellingsOfTargets : List Target → List (List Token)
  | [] => []
  | t :: ts => t.spelling :: spellingsOfTargets ts

def spellingsOfBranches : List Branch → List (List Token)
  | [] => []
  | b :: bs => b.spelling :: spellingsOfBranches bs

end

def Conformance.spelling (c : Conformance) : List Token := [.name c.name]

def ClassMember.spelling : ClassMember → List Token
  | property _ n t initial =>
    .name n :: .operator .colon :: t.spelling ++
      clause (.operator .equal) (initial.toList.map Expr.spelling)
  | override _ n v => .keyword .default_ :: .name n :: .operator .equal :: v.spelling
  | method _ n r => .keyword .function_ :: .name n :: r.spelling

def ProtocolMember.spelling : ProtocolMember → List Token
  | property _ n t => .name n :: .operator .colon :: t.spelling
  | method _ n s => .keyword .function_ :: .name n :: s.spelling

def AssociatedType.spelling (a : AssociatedType) : List Token :=
  (match a.label? with
    | some label => [.name label, .operator .colon]
    | none => []) ++ a.type.spelling

def EnumCase.spelling (c : EnumCase) : List Token :=
  .name c.name :: (match c.associated with
    | [] => []
    | list =>
      .operator .roundLeft :: commas (list.map AssociatedType.spelling) ++ [.operator .roundRight]) ++
    clause (.operator .equal) (c.rawValue?.toList.map Literal.spelling)

/-- A declaration from its keyword to its `end`. -/
def declarationSpelling (keyword : Keyword) (name : String) (conforms : List Conformance)
    (parts : List Token) : List Token :=
  .keyword keyword :: .name name ::
    clause (.operator .colon) (conforms.map Conformance.spelling) ++ parts ++ [.keyword .end_]

def Declaration.spelling : Declaration → List Token
  | ofClass d =>
    declarationSpelling .class_ d.name d.conforms (d.members.flatMap ClassMember.spelling)
  | ofProtocol d =>
    declarationSpelling .protocol_ d.name d.conforms (d.members.flatMap ProtocolMember.spelling)
  | ofEnum d => declarationSpelling .enum_ d.name d.conforms (commas (d.cases.map EnumCase.spelling))

def AliasDecl.spelling (d : AliasDecl) : List Token :=
  .keyword .typealias_ :: .name d.name :: .operator .equal :: d.type.spelling

def Item.spelling : Item → List Token
  | object d => d.spelling
  | typeAlias d => d.spelling
  | statement s => s.spelling

/-- What stands between an item and the next. -/
def gap : Item → Item → List Token
  | .statement _, .statement _ => [.operator .semicolon]
  | _, _ => []

def spellingOfChunk : Chunk → List Token
  | [] => []
  | [item] => item.spelling
  | item :: next :: rest => item.spelling ++ gap item next ++ spellingOfChunk (next :: rest)

end ScriptFront.Syntax
