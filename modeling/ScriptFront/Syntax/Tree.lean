import ScriptFront.Syntax.Operator
import ScriptFront.Syntax.TypeExpr
/-! Expressions and statements. Every node knows its anchor, the index of its first token; for a
binary operation that is the first token of its left operand, and all calls and indexings of a chain
such as `a.b[c](d)` share the anchor of its first name. -/
namespace ScriptFront.Syntax

inductive Literal where
  | bool (anchor : TokenIndex) (value : Bool)
  | number (anchor : TokenIndex) (value : Float)
  | string (anchor : TokenIndex) (value : String)

mutual

inductive Expr where
  | nil (anchor : TokenIndex)
  | varArgs (anchor : TokenIndex)
  | literal (literal : Literal)
  | routine (anchor : TokenIndex) (routine : Routine)
  | unary (anchor : TokenIndex) (op : UnaryOp) (operand : Expr)
  | binary (anchor : TokenIndex) (op : BinaryOp) (left right : Expr)
  | table (anchor : TokenIndex) (items : List TableItem)
  | parenthesized (anchor : TokenIndex) (inner : Expr)
  | call (call : Call)
  | name (anchor : TokenIndex) (name : String)
  | index (index : Index)
  | typeTest (anchor : TokenIndex) (tested : Expr) (type : TypeExpr)

/-- `callee(…)` or `receiver:method(…)`. -/
inductive Call where
  | plain (anchor : TokenIndex) (callee : Expr) (arguments : List Expr)
  | method (anchor : TokenIndex) (receiver : Expr) (method : String) (arguments : List Expr)

/-- `indexed[key]` or `indexed.name`. -/
inductive Index where
  | element (anchor : TokenIndex) (indexed key : Expr)
  | field (anchor : TokenIndex) (indexed : Expr) (name : String)

/-- `value`, `name = value` or `[key] = value`. -/
inductive TableItem where
  | positional (value : Expr)
  | named (name : String) (value : Expr)
  | keyed (key value : Expr)

/-- The parameters, return types and body of a function. -/
structure Routine where
  signature : Signature
  body : List Stmt

inductive Stmt where
  | scope (anchor : TokenIndex) (body : List Stmt)
  | assign (anchor : TokenIndex) (targets : List Target) (values : List Expr)
  | update (anchor : TokenIndex) (target : Target) (op : Arithmetic) (value : Expr)
  | whileLoop (anchor : TokenIndex) (condition : Expr) (body : List Stmt)
  | repeatLoop (anchor : TokenIndex) (body : List Stmt) (condition : Expr)
  | choice (anchor : TokenIndex) (branches : List Branch) (otherwise : Option (List Stmt))
  | numericFor (anchor : TokenIndex) (counter : TypedName) (start stop : Expr)
      (step : Option Expr) (body : List Stmt)
  | genericFor (anchor : TokenIndex) (names : List TypedName) (iterators : List Expr)
      (body : List Stmt)
  | localNames (anchor : TokenIndex) (names : List TypedName) (values : List Expr)
  | localRoutine (anchor : TokenIndex) (name : String) (routine : Routine)
  | routine (anchor : TokenIndex) (path : List String) (isMethod : Bool) (routine : Routine)
  | goto (anchor : TokenIndex) (label : String)
  | label (anchor : TokenIndex) (name : String)
  | returnValues (anchor : TokenIndex) (values : List Expr)
  | breakLoop (anchor : TokenIndex)
  | call (anchor : TokenIndex) (call : Call)

/-- What may stand left of `=`. -/
inductive Target where
  | name (name : TypedName)
  | index (index : Index)

structure Branch where
  condition : Expr
  body : List Stmt

end

abbrev Block := List Stmt

def Literal.anchor : Literal → TokenIndex
  | bool i _ | number i _ | string i _ => i

def Call.anchor : Call → TokenIndex
  | plain i _ _ | method i _ _ _ => i

def Index.anchor : Index → TokenIndex
  | element i _ _ | field i _ _ => i

def Target.anchor : Target → TokenIndex
  | name n => n.anchor
  | index x => x.anchor

def Expr.anchor : Expr → TokenIndex
  | nil i | varArgs i | routine i _ | unary i _ _ | binary i _ _ _ | table i _
  | parenthesized i _ | name i _ | typeTest i _ _ => i
  | literal l => l.anchor
  | call c => c.anchor
  | index x => x.anchor

def Stmt.anchor : Stmt → TokenIndex
  | scope i _ | assign i _ _ | update i _ _ _ | whileLoop i _ _ | repeatLoop i _ _
  | choice i _ _ | numericFor i _ _ _ _ _ | genericFor i _ _ _ | localNames i _ _
  | localRoutine i _ _ | routine i _ _ _ | goto i _ | label i _ | returnValues i _ | breakLoop i
  | call i _ => i

/-- Whether an expression can be called and indexed as it stands. -/
def Expr.isPrefix : Expr → Bool
  | name _ _ | parenthesized _ _ | index _ | call _ => true
  | _ => false

/-- The assignment target that an expression is, if it is one. -/
def Expr.target? : Expr → Option Target
  | name i n => some (.name ⟨i, n, none⟩)
  | index x => some (.index x)
  | _ => none

def Expr.call? : Expr → Option Call
  | call c => some c
  | _ => none

/-- A return statement; nothing may follow it in its block. -/
def Stmt.isLast : Stmt → Bool
  | returnValues _ _ => true
  | _ => false

end ScriptFront.Syntax
