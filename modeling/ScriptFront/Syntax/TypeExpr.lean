import ScriptFront.Token
/-! Type annotations, and the names and signatures that carry them. Every node knows its anchor, the
index of its first token. -/
namespace ScriptFront.Syntax

/-- `T`, `T.Member`, `T?`, `[T]` or `[K: V]`. -/
inductive TypeExpr where
  | name (anchor : TokenIndex) (name : String)
  | member (anchor : TokenIndex) (parent name : String)
  | optional (anchor : TokenIndex) (inner : TypeExpr)
  | array (anchor : TokenIndex) (element : TypeExpr)
  | dictionary (anchor : TokenIndex) (key value : TypeExpr)
deriving DecidableEq

def TypeExpr.anchor : TypeExpr → TokenIndex
  | name i _ | member i _ _ | optional i _ | array i _ | dictionary i _ _ => i

/-- A name with an optional annotation. -/
structure TypedName where
  anchor : TokenIndex
  name : String
  type? : Option TypeExpr
deriving DecidableEq

structure Signature where
  parameters : List TypedName
  isVariadic : Bool
  returns : List TypeExpr
deriving DecidableEq

end ScriptFront.Syntax
