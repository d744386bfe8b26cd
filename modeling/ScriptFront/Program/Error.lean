import ScriptFront.Token
/-! What can be wrong with the declarations and types of a program. -/
namespace ScriptFront.Program

inductive ResolveCause where
  | duplicateName | undefinedObject | secondSuperclass | duplicateProtocol | undefinedType
  | duplicateType | notAMember | noMetaType | invalidConformance | cyclicConformance | cyclicAlias
deriving DecidableEq

/-- The name that is wrong and the index of the token that shows it. -/
structure ResolveError where
  cause : ResolveCause
  name : String
  index : TokenIndex
deriving DecidableEq

def ResolveError.message (e : ResolveError) : String :=
  let quoted := "'" ++ e.name ++ "'"
  match e.cause with
  | .duplicateName => "An object named " ++ quoted ++ " is already declared."
  | .undefinedObject => "Undefined object " ++ quoted ++ "."
  | .secondSuperclass => "Class " ++ quoted ++ " would be a second superclass."
  | .duplicateProtocol => "Protocol " ++ quoted ++ " is already conformed to."
  | .undefinedType => "Undefined type " ++ quoted ++ "."
  | .duplicateType => "A type named " ++ quoted ++ " is already declared."
  | .notAMember => "Only 'Type' can be used as a type member, found " ++ quoted ++ "."
  | .noMetaType => quoted ++ " is not a class or protocol and has no meta type."
  | .invalidConformance => "Cannot conform to " ++ quoted ++ " here."
  | .cyclicConformance => "Conformance to " ++ quoted ++ " is cyclic."
  | .cyclicAlias => "Type alias " ++ quoted ++ " refers to itself."

end ScriptFront.Program
