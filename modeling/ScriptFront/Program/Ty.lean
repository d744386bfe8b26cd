import ScriptFront.Program.Arena
import ScriptFront.Text.Dump
/-! Types after their names have been resolved, and when a value of one can be used as another. -/
namespace ScriptFront.Program

inductive Ty where
  | any
  | optional (inner : Ty)
  | array (element : Ty)
  | dictionary (key value : Ty)
  | ofProtocol (id : ObjectId)
  | ofClass (id : ObjectId)
  | ofEnum (id : ObjectId)
  | metaClass (id : ObjectId)
  | metaProtocol (id : ObjectId)
deriving DecidableEq

namespace Ty

/-- Whether the types are the same, where `any` on the left matches all that is not optional. -/
def identicalTo : Ty → Ty → Bool
  | any, optional _ => false
  | any, _ => true
  | optional s, optional t => s.identicalTo t
  | array s, array t => s.identicalTo t
  | dictionary k v, dictionary l w => k.identicalTo l && v.identicalTo w
  | ofProtocol i, ofProtocol j => i == j
  | ofClass i, ofClass j => i == j
  | ofEnum i, ofEnum j => i == j
  | metaClass i, metaClass j => i == j
  | metaProtocol i, metaProtocol j => i == j
  | _, _ => false

/-- Whether a value of the first type can be used where the second is expected. -/
def conforms (a : Arena) : Ty → Ty → Bool
  | optional s, optional t => s.conforms a t
  | _, optional _ => false
  | optional _, any => false
  | _, any => true
  | array s, array t => s.conforms a t
  | dictionary k v, dictionary l w => k.conforms a l && v.conforms a w
  | ofEnum i, ofEnum j => i == j
  | ofProtocol i, ofProtocol j => i == j || a.adopts i j
  | metaProtocol i, metaProtocol j => i == j || a.adopts i j
  | ofClass i, ofProtocol j => a.adopts i j
  | ofEnum i, ofProtocol j => a.adopts i j
  | metaClass i, metaProtocol j => a.adopts i j
  | ofClass i, ofClass j => a.isSubclass i j
  | metaClass i, metaClass j => a.isSubclass i j
  | _, _ => false

/-- A type as an annotation. -/
def display (d : Declared) : Ty → String
  | any => anyName
  | optional t => t.display d ++ "?"
  | array t => "[" ++ t.display d ++ "]"
  | dictionary k v => "[" ++ k.display d ++ ": " ++ v.display d ++ "]"
  | ofProtocol i | ofClass i | ofEnum i => d.nameOf i
  | metaClass i | metaProtocol i => d.nameOf i ++ ".Type"

open Text (Dump)

def dumpId (i : ObjectId) : Dump := .tuple "ObjectId" [.word (toString i)]

def dump : Ty → Dump
  | any => .word "Any"
  | optional t => .tuple "Optional" [t.dump]
  | array t => .tuple "Array" [t.dump]
  | dictionary k v => .record "Dictionary" [("key", k.dump), ("value", v.dump)]
  | ofProtocol i => .tuple "Protocol" [dumpId i]
  | ofClass i => .tuple "Instance" [dumpId i]
  | ofEnum i => .tuple "Enum" [dumpId i]
  | metaClass i => .tuple "MetaClass" [dumpId i]
  | metaProtocol i => .tuple "MetaProtocol" [dumpId i]

end Ty

end ScriptFront.Program
