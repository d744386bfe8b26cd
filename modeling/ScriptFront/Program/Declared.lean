import ScriptFront.Program.Error
import ScriptFront.Syntax.Declaration
/-! The objects and type aliases that a program declares. Objects are numbered in source order. No
two declarations share a name, and none is named `Any`, which stands for the type of every value
that is not optional. -/
namespace ScriptFront.Program
open Syntax

abbrev ObjectId := Nat

def anyName : String := "Any"

structure Declared where
  objects : List Declaration
  aliases : List AliasDecl

namespace Declared

def empty : Declared := ⟨[], []⟩

def find? (d : Declared) (name : String) : Option ObjectId := d.objects.findIdx? (·.name = name)
def typeAlias? (d : Declared) (name : String) : Option AliasDecl := d.aliases.find? (·.name = name)

/-- The name of an object; no text for a number without object. -/
def nameOf (d : Declared) (id : ObjectId) : String := (d.objects[id]?.map (·.name)).getD ""
def isClass (d : Declared) (id : ObjectId) : Bool := d.objects[id]?.any (·.isClass)
def isProtocol (d : Declared) (id : ObjectId) : Bool := d.objects[id]?.any (·.isProtocol)
def isEnum (d : Declared) (id : ObjectId) : Bool := d.objects[id]?.any (·.isEnum)
def conforms (d : Declared) (id : ObjectId) : List Conformance :=
  (d.objects[id]?.map (·.conforms)).getD []

def addObject (d : Declared) (o : Declaration) : Except ResolveError Declared :=
  if (d.find? o.name).isSome then .error ⟨.duplicateName, o.name, o.anchor⟩
  else if o.name = anyName || (d.typeAlias? o.name).isSome then
    .error ⟨.duplicateType, o.name, o.anchor⟩
  else .ok { d with objects := d.objects ++ [o] }

def addAlias (d : Declared) (a : AliasDecl) : Except ResolveError Declared :=
  if a.name = anyName || (d.typeAlias? a.name).isSome || (d.find? a.name).isSome then
    .error ⟨.duplicateType, a.name, a.anchor⟩
  else .ok { d with aliases := d.aliases ++ [a] }

def addItem (d : Declared) : Item → Except ResolveError Declared
  | .object o => d.addObject o
  | .typeAlias a => d.addAlias a
  | .statement _ => .ok d

def ofChunks (chunks : List Chunk) : Except ResolveError Declared :=
  chunks.flatten.foldlM addItem empty

end Declared

end ScriptFront.Program
