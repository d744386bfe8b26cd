import ScriptFront.Program.Annotation
import ScriptFront.Program.Conformance
/-! Resolved programs: what a list of chunks declares, how its objects conform to each other, and the
types of its annotations. -/
namespace ScriptFront

structure Program where
  declared : Program.Declared
  arena : Program.Arena
  expanded : Program.Expanded
  tables : List Program.TypeTable

namespace Program
open Syntax

/-- Declarations come first, then conformances, then the annotations chunk by chunk. -/
def ofChunks (chunks : List Chunk) : Except ResolveError Program := do
  let declared ← Declared.ofChunks chunks
  let arena ← Arena.ofDeclared declared
  let tables := chunks.mapM fun c => TypeTable.ofAnnotations declared (annotationsOfChunk c)
  match tables.run.run [] with
  | (.ok tables, expanded) => return ⟨declared, arena, expanded, tables⟩
  | (.error e, _) => throw e

/-- The type of an annotation in the program, which remembers the aliases that it took to find. -/
def resolveType (p : Program) (t : TypeExpr) : Except ResolveError Ty × Program :=
  let (result, expanded) := (typeOf p.declared [] t).run.run p.expanded
  (result, { p with expanded := expanded })

/-- The types of the annotations of a chunk, in token order. -/
def table (p : Program) (chunk : Nat) : TypeTable := (p.tables[chunk]?).getD []

def objectCount (p : Program) : Nat := p.declared.objects.length
def superclassName? (p : Program) (id : ObjectId) : Option String :=
  (p.arena.superclass? id).map p.declared.nameOf
def protocolNames (p : Program) (id : ObjectId) : List String :=
  (p.arena.protocols id).map p.declared.nameOf

def kindWord (d : Declaration) : String :=
  if d.isClass then "class" else if d.isProtocol then "protocol" else "enum"

/-- One line on an object, such as `class C : B [P, Q]`. -/
def summary (p : Program) (id : ObjectId) : String :=
  let kind := ((p.declared.objects[id]?).map kindWord).getD ""
  let superclass := match p.superclassName? id with
    | some name => " : " ++ name
    | none => ""
  kind ++ " " ++ p.declared.nameOf id ++ superclass ++
    " [" ++ String.intercalate ", " (p.protocolNames id) ++ "]"

def summaries (p : Program) : List String := (List.range p.objectCount).map p.summary

end Program

end ScriptFront
