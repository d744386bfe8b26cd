import ScriptFront.Program.Arena
/-! Resolving the conformances of every object. An object is resolved after those that its list
names, whichever comes first in the source; one that is met again while its own resolution is in
progress lies on a cycle. -/
namespace ScriptFront.Program
open Syntax

/-- The object that a conformance of `id` names, if it may stand there. -/
def conformanceTarget (d : Declared) (a : Arena) (id : ObjectId) (c : Conformance) :
    Except ResolveError ObjectId :=
  match d.find? c.name with
  | none => .error ⟨.undefinedObject, c.name, c.anchor⟩
  | some target =>
    if d.isEnum target || (d.isClass target && !d.isClass id) then
      .error ⟨.invalidConformance, c.name, c.anchor⟩
    else if a.markOf? target = some .inProgress then .error ⟨.cyclicConformance, c.name, c.anchor⟩
    else if d.isClass target && (a.superclass? id).isSome then
      .error ⟨.secondSuperclass, c.name, c.anchor⟩
    else .ok target

/-- Adds protocols to a list that may hold each only once. -/
def addProtocols (d : Declared) (index : TokenIndex) :
    List ObjectId → List ObjectId → Except ResolveError (List ObjectId)
  | known, [] => .ok known
  | known, p :: ps =>
    if p ∈ known then .error ⟨.duplicateProtocol, d.nameOf p, index⟩
    else addProtocols d index (known ++ [p]) ps

/-- What an object gets from one that it conforms to: from a class all its protocols, and it becomes
the superclass; from a protocol the protocol itself. -/
def adoptTarget (d : Declared) (a : Arena) (id target : ObjectId) (c : Conformance) :
    Except ResolveError { b : Arena // b.pending ≤ a.pending } :=
  if d.isClass target then
    (addProtocols d c.anchor (a.protocols id) (a.protocols target)).map fun ps =>
      ⟨(a.setSuperclass id target).setProtocols id ps,
        Nat.le_trans (Arena.pending_setProtocols_le ..) (Arena.pending_setSuperclass_le ..)⟩
  else
    (addProtocols d c.anchor (a.protocols id) [target]).map fun ps =>
      ⟨a.setProtocols id ps, Arena.pending_setProtocols_le ..⟩

mutual

/-- Resolves an object, unless that is done or in progress. -/
def resolveObject (d : Declared) (id : ObjectId) (a : Arena) :
    Except ResolveError { b : Arena // b.pending ≤ a.pending } :=
  if h : a.markOf? id = some .unresolved then do
    let ⟨b, hb⟩ ← resolveList d id (d.conforms id) (a.setMark id .inProgress)
    return ⟨b.setMark id .resolved, by
      have := Arena.pending_setMark_lt h
      have := b.pending_setMark_le id (show Mark.resolved ≠ .unresolved by decide)
      omega⟩
  else return ⟨a, Nat.le_refl _⟩
termination_by (a.pending, 0)
decreasing_by exact .left _ _ (Arena.pending_setMark_lt h)

/-- Resolves the conformances of `id` that are left in its list. -/
def resolveList (d : Declared) (id : ObjectId) (list : List Conformance) (a : Arena) :
    Except ResolveError { b : Arena // b.pending ≤ a.pending } :=
  match list with
  | [] => return ⟨a, Nat.le_refl _⟩
  | c :: cs => do
    let target ← conformanceTarget d a id c
    let ⟨a₁, h₁⟩ ← resolveObject d target a
    let ⟨a₂, h₂⟩ ← adoptTarget d a₁ id target c
    let ⟨a₃, h₃⟩ ← resolveList d id cs a₂
    return ⟨a₃, by omega⟩
termination_by (a.pending, list.length + 1)
decreasing_by
  · exact .right _ (by simp)
  · simp only [List.length_cons]
    rcases Nat.lt_or_eq_of_le (Nat.le_trans h₂ h₁) with h | h
    · exact .left _ _ h
    · rw [h]
      exact .right _ (by omega)

end

/-- The conformances of all objects, resolved in declaration order. -/
def Arena.ofDeclared (d : Declared) : Except ResolveError Arena :=
  (List.range d.objects.length).foldlM
    (fun a id => (resolveObject d id a).map (·.val)) (Arena.fresh d)

end ScriptFront.Program
