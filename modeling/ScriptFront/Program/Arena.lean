import ScriptFront.Program.Declared
/-! What is known of each object while the conformances are resolved: how far its own resolution has
come, its superclass and its protocols. For a class these include the protocols of its
superclass. -/
namespace ScriptFront.Program

inductive Mark where
  | unresolved | inProgress | resolved
deriving DecidableEq

structure Node where
  mark : Mark
  superclass? : Option ObjectId
  protocols : List ObjectId
deriving DecidableEq

def Node.fresh : Node := ⟨.unresolved, none, []⟩

/-- One node for each declared object. -/
abbrev Arena := List Node

namespace Arena

def fresh (d : Declared) : Arena := d.objects.map fun _ => .fresh

def markOf? (a : Arena) (id : ObjectId) : Option Mark := a[id]?.map (·.mark)
def superclass? (a : Arena) (id : ObjectId) : Option ObjectId := a[id]?.bind (·.superclass?)
def protocols (a : Arena) (id : ObjectId) : List ObjectId := (a[id]?.map (·.protocols)).getD []

def setMark (a : Arena) (id : ObjectId) (mark : Mark) : Arena :=
  a.modify id fun n => { n with mark := mark }
def setSuperclass (a : Arena) (id superclass : ObjectId) : Arena :=
  a.modify id fun n => { n with superclass? := some superclass }
def setProtocols (a : Arena) (id : ObjectId) (protocols : List ObjectId) : Arena :=
  a.modify id fun n => { n with protocols := protocols }

/-- Whether an object lists a protocol, itself or through the protocols it lists, in at most
`steps` steps. -/
def adoptsWithin (a : Arena) : Nat → ObjectId → ObjectId → Bool
  | 0, _, _ => false
  | steps + 1, id, target =>
    (a.protocols id).any fun p => p == target || a.adoptsWithin steps p target

/-- Where no object reaches itself, no way has more steps than there are objects. -/
def adopts (a : Arena) (id target : ObjectId) : Bool := a.adoptsWithin a.length id target

/-- Whether an object is `ancestor` or reaches it through superclasses, looking at no more than
`steps` objects. -/
def isSubclassWithin (a : Arena) : Nat → ObjectId → ObjectId → Bool
  | 0, _, _ => false
  | steps + 1, id, ancestor =>
    id == ancestor || match a.superclass? id with
      | some s => a.isSubclassWithin steps s ancestor
      | none => false

def isSubclass (a : Arena) (id ancestor : ObjectId) : Bool :=
  a.isSubclassWithin a.length id ancestor

/-- The number of objects whose resolution has not started. -/
def pending (a : Arena) : Nat := a.countP (·.mark = .unresolved)

theorem pending_modify_le (a : Arena) (id : ObjectId) (f : Node → Node)
    (h : ∀ n, (f n).mark = .unresolved → n.mark = .unresolved) :
    pending (a.modify id f) ≤ a.pending := by
  induction a generalizing id with
  | nil => simp [pending]
  | cons n a ih =>
    cases id with
    | zero =>
      simp only [pending, List.modify_zero_cons, List.countP_cons, decide_eq_true_eq]
      by_cases hf : (f n).mark = .unresolved
      · simp [hf, h n hf]
      · simp [hf]
    | succ id =>
      have := ih id
      simp only [pending, List.modify_succ_cons, List.countP_cons] at *
      omega

theorem pending_setMark_le (a : Arena) (id : ObjectId) {mark : Mark} (h : mark ≠ .unresolved) :
    (a.setMark id mark).pending ≤ a.pending := by
  unfold setMark
  exact pending_modify_le _ _ _ (fun _ e => absurd e h)

theorem pending_setSuperclass_le (a : Arena) (id s : ObjectId) :
    (a.setSuperclass id s).pending ≤ a.pending := by
  unfold setSuperclass
  exact pending_modify_le _ _ _ (fun _ e => e)

theorem pending_setProtocols_le (a : Arena) (id : ObjectId) (ps : List ObjectId) :
    (a.setProtocols id ps).pending ≤ a.pending := by
  unfold setProtocols
  exact pending_modify_le _ _ _ (fun _ e => e)

/-- Starting on an object leaves fewer to start on. -/
theorem pending_setMark_lt {a : Arena} {id : ObjectId} (h : a.markOf? id = some .unresolved) :
    (a.setMark id .inProgress).pending < a.pending := by
  induction a generalizing id with
  | nil => simp [markOf?] at h
  | cons n a ih =>
    cases id with
    | zero =>
      simp only [markOf?, List.getElem?_cons_zero, Option.map_some, Option.some.injEq] at h
      simp [setMark, pending, h]
    | succ id =>
      have := @ih id (by simpa [markOf?] using h)
      simp only [setMark, pending, List.modify_succ_cons, List.countP_cons] at *
      omega

end Arena

end ScriptFront.Program
