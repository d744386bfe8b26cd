import Mathlib.Data.Fintype.EquivFin
import Mathlib.Logic.Relation
import Mathlib.Order.WellFounded
import ScriptFront.Program.Conformance
/-! Which lists of conformances are in order, as a property of the declarations alone: nothing here
depends on the order in which objects are visited. -/
namespace ScriptFront.Program
open Syntax Relation

/-- What can only be left finitely often is on no cycle. -/
theorem irrefl_of_acc {α : Type} {r : α → α → Prop} {x : α} (h : Acc (fun y x => r x y) x) :
    ¬ TransGen r x x := by
  induction h with
  | intro x _ ih =>
    intro hx
    obtain ⟨y, hxy, hyx⟩ := TransGen.head'_iff.1 hx
    exact ih y hxy (.tail' hyx hxy)

namespace Declared
variable {d : Declared}

/-- The objects that the conformances of an object name, in list order. -/
def targets (d : Declared) (id : ObjectId) : List ObjectId :=
  (d.conforms id).filterMap (d.find? ·.name)

/-- The declared conformance graph. -/
def Names (d : Declared) (i j : ObjectId) : Prop := j ∈ d.targets i

/-- The protocols that conforming to the objects of a list gives: a protocol itself, and all that a
class gets from its own list. -/
inductive Flattens (d : Declared) : List ObjectId → List ObjectId → Prop where
  | nil : Flattens d [] []
  | protocol {j : ObjectId} {js ps : List ObjectId} :
    d.isClass j = false → Flattens d js ps → Flattens d (j :: js) (j :: ps)
  | superclass {j : ObjectId} {js ps qs : List ObjectId} :
    d.isClass j = true → Flattens d (d.targets j) qs → Flattens d js ps →
    Flattens d (j :: js) (qs ++ ps)

structure Coherent (d : Declared) : Prop where
  named : ∀ i, ∀ c ∈ d.conforms i, ∃ j, d.find? c.name = some j
  noEnum : ∀ i, ∀ j ∈ d.targets i, d.isEnum j = false
  classOnly : ∀ i, ∀ j ∈ d.targets i, d.isClass j = true → d.isClass i = true
  oneSuperclass : ∀ i, (d.targets i).countP d.isClass ≤ 1
  acyclic : ∀ i, ¬ TransGen d.Names i i
  noDuplicate : ∀ i ps, d.Flattens (d.targets i) ps → ps.Nodup

theorem find?_lt {name : String} {i : ObjectId} (h : d.find? name = some i) :
    i < d.objects.length := by
  obtain ⟨hi, -⟩ := List.findIdx?_eq_some_iff_getElem.1 h
  exact hi

theorem lt_of_mem_targets {i j : ObjectId} (h : j ∈ d.targets i) : j < d.objects.length := by
  obtain ⟨c, -, hc⟩ := List.mem_filterMap.1 h
  exact find?_lt hc

theorem conforms_eq_nil {i : ObjectId} (h : d.objects.length ≤ i) : d.conforms i = [] := by
  simp [conforms, h]

theorem targets_eq_nil {i : ObjectId} (h : d.objects.length ≤ i) : d.targets i = [] := by
  simp [targets, conforms_eq_nil h]

theorem lt_of_names {i j : ObjectId} (h : d.Names i j) : i < d.objects.length := by
  by_contra hi
  rw [Names, targets_eq_nil (Nat.le_of_not_lt hi)] at h
  cases h

theorem isProtocol_of_not {i : ObjectId} (hi : i < d.objects.length) (hc : d.isClass i = false)
    (he : d.isEnum i = false) : d.isProtocol i = true := by
  simp only [isClass, isEnum, isProtocol, List.getElem?_eq_getElem hi, Option.any_some] at *
  cases h : d.objects[i] <;> simp_all [Declaration.isClass, Declaration.isEnum,
    Declaration.isProtocol]

namespace Flattens
variable {i j : ObjectId} {is js ps qs rs : List ObjectId}

theorem unique (h : d.Flattens js ps) (h' : d.Flattens js qs) : ps = qs := by
  induction h generalizing qs with
  | nil =>
    cases h'
    rfl
  | protocol hj _ ih =>
    cases h' with
    | protocol _ h' => rw [ih h']
    | superclass hj' _ _ => simp [hj] at hj'
  | superclass hj _ _ ih₁ ih₂ =>
    cases h' with
    | protocol hj' _ => simp [hj] at hj'
    | superclass _ h₁ h₂ => rw [ih₁ h₁, ih₂ h₂]

theorem append (h : d.Flattens is ps) (h' : d.Flattens js qs) : d.Flattens (is ++ js) (ps ++ qs) := by
  induction h with
  | nil => exact h'
  | protocol hj _ ih => exact .protocol hj ih
  | superclass hj h _ _ ih =>
    rw [List.append_assoc]
    exact .superclass hj h ih

theorem split (h : d.Flattens (is ++ js) rs) :
    ∃ ps qs, d.Flattens is ps ∧ d.Flattens js qs ∧ rs = ps ++ qs := by
  induction is generalizing rs with
  | nil => exact ⟨[], rs, .nil, h, rfl⟩
  | cons i is ih =>
    cases h with
    | protocol hi h =>
      obtain ⟨ps, qs, h₁, h₂, rfl⟩ := ih h
      exact ⟨i :: ps, qs, .protocol hi h₁, h₂, rfl⟩
    | superclass hi h h' =>
      obtain ⟨ps, qs, h₁, h₂, rfl⟩ := ih h'
      exact ⟨_, qs, .superclass hi h h₁, h₂, (List.append_assoc ..).symm⟩

/-- A list flattens if the lists of its classes do. -/
theorem of_classes (h : ∀ j ∈ js, d.isClass j = true → ∃ qs, d.Flattens (d.targets j) qs) :
    ∃ ps, d.Flattens js ps := by
  induction js with
  | nil => exact ⟨[], .nil⟩
  | cons j js ih =>
    obtain ⟨ps, hps⟩ := ih fun i hi => h i (List.mem_cons_of_mem _ hi)
    cases hj : d.isClass j with
    | false => exact ⟨j :: ps, .protocol hj hps⟩
    | true =>
      obtain ⟨qs, hqs⟩ := h j List.mem_cons_self hj
      exact ⟨qs ++ ps, .superclass hj hqs hps⟩

/-- What a class of the list gives is known, so each target adds a list of its own. -/
theorem eq_flatMap {f : ObjectId → List ObjectId}
    (hf : ∀ j ∈ js, d.isClass j = true → d.Flattens (d.targets j) (f j)) (h : d.Flattens js ps) :
    ps = js.flatMap fun j => if d.isClass j then f j else [j] := by
  induction h with
  | nil => rfl
  | protocol hj _ ih =>
    rw [List.flatMap_cons, ← ih fun i hi => hf i (List.mem_cons_of_mem _ hi)]
    simp [hj]
  | superclass hj h₁ _ _ ih =>
    rw [List.flatMap_cons, ← ih fun i hi => hf i (List.mem_cons_of_mem _ hi)]
    simp [hj, unique h₁ (hf _ List.mem_cons_self hj)]

/-- Protocols of the list itself apart, all come from the lists of its classes. -/
theorem all {p : ObjectId → Prop}
    (h : d.Flattens js ps) (hn : ∀ i, ∀ j ∈ d.targets i, d.isClass j = false → p j)
    (hp : ∀ j ∈ js, d.isClass j = false → p j) : ∀ j ∈ ps, p j := by
  induction h with
  | nil => simp
  | protocol hj _ ih =>
    intro i hi
    rcases List.mem_cons.1 hi with rfl | hi
    · exact hp _ List.mem_cons_self hj
    · exact ih (fun k hk => hp k (List.mem_cons_of_mem _ hk)) i hi
  | superclass hj _ _ ih₁ ih₂ =>
    intro i hi
    rcases List.mem_append.1 hi with hi | hi
    · exact ih₁ (hn _) i hi
    · exact ih₂ (fun k hk => hp k (List.mem_cons_of_mem _ hk)) i hi

end Flattens

theorem wellFounded_of_acyclic (h : ∀ i, ¬ TransGen d.Names i i) :
    WellFounded fun j i => d.Names i j := by
  -- Only the finitely many declared objects have targets, so paths among them suffice.
  let below (i j : Fin d.objects.length) : Prop := TransGen d.Names j i
  have : Std.Irrefl below := ⟨fun i => h i⟩
  have : IsTrans _ below := ⟨fun _ _ _ hij hjk => hjk.trans hij⟩
  have wf : WellFounded below := Finite.wellFounded_of_trans_of_irrefl below
  have inRange : ∀ i : Fin d.objects.length, Acc (fun j i => d.Names i j) i.val := by
    intro i
    induction i using wf.induction with
    | _ i ih =>
      constructor
      intro j hj
      exact ih ⟨j, lt_of_mem_targets hj⟩ (.single hj)
  constructor
  intro i
  constructor
  intro j hj
  exact inRange ⟨j, lt_of_mem_targets hj⟩

theorem exists_flattens (h : ∀ i, ¬ TransGen d.Names i i) (i : ObjectId) :
    ∃ ps, d.Flattens (d.targets i) ps := by
  induction i using (wellFounded_of_acyclic h).induction with
  | _ i ih => exact Flattens.of_classes fun j hj _ => ih j hj

end Declared

end ScriptFront.Program
