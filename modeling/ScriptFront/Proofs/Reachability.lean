import Mathlib.Data.Finset.Card
import ScriptFront.Proofs.Resolution
/-! In a resolved program the two searches of the arena find all that can be reached: no object reaches
itself, so no way is longer than there are objects. -/
namespace ScriptFront.Program
open Syntax Relation

namespace Declared
variable {d : Declared}

open Classical in
/-- The objects that an object reaches. -/
noncomputable def reached (d : Declared) (i : ObjectId) : Finset ObjectId :=
  (Finset.range d.objects.length).filter fun j => TransGen d.Names i j

theorem lt_of_transGen {i j : ObjectId} (h : TransGen d.Names i j) : j < d.objects.length := by
  cases h with
  | single h => exact lt_of_mem_targets h
  | tail _ h => exact lt_of_mem_targets h

theorem mem_reached {i j : ObjectId} : j ∈ d.reached i ↔ TransGen d.Names i j := by
  simp only [reached, Finset.mem_filter, Finset.mem_range, and_iff_right_iff_imp]
  exact lt_of_transGen

theorem card_reached_lt (h : d.Coherent) {i j : ObjectId} (hij : TransGen d.Names i j) :
    (d.reached j).card < (d.reached i).card := by
  apply Finset.card_lt_card
  rw [Finset.ssubset_iff_of_subset]
  · exact ⟨j, mem_reached.2 hij, fun hj => h.acyclic j (mem_reached.1 hj)⟩
  · intro k hk
    exact mem_reached.2 (hij.trans (mem_reached.1 hk))

theorem card_reached_lt_length (h : d.Coherent) {i : ObjectId} (hi : i < d.objects.length) :
    (d.reached i).card < d.objects.length := by
  rw [← Finset.card_range d.objects.length]
  apply Finset.card_lt_card
  rw [Finset.ssubset_iff_of_subset]
  · exact ⟨i, Finset.mem_range.2 hi, fun hm => h.acyclic i (mem_reached.1 hm)⟩
  · intro j hj
    exact Finset.mem_range.2 (lt_of_transGen (mem_reached.1 hj))

end Declared

namespace Arena
variable {a : Arena} {d : Declared} {i j k : ObjectId}

/-- An object lists a protocol itself. -/
def Lists (a : Arena) (i j : ObjectId) : Prop := j ∈ a.protocols i

/-- One step up the chain of superclasses. -/
def Extends (a : Arena) (i j : ObjectId) : Prop := a.superclass? i = some j

theorem transGen_of_adoptsWithin {steps : Nat} (h : a.adoptsWithin steps i j = true) :
    TransGen a.Lists i j := by
  induction steps generalizing i with
  | zero => cases h
  | succ steps ih =>
    rw [adoptsWithin, List.any_eq_true] at h
    obtain ⟨k, hk, h⟩ := h
    rcases (Bool.or_eq_true _ _).mp h with hj | hj
    · obtain rfl := beq_iff_eq.1 hj
      exact .single hk
    · exact .head hk (ih hj)

theorem reflTransGen_of_isSubclassWithin {steps : Nat} (h : a.isSubclassWithin steps i j = true) :
    ReflTransGen a.Extends i j := by
  induction steps generalizing i with
  | zero => cases h
  | succ steps ih =>
    rw [isSubclassWithin, Bool.or_eq_true] at h
    rcases h with h | h
    · obtain rfl := beq_iff_eq.1 h
      exact .refl
    · split at h
      · rename_i k hk
        exact .head hk (ih h)
      · cases h

namespace Resolves

theorem names_of_extends (h : a.Resolves d) (hij : a.Extends i j) : d.Names i j := by
  rw [Extends, h.superclass] at hij
  exact List.mem_of_find?_eq_some hij

/-- The protocols that an object lists are among the objects that it reaches. -/
theorem transGen_of_lists (h : a.Resolves d) (hd : d.Coherent) (hij : a.Lists i j) :
    TransGen d.Names i j := by
  induction i using (Declared.wellFounded_of_acyclic hd.acyclic).induction with
  | _ i ih =>
    rw [Lists, h.protocols, List.mem_flatMap] at hij
    obtain ⟨k, hk, hj⟩ := hij
    split at hj
    · exact .head hk (ih k hk hj)
    · obtain rfl := List.mem_singleton.1 hj
      exact .single hk

theorem adoptsWithin_of_transGen (h : a.Resolves d) (hd : d.Coherent) {steps : Nat}
    (hij : TransGen a.Lists i j) (hs : (d.reached i).card ≤ steps) :
    a.adoptsWithin steps i j = true := by
  induction hij using TransGen.head_induction_on generalizing steps with
  | @single i hij =>
    have hlt := Declared.card_reached_lt hd (h.transGen_of_lists hd hij)
    obtain ⟨steps, rfl⟩ := Nat.exists_eq_succ_of_ne_zero (n := steps) (by omega)
    rw [adoptsWithin, List.any_eq_true]
    exact ⟨j, hij, by simp⟩
  | @head i k hik _ ih =>
    have hlt := Declared.card_reached_lt hd (h.transGen_of_lists hd hik)
    obtain ⟨steps, rfl⟩ := Nat.exists_eq_succ_of_ne_zero (n := steps) (by omega)
    rw [adoptsWithin, List.any_eq_true]
    have hrest := ih (Nat.le_of_lt_succ (Nat.lt_of_lt_of_le hlt hs))
    exact ⟨k, hik, by simp [hrest]⟩

theorem isSubclassWithin_of_reflTransGen (h : a.Resolves d) (hd : d.Coherent) {steps : Nat}
    (hij : ReflTransGen a.Extends i j) (hs : (d.reached i).card < steps) :
    a.isSubclassWithin steps i j = true := by
  induction hij using ReflTransGen.head_induction_on generalizing steps with
  | refl =>
    obtain ⟨steps, rfl⟩ := Nat.exists_eq_succ_of_ne_zero (n := steps) (by omega)
    simp [isSubclassWithin]
  | @head i k hik _ ih =>
    have hlt := Declared.card_reached_lt hd (.single (h.names_of_extends hik))
    obtain ⟨steps, rfl⟩ := Nat.exists_eq_succ_of_ne_zero (n := steps) (by omega)
    have hik' : a.superclass? i = some k := hik
    rw [isSubclassWithin, hik', Bool.or_eq_true]
    exact .inr (ih (by omega))

theorem lt_of_lists (h : a.Resolves d) (hd : d.Coherent) (hij : a.Lists i j) :
    i < d.objects.length := by
  obtain ⟨k, hik, -⟩ := TransGen.head'_iff.1 (h.transGen_of_lists hd hij)
  exact Declared.lt_of_names hik

theorem adopts_iff (h : a.Resolves d) (hd : d.Coherent) :
    a.adopts i j = true ↔ TransGen a.Lists i j := by
  refine ⟨transGen_of_adoptsWithin, fun hij => ?_⟩
  obtain ⟨k, hik, -⟩ := TransGen.head'_iff.1 hij
  refine h.adoptsWithin_of_transGen hd hij ?_
  rw [h.length]
  exact (Declared.card_reached_lt_length hd (h.lt_of_lists hd hik)).le

theorem isSubclass_iff (h : a.Resolves d) (hd : d.Coherent) (hi : i < d.objects.length) :
    a.isSubclass i j = true ↔ ReflTransGen a.Extends i j := by
  refine ⟨reflTransGen_of_isSubclassWithin, fun hij => ?_⟩
  refine h.isSubclassWithin_of_reflTransGen hd hij ?_
  rw [h.length]
  exact Declared.card_reached_lt_length hd hi

theorem not_adopts_self (h : a.Resolves d) (hd : d.Coherent) : ¬ TransGen a.Lists i i := by
  intro hi
  have hle : a.Lists ≤ TransGen d.Names := fun _ _ => h.transGen_of_lists hd
  exact hd.acyclic i (TransGen.closed hle i i hi)

theorem extends_antisymm (h : a.Resolves d) (hd : d.Coherent) (hij : ReflTransGen a.Extends i j)
    (hji : ReflTransGen a.Extends j i) : i = j := by
  have hle : a.Extends ≤ d.Names := fun _ _ => h.names_of_extends
  rcases reflTransGen_iff_eq_or_transGen.1 hij with he | hij
  · exact he.symm
  · exact absurd (TransGen.mono hle i i (hij.trans_left hji)) (hd.acyclic i)

/-- A class lists all that its superclass lists. -/
theorem lists_of_extends (h : a.Resolves d) (hij : a.Extends i j) (hjk : a.Lists j k) :
    a.Lists i k := by
  have hc := (h.superclass_isClass i j hij).2
  rw [Lists, h.protocols, List.mem_flatMap]
  exact ⟨j, h.names_of_extends hij, by rwa [if_pos hc]⟩

theorem adopts_of_subclass (h : a.Resolves d) (hij : ReflTransGen a.Extends i j)
    (hjk : TransGen a.Lists j k) : TransGen a.Lists i k := by
  induction hij using ReflTransGen.head_induction_on with
  | refl => exact hjk
  | head hik _ ih =>
    obtain ⟨l, hl, hlk⟩ := TransGen.head'_iff.1 ih
    exact .head' (h.lists_of_extends hik hl) hlk

end Resolves

end Arena

end ScriptFront.Program
