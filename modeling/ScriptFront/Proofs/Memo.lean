import ScriptFront.Program
/-! Keeping the types of aliases changes no type and no error. A kept alias stands for what it
expands to wherever none of the aliases that are being expanded is kept, and expansion never comes
to a place where one is. -/
namespace ScriptFront.Program
open Syntax

namespace Expanding
variable {α β : Type}

def result (x : Expanding α) (s : Expanded) : Except ResolveError α := (x.run.run s).1

/-- The aliases that are kept after a computation. -/
def after (x : Expanding α) (s : Expanded) : Expanded := (x.run.run s).2

variable {x : Expanding α} {f : α → Expanding β} {s : Expanded} {v : α} {e : ResolveError}

theorem run_bind : (x >>= f).run.run s = match x.run.run s with
    | (.ok v, s') => (f v).run.run s'
    | (.error e, s') => (.error e, s') := by
  simp only [ExceptT.run_bind, StateT.run_bind]
  rcases x.run.run s with ⟨r, s'⟩
  cases r <;> rfl

theorem run_bind_ok (h : x.result s = .ok v) :
    (x >>= f).run.run s = (f v).run.run (x.after s) := by
  unfold result at h
  rw [run_bind, after]
  rcases hx : x.run.run s with ⟨r, s'⟩
  rw [hx] at h
  cases h
  rfl

theorem run_bind_error (h : x.result s = .error e) :
    (x >>= f).run.run s = (.error e, x.after s) := by
  unfold result at h
  rw [run_bind, after]
  rcases hx : x.run.run s with ⟨r, s'⟩
  rw [hx] at h
  cases h
  rfl

theorem run_get {y : Expanded → Expanding α} : (get >>= y).run.run s = (y s).run.run s := rfl

theorem run_liftM (r : Except ResolveError α) : (liftM r : Expanding α).run.run s = (r, s) := by
  cases r <;> rfl

end Expanding

namespace Expanded

/-- No alias of the list is kept. -/
def Apart (s : Expanded) (expanding : List String) : Prop := ∀ n ∈ expanding, s.lookup n = none

/-- Every kept alias stands for what it expands to. -/
def Sound (d : Declared) (s : Expanded) : Prop :=
  ∀ n t, s.lookup n = some t → ∀ expanding, s.Apart expanding → ∀ i,
    expandName d expanding i n = .ok t

/-- All that is kept at first is kept later. -/
def Grows (s s' : Expanded) : Prop := ∀ n, s'.lookup n = none → s.lookup n = none

variable {d : Declared} {s s' s'' : Expanded} {expanding : List String} {n : String} {t : Ty}

theorem sound_nil : Sound d [] := fun _ _ h => by cases h

theorem apart_nil : s.Apart [] := fun _ h => by cases h

theorem apart_cons : s.Apart (n :: expanding) ↔ s.lookup n = none ∧ s.Apart expanding :=
  List.forall_mem_cons

theorem Grows.refl : Grows s s := fun _ h => h

theorem Grows.trans (h : Grows s s') (h' : Grows s' s'') : Grows s s'' :=
  fun n hn => h n (h' n hn)

theorem Grows.apart (h : Grows s s') (ha : s'.Apart expanding) : s.Apart expanding :=
  fun n hn => h n (ha n hn)

theorem lookup_keep {m : String} :
    List.lookup m ((n, t) :: s : Expanded) = if m = n then some t else s.lookup m := by
  rw [List.lookup_cons]
  by_cases h : m = n
  · simp [h]
  · rw [if_neg h, beq_eq_false_iff_ne.2 h]

theorem Grows.keep : Grows s ((n, t) :: s) := by
  intro m hm
  rw [lookup_keep] at hm
  split at hm
  · cases hm
  · exact hm

theorem Apart.keep (h : s.Apart expanding) (hn : n ∉ expanding) :
    Apart ((n, t) :: s) expanding := by
  intro m hm
  have hne : m ≠ n := by
    rintro rfl
    exact hn hm
  rw [lookup_keep, if_neg hne]
  exact h m hm

theorem not_mem_of_apart (h : Apart ((n, t) :: s) expanding) : n ∉ expanding := by
  intro hn
  have := h n hn
  rw [lookup_keep, if_pos rfl] at this
  cases this

end Expanded

/-- From the kept aliases `s` a computation gives what `f` gives while `expanding` is being
expanded. If that is a value, it is the same wherever no alias kept by then is being expanded. -/
structure Runs {α : Type} (d : Declared) (expanding : List String)
    (f : List String → Except ResolveError α) (x : Expanding α) (s : Expanded) : Prop where
  result : x.result s = f expanding
  sound : (x.after s).Sound d
  apart : (x.after s).Apart expanding
  grows : s.Grows (x.after s)
  settled : ∀ v, f expanding = .ok v → ∀ others, (x.after s).Apart others → f others = .ok v

/-- Whatever is kept, a computation gives what `f` gives. -/
def Memoizes {α : Type} (d : Declared) (expanding : List String)
    (f : List String → Except ResolveError α) (x : Expanding α) : Prop :=
  ∀ s : Expanded, s.Sound d → s.Apart expanding → Runs d expanding f x s

section Memo
variable {α β : Type} {d : Declared} {expanding : List String}
  {f : List String → Except ResolveError α} {g : α → List String → Except ResolveError β}
  {x : Expanding α} {y : α → Expanding β}

theorem Runs.intro {s k : Expanded} {r : Except ResolveError α} (h : x.run.run s = (r, k))
    (hr : r = f expanding) (hs : k.Sound d) (ha : k.Apart expanding) (hg : s.Grows k)
    (hf : ∀ v, f expanding = .ok v → ∀ others, k.Apart others → f others = .ok v) :
    Runs d expanding f x s := by
  have h' : x.after s = k := by rw [Expanding.after, h]
  subst h'
  exact ⟨by rw [Expanding.result, h, hr], hs, ha, hg, hf⟩

theorem Runs.ok {s k : Expanded} {v : α} (h : x.run.run s = (.ok v, k)) (hs : k.Sound d)
    (ha : k.Apart expanding) (hg : s.Grows k)
    (hf : ∀ others, k.Apart others → f others = .ok v) : Runs d expanding f x s := by
  refine .intro h (hf _ ha).symm hs ha hg fun w hw others ho => ?_
  rw [hf others ho, ← hw, hf _ ha]

theorem Runs.error {s k : Expanded} {e : ResolveError} (h : x.run.run s = (.error e, k))
    (hr : f expanding = .error e) (hs : k.Sound d) (ha : k.Apart expanding) (hg : s.Grows k) :
    Runs d expanding f x s := by
  refine .intro h hr.symm hs ha hg fun v hv => ?_
  rw [hr] at hv
  cases hv

theorem Memoizes.constant (r : Except ResolveError α) :
    Memoizes d expanding (fun _ => r) (liftM r) :=
  fun _ hs ha => .intro (Expanding.run_liftM r) rfl hs ha .refl fun _ hv _ _ => hv

theorem Memoizes.bind (hx : Memoizes d expanding f x) (hy : ∀ v, Memoizes d expanding (g v) (y v)) :
    Memoizes d expanding (fun e => f e >>= fun v => g v e) (x >>= y) := by
  intro s hs ha
  have h := hx s hs ha
  cases hf : f expanding with
  | error e =>
    refine .error (Expanding.run_bind_error (h.result.trans hf)) ?_ h.sound h.apart h.grows
    rw [hf]
    rfl
  | ok v =>
    have hv := hy v _ h.sound h.apart
    refine .intro (Expanding.run_bind_ok (h.result.trans hf)) ?_ hv.sound hv.apart
      (h.grows.trans hv.grows) ?_
    · rw [hf]
      exact hv.result
    · intro w hw others ho
      rw [hf] at hw
      rw [h.settled v hf others (hv.grows.apart ho)]
      exact hv.settled w hw others ho

theorem Memoizes.map {h : α → β} (hx : Memoizes d expanding f x) :
    Memoizes d expanding (fun e => do return h (← f e)) (do return h (← x)) :=
  hx.bind fun v => .constant (.ok (h v))

end Memo

section Expansion
variable {d : Declared} {expanding : List String} {i : TokenIndex} {n : String} {a : AliasDecl}

theorem expandName_alias (ha : d.typeAlias? n = some a) (hn : n ∉ expanding) :
    expandName d expanding i n = expand d (n :: expanding) a.type := by
  rw [expandName]
  split
  · rename_i b hb
    cases ha.symm.trans hb
    rw [dif_neg hn]
  · rename_i hb
    cases ha.symm.trans hb

theorem expandName_cycle (ha : d.typeAlias? n = some a) (hn : n ∈ expanding) :
    expandName d expanding i n = .error ⟨.cyclicAlias, n, i⟩ := by
  rw [expandName]
  split
  · rw [dif_pos hn]
  · rename_i hb
    cases ha.symm.trans hb

theorem expandName_plain (ha : d.typeAlias? n = none) :
    expandName d expanding i n = d.plainType i n := by
  rw [expandName]
  split
  · rename_i hb
    cases ha.symm.trans hb
  · rfl

theorem typeOfName_alias (ha : d.typeAlias? n = some a) : typeOfName d expanding i n = do
    match (← get).lookup n with
    | some t => return t
    | none =>
      if n ∈ expanding then throw ⟨.cyclicAlias, n, i⟩
      else do
        let t ← typeOf d (n :: expanding) a.type
        modify ((n, t) :: ·)
        return t := by
  rw [typeOfName]
  split
  · rename_i b hb
    cases ha.symm.trans hb
    rfl
  · rename_i hb
    cases ha.symm.trans hb

section
variable {s : Expanded} {t : Ty} {e : ResolveError}

theorem run_kept (ha : d.typeAlias? n = some a) (hl : s.lookup n = some t) :
    (typeOfName d expanding i n).run.run s = (.ok t, s) := by
  rw [typeOfName_alias ha, Expanding.run_get, hl]
  rfl

theorem run_cycle (ha : d.typeAlias? n = some a) (hl : s.lookup n = none) (hn : n ∈ expanding) :
    (typeOfName d expanding i n).run.run s = (.error ⟨.cyclicAlias, n, i⟩, s) := by
  rw [typeOfName_alias ha, Expanding.run_get, hl]
  simp only [if_pos hn]
  rfl

theorem run_alias_error (ha : d.typeAlias? n = some a) (hl : s.lookup n = none)
    (hn : n ∉ expanding) (h : (typeOf d (n :: expanding) a.type).result s = .error e) :
    (typeOfName d expanding i n).run.run s =
      (.error e, (typeOf d (n :: expanding) a.type).after s) := by
  rw [typeOfName_alias ha, Expanding.run_get, hl]
  simp only [if_neg hn]
  rw [Expanding.run_bind_error h]

theorem run_alias_ok (ha : d.typeAlias? n = some a) (hl : s.lookup n = none) (hn : n ∉ expanding)
    (h : (typeOf d (n :: expanding) a.type).result s = .ok t) :
    (typeOfName d expanding i n).run.run s =
      (.ok t, (n, t) :: (typeOf d (n :: expanding) a.type).after s) := by
  rw [typeOfName_alias ha, Expanding.run_get, hl]
  simp only [if_neg hn]
  rw [Expanding.run_bind_ok h]
  rfl

end

theorem typeOfName_plain (ha : d.typeAlias? n = none) :
    typeOfName d expanding i n = liftM (d.plainType i n) := by
  rw [typeOfName]
  split
  · rename_i hb
    cases ha.symm.trans hb
  · rfl

/-- The type of an alias may be kept once it is known wherever the alias is not being expanded. -/
theorem Expanded.Sound.keep {s : Expanded} {t : Ty} (hs : s.Sound d) (ha : d.typeAlias? n = some a)
    (hn : s.lookup n = none)
    (ht : ∀ others, s.Apart (n :: others) → expand d (n :: others) a.type = .ok t) :
    Expanded.Sound d ((n, t) :: s) := by
  intro m u hm others ho i
  have ho' := Expanded.Grows.keep.apart ho
  rw [Expanded.lookup_keep] at hm
  split at hm
  · rename_i hmn
    subst hmn
    cases hm
    rw [expandName_alias ha (Expanded.not_mem_of_apart ho)]
    exact ht others (Expanded.apart_cons.2 ⟨hn, ho'⟩)
  · exact hs m u hm others ho' i

theorem memoizes_plain (ha : d.typeAlias? n = none) :
    Memoizes d expanding (fun e => expandName d e i n) (typeOfName d expanding i n) := by
  rw [typeOfName_plain ha]
  simp only [expandName_plain ha]
  exact .constant _

/-- An alias that is not kept is expanded, and kept unless that fails. -/
theorem memoizes_alias (ha : d.typeAlias? n = some a)
    (h : n ∉ expanding → Memoizes d (n :: expanding) (fun e => expand d e a.type)
      (typeOf d (n :: expanding) a.type)) :
    Memoizes d expanding (fun e => expandName d e i n) (typeOfName d expanding i n) := by
  intro s hs hap
  cases hl : s.lookup n with
  | some t => exact .ok (run_kept ha hl) hs hap .refl fun others ho => hs n t hl others ho i
  | none =>
    by_cases hn : n ∈ expanding
    · exact .error (run_cycle ha hl hn) (expandName_cycle ha hn) hs hap .refl
    have hx := h hn s hs (Expanded.apart_cons.2 ⟨hl, hap⟩)
    obtain ⟨hnone, hap'⟩ := Expanded.apart_cons.1 hx.apart
    cases hf : expand d (n :: expanding) a.type with
    | error e =>
      exact .error (run_alias_error ha hl hn (hx.result.trans hf))
        ((expandName_alias ha hn).trans hf) hx.sound hap' hx.grows
    | ok t =>
      have hk := hx.sound.keep ha hnone fun others => hx.settled t hf (n :: others)
      refine .ok (run_alias_ok ha hl hn (hx.result.trans hf)) hk (hap'.keep hn)
        (hx.grows.trans .keep) fun others ho => ?_
      exact hk n t (by rw [Expanded.lookup_keep, if_pos rfl]) others ho i

mutual

/-- The type of an annotation does not depend on what is kept. -/
theorem memoizes_typeOf (d : Declared) (expanding : List String) (t : TypeExpr) :
    Memoizes d expanding (fun e => expand d e t) (typeOf d expanding t) := by
  cases t with
  | optional j t =>
    simp only [typeOf, expand]
    exact (memoizes_typeOf d expanding t).map
  | array j t =>
    simp only [typeOf, expand]
    exact (memoizes_typeOf d expanding t).map
  | dictionary j k v =>
    simp only [typeOf, expand]
    exact (memoizes_typeOf d expanding k).bind fun _ => (memoizes_typeOf d expanding v).map
  | name j n =>
    simp only [typeOf, expand]
    exact memoizes_typeOfName d expanding j n
  | member j q n =>
    simp only [typeOf, expand]
    split
    · exact (memoizes_typeOfName d expanding j q).bind fun _ => .constant _
    · exact .constant (.error ⟨.notAMember, n, j⟩)
termination_by (d.unexpanded expanding, sizeOf t)

theorem memoizes_typeOfName (d : Declared) (expanding : List String) (i : TokenIndex) (n : String) :
    Memoizes d expanding (fun e => expandName d e i n) (typeOfName d expanding i n) := by
  cases ha : d.typeAlias? n with
  | none => exact memoizes_plain ha
  | some a => exact memoizes_alias ha fun hn => memoizes_typeOf d (n :: expanding) a.type
termination_by (d.unexpanded expanding, 0)
decreasing_by exact .left _ _ (Declared.unexpanded_lt ha hn)

end

end Expansion
end ScriptFront.Program
