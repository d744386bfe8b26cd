import ScriptFront.Proofs.Ahead
import ScriptFront.Proofs.Coherence
/-! Resolving the conformances of a program gives what its declarations say, and fails only where
they are not in order. -/
namespace ScriptFront.Program
open Syntax Relation Phrase

namespace Arena
variable {a b : Arena} {i j s : ObjectId} {m : Mark} {ps : List ObjectId}

@[simp] theorem length_setMark : (a.setMark i m).length = a.length := List.length_modify ..
@[simp] theorem length_setSuperclass : (a.setSuperclass i s).length = a.length :=
  List.length_modify ..
@[simp] theorem length_setProtocols : (a.setProtocols i ps).length = a.length :=
  List.length_modify ..

theorem getElem?_setMark_ne (h : j ≠ i) : (a.setMark i m)[j]? = a[j]? :=
  List.getElem?_modify_ne _ a h.symm

theorem markOf?_congr (h : b[i]? = a[i]?) : b.markOf? i = a.markOf? i := by rw [markOf?, h, markOf?]

theorem superclass?_congr (h : b[i]? = a[i]?) : b.superclass? i = a.superclass? i := by
  rw [superclass?, h, superclass?]

theorem protocols_congr (h : b[i]? = a[i]?) : b.protocols i = a.protocols i := by
  rw [protocols, h, protocols]

theorem markOf?_isSome : (a.markOf? i).isSome ↔ i < a.length := by simp [markOf?]

theorem markOf?_setMark (h : i < a.length) : (a.setMark i m).markOf? i = some m := by
  simp [markOf?, setMark, h]

@[simp] theorem superclass?_setMark : (a.setMark i m).superclass? j = a.superclass? j := by
  by_cases h : j = i
  · subst h
    cases hj : a[j]? <;> simp [superclass?, setMark, hj]
  · exact superclass?_congr (getElem?_setMark_ne h)

@[simp] theorem protocols_setMark : (a.setMark i m).protocols j = a.protocols j := by
  by_cases h : j = i
  · subst h
    cases hj : a[j]? <;> simp [protocols, setMark, hj]
  · exact protocols_congr (getElem?_setMark_ne h)

/-- What an object holds is replaced; its mark stays. -/
def adopt (a : Arena) (i : ObjectId) (superclass? : Option ObjectId) (ps : List ObjectId) : Arena :=
  a.modify i fun n => ⟨n.mark, superclass?, ps⟩

variable {s? : Option ObjectId}

@[simp] theorem length_adopt : (a.adopt i s? ps).length = a.length := List.length_modify ..

theorem getElem?_adopt_ne (h : j ≠ i) : (a.adopt i s? ps)[j]? = a[j]? :=
  List.getElem?_modify_ne _ a h.symm

@[simp] theorem markOf?_adopt : (a.adopt i s? ps).markOf? j = a.markOf? j := by
  by_cases h : j = i
  · subst h
    cases hj : a[j]? <;> simp [markOf?, adopt, hj]
  · exact markOf?_congr (getElem?_adopt_ne h)

theorem superclass?_adopt (h : i < a.length) : (a.adopt i s? ps).superclass? i = s? := by
  simp [superclass?, adopt, h]

theorem protocols_adopt (h : i < a.length) : (a.adopt i s? ps).protocols i = ps := by
  simp [protocols, adopt, h]

theorem setProtocols_eq_adopt : a.setProtocols i ps = a.adopt i (a.superclass? i) ps := by
  refine List.ext_getElem? fun j => ?_
  by_cases h : j = i
  · subst h
    cases hj : a[j]? <;> simp [setProtocols, adopt, superclass?, hj]
  · rw [getElem?_adopt_ne h]
    exact List.getElem?_modify_ne _ a (Ne.symm h)

theorem setProtocols_setSuperclass_eq_adopt :
    (a.setSuperclass i s).setProtocols i ps = a.adopt i (some s) ps :=
  List.modify_modify_eq ..

end Arena

section Steps
variable {d : Declared} {a b : Arena} {id target : ObjectId} {c : Conformance}
  {cs : List Conformance}

theorem conformanceTarget_ok_iff : conformanceTarget d a id c = .ok target ↔
    d.find? c.name = some target ∧ d.isEnum target = false ∧
      (d.isClass target = true → d.isClass id = true) ∧ a.markOf? target ≠ some .inProgress ∧
      (d.isClass target = true → a.superclass? id = none) := by
  unfold conformanceTarget
  cases d.find? c.name with
  | none => simp
  | some j =>
    simp only [Option.some.injEq]
    constructor
    · intro h
      split at h
      · cases h
      · split at h
        · cases h
        · split at h
          · cases h
          · cases h
            simp_all
    · rintro ⟨rfl, h₁, h₂, h₃, h₄⟩
      cases hc : d.isClass j <;> simp_all

theorem addProtocols_ok_iff {index : TokenIndex} {known ps qs : List ObjectId}
    (hk : known.Nodup) : addProtocols d index known ps = .ok qs ↔
      qs = known ++ ps ∧ (known ++ ps).Nodup := by
  induction ps generalizing known with
  | nil =>
    rw [addProtocols, List.append_nil, Except.ok.injEq, eq_comm]
    exact (and_iff_left hk).symm
  | cons p ps ih =>
    rw [addProtocols]
    split
    · rename_i hp
      have : ¬ (known ++ p :: ps).Nodup := by
        intro h
        exact (List.nodup_append.1 h).2.2 p hp p List.mem_cons_self rfl
      simp [this]
    · rename_i hp
      have hkp : (known ++ [p]).Nodup := by
        rw [List.nodup_append_comm]
        exact List.nodup_cons.2 ⟨hp, hk⟩
      rw [ih hkp, List.append_assoc, List.singleton_append]

/-- What conforming to an object gives: all protocols of a class, or the protocol itself. -/
def given (d : Declared) (a : Arena) (j : ObjectId) : List ObjectId :=
  if d.isClass j then a.protocols j else [j]

theorem map_ok {ε α β : Type} {x : Except ε α} {f : α → β} {y : β} :
    x.map f = .ok y ↔ ∃ v, x = .ok v ∧ f v = y := by
  cases x <;> simp [Except.map]

theorem adoptTarget_ok_iff {b : { b : Arena // b.pending ≤ a.pending }}
    (hk : (a.protocols id).Nodup) : adoptTarget d a id target c = .ok b ↔
      b.val = a.adopt id (if d.isClass target then some target else a.superclass? id)
        (a.protocols id ++ given d a target) ∧
      (a.protocols id ++ given d a target).Nodup := by
  unfold adoptTarget given
  cases hc : d.isClass target with
  | true =>
    simp only [↓reduceIte, map_ok, addProtocols_ok_iff hk, Subtype.ext_iff,
      Arena.setProtocols_setSuperclass_eq_adopt]
    constructor
    · rintro ⟨_, ⟨rfl, hn⟩, h⟩
      exact ⟨h.symm, hn⟩
    · rintro ⟨h, hn⟩
      exact ⟨_, ⟨rfl, hn⟩, h.symm⟩
  | false =>
    simp only [Bool.false_eq_true, ↓reduceIte, map_ok, addProtocols_ok_iff hk, Subtype.ext_iff,
      Arena.setProtocols_eq_adopt]
    constructor
    · rintro ⟨_, ⟨rfl, hn⟩, h⟩
      exact ⟨h.symm, hn⟩
    · rintro ⟨h, hn⟩
      exact ⟨_, ⟨rfl, hn⟩, h.symm⟩

theorem resolveObject_started (h : a.markOf? id ≠ some .unresolved) :
    resolveObject d id a = .ok ⟨a, Nat.le_refl _⟩ := by
  rw [resolveObject, dif_neg h]
  rfl

theorem resolveObject_ok_iff {b : { b : Arena // b.pending ≤ a.pending }}
    (h : a.markOf? id = some .unresolved) : resolveObject d id a = .ok b ↔
      ∃ c, resolveList d id (d.conforms id) (a.setMark id .inProgress) = .ok c ∧
        b.val = c.val.setMark id .resolved := by
  rw [resolveObject, dif_pos h, bind_ok]
  constructor
  · rintro ⟨c, hc, hb⟩
    cases hb
    exact ⟨c, hc, rfl⟩
  · rintro ⟨c, hc, hb⟩
    exact ⟨c, hc, congrArg Except.ok (Subtype.ext hb.symm)⟩

theorem resolveList_nil : resolveList d id [] a = .ok ⟨a, Nat.le_refl _⟩ := by
  rw [resolveList]
  rfl

theorem resolveList_cons_ok_iff {b : { b : Arena // b.pending ≤ a.pending }} :
    resolveList d id (c :: cs) a = .ok b ↔
      ∃ target a₁ a₂ a₃, conformanceTarget d a id c = .ok target ∧
        resolveObject d target a = .ok a₁ ∧ adoptTarget d a₁.val id target c = .ok a₂ ∧
        resolveList d id cs a₂.val = .ok a₃ ∧ b.val = a₃.val := by
  rw [resolveList]
  simp only [bind_ok]
  constructor
  · rintro ⟨target, h₁, a₁, h₂, a₂, h₃, a₃, h₄, hb⟩
    cases hb
    exact ⟨target, a₁, a₂, a₃, h₁, h₂, h₃, h₄, rfl⟩
  · rintro ⟨target, a₁, a₂, a₃, h₁, h₂, h₃, h₄, hb⟩
    exact ⟨target, h₁, a₁, h₂, a₂, h₃, a₃, h₄, congrArg Except.ok (Subtype.ext hb.symm)⟩

theorem resolveObject_val (h : a.markOf? id = some .unresolved) :
    (resolveObject d id a).map (·.val) =
      (resolveList d id (d.conforms id) (a.setMark id .inProgress)).map (·.val) >>= fun b =>
        .ok (b.setMark id .resolved) := by
  rw [resolveObject, dif_pos h]
  cases resolveList d id (d.conforms id) (a.setMark id .inProgress) <;> rfl

theorem resolveList_cons_val : (resolveList d id (c :: cs) a).map (·.val) =
    conformanceTarget d a id c >>= fun target => (resolveObject d target a).map (·.val) >>=
      fun a₁ => (adoptTarget d a₁ id target c).map (·.val) >>=
        fun a₂ => (resolveList d id cs a₂).map (·.val) := by
  rw [resolveList]
  cases conformanceTarget d a id c with
  | error => rfl
  | ok target =>
    cases h₁ : resolveObject d target a with
    | error => simp [h₁, Bind.bind, Except.bind, Except.map]
    | ok a₁ =>
      cases h₂ : adoptTarget d a₁.val id target c with
      | error => simp [h₁, h₂, Bind.bind, Except.bind, Except.map]
      | ok a₂ => cases h₃ : resolveList d id cs a₂.val <;>
          simp [h₁, h₂, h₃, Bind.bind, Except.bind, Except.map, pure, Except.pure]

end Steps

/-- What is known of an object once the targets `js`, with which its list begins, are adopted. -/
structure Holds (d : Declared) (a : Arena) (id : ObjectId) (js : List ObjectId) : Prop where
  noEnum : ∀ j ∈ js, d.isEnum j = false
  classOnly : ∀ j ∈ js, d.isClass j = true → d.isClass id = true
  oneSuperclass : js.countP d.isClass ≤ 1
  superclass : a.superclass? id = js.find? d.isClass
  flattens : d.Flattens js (a.protocols id)
  nodup : (a.protocols id).Nodup
  resolved : ∀ j ∈ js, a.markOf? j = some .resolved

/-- What is known of a resolved object. -/
structure Settled (d : Declared) (a : Arena) (id : ObjectId) : Prop where
  holds : Holds d a id (d.targets id)
  named : ∀ c ∈ d.conforms id, ∃ j, d.find? c.name = some j
  acc : Acc (fun j i => d.Names i j) id

/-- What every visit to an object preserves. -/
structure Sound (d : Declared) (a : Arena) : Prop where
  length : a.length = d.objects.length
  fresh : ∀ i, a.markOf? i = some .unresolved → a[i]? = some .fresh
  settled : ∀ i, a.markOf? i = some .resolved → Settled d a i

/-- No object that `p` holds of and that was started in `a` differs in `b`, and none is left in
progress that was not. -/
structure Later (p : ObjectId → Prop) (a b : Arena) : Prop where
  kept : ∀ i, p i → a.markOf? i ≠ some .unresolved → b[i]? = a[i]?
  running : ∀ i, b.markOf? i = some .inProgress → a.markOf? i = some .inProgress

section Frames
variable {d : Declared} {a b c : Arena} {i j id : ObjectId} {js : List ObjectId}
  {p : ObjectId → Prop}

theorem Later.refl : Later p a a := ⟨fun _ _ _ => rfl, fun _ => id⟩

theorem Later.trans (h : Later p a b) (h' : Later p b c) : Later p a c where
  kept i hp hi := by
    have hb := h.kept i hp hi
    rw [h'.kept i hp (by rwa [Arena.markOf?_congr hb]), hb]
  running i hi := h.running i (h'.running i hi)

theorem Later.weaken {q : ObjectId → Prop} (h : Later p a b) (hq : ∀ i, q i → p i) : Later q a b :=
  ⟨fun i hi => h.kept i (hq i hi), h.running⟩

theorem Later.resolved (h : Later p a b) (hp : p i) (hi : a.markOf? i = some .resolved) :
    b.markOf? i = some .resolved := by
  rw [Arena.markOf?_congr (h.kept i hp (by simp [hi])), hi]

theorem Holds.congr (h : Holds d a id js) (hs : b.superclass? id = a.superclass? id)
    (hp : b.protocols id = a.protocols id)
    (hr : ∀ j, a.markOf? j = some .resolved → b.markOf? j = some .resolved) : Holds d b id js where
  noEnum := h.noEnum
  classOnly := h.classOnly
  oneSuperclass := h.oneSuperclass
  superclass := hs.trans h.superclass
  flattens := hp ▸ h.flattens
  nodup := hp ▸ h.nodup
  resolved j hj := hr j (h.resolved j hj)

theorem Settled.congr (h : Settled d a id) (hs : b.superclass? id = a.superclass? id)
    (hp : b.protocols id = a.protocols id)
    (hr : ∀ j, a.markOf? j = some .resolved → b.markOf? j = some .resolved) : Settled d b id :=
  ⟨h.holds.congr hs hp hr, h.named, h.acc⟩

/-- An object in progress may change as long as it stays in progress. -/
theorem Sound.edit (ha : Sound d a) (hl : b.length = a.length) (hne : ∀ i, i ≠ id → b[i]? = a[i]?)
    (hid : a.markOf? id ≠ some .resolved) (hb : b.markOf? id = some .inProgress) : Sound d b where
  length := hl.trans ha.length
  fresh i hi := by
    have hne' : i ≠ id := by
      rintro rfl
      simp [hb] at hi
    rw [hne i hne', ha.fresh i (by rw [← Arena.markOf?_congr (hne i hne'), hi])]
  settled i hi := by
    have hne' : i ≠ id := by
      rintro rfl
      simp [hb] at hi
    have h := hne i hne'
    refine (ha.settled i (by rw [← Arena.markOf?_congr h, hi])).congr (Arena.superclass?_congr h)
      (Arena.protocols_congr h) fun j hj => ?_
    rw [Arena.markOf?_congr (hne j (by rintro rfl; exact hid hj)), hj]

theorem Sound.finish (ha : Sound d a) (hid : a.markOf? id = some .inProgress)
    (h : Holds d a id (d.targets id)) (hn : ∀ c ∈ d.conforms id, ∃ j, d.find? c.name = some j) :
    Sound d (a.setMark id .resolved) := by
  have hlt : id < a.length := Arena.markOf?_isSome.1 (by simp [hid])
  have hr (j) (hj : a.markOf? j = some .resolved) :
      (a.setMark id .resolved).markOf? j = some .resolved := by
    by_cases hji : j = id
    · subst hji
      exact Arena.markOf?_setMark hlt
    · rw [Arena.markOf?_congr (Arena.getElem?_setMark_ne hji), hj]
  have hacc : Acc (fun j i => d.Names i j) id := by
    constructor
    intro j hj
    exact (ha.settled j (h.resolved j hj)).acc
  refine ⟨Arena.length_setMark.trans ha.length, fun i hi => ?_, fun i hi => ?_⟩
  · have hne : i ≠ id := by
      rintro rfl
      simp [Arena.markOf?_setMark hlt] at hi
    have hk := Arena.getElem?_setMark_ne (a := a) (m := .resolved) hne
    rw [hk]
    exact ha.fresh i (by rw [← Arena.markOf?_congr hk, hi])
  · by_cases hne : i = id
    · subst hne
      exact Settled.congr ⟨h, hn, hacc⟩ Arena.superclass?_setMark Arena.protocols_setMark hr
    · have hk := Arena.getElem?_setMark_ne (a := a) (m := .resolved) hne
      exact (ha.settled i (by rw [← Arena.markOf?_congr hk, hi])).congr Arena.superclass?_setMark
        Arena.protocols_setMark hr

/-- The next target of a list is adopted: it is resolved, may stand there and brings only what is
new. -/
theorem Holds.snoc (h : Holds d a id js) (hid : id < a.length) (he : d.isEnum j = false)
    (hc : d.isClass j = true → d.isClass id = true)
    (hs : d.isClass j = true → a.superclass? id = none) (hj : Settled d a j)
    (hm : a.markOf? j = some .resolved) (hn : (a.protocols id ++ given d a j).Nodup) :
    Holds d (a.adopt id (if d.isClass j then some j else a.superclass? id)
      (a.protocols id ++ given d a j)) id (js ++ [j]) where
  noEnum := by
    simp only [List.mem_append, List.mem_singleton]
    rintro i (hi | rfl)
    · exact h.noEnum i hi
    · exact he
  classOnly := by
    simp only [List.mem_append, List.mem_singleton]
    rintro i (hi | rfl)
    · exact h.classOnly i hi
    · exact hc
  oneSuperclass := by
    rw [List.countP_append, List.countP_singleton]
    split
    · rename_i hcj
      have hnone := h.superclass.symm.trans (hs hcj)
      have : js.countP d.isClass = 0 := List.countP_eq_zero.2 (List.find?_eq_none.1 hnone)
      omega
    · exact h.oneSuperclass
  superclass := by
    rw [Arena.superclass?_adopt hid, List.find?_append, ← h.superclass, List.find?_singleton]
    split
    · rename_i hcj
      rw [hs hcj]
      rfl
    · rw [Option.or_none]
  flattens := by
    rw [Arena.protocols_adopt hid]
    refine h.flattens.append ?_
    unfold given
    split
    · rename_i hcj
      simpa using Declared.Flattens.superclass hcj hj.holds.flattens .nil
    · rename_i hcj
      exact .protocol (by simpa using hcj) .nil
  nodup := by
    rw [Arena.protocols_adopt hid]
    exact hn
  resolved := by
    simp only [List.mem_append, List.mem_singleton, Arena.markOf?_adopt]
    rintro i (hi | rfl)
    · exact h.resolved i hi
    · exact hm

theorem Holds.fresh (hid : a[id]? = some .fresh) : Holds d (a.setMark id .inProgress) id [] := by
  have hp : (a.setMark id .inProgress).protocols id = [] := by
    rw [Arena.protocols_setMark, Arena.protocols, hid]
    rfl
  have hs : (a.setMark id .inProgress).superclass? id = none := by
    rw [Arena.superclass?_setMark, Arena.superclass?, hid]
    rfl
  exact ⟨by simp, by simp, by simp, hs, by rw [hp]; exact .nil, by simp [hp], by simp⟩

theorem Later.adopt {s? : Option ObjectId} {ps : List ObjectId} :
    Later (· ≠ id) a (a.adopt id s? ps) :=
  ⟨fun _ hi _ => Arena.getElem?_adopt_ne hi, fun i => by rw [Arena.markOf?_adopt]; exact fun h => h⟩

/-- The visits between the two marks of an object leave all others that were started alone. -/
theorem Later.around (h : Later (· ≠ id) (a.setMark id .inProgress) b)
    (hid : a.markOf? id = some .unresolved) (hb : id < b.length) :
    Later (fun _ => True) a (b.setMark id .resolved) where
  kept i _ hi := by
    have hne : i ≠ id := by
      rintro rfl
      exact hi hid
    have hk := Arena.getElem?_setMark_ne (a := a) (m := .inProgress) hne
    rw [Arena.getElem?_setMark_ne hne, h.kept i hne (by rwa [Arena.markOf?_congr hk]), hk]
  running i hi := by
    have hne : i ≠ id := by
      rintro rfl
      simp [Arena.markOf?_setMark hb] at hi
    rw [Arena.markOf?_congr (Arena.getElem?_setMark_ne hne)] at hi
    rw [← h.running i hi, Arena.markOf?_congr (Arena.getElem?_setMark_ne hne)]

end Frames

/-- What a visit to the object `j` makes of an arena. -/
structure Visited (d : Declared) (j : ObjectId) (a b : Arena) : Prop where
  sound : Sound d b
  later : Later (fun _ => True) a b
  resolved : j < d.objects.length → a.markOf? j ≠ some .inProgress → b.markOf? j = some .resolved

/-- What is made of an arena between the two marks of an object, once the targets `js` are
adopted. -/
structure Adopted (d : Declared) (id : ObjectId) (js : List ObjectId) (a b : Arena) : Prop where
  sound : Sound d b
  later : Later (· ≠ id) a b
  running : b.markOf? id = some .inProgress
  holds : Holds d b id js

section Soundness
variable {d : Declared} {a b : Arena} {id j : ObjectId} {js : List ObjectId} {c : Conformance}

theorem Sound.start (ha : Sound d a) (hid : a.markOf? id = some .unresolved) :
    Adopted d id [] (a.setMark id .inProgress) (a.setMark id .inProgress) := by
  have hlt : id < a.length := Arena.markOf?_isSome.1 (by simp [hid])
  have hm := Arena.markOf?_setMark (m := .inProgress) hlt
  exact ⟨ha.edit Arena.length_setMark (fun i => Arena.getElem?_setMark_ne) (by simp [hid]) hm,
    .refl, hm, .fresh (ha.fresh id hid)⟩

/-- An object in progress is as it was after a visit to another. -/
theorem Visited.running (h : Visited d j a b) (hid : a.markOf? id = some .inProgress) :
    b.markOf? id = some .inProgress := by
  rw [Arena.markOf?_congr (h.later.kept id trivial (by simp [hid])), hid]

theorem Visited.holds (h : Visited d j a b) (hid : a.markOf? id = some .inProgress)
    (hjs : Holds d a id js) : Holds d b id js := by
  have hk := h.later.kept id trivial (by simp [hid])
  exact hjs.congr (Arena.superclass?_congr hk) (Arena.protocols_congr hk)
    fun i => h.later.resolved trivial

theorem Visited.settled (h : Visited d j a b) (hc : conformanceTarget d a id c = .ok j) :
    b.markOf? j = some .resolved ∧ Settled d b j := by
  obtain ⟨hj, -, -, hm, -⟩ := conformanceTarget_ok_iff.1 hc
  have hr := h.resolved (Declared.find?_lt hj) hm
  exact ⟨hr, h.sound.settled j hr⟩

theorem Visited.adopt (h : Visited d j a b) (hid : a.markOf? id = some .inProgress)
    (hjs : Holds d a id js) (hc : conformanceTarget d a id c = .ok j)
    {b' : { b' : Arena // b'.pending ≤ b.pending }} (hb : adoptTarget d b id j c = .ok b') :
    Adopted d id (js ++ [j]) a b'.val := by
  obtain ⟨-, he, hcl, -, hsup⟩ := conformanceTarget_ok_iff.1 hc
  obtain ⟨hm, hset⟩ := h.settled hc
  have hidb := h.running hid
  have hjsb := h.holds hid hjs
  obtain ⟨hb', hn⟩ := (adoptTarget_ok_iff hjsb.nodup).1 hb
  have hs (hj : d.isClass j = true) : b.superclass? id = none := by
    rw [hjsb.superclass, ← hjs.superclass, hsup hj]
  have hk : b'.val.markOf? id = some .inProgress := by rw [hb', Arena.markOf?_adopt, hidb]
  rw [hb'] at hk ⊢
  exact ⟨h.sound.edit Arena.length_adopt (fun i => Arena.getElem?_adopt_ne) (by simp [hidb]) hk,
    (h.later.weaken fun _ _ => trivial).trans .adopt, hk,
    hjsb.snoc (Arena.markOf?_isSome.1 (by simp [hidb])) he hcl hs hset hm hn⟩

mutual

theorem resolveObject_sound {a : Arena} {id : ObjectId} {b : { b : Arena // b.pending ≤ a.pending }}
    (h : resolveObject d id a = .ok b) (ha : Sound d a) : Visited d id a b.val := by
  by_cases hid : a.markOf? id = some .unresolved
  · obtain ⟨c, hc, hb⟩ := (resolveObject_ok_iff hid).1 h
    have hs := ha.start hid
    obtain ⟨hl, hn⟩ := resolveList_sound hc hs.sound hs.running hs.holds
    have hlt : id < c.val.length := Arena.markOf?_isSome.1 (by simp [hl.running])
    rw [hb]
    exact ⟨hl.sound.finish hl.running hl.holds hn, hl.later.around hid hlt,
      fun _ _ => Arena.markOf?_setMark hlt⟩
  · rw [resolveObject_started hid, Except.ok.injEq] at h
    subst h
    refine ⟨ha, .refl, fun hlt hp => ?_⟩
    obtain ⟨m, hm⟩ := Option.isSome_iff_exists.1 (Arena.markOf?_isSome.2 (ha.length ▸ hlt))
    cases m with
    | unresolved => exact absurd hm hid
    | inProgress => exact absurd hm hp
    | resolved => exact hm
termination_by (a.pending, 0)
decreasing_by exact .left _ _ (Arena.pending_setMark_lt hid)

theorem resolveList_sound {a : Arena} {id : ObjectId} {cs : List Conformance} {js : List ObjectId}
    {b : { b : Arena // b.pending ≤ a.pending }} (h : resolveList d id cs a = .ok b)
    (ha : Sound d a) (hid : a.markOf? id = some .inProgress) (hjs : Holds d a id js) :
    Adopted d id (js ++ cs.filterMap (d.find? ·.name)) a b.val ∧
      ∀ c ∈ cs, ∃ j, d.find? c.name = some j := by
  cases cs with
  | nil =>
    rw [resolveList_nil, Except.ok.injEq] at h
    subst h
    exact ⟨⟨ha, .refl, hid, by simpa using hjs⟩, by simp⟩
  | cons c cs =>
    obtain ⟨j, a₁, a₂, a₃, hc, h₁, h₂, h₃, hb⟩ := resolveList_cons_ok_iff.1 h
    have hj := (conformanceTarget_ok_iff.1 hc).1
    have hs₂ := (resolveObject_sound h₁ ha).adopt hid hjs hc h₂
    obtain ⟨hs₃, hn⟩ := resolveList_sound h₃ hs₂.sound hs₂.running hs₂.holds
    rw [hb]
    refine ⟨⟨hs₃.sound, hs₂.later.trans hs₃.later, hs₃.running, ?_⟩, ?_⟩
    · simpa [hj] using hs₃.holds
    · exact List.forall_mem_cons.2 ⟨⟨j, hj⟩, hn⟩
termination_by (a.pending, cs.length + 1)
decreasing_by
  · exact .right _ (by simp)
  · subst_vars
    rcases Nat.lt_or_eq_of_le (Nat.le_trans a₂.property a₁.property) with hlt | heq
    · exact .left _ _ hlt
    · rw [heq]
      exact .right _ (by simp)

end

end Soundness

section Completeness
variable {d : Declared}

namespace Declared.Coherent
variable {id j : ObjectId} {js ks : List ObjectId}

/-- A class further on in the list is the only one. -/
theorem find?_eq_none (h : d.Coherent) (hl : js ++ j :: ks = d.targets id)
    (hj : d.isClass j = true) : js.find? d.isClass = none := by
  have := h.oneSuperclass id
  rw [← hl, List.countP_append, List.countP_cons, if_pos hj] at this
  have h₀ : js.countP d.isClass = 0 := by omega
  exact List.find?_eq_none.2 (List.countP_eq_zero.1 h₀)

/-- What the next target gives is new. -/
theorem nodup_given (h : d.Coherent) {a : Arena} (hl : js ++ j :: ks = d.targets id)
    (hjs : Holds d a id js) (hj : Settled d a j) : (a.protocols id ++ given d a j).Nodup := by
  obtain ⟨rs, hrs⟩ := exists_flattens h.acyclic id
  have hn := h.noDuplicate id rs hrs
  rw [← hl, List.append_cons] at hrs
  obtain ⟨ps, qs, h₁, h₂, rfl⟩ := hrs.split
  obtain ⟨ps, ps', h₃, h₄, rfl⟩ := h₁.split
  obtain rfl := h₃.unique hjs.flattens
  have hg : ps' = given d a j := by
    unfold given
    cases h₄ with
    | protocol hc h' =>
      cases h'
      simp [hc]
    | superclass hc h' h'' =>
      cases h''
      simp [hc, h'.unique hj.holds.flattens]
  rw [← hg]
  exact (List.nodup_append.1 hn).1

end Declared.Coherent

/-- Where the next target may be adopted, it is. -/
theorem adoptTarget_total {a : Arena} {id j : ObjectId} {c : Conformance}
    (hk : (a.protocols id).Nodup) (hn : (a.protocols id ++ given d a j).Nodup) :
    ∃ b, adoptTarget d a id j c = .ok b :=
  ⟨⟨a.adopt id (if d.isClass j then some j else a.superclass? id)
      (a.protocols id ++ given d a j), Arena.pending_modify_le _ _ _ fun _ h => h⟩,
    (adoptTarget_ok_iff hk).2 ⟨rfl, hn⟩⟩

mutual

theorem resolveObject_total (hd : d.Coherent) {a : Arena} {id : ObjectId} (ha : Sound d a)
    (hrun : ∀ j, a.markOf? j = some .inProgress → TransGen d.Names j id) :
    ∃ b, resolveObject d id a = .ok b := by
  by_cases hid : a.markOf? id = some .unresolved
  · have hs := ha.start hid
    have hrun' (j) (hj : (a.setMark id .inProgress).markOf? j = some .inProgress) :
        ReflTransGen d.Names j id := by
      by_cases hne : j = id
      · rw [hne]
      · rw [Arena.markOf?_congr (Arena.getElem?_setMark_ne hne)] at hj
        exact (hrun j hj).to_reflTransGen
    have hlist : ∃ c, resolveList d id (d.conforms id) (a.setMark id .inProgress) = .ok c :=
      resolveList_total hd hs.sound hs.running hs.holds rfl (fun _ hc => hc) hrun'
    obtain ⟨c, hc⟩ := hlist
    exact ⟨⟨c.val.setMark id .resolved, by
      have := Arena.pending_setMark_le c.val id (show Mark.resolved ≠ .unresolved by decide)
      have := c.property
      have := Arena.pending_setMark_lt hid
      omega⟩, (resolveObject_ok_iff hid).2 ⟨c, hc, rfl⟩⟩
  · exact ⟨_, resolveObject_started hid⟩
termination_by (a.pending, 0)
decreasing_by exact .left _ _ (Arena.pending_setMark_lt hid)

theorem resolveList_total (hd : d.Coherent) {a : Arena} {id : ObjectId} {cs : List Conformance}
    {js : List ObjectId} (ha : Sound d a) (hid : a.markOf? id = some .inProgress)
    (hjs : Holds d a id js) (hl : js ++ cs.filterMap (d.find? ·.name) = d.targets id)
    (hcs : ∀ c ∈ cs, c ∈ d.conforms id)
    (hrun : ∀ j, a.markOf? j = some .inProgress → ReflTransGen d.Names j id) :
    ∃ b, resolveList d id cs a = .ok b := by
  cases cs with
  | nil => exact ⟨_, resolveList_nil⟩
  | cons c cs =>
    obtain ⟨hc, hcs'⟩ := List.forall_mem_cons.1 hcs
    obtain ⟨j, hj⟩ := hd.named id c hc
    rw [List.filterMap_cons, hj] at hl
    have hmem : j ∈ d.targets id := by simp [← hl]
    have hback (i) (hi : a.markOf? i = some .inProgress) : TransGen d.Names i j :=
      .tail' (hrun i hi) hmem
    have hok : conformanceTarget d a id c = .ok j := by
      refine conformanceTarget_ok_iff.2 ⟨hj, hd.noEnum id j hmem, hd.classOnly id j hmem, ?_, ?_⟩
      · intro hm
        exact hd.acyclic j (hback j hm)
      · intro hcl
        rw [hjs.superclass, hd.find?_eq_none hl hcl]
    obtain ⟨a₁, h₁⟩ := resolveObject_total hd ha hback
    have hv := resolveObject_sound h₁ ha
    have hjs₁ := hv.holds hid hjs
    obtain ⟨a₂, h₂⟩ := adoptTarget_total (c := c) hjs₁.nodup
      (hd.nodup_given hl hjs₁ (hv.settled hok).2)
    have hs₂ := hv.adopt hid hjs hok h₂
    have hrun₂ (i) (hi : a₂.val.markOf? i = some .inProgress) : ReflTransGen d.Names i id :=
      hrun i (hs₂.later.running i hi)
    obtain ⟨a₃, h₃⟩ := resolveList_total hd hs₂.sound hs₂.running hs₂.holds
      (by rw [← List.append_cons, hl]) hcs' hrun₂
    exact ⟨⟨a₃.val, a₃.property.trans (a₂.property.trans a₁.property)⟩,
      resolveList_cons_ok_iff.2 ⟨j, a₁, a₂, a₃, hok, h₁, h₂, h₃, rfl⟩⟩
termination_by (a.pending, cs.length + 1)
decreasing_by
  · exact .right _ (by simp)
  · subst_vars
    rcases Nat.lt_or_eq_of_le (Nat.le_trans a₂.property a₁.property) with hlt | heq
    · exact .left _ _ hlt
    · rw [heq]
      exact .right _ (by simp)

end

end Completeness

/-- No object is in progress. -/
def Arena.Idle (a : Arena) : Prop := ∀ i, a.markOf? i ≠ some .inProgress

section Runs
variable {d : Declared} {a b : Arena} {i : ObjectId} {ids : List ObjectId}

theorem Later.idle {p : ObjectId → Prop} (h : Later p a b) (ha : a.Idle) : b.Idle :=
  fun i hi => ha i (h.running i hi)

theorem visits_sound (h : ids.foldlM (fun a id => (resolveObject d id a).map (·.val)) a = .ok b)
    (ha : Sound d a) (hidle : a.Idle) (hids : ∀ i ∈ ids, i < d.objects.length) :
    Sound d b ∧ Later (fun _ => True) a b ∧ ∀ i ∈ ids, b.markOf? i = some .resolved := by
  induction ids generalizing a with
  | nil =>
    cases h
    exact ⟨ha, .refl, by simp⟩
  | cons i ids ih =>
    rw [List.foldlM_cons, bind_ok] at h
    obtain ⟨_, hm, h₂⟩ := h
    obtain ⟨a₁, h₁, rfl⟩ := map_ok.1 hm
    obtain ⟨hi, hids⟩ := List.forall_mem_cons.1 hids
    have hv := resolveObject_sound h₁ ha
    obtain ⟨hs, hl, hr⟩ := ih h₂ hv.sound (hv.later.idle hidle) hids
    refine ⟨hs, hv.later.trans hl, List.forall_mem_cons.2 ⟨?_, hr⟩⟩
    exact hl.resolved trivial (hv.resolved hi (hidle i))

theorem visits_total (hd : d.Coherent) (ha : Sound d a) (hidle : a.Idle) :
    ∃ b, ids.foldlM (fun a id => (resolveObject d id a).map (·.val)) a = .ok b := by
  induction ids generalizing a with
  | nil => exact ⟨a, rfl⟩
  | cons i ids ih =>
    have hvisit : ∃ b, resolveObject d i a = .ok b :=
      resolveObject_total hd ha fun j hj => absurd hj (hidle j)
    obtain ⟨a₁, h₁⟩ := hvisit
    have hv := resolveObject_sound h₁ ha
    obtain ⟨b, hb⟩ := ih hv.sound (hv.later.idle hidle)
    refine ⟨b, ?_⟩
    rw [List.foldlM_cons, bind_ok]
    exact ⟨a₁.val, map_ok.2 ⟨a₁, h₁, rfl⟩, hb⟩

theorem markOf?_fresh {m : Mark} (h : (Arena.fresh d).markOf? i = some m) : m = .unresolved := by
  simp only [Arena.markOf?, Arena.fresh, List.getElem?_map, Option.map_map] at h
  cases ho : d.objects[i]? <;> simp_all [Node.fresh]

theorem Sound.ofFresh : Sound d (Arena.fresh d) where
  length := by simp [Arena.fresh]
  fresh i hi := by
    have hlt := Arena.markOf?_isSome.1 (Option.isSome_of_eq_some hi)
    rw [Arena.fresh, List.length_map] at hlt
    simp [Arena.fresh, hlt]
  settled i hi := by
    cases markOf?_fresh hi

theorem idle_fresh : (Arena.fresh d).Idle := fun i hi => by cases markOf?_fresh hi

end Runs

/-- One turn in the list of an object, where `visit` resolves what is named there. -/
def conformBy (visit : ObjectId → Arena → Except ResolveError Arena) (d : Declared) (id : ObjectId)
    (a : Arena) (c : Conformance) : Except ResolveError Arena := do
  let target ← conformanceTarget d a id c
  let b ← visit target a
  (adoptTarget d b id target c).map (·.val)

/-- Resolves an object with at most `steps` calls inside each other. -/
def resolveWithin (d : Declared) : Nat → ObjectId → Arena → Except ResolveError Arena
  | 0, _, a => .ok a
  | steps + 1, id, a =>
    if a.markOf? id = some .unresolved then do
      let b ← (d.conforms id).foldlM (conformBy (resolveWithin d steps) d id)
        (a.setMark id .inProgress)
      return b.setMark id .resolved
    else return a

section Evaluation
variable {d : Declared} {a : Arena} {id : ObjectId} {cs : List Conformance} {steps : Nat}
  {visit : ObjectId → Arena → Except ResolveError Arena}

theorem foldlM_conformBy
    (hv : ∀ (target : ObjectId) (a : Arena), a.pending ≤ steps →
      visit target a = (resolveObject d target a).map (·.val)) (ha : a.pending ≤ steps) :
    cs.foldlM (conformBy visit d id) a = (resolveList d id cs a).map (·.val) := by
  induction cs generalizing a with
  | nil =>
    rw [resolveList_nil]
    rfl
  | cons c cs ih =>
    rw [List.foldlM_cons, conformBy, resolveList_cons_val, bind_assoc]
    refine bind_congr fun target => ?_
    rw [hv target a ha, bind_assoc]
    cases resolveObject d target a with
    | error => rfl
    | ok a₁ =>
      rw [Except.map, ok_bind, ok_bind]
      cases adoptTarget d a₁ id target c with
      | error => rfl
      | ok a₂ => exact ih (Nat.le_trans a₂.property (Nat.le_trans a₁.property ha))

/-- No more calls are inside each other than there are objects to start on. -/
theorem resolveWithin_eq (ha : a.pending ≤ steps) :
    resolveWithin d steps id a = (resolveObject d id a).map (·.val) := by
  induction steps generalizing id a with
  | zero =>
    have hid : a.markOf? id ≠ some .unresolved := fun hid =>
      Nat.not_lt_zero _ (Nat.lt_of_lt_of_le (Arena.pending_setMark_lt hid) ha)
    rw [resolveObject_started hid]
    rfl
  | succ steps ih =>
    rw [resolveWithin]
    split
    case isTrue hid =>
      have hlt := Nat.lt_of_lt_of_le (Arena.pending_setMark_lt hid) ha
      rw [resolveObject_val hid, foldlM_conformBy (fun _ _ => ih) (Nat.le_of_lt_succ hlt)]
      rfl
    case isFalse hid =>
      rw [resolveObject_started hid]
      rfl

theorem visits_eq_within {ids : List ObjectId} (ha : a.pending ≤ steps) :
    ids.foldlM (fun a id => (resolveObject d id a).map (·.val)) a =
      ids.foldlM (fun a id => resolveWithin d steps id a) a := by
  induction ids generalizing a with
  | nil => rfl
  | cons id ids ih =>
    rw [List.foldlM_cons, List.foldlM_cons, resolveWithin_eq ha]
    cases resolveObject d id a with
    | error => rfl
    | ok b => exact ih (Nat.le_trans b.property ha)

/-- Resolving by a structural recursion, by which the conformances of a given program can be computed. -/
theorem ofDeclared_eq_within (d : Declared) : Arena.ofDeclared d =
    (List.range d.objects.length).foldlM (fun a id => resolveWithin d d.objects.length id a)
      (Arena.fresh d) := by
  have hlength : (Arena.fresh d).length = d.objects.length := List.length_map ..
  exact visits_eq_within (hlength ▸ List.countP_le_length)

end Evaluation

/-- What the arena of a program says of its objects, all in terms of the declarations. -/
structure Arena.Resolves (a : Arena) (d : Declared) : Prop where
  length : a.length = d.objects.length
  resolved : ∀ i < d.objects.length, a.markOf? i = some .resolved
  superclass : ∀ i, a.superclass? i = (d.targets i).find? d.isClass
  protocols : ∀ i, a.protocols i =
    (d.targets i).flatMap fun j => if d.isClass j then a.protocols j else [j]
  nodup : ∀ i, (a.protocols i).Nodup
  superclass_lt : ∀ i, ∀ j ∈ a.superclass? i, j < d.objects.length
  superclass_isClass : ∀ i, ∀ j ∈ a.superclass? i, d.isClass i = true ∧ d.isClass j = true
  protocols_lt : ∀ i, ∀ j ∈ a.protocols i, j < d.objects.length
  protocols_isProtocol : ∀ i, ∀ j ∈ a.protocols i, d.isProtocol j = true

section Exactness
variable {d : Declared} {a : Arena}

theorem settled_of_ge {i : ObjectId} (hi : d.objects.length ≤ i) (ha : a.length = d.objects.length) :
    Settled d a i where
  holds := by
    have hn : a[i]? = none := List.getElem?_eq_none (ha ▸ hi)
    have hp : a.protocols i = [] := by rw [Arena.protocols, hn]; rfl
    have hs : a.superclass? i = none := by rw [Arena.superclass?, hn]; rfl
    rw [Declared.targets_eq_nil hi]
    exact ⟨by simp, by simp, by simp, hs, by rw [hp]; exact .nil, by simp [hp], by simp⟩
  named := by simp [Declared.conforms_eq_nil hi]
  acc := by
    constructor
    intro j hj
    exact absurd (Declared.lt_of_names hj) (Nat.not_lt.2 hi)

theorem ofDeclared_settled (h : Arena.ofDeclared d = .ok a) :
    a.length = d.objects.length ∧ (∀ i < d.objects.length, a.markOf? i = some .resolved) ∧
      ∀ i, Settled d a i := by
  obtain ⟨hs, -, hr⟩ := visits_sound h .ofFresh idle_fresh fun i => List.mem_range.1
  have hall (i) (hi : i < d.objects.length) := hr i (List.mem_range.2 hi)
  refine ⟨hs.length, hall, fun i => ?_⟩
  by_cases hi : i < d.objects.length
  · exact hs.settled i (hall i hi)
  · exact settled_of_ge (Nat.le_of_not_lt hi) hs.length

theorem coherent_of_settled (h : ∀ i, Settled d a i) : d.Coherent where
  named i := (h i).named
  noEnum i := (h i).holds.noEnum
  classOnly i := (h i).holds.classOnly
  oneSuperclass i := (h i).holds.oneSuperclass
  acyclic i := irrefl_of_acc (h i).acc
  noDuplicate i ps hps := by
    rw [hps.unique (h i).holds.flattens]
    exact (h i).holds.nodup

theorem resolves_of_settled (hl : a.length = d.objects.length)
    (hr : ∀ i < d.objects.length, a.markOf? i = some .resolved) (h : ∀ i, Settled d a i) :
    a.Resolves d := by
  have target {i j} (hj : j ∈ d.targets i) (hc : d.isClass j = false) :
      j < d.objects.length ∧ d.isProtocol j = true :=
    have hlt := Declared.lt_of_mem_targets hj
    ⟨hlt, Declared.isProtocol_of_not hlt hc ((h i).holds.noEnum j hj)⟩
  have listed (i) : ∀ j ∈ a.protocols i, j < d.objects.length ∧ d.isProtocol j = true :=
    (h i).holds.flattens.all (fun _ _ => target) (fun _ => target)
  refine ⟨hl, hr, fun i => (h i).holds.superclass, fun i => ?_, fun i => (h i).holds.nodup, ?_, ?_,
    fun i j hj => (listed i j hj).1, fun i j hj => (listed i j hj).2⟩
  · exact (h i).holds.flattens.eq_flatMap fun j _ _ => (h j).holds.flattens
  · intro i j hj
    rw [Option.mem_def, (h i).holds.superclass] at hj
    exact Declared.lt_of_mem_targets (List.mem_of_find?_eq_some hj)
  · intro i j hj
    rw [Option.mem_def, (h i).holds.superclass] at hj
    have hc : d.isClass j = true := List.find?_some hj
    exact ⟨(h i).holds.classOnly j (List.mem_of_find?_eq_some hj) hc, hc⟩

theorem ofDeclared_ok (h : Arena.ofDeclared d = .ok a) : d.Coherent ∧ a.Resolves d := by
  obtain ⟨hl, hr, hs⟩ := ofDeclared_settled h
  exact ⟨coherent_of_settled hs, resolves_of_settled hl hr hs⟩

/-- The conformances of a program resolve exactly if its declarations are coherent, and then to what
the declarations say. -/
theorem Arena.ofDeclared_exact (d : Declared) :
    ((∃ a, Arena.ofDeclared d = .ok a) ↔ d.Coherent) ∧
      ∀ a, Arena.ofDeclared d = .ok a → a.Resolves d := by
  refine ⟨⟨?_, fun hd => visits_total hd .ofFresh idle_fresh⟩, fun a h => (ofDeclared_ok h).2⟩
  rintro ⟨a, h⟩
  exact (ofDeclared_ok h).1

/-- A class before its superclass, and both before the protocols that they conform to. -/
def forwardClasses : Declared :=
  ⟨[.ofClass ⟨1, "B", [⟨3, "A"⟩, ⟨5, "Q"⟩], []⟩, .ofClass ⟨8, "A", [⟨10, "P"⟩], []⟩,
    .ofProtocol ⟨13, "P", [], []⟩, .ofProtocol ⟨16, "Q", [⟨18, "P"⟩], []⟩], []⟩

def forwardArena : Arena :=
  [⟨.resolved, some 1, [2, 3]⟩, ⟨.resolved, none, [2]⟩, ⟨.resolved, none, []⟩,
    ⟨.resolved, none, [2]⟩]

theorem ofDeclared_forwardClasses : Arena.ofDeclared forwardClasses = .ok forwardArena := by
  rw [ofDeclared_eq_within]
  rfl

theorem Arena.ofDeclared_exact_forward :
    Arena.ofDeclared forwardClasses = .ok forwardArena ∧ forwardClasses.Coherent ∧
      forwardArena.Resolves forwardClasses :=
  have h := Arena.ofDeclared_exact forwardClasses
  ⟨ofDeclared_forwardClasses, h.1.1 ⟨_, ofDeclared_forwardClasses⟩, h.2 _ ofDeclared_forwardClasses⟩

end Exactness

end ScriptFront.Program
