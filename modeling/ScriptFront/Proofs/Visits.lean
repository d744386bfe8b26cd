import ScriptFront.Proofs.Resolution
/-! What the errors of resolving conformances have in common. An object is in progress when one of its
conformances fails; what stands before that in its list is adopted, and every object in progress
reaches it. -/
namespace ScriptFront.Program
open Syntax Relation Phrase

/-- The list of an object is read up to one of its conformances. -/
structure Turn (d : Declared) (a : Arena) (id : ObjectId) (before : List Conformance)
    (c : Conformance) : Prop where
  sound : Sound d a
  running : a.markOf? id = some .inProgress
  listed : ∃ after, d.conforms id = before ++ c :: after
  holds : Holds d a id (before.filterMap (d.find? ·.name))
  reaches : ∀ j, a.markOf? j = some .inProgress → ReflTransGen d.Names j id

/-- Why a conformance may not stand in the list of an object. -/
inductive Rejects (d : Declared) (a : Arena) (id : ObjectId) (c : Conformance) : ResolveError → Prop
  | undefined : d.find? c.name = none → Rejects d a id c ⟨.undefinedObject, c.name, c.anchor⟩
  | invalid : d.find? c.name = some j →
    d.isEnum j = true ∨ d.isClass j = true ∧ d.isClass id = false →
    Rejects d a id c ⟨.invalidConformance, c.name, c.anchor⟩
  | cyclic : d.find? c.name = some j → a.markOf? j = some .inProgress →
    Rejects d a id c ⟨.cyclicConformance, c.name, c.anchor⟩
  | second : d.find? c.name = some j → d.isClass j = true → (a.superclass? id).isSome = true →
    Rejects d a id c ⟨.secondSuperclass, c.name, c.anchor⟩

/-- All errors of a conformance that is read satisfy `p`: those about the object that it names, and
those about a protocol that this gives and that is there already. -/
structure Blames (d : Declared) (p : ResolveError → Prop) : Prop where
  target : ∀ {a id before c e}, Turn d a id before c → Rejects d a id c e → p e
  adopt : ∀ {a id before c j q}, Turn d a id before c → d.find? c.name = some j →
    d.isEnum j = false → Settled d a j → q ∈ given d a j → q ∈ a.protocols id →
    p ⟨.duplicateProtocol, d.nameOf q, c.anchor⟩

section
variable {d : Declared} {a b : Arena} {id j : ObjectId} {before : List Conformance}
  {c : Conformance} {p : ResolveError → Prop}

theorem Turn.mem (h : Turn d a id before c) : c ∈ d.conforms id := by
  obtain ⟨after, h⟩ := h.listed
  rw [h]
  exact List.mem_append_right _ List.mem_cons_self

theorem Turn.names (h : Turn d a id before c) (hj : d.find? c.name = some j) : d.Names id j :=
  List.mem_filterMap.2 ⟨c, h.mem, hj⟩

/-- It is still the same turn when the object that is named has been visited. -/
theorem Turn.visited (h : Turn d a id before c) (hv : Visited d j a b) : Turn d b id before c where
  sound := hv.sound
  running := hv.running h.running
  listed := h.listed
  holds := hv.holds h.running h.holds
  reaches i hi := h.reaches i (hv.later.running i hi)

theorem rejects_conformanceTarget : Fails (Rejects d a id c) (conformanceTarget d a id c) := by
  unfold conformanceTarget
  split
  · next hj => exact .error (.undefined hj)
  · next hj =>
    split
    · next h => exact .error (.invalid hj (by simpa using h))
    · split
      · next h => exact .error (.cyclic hj h)
      · split
        · next h =>
          obtain ⟨hc, hs⟩ := Bool.and_eq_true_iff.1 h
          exact .error (.second hj hc hs)
        · exact .ok

/-- Only what was known before is found again, since what is added has nothing twice. -/
theorem fails_addProtocols {index : TokenIndex} {known ps : List ObjectId} (hps : ps.Nodup) :
    Fails (fun e => ∃ q ∈ ps, q ∈ known ∧ e = ⟨.duplicateProtocol, d.nameOf q, index⟩)
      (addProtocols d index known ps) := by
  induction ps generalizing known with
  | nil => exact .ok
  | cons q ps ih =>
    obtain ⟨hq, hps⟩ := List.nodup_cons.1 hps
    rw [addProtocols]
    split
    · next hknown => exact .error ⟨q, List.mem_cons_self, hknown, rfl⟩
    · refine (ih hps).mono fun e he => ?_
      obtain ⟨r, hr, hknown, he⟩ := he
      refine ⟨r, List.mem_cons_of_mem _ hr, ?_, he⟩
      rcases List.mem_append.1 hknown with hknown | hrq
      · exact hknown
      · obtain rfl := List.mem_singleton.1 hrq
        exact absurd hr hq

theorem fails_adoptTarget (hset : Settled d a j) :
    Fails (fun e => ∃ q ∈ given d a j, q ∈ a.protocols id ∧
      e = ⟨.duplicateProtocol, d.nameOf q, c.anchor⟩) (adoptTarget d a id j c) := by
  unfold adoptTarget given
  split
  · exact (fails_addProtocols hset.holds.nodup).map
  · exact (fails_addProtocols (List.nodup_singleton j)).map

theorem Blames.fails_target (h : Blames d p) (ht : Turn d a id before c) :
    Fails p (conformanceTarget d a id c) :=
  rejects_conformanceTarget.mono fun _ => h.target ht

theorem Blames.fails_adopt (h : Blames d p) (ht : Turn d a id before c)
    (hj : d.find? c.name = some j) (he : d.isEnum j = false) (hset : Settled d a j) :
    Fails p (adoptTarget d a id j c) := by
  refine (fails_adoptTarget hset).mono fun e hq => ?_
  obtain ⟨q, hgiven, hknown, rfl⟩ := hq
  exact h.adopt ht hj he hset hgiven hknown

mutual

theorem Blames.object {a : Arena} {id : ObjectId} (h : Blames d p) (ha : Sound d a)
    (hrun : ∀ j, a.markOf? j = some .inProgress → TransGen d.Names j id) :
    Fails p (resolveObject d id a) := by
  by_cases hid : a.markOf? id = some .unresolved
  · have hs := ha.start hid
    have hrun' (j) (hj : (a.setMark id .inProgress).markOf? j = some .inProgress) :
        ReflTransGen d.Names j id := by
      by_cases hne : j = id
      · rw [hne]
      · rw [Arena.markOf?_congr (Arena.getElem?_setMark_ne hne)] at hj
        exact (hrun j hj).to_reflTransGen
    rw [resolveObject, dif_pos hid]
    have hlist := h.list (List.nil_append (d.conforms id)).symm hs.sound hs.running hs.holds hrun'
    exact .bind hlist fun _ _ => .ok
  · rw [resolveObject_started hid]
    exact .ok
termination_by (a.pending, 0)
decreasing_by exact .left _ _ (Arena.pending_setMark_lt hid)

theorem Blames.list {a : Arena} {id : ObjectId} {before cs : List Conformance}
    (h : Blames d p) (hl : d.conforms id = before ++ cs) (ha : Sound d a)
    (hid : a.markOf? id = some .inProgress) (hjs : Holds d a id (before.filterMap (d.find? ·.name)))
    (hrun : ∀ j, a.markOf? j = some .inProgress → ReflTransGen d.Names j id) :
    Fails p (resolveList d id cs a) := by
  cases cs with
  | nil =>
    rw [resolveList_nil]
    exact .ok
  | cons c cs =>
    have ht : Turn d a id before c := ⟨ha, hid, ⟨cs, hl⟩, hjs, hrun⟩
    rw [resolveList]
    refine .bind (h.fails_target ht) fun j hok => ?_
    obtain ⟨hj, he, -⟩ := conformanceTarget_ok_iff.1 hok
    have hback (i) (hi : a.markOf? i = some .inProgress) : TransGen d.Names i j :=
      .tail' (hrun i hi) (ht.names hj)
    refine .bind (h.object ha hback) fun a₁ h₁ => ?_
    have hv := resolveObject_sound h₁ ha
    refine .bind (h.fails_adopt (ht.visited hv) hj he (hv.settled hok).2) fun a₂ h₂ => ?_
    have hs₂ := hv.adopt hid hjs hok h₂
    have hl₂ : d.conforms id = (before ++ [c]) ++ cs := by rw [hl, List.append_cons]
    have hjs₂ : Holds d a₂.val id ((before ++ [c]).filterMap (d.find? ·.name)) := by
      simpa [List.filterMap_append, hj] using hs₂.holds
    have hrun₂ (i) (hi : a₂.val.markOf? i = some .inProgress) : ReflTransGen d.Names i id :=
      hrun i (hs₂.later.running i hi)
    exact .bind (h.list hl₂ hs₂.sound hs₂.running hjs₂ hrun₂) fun _ _ => .ok
termination_by (a.pending, cs.length + 1)
decreasing_by
  · exact .right _ (by simp)
  · subst_vars
    rcases Nat.lt_or_eq_of_le (Nat.le_trans a₂.property a₁.property) with hlt | heq
    · exact .left _ _ hlt
    · rw [heq]
      exact .right _ (by simp)

end

theorem Blames.visits {a : Arena} {ids : List ObjectId} (h : Blames d p) (ha : Sound d a)
    (hidle : a.Idle) : Fails p (ids.foldlM (fun a id => (resolveObject d id a).map (·.val)) a) := by
  induction ids generalizing a with
  | nil => exact .ok
  | cons i ids ih =>
    rw [List.foldlM_cons]
    refine .bind (h.object ha fun j hj => absurd hj (hidle j)).map fun b hb => ?_
    obtain ⟨a₁, h₁, rfl⟩ := map_ok.1 hb
    have hv := resolveObject_sound h₁ ha
    exact ih hv.sound (hv.later.idle hidle)

theorem Blames.ofDeclared (h : Blames d p) : Fails p (Arena.ofDeclared d) :=
  h.visits .ofFresh idle_fresh

end
end ScriptFront.Program
