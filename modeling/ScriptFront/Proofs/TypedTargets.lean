import ScriptFront.Proofs.TypeGrammar
/-! The guess that an annotated target is next. It is made good exactly where a name, a colon and a
type stand in front of a comma or `=`, and no chain is read there. Everywhere else the cursor comes
back to where it was, and the parser goes on as if nothing had been guessed. -/
namespace ScriptFront.Phrase
open Syntax Token

/-- From `p` on, the tokens are a name, a colon and a type, with a comma or `=` behind them at `q`. -/
def TargetStandsAt (ts : List Token) (p q : TokenIndex) (typed : TypedName) : Prop :=
  ∃ w type, typed = ⟨p, w, some type⟩ ∧
    ts[p]? = some (.name w) ∧ ts[p + 1]? = some (.operator .colon) ∧
    Comes (.call .typeExpr) ⟨ts, p + 2⟩ (.ok type) ⟨ts, q⟩ ∧
    (ts[q]? = some (.operator .comma) ∨ ts[q]? = some (.operator .equal))

namespace Walk

/-- An assignment to a chain at first, or a call: what is read where nothing is guessed. -/
def chainStatement (anchor : TokenIndex) : Walk Stmt := do
  let e ← call .chain
  match ← peek with
  | some (_, .operator .comma) | some (_, .operator .equal) => do
    let target ← ofExcept (readTarget e)
    call (.assignment anchor target)
  | some (_, .operator o) =>
    match Arithmetic.ofAssignment? o with
    | some op => do
      skip
      let target ← ofExcept (readTarget e)
      let value ← call (.expression 0)
      return .update anchor target op value
    | none => ofExcept (callStatement anchor e)
  | _ => ofExcept (callStatement anchor e)

/-- A target that is a chain: what is read where nothing is guessed. -/
def chainTarget : Walk Target := do
  let e ← call .chain
  ofExcept (readTarget e)

end Walk

section
variable {ts us : List Token} {s : Stream} {p q : Nat} {u : Token} {typed : TypedName}

/-- The tokens from an index on, taken one by one. -/
theorem Stream.at_eq_cons_iff {n : TokenIndex} : Stream.at ts p = ⟨n, u :: us⟩ ↔
    n = p ∧ ts[p]? = some u ∧ Stream.at ts (p + 1) = ⟨p + 1, us⟩ := by
  constructor
  · intro h
    obtain ⟨rfl, hdrop⟩ := Stream.mk.inj h
    refine ⟨rfl, by rw [← List.head?_drop, hdrop, List.head?_cons], ?_⟩
    rw [Stream.at, ← List.tail_drop, hdrop, List.tail_cons]
  · rintro ⟨rfl, hu, hus⟩
    obtain ⟨hn, rfl⟩ := List.getElem?_eq_some_iff.1 hu
    rw [Stream.at, List.drop_eq_getElem_cons hn, (Stream.mk.inj hus).2]

/-- A typed target is read where it stands. -/
theorem typedTarget_at_iff :
    Reading.TypedTarget (.at ts p) typed (.at ts q) ↔ TargetStandsAt ts p q typed := by
  constructor
  · intro h
    generalize hs : Stream.at ts p = s at h
    generalize ht : Stream.at ts q = t at h
    cases h with
    | intro ha hu =>
      obtain ⟨rfl, hname, hs⟩ := Stream.at_eq_cons_iff.1 hs
      obtain ⟨-, hcolon, hs⟩ := Stream.at_eq_cons_iff.1 hs
      rw [← ht, ← hs] at ha
      refine ⟨_, _, rfl, hname, hcolon, comes_typeExpr_iff.2 (yields_typeExpr_at_iff.1 ha), ?_⟩
      obtain ⟨-, hend, -⟩ := Stream.at_eq_cons_iff.1 ht
      rcases hu with rfl | rfl
      · exact .inl hend
      · exact .inr hend
  · rintro ⟨w, type, rfl, hname, hcolon, htype, hend⟩
    have ha := yields_typeExpr_at_iff.2 (comes_typeExpr_iff.1 htype)
    rw [Stream.at_eq_cons_iff.2 ⟨rfl, hname, Stream.at_eq_cons_iff.2 ⟨rfl, hcolon, rfl⟩⟩]
    rcases hend with hend | hend
    · rw [Stream.at_eq_cons_iff.2 ⟨rfl, hend, rfl⟩] at ha ⊢
      exact .intro ha (.inl rfl)
    · rw [Stream.at_eq_cons_iff.2 ⟨rfl, hend, rfl⟩] at ha ⊢
      exact .intro ha (.inr rfl)

theorem found_typedTarget?_iff :
    (∃ h, typedTarget? (.at ts p) = some ⟨typed, .at ts q, h⟩) ↔ TargetStandsAt ts p q typed := by
  rw [← typedTarget_at_iff]
  constructor
  · rintro ⟨_, h⟩
    exact reads_typedTarget? h
  · exact Reading.TypedTarget.found

/-- Where a typed target stands, a chain would go on with the arguments of a method. -/
theorem chain_error_of_target (h : TargetStandsAt ts p q typed) :
    ∃ e, chain (.at ts p) = .error e := by
  obtain ⟨_, hfound⟩ := found_typedTarget?_iff.2 h
  cases hc : chain (.at ts p) with
  | error e => exact ⟨e, rfl⟩
  | ok c =>
    obtain ⟨e, t, _⟩ := c
    have hread : Reading.Chain (.at ts p) e t :=
      (sound _).chain (Nat.lt_succ_self _) hc
    cases hread.typedTarget?_none.symm.trans hfound

theorem comes_of_target (h : TargetStandsAt ts p q typed) :
    Comes Walk.typedTarget? ⟨ts, p⟩ (.ok (some typed)) ⟨ts, q⟩ := by
  obtain ⟨_, hfound⟩ := found_typedTarget?_iff.2 h
  obtain ⟨w, type, -, hname, -⟩ := h
  obtain ⟨hp, -⟩ := List.getElem?_eq_some_iff.1 hname
  have hwalk := walks_typedTarget? (Stream.In.drop (Nat.le_of_lt hp))
  have hfound : typedTarget? ⟨p, ts.drop p⟩ = _ := hfound
  rw [hfound] at hwalk
  exact hwalk

theorem typedTarget?_eq_none (h : ∀ q typed, ¬ TargetStandsAt ts p q typed) :
    typedTarget? (.at ts p) = none := by
  cases hfound : typedTarget? (.at ts p) with
  | none => rfl
  | some found =>
    obtain ⟨typed, t, ht⟩ := found
    have hp : p ≤ ts.length := by
      have hlt := ht.length_lt
      simp only [Stream.at, List.length_drop] at hlt
      omega
    have hread : Reading.TypedTarget (.at ts p) typed t := reads_typedTarget? hfound
    rw [((Stream.In.drop hp).follows ht).eq_at] at hread
    exact (h _ _ (typedTarget_at_iff.1 hread)).elim

/-- A guess that fails comes to nothing, wherever the cursor is. -/
theorem comes_of_no_target (h : ∀ q typed, ¬ TargetStandsAt ts p q typed) :
    Comes Walk.typedTarget? ⟨ts, p⟩ (.ok none) ⟨ts, p⟩ := by
  rcases Nat.lt_or_ge ts.length p with hp | hp
  · have hlabel : Comes Walk.labelAhead? ⟨ts, p⟩ (.ok none) ⟨ts, p⟩ :=
      (Walk.peek_beyond (Nat.le_of_lt hp)).bind ((Walk.peekSecond_of rfl).bind .value)
    exact hlabel.bind .value
  · have hwalk := walks_typedTarget? (Stream.In.drop hp)
    have hnone : typedTarget? ⟨p, ts.drop p⟩ = none := typedTarget?_eq_none h
    rw [hnone] at hwalk
    exact hwalk

theorem comes_typedTarget?_iff :
    Comes Walk.typedTarget? ⟨ts, p⟩ (.ok (some typed)) ⟨ts, q⟩ ↔ TargetStandsAt ts p q typed := by
  refine ⟨fun hc => ?_, comes_of_target⟩
  by_cases h : ∃ q typed, TargetStandsAt ts p q typed
  · obtain ⟨q', typed', h⟩ := h
    obtain ⟨htyped, hend⟩ := hc.unique (comes_of_target h)
    cases htyped
    cases hend
    exact h
  · have hnone := comes_of_no_target fun q typed ht => h ⟨q, typed, ht⟩
    cases (hc.unique hnone).1

/-- Where nothing is found, what follows a guess is what would be done without it. -/
theorem comes_after_guess {α : Type} {k : Option TypedName → Walk α} {r : Except ParseError α}
    {c : Cursor} (h : ∀ q typed, ¬ TargetStandsAt ts p q typed) :
    Comes (Walk.typedTarget? >>= k) ⟨ts, p⟩ r c ↔ Comes (k none) ⟨ts, p⟩ r c :=
  (comes_of_no_target h).bind_iff

end

/-- The guess that a typed target is next is exact and takes no chain for one. It is made good where
a name, a colon and a type stand in front of a comma or `=`, and only there; and there a chain is not
read. Everywhere else it finds nothing, without an error and with the cursor where it was, and what
is read then is read as without the guess: the statement, or the further target of an assignment. -/
theorem typedTarget_exact (ts : List Token) (p : TokenIndex) :
    (∀ q typed, (∃ h, typedTarget? (.at ts p) = some ⟨typed, .at ts q, h⟩) ↔
      TargetStandsAt ts p q typed) ∧
    (∀ q typed, Comes (.call .typedTarget?) ⟨ts, p⟩ (.ok (some typed)) ⟨ts, q⟩ ↔
      TargetStandsAt ts p q typed) ∧
    (∀ q typed, TargetStandsAt ts p q typed →
      ∃ e c, chain (.at ts p) = .error e ∧ Comes (.call .chain) ⟨ts, p⟩ (.error e) c) ∧
    ((∀ q typed, ¬ TargetStandsAt ts p q typed) →
      typedTarget? (.at ts p) = none ∧
      Comes (.call .typedTarget?) ⟨ts, p⟩ (.ok none) ⟨ts, p⟩ ∧
      (∀ anchor r c, Comes (.call (.assignmentOrCall anchor)) ⟨ts, p⟩ r c ↔
        Comes (Walk.chainStatement anchor) ⟨ts, p⟩ r c) ∧
      ∀ r c, Comes (.call .oneTarget) ⟨ts, p⟩ r c ↔ Comes Walk.chainTarget ⟨ts, p⟩ r c) := by
  refine ⟨fun _ _ => found_typedTarget?_iff, fun _ _ => ?_, fun q typed h => ?_, fun h => ?_⟩
  · rw [Comes.call_iff]
    exact comes_typedTarget?_iff
  · obtain ⟨e, he⟩ := chain_error_of_target h
    obtain ⟨w, type, -, hname, -⟩ := h
    obtain ⟨hp, -⟩ := List.getElem?_eq_some_iff.1 hname
    have hwalk := (walksBelow ts _).chain (Nat.lt_succ_self _) (Stream.In.drop (Nat.le_of_lt hp))
    have he' : chain ⟨p, ts.drop p⟩ = .error e := he
    rw [he'] at hwalk
    obtain ⟨m, -, hwalk⟩ := hwalk
    exact ⟨e, _, he, hwalk⟩
  · refine ⟨typedTarget?_eq_none h, .call (comes_of_no_target h), fun anchor r c => ?_, fun r c => ?_⟩
    · rw [Comes.call_iff]
      exact comes_after_guess h
    · rw [Comes.call_iff]
      exact comes_after_guess h

theorem targetStandsAt_annotated :
    TargetStandsAt annotatedTokens 0 10 ⟨0, "x", some annotatedType⟩ :=
  ⟨"x", annotatedType, rfl, rfl, rfl, comes_typeExpr_iff.2 standsAt_annotated, .inr rfl⟩

/-- In `x:f()` a type stands behind the colon, but neither a comma nor `=` behind the type. -/
theorem no_target_call (q : TokenIndex) (typed : TypedName) :
    ¬ TargetStandsAt callTokens 0 q typed := by
  rintro ⟨w, type, -, -, -, -, hend | hend⟩
  · simpa [callTokens] using List.mem_of_getElem? hend
  · simpa [callTokens] using List.mem_of_getElem? hend

/-- `x: [k: v.w?] = ` is a typed target and no chain, `x:f()` is a chain and no typed target. -/
theorem typedTarget_exact_call :
    (Comes (.call .typedTarget?) ⟨annotatedTokens, 0⟩ (.ok (some ⟨0, "x", some annotatedType⟩))
        ⟨annotatedTokens, 10⟩ ∧
      ∃ e c, Comes (.call .chain) ⟨annotatedTokens, 0⟩ (.error e) c) ∧
    (∀ q typed, ¬ TargetStandsAt callTokens 0 q typed) ∧
      Comes (.call .typedTarget?) ⟨callTokens, 0⟩ (.ok none) ⟨callTokens, 0⟩ := by
  obtain ⟨-, hguess, hchain, -⟩ := typedTarget_exact annotatedTokens 0
  obtain ⟨-, -, -, hnone⟩ := typedTarget_exact callTokens 0
  obtain ⟨e, c, -, herror⟩ := hchain _ _ targetStandsAt_annotated
  exact ⟨⟨(hguess _ _).2 targetStandsAt_annotated, e, c, herror⟩, no_target_call,
    (hnone no_target_call).2.1⟩

end ScriptFront.Phrase
