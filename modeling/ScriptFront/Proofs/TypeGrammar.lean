import ScriptFront.Proofs.CursorBounds
/-! The reader of types accepts exactly the types. What it reads, and where it stops, is said of the
tokens between two indices and of the one behind them, and so is what the cursor of a walk does. -/
namespace ScriptFront

/-- The tokens from `i` to `j` spell the type, each node of it has the index of its first token, and
the type does not go on with the token at `j`, if there is one. -/
structure Syntax.TypeExpr.StandsAt (ts : List Token) (i j : TokenIndex) (type : TypeExpr) : Prop where
  inRange : j ≤ ts.length
  spelled : (ts.take j).drop i = type.spelling
  anchored : type.place i = type
  noQuestion : ts[j]? ≠ some (.operator .question)
  noDot : ∀ k w, type = .name k w → ts[j]? ≠ some (.operator .dot)

namespace Phrase
open Syntax Token

/-- What is left of the tokens from an index on. -/
def Stream.at (ts : List Token) (i : TokenIndex) : Stream := ⟨i, ts.drop i⟩

section
variable {ts us : List Token} {s : Stream} {i j : Nat} {type : TypeExpr} {p : Token → Prop}

theorem Stream.In.eq_at (hs : s.In ts) : s = .at ts s.next := by
  obtain ⟨taken, hleft, hnext⟩ := hs
  obtain ⟨n, left⟩ := s
  obtain rfl : n = taken.length := by simpa [Stream.ofTokens] using hnext
  obtain rfl : ts = taken ++ left := hleft
  simp [Stream.at]

theorem Stream.stops_at_iff : (Stream.at ts j).Stops p ↔ ∀ u, ts[j]? = some u → ¬ p u := by
  simp [Stream.Stops, Stream.at, List.head?_drop]

/-- Tokens that are taken are those between two indices. -/
theorem Stream.after_at_iff (hne : us ≠ []) :
    After us (.at ts i) (.at ts j) ↔ j ≤ ts.length ∧ (ts.take j).drop i = us := by
  have hpos := List.length_pos_iff.2 hne
  rw [List.drop_take]
  constructor
  · rintro ⟨h, hj⟩
    have h : ts.drop i = us ++ ts.drop j := h
    have hj : j = i + us.length := hj
    have hlength := congrArg List.length h
    simp only [List.length_drop, List.length_append] at hlength
    have hsub : j - i = us.length := by omega
    exact ⟨by omega, by rw [h, hsub, List.take_left]⟩
  · rintro ⟨hj, h⟩
    have hlength := congrArg List.length h
    simp only [List.length_take, List.length_drop] at hlength
    have hend : j = i + us.length := by omega
    have hsplit := List.take_append_drop (j - i) (ts.drop i)
    have hsum : i + (j - i) = j := by omega
    rw [h, List.drop_drop, hsum] at hsplit
    exact ⟨hsplit.symm, hend⟩

theorem stops_goesOnType_iff : (Stream.at ts j).Stops (goesOnType type) ↔
    ts[j]? ≠ some (.operator .question) ∧
      ∀ k w, type = .name k w → ts[j]? ≠ some (.operator .dot) := by
  rw [Stream.stops_at_iff]
  cases type with
  | name k w =>
    constructor
    · intro h
      exact ⟨fun hu => h _ hu (.inr rfl), fun _ _ _ hu => h _ hu (.inl rfl)⟩
    · rintro ⟨hquestion, hdot⟩ u hu (rfl | rfl)
      · exact hdot k w rfl hu
      · exact hquestion hu
  | _ =>
    constructor
    · intro h
      exact ⟨fun hu => h _ hu rfl, nofun⟩
    · rintro ⟨hquestion, -⟩ u hu rfl
      exact hquestion hu

/-- The reader of types, between two indices. -/
theorem yields_typeExpr_at_iff :
    Yields (typeExpr (.at ts i)) type (.at ts j) ↔ type.StandsAt ts i j := by
  have hne : type.spelling ≠ [] := by
    obtain ⟨u, us, h, -⟩ := Reading.spelling_head type
    rw [h]
    exact List.cons_ne_nil u us
  rw [typeExpr_yields_iff, Stream.after_at_iff hne, stops_goesOnType_iff]
  constructor
  · rintro ⟨⟨hj, hs⟩, ha, hquestion, hdot⟩
    exact ⟨hj, hs, ha, hquestion, hdot⟩
  · rintro ⟨hj, hs, ha, hquestion, hdot⟩
    exact ⟨⟨hj, hs⟩, ha, hquestion, hdot⟩

/-- The cursor that reads a type, between two indices. -/
theorem comes_typeExpr_iff :
    Comes (.call .typeExpr) ⟨ts, i⟩ (.ok type) ⟨ts, j⟩ ↔ type.StandsAt ts i j := by
  rcases Nat.lt_or_ge ts.length i with hi | hi
  · constructor
    · intro h
      have herror : Comes (.call .typeExpr) ⟨ts, i⟩ (.error (.endOfInput ts.length)) ⟨ts, i⟩ :=
        .call (Comes.bind_error (Walk.next_beyond (Nat.le_of_lt hi)))
      cases (h.unique herror).1
    · intro h
      obtain ⟨u, us, hs, -⟩ := Reading.spelling_head type
      have hnil : (ts.take j).drop i = [] :=
        List.drop_eq_nil_of_le (Nat.le_trans (List.length_take_le' _ _) (Nat.le_of_lt hi))
      rw [h.spelled, hs] at hnil
      cases hnil
  · rw [(walks_typeExpr (Stream.In.drop hi)).comes_ok_iff, ← yields_typeExpr_at_iff]
    constructor
    · rintro ⟨⟨type, t, h⟩, hr, rfl, hc⟩
      obtain rfl : j = t.next := (Cursor.mk.inj hc).2
      have hy : Yields (typeExpr (.at ts i)) type t := ⟨h, hr⟩
      rw [((Stream.In.drop hi).follows h).eq_at] at hy
      exact hy
    · rintro ⟨h, hr⟩
      exact ⟨_, hr, rfl, rfl⟩

end

/-- The reader of types accepts exactly the types. From any index of any tokens, it and the cursor
that reads as it does succeed with a type and stop at an index if and only if the tokens in between
spell the type, with its anchors where they stand, and the token behind them is no `?`, nor a `.`
behind a bare name. So there is one such type and one such end at most. -/
theorem typeExpr_exact (ts : List Token) (i : TokenIndex) :
    (∀ j type, Yields (typeExpr (.at ts i)) type (.at ts j) ↔ type.StandsAt ts i j) ∧
    (∀ j type, Comes (.call .typeExpr) ⟨ts, i⟩ (.ok type) ⟨ts, j⟩ ↔ type.StandsAt ts i j) ∧
    ∀ j k (t u : TypeExpr), t.StandsAt ts i j → u.StandsAt ts i k → t = u ∧ j = k := by
  refine ⟨fun _ _ => yields_typeExpr_at_iff, fun _ _ => comes_typeExpr_iff, ?_⟩
  intro j k t u ht hu
  obtain ⟨htype, hend⟩ := (comes_typeExpr_iff.2 ht).unique (comes_typeExpr_iff.2 hu)
  exact ⟨Except.ok.inj htype, (Cursor.mk.inj hend).2⟩

/-- `x: [k: v.w?] = ` -/
def annotatedTokens : List Token :=
  [.name "x", .operator .colon, .operator .squareLeft, .name "k", .operator .colon, .name "v",
    .operator .dot, .name "w", .operator .question, .operator .squareRight, .operator .equal]

/-- `[k: v.w?]` where it stands in `x: [k: v.w?] = ` -/
def annotatedType : TypeExpr := .dictionary 2 (.name 3 "k") (.optional 5 (.member 5 "v" "w"))

theorem standsAt_annotated : annotatedType.StandsAt annotatedTokens 2 10 :=
  ⟨by decide, rfl, rfl, nofun, nofun⟩

theorem typeExpr_exact_annotated :
    annotatedType.StandsAt annotatedTokens 2 10 ∧
    Yields (typeExpr (.at annotatedTokens 2)) annotatedType (.at annotatedTokens 10) ∧
    Comes (.call .typeExpr) ⟨annotatedTokens, 2⟩ (.ok annotatedType) ⟨annotatedTokens, 10⟩ ∧
    ∀ k u, u.StandsAt annotatedTokens 2 k → annotatedType = u ∧ 10 = k := by
  obtain ⟨hyields, hcomes, hunique⟩ := typeExpr_exact annotatedTokens 2
  exact ⟨standsAt_annotated, (hyields _ _).2 standsAt_annotated,
    (hcomes _ _).2 standsAt_annotated, fun _ _ => hunique _ _ _ _ standsAt_annotated⟩

end Phrase

end ScriptFront
