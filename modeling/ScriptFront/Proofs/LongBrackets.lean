import ScriptFront.Proofs.Relexing
import ScriptFront.Proofs.Tiling
/-! Long brackets as tokens and as comments. Both end where the closing bracket of their level stands for
the first time, whatever follows. A closing bracket of a level that no text of the length of the body
can hold comes first behind the body only, so every text is that of a long bracket. -/
namespace ScriptFront.Token
open Text

/-- A pattern stands in a text between `u` and `v`, and nowhere before. -/
structure StandsFirst (pattern cs u v : List Char) : Prop where
  stands : cs = u ++ (pattern ++ v)
  first : ∀ x y, cs = x ++ (pattern ++ y) → u.length ≤ x.length

def longBracket (level : Nat) (body : List Char) : List Char :=
  '[' :: (List.replicate level '=' ++ '[' :: (body ++ closingBracket level))

section Occurrence
variable {pattern cs s u v x y : List Char} {n level : Nat}

theorem firstOccurrence?_le (h : firstOccurrence? pattern (x ++ (pattern ++ y)) = some n) :
    n ≤ x.length := by
  induction x generalizing n with
  | nil => exact (Option.some.inj ((firstOccurrence?_start pattern y).symm.trans h)).ge
  | cons c x ih =>
    rw [List.cons_append, firstOccurrence?] at h
    split at h
    · cases h
      exact Nat.zero_le _
    · obtain ⟨m, hm, rfl⟩ := Option.map_eq_some_iff.1 h
      exact Nat.succ_le_succ (ih hm)

/-- The search for a pattern finds where it stands first. -/
theorem standsFirst_iff : StandsFirst pattern cs u v ↔
    cs = u ++ (pattern ++ v) ∧ firstOccurrence? pattern cs = some u.length := by
  constructor
  · intro h
    refine ⟨h.stands, ?_⟩
    cases hn : firstOccurrence? pattern cs with
    | none => exact absurd (by simpa using h.stands) (occurs_of_firstOccurrence?_none hn u v)
    | some n =>
      obtain ⟨x, y, hcs, rfl⟩ := firstOccurrence?_some hn
      have hle := h.first x y (by simpa using hcs)
      have hge := firstOccurrence?_le (h.stands ▸ hn)
      rw [Nat.le_antisymm hge hle]
  · rintro ⟨hcs, hn⟩
    refine ⟨hcs, ?_⟩
    rintro x y rfl
    exact firstOccurrence?_le hn

theorem exists_standsFirst (pattern s : List Char) :
    ∃ u v, StandsFirst pattern (s ++ pattern) u v ∧ u <+: s := by
  cases h : firstOccurrence? pattern (s ++ pattern) with
  | none => exact absurd (by simp) (occurs_of_firstOccurrence?_none h s [])
  | some n =>
    obtain ⟨u, v, hcs, rfl⟩ := firstOccurrence?_some h
    have hfirst : StandsFirst pattern (s ++ pattern) u v :=
      standsFirst_iff.2 ⟨by simpa using hcs, h⟩
    have hle : u.length ≤ s.length := hfirst.first s [] (by simp)
    exact ⟨u, v, hfirst, List.prefix_of_prefix_length_le ⟨_, hfirst.stands.symm⟩ ⟨_, rfl⟩ hle⟩

/-- A line break in front keeps closing brackets where they are. -/
theorem StandsFirst.newline (h : StandsFirst (closingBracket level) (s ++ closingBracket level) u v) :
    StandsFirst (closingBracket level) ('\n' :: u ++ closingBracket level) ('\n' :: u) [] := by
  refine ⟨by simp, fun x y he => ?_⟩
  cases x with
  | nil => cases (List.cons.inj he).1
  | cons c x =>
    have htail : u ++ closingBracket level = x ++ (closingBracket level ++ y) := (List.cons.inj he).2
    refine Nat.succ_le_succ (h.first x (y ++ v) ?_)
    rw [h.stands, ← List.append_assoc, htail]
    simp

/-- No text holds the closing bracket of the level that its length is. -/
theorem standsFirst_length (s : List Char) :
    StandsFirst (closingBracket s.length) (s ++ closingBracket s.length) s [] := by
  refine ⟨by simp, fun x y he => Nat.le_of_not_lt fun hlt => ?_⟩
  obtain ⟨t, rfl⟩ := List.prefix_of_prefix_length_le ⟨_, he.symm⟩ ⟨_, rfl⟩ (Nat.le_of_lt hlt)
  obtain ⟨c, t, rfl⟩ := List.exists_cons_of_ne_nil (l := t) (by rintro rfl; simp at hlt)
  have hlevel : t.length < (x ++ c :: t).length := by
    simp
    omega
  generalize (x ++ c :: t).length = level at he hlevel
  rw [List.append_assoc, List.append_cancel_left_eq] at he
  -- behind the first bracket, one side has the bracket where the other still has equals signs
  have hbracket : (t ++ closingBracket level)[t.length]? = some ']' := by simp [closingBracket]
  have hequals : (List.replicate level '=' ++ (']' :: y))[t.length]? = some '=' := by
    simp [List.getElem?_append_left, hlevel]
  have htail : t ++ closingBracket level = List.replicate level '=' ++ (']' :: y) := by
    simpa [closingBracket] using (List.cons.inj he).2
  rw [htail, hequals] at hbracket
  cases hbracket

theorem StandsFirst.unique (h : StandsFirst pattern cs u v) (k : StandsFirst pattern cs x y) :
    u = x ∧ v = y := by
  have hlength := Nat.le_antisymm (h.first x y k.stands) (k.first u v h.stands)
  obtain ⟨hu, hv⟩ := List.append_inj (h.stands.symm.trans k.stands) hlength
  exact ⟨hu, List.append_cancel_left hv⟩

end Occurrence

section Brackets
variable {s u v : List Char} {level : Nat}

theorem isLongBracket_longBracket {body : List Char}
    (h : StandsFirst (closingBracket level) (body ++ closingBracket level) body []) :
    IsLongBracket (longBracket level body) :=
  ⟨level, body, rfl, (standsFirst_iff.1 h).2⟩

theorem isFirst_longBracket {body : List Char} (h : IsLongBracket (longBracket level body))
    (r : List Char) :
    IsFirst (.lexeme (.string (String.ofList (dropLineBreak body))) (longBracket level body)) r := by
  have hopens : ∀ other ∈ Rule.all, other.rank < Rule.rank .longString → ¬ other.Opens '[' := by
    decide
  refine isFirst_lexeme_iff.2 ⟨.longString, ?_, ?_⟩
  · exact firstRule?_of_takes h stops_false fun other => hopens other other.mem_all
  · rw [Rule.read, longBracket, longBracketText_level]

theorem isFirst_longComment {w : List Char} (h : IsLongBracket w) (r : List Char) :
    IsFirst (.skipped ('-' :: '-' :: w)) r := by
  have hopens : ∀ other ∈ Rule.all, other.rank < Rule.rank .longComment → ¬ other.Opens '-' := by
    decide
  have htakes : Rule.longComment.Takes ('-' :: '-' :: w) := ⟨w, rfl, h⟩
  refine isFirst_iff.2 ⟨.longComment, ?_, rfl⟩
  exact firstRule?_of_takes htakes stops_false fun other => hopens other other.mem_all

/-- What stands behind the first closing bracket follows the long bracket. -/
theorem longBracket_append (h : StandsFirst (closingBracket level) (s ++ closingBracket level) u v)
    (r : List Char) :
    longBracket level ('\n' :: s) ++ r = longBracket level ('\n' :: u) ++ (v ++ r) := by
  have hwhole (body r : List Char) : longBracket level ('\n' :: body) ++ r =
      '[' :: (List.replicate level '=' ++ '[' :: '\n' :: (body ++ closingBracket level ++ r)) := by
    simp [longBracket]
  rw [hwhole, hwhole, h.stands]
  simp

end Brackets

/-- On a long bracket whose text starts on a line of its own, the first step takes what stands before
the first closing bracket of its level, and skips it behind two dashes. The whole is one token if its
closing bracket is the first one, and for every text there is a level where it is. -/
theorem longBracket_ends (s : List Char) :
    (∀ level, ∃ u v, StandsFirst (closingBracket level) (s ++ closingBracket level) u v ∧ u <+: s ∧
      (∀ r, firstPiece? (longBracket level ('\n' :: s) ++ r) =
          some (.lexeme (.string (String.ofList u)) (longBracket level ('\n' :: u)), v ++ r) ∧
        firstPiece? ('-' :: '-' :: longBracket level ('\n' :: s) ++ r) =
          some (.skipped ('-' :: '-' :: longBracket level ('\n' :: u)), v ++ r)) ∧
      (u = s → Lexed.ofText (longBracket level ('\n' :: s)) =
        .ok (.single (.string (String.ofList s)) (longBracket level ('\n' :: s))))) ∧
    ∃ level, StandsFirst (closingBracket level) (s ++ closingBracket level) s [] ∧
      Lexed.ofText (longBracket level ('\n' :: s)) =
        .ok (.single (.string (String.ofList s)) (longBracket level ('\n' :: s))) := by
  constructor
  · intro level
    obtain ⟨u, v, hfirst, hu⟩ := exists_standsFirst (closingBracket level) s
    have hbracket := isLongBracket_longBracket hfirst.newline
    refine ⟨u, v, hfirst, hu, fun r => ⟨?_, ?_⟩, ?_⟩
    · rw [longBracket_append hfirst]
      exact isFirst_longBracket hbracket (v ++ r)
    · rw [List.cons_append, List.cons_append, longBracket_append hfirst]
      exact isFirst_longComment hbracket (v ++ r)
    · rintro rfl
      exact Lexed.ofText_single_iff.2 (isFirst_longBracket hbracket [])
  · have hfirst := standsFirst_length s
    have hbracket := isLongBracket_longBracket hfirst.newline
    exact ⟨s.length, hfirst, Lexed.ofText_single_iff.2 (isFirst_longBracket hbracket [])⟩

/-- `a]` between brackets of level zero ends with the `a`, and of level one with the `]`. -/
theorem longBracket_ends_bracket :
    firstPiece? (longBracket 0 ['\n', 'a', ']'] ++ ['x']) =
      some (.lexeme (.string "a") (longBracket 0 ['\n', 'a']), [']', 'x']) ∧
    firstPiece? ('-' :: '-' :: longBracket 0 ['\n', 'a', ']'] ++ ['x']) =
      some (.skipped ('-' :: '-' :: longBracket 0 ['\n', 'a']), [']', 'x']) ∧
    Lexed.ofText (longBracket 1 ['\n', 'a', ']']) =
      .ok (.single (.string "a]") (longBracket 1 ['\n', 'a', ']'])) := by
  have hzero : StandsFirst (closingBracket 0) (['a', ']'] ++ closingBracket 0) ['a'] [']'] :=
    standsFirst_iff.2 ⟨by rfl, by rfl⟩
  have hone : StandsFirst (closingBracket 1) (['a', ']'] ++ closingBracket 1) ['a', ']'] [] :=
    standsFirst_iff.2 ⟨by rfl, by rfl⟩
  obtain ⟨u, v, hu, -, hpiece, -⟩ := (longBracket_ends ['a', ']']).1 0
  obtain ⟨x, y, hx, -, -, hsingle⟩ := (longBracket_ends ['a', ']']).1 1
  obtain ⟨rfl, rfl⟩ := hu.unique hzero
  obtain ⟨rfl, rfl⟩ := hx.unique hone
  exact ⟨(hpiece ['x']).1, (hpiece ['x']).2, hsingle rfl⟩

end ScriptFront.Token
