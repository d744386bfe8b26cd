import ScriptFront.Proofs.Tiling
/-! Positions count line breaks and characters. The list of line starts is searched for the last start
at or before an offset, and that finds the line of the offset, its first and its last character
included. So what stands further on in a source has a later position, and so have its tokens. -/
namespace ScriptFront.Text

/-- On an earlier line, or further to the left on the same line. -/
def Position.Before (p q : Position) : Prop :=
  p.line < q.line ∨ p.line = q.line ∧ p.column < q.column

/-- The offsets that may be asked for: where a character of the source begins or its text ends, with
the text before, and what lies past the end, with all of the text before. -/
inductive Cut (source : List Char) : Nat → List Char → Prop
  | boundary : source = before ++ following → Cut source (byteCount before) before
  | pastEnd : byteCount source < offset → Cut source offset source

section
variable {source before u v w : List Char} {offset k start : Nat} {p q r : Position} {c : Char}

theorem Position.Before.trans (h : p.Before q) (h' : q.Before r) : p.Before r := by
  unfold Before at *
  omega

theorem Position.before_next (p : Position) (c : Char) : p.Before (p.next c) := by
  unfold Before next
  by_cases hc : c = '\n'
  · rw [if_pos hc]
    exact .inl (Nat.lt_succ_self _)
  · rw [if_neg hc]
    exact .inr ⟨rfl, Nat.lt_succ_self _⟩

theorem Position.before_after (p : Position) (hw : w ≠ []) : p.Before (p.after w) := by
  induction w generalizing p with
  | nil => exact absurd rfl hw
  | cons c w ih =>
    have hnext := p.before_next c
    by_cases hnil : w = []
    · rwa [hnil]
    · exact hnext.trans (ih (p.next c) hnil)

theorem le_of_mem_lineStarts (h : k ∈ lineStarts u) : k ≤ byteCount u := by
  rcases List.mem_cons.1 h with rfl | h
  · exact Nat.zero_le _
  · simpa using (lt_of_mem_lineEnds h).2

theorem textBefore_of_le (h : byteCount source ≤ offset) : textBefore source offset = source := by
  induction source generalizing offset with
  | nil => rfl
  | cons c cs ih =>
    rw [byteCount_cons] at h
    rw [textBefore, if_pos (by omega), ih (by omega)]

theorem Cut.textBefore_eq (h : Cut source offset before) : textBefore source offset = before := by
  cases h with
  | boundary h =>
    rw [h]
    exact textBefore_append _ _
  | pastEnd h => exact textBefore_of_le (Nat.le_of_lt h)

theorem Cut.positionAt_eq (h : Cut source offset before) :
    positionAt source offset = Position.start.after before := by rw [positionAt, h.textBefore_eq]

/-- No line starts past the end, so an offset there finds what the end does. -/
theorem indexedPosition_pastEnd (h : byteCount source < offset) :
    indexedPosition source offset = indexedPosition source (byteCount source) := by
  have htake : (lineStarts source).takeWhile (· ≤ offset) =
      (lineStarts source).takeWhile (· ≤ byteCount source) := by
    rw [List.takeWhile_eq_self_iff.2, List.takeWhile_eq_self_iff.2]
    · intro n hn
      simpa using le_of_mem_lineStarts hn
    · intro n hn
      simpa using Nat.le_trans (le_of_mem_lineStarts hn) (Nat.le_of_lt h)
  simp only [indexedPosition, htake, Nat.min_eq_right (Nat.le_of_lt h), Nat.min_self]

theorem Cut.indexedPosition_eq (h : Cut source offset before) :
    indexedPosition source offset = .ok (positionAt source offset) := by
  have hpos := h.positionAt_eq
  cases h with
  | boundary h =>
    rw [h]
    exact indexedPosition_append _ _
  | pastEnd h =>
    have hend := indexedPosition_append source []
    rw [positionAt_append, List.append_nil] at hend
    rw [indexedPosition_pastEnd h, hend, hpos]

/-- The line of a position is the number of line starts in the text before. -/
theorem line_after_start (u : List Char) :
    (Position.start.after u).line = (lineStarts u).length := by
  obtain ⟨a, b, -, -, hafter⟩ := exists_lastLine u
  rw [hafter]
  rfl

/-- Exactly the starts of the lines up to that of the offset lie at or before it, which is what a
binary search of the line starts asks for. -/
theorem Cut.start_le_iff (h : Cut source offset before) (hk : (lineStarts source)[k]? = some start) :
    start ≤ offset ↔ k < (positionAt source offset).line := by
  rw [h.positionAt_eq, line_after_start]
  cases h with
  | @boundary _ following h =>
    have happend : lineStarts source = lineStarts before ++ lineEnds (byteCount before) following := by
      simp [h, lineStarts, lineEnds_append]
    rw [happend] at hk
    by_cases hlt : k < (lineStarts before).length
    · rw [List.getElem?_append_left hlt] at hk
      exact iff_of_true (le_of_mem_lineStarts (List.mem_of_getElem? hk)) hlt
    · rw [List.getElem?_append_right (Nat.le_of_not_lt hlt)] at hk
      have := (lt_of_mem_lineEnds (List.mem_of_getElem? hk)).1
      exact iff_of_false (by omega) hlt
  | pastEnd h =>
    have hlt : k < (lineStarts source).length := (List.getElem?_eq_some_iff.1 hk).1
    have hle := le_of_mem_lineStarts (List.mem_of_getElem? hk)
    exact iff_of_true (by omega) hlt

/-- Of two texts with which a source begins, the shorter one begins the longer one. -/
theorem before_of_byteCount_lt {s t : List Char} (hs : source = u ++ s) (ht : source = v ++ t)
    (hlt : byteCount u < byteCount v) :
    (Position.start.after u).Before (Position.start.after v) := by
  have hprefix : u <+: v := by
    rcases List.prefix_or_prefix_of_prefix ⟨s, hs.symm⟩ ⟨t, ht.symm⟩ with h | ⟨w, rfl⟩
    · exact h
    · rw [byteCount_append] at hlt
      omega
  obtain ⟨w, rfl⟩ := hprefix
  have hw : w ≠ [] := by
    rintro rfl
    simp at hlt
  rw [Position.after_append]
  exact Position.before_after _ hw

theorem Cut.before_of_lt {m n : Nat} (hu : Cut source m u) (hv : Cut source n v) (hmn : m < n)
    (hn : n ≤ byteCount source) : (positionAt source m).Before (positionAt source n) := by
  rw [hu.positionAt_eq, hv.positionAt_eq]
  cases hv with
  | pastEnd h => omega
  | boundary hv =>
    cases hu with
    | pastEnd h => omega
    | boundary hu => exact before_of_byteCount_lt hu hv hmn

end
end ScriptFront.Text

namespace ScriptFront.Lexed
open Text Token

section
variable {source : String} {l : Lexed} {i j : TokenIndex}

theorem span_of_count_le (h : l.count ≤ i) : l.span i = ⟨l.byteCount, l.byteCount⟩ := by
  have hnone : l.lexemes[i]? = none := List.getElem?_eq_none h
  simp only [span, hnone]

theorem source_eq (h : ofString source = .ok l) : l.source = source.toList := by
  obtain ⟨ps, -, rfl⟩ := ofString_ok_iff.1 h
  rfl

theorem tiles (h : ofString source = .ok l) : Tiles l.source (l.lexemes.map (·.span)) := by
  obtain ⟨ps, hscan, rfl⟩ := ofString_ok_iff.1 h
  exact hscan.tiles

theorem span_mem (h : i < l.count) : l.span i ∈ l.lexemes.map (·.span) := by
  rw [span_of_getElem? (List.getElem?_eq_getElem h)]
  exact List.mem_map_of_mem (List.getElem_mem h)

/-- The start of a token and the end of the input are boundaries of the source. -/
theorem cut_start (h : ofString source = .ok l) (i : TokenIndex) :
    ∃ before, Cut l.source (l.span i).start before := by
  by_cases hi : i < l.count
  · obtain ⟨w, hw⟩ := (tiles h).inRange _ (span_mem hi)
    obtain ⟨u, v, hparts, hstart, -⟩ := slice_ok_iff.1 hw
    rw [← hstart]
    exact ⟨u, .boundary hparts⟩
  · rw [span_of_count_le (Nat.le_of_not_lt hi)]
    exact ⟨l.source, .boundary (List.append_nil _).symm⟩

theorem stop_le (h : ofString source = .ok l) (hi : i < l.count) :
    (l.span i).stop ≤ l.byteCount := by
  obtain ⟨w, hw⟩ := (tiles h).inRange _ (span_mem hi)
  obtain ⟨u, v, hparts, -, hstop⟩ := slice_ok_iff.1 hw
  rw [← hstop, byteCount, hparts, ← List.append_assoc, Text.byteCount_append (u ++ w)]
  exact Nat.le_add_right _ _

/-- A token ends before the next one starts, and before the end of the input. -/
theorem stop_le_start (h : ofString source = .ok l) (hij : i < j) (hj : j ≤ l.count) :
    (l.span i).stop ≤ (l.span j).start := by
  have hi : i < l.count := Nat.lt_of_lt_of_le hij hj
  by_cases hlt : j < l.count
  · have hordered := List.pairwise_map.1 (tiles h).ordered
    rw [span_of_getElem? (List.getElem?_eq_getElem hi),
      span_of_getElem? (List.getElem?_eq_getElem hlt)]
    exact List.pairwise_iff_getElem.1 hordered i j hi hlt hij
  · rw [span_of_count_le (Nat.le_of_not_lt hlt)]
    exact stop_le h hi

theorem start_le (h : ofString source = .ok l) (i : TokenIndex) :
    (l.span i).start ≤ l.byteCount := by
  by_cases hi : i < l.count
  · have hne := (tiles h).nonempty _ (span_mem hi)
    exact Nat.le_trans (Nat.le_of_lt hne) (stop_le h hi)
  · rw [span_of_count_le (Nat.le_of_not_lt hi)]

/-- The position of an offset counts the line breaks before it and the characters behind the last of
them, also for an offset past the end, where all of the source is before it; and the list of line
starts gives that position. Positions increase with the offset, and from each token to the next and
to the end of the input. -/
theorem positionAt_counts (h : ofString source = .ok l) :
    (∀ offset before, Cut source.toList offset before →
      l.positionAt offset = ⟨before.count '\n' + 1, (before.rtakeWhile (· ≠ '\n')).length + 1⟩ ∧
      indexedPosition source.toList offset = .ok (l.positionAt offset) ∧
      ∀ k start, (lineStarts source.toList)[k]? = some start →
        (start ≤ offset ↔ k < (l.positionAt offset).line)) ∧
    (∀ m n u v, Cut source.toList m u → Cut source.toList n v → m < n → n ≤ l.byteCount →
      (l.positionAt m).Before (l.positionAt n)) ∧
    (∀ i j, i < j → j ≤ l.count → (l.position i).Before (l.position j)) ∧
    ∀ i, l.count ≤ i → l.position i = l.positionAt l.byteCount := by
  have hincrease (m n u v) (hu : Cut l.source m u) (hv : Cut l.source n v) (hmn : m < n)
      (hn : n ≤ l.byteCount) : (l.positionAt m).Before (l.positionAt n) :=
    hu.before_of_lt hv hmn hn
  rw [← source_eq h]
  refine ⟨fun offset before hcut => ?_, hincrease, fun i j hij hj => ?_, fun i hi => ?_⟩
  · refine ⟨?_, hcut.indexedPosition_eq, fun k start => hcut.start_le_iff⟩
    rw [positionAt, hcut.positionAt_eq, after_start]
  · obtain ⟨u, hu⟩ := cut_start h i
    obtain ⟨v, hv⟩ := cut_start h j
    have hne := (tiles h).nonempty _ (span_mem (Nat.lt_of_lt_of_le hij hj))
    have hlt := Nat.lt_of_lt_of_le hne (stop_le_start h hij hj)
    exact hincrease _ _ u v hu hv hlt (start_le h j)
  · rw [position, span_of_count_le hi]

/-- `a`, and on the next line `bé c` -/
def twoLinesSource : String := "a\nbé c"

theorem ofString_twoLinesSource : ofString twoLinesSource = .ok ⟨twoLinesSource.toList,
    [⟨.name "a", "a", ⟨0, 1⟩⟩, ⟨.name "bé", "bé", ⟨2, 5⟩⟩, ⟨.name "c", "c", ⟨6, 7⟩⟩]⟩ := by
  have ha : IsFirst (.lexeme (.name "a") ['a']) ['\n', 'b', 'é', ' ', 'c'] := by rfl
  have hbreak : IsFirst (.skipped ['\n']) ['b', 'é', ' ', 'c'] := by rfl
  have hb : IsFirst (.lexeme (.name "bé") ['b', 'é']) [' ', 'c'] := by rfl
  have hspace : IsFirst (.skipped [' ']) ['c'] := by rfl
  have hc : IsFirst (.lexeme (.name "c") ['c']) [] := by rfl
  have hscan : Scan twoLinesSource.toList _ [] :=
    .piece ha (.piece hbreak (.piece hb (.piece hspace (.piece hc .done))))
  exact ofString_ok_iff.2 ⟨_, hscan, by rfl⟩

/-- The name `c` stands at the sixth byte and is the fourth character of its line; the end of the
source and what lies past it come behind `c`. -/
theorem positionAt_counts_twoLines :
    Cut twoLinesSource.toList 6 ['a', '\n', 'b', 'é', ' '] ∧
    indexedPosition twoLinesSource.toList 6 = .ok ⟨2, 4⟩ ∧
    indexedPosition twoLinesSource.toList 9 = .ok ⟨2, 5⟩ ∧
    Position.Before ⟨1, 1⟩ ⟨2, 1⟩ ∧ Position.Before ⟨2, 4⟩ ⟨2, 5⟩ := by
  obtain ⟨hcounts, -, htokens, -⟩ := positionAt_counts ofString_twoLinesSource
  have hcut : Cut twoLinesSource.toList (Text.byteCount ['a', '\n', 'b', 'é', ' ']) _ :=
    .boundary (by rfl : _ = _ ++ ['c'])
  have hend : Cut twoLinesSource.toList 9 twoLinesSource.toList := .pastEnd (by decide)
  exact ⟨hcut, (hcounts _ _ hcut).2.1, (hcounts _ _ hend).2.1, htokens 0 1 (by decide) (by decide),
    htokens 2 3 (by decide) (by decide)⟩

end
end ScriptFront.Lexed
