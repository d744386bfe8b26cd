import Mathlib.Data.List.DropRight
import ScriptFront.Text.Position
/-! Parts of a text by byte offsets. An offset past the end of a text or inside a character is out of
range; every offset up to which whole characters reach is not. -/
namespace ScriptFront.Text

/-- A text was to be divided past its end or inside a character, or a list to be read past its end. -/
structure OutOfRange where

/-- What stands before a byte offset and what follows it. -/
def divide? : List Char → Nat → Option (List Char × List Char)
  | cs, 0 => some ([], cs)
  | [], _ + 1 => none
  | c :: cs, n + 1 =>
    if c.utf8Size ≤ n + 1 then (divide? cs (n + 1 - c.utf8Size)).map fun (u, v) => (c :: u, v)
    else none

def divide (cs : List Char) (n : Nat) : Except OutOfRange (List Char × List Char) :=
  (divide? cs n).elim (.error ⟨⟩) .ok

def sliceFrom (cs : List Char) (start : Nat) : Except OutOfRange (List Char) :=
  (divide cs start).map (·.2)

def sliceTo (cs : List Char) (stop : Nat) : Except OutOfRange (List Char) :=
  (divide cs stop).map (·.1)

def slice (cs : List Char) (start stop : Nat) : Except OutOfRange (List Char) := do
  let following ← sliceFrom cs start
  if start ≤ stop then sliceTo following (stop - start) else .error ⟨⟩

def entryAt {α : Type} (xs : List α) (i : Nat) : Except OutOfRange α :=
  xs[i]?.elim (.error ⟨⟩) .ok

section Slices
variable {cs u v w : List Char} {n start stop : Nat}

@[simp] theorem byteCount_nil : byteCount [] = 0 := rfl

@[simp] theorem byteCount_cons (c : Char) (cs : List Char) :
    byteCount (c :: cs) = c.utf8Size + byteCount cs := rfl

@[simp] theorem byteCount_append (u v : List Char) :
    byteCount (u ++ v) = byteCount u + byteCount v := by
  induction u with
  | nil => simp
  | cons c u ih => simp [ih, Nat.add_assoc]

theorem length_le_byteCount (cs : List Char) : cs.length ≤ byteCount cs := by
  induction cs with
  | nil => simp
  | cons c cs ih =>
    have := c.utf8Size_pos
    simp only [List.length_cons, byteCount_cons]
    omega

theorem byteCount_pos (h : w ≠ []) : 0 < byteCount w :=
  Nat.lt_of_lt_of_le (List.length_pos_iff.2 h) (length_le_byteCount w)

theorem byteCount_take_le {m : Nat} (h : m ≤ n) : byteCount (cs.take m) ≤ byteCount (cs.take n) := by
  obtain ⟨r, hr⟩ := List.take_prefix_take_left (l := cs) h
  rw [← hr, byteCount_append]
  exact Nat.le_add_right _ _

theorem divide?_eq_some_iff : divide? cs n = some (u, v) ↔ cs = u ++ v ∧ byteCount u = n := by
  induction cs generalizing n u with
  | nil =>
    cases n with
    | zero => cases u <;> simp [divide?]
    | succ n => cases u <;> simp [divide?]
  | cons c cs ih =>
    have hc := c.utf8Size_pos
    cases n with
    | zero =>
      cases u with
      | nil => simp [divide?]
      | cons d u =>
        have := d.utf8Size_pos
        simp [divide?]
        omega
    | succ n =>
      unfold divide?
      split
      · next hle =>
        constructor
        · intro h
          obtain ⟨⟨u, v⟩, hu, he⟩ := Option.map_eq_some_iff.1 h
          cases he
          obtain ⟨rfl, hn⟩ := ih.1 hu
          exact ⟨rfl, by rw [byteCount_cons]; omega⟩
        · rintro ⟨he, hn⟩
          cases u with
          | nil => simp at hn
          | cons d u =>
            cases he
            rw [byteCount_cons] at hn
            rw [ih.2 ⟨rfl, by omega⟩]
            rfl
      · next hlt =>
        simp only [reduceCtorEq, false_iff]
        rintro ⟨he, hn⟩
        cases u with
        | nil => simp at hn
        | cons d u =>
          cases he
          rw [byteCount_cons] at hn
          omega

theorem divide_ok_iff : divide cs n = .ok (u, v) ↔ cs = u ++ v ∧ byteCount u = n := by
  rw [← divide?_eq_some_iff, divide]
  cases divide? cs n <;> simp

theorem sliceFrom_ok_iff : sliceFrom cs n = .ok v ↔ ∃ u, cs = u ++ v ∧ byteCount u = n := by
  simp only [← divide_ok_iff, sliceFrom]
  cases divide cs n <;> simp [Except.map, Prod.ext_iff]

theorem sliceTo_ok_iff : sliceTo cs n = .ok u ↔ ∃ v, cs = u ++ v ∧ byteCount u = n := by
  simp only [← divide_ok_iff, sliceTo]
  cases divide cs n <;> simp [Except.map, Prod.ext_iff]

theorem slice_ok_iff : slice cs start stop = .ok w ↔
    ∃ u v, cs = u ++ (w ++ v) ∧ byteCount u = start ∧ byteCount (u ++ w) = stop := by
  constructor
  · intro h
    cases hf : sliceFrom cs start with
    | error e => simp [slice, hf, bind, Except.bind] at h
    | ok following =>
      obtain ⟨u, rfl, rfl⟩ := sliceFrom_ok_iff.1 hf
      simp only [slice, hf, bind, Except.bind] at h
      split at h
      · obtain ⟨v, rfl, hw⟩ := sliceTo_ok_iff.1 h
        exact ⟨u, v, rfl, rfl, by rw [byteCount_append]; omega⟩
      · cases h
  · rintro ⟨u, v, rfl, rfl, rfl⟩
    have hf := sliceFrom_ok_iff.2 ⟨u, (rfl : u ++ (w ++ v) = _), rfl⟩
    have ht := sliceTo_ok_iff.2 ⟨v, (rfl : w ++ v = _), rfl⟩
    simp [slice, hf, ht, bind, Except.bind]

@[simp] theorem sliceFrom_append : sliceFrom (u ++ v) (byteCount u) = .ok v :=
  sliceFrom_ok_iff.2 ⟨u, rfl, rfl⟩

@[simp] theorem sliceTo_append : sliceTo (u ++ v) (byteCount u) = .ok u :=
  sliceTo_ok_iff.2 ⟨v, rfl, rfl⟩

/-- A part in range starts and ends where whole characters do. -/
theorem slice_append (hstart : start = byteCount u) (hstop : stop = start + byteCount w) :
    slice (u ++ (w ++ v)) start stop = .ok w :=
  slice_ok_iff.2 ⟨u, v, rfl, hstart.symm, by rw [byteCount_append]; omega⟩

end Slices

/-- The offsets behind the line breaks of a text that starts at `offset`. -/
def lineEnds : Nat → List Char → List Nat
  | _, [] => []
  | offset, c :: cs =>
    let next := offset + c.utf8Size
    if c = '\n' then next :: lineEnds next cs else lineEnds next cs

def lineStarts (source : List Char) : List Nat := 0 :: lineEnds 0 source

/-- A position by the list of line starts: the last line that starts at or before the offset, and the
characters between. -/
def indexedPosition (source : List Char) (offset : Nat) : Except OutOfRange Position := do
  let starts := lineStarts source
  let line := (starts.takeWhile (· ≤ offset)).length
  let lineStart ← entryAt starts (line - 1)
  let before ← slice source lineStart (min offset (byteCount source))
  return ⟨line, before.length + 1⟩

section Lines
variable {u v : List Char} {offset : Nat} {p : Position}

theorem lineEnds_append (offset : Nat) (u v : List Char) :
    lineEnds offset (u ++ v) = lineEnds offset u ++ lineEnds (offset + byteCount u) v := by
  induction u generalizing offset with
  | nil => simp [lineEnds]
  | cons c u ih =>
    simp only [List.cons_append, lineEnds, ih, byteCount_cons, Nat.add_assoc]
    split <;> rfl

theorem lt_of_mem_lineEnds {n : Nat} {cs : List Char} (h : n ∈ lineEnds offset cs) :
    offset < n ∧ n ≤ offset + byteCount cs := by
  induction cs generalizing offset with
  | nil => cases h
  | cons c cs ih =>
    have hc := c.utf8Size_pos
    have hstep : n = offset + c.utf8Size ∨ n ∈ lineEnds (offset + c.utf8Size) cs := by
      simp only [lineEnds] at h
      split at h
      · exact List.mem_cons.1 h
      · exact .inr h
    rw [byteCount_cons]
    rcases hstep with rfl | hn
    · omega
    · have := ih hn
      omega

theorem textBefore_append (u v : List Char) : textBefore (u ++ v) (byteCount u) = u := by
  induction u with
  | nil =>
    cases v with
    | nil => rfl
    | cons c v =>
      have := c.utf8Size_pos
      simp [textBefore]
      omega
  | cons c u ih => simp [textBefore, ih]

theorem Position.after_append (p : Position) (u v : List Char) :
    p.after (u ++ v) = (p.after u).after v := by
  induction u generalizing p with
  | nil => rfl
  | cons c u ih => exact ih _

theorem positionAt_append (u v : List Char) :
    positionAt (u ++ v) (byteCount u) = Position.start.after u := by
  rw [positionAt, textBefore_append]

/-- The position behind a text counts its line breaks, and the characters after the last one. -/
theorem after_start (u : List Char) : Position.start.after u =
    ⟨u.count '\n' + 1, (u.rtakeWhile (· ≠ '\n')).length + 1⟩ := by
  induction u using List.reverseRecOn with
  | nil => rfl
  | append_singleton u c ih =>
    have hstep : Position.start.after (u ++ [c]) = (Position.start.after u).next c := by
      rw [Position.after_append]
      rfl
    rw [hstep, ih]
    by_cases hc : c = '\n'
    · simp [Position.next, hc]
    · simp [Position.next, hc]

/-- The last line of a text: where it starts, and the position behind it. -/
theorem exists_lastLine (u : List Char) : ∃ a b, u = a ++ b ∧
    (lineStarts u)[(lineEnds 0 u).length]? = some (byteCount a) ∧
      Position.start.after u = ⟨(lineEnds 0 u).length + 1, b.length + 1⟩ := by
  induction u using List.reverseRecOn with
  | nil => exact ⟨[], [], rfl, rfl, rfl⟩
  | append_singleton u c ih =>
    obtain ⟨a, b, hu, hstart, hafter⟩ := ih
    have hstep : Position.start.after (u ++ [c]) = (Position.start.after u).next c := by
      rw [Position.after_append]
      rfl
    by_cases hc : c = '\n'
    · have hends : lineEnds 0 (u ++ [c]) = lineEnds 0 u ++ [byteCount (u ++ [c])] := by
        simp [lineEnds_append, lineEnds, hc]
      refine ⟨u ++ [c], [], by simp, ?_, ?_⟩
      · simp [lineStarts, hends]
      · rw [hstep, hafter, hends]
        simp [Position.next, hc]
    · have hends : lineEnds 0 (u ++ [c]) = lineEnds 0 u := by
        simp [lineEnds_append, lineEnds, hc]
      refine ⟨a, b ++ [c], by simp [hu], ?_, ?_⟩
      · simpa only [lineStarts, hends] using hstart
      · rw [hstep, hafter, hends]
        simp [Position.next, hc]

theorem takeWhile_lineStarts (u v : List Char) :
    (lineStarts (u ++ v)).takeWhile (· ≤ byteCount u) = lineStarts u := by
  have hu : ∀ n ∈ lineStarts u, decide (n ≤ byteCount u) = true := by
    intro n hn
    rcases List.mem_cons.1 hn with rfl | hn
    · simp
    · simpa using (lt_of_mem_lineEnds hn).2
  have hv : (lineEnds (byteCount u) v).takeWhile (· ≤ byteCount u) = [] := by
    cases hends : lineEnds (byteCount u) v with
    | nil => rfl
    | cons n ns =>
      have hn := (lt_of_mem_lineEnds (hends ▸ List.mem_cons_self)).1
      exact List.takeWhile_cons_of_neg (by simpa using hn)
  have happend : lineStarts (u ++ v) = lineStarts u ++ lineEnds (byteCount u) v := by
    simp [lineStarts, lineEnds_append]
  rw [happend, List.takeWhile_append_of_pos hu, hv, List.append_nil]

/-- The list of line starts gives the position of every boundary. -/
theorem indexedPosition_append (u v : List Char) :
    indexedPosition (u ++ v) (byteCount u) = .ok (positionAt (u ++ v) (byteCount u)) := by
  obtain ⟨a, b, rfl, hstart, hafter⟩ := exists_lastLine u
  have hline : (lineStarts (a ++ b)).length - 1 = (lineEnds 0 (a ++ b)).length := rfl
  have hlt : (lineEnds 0 (a ++ b)).length < (lineStarts (a ++ b)).length := Nat.lt_succ_self _
  have hread : (lineStarts (a ++ b ++ v))[(lineEnds 0 (a ++ b)).length]? = some (byteCount a) := by
    rw [← hstart, lineStarts, lineEnds_append, ← List.cons_append]
    exact List.getElem?_append_left hlt
  have hslice : slice (a ++ b ++ v) (byteCount a)
      (min (byteCount (a ++ b)) (byteCount (a ++ b ++ v))) = .ok b := by
    rw [List.append_assoc]
    exact slice_append rfl (by simp)
  rw [positionAt_append, hafter, indexedPosition]
  simp only [takeWhile_lineStarts, hline, entryAt, hread, Option.elim, bind, Except.bind, hslice]
  rfl

end Lines
end ScriptFront.Text
