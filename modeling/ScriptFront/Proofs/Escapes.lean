import ScriptFront.Proofs.LexicalForms
/-! The inside of a quoted text, divided into characters that stand for themselves and escapes. An item
that may be of several lengths is as long as what follows allows. What the inside stands for is what
its items stand for, one after the other. -/
namespace ScriptFront.Token
open Text Number

/-- What a backslash and one more character stand for, line breaks apart. -/
def namedEscapes : List (Char × Char) :=
  [('n', '\n'), ('t', '\t'), ('r', '\r'), ('a', '\x07'), ('b', '\x08'), ('f', '\x0c'), ('v', '\x0b'),
   ('\\', '\\'), ('"', '"'), ('\'', '\'')]

/-- The value of digits, the most significant one first. -/
def numeral (base : Nat) (digits : List Char) : Nat :=
  digits.foldl (fun n c => base * n + (hexValue? c).getD 0) 0

inductive Item where
  | plain (c : Char)
  | named (c meaning : Char)
  | lineBreak (text : List Char)
  | blanks (run : List Char)
  | hexadecimal (high low : Char)
  /-- A hexadecimal escape with a plus sign for its first digit. -/
  | signed (low : Char)
  | decimal (digits : List Char)

namespace Item

def text : Item → List Char
  | plain c => [c]
  | named c _ => ['\\', c]
  | lineBreak text => '\\' :: text
  | blanks run => '\\' :: 'z' :: run
  | hexadecimal high low => ['\\', 'x', high, low]
  | signed low => ['\\', 'x', '+', low]
  | decimal digits => '\\' :: digits

/-- What an item stands for. -/
def meaning : Item → List Char
  | plain c => [c]
  | named _ meaning => [meaning]
  | lineBreak _ => ['\n']
  | blanks _ => []
  | hexadecimal high low => [Char.ofNat (numeral 16 [high, low])]
  | signed low => [Char.ofNat (numeral 16 [low])]
  | decimal digits => [Char.ofNat (numeral 10 digits)]

def WellFormed : Item → Prop
  | plain c => c ≠ '\\'
  | named c meaning => (c, meaning) ∈ namedEscapes
  | lineBreak text => text = ['\n'] ∨ text = ['\r'] ∨ text = ['\r', '\n']
  | blanks run => ∀ c ∈ run, isBlank c
  | hexadecimal high low => isHexDigit high ∧ isHexDigit low
  | signed low => isHexDigit low
  | decimal digits => IsRun Char.isDigit digits ∧ digits.length ≤ 3 ∧ numeral 10 digits ≤ 255

/-- What would make the item longer. -/
def GoesOn : Item → Char → Prop
  | lineBreak text, c => text = ['\r'] ∧ c = '\n'
  | blanks _, c => isBlank c
  | decimal digits, c => digits.length < 3 ∧ c.isDigit
  | _, _ => False

end Item

/-- A text is divided into items, each of which ends where it has to. -/
inductive Itemizes : List Char → List Item → Prop
  | nil : Itemizes [] []
  | cons {i : Item} {r : List Char} {items : List Item} :
    i.WellFormed → Stops i.GoesOn r → Itemizes r items → Itemizes (i.text ++ r) (i :: items)

section Digits
variable {c : Char} {ds r : List Char} {limit : Nat}

theorem hexValue?_of_isDigit (h : c.isDigit) : hexValue? c = some (digitValue c) := by
  simp [hexValue?, h, digitValue]

theorem foldl_digitValue (value : Nat) (hds : ∀ c ∈ ds, c.isDigit) :
    ds.foldl (fun n c => 10 * n + digitValue c) value =
      ds.foldl (fun n c => 10 * n + (hexValue? c).getD 0) value := by
  induction ds generalizing value with
  | nil => rfl
  | cons d ds ih =>
    obtain ⟨hd, hds⟩ := List.forall_mem_cons.1 hds
    simp [hexValue?_of_isDigit hd, ih _ hds]

theorem digitRun_append (value : Nat) (hds : ∀ c ∈ ds, c.isDigit) (hlimit : ds.length ≤ limit)
    (hr : Stops (fun c => ds.length < limit ∧ c.isDigit) r) :
    digitRun limit value (ds ++ r) = (ds.foldl (fun n c => 10 * n + digitValue c) value, r) := by
  induction ds generalizing limit value with
  | nil =>
    cases limit with
    | zero => simp [digitRun]
    | succ limit =>
      cases r with
      | nil => rfl
      | cons c r =>
        have hc : ¬ c.isDigit := fun hc => stops_cons.1 hr ⟨Nat.succ_pos _, hc⟩
        simp [digitRun, hc]
  | cons d ds ih =>
    obtain ⟨hd, hds⟩ := List.forall_mem_cons.1 hds
    cases limit with
    | zero => cases hlimit
    | succ limit =>
      simp only [List.length_cons, Nat.add_le_add_iff_right, Nat.add_lt_add_iff_right] at hlimit hr
      simp [digitRun, hd, ih _ hds hlimit hr]

theorem exists_digitRun (limit : Nat) (cs : List Char) : ∃ ds r, cs = ds ++ r ∧
    (∀ c ∈ ds, c.isDigit) ∧ ds.length ≤ limit ∧
      Stops (fun c => ds.length < limit ∧ c.isDigit) r := by
  induction limit generalizing cs with
  | zero => exact ⟨[], cs, rfl, by simp, Nat.le_refl _, fun _ _ h => Nat.not_lt_zero _ h.1⟩
  | succ limit ih =>
    cases cs with
    | nil => exact ⟨[], [], rfl, by simp, Nat.zero_le _, stops_nil⟩
    | cons c cs =>
      by_cases hc : c.isDigit
      · obtain ⟨ds, r, rfl, hds, hlimit, hr⟩ := ih cs
        refine ⟨c :: ds, r, rfl, List.forall_mem_cons.2 ⟨hc, hds⟩, Nat.succ_le_succ hlimit, ?_⟩
        simpa using hr
      · exact ⟨[], c :: cs, rfl, by simp, Nat.zero_le _, stops_cons.2 fun h => hc h.2⟩

end Digits

section Items
variable {i : Item} {items : List Item} {c d high low : Char} {cs ds r s : List Char}

theorem simpleEscape?_eq_some_iff :
    simpleEscape? c = some d ↔ (c, d) ∈ namedEscapes ∨ c = '\n' ∧ d = '\n' := by
  constructor
  · intro h
    unfold simpleEscape? at h
    split at h
    case h_12 => cases h
    all_goals
      cases h
      decide
  · have hnamed : ∀ x ∈ namedEscapes, simpleEscape? x.1 = some x.2 := by decide
    rintro (h | ⟨rfl, rfl⟩)
    · exact hnamed _ h
    · rfl

theorem not_isDigit_of_simpleEscape? (h : simpleEscape? c = some d) : ¬ c.isDigit := by
  have hnamed : ∀ x ∈ namedEscapes, ¬ x.1.isDigit := by decide
  rcases simpleEscape?_eq_some_iff.1 h with h | ⟨rfl, -⟩
  · exact hnamed _ h
  · decide

theorem digitRun_numeral (hd : d.isDigit) (hds : ∀ c ∈ ds, c.isDigit) (hlimit : ds.length ≤ 2)
    (hr : Stops (fun c => ds.length < 2 ∧ c.isDigit) r) :
    digitRun 2 (digitValue d) (ds ++ r) = (numeral 10 (d :: ds), r) := by
  rw [digitRun_append _ hds hlimit hr, foldl_digitValue _ hds]
  simp [numeral, hexValue?_of_isDigit hd]

theorem hexEscape?_digits (hh : isHexDigit high) (hl : isHexDigit low) :
    hexEscape? high low = some (Char.ofNat (numeral 16 [high, low])) := by
  have hplus : high ≠ '+' := ne_of_class hh (by decide)
  obtain ⟨h, hh⟩ := Option.isSome_iff_exists.1 hh
  obtain ⟨l, hl⟩ := Option.isSome_iff_exists.1 hl
  simp [hexEscape?, numeral, hh, hl, hplus]

theorem hexEscape?_plus (hl : isHexDigit low) :
    hexEscape? '+' low = some (Char.ofNat (numeral 16 [low])) := by
  obtain ⟨l, hl⟩ := Option.isSome_iff_exists.1 hl
  simp [hexEscape?, numeral, hl]

theorem digits_of_hexEscape? (h : hexEscape? high low = some c) :
    isHexDigit low ∧ (high = '+' ∨ isHexDigit high) := by
  unfold hexEscape? at h
  split at h
  · next l hv hl hh =>
    refine ⟨Option.isSome_iff_exists.2 ⟨l, hl⟩, ?_⟩
    split at hh
    · exact .inl ‹_›
    · exact .inr (Option.isSome_iff_exists.2 ⟨hv, hh⟩)
  · cases h

theorem dropWhile_append {p : Char → Bool} (hcs : ∀ c ∈ cs, p c) (hr : Stops (p ·) r) :
    (cs ++ r).dropWhile p = r := by
  rw [List.dropWhile_append_of_pos hcs]
  cases r with
  | nil => rfl
  | cons c r => exact List.dropWhile_cons_of_neg (stops_cons.1 hr)

theorem unescape?_plain (hc : c ≠ '\\') : unescape? (c :: r) = (unescape? r).map (c :: ·) := by
  rw [unescape?] <;> simp [hc]

theorem unescape?_simple (h : simpleEscape? c = some d) :
    unescape? ('\\' :: c :: r) = (unescape? r).map (d :: ·) := by
  have hne (e : Char) (he : simpleEscape? e = none) : c ≠ e := by
    rintro rfl
    cases he.symm.trans h
  rw [unescape?, if_neg (not_isDigit_of_simpleEscape? h), h]
  · exact fun _ hc _ => hne '\r' rfl hc
  · exact hne '\r' rfl
  · exact hne 'z' rfl
  · exact fun _ _ _ hc _ => hne 'x' rfl hc

theorem unescape?_return (hr : Stops (· = '\n') r) :
    unescape? ('\\' :: '\r' :: r) = (unescape? r).map ('\n' :: ·) := by
  rw [unescape?]
  rintro cs rfl
  exact stops_cons.1 hr rfl

theorem unescape?_blanks (hcs : ∀ c ∈ cs, isBlank c) (hr : Stops (isBlank ·) r) :
    unescape? ('\\' :: 'z' :: (cs ++ r)) = unescape? r := by
  rw [unescape?, dropWhile_append hcs hr]

theorem unescape?_digits (hd : d.isDigit) (hds : ∀ c ∈ ds, c.isDigit) (hlimit : ds.length ≤ 2)
    (hr : Stops (fun c => ds.length < 2 ∧ c.isDigit) r) :
    unescape? ('\\' :: d :: (ds ++ r)) = if numeral 10 (d :: ds) ≤ 255 then
      (unescape? r).map (Char.ofNat (numeral 10 (d :: ds)) :: ·) else none := by
  rw [unescape?, if_pos hd, digitRun_numeral hd hds hlimit hr]
  · exact fun _ hc _ => ne_of_class hd (by decide) hc
  · exact ne_of_class hd (by decide)
  · exact ne_of_class hd (by decide)
  · exact fun _ _ _ hc _ => ne_of_class hd (by decide) hc

/-- One step: an item is taken, and what it stands for comes in front of the rest. -/
theorem Item.unescape?_append (hi : i.WellFormed) (hr : Stops i.GoesOn r) :
    unescape? (i.text ++ r) = (unescape? r).map (i.meaning ++ ·) := by
  cases i with
  | plain c => exact unescape?_plain hi
  | named c d => exact unescape?_simple (simpleEscape?_eq_some_iff.2 (.inl hi))
  | lineBreak text =>
    rcases hi with rfl | rfl | rfl
    · exact unescape?_simple rfl
    · exact unescape?_return fun c hc hn => hr c hc ⟨rfl, hn⟩
    · rw [Item.text, List.cons_append, List.cons_append, List.cons_append, unescape?]
      rfl
  | blanks run =>
    rw [Item.text, List.cons_append, List.cons_append, unescape?_blanks hi hr]
    cases unescape? r <;> rfl
  | hexadecimal high low =>
    simp [Item.text, Item.meaning, unescape?, hexEscape?_digits hi.1 hi.2]
  | signed low => simp [Item.text, Item.meaning, unescape?, hexEscape?_plus hi]
  | decimal digits =>
    obtain ⟨⟨hne, hdigits⟩, hlimit, hvalue⟩ := hi
    obtain ⟨d, ds, rfl⟩ := List.exists_cons_of_ne_nil hne
    obtain ⟨hd, hds⟩ := List.forall_mem_cons.1 hdigits
    have hr' : Stops (fun c => ds.length < 2 ∧ c.isDigit) r := fun c hc h =>
      hr c hc ⟨Nat.succ_lt_succ h.1, h.2⟩
    have h := unescape?_digits hd hds (Nat.le_of_succ_le_succ hlimit) hr'
    rwa [if_pos hvalue] at h

theorem Itemizes.unescape? (h : Itemizes cs items) :
    Token.unescape? cs = some (items.flatMap Item.meaning) := by
  induction h with
  | nil => rw [Token.unescape?, List.flatMap_nil]
  | cons hi hr _ ih => rw [Item.unescape?_append hi hr, ih, Option.map_some, List.flatMap_cons]

/-- What is decoded is divided into items. -/
theorem exists_itemizes (h : (unescape? cs).isSome) : ∃ items, Itemizes cs items := by
  fun_induction unescape? cs with
  | case1 => exact ⟨[], .nil⟩
  | case2 cs ih =>
    obtain ⟨items, hitems⟩ := ih (by simpa using h)
    exact ⟨_, hitems.cons (i := .lineBreak ['\r', '\n']) (.inr (.inr rfl)) fun _ _ h => by cases h.1⟩
  | case3 cs hcs ih =>
    obtain ⟨items, hitems⟩ := ih (by simpa using h)
    refine ⟨_, hitems.cons (i := .lineBreak ['\r']) (.inr (.inl rfl)) ?_⟩
    rintro c hc ⟨-, rfl⟩
    obtain ⟨r, hr⟩ := List.head?_eq_some_iff.1 hc
    exact hcs r hr
  | case4 cs ih =>
    obtain ⟨items, hitems⟩ := ih h
    obtain ⟨run, r, rfl, -, hrun, hr⟩ := exists_countWhile isBlank cs
    rw [dropWhile_append hrun hr] at hitems
    exact ⟨_, hitems.cons (i := .blanks run) hrun hr⟩
  | case5 high low cs c hc ih =>
    obtain ⟨items, hitems⟩ := ih (by simpa using h)
    obtain ⟨hlow, rfl | hhigh⟩ := digits_of_hexEscape? hc
    · exact ⟨_, hitems.cons (i := .signed low) hlow stops_false⟩
    · exact ⟨_, hitems.cons (i := .hexadecimal high low) ⟨hhigh, hlow⟩ stops_false⟩
  | case6 => cases h
  | case7 c cs _ _ _ _ hc run hrun =>
    rename_i ih
    obtain ⟨items, hitems⟩ := ih (by simpa using h)
    obtain ⟨ds, r, rfl, hds, hlimit, hr⟩ := exists_digitRun 2 cs
    have hdigits : run = (numeral 10 (c :: ds), r) := digitRun_numeral hc hds hlimit hr
    rw [hdigits] at hrun hitems
    refine ⟨_, hitems.cons (i := .decimal (c :: ds)) ⟨⟨by simp, ?_⟩, ?_, hrun⟩ ?_⟩
    · exact List.forall_mem_cons.2 ⟨hc, hds⟩
    · exact Nat.succ_le_succ hlimit
    · exact fun d hd h => hr d hd ⟨Nat.lt_of_succ_lt_succ h.1, h.2⟩
  | case8 => cases h
  | case9 c cs _ _ _ _ _ d hd ih =>
    obtain ⟨items, hitems⟩ := ih (by simpa using h)
    rcases simpleEscape?_eq_some_iff.1 hd with hd | ⟨rfl, -⟩
    · exact ⟨_, hitems.cons (i := .named c d) hd stops_false⟩
    · exact ⟨_, hitems.cons (i := .lineBreak ['\n']) (.inl rfl) fun _ _ h => by cases h.1⟩
  | case10 => cases h
  | case11 => cases h
  | case12 c cs _ _ _ _ _ hc ih =>
    obtain ⟨items, hitems⟩ := ih (by simpa using h)
    exact ⟨_, hitems.cons (i := .plain c) hc stops_false⟩

end Items

/-- The one kind of item that is no character and none of the documented escapes. -/
def Item.IsSigned : Item → Prop
  | signed _ => True
  | _ => False

/-- A text is decoded exactly if it is divided into items, and stands for what they stand for. -/
theorem unescape_exact (cs s : List Char) :
    unescape? cs = some s ↔ ∃ items, Itemizes cs items ∧ s = items.flatMap Item.meaning := by
  constructor
  · intro h
    obtain ⟨items, hitems⟩ := exists_itemizes (Option.isSome_iff_exists.2 ⟨s, h⟩)
    exact ⟨items, hitems, Option.some.inj (h.symm.trans hitems.unescape?)⟩
  · rintro ⟨items, hitems, rfl⟩
    exact hitems.unescape?

/-- `\x+5` is decoded, though a plus sign is no hexadecimal digit. -/
theorem signed_escape_decoded : unescape? ['\\', 'x', '+', '5'] = some ['\x05'] ∧
    ¬ ∃ items, Itemizes ['\\', 'x', '+', '5'] items ∧ ∀ i ∈ items, ¬ i.IsSigned := by
  constructor
  · exact (Itemizes.nil.cons (i := .signed '5') (by rfl : isHexDigit '5') stops_false).unescape?
  · rintro ⟨items, hitems, hsigned⟩
    generalize hcs : ['\\', 'x', '+', '5'] = cs at hitems
    cases hitems with
    | nil => cases hcs
    | @cons i r items hi _ _ =>
      have hi' := hsigned i List.mem_cons_self
      cases i with
      | plain c => exact hi (List.cons.inj hcs).1.symm
      | named c d =>
        obtain ⟨rfl, -⟩ := List.cons.inj (List.cons.inj hcs).2
        revert hi
        simp [Item.WellFormed, namedEscapes]
      | lineBreak text => rcases hi with rfl | rfl | rfl <;> simp [Item.text] at hcs
      | blanks run => simp [Item.text] at hcs
      | hexadecimal high low =>
        obtain ⟨rfl, -⟩ := List.cons.inj (List.cons.inj (List.cons.inj hcs).2).2
        exact absurd hi.1 (by decide)
      | signed low => exact hi' trivial
      | decimal digits =>
        obtain ⟨d, ds, rfl⟩ := List.exists_cons_of_ne_nil hi.1.1
        obtain ⟨rfl, -⟩ := List.cons.inj (List.cons.inj hcs).2
        exact absurd (hi.1.2 'x' List.mem_cons_self) (by decide)

end ScriptFront.Token
