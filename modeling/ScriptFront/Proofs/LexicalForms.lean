import ScriptFront.Token.Lexed
/-! The texts that each rule takes. A rule takes a piece of a text exactly if the piece is one of its
texts and the character after the piece does not go on with it. -/
namespace ScriptFront.Token
open Text Number

/-- The next character, if there is one, is not such. -/
def Stops (p : Char → Prop) (r : List Char) : Prop := ∀ c ∈ r.head?, ¬ p c

/-- One or more characters of a class. -/
def IsRun (p : Char → Bool) (w : List Char) : Prop := w ≠ [] ∧ ∀ c ∈ w, p c

def IsHexadecimal (w : List Char) : Prop :=
  ∃ x ds, w = '0' :: x :: ds ∧ (x = 'x' ∨ x = 'X') ∧ IsRun isHexDigit ds

def IsWordText (w : List Char) : Prop :=
  ∃ c cs, w = c :: cs ∧ isWordStart c ∧ ∀ d ∈ cs, isWord d

/-- Digits, or digits with a point among or behind them. -/
def IsDecimal (w : List Char) : Prop :=
  IsRun isAnyDigit w ∨
    ∃ ds ps, w = ds ++ '.' :: ps ∧ IsRun isAnyDigit ds ∧ ∀ c ∈ ps, isAnyDigit c

def IsExponent (w : List Char) : Prop :=
  ∃ mark sign ds, w = mark :: (sign ++ ds) ∧ isExponentMark mark ∧
    (sign = [] ∨ sign = ['+'] ∨ sign = ['-']) ∧ IsRun isAnyDigit ds

/-- A quoted text behind its opening quote, closing quote included. -/
inductive OpenQuote (quote : Char) : List Char → Prop
  | close : OpenQuote quote [quote]
  | lineBreak : OpenQuote quote w → OpenQuote quote ('\\' :: '\r' :: '\n' :: w)
  | escape : OpenQuote quote w → OpenQuote quote ('\\' :: c :: w)
  | plain : c ≠ quote → c ≠ '\\' → c ≠ '\n' → OpenQuote quote w → OpenQuote quote (c :: w)

def IsQuoted (quote : Char) (w : List Char) : Prop := ∃ cs, w = quote :: cs ∧ OpenQuote quote cs

/-- The closing bracket of the level stands at the end and not before. -/
def IsLongBracket (w : List Char) : Prop :=
  ∃ level body, w = '[' :: (List.replicate level '=' ++ '[' :: (body ++ closingBracket level)) ∧
    firstOccurrence? (closingBracket level) (body ++ closingBracket level) = some body.length

/-- The texts that a rule takes. -/
def Rule.Takes : Rule → List Char → Prop
  | blank, w => IsRun isBlank w
  | hexadecimal, w => IsHexadecimal w
  | word, w => IsWordText w
  | scientific, w => ∃ m e, w = m ++ e ∧ IsDecimal m ∧ IsExponent e
  | decimal, w => IsDecimal w
  | doubleQuoted, w => IsQuoted '"' w
  | singleQuoted, w => IsQuoted '\'' w
  | longComment, w => ∃ b, w = '-' :: '-' :: b ∧ IsLongBracket b
  | lineComment, w => ∃ cs, w = '-' :: '-' :: cs ∧ ∀ c ∈ cs, c ≠ '\n'
  | longString, w => IsLongBracket w
  | operator op, w => w = op.symbol

/-- What would make the rule's text longer. -/
def Rule.GoesOn : Rule → List Char → Char → Prop
  | blank, _, c => isBlank c
  | hexadecimal, _, c => isHexDigit c
  | word, _, c => isWord c
  | scientific, _, c => isAnyDigit c
  | decimal, w, c => isAnyDigit c ∨ c = '.' ∧ '.' ∉ w
  | lineComment, _, c => c ≠ '\n'
  | _, _, _ => False

/-- A text of the first `n` characters is taken and ends there. -/
def Cuts (takes : List Char → Prop) (goesOn : List Char → Char → Prop) (cs : List Char) (n : Nat) :
    Prop := ∃ w r, cs = w ++ r ∧ w.length = n ∧ takes w ∧ Stops (goesOn w) r

section Runs
variable {p : Char → Bool} {q : Char → Prop} {w r cs : List Char} {c : Char} {n k : Nat}

theorem stops_nil : Stops q [] := fun _ h => by cases h

theorem stops_cons : Stops q (c :: cs) ↔ ¬ q c := by simp [Stops]

theorem stops_false : Stops (fun _ => False) r := fun _ _ h => h

theorem ne_of_class {c d : Char} (hc : p c) (hd : ¬ p d) : c ≠ d := fun h => hd (h ▸ hc)

theorem countWhile_cons : countWhile p (c :: cs) = if p c then countWhile p cs + 1 else 0 := by
  unfold countWhile
  by_cases h : p c <;> simp [h]

theorem countWhile_append (hw : ∀ c ∈ w, p c) (hr : Stops (p ·) r) :
    countWhile p (w ++ r) = w.length := by
  induction w with
  | nil =>
    cases r with
    | nil => rfl
    | cons c r => simpa [countWhile_cons, stops_cons] using hr
  | cons c w ih =>
    obtain ⟨hc, hw⟩ := List.forall_mem_cons.1 hw
    simp [countWhile_cons, hc, ih hw]

theorem exists_countWhile (p : Char → Bool) (cs : List Char) :
    ∃ w r, cs = w ++ r ∧ countWhile p cs = w.length ∧ (∀ c ∈ w, p c) ∧ Stops (p ·) r := by
  induction cs with
  | nil => exact ⟨[], [], rfl, rfl, by simp, stops_nil⟩
  | cons c cs ih =>
    by_cases hc : p c
    · obtain ⟨w, r, rfl, hn, hw, hr⟩ := ih
      exact ⟨c :: w, r, rfl, by simp [countWhile_cons, hc, hn], by simpa [hc] using hw, hr⟩
    · exact ⟨[], c :: cs, rfl, by simp [countWhile_cons, hc], by simp, stops_cons.2 hc⟩

theorem positive?_eq_some_iff : positive? n = some k ↔ n = k ∧ 0 < k := by
  unfold positive?
  split <;> simp only [Option.some.injEq, reduceCtorEq, false_iff] <;> omega

theorem run_cuts : positive? (countWhile p cs) = some n ↔ Cuts (IsRun p) (fun _ c => p c) cs n := by
  rw [positive?_eq_some_iff]
  constructor
  · rintro ⟨rfl, hpos⟩
    obtain ⟨w, r, rfl, hn, hw, hr⟩ := exists_countWhile p cs
    exact ⟨w, r, rfl, hn.symm, ⟨List.length_pos_iff.1 (hn ▸ hpos), hw⟩, hr⟩
  · rintro ⟨w, r, rfl, rfl, ⟨hne, hw⟩, hr⟩
    exact ⟨countWhile_append hw hr, List.length_pos_iff.2 hne⟩

theorem run_applies (h : IsRun p w) : (positive? (countWhile p (w ++ r))).isSome := by
  obtain ⟨hne, hw⟩ := h
  obtain ⟨c, w, rfl⟩ := List.exists_cons_of_ne_nil hne
  simp [positive?, countWhile_cons, hw c]

/-- Where a text is cut is all that matters of what follows. -/
theorem cuts_append_iff {takes : List Char → Prop} {goesOn : List Char → Char → Prop} :
    Cuts takes goesOn (w ++ r) w.length ↔ takes w ∧ Stops (goesOn w) r := by
  constructor
  · rintro ⟨u, v, he, hn, ht, hs⟩
    obtain ⟨rfl, rfl⟩ := List.append_inj he hn.symm
    exact ⟨ht, hs⟩
  · rintro ⟨ht, hs⟩
    exact ⟨w, r, rfl, rfl, ht, hs⟩

end Runs

section Numerals
variable {w r cs ds : List Char} {n : Nat}

theorem hexadecimalLength?_cuts :
    hexadecimalLength? cs = some n ↔ Cuts IsHexadecimal (fun _ c => isHexDigit c) cs n := by
  constructor
  · intro h
    unfold hexadecimalLength? at h
    split at h
    · split at h
      · next hx =>
        obtain ⟨k, hk, rfl⟩ := Option.map_eq_some_iff.1 h
        obtain ⟨ds, r, rfl, rfl, hds, hr⟩ := run_cuts.1 hk
        exact ⟨_ :: _ :: ds, r, rfl, rfl, ⟨_, ds, rfl, hx, hds⟩, hr⟩
      · cases h
    · cases h
  · rintro ⟨_, r, rfl, rfl, ⟨x, ds, rfl, hx, hds⟩, hr⟩
    simp [hexadecimalLength?, hx, run_cuts.2 ⟨ds, r, rfl, rfl, hds, hr⟩]

theorem wordLength?_cuts :
    wordLength? cs = some n ↔ Cuts IsWordText (fun _ c => isWord c) cs n := by
  constructor
  · intro h
    unfold wordLength? at h
    split at h
    · split at h
      · next c cs hc =>
        cases h
        obtain ⟨w, r, rfl, hn, hw, hr⟩ := exists_countWhile isWord cs
        exact ⟨c :: w, r, rfl, by rw [hn]; rfl, ⟨c, w, rfl, hc, hw⟩, hr⟩
      · cases h
    · cases h
  · rintro ⟨_, r, rfl, rfl, ⟨c, w, rfl, hc, hw⟩, hr⟩
    simp [wordLength?, hc, countWhile_append hw hr]

theorem not_isAnyDigit_point : ¬ isAnyDigit '.' := by decide

theorem decimalLength?_point {places : List Char} (hd : IsRun isAnyDigit ds) :
    decimalLength? (ds ++ '.' :: places) =
      some (ds.length + 1 + countWhile isAnyDigit places) := by
  have hds := run_cuts.2 ⟨ds, '.' :: places, rfl, rfl, hd, stops_cons.2 not_isAnyDigit_point⟩
  simp [decimalLength?, hds]

theorem decimalLength?_whole (hd : IsRun isAnyDigit ds)
    (hr : Stops (fun c => isAnyDigit c ∨ c = '.') r) :
    decimalLength? (ds ++ r) = some ds.length := by
  have hds := run_cuts.2 ⟨ds, r, rfl, rfl, hd, fun c hc h => hr c hc (.inl h)⟩
  simp only [decimalLength?, hds, Option.map_some, List.drop_left]
  split
  · exact absurd (.inr rfl) (stops_cons.1 hr)
  · rfl

theorem decimalLength?_cuts : decimalLength? cs = some n ↔
    Cuts IsDecimal (fun w c => isAnyDigit c ∨ c = '.' ∧ '.' ∉ w) cs n := by
  constructor
  · intro h
    obtain ⟨_, hk, -⟩ := Option.map_eq_some_iff.1 h
    obtain ⟨ds, r, rfl, -, hds, hr⟩ := run_cuts.1 hk
    by_cases hp : r.head? = some '.'
    · obtain ⟨places, rfl⟩ := List.head?_eq_some_iff.1 hp
      rw [decimalLength?_point hds] at h
      cases h
      obtain ⟨ps, r, rfl, hn, hps, hr'⟩ := exists_countWhile isAnyDigit places
      refine ⟨ds ++ '.' :: ps, r, by simp, by simp [hn]; omega, .inr ⟨ds, ps, rfl, hds, hps⟩, ?_⟩
      intro c hc
      simpa using hr' c hc
    · have hr' : Stops (fun c => isAnyDigit c ∨ c = '.') r := by
        rintro c hc (hd | rfl)
        · exact hr c hc hd
        · exact hp hc
      rw [decimalLength?_whole hds hr'] at h
      cases h
      exact ⟨ds, r, rfl, rfl, .inl hds, fun c hc hgo => hr' c hc (hgo.imp_right And.left)⟩
  · rintro ⟨w, r, rfl, rfl, hw, hr⟩
    rcases hw with hw | ⟨ds, ps, rfl, hds, hps⟩
    · have hp : '.' ∉ w := fun hm => not_isAnyDigit_point (hw.2 _ hm)
      exact decimalLength?_whole hw fun c hc hgo => hr c hc (hgo.imp_right fun h => ⟨h, hp⟩)
    · rw [List.append_assoc, List.cons_append, decimalLength?_point hds]
      simp [countWhile_append hps fun c hc hgo => hr c hc (.inl hgo)]
      omega

theorem decimalLength?_isSome (h : IsDecimal w) : (decimalLength? (w ++ r)).isSome := by
  rcases h with hw | ⟨ds, ps, rfl, hds, -⟩
  · obtain ⟨k, hk⟩ := Option.isSome_iff_exists.1 (run_applies (r := r) hw)
    simp [decimalLength?, hk]
  · simp [decimalLength?_point hds]

theorem exponentLength?_cuts :
    exponentLength? cs = some n ↔ Cuts IsExponent (fun _ c => isAnyDigit c) cs n := by
  constructor
  · intro h
    unfold exponentLength? at h
    split at h
    · next mark cs =>
      split at h
      · next hm =>
        dsimp only at h
        split at h
        all_goals
          obtain ⟨k, hk, rfl⟩ := Option.map_eq_some_iff.1 h
          obtain ⟨ds, r, hcs, rfl, hds, hr⟩ := run_cuts.1 hk
          simp only [List.drop_zero, List.drop_succ_cons] at hcs
          subst hcs
        · exact ⟨mark :: '+' :: ds, r, rfl, rfl, ⟨mark, ['+'], ds, rfl, hm, by simp, hds⟩, hr⟩
        · exact ⟨mark :: '-' :: ds, r, rfl, rfl, ⟨mark, ['-'], ds, rfl, hm, by simp, hds⟩, hr⟩
        · exact ⟨mark :: ds, r, rfl, rfl, ⟨mark, [], ds, rfl, hm, by simp, hds⟩, hr⟩
      · cases h
    · cases h
  · rintro ⟨_, r, rfl, rfl, ⟨mark, sign, ds, rfl, hm, hsign, hds⟩, hr⟩
    have hk := run_cuts.2 ⟨ds, r, rfl, rfl, hds, hr⟩
    rcases hsign with rfl | rfl | rfl
    · obtain ⟨d, ds, rfl⟩ := List.exists_cons_of_ne_nil hds.1
      have hd := hds.2 d List.mem_cons_self
      have hp : d ≠ '+' := by
        rintro rfl
        exact absurd hd (by decide)
      have hm' : d ≠ '-' := by
        rintro rfl
        exact absurd hd (by decide)
      simp only [List.cons_append, List.length_cons] at hk
      simp [exponentLength?, hm, hp, hm', hk]
    · simp [exponentLength?, hm, hk]
    · simp [exponentLength?, hm, hk]

/-- What stands in front of an exponent is a whole decimal. -/
theorem decimalLength?_exponent {m e : List Char} (hm : IsDecimal m) (he : IsExponent e) :
    decimalLength? (m ++ (e ++ r)) = some m.length := by
  obtain ⟨mark, sign, ds, rfl, hmark, -, -⟩ := he
  have hd : ¬ isAnyDigit mark ∧ mark ≠ '.' := by
    simp only [isExponentMark, Bool.or_eq_true, beq_iff_eq] at hmark
    rcases hmark with rfl | rfl <;> decide
  refine decimalLength?_cuts.2 (cuts_append_iff.2 ⟨hm, stops_cons.2 ?_⟩)
  rintro (h | ⟨h, -⟩)
  · exact hd.1 h
  · exact hd.2 h

theorem scientificLength?_cuts : scientificLength? cs = some n ↔
    Cuts (fun w => ∃ m e, w = m ++ e ∧ IsDecimal m ∧ IsExponent e) (fun _ c => isAnyDigit c) cs n := by
  constructor
  · intro h
    unfold scientificLength? at h
    split at h
    · next k hk =>
      obtain ⟨m, r, rfl, rfl, hm, -⟩ := decimalLength?_cuts.1 hk
      obtain ⟨j, hj, rfl⟩ := Option.map_eq_some_iff.1 h
      rw [List.drop_left] at hj
      obtain ⟨e, r, rfl, rfl, he, hr⟩ := exponentLength?_cuts.1 hj
      exact ⟨m ++ e, r, by simp, by simp [Nat.add_comm], ⟨m, e, rfl, hm, he⟩, hr⟩
    · cases h
  · rintro ⟨_, r, rfl, rfl, ⟨m, e, rfl, hm, he⟩, hr⟩
    have he' := exponentLength?_cuts.2 (cuts_append_iff.2 ⟨he, hr⟩)
    simp [scientificLength?, decimalLength?_exponent hm he, he', Nat.add_comm]

/-- More digits behind an exponent make a longer one. -/
theorem IsExponent.cuts_longer {e : List Char} (he : IsExponent e) (r : List Char) :
    ∃ n, Cuts IsExponent (fun _ c => isAnyDigit c) (e ++ r) n := by
  obtain ⟨mark, sign, ds, rfl, hm, hsign, hne, hds⟩ := he
  obtain ⟨u, v, rfl, -, hu, hv⟩ := exists_countWhile isAnyDigit r
  refine ⟨_, mark :: (sign ++ (ds ++ u)), v, by simp, rfl,
    ⟨mark, sign, ds ++ u, rfl, hm, hsign, by simp [hne], ?_⟩, hv⟩
  exact List.forall_mem_append.2 ⟨hds, hu⟩

theorem scientificLength?_isSome {m e : List Char} (hm : IsDecimal m) (he : IsExponent e) :
    (scientificLength? (m ++ e ++ r)).isSome := by
  obtain ⟨n, hn⟩ := he.cuts_longer r
  simp [scientificLength?, decimalLength?_exponent hm he, exponentLength?_cuts.2 hn]

end Numerals

section Quotes
variable {quote : Char} {w r cs : List Char} {n : Nat}

theorem openQuoteLength?_some (h : openQuoteLength? quote cs = some n) :
    ∃ w r, cs = w ++ r ∧ w.length = n ∧ OpenQuote quote w := by
  fun_induction openQuoteLength? quote cs generalizing n with
  | case1 => cases h
  | case2 cs ih =>
    obtain ⟨k, hk, rfl⟩ := Option.map_eq_some_iff.1 h
    obtain ⟨w, r, rfl, rfl, hw⟩ := ih hk
    exact ⟨_ :: _ :: _ :: w, r, rfl, rfl, hw.lineBreak⟩
  | case3 c cs _ ih =>
    obtain ⟨k, hk, rfl⟩ := Option.map_eq_some_iff.1 h
    obtain ⟨w, r, rfl, rfl, hw⟩ := ih hk
    exact ⟨_ :: _ :: w, r, rfl, rfl, hw.escape⟩
  | case4 cs =>
    cases h
    exact ⟨[quote], cs, rfl, rfl, .close⟩
  | case5 => cases h
  | case6 c cs _ _ hq hc ih =>
    obtain ⟨k, hk, rfl⟩ := Option.map_eq_some_iff.1 h
    obtain ⟨w, r, rfl, rfl, hw⟩ := ih hk
    simp only [not_or] at hc
    exact ⟨c :: w, r, rfl, rfl, .plain hq hc.1 hc.2 hw⟩

theorem OpenQuote.head (h : OpenQuote quote w) (hn : quote ≠ '\n') :
    ∃ c u, w = c :: u ∧ c ≠ '\n' := by
  cases h with
  | close => exact ⟨quote, [], rfl, hn⟩
  | lineBreak _ => exact ⟨_, _, rfl, by decide⟩
  | escape _ => exact ⟨_, _, rfl, by decide⟩
  | plain _ _ hc _ => exact ⟨_, _, rfl, hc⟩

theorem openQuoteLength?_append (h : OpenQuote quote w) (hb : quote ≠ '\\') (hn : quote ≠ '\n') :
    openQuoteLength? quote (w ++ r) = some w.length := by
  induction h with
  | close => simp [openQuoteLength?, hb]
  | lineBreak _ ih => simp [openQuoteLength?, ih]
  | escape hw ih =>
    rw [List.cons_append, List.cons_append, openQuoteLength?]
    · simp [ih]
    · rintro cs - he
      obtain ⟨c, u, rfl, hc⟩ := hw.head hn
      exact hc (List.cons.inj he).1
  | plain hq hb' hn' _ ih => simp [openQuoteLength?, hq, hb', hn', ih]

theorem quotedLength?_some (h : quotedLength? quote cs = some n) :
    ∃ w r, cs = w ++ r ∧ w.length = n ∧ IsQuoted quote w := by
  unfold quotedLength? at h
  split at h
  · split at h
    · next hc =>
      subst hc
      obtain ⟨k, hk, rfl⟩ := Option.map_eq_some_iff.1 h
      obtain ⟨w, r, rfl, rfl, hw⟩ := openQuoteLength?_some hk
      exact ⟨_ :: w, r, rfl, rfl, w, rfl, hw⟩
    · cases h
  · cases h

theorem quotedLength?_append (h : IsQuoted quote w) (hb : quote ≠ '\\') (hn : quote ≠ '\n') :
    quotedLength? quote (w ++ r) = some w.length := by
  obtain ⟨w, rfl, hw⟩ := h
  simp [quotedLength?, openQuoteLength?_append hw hb hn]

end Quotes

section Brackets
variable {pattern w r cs : List Char} {n : Nat}

theorem firstOccurrence?_some (h : firstOccurrence? pattern cs = some n) :
    ∃ u v, cs = u ++ pattern ++ v ∧ u.length = n := by
  induction cs generalizing n with
  | nil =>
    unfold firstOccurrence? at h
    split at h
    · next hp =>
      cases h
      exact ⟨[], [], by simp [List.isEmpty_iff.1 hp], rfl⟩
    · cases h
  | cons c cs ih =>
    unfold firstOccurrence? at h
    split at h
    · next hp =>
      cases h
      obtain ⟨v, hv⟩ := List.isPrefixOf_iff_prefix.1 hp
      exact ⟨[], v, hv.symm, rfl⟩
    · obtain ⟨k, hk, rfl⟩ := Option.map_eq_some_iff.1 h
      obtain ⟨u, v, rfl, rfl⟩ := ih hk
      exact ⟨c :: u, v, rfl, rfl⟩

theorem firstOccurrence?_start (pattern v : List Char) :
    firstOccurrence? pattern (pattern ++ v) = some 0 := by
  cases pattern with
  | nil => cases v <;> simp [firstOccurrence?]
  | cons p pattern => simp [firstOccurrence?]

/-- Whether a pattern occurs before a place does not depend on what follows the place. -/
theorem firstOccurrence?_append_iff (u v : List Char) :
    firstOccurrence? pattern (u ++ pattern ++ v) = some u.length ↔
      firstOccurrence? pattern (u ++ pattern) = some u.length := by
  induction u with
  | nil => simpa [firstOccurrence?_start] using firstOccurrence?_start pattern []
  | cons c u ih =>
    have hp : pattern.isPrefixOf (c :: (u ++ pattern ++ v)) =
        pattern.isPrefixOf (c :: (u ++ pattern)) := by
      rw [Bool.eq_iff_iff, List.isPrefixOf_iff_prefix, List.isPrefixOf_iff_prefix]
      refine ⟨fun h => ?_, fun h => h.trans ⟨v, rfl⟩⟩
      exact List.prefix_of_prefix_length_le h ⟨v, rfl⟩ (by simp; omega)
    simp only [List.cons_append, firstOccurrence?, hp, List.length_cons]
    split
    · simp
    · simpa using ih

theorem occurs_of_firstOccurrence?_none (h : firstOccurrence? pattern cs = none) (u v : List Char) :
    cs ≠ u ++ pattern ++ v := by
  rintro rfl
  induction u with
  | nil => cases (firstOccurrence?_start pattern v).symm.trans h
  | cons c u ih =>
    simp only [List.cons_append, firstOccurrence?] at h
    split at h
    · cases h
    · exact ih (by simpa using h)

theorem bracketLevel_append (level : Nat) (hr : Stops (· = '=') r) :
    bracketLevel (List.replicate level '=' ++ r) = level := by
  have h := countWhile_append (p := (· = '=')) (w := List.replicate level '=') (r := r)
    (by simp) (by simpa using hr)
  rwa [List.length_replicate] at h

theorem exists_bracketLevel (cs : List Char) :
    ∃ r, cs = List.replicate (bracketLevel cs) '=' ++ r ∧ Stops (· = '=') r := by
  obtain ⟨w, r, rfl, hn, hw, hr⟩ := exists_countWhile (· = '=') cs
  have hl : bracketLevel (w ++ r) = w.length := hn
  refine ⟨r, ?_, by simpa using hr⟩
  rw [hl, ← List.eq_replicate_of_mem (by simpa using hw)]

theorem length_closingBracket (level : Nat) : (closingBracket level).length = level + 2 := by
  simp [closingBracket]

theorem longBracketLength?_level (level : Nat) (body : List Char) :
    longBracketLength? ('[' :: (List.replicate level '=' ++ '[' :: body)) =
      (firstOccurrence? (closingBracket level) body).map (· + 2 * (level + 2)) := by
  have hl := bracketLevel_append (r := '[' :: body) level (stops_cons.2 (by decide))
  simp [longBracketLength?, hl]

theorem longBracketText_level (level : Nat) (body : List Char) :
    longBracketText ('[' :: (List.replicate level '=' ++ '[' :: (body ++ closingBracket level))) =
      dropLineBreak body := by
  have hl := bracketLevel_append (r := '[' :: (body ++ closingBracket level)) level
    (stops_cons.2 (by decide))
  have hdrop : List.drop (level + 2)
      ('[' :: (List.replicate level '=' ++ '[' :: (body ++ closingBracket level))) =
      body ++ closingBracket level := by
    simp [List.drop_append]
  have hlength : ('[' :: (List.replicate level '=' ++
      '[' :: (body ++ closingBracket level))).length - 2 * (level + 2) = body.length := by
    simp [length_closingBracket]
    omega
  simp only [longBracketText, List.drop_one, List.tail_cons, hl, hdrop, hlength, List.take_left']

theorem longBracketLength?_some (h : longBracketLength? cs = some n) :
    ∃ w r, cs = w ++ r ∧ w.length = n ∧ IsLongBracket w := by
  unfold longBracketLength? at h
  split at h
  · next cs =>
    obtain ⟨r, hcs, -⟩ := exists_bracketLevel cs
    generalize bracketLevel cs = level at h hcs
    subst hcs
    simp only [List.drop_left', List.length_replicate] at h
    split at h
    · next body =>
      obtain ⟨k, hk, rfl⟩ := Option.map_eq_some_iff.1 h
      obtain ⟨u, v, rfl, rfl⟩ := firstOccurrence?_some hk
      refine ⟨_, v, by simp, ?_, level, u, rfl, (firstOccurrence?_append_iff u v).1 hk⟩
      simp [length_closingBracket]
      omega
    · cases h
  · cases h

theorem longBracketLength?_append (h : IsLongBracket w) :
    longBracketLength? (w ++ r) = some w.length := by
  obtain ⟨level, body, rfl, hb⟩ := h
  rw [List.cons_append, List.append_assoc, List.cons_append, longBracketLength?_level,
    (firstOccurrence?_append_iff body r).2 hb]
  simp [length_closingBracket]
  omega

end Brackets

section Rules
variable {rule : Rule} {w r cs : List Char} {n : Nat}

theorem operatorLength?_eq_some_iff {op : Operator} :
    operatorLength? op cs = some n ↔ ∃ r, cs = op.symbol ++ r ∧ op.symbol.length = n := by
  unfold operatorLength?
  split
  · next h =>
    obtain ⟨r, rfl⟩ := List.isPrefixOf_iff_prefix.1 h
    simp
  · next h =>
    simp only [reduceCtorEq, false_iff]
    rintro ⟨r, rfl, -⟩
    exact h (List.isPrefixOf_iff_prefix.2 ⟨r, rfl⟩)

/-- A rule that never goes on takes a text wherever it stands. -/
theorem cuts_of_fixed {takes : List Char → Prop} {f : List Char → Option Nat}
    (hs : ∀ {cs n}, f cs = some n → ∃ w r, cs = w ++ r ∧ w.length = n ∧ takes w)
    (ha : ∀ {w r}, takes w → f (w ++ r) = some w.length) :
    f cs = some n ↔ Cuts takes (fun _ _ => False) cs n := by
  constructor
  · intro h
    obtain ⟨w, r, rfl, rfl, hw⟩ := hs h
    exact ⟨w, r, rfl, rfl, hw, stops_false⟩
  · rintro ⟨w, r, rfl, rfl, hw, -⟩
    exact ha hw

/-- What a rule finds at the start of a text. -/
theorem Rule.length?_eq_some_iff : rule.length? cs = some n ↔ Cuts rule.Takes rule.GoesOn cs n := by
  cases rule with
  | blank => exact run_cuts
  | hexadecimal => exact hexadecimalLength?_cuts
  | word => exact wordLength?_cuts
  | scientific => exact scientificLength?_cuts
  | decimal => exact decimalLength?_cuts
  | doubleQuoted =>
    exact cuts_of_fixed quotedLength?_some fun h => quotedLength?_append h (by decide) (by decide)
  | singleQuoted =>
    exact cuts_of_fixed quotedLength?_some fun h => quotedLength?_append h (by decide) (by decide)
  | longComment =>
    refine cuts_of_fixed (f := longCommentLength?) (fun h => ?_) fun h => ?_
    · unfold longCommentLength? at h
      split at h
      · obtain ⟨k, hk, rfl⟩ := Option.map_eq_some_iff.1 h
        obtain ⟨w, r, rfl, rfl, hw⟩ := longBracketLength?_some hk
        exact ⟨_ :: _ :: w, r, rfl, rfl, w, rfl, hw⟩
      · cases h
    · obtain ⟨b, rfl, hb⟩ := h
      simp [longCommentLength?, longBracketLength?_append hb]
  | lineComment =>
    constructor
    · intro h
      simp only [Rule.length?, lineCommentLength?] at h
      split at h
      · next cs =>
        cases h
        obtain ⟨w, r, rfl, hn, hw, hr⟩ := exists_countWhile (· != '\n') cs
        exact ⟨_ :: _ :: w, r, rfl, by simp [hn], ⟨w, rfl, by simpa using hw⟩,
          fun c hc hne => hr c hc (bne_iff_ne.2 hne)⟩
      · cases h
    · rintro ⟨_, r, rfl, rfl, ⟨w, rfl, hw⟩, hr⟩
      have h := countWhile_append (p := (· != '\n')) (w := w) (r := r) (by simpa using hw)
        fun c hc hne => hr c hc (bne_iff_ne.1 hne)
      simp [Rule.length?, lineCommentLength?, h]
  | longString => exact cuts_of_fixed longBracketLength?_some longBracketLength?_append
  | operator op =>
    refine operatorLength?_eq_some_iff.trans ⟨?_, ?_⟩
    · rintro ⟨r, rfl, rfl⟩
      exact ⟨op.symbol, r, rfl, rfl, rfl, stops_false⟩
    · rintro ⟨_, r, rfl, rfl, rfl, -⟩
      exact ⟨r, rfl, rfl⟩

theorem Rule.length?_append_iff :
    rule.length? (w ++ r) = some w.length ↔ rule.Takes w ∧ Stops (rule.GoesOn w) r :=
  length?_eq_some_iff.trans cuts_append_iff

/-- A rule applies wherever one of its texts stands, though it may take more. -/
theorem Rule.applies_of_takes (h : rule.Takes w) (r : List Char) :
    (rule.length? (w ++ r)).isSome := by
  cases rule with
  | blank => exact run_applies h
  | hexadecimal =>
    obtain ⟨x, ds, rfl, hx, hds⟩ := h
    simpa [Rule.length?, hexadecimalLength?, hx] using run_applies hds
  | word =>
    obtain ⟨c, cs, rfl, hc, -⟩ := h
    simp [Rule.length?, wordLength?, hc]
  | scientific =>
    obtain ⟨m, e, rfl, hm, he⟩ := h
    exact scientificLength?_isSome hm he
  | decimal => exact decimalLength?_isSome h
  | lineComment =>
    obtain ⟨cs, rfl, -⟩ := h
    rfl
  | doubleQuoted | singleQuoted | longComment | longString | operator op =>
    rw [length?_append_iff.2 ⟨h, stops_false⟩]
    rfl

theorem Rule.length?_eq_none_iff :
    rule.length? cs = none ↔ ∀ u, u <+: cs → ¬ rule.Takes u := by
  constructor
  · rintro h u ⟨v, rfl⟩ hu
    have := applies_of_takes hu v
    rw [h] at this
    cases this
  · intro h
    refine Option.eq_none_iff_forall_ne_some.2 fun n hn => ?_
    obtain ⟨w, r, rfl, -, hw, -⟩ := length?_eq_some_iff.1 hn
    exact h w ⟨r, rfl⟩ hw

end Rules
end ScriptFront.Token
