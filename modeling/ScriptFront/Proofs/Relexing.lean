import ScriptFront.Proofs.Scan
/-! Reading the lexemes of a text again, one on each line, gives the same tokens. A lexeme keeps its
rule when a line break or the end follows it instead: no rule goes on with a line break but that of
blanks, and of the earlier rules only quotes and long brackets could reach across it, which no
later rule's text opens. -/
namespace ScriptFront.Token
open Text Number

/-- A line break or the end of the text is next. -/
def AtBreak (r : List Char) : Prop := Stops (· ≠ '\n') r

/-- What the texts of a rule begin with. -/
def Rule.Opens : Rule → Char → Prop
  | blank, c => isBlank c
  | hexadecimal, c => c = '0'
  | word, c => isWordStart c
  | scientific, c | decimal, c => isAnyDigit c
  | doubleQuoted, c => c = '"'
  | singleQuoted, c => c = '\''
  | longComment, c | lineComment, c => c = '-'
  | longString, c => c = '['
  | operator op, c => op.symbol.head? = some c

instance (rule : Rule) (c : Char) : Decidable (rule.Opens c) :=
  match rule with
  | .blank => inferInstanceAs (Decidable (isBlank c = true))
  | .hexadecimal => inferInstanceAs (Decidable (c = '0'))
  | .word => inferInstanceAs (Decidable (isWordStart c = true))
  | .scientific | .decimal => inferInstanceAs (Decidable (isAnyDigit c = true))
  | .doubleQuoted => inferInstanceAs (Decidable (c = '"'))
  | .singleQuoted => inferInstanceAs (Decidable (c = '\''))
  | .longComment | .lineComment => inferInstanceAs (Decidable (c = '-'))
  | .longString => inferInstanceAs (Decidable (c = '['))
  | .operator op => inferInstanceAs (Decidable (op.symbol.head? = some c))

section Classes
variable {c : Char}

theorem inRanges_of_isWordStart (h : isWordStart c) : inRanges [(0x41, 0x7a)] c.toNat := by
  have hupper : c.isUpper = decide (0x41 ≤ c.toNat ∧ c.toNat ≤ 0x5a) := rfl
  have hlower : c.isLower = (decide (0x61 ≤ c.toNat) && decide (c.toNat ≤ 0x7a)) := rfl
  have halpha : c.isAlpha = (c.isUpper || c.isLower) := rfl
  have hrange : 0x41 ≤ c.toNat ∧ c.toNat ≤ 0x7a := by
    simp only [isWordStart, halpha, hupper, hlower, Bool.or_eq_true, Bool.and_eq_true,
      decide_eq_true_eq, beq_iff_eq] at h
    rcases h with (h | h) | rfl
    · exact ⟨h.1, Nat.le_trans h.2 (by decide)⟩
    · exact ⟨Nat.le_trans (by decide) h.1, h.2⟩
    · decide
  simpa [inRanges] using hrange

theorem not_isBlank_of_isWordStart (h : isWordStart c) : ¬ isBlank c :=
  not_inRanges_of_apart (by decide) (inRanges_of_isWordStart h)

theorem not_isBlank_of_isAnyDigit (h : isAnyDigit c) : ¬ isBlank c :=
  not_inRanges_of_apart (by decide) h

theorem not_isWordStart_of_isAnyDigit (h : isAnyDigit c) : ¬ isWordStart c := fun hc =>
  not_inRanges_of_apart (by decide) (inRanges_of_isWordStart hc) h

end Classes

section Rules
variable {rule other : Rule} {w u r r' : List Char} {t : Token}

theorem IsRun.head {p : Char → Bool} (h : IsRun p w) : ∃ c u, w = c :: u ∧ p c := by
  obtain ⟨c, u, rfl⟩ := List.exists_cons_of_ne_nil h.1
  exact ⟨c, u, rfl, h.2 c List.mem_cons_self⟩

theorem IsDecimal.head (h : IsDecimal w) : ∃ c u, w = c :: u ∧ isAnyDigit c := by
  rcases h with h | ⟨ds, ps, rfl, hds, -⟩
  · exact h.head
  · obtain ⟨c, u, rfl, hc⟩ := hds.head
    exact ⟨c, u ++ '.' :: ps, rfl, hc⟩

theorem Rule.Takes.head (h : rule.Takes w) : ∃ c u, w = c :: u ∧ rule.Opens c := by
  cases rule with
  | blank => exact IsRun.head h
  | hexadecimal =>
    obtain ⟨x, ds, rfl, -, -⟩ := h
    exact ⟨_, _, rfl, rfl⟩
  | word =>
    obtain ⟨c, cs, rfl, hc, -⟩ := h
    exact ⟨c, cs, rfl, hc⟩
  | scientific =>
    obtain ⟨m, e, rfl, hm, -⟩ := h
    obtain ⟨c, u, rfl, hc⟩ := hm.head
    exact ⟨c, u ++ e, rfl, hc⟩
  | decimal => exact IsDecimal.head h
  | doubleQuoted | singleQuoted =>
    obtain ⟨cs, rfl, -⟩ := h
    exact ⟨_, cs, rfl, rfl⟩
  | longComment | lineComment =>
    obtain ⟨b, rfl, -⟩ := h
    exact ⟨_, _, rfl, rfl⟩
  | longString =>
    obtain ⟨level, body, rfl, -⟩ := h
    exact ⟨_, _, rfl, rfl⟩
  | operator op =>
    obtain rfl : w = op.symbol := h
    obtain ⟨c, cs, hc⟩ := List.exists_cons_of_length_pos (length_symbol_pos op)
    exact ⟨c, cs, hc, by simp [Rule.Opens, hc]⟩

theorem Rule.Takes.opens_head {c : Char} (h : rule.Takes u) (hu : u <+: c :: r) : rule.Opens c := by
  obtain ⟨d, v, rfl, hd⟩ := h.head
  obtain ⟨rfl, -⟩ := List.cons_prefix_cons.1 hu
  exact hd

/-- Where no earlier rule opens, a rule decides what is cut. -/
theorem firstRule?_of_takes {c : Char} (h : rule.Takes (c :: w)) (hr : Stops (rule.GoesOn (c :: w)) r)
    (hfirst : ∀ other : Rule, other.rank < rule.rank → ¬ other.Opens c) :
    firstRule? (c :: w ++ r) = some (rule, (c :: w).length) :=
  firstRule?_append_iff.2 ⟨h, hr, fun other ho _ hu htakes => hfirst other ho (htakes.opens_head hu)⟩

theorem rank_blank_lt (ht : ¬ rule.IsTrivia) : Rule.rank .blank < rule.rank := by
  cases rule with
  | blank => exact absurd trivial ht
  | operator op => exact Nat.lt_of_lt_of_le (by decide) (Nat.le_add_right 10 _)
  | _ => decide

theorem not_goesOn_newline (ht : ¬ rule.IsTrivia) : ¬ rule.GoesOn w '\n' := by
  cases rule with
  | blank | longComment | lineComment => exact absurd trivial ht
  | hexadecimal => exact (by decide : ¬ isHexDigit '\n')
  | word => exact (by decide : ¬ isWord '\n')
  | scientific => exact (by decide : ¬ isAnyDigit '\n')
  | decimal => simp [Rule.GoesOn, (by decide : ¬ isAnyDigit '\n')]
  | doubleQuoted | singleQuoted | longString | operator op => exact id

theorem IsDecimal.digits (h : IsDecimal w) : ∀ c ∈ w, isAnyDigit c ∨ c = '.' := by
  rcases h with h | ⟨ds, ps, rfl, hds, hps⟩
  · exact fun c hc => .inl (h.2 c hc)
  · intro c hc
    rcases List.mem_append.1 hc with hc | hc
    · exact .inl (hds.2 c hc)
    · rcases List.mem_cons.1 hc with rfl | hc
      · exact .inr rfl
      · exact .inl (hps c hc)

theorem IsExponent.signs (h : IsExponent w) :
    ∀ c ∈ w, isExponentMark c ∨ isAnyDigit c ∨ c = '+' ∨ c = '-' := by
  obtain ⟨mark, sign, ds, rfl, hm, hsign, -, hds⟩ := h
  intro c hc
  rcases List.mem_cons.1 hc with rfl | hc
  · exact .inl hm
  · rcases List.mem_append.1 hc with hc | hc
    · rcases hsign with rfl | rfl | rfl
      · cases hc
      · exact .inr (.inr (.inl (List.mem_singleton.1 hc)))
      · exact .inr (.inr (.inr (List.mem_singleton.1 hc)))
    · exact .inr (.inl (hds c hc))

/-- The characters of words and numbers. -/
def isPlain (c : Char) : Bool :=
  isWord c || isWordStart c || isHexDigit c || isAnyDigit c || isExponentMark c ||
    ['x', 'X', '.', '+', '-'].contains c

/-- The rules that take other characters. -/
theorem Rule.Takes.of_not_plain {c : Char} (h : rule.Takes w) (hc : c ∈ w) (hp : ¬ isPlain c) :
    rule = .blank ∨ rule = .doubleQuoted ∨ rule = .singleQuoted ∨ rule = .longComment ∨
      rule = .lineComment ∨ rule = .longString ∨ ∃ op, rule = .operator op := by
  simp only [isPlain, Bool.or_eq_true, not_or, List.contains_eq_mem, List.mem_cons,
    List.not_mem_nil, or_false, decide_eq_true_eq] at hp
  obtain ⟨⟨⟨⟨⟨hword, hstart⟩, hhex⟩, hdigit⟩, hmark⟩, hx, hX, hpoint, hplus, hminus⟩ := hp
  have hdecimal {m : List Char} (hm : IsDecimal m) : c ∉ m := fun hc =>
    (hm.digits c hc).elim hdigit hpoint
  cases rule with
  | hexadecimal =>
    obtain ⟨x, ds, rfl, hx', -, hds⟩ := h
    rcases List.mem_cons.1 hc with rfl | hc
    · exact absurd (by decide) hhex
    · rcases List.mem_cons.1 hc with rfl | hc
      · exact absurd hx' (not_or.2 ⟨hx, hX⟩)
      · exact absurd (hds c hc) hhex
  | word =>
    obtain ⟨d, ds, rfl, hd, hds⟩ := h
    rcases List.mem_cons.1 hc with rfl | hc
    · exact absurd hd hstart
    · exact absurd (hds c hc) hword
  | scientific =>
    obtain ⟨m, e, rfl, hm, he⟩ := h
    rcases List.mem_append.1 hc with hc | hc
    · exact absurd hc (hdecimal hm)
    · rcases he.signs c hc with h | h | h | h
      · exact absurd h hmark
      · exact absurd h hdigit
      · exact absurd h hplus
      · exact absurd h hminus
  | decimal => exact absurd hc (hdecimal h)
  | _ => simp

/-- The rules that take a line break. -/
theorem Rule.Takes.of_newline (h : rule.Takes w) (hn : '\n' ∈ w) :
    rule = .blank ∨ rule = .doubleQuoted ∨ rule = .singleQuoted ∨ rule = .longComment ∨
      rule = .longString := by
  rcases h.of_not_plain hn (by decide) with rfl | rfl | rfl | rfl | rfl | rfl | ⟨op, rfl⟩
  · simp
  · simp
  · simp
  · simp
  · obtain ⟨cs, rfl, hcs⟩ := h
    have hmem : '\n' ∈ cs := by simpa using hn
    exact absurd rfl (hcs _ hmem)
  · simp
  · obtain rfl : w = op.symbol := h
    exact absurd hn (by cases op <;> decide)

theorem not_opens_quote (h : Rule.rank .doubleQuoted < rule.rank) : ¬ rule.Opens '"' := by
  cases rule with
  | operator op => cases op <;> simp [Rule.Opens, Operator.symbol]
  | singleQuoted | longComment | lineComment | longString => simp [Rule.Opens]
  | _ => exact absurd h (by decide)

theorem not_opens_apostrophe (h : Rule.rank .singleQuoted < rule.rank) : ¬ rule.Opens '\'' := by
  cases rule with
  | operator op => cases op <;> simp [Rule.Opens, Operator.symbol]
  | longComment | lineComment | longString => simp [Rule.Opens]
  | _ => exact absurd h (by decide)

/-- A dash of another rule than those of comments is an operator's. -/
theorem operator_of_opens_dash (h : Rule.rank .longComment < rule.rank) (ht : ¬ rule.IsTrivia)
    (ho : rule.Opens '-') : ∃ op, rule = .operator op := by
  cases rule with
  | operator op => exact ⟨op, rfl⟩
  | lineComment => exact absurd trivial ht
  | longString => simp [Rule.Opens] at ho
  | _ => exact absurd h (by decide)

theorem operator_of_rank (h : Rule.rank .longString < rule.rank) : ∃ op, rule = .operator op := by
  cases rule with
  | operator op => exact ⟨op, rfl⟩
  | _ => exact absurd h (by decide)

theorem IsLongBracket.second (h : IsLongBracket w) :
    ∃ c u, w = '[' :: c :: u ∧ (c = '=' ∨ c = '[') := by
  obtain ⟨level, body, rfl, -⟩ := h
  cases level with
  | zero => exact ⟨_, _, rfl, .inr rfl⟩
  | succ level => exact ⟨_, _, rfl, .inl rfl⟩

/-- No earlier rule reaches from a lexeme across a line break. -/
theorem not_takes_across (ht : ¬ rule.IsTrivia) (hw : rule.Takes w) (ho : other.rank < rule.rank)
    (hb : ∀ u, u <+: w → ¬ Rule.blank.Takes u) : ¬ other.Takes (w ++ '\n' :: u) := by
  intro h
  obtain ⟨c, v, rfl, hc⟩ := hw.head
  have hopens : other.Opens c := by
    obtain ⟨d, x, he, hd⟩ := h.head
    cases he
    exact hd
  rcases h.of_newline (by simp) with rfl | rfl | rfl | rfl | rfl
  · exact hb [c] (by simp) ⟨by simp, List.forall_mem_singleton.2 hopens⟩
  · obtain rfl : c = '"' := hopens
    exact not_opens_quote ho hc
  · obtain rfl : c = '\'' := hopens
    exact not_opens_apostrophe ho hc
  · obtain rfl : c = '-' := hopens
    obtain ⟨op, rfl⟩ := operator_of_opens_dash ho ht hc
    obtain ⟨b, he, -⟩ := h
    have hs : '-' :: v = op.symbol := hw
    rw [hs] at he
    cases op <;> simp [Operator.symbol] at he
  · obtain ⟨op, rfl⟩ := operator_of_rank ho
    obtain ⟨d, x, he, hd⟩ := IsLongBracket.second h
    have hs : c :: v = op.symbol := hw
    rw [hs] at he
    cases op <;> simp [Operator.symbol] at he
    rcases hd with rfl | rfl <;> simp at he

theorem firstRule?_atBreak (h : firstRule? (w ++ r) = some (rule, w.length))
    (ht : ¬ rule.IsTrivia) (hr : AtBreak r') : firstRule? (w ++ r') = some (rule, w.length) := by
  obtain ⟨hw, -, hfirst⟩ := firstRule?_append_iff.1 h
  have hnone (other : Rule) (ho : other.rank < rule.rank) (u) (hu : u <+: w) : ¬ other.Takes u :=
    hfirst other ho u (hu.trans ⟨r, rfl⟩)
  refine firstRule?_append_iff.2 ⟨hw, fun c hc hgo => ?_, fun other ho u hu htakes => ?_⟩
  · obtain rfl : c = '\n' := Decidable.not_not.1 (hr c hc)
    exact not_goesOn_newline ht hgo
  · rcases Nat.lt_or_ge w.length u.length with hlen | hlen
    · obtain ⟨v, rfl⟩ := List.prefix_of_prefix_length_le ⟨r', rfl⟩ hu (Nat.le_of_lt hlen)
      have hv : v <+: r' := (List.prefix_append_right_inj w).1 hu
      obtain ⟨c, v, rfl⟩ := List.exists_cons_of_ne_nil (l := v) (by rintro rfl; simp at hlen)
      obtain ⟨x, rfl⟩ := hv
      obtain rfl : c = '\n' := Decidable.not_not.1 (hr c rfl)
      exact not_takes_across ht hw ho (hnone .blank (rank_blank_lt ht)) htakes
    · exact hnone other ho u (List.prefix_of_prefix_length_le hu ⟨r', rfl⟩ hlen) htakes

end Rules

/-- A name is its text and no keyword; keywords and operators are spelled by their texts. -/
def IsSpelledBy : Token → String → Prop
  | .name n, text => n = text ∧ Keyword.ofSpelling? text = none
  | .keyword k, text => text = k.spelling
  | .operator op, text => text = op.spelling
  | .number _, _ | .string _, _ => True

/-- The text is read as the token wherever a line break or the end follows. -/
def ReadsAlone (t : Token) (w : List Char) : Prop := ∀ r, AtBreak r → IsFirst (.lexeme t w) r

section Lexemes
variable {rule : Rule} {t : Token} {w r : List Char}

theorem isFirst_lexeme_iff : IsFirst (.lexeme t w) r ↔
    ∃ rule : Rule, firstRule? (w ++ r) = some (rule, w.length) ∧ rule.read w = .token t := by
  rw [isFirst_iff]
  simp only [Piece.text, piece?_lexeme_iff]

theorem not_isTrivia_of_read (h : rule.read w = .token t) : ¬ rule.IsTrivia := by
  cases rule with
  | blank | longComment | lineComment => cases h
  | _ => exact id

theorem readsAlone_of_isFirst (h : IsFirst (.lexeme t w) r) : ReadsAlone t w := by
  obtain ⟨rule, hn, ht⟩ := isFirst_lexeme_iff.1 h
  intro r' hr
  exact isFirst_lexeme_iff.2 ⟨rule, firstRule?_atBreak hn (not_isTrivia_of_read ht) hr, ht⟩

theorem ofToken?_token {o : Option Token} : Reading.ofToken? o = .token t ↔ o = some t := by
  cases o <;> simp [Reading.ofToken?]

theorem ofSpelling?_some {text : String} {k : Keyword} (h : Keyword.ofSpelling? text = some k) :
    k.spelling = text := by
  simpa using List.find?_some h

theorem isSpelledBy_ofWord : IsSpelledBy (ofWord w) (String.ofList w) := by
  unfold ofWord
  split
  · next k hk => exact (ofSpelling?_some hk).symm
  · next hk => exact ⟨rfl, hk⟩

theorem isSpelledBy_of_read (hw : rule.Takes w) (h : rule.read w = .token t) :
    IsSpelledBy t (String.ofList w) := by
  cases rule with
  | word =>
    cases h
    exact isSpelledBy_ofWord
  | operator op =>
    cases h
    exact congrArg String.ofList hw
  | hexadecimal | scientific | decimal | doubleQuoted | singleQuoted =>
    obtain ⟨_, -, rfl⟩ := Option.map_eq_some_iff.1 (ofToken?_token.1 h)
    trivial
  | longString =>
    cases h
    trivial
  | blank | longComment | lineComment => cases h

theorem IsFirst.isSpelledBy (h : IsFirst (.lexeme t w) r) : IsSpelledBy t (String.ofList w) := by
  obtain ⟨rule, hn, ht⟩ := isFirst_lexeme_iff.1 h
  exact isSpelledBy_of_read (firstRule?_append_iff.1 hn).1 ht

/-- A line break in front of a lexeme is a piece of its own. -/
theorem ReadsAlone.newline (h : ReadsAlone t w) : IsFirst (.skipped ['\n']) (w ++ r) := by
  obtain ⟨rule, hn, ht⟩ := isFirst_lexeme_iff.1 (h [] stops_nil)
  obtain ⟨-, -, hfirst⟩ := firstRule?_append_iff.1 hn
  obtain ⟨c, w, rfl⟩ := List.exists_cons_of_ne_nil (ne_nil_of_firstRule? hn)
  have hc : ¬ isBlank c := fun hc =>
    hfirst .blank (rank_blank_lt (not_isTrivia_of_read ht)) [c] (by simp)
      ⟨by simp, List.forall_mem_singleton.2 hc⟩
  refine isFirst_iff.2 ⟨.blank, firstRule?_append_iff.2 ⟨?_, stops_cons.2 hc, ?_⟩, rfl⟩
  · exact ⟨by simp [Piece.text], List.forall_mem_singleton.2 (by decide)⟩
  · intro other ho
    exact absurd ho (Nat.not_lt_zero _)

theorem exists_intercalate_cons (sep w : List Char) (ws : List (List Char)) :
    ∃ r, sep.intercalate (w :: ws) = w ++ r := by
  cases ws with
  | nil => exact ⟨[], by simp⟩
  | cons v vs => exact ⟨sep ++ sep.intercalate (v :: vs), by simp⟩

/-- Texts on lines of their own are read one by one. -/
theorem scan_lines {xs : List (Token × List Char)} (h : ∀ x ∈ xs, ReadsAlone x.1 x.2) :
    ∃ ps, Scan (['\n'].intercalate (xs.map (·.2))) ps [] ∧ ps.filterMap Piece.lexeme? = xs := by
  induction xs with
  | nil => exact ⟨[], .done, rfl⟩
  | cons x xs ih =>
    obtain ⟨hx, hxs⟩ := List.forall_mem_cons.1 h
    cases xs with
    | nil =>
      have hscan := Scan.piece (hx [] stops_nil) .done
      exact ⟨[.lexeme x.1 x.2], by simpa [Piece.text] using hscan, rfl⟩
    | cons y ys =>
      obtain ⟨ps, hps, hl⟩ := ih hxs
      obtain ⟨r, hr⟩ := exists_intercalate_cons ['\n'] y.2 (ys.map (·.2))
      have hnl := (hxs y List.mem_cons_self).newline (r := r)
      rw [List.map_cons, hr] at hps
      have hbreak : AtBreak ('\n' :: (y.2 ++ r)) := stops_cons.2 (by simp)
      have hscan := Scan.piece (hx _ hbreak) (.piece hnl hps)
      refine ⟨.lexeme x.1 x.2 :: .skipped ['\n'] :: ps, ?_, ?_⟩
      · simpa [Piece.text, hr] using hscan
      · rw [List.filterMap_cons_some (by rfl), List.filterMap_cons_none (by rfl), hl]

theorem Scan.isFirst {cs rest : List Char} {ps : List Piece} {p : Piece} (h : Scan cs ps rest)
    (hp : p ∈ ps) : ∃ r, IsFirst p r := by
  induction h with
  | done => cases hp
  | piece hfirst _ ih =>
    rcases List.mem_cons.1 hp with rfl | hp
    · exact ⟨_, hfirst⟩
    · exact ih hp

/-- What a text is read as, lexeme by lexeme. -/
theorem Scan.reads {cs rest : List Char} {ps : List Piece} {x : Token × List Char}
    (h : Scan cs ps rest) (hx : x ∈ ps.filterMap Piece.lexeme?) :
    ReadsAlone x.1 x.2 ∧ IsSpelledBy x.1 (String.ofList x.2) := by
  obtain ⟨p, hp, hpx⟩ := List.mem_filterMap.1 hx
  cases p with
  | skipped w => cases hpx
  | lexeme t w =>
    cases hpx
    obtain ⟨r, hr⟩ := h.isFirst hp
    exact ⟨readsAlone_of_isFirst hr, hr.isSpelledBy⟩

end Lexemes
end Token

namespace Lexed
open Token

/-- The lexemes of a text, one on each line. -/
def lines (l : Lexed) : String := "\n".intercalate l.texts

variable {source : String} {l : Lexed}

/-- Reading the lexemes of a text again, one on each line or each alone, gives the same tokens and
lexemes. -/
theorem lines_relex (h : ofString source = .ok l) :
    (∃ l', ofString l.lines = .ok l' ∧ l'.tokens = l.tokens ∧ l'.texts = l.texts) ∧
      ∀ x ∈ l.lexemes,
        (∃ l', ofString x.text = .ok l' ∧ l'.tokens = [x.token] ∧ l'.texts = [x.text]) ∧
          IsSpelledBy x.token x.text := by
  obtain ⟨ps, hps, rfl⟩ := ofString_ok_iff.1 h
  constructor
  · obtain ⟨qs, hqs, hq⟩ := scan_lines fun x hx => (hps.reads hx).1
    have hlines : (lines ⟨source.toList, Token.lexemes 0 ps⟩).toList =
        ['\n'].intercalate ((ps.filterMap Piece.lexeme?).map (·.2)) := by
      simp [lines, texts_lexemes, String.toList_intercalate, Function.comp_def]
    rw [← hlines] at hqs
    rw [tokens_lexemes, texts_lexemes]
    exact ofString_of_scan hqs hq
  · intro x hx
    have hmem : (x.token, x.text) ∈ (Token.lexemes 0 ps).map fun x => (x.token, x.text) :=
      List.mem_map.2 ⟨x, hx, rfl⟩
    rw [lexemes_eq] at hmem
    obtain ⟨y, hy, he⟩ := List.mem_map.1 hmem
    obtain ⟨htoken, htext⟩ := Prod.mk.inj he
    obtain ⟨halone, hspelled⟩ := hps.reads hy
    rw [← htoken, ← htext]
    refine ⟨?_, hspelled⟩
    have hscan := Scan.piece (halone [] stops_nil) .done
    have htoList : (String.ofList y.2).toList = (Piece.lexeme y.1 y.2).text ++ [] := by
      simp [Piece.text]
    exact ofString_of_scan (htoList ▸ hscan) rfl

/-- `[[=[a]=]--b` -/
def bracketSource : String := "[[=[a]=]--b"

theorem scan_bracketSource : Scan bracketSource.toList
    [.lexeme (.operator .squareLeft) ['['],
      .lexeme (.string "a") ['[', '=', '[', 'a', ']', '=', ']'], .skipped ['-', '-', 'b']] [] := by
  have hbracket : IsFirst (.lexeme (.operator .squareLeft) ['['])
      ['[', '=', '[', 'a', ']', '=', ']', '-', '-', 'b'] := by rfl
  have hstring : IsFirst (.lexeme (.string "a") ['[', '=', '[', 'a', ']', '=', ']'])
      ['-', '-', 'b'] := by rfl
  have hcomment : IsFirst (.skipped ['-', '-', 'b']) [] := by rfl
  exact .piece hbracket (.piece hstring (.piece hcomment .done))

def bracketLexed : Lexed := ⟨bracketSource.toList,
  [⟨.operator .squareLeft, "[", ⟨0, 1⟩⟩, ⟨.string "a", "[=[a]=]", ⟨1, 8⟩⟩]⟩

theorem ofString_bracketSource : ofString bracketSource = .ok bracketLexed :=
  ofString_ok_iff.2 ⟨_, scan_bracketSource, by rfl⟩

theorem lines_relex_bracketSource : bracketLexed.lines = "[\n[=[a]=]" ∧
    (∃ l, ofString bracketLexed.lines = .ok l ∧
      l.tokens = [.operator .squareLeft, .string "a"] ∧ l.texts = ["[", "[=[a]=]"]) ∧
    ∃ l, ofString "[" = .ok l ∧ l.tokens = [.operator .squareLeft] ∧ l.texts = ["["] := by
  obtain ⟨hlines, halone⟩ := lines_relex ofString_bracketSource
  obtain ⟨hbracket, -⟩ := halone _ List.mem_cons_self
  exact ⟨by rfl, hlines, hbracket⟩

end Lexed
end ScriptFront
