import ScriptFront.Proofs.Relexing
/-! The first rule that applies takes the longest text. Rules of which both apply begin alike: with
a blank, a letter, a digit or the same mark. Among those the earlier one takes more, but for a long
comment, which may end before the line does. -/
namespace ScriptFront.Token
open Text

/-- What a text begins with. -/
inductive Opening where
  | blank | letter | digit
  | mark (c : Char)
deriving DecidableEq

def Opening.ofChar (c : Char) : Opening :=
  if isBlank c then .blank else if isWordStart c then .letter else if isAnyDigit c then .digit
  else .mark c

/-- What the texts of a rule begin with. -/
def Rule.opening : Rule → Opening
  | blank => .blank
  | word => .letter
  | hexadecimal | scientific | decimal => .digit
  | doubleQuoted => .mark '"'
  | singleQuoted => .mark '\''
  | longComment | lineComment => .mark '-'
  | longString => .mark '['
  | operator op => .mark (op.symbol.headD ' ')

/-- Two rules that may both apply to a text, the earlier one first. -/
inductive Rule.Contends : Rule → Rule → Prop
  | exponent : Contends .hexadecimal .scientific
  | digits : Contends .hexadecimal .decimal
  | mantissa : Contends .scientific .decimal
  | comment : Contends .longComment .lineComment
  | dash : rule = .longComment ∨ rule = .lineComment → op.symbol.headD ' ' = '-' →
    Contends rule (.operator op)
  | bracket : op.symbol.headD ' ' = '[' → Contends .longString (.operator op)
  | operator : Operator.all.idxOf op < Operator.all.idxOf longer →
    Contends (.operator op) (.operator longer)

section Rules
variable {rule other : Rule} {op longer : Operator} {cs : List Char} {c : Char} {n m : Nat}

theorem Rule.Opens.opening (h : rule.Opens c) : .ofChar c = rule.opening := by
  cases rule with
  | blank => exact if_pos h
  | word => exact (if_neg (not_isBlank_of_isWordStart h)).trans (if_pos h)
  | scientific | decimal =>
    refine (if_neg (not_isBlank_of_isAnyDigit h)).trans ?_
    exact (if_neg (not_isWordStart_of_isAnyDigit h)).trans (if_pos h)
  | operator op =>
    cases op <;>
    · cases h
      decide
  | _ =>
    cases h
    decide

/-- Rules of which both apply begin alike. -/
theorem opening_eq (hn : rule.length? cs = some n) (hm : other.length? cs = some m) :
    rule.opening = other.opening := by
  obtain ⟨w, r, rfl, -, hw, -⟩ := Rule.length?_eq_some_iff.1 hn
  obtain ⟨u, v, he, -, hu, -⟩ := Rule.length?_eq_some_iff.1 hm
  obtain ⟨c, w, rfl, hc⟩ := hw.head
  exact hc.opening.symm.trans (hu.opens_head ⟨v, he.symm⟩).opening

/-- A hexadecimal number begins with a decimal of one digit, without an exponent behind it. -/
theorem decimalLength?_hexadecimal (h : hexadecimalLength? cs = some n) :
    decimalLength? cs = some 1 ∧ scientificLength? cs = none := by
  obtain ⟨_, r, rfl, -, ⟨x, ds, rfl, hx, -⟩, -⟩ := hexadecimalLength?_cuts.1 h
  have hzero : IsRun isAnyDigit ['0'] := ⟨by simp, List.forall_mem_singleton.2 (by decide)⟩
  have hstop : Stops (fun c => isAnyDigit c ∨ c = '.') (x :: (ds ++ r)) := by
    rcases hx with rfl | rfl <;> exact stops_cons.2 (by decide)
  have hdecimal : decimalLength? ('0' :: x :: (ds ++ r)) = some 1 := decimalLength?_whole hzero hstop
  have hmark : ¬ Number.isExponentMark x := by rcases hx with rfl | rfl <;> decide
  exact ⟨hdecimal, by simp [scientificLength?, hdecimal, exponentLength?, hmark]⟩

theorem decimal_le_scientific (hn : scientificLength? cs = some n) (hm : decimalLength? cs = some m) :
    m ≤ n := by
  rw [scientificLength?, hm] at hn
  obtain ⟨k, -, rfl⟩ := Option.map_eq_some_iff.1 hn
  exact Nat.le_add_left m k

theorem not_mark_quote : op.symbol.headD ' ' ≠ '"' ∧ op.symbol.headD ' ' ≠ '\'' := by
  cases op <;> decide

theorem length_symbol_dash (h : op.symbol.headD ' ' = '-') : op.symbol.length ≤ 2 := by
  cases op <;> first | decide | exact absurd h (by decide)

theorem length_symbol_bracket (h : op.symbol.headD ' ' = '[') : op.symbol.length = 1 := by
  cases op <;> first | rfl | exact absurd h (by decide)

/-- An operator stands behind those that it begins. -/
theorem symbols_ordered : Operator.all.Pairwise fun op longer =>
    op.symbol <+: longer.symbol → longer.symbol.length ≤ op.symbol.length := by decide

theorem length_of_later (hlt : Operator.all.idxOf op < Operator.all.idxOf longer)
    (h : op.symbol <+: longer.symbol) : longer.symbol.length ≤ op.symbol.length := by
  have hordered := List.pairwise_iff_getElem.1 symbols_ordered _ _
    (List.idxOf_lt_length_of_mem op.mem_all) (List.idxOf_lt_length_of_mem longer.mem_all) hlt
  rw [List.getElem_idxOf, List.getElem_idxOf] at hordered
  exact hordered h

/-- Two rules that begin alike, the earlier one first. -/
theorem contends_of_opening (h : rule.opening = other.opening) (hrank : rule.rank < other.rank) :
    rule.Contends other := by
  cases rule with
  | blank | word | decimal =>
    cases other <;> first | exact absurd hrank (by decide) | cases h
  | hexadecimal =>
    cases other with
    | scientific => exact .exponent
    | decimal => exact .digits
    | _ => first | exact absurd hrank (by decide) | cases h
  | scientific =>
    cases other with
    | decimal => exact .mantissa
    | _ => first | exact absurd hrank (by decide) | cases h
  | doubleQuoted =>
    cases other with
    | operator op => exact absurd (Opening.mark.inj h).symm not_mark_quote.1
    | _ => first | exact absurd hrank (by decide) | exact absurd h (by decide)
  | singleQuoted =>
    cases other with
    | operator op => exact absurd (Opening.mark.inj h).symm not_mark_quote.2
    | _ => first | exact absurd hrank (by decide) | exact absurd h (by decide)
  | longComment =>
    cases other with
    | lineComment => exact .comment
    | operator op => exact .dash (.inl rfl) (Opening.mark.inj h).symm
    | _ => first | exact absurd hrank (by decide) | exact absurd h (by decide)
  | lineComment =>
    cases other with
    | operator op => exact .dash (.inr rfl) (Opening.mark.inj h).symm
    | _ => first | exact absurd hrank (by decide) | exact absurd h (by decide)
  | longString =>
    cases other with
    | operator op => exact .bracket (Opening.mark.inj h).symm
    | _ => exact absurd hrank (by decide)
  | operator op =>
    have hlast : Rule.rank .longString < other.rank :=
      Nat.lt_of_lt_of_le (by decide) (Nat.le_trans (Nat.le_add_right 10 _) (Nat.le_of_lt hrank))
    obtain ⟨longer, rfl⟩ := operator_of_rank hlast
    exact .operator (Nat.lt_of_add_lt_add_left hrank)

theorem two_le_of_dashes (h : rule = .longComment ∨ rule = .lineComment)
    (hn : rule.length? cs = some n) : 2 ≤ n := by
  obtain ⟨w, r, rfl, rfl, hw, -⟩ := Rule.length?_eq_some_iff.1 hn
  rcases h with rfl | rfl
  all_goals
    obtain ⟨b, rfl, -⟩ := hw
    exact Nat.le_add_left 2 b.length

theorem length_le_of_contends (h : rule.Contends other) (hn : rule.length? cs = some n)
    (hm : other.length? cs = some m) : m ≤ n ∨ rule = .longComment ∧ other = .lineComment := by
  cases h with
  | exponent => exact absurd hm (by simp [Rule.length?, (decimalLength?_hexadecimal hn).2])
  | digits =>
    obtain rfl : 1 = m := Option.some.inj ((decimalLength?_hexadecimal hn).1.symm.trans hm)
    exact .inl (Rule.length?_pos hn)
  | mantissa => exact .inl (decimal_le_scientific hn hm)
  | comment => exact .inr ⟨rfl, rfl⟩
  | dash hcomment hdash =>
    obtain ⟨r, rfl, rfl⟩ := operatorLength?_eq_some_iff.1 hm
    exact .inl (Nat.le_trans (length_symbol_dash hdash) (two_le_of_dashes hcomment hn))
  | bracket hbracket =>
    obtain ⟨r, rfl, rfl⟩ := operatorLength?_eq_some_iff.1 hm
    exact .inl (length_symbol_bracket hbracket ▸ Rule.length?_pos hn)
  | @operator op longer hlt =>
    obtain ⟨r, hr, rfl⟩ := operatorLength?_eq_some_iff.1 hn
    obtain ⟨r', hr', rfl⟩ := operatorLength?_eq_some_iff.1 hm
    refine .inl ((Nat.le_total longer.symbol.length op.symbol.length).elim id fun hle => ?_)
    exact length_of_later hlt (List.prefix_of_prefix_length_le ⟨r, hr.symm⟩ ⟨r', hr'.symm⟩ hle)

/-- The first rule that applies takes as much as any other does. -/
theorem length_le_of_firstRule?_other (h : firstRule? cs = some (rule, n))
    (hm : other.length? cs = some m) : m ≤ n ∨ rule = .longComment ∧ other = .lineComment := by
  obtain ⟨hn, hfirst⟩ := firstRule?_eq_some_iff.1 h
  rcases Nat.lt_trichotomy rule.rank other.rank with hlt | heq | hgt
  · exact length_le_of_contends (contends_of_opening (opening_eq hn hm) hlt) hn hm
  · have hother := firstRule?_eq_some_iff.2 ⟨hm, fun earlier he => hfirst earlier (heq ▸ he)⟩
    cases h.symm.trans hother
    exact .inl (Nat.le_refl n)
  · rw [hfirst other hgt] at hm
    cases hm

/-- No other rule takes more than the first that applies, except that of line comments where a long
comment is found. Every operator that stands there begins the one that is found, and a decimal is
found only where no other number stands. -/
theorem firstRule?_longest (h : firstRule? cs = some (rule, n)) :
    (∀ (other : Rule) (m : Nat), other.length? cs = some m →
      (m ≤ n ∧ byteCount (cs.take m) ≤ byteCount (cs.take n)) ∨
        rule = .longComment ∧ other = .lineComment) ∧
    (∀ op, rule = .operator op →
      ∀ longer : Operator, longer.symbol <+: cs → longer.symbol <+: op.symbol) ∧
    (rule = .decimal → hexadecimalLength? cs = none ∧ scientificLength? cs = none) := by
  obtain ⟨hn, hfirst⟩ := firstRule?_eq_some_iff.1 h
  refine ⟨fun other m hm => ?_, ?_, ?_⟩
  · exact (length_le_of_firstRule?_other h hm).imp_left fun hle => ⟨hle, byteCount_take_le hle⟩
  · rintro op rfl longer ⟨r, hr⟩
    have hlonger : Rule.length? (.operator longer) cs = some longer.symbol.length :=
      operatorLength?_eq_some_iff.2 ⟨r, hr.symm, rfl⟩
    obtain ⟨r', hr', rfl⟩ := operatorLength?_eq_some_iff.1 hn
    rcases length_le_of_firstRule?_other h hlonger with hle | ⟨hrule, -⟩
    · exact List.prefix_of_prefix_length_le ⟨r, hr⟩ ⟨r', hr'.symm⟩ hle
    · cases hrule
  · rintro rfl
    exact ⟨hfirst .hexadecimal (by decide), hfirst .scientific (by decide)⟩

/-- `--[[é]]b` is a long comment in front of a name and could be a line comment to its end. -/
theorem firstRule?_longest_comment :
    firstRule? "--[[é]]b".toList = some (.longComment, 7) ∧
    (∀ (other : Rule) (m : Nat), other.length? "--[[é]]b".toList = some m →
      (m ≤ 7 ∧ byteCount ("--[[é]]b".toList.take m) ≤ 8) ∨ other = .lineComment) ∧
    Rule.length? .lineComment "--[[é]]b".toList = some 8 ∧
    firstRule? "...=".toList = some (.operator .tripleDot, 3) ∧
    (∀ longer : Operator, longer.symbol <+: "...=".toList → longer.symbol <+: ['.', '.', '.']) ∧
    firstRule? "1.e".toList = some (.decimal, 2) ∧ scientificLength? "1.e".toList = none := by
  have hcomment : firstRule? "--[[é]]b".toList = some (.longComment, 7) := by rfl
  have hoperator : firstRule? "...=".toList = some (.operator .tripleDot, 3) := by rfl
  have hdecimal : firstRule? "1.e".toList = some (.decimal, 2) := by rfl
  obtain ⟨hlongest, -, -⟩ := firstRule?_longest hcomment
  obtain ⟨-, hspelling, -⟩ := firstRule?_longest hoperator
  obtain ⟨-, -, hnumber⟩ := firstRule?_longest hdecimal
  refine ⟨hcomment, fun other m hm => ?_, by rfl, hoperator, hspelling _ rfl, hdecimal,
    (hnumber rfl).2⟩
  exact (hlongest other m hm).imp id And.right

end Rules
end ScriptFront.Token
