import ScriptFront.Program.Ty
import ScriptFront.Proofs.Relexing
import ScriptFront.Proofs.ResolvedTypes
/-! The text of a type, cut into pieces. Its words, operators and blanks are read one by one, except
where two opening brackets stand together and two closing ones somewhere behind them: that is a long
bracket. -/
namespace ScriptFront
namespace Token
open Text

/-- What can be a name. -/
def IsName (n : String) : Prop := IsWordText n.toList ∧ Keyword.ofSpelling? n = none

def HasLongBracket (cs : List Char) : Prop :=
  ∃ u v w, cs = u ++ '[' :: '[' :: (v ++ ']' :: ']' :: w)

def wordPiece (n : String) : Piece := .lexeme (ofWord n.toList) n.toList
def operatorPiece (op : Operator) : Piece := .lexeme (.operator op) op.symbol

section First
variable {rule : Rule} {op : Operator} {n : String} {w u r : List Char} {c : Char}

theorem HasLongBracket.after (h : HasLongBracket r) (w : List Char) : HasLongBracket (w ++ r) := by
  obtain ⟨u, v, x, rfl⟩ := h
  exact ⟨w ++ u, v, x, by simp⟩

theorem ofWord_of_isName (h : IsName n) : ofWord n.toList = .name n := by
  simp [ofWord, h.2]

theorem isFirst_word (hn : IsWordText n.toList) (hr : Stops (isWord ·) r) :
    IsFirst (wordPiece n) r := by
  obtain ⟨c, cs, he, hc, hcs⟩ := hn
  refine isFirst_lexeme_iff.2 ⟨.word, ?_, rfl⟩
  rw [he]
  refine firstRule?_of_takes ⟨c, cs, rfl, hc, hcs⟩ hr fun other ho hopens => ?_
  cases other with
  | blank => exact not_isBlank_of_isWordStart hc hopens
  | hexadecimal =>
    obtain rfl : c = '0' := hopens
    exact absurd hc (by decide)
  | operator op => exact absurd ho (Nat.not_lt_of_le (Nat.le_trans (by decide) (Nat.le_add_right 10 _)))
  | _ => exact absurd ho (by decide)

theorem isFirst_space (hr : Stops (isBlank ·) r) : IsFirst (.skipped [' ']) r := by
  refine isFirst_iff.2 ⟨.blank, firstRule?_append_iff.2 ⟨⟨by simp [Piece.text], ?_⟩, hr, ?_⟩, rfl⟩
  · exact List.forall_mem_singleton.2 (by decide)
  · intro other ho
    exact absurd ho (Nat.not_lt_zero _)

theorem symbol_injective {other : Operator} (h : other.symbol = op.symbol) : other = op := by
  have hnodup : (Operator.all.map Operator.symbol).Nodup := by decide +kernel
  exact List.inj_on_of_nodup_map hnodup other.mem_all op.mem_all h

/-- An operator of one character is read unless a longer one or another rule's text stands there. -/
theorem isFirst_operator (hs : op.symbol = [c])
    (hrule : ∀ rule : Rule, rule.Opens c → ∀ u, u <+: c :: r → rule.Takes u →
      ∃ other, rule = .operator other)
    (hr : ∀ other : Operator, ∀ d v, other.symbol = c :: d :: v → Stops (· = d) r) :
    IsFirst (operatorPiece op) r := by
  refine isFirst_lexeme_iff.2 ⟨.operator op, firstRule?_append_iff.2 ⟨rfl, stops_false, ?_⟩, rfl⟩
  intro other ho u hu htakes
  rw [hs] at hu
  obtain ⟨other, rfl⟩ := hrule other (htakes.opens_head hu) u hu htakes
  obtain rfl : u = other.symbol := htakes
  cases hother : other.symbol with
  | nil => exact absurd hother (List.ne_nil_of_length_pos (length_symbol_pos other))
  | cons d v =>
    rw [hother] at hu
    obtain ⟨rfl, hv⟩ := List.cons_prefix_cons.1 hu
    cases v with
    | nil => exact absurd ho (by rw [symbol_injective (hother.trans hs.symm)]; exact Nat.lt_irrefl _)
    | cons e v =>
      obtain ⟨x, rfl⟩ := hv
      exact hr other e v hother e rfl rfl

/-- The rules whose texts begin with a mark of types. -/
theorem operator_of_opens (hc : ¬ isBlank c ∧ ¬ isWordStart c ∧ ¬ isAnyDigit c ∧
    c ∉ ['0', '"', '\'', '-']) (h : rule.Opens c) :
    (∃ other, rule = .operator other) ∨ rule = .longString ∧ c = '[' := by
  obtain ⟨hblank, hword, hdigit, hmark⟩ := hc
  simp only [List.mem_cons, List.not_mem_nil, or_false, not_or] at hmark
  cases rule with
  | operator op => exact .inl ⟨op, rfl⟩
  | longString => exact .inr ⟨rfl, h⟩
  | blank => exact absurd h hblank
  | word => exact absurd h hword
  | scientific | decimal => exact absurd h hdigit
  | hexadecimal => exact absurd h hmark.1
  | doubleQuoted => exact absurd h hmark.2.1
  | singleQuoted => exact absurd h hmark.2.2.1
  | longComment | lineComment => exact absurd h hmark.2.2.2

theorem isFirst_question (r : List Char) : IsFirst (operatorPiece .question) r := by
  refine isFirst_operator rfl (fun _ ho _ _ _ => ?_) ?_
  · simpa using operator_of_opens (by decide) ho
  · intro other d v hs
    cases other <;> simp [Operator.symbol] at hs

theorem isFirst_squareRight (r : List Char) : IsFirst (operatorPiece .squareRight) r := by
  refine isFirst_operator rfl (fun _ ho _ _ _ => ?_) ?_
  · simpa using operator_of_opens (by decide) ho
  · intro other d v hs
    cases other <;> simp [Operator.symbol] at hs

theorem isFirst_colon (hr : Stops (· = ':') r) : IsFirst (operatorPiece .colon) r := by
  refine isFirst_operator rfl (fun _ ho _ _ _ => ?_) ?_
  · simpa using operator_of_opens (by decide) ho
  · intro other d v hs
    cases other <;> simp [Operator.symbol] at hs
    obtain ⟨rfl, -⟩ := hs
    exact hr

theorem isFirst_dot (hr : Stops (· = '.') r) : IsFirst (operatorPiece .dot) r := by
  refine isFirst_operator rfl (fun _ ho _ _ _ => ?_) ?_
  · simpa using operator_of_opens (by decide) ho
  · intro other d v hs
    cases other <;> simp [Operator.symbol] at hs
    all_goals
      obtain ⟨rfl, -⟩ := hs
      exact hr

theorem isFirst_equal (hr : Stops (· = '=') r) : IsFirst (operatorPiece .equal) r := by
  refine isFirst_operator rfl (fun _ ho _ _ _ => ?_) ?_
  · simpa using operator_of_opens (by decide) ho
  · intro other d v hs
    cases other <;> simp [Operator.symbol] at hs
    obtain ⟨rfl, -⟩ := hs
    exact hr

theorem hasLongBracket_of_takes (hr : Stops (· = '=') r) (hu : u <+: '[' :: r)
    (h : IsLongBracket u) : HasLongBracket ('[' :: r) := by
  obtain ⟨x, hx⟩ := hu
  obtain ⟨level, body, rfl, -⟩ := h
  cases level with
  | zero => exact ⟨[], body, x, by simpa [closingBracket] using hx.symm⟩
  | succ level =>
    have hhead : r.head? = some '=' := by
      rw [← (List.cons.inj hx).2]
      rfl
    exact absurd rfl (hr '=' hhead)

theorem isFirst_squareLeft (hr : Stops (· = '=') r) (hb : ¬ HasLongBracket ('[' :: r)) :
    IsFirst (operatorPiece .squareLeft) r := by
  refine isFirst_operator rfl ?_ ?_
  · intro rule ho u hu htakes
    rcases operator_of_opens (by decide) ho with h | ⟨rfl, -⟩
    · exact h
    · exact absurd (hasLongBracket_of_takes hr hu htakes) hb
  · intro other d v hs
    cases other <;> simp [Operator.symbol] at hs

theorem read_string (hr : rule = .doubleQuoted ∨ rule = .singleQuoted ∨ rule = .longString) :
    rule.read w = .refused ∨ ∃ s, rule.read w = .token (.string s) := by
  have hquoted : Reading.ofToken? (ofQuoted? w) = .refused ∨
      ∃ s, Reading.ofToken? (ofQuoted? w) = .token (.string s) := by
    unfold ofQuoted?
    cases unescape? (w.drop 1).dropLast with
    | none => exact .inl rfl
    | some text => exact .inr ⟨_, rfl⟩
  rcases hr with rfl | rfl | rfl
  · exact hquoted
  · exact hquoted
  · exact .inr ⟨_, rfl⟩

theorem string_of_piece? {p : Piece} (h : rule.piece? w = some p)
    (hr : rule = .doubleQuoted ∨ rule = .singleQuoted ∨ rule = .longString) :
    ∃ s, p = .lexeme (.string s) w := by
  rw [Rule.piece?] at h
  rcases read_string hr with hread | ⟨s, hread⟩
  · rw [hread] at h
    cases h
  · rw [hread] at h
    exact ⟨s, (Option.some.inj h).symm⟩

/-- A bracket outside of strings and comments is read as one. -/
theorem bracket_of_isFirst {p : Piece} (h : IsFirst p r) (hc : '[' ∈ p.text) (hd : '-' ∉ p.text)
    (hs : ∀ s, p ≠ .lexeme (.string s) p.text) : p = operatorPiece .squareLeft := by
  obtain ⟨rule, hrule, hpiece⟩ := isFirst_iff.1 h
  have htakes := (firstRule?_append_iff.1 hrule).1
  have hstring (hr : rule = .doubleQuoted ∨ rule = .singleQuoted ∨ rule = .longString) : False :=
    (string_of_piece? hpiece hr).elim hs
  rcases htakes.of_not_plain hc (by decide) with rfl | rfl | rfl | rfl | rfl | rfl | ⟨op, rfl⟩
  · exact absurd (htakes.2 _ hc) (by decide)
  · exact (hstring (by simp)).elim
  · exact (hstring (by simp)).elim
  · obtain ⟨b, hb, -⟩ := htakes
    simp [hb] at hd
  · obtain ⟨b, hb, -⟩ := htakes
    simp [hb] at hd
  · exact (hstring (by simp)).elim
  · have htext : p.text = op.symbol := htakes
    rw [htext] at hc
    have hop : op = .squareLeft := by cases op <;> simp [Operator.symbol] at hc ⊢
    rw [htext, hop] at hpiece
    exact (Option.some.inj hpiece).symm

/-- Two opening brackets with two closing ones somewhere behind them are never read as operators. -/
theorem not_isFirst_squareLeft (v w : List Char) :
    ¬ IsFirst (operatorPiece .squareLeft) ('[' :: (v ++ ']' :: ']' :: w)) := by
  intro h
  obtain ⟨rule, hrule, hread⟩ := isFirst_lexeme_iff.1 h
  have htakes : rule.Takes ['['] := (firstRule?_append_iff.1 hrule).1
  have hrank : Rule.rank .longString < rule.rank := by
    have hopens : rule.Opens '[' := htakes.opens_head (List.prefix_refl _)
    rcases operator_of_opens (by decide) hopens with ⟨op, rfl⟩ | ⟨rfl, -⟩
    · exact Nat.lt_of_lt_of_le (by decide) (Nat.le_add_right 10 _)
    · cases hread
  have hnone := (firstRule?_eq_some_iff.1 hrule).2 .longString hrank
  have hlevel := longBracketLength?_level 0 (v ++ ']' :: ']' :: w)
  have habsent : firstOccurrence? (closingBracket 0) (v ++ ']' :: ']' :: w) = none :=
    Option.map_eq_none_iff.1 (hlevel.symm.trans hnone)
  exact occurs_of_firstOccurrence?_none habsent v w (by simp [closingBracket])

theorem Scan.bracket {cs rest : List Char} {ps : List Piece} (h : Scan cs ps rest)
    (hps : ∀ p ∈ ps, '-' ∉ p.text ∧ ∀ s, p ≠ .lexeme (.string s) p.text) (hr : '[' ∉ rest)
    {x : List Char} (hcs : cs = u ++ '[' :: x) : IsFirst (operatorPiece .squareLeft) x := by
  induction h generalizing u with
  | done => exact absurd (by simp [hcs]) hr
  | @piece p r ps rest hp _ ih =>
    obtain ⟨⟨hdash, hstring⟩, htail⟩ := List.forall_mem_cons.1 hps
    by_cases hc : '[' ∈ p.text
    · obtain rfl := bracket_of_isFirst hp hc hdash hstring
      cases u with
      | nil =>
        obtain rfl : r = x := List.cons.inj hcs |>.2
        exact hp
      | cons c u =>
        have hr' : r = u ++ '[' :: x := List.cons.inj hcs |>.2
        exact ih htail hr hr'
    · obtain ⟨v, rfl, hv⟩ | ⟨v, hv, hx⟩ := List.append_eq_append_iff.1 hcs
      · exact ih htail hr hv
      · cases v with
        | nil => exact ih (u := []) htail hr hx.symm
        | cons c v =>
          obtain ⟨rfl, -⟩ := List.cons.inj hx
          exact absurd (by simp [hv]) hc

/-- A text that is read without strings and comments has no long bracket. -/
theorem not_hasLongBracket_of_scan {cs : List Char} {ps : List Piece} (h : Scan cs ps [])
    (hdash : '-' ∉ cs) (hps : ∀ p ∈ ps, ∀ s, p ≠ .lexeme (.string s) p.text) :
    ¬ HasLongBracket cs := by
  rintro ⟨u, v, w, hcs⟩
  have htext := h.text
  refine not_isFirst_squareLeft v w (h.bracket (fun p hp => ⟨fun hd => hdash ?_, hps p hp⟩) ?_ hcs)
  · rw [htext]
    exact List.mem_append_left _ (List.mem_flatMap.2 ⟨p, hp, hd⟩)
  · simp

end First
end Token

namespace Program.Ty
open Token Text

def pieces (d : Declared) : Ty → List Piece
  | any => [wordPiece anyName]
  | optional t => t.pieces d ++ [operatorPiece .question]
  | array t => operatorPiece .squareLeft :: (t.pieces d ++ [operatorPiece .squareRight])
  | dictionary k v => operatorPiece .squareLeft :: (k.pieces d ++
      operatorPiece .colon :: .skipped [' '] :: (v.pieces d ++ [operatorPiece .squareRight]))
  | ofProtocol i | ofClass i | ofEnum i => [wordPiece (d.nameOf i)]
  | metaClass i | metaProtocol i =>
    [wordPiece (d.nameOf i), operatorPiece .dot, wordPiece metaName]

section Text
variable {d : Declared} {t k v : Ty} {r : List Char}

theorem isName_any : IsName anyName := by
  refine ⟨⟨'A', ['n', 'y'], by rfl, by decide, List.all_eq_true.1 (by decide)⟩, by decide⟩

theorem isName_metaName : IsName metaName := by
  refine ⟨⟨'T', ['y', 'p', 'e'], by rfl, by decide, List.all_eq_true.1 (by decide)⟩, by decide⟩

theorem toList_optional : ((optional t).display d).toList = (t.display d).toList ++ ['?'] := by
  simp [display]

theorem toList_array : ((array t).display d).toList = '[' :: ((t.display d).toList ++ [']']) := by
  simp [display]

theorem toList_dictionary : ((dictionary k v).display d).toList =
    '[' :: ((k.display d).toList ++ ':' :: ' ' :: ((v.display d).toList ++ [']'])) := by
  simp [display]

theorem toList_meta (n : String) : (n ++ ".Type").toList = n.toList ++ '.' :: metaName.toList := by
  simp [metaName]

/-- What the text of a type begins with. -/
theorem head_display (hn : ∀ i < d.objects.length, IsName (d.nameOf i))
    (ht : t.Below d.objects.length) :
    ∃ c cs, (t.display d).toList = c :: cs ∧ (c = '[' ∨ isWordStart c) := by
  have hname {n : String} (h : IsName n) : ∃ c cs, n.toList = c :: cs ∧ (c = '[' ∨ isWordStart c) := by
    obtain ⟨⟨c, cs, hc, hs, -⟩, -⟩ := h
    exact ⟨c, cs, hc, .inr hs⟩
  induction t with
  | any => exact hname isName_any
  | ofProtocol i | ofClass i | ofEnum i => exact hname (hn i ht)
  | metaClass i | metaProtocol i =>
    obtain ⟨c, cs, hc, h⟩ := hname (hn i ht)
    exact ⟨c, _, by rw [display, toList_meta, hc, List.cons_append], h⟩
  | optional t ih =>
    obtain ⟨c, cs, hc, h⟩ := ih ht
    exact ⟨c, _, by rw [toList_optional, hc, List.cons_append], h⟩
  | array t _ => exact ⟨'[', _, toList_array, .inl rfl⟩
  | dictionary k v _ _ => exact ⟨'[', _, toList_dictionary, .inl rfl⟩

theorem stops_display {p : Char → Prop} (hn : ∀ i < d.objects.length, IsName (d.nameOf i))
    (ht : t.Below d.objects.length) (hp : ∀ c, c = '[' ∨ isWordStart c → ¬ p c) :
    Stops p ((t.display d).toList ++ r) := by
  obtain ⟨c, cs, hc, h⟩ := head_display hn ht
  rw [hc, List.cons_append]
  exact stops_cons.2 (hp c h)

theorem stops_blank_display (hn : ∀ i < d.objects.length, IsName (d.nameOf i))
    (ht : t.Below d.objects.length) : Stops (isBlank ·) ((t.display d).toList ++ r) := by
  refine stops_display hn ht fun c hc => ?_
  rcases hc with rfl | hc
  · decide
  · exact not_isBlank_of_isWordStart hc

theorem dash_not_mem_display (hn : ∀ i < d.objects.length, IsName (d.nameOf i))
    (ht : t.Below d.objects.length) : '-' ∉ (t.display d).toList := by
  have hname {n : String} (h : IsName n) : '-' ∉ n.toList := by
    obtain ⟨⟨c, cs, hn, hc, hcs⟩, -⟩ := h
    rw [hn]
    intro hmem
    rcases List.mem_cons.1 hmem with rfl | hmem
    · exact absurd hc (by decide)
    · exact absurd (hcs _ hmem) (by decide)
  induction t with
  | any => exact hname isName_any
  | ofProtocol i | ofClass i | ofEnum i => exact hname (hn i ht)
  | metaClass i | metaProtocol i =>
    rw [display, toList_meta]
    simpa using ⟨hname (hn i ht), hname isName_metaName⟩
  | optional t ih => simpa [toList_optional] using ih ht
  | array t ih => simpa [toList_array] using ih ht
  | dictionary k v ihk ihv => simpa [toList_dictionary] using ⟨ihk ht.1, ihv ht.2⟩

/-- The text of a type is read piece by piece unless it has a long bracket. -/
theorem scan_display (hn : ∀ i < d.objects.length, IsName (d.nameOf i))
    (ht : t.Below d.objects.length) (hr : Stops (isWord ·) r)
    (hb : ¬ HasLongBracket ((t.display d).toList ++ r)) :
    Scan ((t.display d).toList ++ r) (t.pieces d) r := by
  have hequal (c : Char) (hc : c = '[' ∨ isWordStart c) : ¬ c = '=' := by
    rintro rfl
    exact absurd hc (by decide)
  induction t generalizing r with
  | any => exact .piece (isFirst_word isName_any.1 hr) .done
  | ofProtocol i | ofClass i | ofEnum i => exact .piece (isFirst_word (hn i ht).1 hr) .done
  | metaClass i | metaProtocol i =>
    have hword := isFirst_word (hn i ht).1 (r := '.' :: (metaName.toList ++ r))
      (stops_cons.2 (by decide))
    have hdot := isFirst_dot (r := metaName.toList ++ r) (stops_cons.2 (by decide))
    have hscan := Scan.piece hword (.piece hdot (.piece (isFirst_word isName_metaName.1 hr) .done))
    rw [display, toList_meta, List.append_assoc]
    exact hscan
  | optional t ih =>
    rw [toList_optional, List.append_assoc] at hb ⊢
    exact (ih ht (stops_cons.2 (by decide)) hb).append (.piece (isFirst_question r) .done)
  | array t ih =>
    rw [toList_array, List.cons_append, List.append_assoc] at hb ⊢
    have hinner : ¬ HasLongBracket ((t.display d).toList ++ ([']'] ++ r)) :=
      fun h => hb (h.after ['['])
    have hscan := (ih ht (stops_cons.2 (by decide)) hinner).append
      (.piece (isFirst_squareRight r) .done)
    exact .piece (isFirst_squareLeft (stops_display (t := t) hn ht hequal) hb) hscan
  | dictionary k v ihk ihv =>
    rw [toList_dictionary] at hb ⊢
    simp only [List.cons_append, List.append_assoc, List.nil_append] at hb ⊢
    have hvalue : ¬ HasLongBracket ((v.display d).toList ++ (']' :: r)) := fun h =>
      hb (by simpa using h.after ('[' :: ((k.display d).toList ++ [':', ' '])))
    have hkey := fun h => hb (HasLongBracket.after h ['['])
    have hscan := (ihv ht.2 (stops_cons.2 (by decide)) hvalue).append
      (.piece (isFirst_squareRight r) .done)
    have hspace := isFirst_space (stops_blank_display (r := ']' :: r) hn ht.2)
    have hcolon := isFirst_colon (r := ' ' :: ((v.display d).toList ++ ']' :: r))
      (stops_cons.2 (by decide))
    have hfirst := (ihk ht.1 (stops_cons.2 (by decide)) hkey).append
      (.piece hcolon (.piece hspace hscan))
    exact .piece (isFirst_squareLeft (stops_display (t := k) hn ht.1 hequal) hb) hfirst

end Text
end Program.Ty
end ScriptFront
