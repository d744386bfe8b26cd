import ScriptFront.Proofs.Escapes
import ScriptFront.Proofs.Relexing
import ScriptFront.Proofs.Tiling
/-! Quoted texts as tokens. Where a quoted text ends is found apart from what its inside stands for. Both
take an item of the inside whole, unless the mark stands in it without a backslash or a newline that is
no line break of its own. The blanks that `\z` swallows may hold such a newline, which ends the text
before the mark is found. -/
namespace ScriptFront.Token
open Text

inductive Quote where
  | double | single

namespace Quote

def mark : Quote → Char
  | double => '"'
  | single => '\''

def rule : Quote → Rule
  | double => .doubleQuoted
  | single => .singleQuoted

/-- The inside of a quoted text between its marks. -/
def enclose (q : Quote) (body : List Char) : List Char := q.mark :: (body ++ [q.mark])

/-- The inside is that of one token, which stands for the text `s`. -/
def Reads (q : Quote) (body s : List Char) : Prop :=
  Lexed.ofText (q.enclose body) = .ok (.single (.string (String.ofList s)) (q.enclose body))

end Quote

/-- The item is part of any quoted text. -/
structure Item.Fits (q : Quote) (i : Item) : Prop where
  escaped : q.mark ∈ i.text → i.text = ['\\', q.mark]
  consumed : i.text ≠ ['\n']
  unbroken : ∀ run, i = .blanks run → '\n' ∉ run

section Marks
variable {q : Quote} {rule : Rule} {t : Token} {body s : List Char}

theorem Quote.mark_ne (q : Quote) : q.mark ≠ '\\' ∧ q.mark ≠ '\n' := by cases q <;> decide

theorem Quote.opens_mark_iff : rule.Opens q.mark ↔ rule = q.rule := by
  constructor
  · intro h
    cases rule with
    | operator op => cases q <;> cases op <;> simp [Rule.Opens, Operator.symbol, mark] at h
    | doubleQuoted | singleQuoted => cases q <;> simp_all [Rule.Opens, mark, Quote.rule]
    | _ => cases q <;> exact absurd h (by decide)
  · rintro rfl
    cases q <;> rfl

theorem Quote.takes_iff {w : List Char} : q.rule.Takes w ↔ IsQuoted q.mark w := by cases q <;> rfl

theorem Quote.read_enclose (q : Quote) (body : List Char) : q.rule.read (q.enclose body) =
    .ofToken? ((unescape? body).map fun s => .string (String.ofList s)) := by
  cases q <;> simp [Rule.read, ofQuoted?, Quote.rule, Quote.enclose]

/-- A quoted text is one token if its closing mark is where it ends and its inside is decoded. -/
theorem Quote.reads_iff : q.Reads body s ↔
    OpenQuote q.mark (body ++ [q.mark]) ∧ unescape? body = some s := by
  rw [Quote.Reads, Lexed.ofText_single_iff, isFirst_lexeme_iff]
  constructor
  · rintro ⟨rule, hrule, hread⟩
    have htakes := (firstRule?_append_iff.1 hrule).1
    obtain rfl := Quote.opens_mark_iff.1 (htakes.opens_head List.prefix_rfl)
    obtain ⟨cs, he, hcs⟩ := Quote.takes_iff.1 htakes
    obtain rfl := (List.cons.inj he).2
    rw [Quote.read_enclose, ofToken?_token] at hread
    obtain ⟨s', hs, he⟩ := Option.map_eq_some_iff.1 hread
    refine ⟨hcs, ?_⟩
    rw [hs, String.ofList_injective (Token.string.inj he)]
  · rintro ⟨hopen, hs⟩
    have htakes := Quote.takes_iff.2 ⟨_, rfl, hopen⟩
    refine ⟨q.rule, firstRule?_of_takes htakes stops_nil fun other ho hopens => ?_, ?_⟩
    · rw [Quote.opens_mark_iff.1 hopens] at ho
      exact Nat.lt_irrefl _ ho
    · rw [Quote.read_enclose, hs]
      rfl

end Marks

section Ends
variable {quote c : Char} {cs w : List Char}

theorem openQuote_cons_iff (hc : c ≠ '\\') (hw : w ≠ []) :
    OpenQuote quote (c :: w) ↔ (c ≠ quote ∧ c ≠ '\n') ∧ OpenQuote quote w := by
  constructor
  · intro h
    cases h with
    | close => exact absurd rfl hw
    | lineBreak _ => exact absurd rfl hc
    | escape _ => exact absurd rfl hc
    | plain hq _ hn hw => exact ⟨⟨hq, hn⟩, hw⟩
  · rintro ⟨⟨hq, hn⟩, hw⟩
    exact hw.plain hq hc hn

theorem openQuote_append_iff (hcs : '\\' ∉ cs) (hw : w ≠ []) :
    OpenQuote quote (cs ++ w) ↔ (∀ c ∈ cs, c ≠ quote ∧ c ≠ '\n') ∧ OpenQuote quote w := by
  induction cs with
  | nil => simp
  | cons c cs ih =>
    have hc : c ≠ '\\' := fun h => hcs (h ▸ List.mem_cons_self)
    have hcs' : '\\' ∉ cs := fun h => hcs (List.mem_cons_of_mem c h)
    rw [List.cons_append, openQuote_cons_iff hc (by simp [hw]), ih hcs', List.forall_mem_cons,
      and_assoc (a := _ ∧ _)]

theorem openQuote_escape_iff (hc : c = '\r' → Stops (· = '\n') w) :
    OpenQuote quote ('\\' :: c :: w) ↔ OpenQuote quote w := by
  constructor
  · intro h
    cases h with
    | lineBreak _ => exact absurd rfl (hc rfl '\n' rfl)
    | escape h => exact h
    | plain _ hb _ _ => exact absurd rfl hb
  · exact OpenQuote.escape

theorem openQuote_lineBreak_iff (hq : quote ≠ '\n') :
    OpenQuote quote ('\\' :: '\r' :: '\n' :: w) ↔ OpenQuote quote w := by
  constructor
  · intro h
    cases h with
    | lineBreak h => exact h
    | escape h =>
      obtain ⟨c, u, he, hc⟩ := h.head hq
      exact absurd (List.cons.inj he).1.symm hc
    | plain _ hb _ _ => exact absurd rfl hb
  · exact OpenQuote.lineBreak

end Ends

section Bodies
variable {q : Quote} {i : Item} {items : List Item} {c : Char} {cs w r body s : List Char}

theorem Quote.passes_of_isHexDigit (q : Quote) (h : isHexDigit c) :
    c ≠ '\\' ∧ c ≠ q.mark ∧ c ≠ '\n' :=
  ⟨ne_of_class h (by decide), ne_of_class h (by cases q <;> decide), ne_of_class h (by decide)⟩

theorem isHexDigit_of_isDigit (h : c.isDigit) : isHexDigit c := by
  simp [isHexDigit, hexValue?_of_isDigit h]

/-- An escape without blanks fits unless the mark stands behind its second character. -/
theorem Item.fits_escape (ht : i.text = '\\' :: c :: cs) (hm : c = q.mark → cs = [])
    (hcs : q.mark ∉ cs) (hi : ∀ run, i ≠ .blanks run) : i.Fits q := by
  refine ⟨fun h => ?_, by simp [ht], fun run he => absurd he (hi run)⟩
  have hmark : q.mark = c := by
    rw [ht, List.mem_cons, List.mem_cons] at h
    rcases h with h | h | h
    · exact absurd h q.mark_ne.1
    · exact h
    · exact absurd h hcs
  rw [ht, hm hmark.symm, hmark]

theorem Item.openQuote_escape_iff (ht : i.text = '\\' :: c :: cs) (hm : c = q.mark → cs = [])
    (hcs : ∀ d ∈ cs, d ≠ '\\' ∧ d ≠ q.mark ∧ d ≠ '\n') (hi : ∀ run, i ≠ .blanks run)
    (hc : c = '\r' → Stops (· = '\n') (cs ++ w)) (hw : w ≠ []) :
    OpenQuote q.mark (i.text ++ w) ↔ i.Fits q ∧ OpenQuote q.mark w := by
  have hfits := fits_escape ht hm (fun h => (hcs _ h).2.1 rfl) hi
  rw [ht, List.cons_append, List.cons_append, Token.openQuote_escape_iff hc,
    openQuote_append_iff (fun h => (hcs _ h).1 rfl) hw]
  exact and_congr_left fun _ => ⟨fun _ => hfits, fun _ d hd => (hcs d hd).2⟩

/-- A number behind a backslash is part of any quoted text. -/
theorem Item.openQuote_number_iff (ht : i.text = '\\' :: c :: cs)
    (hc : c ≠ q.mark ∧ c ≠ '\r') (hcs : ∀ d ∈ cs, d = '+' ∨ isHexDigit d)
    (hi : ∀ run, i ≠ .blanks run) (hw : w ≠ []) :
    OpenQuote q.mark (i.text ++ w) ↔ i.Fits q ∧ OpenQuote q.mark w := by
  refine openQuote_escape_iff ht (fun h => absurd h hc.1) (fun d hd => ?_) hi
    (fun h => absurd h hc.2) hw
  rcases hcs d hd with rfl | hd
  · cases q <;> decide
  · exact q.passes_of_isHexDigit hd

theorem Item.openQuote_plain_iff (hc : c ≠ '\\') (hw : w ≠ []) :
    OpenQuote q.mark ((Item.plain c).text ++ w) ↔ (Item.plain c).Fits q ∧ OpenQuote q.mark w := by
  rw [Item.text, List.singleton_append, openQuote_cons_iff hc hw]
  refine and_congr_left fun _ => ⟨fun h => ⟨?_, ?_, by simp⟩, fun h => ⟨?_, ?_⟩⟩
  · exact fun hm => absurd (List.mem_singleton.1 hm).symm h.1
  · exact fun hn => h.2 (List.cons.inj hn).1
  · rintro rfl
    exact absurd (h.escaped List.mem_cons_self) (by simp [Item.text])
  · rintro rfl
    exact h.consumed rfl

/-- Blanks are plain characters of the quoted text, so a newline among them ends it. -/
theorem Item.openQuote_blanks_iff {run : List Char} (hrun : ∀ c ∈ run, isBlank c) (hw : w ≠ []) :
    OpenQuote q.mark ((Item.blanks run).text ++ w) ↔
      (Item.blanks run).Fits q ∧ OpenQuote q.mark w := by
  have hne (d : Char) (hd : ¬ isBlank d) : d ∉ run := fun h => hd (hrun d h)
  have hmark : q.mark ∉ run := hne _ (by cases q <;> decide)
  rw [Item.text, List.cons_append, List.cons_append, Token.openQuote_escape_iff (by simp),
    openQuote_append_iff (hne _ (by decide)) hw]
  refine and_congr_left fun _ => ⟨fun h => ⟨?_, by simp [Item.text], ?_⟩, fun h d hd => ⟨?_, ?_⟩⟩
  · cases q <;> simp_all [Item.text, Quote.mark]
  · rintro _ ⟨⟩ hn
    exact (h _ hn).2 rfl
  · rintro rfl
    exact hmark hd
  · rintro rfl
    exact h.unbroken run rfl hd

theorem Item.openQuote_lineBreak_iff (hi : (Item.lineBreak cs).WellFormed)
    (hr : Stops (Item.lineBreak cs).GoesOn r) :
    OpenQuote q.mark ((Item.lineBreak cs).text ++ (r ++ [q.mark])) ↔
      (Item.lineBreak cs).Fits q ∧ OpenQuote q.mark (r ++ [q.mark]) := by
  have hw : r ++ [q.mark] ≠ [] := by simp
  rcases hi with rfl | rfl | rfl
  · exact openQuote_escape_iff rfl (fun _ => rfl) (by simp) (by simp)
      (fun hc => absurd hc (by decide)) hw
  · refine openQuote_escape_iff rfl (fun _ => rfl) (by simp) (by simp) (fun _ => ?_) hw
    -- behind a carriage return there is neither a newline nor, at the end, a mark that is one
    rintro c hc rfl
    cases r with
    | nil => exact q.mark_ne.2 (Option.some.inj hc)
    | cons d r => exact hr '\n' hc ⟨rfl, rfl⟩
  · have hfits : (Item.lineBreak ['\r', '\n']).Fits q := by
      refine ⟨?_, by simp [Item.text], by simp⟩
      cases q <;> simp [Item.text, Quote.mark]
    exact (Token.openQuote_lineBreak_iff q.mark_ne.2).trans (and_iff_right hfits).symm

/-- One step: an item that fits is taken, and the quoted text goes on behind it. -/
theorem Item.openQuote_iff (hi : i.WellFormed) (hr : Stops i.GoesOn r) :
    OpenQuote q.mark (i.text ++ (r ++ [q.mark])) ↔ i.Fits q ∧ OpenQuote q.mark (r ++ [q.mark]) := by
  have hw : r ++ [q.mark] ≠ [] := by simp
  cases i with
  | plain c => exact openQuote_plain_iff hi hw
  | named c d =>
    have hne : ∀ x ∈ namedEscapes, x.1 ≠ '\r' := by decide
    exact openQuote_escape_iff rfl (fun _ => rfl) (by simp) (by simp)
      (fun hc => absurd hc (hne _ hi)) hw
  | lineBreak text => exact openQuote_lineBreak_iff hi hr
  | blanks run => exact openQuote_blanks_iff hi hw
  | hexadecimal high low =>
    exact openQuote_number_iff rfl (by cases q <;> decide) (by simp [hi.1, hi.2]) (by simp) hw
  | signed low =>
    exact openQuote_number_iff rfl (by cases q <;> decide) (by simp [show isHexDigit low from hi])
      (by simp) hw
  | decimal digits =>
    obtain ⟨d, ds, rfl⟩ := List.exists_cons_of_ne_nil hi.1.1
    obtain ⟨hd, hds⟩ := List.forall_mem_cons.1 hi.1.2
    have hd' : d ≠ q.mark ∧ d ≠ '\r' :=
      ⟨ne_of_class hd (by cases q <;> decide), ne_of_class hd (by decide)⟩
    exact openQuote_number_iff rfl hd' (fun c hc => .inr (isHexDigit_of_isDigit (hds c hc)))
      (by simp) hw

theorem Itemizes.openQuote_iff (h : Itemizes body items) :
    OpenQuote q.mark (body ++ [q.mark]) ↔ ∀ i ∈ items, i.Fits q := by
  induction h with
  | nil => simpa using OpenQuote.close
  | cons hi hr _ ih =>
    rw [List.append_assoc, Item.openQuote_iff hi hr, ih, List.forall_mem_cons]

end Bodies

/-- A body that is decoded is one token between two marks exactly if each mark in it is escaped, each
newline is part of an escape, and no escape swallows a newline as a blank. -/
theorem quoted_reads_iff (q : Quote) {body s : List Char} {items : List Item}
    (h : unescape? body = some s) (hitems : Itemizes body items) :
    q.Reads body s ↔
      (∀ i ∈ items, q.mark ∈ i.text → i.text = ['\\', q.mark]) ∧ (∀ i ∈ items, i.text ≠ ['\n']) ∧
        ∀ run, .blanks run ∈ items → '\n' ∉ run := by
  rw [Quote.reads_iff, hitems.openQuote_iff, and_iff_left h]
  constructor
  · intro hfits
    exact ⟨fun i hi => (hfits i hi).escaped, fun i hi => (hfits i hi).consumed,
      fun run hrun => (hfits _ hrun).unbroken run rfl⟩
  · rintro ⟨hescaped, hconsumed, hunbroken⟩ i hi
    exact ⟨hescaped i hi, hconsumed i hi, fun run he => hunbroken run (he ▸ hi)⟩

/-- `\"\z b` -/
def quoteBody : List Char := ['\\', '"', '\\', 'z', ' ', 'b']

theorem itemizes_quoteBody : Itemizes quoteBody [.named '"' '"', .blanks [' '], .plain 'b'] := by
  have hplain : Itemizes ['b'] [.plain 'b'] :=
    Itemizes.nil.cons (i := .plain 'b') (by decide : 'b' ≠ '\\') stops_false
  have hblanks : Itemizes ['\\', 'z', ' ', 'b'] [.blanks [' '], .plain 'b'] :=
    hplain.cons (i := .blanks [' ']) (List.forall_mem_singleton.2 (by decide))
      (stops_cons.2 (by decide : ¬ isBlank 'b'))
  exact hblanks.cons (i := .named '"' '"') (by decide : ('"', '"') ∈ namedEscapes) stops_false

theorem quoted_reads_iff_quoteBody :
    unescape? quoteBody = some ['"', 'b'] ∧
    Itemizes quoteBody [.named '"' '"', .blanks [' '], .plain 'b'] ∧
    Quote.double.Reads quoteBody ['"', 'b'] := by
  have hbody := itemizes_quoteBody.unescape?
  refine ⟨hbody, itemizes_quoteBody, (quoted_reads_iff .double hbody itemizes_quoteBody).2 ?_⟩
  refine ⟨?_, ?_, ?_⟩ <;> simp [Item.text, Quote.mark]

/-- The newline behind `\z` is part of an escape, but the text is no token. -/
theorem swallowed_newline_not_read : ∃ items, Itemizes ['\\', 'z', '\n'] items ∧
    unescape? ['\\', 'z', '\n'] = some [] ∧ (∀ i ∈ items, '"' ∈ i.text → i.text = ['\\', '"']) ∧
      (∀ i ∈ items, i.text ≠ ['\n']) ∧ ¬ Quote.double.Reads ['\\', 'z', '\n'] [] := by
  have hitems : Itemizes ['\\', 'z', '\n'] [.blanks ['\n']] :=
    Itemizes.nil.cons (i := .blanks ['\n']) (List.forall_mem_singleton.2 (by decide)) stops_nil
  refine ⟨_, hitems, hitems.unescape?, by simp [Item.text], by simp [Item.text], fun h => ?_⟩
  have hfits := hitems.openQuote_iff.1 (Quote.reads_iff.1 h).1 _ List.mem_cons_self
  exact hfits.unbroken _ rfl List.mem_cons_self

/-- A character with the backslash that it needs between two marks. -/
def Quote.written (q : Quote) (c : Char) : List Char :=
  if c = '\\' then ['\\', '\\'] else if c = q.mark then ['\\', q.mark]
  else if c = '\n' then ['\\', 'n'] else [c]

def Quote.escaped (q : Quote) (s : List Char) : List Char := s.flatMap q.written

section Escaped
variable (q : Quote)

/-- A character is written as an item of its own. -/
theorem Quote.exists_item (c : Char) : ∃ i : Item, i.text = q.written c ∧ i.WellFormed ∧
    (∀ r, Stops i.GoesOn r) ∧ i.meaning = [c] ∧ i.Fits q := by
  have hnamed (d : Char) (hd : (d, c) ∈ namedEscapes) : ∃ i : Item, i.text = ['\\', d] ∧
      i.WellFormed ∧ (∀ r, Stops i.GoesOn r) ∧ i.meaning = [c] ∧ i.Fits q :=
    ⟨.named d c, rfl, hd, fun _ => stops_false, rfl,
      Item.fits_escape rfl (fun _ => rfl) List.not_mem_nil (by simp)⟩
  unfold Quote.written
  split_ifs with hb hm hn
  · exact hnamed '\\' (by rw [hb]; decide)
  · exact hnamed q.mark (by rw [hm]; cases q <;> decide)
  · exact hnamed 'n' (by rw [hn]; decide)
  · refine ⟨.plain c, rfl, hb, fun _ => stops_false, rfl, ?_, ?_, by simp⟩
    · exact fun h => absurd (List.mem_singleton.1 h).symm hm
    · exact fun h => hn (List.cons.inj h).1

theorem Quote.exists_itemizes_escaped (s : List Char) : ∃ items,
    Itemizes (q.escaped s) items ∧ items.flatMap Item.meaning = s ∧ ∀ i ∈ items, i.Fits q := by
  induction s with
  | nil => exact ⟨[], .nil, rfl, by simp⟩
  | cons c s ih =>
    obtain ⟨i, htext, hi, hstops, hmeaning, hfits⟩ := q.exists_item c
    obtain ⟨items, hitems, hs, hall⟩ := ih
    refine ⟨i :: items, ?_, ?_, List.forall_mem_cons.2 ⟨hfits, hall⟩⟩
    · rw [Quote.escaped, List.flatMap_cons, ← htext]
      exact .cons hi (hstops _) hitems
    · rw [List.flatMap_cons, hmeaning, hs, List.singleton_append]

end Escaped

/-- Every text is one token with either mark, once its backslashes, marks and newlines are escaped. -/
theorem escaped_reads (q : Quote) (s : List Char) : q.Reads (q.escaped s) s := by
  obtain ⟨items, hitems, hs, hfits⟩ := q.exists_itemizes_escaped s
  exact Quote.reads_iff.2 ⟨hitems.openQuote_iff.2 hfits, by rw [hitems.unescape?, hs]⟩

end ScriptFront.Token
