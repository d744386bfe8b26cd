import ScriptFront.Proofs.LexicalForms
import ScriptFront.Proofs.Slices
/-! Cutting a text into pieces as a relation: `Scan cs ps rest` says that the pieces `ps` are cut from
the start of `cs` one after the other and `rest` is left. Each piece is cut with its real
continuation in view, so scans compose. -/
namespace ScriptFront

theorem Operator.mem_all (op : Operator) : op ∈ Operator.all := by cases op <;> decide

namespace Token
open Text

namespace Rule

/-- The place of a rule among all rules. -/
def rank : Rule → Nat
  | blank => 0
  | hexadecimal => 1
  | word => 2
  | scientific => 3
  | decimal => 4
  | doubleQuoted => 5
  | singleQuoted => 6
  | longComment => 7
  | lineComment => 8
  | longString => 9
  | operator op => 10 + Operator.all.idxOf op

/-- Rules whose pieces are skipped. -/
def IsTrivia : Rule → Prop
  | blank | longComment | lineComment => True
  | _ => False

theorem all_sorted : Rule.all.Pairwise (·.rank < ·.rank) := by decide

theorem mem_all (rule : Rule) : rule ∈ Rule.all := by
  cases rule with
  | operator op => exact List.mem_append_right _ (List.mem_map.2 ⟨op, op.mem_all, rfl⟩)
  | _ => simp [Rule.all]

end Rule

section First
variable {rule other : Rule} {w r cs : List Char} {n : Nat}

theorem firstRule?_eq_some_iff : firstRule? cs = some (rule, n) ↔
    rule.length? cs = some n ∧ ∀ other : Rule, other.rank < rule.rank → other.length? cs = none := by
  unfold firstRule?
  rw [List.findSome?_eq_some_iff]
  constructor
  · rintro ⟨before, found, after, hall, hf, hb⟩
    obtain ⟨m, hm, he⟩ := Option.map_eq_some_iff.1 hf
    cases he
    refine ⟨hm, fun other ho => ?_⟩
    have hs := hall ▸ Rule.all_sorted
    have hmem := hall ▸ Rule.mem_all other
    rcases List.mem_append.1 hmem with hmem | hmem
    · simpa using hb other hmem
    · have := (List.pairwise_cons.1 (List.pairwise_append.1 hs).2.1).1
      rcases List.mem_cons.1 hmem with rfl | hmem
      · omega
      · have := this other hmem
        omega
  · rintro ⟨hn, hb⟩
    obtain ⟨before, after, hall⟩ := List.append_of_mem (Rule.mem_all rule)
    refine ⟨before, rule, after, hall, by simp [hn], fun other ho => ?_⟩
    have hs := hall ▸ Rule.all_sorted
    have := (List.pairwise_append.1 hs).2.2 other ho rule List.mem_cons_self
    simp [hb other this]

/-- A rule decides what is cut if the piece is one of its texts and ends there, and no earlier rule
has a text that stands there. -/
theorem firstRule?_append_iff : firstRule? (w ++ r) = some (rule, w.length) ↔
    rule.Takes w ∧ Stops (rule.GoesOn w) r ∧
      ∀ other : Rule, other.rank < rule.rank → ∀ u, u <+: w ++ r → ¬ other.Takes u := by
  rw [firstRule?_eq_some_iff, Rule.length?_append_iff, and_assoc]
  simp only [Rule.length?_eq_none_iff]

theorem ne_nil_of_firstRule? (h : firstRule? (w ++ r) = some (rule, w.length)) : w ≠ [] :=
  List.length_pos_iff.1 (pos_of_firstRule? h)

theorem length_le_of_firstRule? (h : firstRule? cs = some (rule, n)) : n ≤ cs.length := by
  obtain ⟨w, r, rfl, rfl, -⟩ := Rule.length?_eq_some_iff.1 (firstRule?_eq_some_iff.1 h).1
  simp

end First

/-- A token and the text it is read from, if the piece is no skipped one. -/
def Piece.lexeme? : Piece → Option (Token × List Char)
  | skipped _ => none
  | lexeme t w => some (t, w)

/-- The piece is what stands first in its text and what follows. -/
def IsFirst (p : Piece) (r : List Char) : Prop := firstPiece? (p.text ++ r) = some (p, r)

/-- The pieces are cut from the start of a text and `rest` is left. -/
inductive Scan : List Char → List Piece → List Char → Prop
  | done : Scan rest [] rest
  | piece : IsFirst p r → Scan r ps rest → Scan (p.text ++ r) (p :: ps) rest

section Pieces
variable {rule : Rule} {p : Piece} {w r cs : List Char} {ps qs : List Piece} {t : Token}

theorem text_of_piece? (h : rule.piece? w = some p) : p.text = w := by
  unfold Rule.piece? at h
  split at h
  · cases h
    rfl
  · cases h
    rfl
  · cases h

theorem piece?_lexeme_iff :
    rule.piece? w = some (.lexeme t w) ↔ rule.read w = .token t := by
  unfold Rule.piece?
  split <;> simp_all

theorem piece?_skipped_iff :
    rule.piece? w = some (.skipped w) ↔ rule.read w = .skipped := by
  unfold Rule.piece?
  split <;> simp_all

theorem piece?_none_iff : rule.piece? w = none ↔ rule.read w = .refused := by
  unfold Rule.piece?
  split <;> simp_all

theorem isFirst_iff : IsFirst p r ↔
    ∃ rule, firstRule? (p.text ++ r) = some (rule, p.text.length) ∧ rule.piece? p.text = some p := by
  unfold IsFirst firstPiece?
  constructor
  · intro h
    split at h
    · next rule n hn =>
      obtain ⟨q, hq, he⟩ := Option.map_eq_some_iff.1 h
      obtain ⟨rfl, -⟩ := Prod.mk.inj he
      have htext := text_of_piece? hq
      have hlen : q.text.length = n := by
        rw [htext, List.length_take, Nat.min_eq_left (length_le_of_firstRule? hn)]
      rw [← htext] at hq
      exact ⟨rule, hlen ▸ hn, hq⟩
    · cases h
  · rintro ⟨rule, hn, hp⟩
    simp [hn, hp]

theorem append_of_firstPiece? (h : firstPiece? cs = some (p, r)) : cs = p.text ++ r := by
  unfold firstPiece? at h
  split at h
  · obtain ⟨q, hq, he⟩ := Option.map_eq_some_iff.1 h
    cases he
    rw [text_of_piece? hq, List.take_append_drop]
  · cases h

theorem IsFirst.ne_nil (h : IsFirst p r) : p.text ≠ [] := by
  obtain ⟨rule, hn, -⟩ := isFirst_iff.1 h
  exact ne_nil_of_firstRule? hn

theorem Scan.append {us vs ws : List Char} (h : Scan us ps vs) (k : Scan vs qs ws) :
    Scan us (ps ++ qs) ws := by
  induction h with
  | done => exact k
  | piece hp _ ih => exact .piece hp (ih k)

/-- Nothing of the text is lost. -/
theorem Scan.text {rest : List Char} (h : Scan cs ps rest) :
    cs = ps.flatMap (·.text) ++ rest := by
  induction h with
  | done => rfl
  | piece _ _ ih => simp [← ih]

theorem pieces_of_isFirst (h : IsFirst p r) :
    pieces (p.text ++ r) = (pieces r).map (p :: ·) := by
  obtain ⟨c, cs, hc⟩ := List.exists_cons_of_ne_nil h.ne_nil
  have hf : firstPiece? (c :: (cs ++ r)) = some (p, r) := by
    rw [← List.cons_append, ← hc]
    exact h
  rw [hc, List.cons_append, pieces]
  split
  · next q rest hq =>
    cases hf.symm.trans hq
    rfl
  · next hq => cases hf.symm.trans hq

theorem pieces_of_scan {rest : List Char} (h : Scan cs ps rest) :
    pieces cs = (pieces rest).map (ps ++ ·) := by
  induction h with
  | @done rest => cases pieces rest <;> rfl
  | @piece p r _ rest hp _ ih =>
    rw [pieces_of_isFirst hp, ih]
    cases pieces rest <;> rfl

theorem scan_of_pieces {cs : List Char} {ps : List Piece} (h : pieces cs = .ok ps) :
    Scan cs ps [] := by
  match cs with
  | [] =>
    rw [pieces] at h
    cases h
    exact .done
  | c :: cs =>
    rw [pieces] at h
    split at h
    · next p rest hp =>
      have hlt := length_lt_of_firstPiece? hp
      have htext := append_of_firstPiece? hp
      have hfirst : IsFirst p rest := by
        rw [IsFirst, ← htext]
        exact hp
      cases hr : pieces rest with
      | error e =>
        rw [hr] at h
        cases h
      | ok qs =>
        rw [hr] at h
        cases h
        rw [htext]
        exact .piece hfirst (scan_of_pieces hr)
    · cases h
termination_by cs.length
decreasing_by exact hlt

/-- Where a text cannot be cut further, the pieces before are scanned. -/
theorem scan_of_refusal {cs : List Char} {refusal : Refusal} (h : pieces cs = .error refusal) :
    ∃ ps, Scan cs ps (refusal.character :: refusal.following) ∧
      firstPiece? (refusal.character :: refusal.following) = none := by
  match cs with
  | [] =>
    rw [pieces] at h
    cases h
  | c :: cs =>
    rw [pieces] at h
    split at h
    · next p rest hp =>
      have hlt := length_lt_of_firstPiece? hp
      have hfirst : IsFirst p rest := by
        rw [IsFirst, ← append_of_firstPiece? hp]
        exact hp
      cases hr : pieces rest with
      | error e =>
        rw [hr] at h
        cases h
        obtain ⟨ps, hps, hnone⟩ := scan_of_refusal hr
        rw [append_of_firstPiece? hp]
        exact ⟨p :: ps, .piece hfirst hps, hnone⟩
      | ok qs =>
        rw [hr] at h
        cases h
    · next hnone =>
      cases h
      exact ⟨[], .done, hnone⟩
termination_by cs.length
decreasing_by exact hlt

/-- A text is cut into pieces exactly if they are scanned to its end. -/
theorem pieces_ok_iff : pieces cs = .ok ps ↔ Scan cs ps [] := by
  constructor
  · exact scan_of_pieces
  · intro h
    rw [pieces_of_scan h, pieces]
    simp [Except.map]

/-- A text is refused exactly where its pieces are scanned and none is found behind them. -/
theorem pieces_error_iff {refusal : Refusal} : pieces cs = .error refusal ↔
    ∃ ps, Scan cs ps (refusal.character :: refusal.following) ∧
      firstPiece? (refusal.character :: refusal.following) = none := by
  constructor
  · exact scan_of_refusal
  · rintro ⟨ps, hps, hnone⟩
    rw [pieces_of_scan hps, pieces]
    split
    · next hp => cases hnone.symm.trans hp
    · rfl

theorem lexemes_eq (offset : Nat) (ps : List Piece) :
    (lexemes offset ps).map (fun x => (x.token, x.text)) =
      (ps.filterMap Piece.lexeme?).map fun x => (x.1, String.ofList x.2) := by
  induction ps generalizing offset with
  | nil => rfl
  | cons p ps ih =>
    cases p with
    | skipped w => exact ih _
    | lexeme t w => exact congrArg (_ :: ·) (ih _)

end Pieces
end Token

namespace Lexed
open Token

def texts (l : Lexed) : List String := l.lexemes.map (·.text)

variable {source : String} {l : Lexed} {ps : List Piece}

theorem span_of_getElem? {i : TokenIndex} {x : Lexeme} (h : l.lexemes[i]? = some x) :
    l.span i = x.span := by
  simp only [span, h]

theorem ofText_ok_iff {cs : List Char} :
    ofText cs = .ok l ↔ ∃ ps, Scan cs ps [] ∧ l = ⟨cs, Token.lexemes 0 ps⟩ := by
  unfold ofText
  simp only [← pieces_ok_iff]
  cases pieces cs <;> simp [eq_comm]

/-- The error is at the character behind the pieces that are found. -/
theorem ofText_error_iff {cs : List Char} {e : LexError} : ofText cs = .error e ↔
    ∃ ps c following, Scan cs ps (c :: following) ∧ firstPiece? (c :: following) = none ∧
      e = ⟨c, Text.positionAt cs (Text.byteCount (ps.flatMap (·.text))),
        Text.byteCount (ps.flatMap (·.text))⟩ := by
  have hoffset {ps : List Piece} {rest : List Char} (hps : Scan cs ps rest) :
      Text.byteCount cs - Text.byteCount rest = Text.byteCount (ps.flatMap (·.text)) := by
    rw [hps.text, Text.byteCount_append, Nat.add_sub_cancel]
  constructor
  · intro h
    unfold ofText at h
    split at h
    · cases h
    · next r hr =>
      cases h
      obtain ⟨ps, hps, hnone⟩ := pieces_error_iff.1 hr
      exact ⟨ps, _, _, hps, hnone, by rw [hoffset hps]⟩
  · rintro ⟨ps, c, following, hps, hnone, rfl⟩
    have hpieces : pieces cs = .error ⟨c, following⟩ := pieces_error_iff.2 ⟨ps, hps, hnone⟩
    simp only [ofText, hpieces, hoffset hps]

theorem ofString_ok_iff : ofString source = .ok l ↔
    ∃ ps, Scan source.toList ps [] ∧ l = ⟨source.toList, Token.lexemes 0 ps⟩ := ofText_ok_iff

theorem tokens_lexemes (cs : List Char) (ps : List Piece) :
    (⟨cs, Token.lexemes 0 ps⟩ : Lexed).tokens = (ps.filterMap Piece.lexeme?).map (·.1) := by
  simpa [tokens, Function.comp_def] using congrArg (List.map Prod.fst) (lexemes_eq 0 ps)

theorem texts_lexemes (cs : List Char) (ps : List Piece) :
    (⟨cs, Token.lexemes 0 ps⟩ : Lexed).texts =
      (ps.filterMap Piece.lexeme?).map fun x => String.ofList x.2 := by
  simpa [texts, Function.comp_def] using congrArg (List.map Prod.snd) (lexemes_eq 0 ps)

/-- A text whose lexemes are known. -/
theorem ofString_of_scan {xs : List (Token × List Char)} (h : Scan source.toList ps [])
    (hx : ps.filterMap Piece.lexeme? = xs) : ∃ l, ofString source = .ok l ∧
      l.tokens = xs.map (·.1) ∧ l.texts = xs.map fun x => String.ofList x.2 :=
  ⟨_, ofString_ok_iff.2 ⟨ps, h, rfl⟩, hx ▸ tokens_lexemes _ ps, hx ▸ texts_lexemes _ ps⟩

end Lexed
end ScriptFront
