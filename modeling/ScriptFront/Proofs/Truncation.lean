import ScriptFront.Proofs.Tiling
/-! What is read of a source does not depend on what is cut away behind it. A piece that stands first
stands first in front of less of the same text too: less goes on with it, and the texts of earlier rules
that begin there are fewer. So a source is read by itself up to the end of each token, and up to a
character that is refused. -/
namespace ScriptFront.Token
open Text

section Pieces
variable {q : Char → Prop} {rule : Rule} {p : Piece} {w r s cs rest : List Char} {ps qs : List Piece}

theorem Stops.of_append (h : Stops q (r ++ s)) : Stops q r := by
  cases r with
  | nil => exact stops_nil
  | cons c r => exact stops_cons.2 (stops_cons.1 h)

/-- A rule decides the same if a text ends earlier behind the piece. -/
theorem firstRule?_of_append (h : firstRule? (w ++ (r ++ s)) = some (rule, w.length)) :
    firstRule? (w ++ r) = some (rule, w.length) := by
  obtain ⟨hw, hr, hfirst⟩ := firstRule?_append_iff.1 h
  refine firstRule?_append_iff.2 ⟨hw, hr.of_append, fun other ho u hu => hfirst other ho u ?_⟩
  exact hu.trans ⟨s, List.append_assoc w r s⟩

theorem IsFirst.of_append (h : IsFirst p (r ++ s)) : IsFirst p r := by
  obtain ⟨rule, hrule, hpiece⟩ := isFirst_iff.1 h
  exact isFirst_iff.2 ⟨rule, firstRule?_of_append hrule, hpiece⟩

/-- The first pieces of a text are those of the text that they make. -/
theorem Scan.truncate (h : Scan cs (ps ++ qs) rest) : Scan (ps.flatMap (·.text)) ps [] := by
  induction ps generalizing cs with
  | nil => exact .done
  | cons p ps ih =>
    cases h with
    | @piece _ r _ _ hp hps =>
      have hr : r = ps.flatMap (·.text) ++ (qs.flatMap (·.text) ++ rest) := by simpa using hps.text
      exact .piece (hr ▸ hp).of_append (ih hps)

/-- Up to a token there are the pieces that end with it. -/
theorem lexemes_upTo {offset i : Nat} {x : Lexeme} (hx : (lexemes offset ps)[i]? = some x) :
    ∃ us vs, ps = us ++ vs ∧ lexemes offset us = (lexemes offset ps).take (i + 1) ∧
      x.span.stop = offset + byteCount (us.flatMap (·.text)) := by
  induction ps generalizing offset i with
  | nil => cases hx
  | cons p ps ih =>
    cases p with
    | skipped w =>
      obtain ⟨us, vs, rfl, htake, hstop⟩ := ih hx
      exact ⟨.skipped w :: us, vs, rfl, htake, by simp [hstop, Piece.text, Nat.add_assoc]⟩
    | lexeme t w =>
      cases i with
      | zero =>
        cases hx
        exact ⟨[.lexeme t w], ps, rfl, rfl, by simp [Piece.text]⟩
      | succ i =>
        obtain ⟨us, vs, rfl, htake, hstop⟩ := ih hx
        refine ⟨.lexeme t w :: us, vs, rfl, congrArg (_ :: ·) htake, ?_⟩
        simp [hstop, Piece.text, Nat.add_assoc]

end Pieces
end ScriptFront.Token

namespace ScriptFront.Lexed
open Text Token

/-- Up to the end of a token a source is read as the tokens to this one. A source that is refused is
read up to the character that is refused. -/
theorem ofString_truncated (source : String) :
    (∀ l, ofString source = .ok l → ∀ i < l.count, ∃ before,
      sliceTo source.toList (l.span i).stop = .ok before ∧
        ofText before = .ok ⟨before, l.lexemes.take (i + 1)⟩) ∧
    ∀ e, ofString source = .error e → e.offset < Text.byteCount source.toList ∧
      ∃ before following, sliceTo source.toList e.offset = .ok before ∧
        sliceFrom source.toList e.offset = .ok (e.character :: following) ∧
        ∃ l, ofText before = .ok l := by
  constructor
  · intro l h i hi
    obtain ⟨ps, hscan, rfl⟩ := ofString_ok_iff.1 h
    have hx := List.getElem?_eq_getElem hi
    obtain ⟨us, vs, rfl, htake, hstop⟩ := lexemes_upTo hx
    refine ⟨us.flatMap (·.text), ?_, ?_⟩
    · rw [span_of_getElem? hx, hstop, Nat.zero_add, hscan.text, List.flatMap_append, List.append_assoc]
      exact sliceTo_append
    · exact ofText_ok_iff.2 ⟨us, hscan.truncate, by rw [htake]⟩
  · intro e h
    obtain ⟨ps, c, following, hscan, -, rfl⟩ := ofText_error_iff.1 h
    have hwhole : Scan source.toList (ps ++ []) (c :: following) := by simpa using hscan
    have hlt : Text.byteCount (ps.flatMap (·.text)) < Text.byteCount source.toList := by
      rw [hscan.text, byteCount_append]
      exact Nat.lt_add_of_pos_right (byteCount_pos (List.cons_ne_nil c following))
    refine ⟨hlt, ps.flatMap (·.text), following, ?_, ?_, ?_⟩
    · rw [hscan.text]
      exact sliceTo_append
    · rw [hscan.text]
      exact sliceFrom_append
    · exact ⟨_, ofText_ok_iff.2 ⟨ps, hwhole.truncate, rfl⟩⟩

/-- `a` in front of a quote that is not closed. -/
def unclosedSource : String := "a\"é"

theorem ofString_unclosedSource : ofString unclosedSource = .error ⟨'"', ⟨1, 2⟩, 1⟩ := by
  have hname : IsFirst (.lexeme (.name "a") ['a']) ['"', 'é'] := by rfl
  exact ofText_error_iff.2 ⟨_, '"', ['é'], .piece hname .done, by rfl, by rfl⟩

theorem ofString_truncated_unclosed :
    ofText ['a'] = .ok ⟨['a'], [⟨.name "a", "a", ⟨0, 1⟩⟩]⟩ ∧
    ∃ before following, sliceTo unclosedSource.toList 1 = .ok before ∧
      sliceFrom unclosedSource.toList 1 = .ok ('"' :: following) ∧ ∃ l, ofText before = .ok l := by
  obtain ⟨hread, -⟩ := ofString_truncated commentSource
  obtain ⟨-, hrefused⟩ := ofString_truncated unclosedSource
  obtain ⟨before, hbefore, hl⟩ := hread _ ofString_commentSource 0 (by decide)
  obtain rfl : before = ['a'] := Except.ok.inj (hbefore.symm.trans (by rfl))
  exact ⟨hl, (hrefused _ ofString_unclosedSource).2⟩

end ScriptFront.Lexed
