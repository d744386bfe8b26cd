import ScriptFront.Proofs.ParseErrors
import ScriptFront.Proofs.ResolveErrors
import ScriptFront.Proofs.Tiling
import ScriptFront.Report.Listing
/-! Diagnostics point at what they quote. An error of the lexer points at a character, an error of the
parser at a token or at the end, and an error of a program always at a token. -/
namespace ScriptFront.Report
open Text Phrase

namespace Diagnostic

/-- What the message says up to its detail, where nothing is quoted. -/
def SaysEnd (d : Diagnostic) : Prop :=
  ("[line " ++ d.position.toString ++ "] Error at end").toList <+: d.message.toList

/-- What the message says where a lexeme is quoted. -/
def Quotes (d : Diagnostic) (lexeme : String) : Prop :=
  d.message = "[line " ++ d.position.toString ++ "] Error at '" ++ lexeme ++ "': " ++ d.detail

/-- The span of the diagnostic is the part `quoted` of a text, between `before` and `following`. The
position counts the line breaks before it, and the characters after the last of them. -/
structure Located (d : Diagnostic) (text before quoted following : List Char) : Prop where
  parts : text = before ++ (quoted ++ following)
  span : d.span = ⟨byteCount before, byteCount (before ++ quoted)⟩
  position : d.position = ⟨before.count '\n' + 1, (before.rtakeWhile (· ≠ '\n')).length + 1⟩
  quotes : ¬ d.span.isEmpty → d.Quotes (String.ofList quoted)
  saysEnd_iff : d.SaysEnd ↔ d.span.isEmpty

section
variable {d : Diagnostic} {text before quoted following : List Char} {lexeme : String}

theorem Located.withSource (h : d.Located text before quoted following) (source : Source) :
    (d.withSource source).Located text before quoted following :=
  ⟨h.parts, h.span, h.position, h.quotes, h.saysEnd_iff⟩

theorem quotes_of_lexeme? (h : d.lexeme? = some lexeme) : d.Quotes lexeme := by
  rw [Quotes, ← String.toList_inj]
  simp [message, h]

theorem saysEnd_of_none (h : d.lexeme? = none) : d.SaysEnd := by
  refine ⟨(": " ++ d.detail).toList, ?_⟩
  simp [message, h]

theorem not_saysEnd (h : d.lexeme? = some lexeme) : ¬ d.SaysEnd := by
  intro he
  simp [SaysEnd, message, h] at he

theorem not_isEmpty (hq : quoted ≠ [])
    (hs : d.span = ⟨byteCount before, byteCount (before ++ quoted)⟩) : ¬ d.span.isEmpty := by
  have := byteCount_pos hq
  simp only [hs, byteCount_append, Span.isEmpty, beq_iff_eq]
  omega

/-- A diagnostic whose lexeme is the text of its span. -/
theorem located_of_lexeme (ht : text = before ++ (quoted ++ following)) (hq : quoted ≠ [])
    (hp : d.position = positionAt text (byteCount before))
    (hs : d.span = ⟨byteCount before, byteCount (before ++ quoted)⟩)
    (hl : d.lexeme? = some (String.ofList quoted)) :
    d.Located text before quoted following := by
  refine ⟨ht, hs, ?_, fun _ => quotes_of_lexeme? hl, ?_⟩
  · rw [hp, ht, positionAt_append, after_start]
  · exact iff_of_false (not_saysEnd hl) (not_isEmpty hq hs)

/-- A diagnostic without lexeme, at the end of a text. -/
theorem located_of_none (hp : d.position = positionAt text (byteCount text))
    (hs : d.span = ⟨byteCount text, byteCount text⟩) (hl : d.lexeme? = none) :
    d.Located text text [] [] := by
  have he : d.span.isEmpty := by simp [hs, Span.isEmpty]
  refine ⟨by simp, by simpa using hs, ?_, fun h => absurd he h, ?_⟩
  · have hend := positionAt_append text []
    rw [List.append_nil] at hend
    rw [hp, hend, after_start]
  · exact iff_of_true (saysEnd_of_none hl) he

end
end Diagnostic

section
variable {source : String} {l : Lexed} {i : TokenIndex}
open Diagnostic

theorem ofLexError_located {e : LexError} (h : Lexed.ofString source = .error e) :
    ∃ before following,
      (ofLexError e).Located source.toList before [e.character] following := by
  obtain ⟨ps, c, following, hscan, -, rfl⟩ := Lexed.ofText_error_iff.1 h
  refine ⟨ps.flatMap (·.text), following, ?_⟩
  refine located_of_lexeme hscan.text (List.cons_ne_nil _ _) ?_ ?_ ?_
  · rfl
  · simp only [ofLexError, byteCount_append, byteCount_cons, byteCount_nil, Nat.add_zero]
  · simp only [ofLexError, Char.toString_eq_singleton, String.singleton_eq_ofList]

/-- A diagnostic at a token points at the lexeme of the token. -/
theorem ofToken_located (hl : Lexed.ofString source = .ok l) (hi : i < l.tokens.length)
    (detail : String) :
    ∃ before quoted following, quoted ≠ [] ∧
      (ofToken l i detail).Located source.toList before quoted following := by
  obtain ⟨ps, hscan, rfl⟩ := Lexed.ofString_ok_iff.1 hl
  rw [Lexed.tokens, List.length_map] at hi
  have hx := List.getElem?_eq_getElem hi
  generalize (Token.lexemes 0 ps)[i] = x at hx
  obtain ⟨-, hlt, hslice⟩ := hscan.slice_lexeme [] x (List.mem_of_getElem? hx)
  obtain ⟨u, v, hsource, hstart, hstop⟩ := slice_ok_iff.1 hslice
  rw [List.nil_append] at hsource
  have hq : x.text.toList ≠ [] := by
    intro hempty
    rw [hempty, List.append_nil] at hstop
    omega
  have hspan : Lexed.span ⟨source.toList, Token.lexemes 0 ps⟩ i = x.span :=
    Lexed.span_of_getElem? hx
  refine ⟨u, x.text.toList, v, hq, located_of_lexeme hsource hq ?_ ?_ ?_⟩
  · rw [ofToken, Lexed.position, hspan, ← hstart]
    rfl
  · rw [ofToken, hspan, hstart, hstop]
  · simp [ofToken, Lexed.text?, hx]

theorem ofToken_located_end (hl : Lexed.ofString source = .ok l) (hi : l.tokens.length ≤ i)
    (detail : String) :
    (ofToken l i detail).Located source.toList source.toList [] [] := by
  obtain ⟨ps, -, rfl⟩ := Lexed.ofString_ok_iff.1 hl
  rw [Lexed.tokens, List.length_map] at hi
  have hx := List.getElem?_eq_none hi
  have hspan : Lexed.span ⟨source.toList, Token.lexemes 0 ps⟩ i =
      ⟨byteCount source.toList, byteCount source.toList⟩ := by
    rw [Lexed.span]
    simp only [hx]
    rfl
  refine located_of_none ?_ ?_ ?_
  · rw [ofToken, Lexed.position, hspan]
    rfl
  · rw [ofToken, hspan]
  · simp [ofToken, Lexed.text?, hx]

end

theorem index_le_of_shown {ts : List Token} {e : Phrase.ParseError} (h : e.Shown ts) :
    e.index ≤ ts.length := by
  have hlt {i : TokenIndex} {u : Token} (hi : ts[i]? = some u) : i ≤ ts.length :=
    (List.getElem?_eq_some_iff.1 hi).1.le
  cases e with
  | unexpectedToken i u => exact hlt h
  | endOfInput i => exact h.le
  | expectedExpression i =>
    obtain rfl | ⟨u, hu, -⟩ := h
    · exact le_rfl
    · exact hlt hu
  | alreadyReturned i =>
    obtain ⟨⟨u, hu, -⟩, -⟩ := h
    exact hlt hu
  | invalidTarget i | invalidCall i =>
    obtain ⟨u, hu, -⟩ := h
    exact hlt hu

/-- What is true of a diagnostic of a text. If the lexer refuses the text, the refused character is
pointed at. Only an error of the parser points at nothing, and then at the end of the text. -/
def Diagnostic.Points (source : String) (d : Diagnostic) : Prop :=
  ∃ before quoted following, d.Located source.toList before quoted following ∧
    (∀ e, Lexed.ofString source = .error e → quoted = [e.character]) ∧
    (d.span.isEmpty → following = [] ∧ ∃ l e, Lexed.ofString source = .ok l ∧
      Phrase.chunk l.tokens = .error e ∧ d.detail = e.message)

section
variable {source : String} {l : Lexed} {d : Diagnostic}
open Diagnostic

theorem Diagnostic.Points.withSource (h : d.Points source) (name : Source) :
    (d.withSource name).Points source := by
  obtain ⟨before, quoted, following, hd, hlex, hend⟩ := h
  exact ⟨before, quoted, following, hd.withSource name, hlex, hend⟩

theorem ofLexError_points {e : LexError} (h : Lexed.ofString source = .error e) :
    (ofLexError e).Points source := by
  obtain ⟨before, following, hd⟩ := ofLexError_located h
  have hne := not_isEmpty (List.cons_ne_nil _ _) hd.span
  refine ⟨before, _, following, hd, ?_, fun he => absurd he hne⟩
  intro e' he'
  cases h.symm.trans he'
  rfl

/-- A diagnostic at a token of a text that has been read. -/
theorem ofToken_points {detail : String} {i : TokenIndex} (hl : Lexed.ofString source = .ok l)
    (hi : i < l.tokens.length) : (ofToken l i detail).Points source := by
  obtain ⟨before, quoted, following, hq, hd⟩ := ofToken_located hl hi detail
  refine ⟨before, quoted, following, hd, ?_, fun he => absurd he (not_isEmpty hq hd.span)⟩
  intro e he
  rw [hl] at he
  cases he

theorem ofParseError_points {e : Phrase.ParseError} (hl : Lexed.ofString source = .ok l)
    (h : Phrase.chunk l.tokens = .error e) : (ofParseError l e).Points source := by
  have hle := index_le_of_shown (shows_chunk l.tokens e h)
  rcases Nat.lt_or_eq_of_le hle with hi | hi
  · exact ofToken_points hl hi
  · refine ⟨_, [], [], ofToken_located_end hl hi.ge _, ?_, fun _ => ⟨rfl, l, e, hl, h, rfl⟩⟩
    intro e' he'
    rw [hl] at he'
    cases he'

theorem ofResolveError_points {c : Syntax.Chunk} {e : Program.ResolveError}
    (hl : Lexed.ofString source = .ok l) (hc : Phrase.chunk l.tokens = .ok c)
    (h : Program.ofChunks [c] = .error e) : (ofResolveError l e).Points source := by
  obtain ⟨name, hname⟩ := Program.ofChunks_error_name hc h
  exact ofToken_points hl (List.getElem?_eq_some_iff.1 hname).1

theorem listing_points (source : String) (s : Settings) :
    Fails (Diagnostic.Points source) (listing source s) := by
  refine .bind (.mapError fun e h => ofLexError_points h) fun l hl => ?_
  have hl := ok_of_mapError hl
  refine .bind (.mapError fun e h => ofParseError_points hl h) fun c hc => ?_
  have hc := ok_of_mapError hc
  exact .bind (.mapError fun e h => ofResolveError_points hl hc h) fun _ _ => .ok

end

/-- The diagnostic of a text without listing points into the text. -/
theorem compile_error_points {source : Source} {s : Settings} {d : Diagnostic}
    (h : compile source s = .error d) : d.Points source.text := by
  refine Fails.mapError (fun e he => ?_) d h
  have hd := listing_points source.text s e he
  split
  · exact hd.withSource source
  · exact hd

/-- `--é`, and on the next line `goto end` -/
def endLabelSource : Source := ⟨"label", "--é\ngoto end"⟩

theorem ofString_endLabelSource : Lexed.ofString endLabelSource.text =
    .ok ⟨endLabelSource.text.toList,
      [⟨.keyword .goto_, "goto", ⟨5, 9⟩⟩, ⟨.keyword .end_, "end", ⟨10, 13⟩⟩]⟩ := by
  have hcomment : Token.IsFirst (.skipped ['-', '-', 'é'])
      ['\n', 'g', 'o', 't', 'o', ' ', 'e', 'n', 'd'] := by rfl
  have hbreak : Token.IsFirst (.skipped ['\n'])
      ['g', 'o', 't', 'o', ' ', 'e', 'n', 'd'] := by rfl
  have hgoto : Token.IsFirst (.lexeme (.keyword .goto_) ['g', 'o', 't', 'o'])
      [' ', 'e', 'n', 'd'] := by rfl
  have hspace : Token.IsFirst (.skipped [' ']) ['e', 'n', 'd'] := by rfl
  have hend : Token.IsFirst (.lexeme (.keyword .end_) ['e', 'n', 'd']) [] := by rfl
  have hscan : Token.Scan endLabelSource.text.toList _ [] :=
    .piece hcomment (.piece hbreak (.piece hgoto (.piece hspace (.piece hend .done))))
  exact Lexed.ofString_ok_iff.2 ⟨_, hscan, by rfl⟩

theorem chunk_endLabel : Phrase.chunk [.keyword .goto_, .keyword .end_] =
    .error (.unexpectedToken 1 (.keyword .end_)) := by
  have hskip : (semicolons ⟨0, [.keyword .goto_, .keyword .end_]⟩).rest =
      ⟨0, [.keyword .goto_, .keyword .end_]⟩ :=
    semicolons_of_stops (Stream.stops_cons.2 (by simp))
  have hs : statement ⟨0, [.keyword .goto_, .keyword .end_]⟩ =
      .error (.unexpectedToken 1 (.keyword .end_)) := by
    rw [statement]
    rfl
  rw [Phrase.chunk, Stream.ofTokens, items, declaration?_of_stops (Stream.stops_cons.2 (by decide))]
  generalize semicolons _ = p at hskip
  obtain ⟨_, r, h₁⟩ := p
  obtain rfl : r = _ := hskip
  simp only [token?_cons, hs]
  rfl

theorem compile_error_points_endLabel :
    ∃ d, compile endLabelSource ⟨false, false, false, true⟩ = .error d ∧ d.span = ⟨10, 13⟩ ∧
      d.position = ⟨2, 6⟩ ∧ d.message = "[line 2:6] Error at 'end': Unexpected keyword 'end'." ∧
      d.Points endLabelSource.text := by
  have h : compile endLabelSource ⟨false, false, false, true⟩ = .error
      ⟨"Unexpected keyword 'end'.", ⟨2, 6⟩, some "end", ⟨10, 13⟩, some endLabelSource⟩ := by
    rw [compile, listing, ofString_endLabelSource]
    simp only [Except.mapError, ok_bind, Lexed.tokens, List.map_cons, List.map_nil, chunk_endLabel]
    rfl
  exact ⟨_, h, rfl, rfl, by rfl, compile_error_points h⟩

end ScriptFront.Report
