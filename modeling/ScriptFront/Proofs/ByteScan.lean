import ScriptFront.Proofs.Scan
/-! Scanning by byte offsets. Matches are measured in bytes and each text that a token is derived from
is a slice of the source. All slices are in range, so that a scan by offsets finds what the pieces of
the text give. -/
namespace ScriptFront.Token
open Text Number

/-- The number of bytes at the start of a text that are an equals sign each. -/
def equalsBytes (cs : List Char) : Nat :=
  ((cs.flatMap String.utf8EncodeChar).takeWhile (· = 0x3d)).length

def longBracketBytes? : List Char → Except OutOfRange (Option Nat)
  | '[' :: afterOpen => do
    let level := equalsBytes afterOpen
    match ← sliceFrom afterOpen level with
    | '[' :: body =>
      let close := closingBracket level
      return (firstOccurrence? close body).map fun n =>
        level + 2 + byteCount (body.take n) + byteCount close
    | _ => return none
  | _ => return none

def longCommentBytes? : List Char → Except OutOfRange (Option Nat)
  | '-' :: '-' :: cs => return (← longBracketBytes? cs).map (· + 2)
  | _ => return none

/-- The number of bytes that a rule matches at the start of a text. -/
def Rule.matchedBytes? : Rule → List Char → Except OutOfRange (Option Nat)
  | longComment, cs => longCommentBytes? cs
  | longString, cs => longBracketBytes? cs
  | operator op, cs => return if op.symbol.isPrefixOf cs then some (byteCount op.symbol) else none
  | rule, cs => return (rule.length? cs).map fun n => byteCount (cs.take n)

/-- Empty matches do not count. -/
def Rule.match? (rule : Rule) (cs : List Char) : Except OutOfRange (Option {n : Nat // 0 < n}) := do
  return (← rule.matchedBytes? cs).bind fun n => if h : 0 < n then some ⟨n, h⟩ else none

def firstMatch? (cs : List Char) : List Rule → Except OutOfRange (Option (Rule × {n : Nat // 0 < n}))
  | [] => return none
  | rule :: rules => do
    match ← rule.match? cs with
    | some n => return some (rule, n)
    | none => firstMatch? cs rules

/-- What a rule derives from its text. -/
def Rule.derive : Rule → List Char → Except OutOfRange (Option Token)
  | hexadecimal, w => return (hexadecimal? (← sliceFrom w 2)).map .number
  | word, w => return some (ofWord w)
  | scientific, w | decimal, w => return (decimal? w).map .number
  | doubleQuoted, w | singleQuoted, w =>
    return (unescape? (← slice w 1 (byteCount w - 1))).map fun text => .string (String.ofList text)
  | longString, w => do
    let level := equalsBytes (← sliceFrom w 1)
    let body ← slice w (level + 2) (byteCount w - level - 2)
    return some (.string (String.ofList (dropLineBreak body)))
  | _, _ => return none

/-- What the first `n` bytes of a text read as. -/
def Rule.readBytes (rule : Rule) (cs : List Char) (n : Nat) : Except OutOfRange Reading :=
  match rule with
  | blank | longComment | lineComment => return .skipped
  | operator op => return .token (.operator op)
  | rule => do return .ofToken? (← rule.derive (← sliceTo cs n))

def unexpectedCharacter (source : List Char) (offset : Nat) : Except OutOfRange LexError := do
  let rest ← sliceFrom source offset
  return ⟨rest.headD '\x00', ← indexedPosition source offset, offset⟩

/-- The tokens and spans from a byte offset on, behind those found before. Each match has a byte or
more, so the offset comes nearer to the end. -/
def scanBytes (source : List Char) (tokens : List Token) (spans : List Span) (offset : Nat) :
    Except OutOfRange (Except LexError (List Token × List Span)) :=
  if offset < byteCount source then do
    let rest ← sliceFrom source offset
    match ← firstMatch? rest Rule.all with
    | none => return .error (← unexpectedCharacter source offset)
    | some (rule, ⟨n, _⟩) =>
      match ← rule.readBytes rest n with
      | .skipped => scanBytes source tokens spans (offset + n)
      | .token t => scanBytes source (tokens ++ [t]) (spans ++ [⟨offset, offset + n⟩]) (offset + n)
      | .refused => return .error (← unexpectedCharacter source offset)
  else return .ok (tokens, spans)
termination_by byteCount source - offset

section Brackets
variable {cs w : List Char} {c : Char} {n : Nat}

theorem ofNat_ne_equals {n : Nat} (h : n < 256) (hn : n ≠ 0x3d) : UInt8.ofNat n ≠ 0x3d := by
  intro he
  have := congrArg UInt8.toNat he
  rw [UInt8.toNat_ofNat_of_lt' h] at this
  exact hn this

theorem head_utf8EncodeChar (h : c ≠ '=') :
    ∃ b bs, String.utf8EncodeChar c = b :: bs ∧ b ≠ 0x3d := by
  have hc : c.val.toNat ≠ 0x3d := fun hc => h (Char.toNat_inj.1 hc)
  unfold String.utf8EncodeChar
  dsimp only
  repeat' split
  · exact ⟨_, _, rfl, ofNat_ne_equals (by omega) hc⟩
  · exact ⟨_, _, rfl, ofNat_ne_equals (by omega) (by omega)⟩
  · exact ⟨_, _, rfl, ofNat_ne_equals (by omega) (by omega)⟩
  · exact ⟨_, _, rfl, ofNat_ne_equals (by omega) (by omega)⟩

/-- No other character has the byte of an equals sign in it first. -/
@[simp] theorem equalsBytes_eq (cs : List Char) : equalsBytes cs = bracketLevel cs := by
  induction cs with
  | nil => rfl
  | cons c cs ih =>
    by_cases hc : c = '='
    · subst hc
      have henc : String.utf8EncodeChar '=' = [0x3d] := by decide
      simp only [equalsBytes, bracketLevel] at ih ⊢
      simp [henc, ih]
    · obtain ⟨b, bs, henc, hb⟩ := head_utf8EncodeChar hc
      simp [equalsBytes, bracketLevel, henc, hb, hc]

@[simp] theorem byteCount_replicate_equals (level : Nat) :
    byteCount (List.replicate level '=') = level := by
  induction level with
  | zero => rfl
  | succ level ih =>
    have hc : Char.utf8Size '=' = 1 := by decide
    rw [List.replicate_succ, byteCount_cons, ih, hc, Nat.add_comm]

theorem utf8Size_bracket : Char.utf8Size '[' = 1 ∧ Char.utf8Size ']' = 1 := by decide

theorem byteCount_closingBracket (level : Nat) : byteCount (closingBracket level) = level + 2 := by
  simp [closingBracket, utf8Size_bracket]
  omega

theorem longBracketBytes?_level (level : Nat) (body : List Char) :
    longBracketBytes? ('[' :: (List.replicate level '=' ++ '[' :: body)) =
      .ok ((firstOccurrence? (closingBracket level) body).map fun n =>
        level + 2 + byteCount (body.take n) + byteCount (closingBracket level)) := by
  have hl := bracketLevel_append (r := '[' :: body) level (stops_cons.2 (by decide))
  have hslice := sliceFrom_append (u := List.replicate level '=') (v := '[' :: body)
  rw [byteCount_replicate_equals] at hslice
  simp [longBracketBytes?, hl, hslice, bind, Except.bind, pure, Except.pure]

theorem open_or_none (cs : List Char) :
    (∃ level body, cs = '[' :: (List.replicate level '=' ++ '[' :: body)) ∨
      longBracketLength? cs = none ∧ longBracketBytes? cs = .ok none := by
  by_cases hopen : ∃ rest, cs = '[' :: rest
  · obtain ⟨rest, rfl⟩ := hopen
    obtain ⟨r, hrest, -⟩ := exists_bracketLevel rest
    have hdrop : rest.drop (bracketLevel rest) = r := by
      have hdrop' := congrArg (List.drop (bracketLevel rest)) hrest
      rwa [List.drop_left' List.length_replicate] at hdrop'
    have hslice : sliceFrom rest (bracketLevel rest) = .ok r :=
      sliceFrom_ok_iff.2 ⟨_, hrest, byteCount_replicate_equals _⟩
    by_cases hbody : ∃ body, r = '[' :: body
    · obtain ⟨body, rfl⟩ := hbody
      exact .inl ⟨_, body, congrArg _ hrest⟩
    · have hne : ∀ body, r ≠ '[' :: body := fun body h => hbody ⟨body, h⟩
      right
      constructor
      · simp [longBracketLength?, hdrop]
      · simp [longBracketBytes?, hslice, bind, Except.bind, pure, Except.pure]
  · right
    constructor
    · unfold longBracketLength?
      split
      · exact absurd ⟨_, rfl⟩ hopen
      · rfl
    · unfold longBracketBytes?
      split
      · exact absurd ⟨_, rfl⟩ hopen
      · rfl

/-- The arithmetic of levels and bytes gives the bytes of the bracket. -/
theorem longBracketBytes?_eq (cs : List Char) :
    longBracketBytes? cs = .ok ((longBracketLength? cs).map fun n => byteCount (cs.take n)) := by
  rcases open_or_none cs with ⟨level, body, rfl⟩ | ⟨hlength, hbytes⟩
  · rw [longBracketBytes?_level, longBracketLength?_level]
    cases h : firstOccurrence? (closingBracket level) body with
    | none => rfl
    | some n =>
      obtain ⟨u, v, rfl, rfl⟩ := firstOccurrence?_some h
      have hwhole : '[' :: (List.replicate level '=' ++ '[' :: (u ++ closingBracket level ++ v)) =
          '[' :: (List.replicate level '=' ++ '[' :: (u ++ closingBracket level)) ++ v := by simp
      have hlength : u.length + 2 * (level + 2) =
          ('[' :: (List.replicate level '=' ++ '[' :: (u ++ closingBracket level))).length := by
        simp [length_closingBracket]
        omega
      have hbody : (u ++ closingBracket level ++ v).take u.length = u := by simp
      simp only [Option.map_some, hbody, hwhole, hlength, List.take_left']
      simp [utf8Size_bracket, byteCount_closingBracket]
      omega
  · rw [hbytes, hlength]
    rfl

end Brackets
section Matches
variable {rule : Rule} {rules : List Rule} {w r cs : List Char} {n : Nat} {t : Token}

theorem longCommentBytes?_eq (cs : List Char) :
    longCommentBytes? cs = .ok ((longCommentLength? cs).map fun n => byteCount (cs.take n)) := by
  unfold longCommentBytes? longCommentLength?
  split
  · next cs =>
    have hdash : Char.utf8Size '-' = 1 := by decide
    simp only [longBracketBytes?_eq, bind, Except.bind, pure, Except.pure, Except.ok.injEq]
    cases longBracketLength? cs with
    | none => rfl
    | some n =>
      simp [hdash]
      omega
  · simp [pure, Except.pure]

theorem Rule.matchedBytes?_eq (rule : Rule) (cs : List Char) :
    rule.matchedBytes? cs = .ok ((rule.length? cs).map fun n => byteCount (cs.take n)) := by
  cases rule with
  | longString => exact longBracketBytes?_eq cs
  | longComment => exact longCommentBytes?_eq cs
  | operator op =>
    simp only [Rule.matchedBytes?, Rule.length?, operatorLength?]
    split
    · next h =>
      obtain ⟨r, rfl⟩ := List.isPrefixOf_iff_prefix.1 h
      simp [pure, Except.pure]
    · rfl
  | _ => rfl

theorem Rule.match?_none (h : rule.length? cs = none) : rule.match? cs = .ok none := by
  simp [Rule.match?, matchedBytes?_eq, h, bind, Except.bind, pure, Except.pure]

theorem Rule.match?_append (h : rule.length? (w ++ r) = some w.length) :
    ∃ hpos, rule.match? (w ++ r) = .ok (some ⟨byteCount w, hpos⟩) := by
  have hne : w ≠ [] := List.length_pos_iff.1 (Rule.length?_pos h)
  refine ⟨byteCount_pos hne, ?_⟩
  simp [Rule.match?, matchedBytes?_eq, h, byteCount_pos hne, bind, Except.bind, pure, Except.pure]

theorem firstMatch?_none (h : ∀ rule ∈ rules, rule.length? cs = none) :
    firstMatch? cs rules = .ok none := by
  induction rules with
  | nil => rfl
  | cons rule rules ih =>
    obtain ⟨hrule, hrules⟩ := List.forall_mem_cons.1 h
    simp [firstMatch?, Rule.match?_none hrule, ih hrules, bind, Except.bind]

theorem firstMatch?_append (before after : List Rule) (h : rule.length? (w ++ r) = some w.length)
    (hb : ∀ other ∈ before, other.length? (w ++ r) = none) :
    ∃ hpos, firstMatch? (w ++ r) (before ++ rule :: after) =
      .ok (some (rule, ⟨byteCount w, hpos⟩)) := by
  obtain ⟨hpos, hmatch⟩ := Rule.match?_append h
  refine ⟨hpos, ?_⟩
  induction before with
  | nil => simp [firstMatch?, hmatch, bind, Except.bind, pure, Except.pure]
  | cons other before ih =>
    obtain ⟨hother, hbefore⟩ := List.forall_mem_cons.1 hb
    simp [firstMatch?, Rule.match?_none hother, ih hbefore, bind, Except.bind]

theorem firstMatch?_of_firstRule? (h : firstRule? (w ++ r) = some (rule, w.length)) :
    ∃ hpos, firstMatch? (w ++ r) Rule.all = .ok (some (rule, ⟨byteCount w, hpos⟩)) := by
  obtain ⟨hn, hb⟩ := firstRule?_eq_some_iff.1 h
  obtain ⟨before, after, hall⟩ := List.append_of_mem (Rule.mem_all rule)
  rw [hall]
  refine firstMatch?_append before after hn fun other ho => hb other ?_
  have hs := hall ▸ Rule.all_sorted
  exact (List.pairwise_append.1 hs).2.2 other ho rule List.mem_cons_self

theorem firstMatch?_of_firstRule?_none (h : firstRule? cs = none) :
    firstMatch? cs Rule.all = .ok none := by
  refine firstMatch?_none fun rule hrule => ?_
  simpa using List.findSome?_eq_none_iff.1 h rule hrule

end Matches

section Texts
variable {rule : Rule} {w r cs : List Char} {quote : Char}

theorem OpenQuote.last (h : OpenQuote quote w) : ∃ body, w = body ++ [quote] := by
  induction h with
  | close => exact ⟨[], rfl⟩
  | lineBreak _ ih =>
    obtain ⟨body, rfl⟩ := ih
    exact ⟨_ :: _ :: _ :: body, rfl⟩
  | escape _ ih =>
    obtain ⟨body, rfl⟩ := ih
    exact ⟨_ :: _ :: body, rfl⟩
  | plain _ _ _ _ ih =>
    obtain ⟨body, rfl⟩ := ih
    exact ⟨_ :: body, rfl⟩

theorem slice_quoted (h : IsQuoted quote w) (hq : quote.utf8Size = 1) :
    slice w 1 (byteCount w - 1) = .ok (w.drop 1).dropLast := by
  obtain ⟨cs, rfl, hcs⟩ := h
  obtain ⟨body, rfl⟩ := hcs.last
  refine slice_ok_iff.2 ⟨[quote], [quote], by simp, by simp [hq], ?_⟩
  simp [hq]
  omega

theorem slice_longBracket (h : IsLongBracket w) : ∃ body,
    sliceFrom w 1 = .ok (w.drop 1) ∧
    slice w (bracketLevel (w.drop 1) + 2) (byteCount w - bracketLevel (w.drop 1) - 2) = .ok body ∧
    longBracketText w = dropLineBreak body := by
  obtain ⟨level, body, rfl, -⟩ := h
  have hl := bracketLevel_append (r := '[' :: (body ++ closingBracket level)) level
    (stops_cons.2 (by decide))
  refine ⟨body, sliceFrom_ok_iff.2 ⟨['['], rfl, by simp [utf8Size_bracket]⟩, ?_,
    longBracketText_level level body⟩
  refine slice_ok_iff.2 ⟨'[' :: (List.replicate level '=' ++ ['[']), closingBracket level, ?_⟩
  simp [hl, utf8Size_bracket, byteCount_closingBracket]
  omega

/-- Each text is long enough for what is sliced from it. -/
theorem Rule.readBytes_append (h : rule.Takes w) (r : List Char) :
    rule.readBytes (w ++ r) (byteCount w) = .ok (rule.read w) := by
  have hto := sliceTo_append (u := w) (v := r)
  cases rule with
  | blank | longComment | lineComment | operator op => rfl
  | word | scientific | decimal =>
    simp only [Rule.readBytes, hto, bind, Except.bind]
    rfl
  | hexadecimal =>
    obtain ⟨x, ds, rfl, hx, -⟩ := h
    have hslice : sliceFrom ('0' :: x :: ds) 2 = .ok ds := by
      refine sliceFrom_ok_iff.2 ⟨['0', x], rfl, ?_⟩
      rcases hx with rfl | rfl <;> decide
    simp only [Rule.readBytes, Rule.derive, hto, hslice, bind, Except.bind]
    rfl
  | doubleQuoted | singleQuoted =>
    have hslice := slice_quoted h (by decide)
    simp only [Rule.readBytes, Rule.derive, hto, hslice, bind, Except.bind]
    rfl
  | longString =>
    obtain ⟨body, hfrom, hslice, htext⟩ := slice_longBracket h
    simp only [Rule.readBytes, Rule.derive, hto, hfrom, equalsBytes_eq, hslice, bind, Except.bind]
    rw [Rule.read, htext]
    rfl

end Texts
section Loop
variable {u r cs source : List Char} {ts : List Token} {ss : List Span} {p : Piece} {c : Char}

theorem unexpectedCharacter_append (u : List Char) (c : Char) (cs : List Char) :
    unexpectedCharacter (u ++ c :: cs) (byteCount u) =
      .ok ⟨c, positionAt (u ++ c :: cs) (byteCount u), byteCount u⟩ := by
  simp [unexpectedCharacter, indexedPosition_append, bind, Except.bind, pure, Except.pure]

theorem scanBytes_end (source : List Char) (ts : List Token) (ss : List Span) :
    scanBytes source ts ss (byteCount source) = .ok (.ok (ts, ss)) := by
  rw [scanBytes, if_neg (Nat.lt_irrefl _)]
  rfl

/-- What the pieces of the rest of a source add to the tokens and spans found before. -/
def outcome (source : List Char) (ts : List Token) (ss : List Span) (offset : Nat) :
    Except Refusal (List Piece) → Except LexError (List Token × List Span)
  | .ok ps => .ok (ts ++ (lexemes offset ps).map (·.token), ss ++ (lexemes offset ps).map (·.span))
  | .error r =>
    let offset := byteCount source - byteCount (r.character :: r.following)
    .error ⟨r.character, positionAt source offset, offset⟩

/-- One step: a piece is skipped or its token found, and the offset is behind it. -/
theorem scanBytes_piece (h : IsFirst p r) :
    scanBytes (u ++ (p.text ++ r)) ts ss (byteCount u) =
      scanBytes (u ++ (p.text ++ r)) (ts ++ (lexemes (byteCount u) [p]).map (·.token))
        (ss ++ (lexemes (byteCount u) [p]).map (·.span)) (byteCount u + byteCount p.text) := by
  obtain ⟨rule, hrule, hpiece⟩ := isFirst_iff.1 h
  obtain ⟨hpos, hmatch⟩ := firstMatch?_of_firstRule? hrule
  have hread := Rule.readBytes_append (firstRule?_append_iff.1 hrule).1 r
  have hlt : byteCount u < byteCount (u ++ (p.text ++ r)) := by
    simp only [byteCount_append]
    omega
  rw [scanBytes, if_pos hlt]
  simp only [sliceFrom_append, bind, Except.bind, hmatch, hread]
  cases p with
  | skipped w =>
    have hskipped : rule.read w = .skipped := piece?_skipped_iff.1 hpiece
    simp [Piece.text, hskipped, lexemes]
  | lexeme t w =>
    have htoken : rule.read w = .token t := piece?_lexeme_iff.1 hpiece
    simp [Piece.text, htoken, lexemes]

theorem scanBytes_refused (h : firstPiece? (c :: cs) = none) :
    scanBytes (u ++ c :: cs) ts ss (byteCount u) =
      .ok (.error ⟨c, positionAt (u ++ c :: cs) (byteCount u), byteCount u⟩) := by
  have hlt : byteCount u < byteCount (u ++ c :: cs) := by
    have := c.utf8Size_pos
    simp only [byteCount_append, byteCount_cons]
    omega
  rw [scanBytes, if_pos hlt]
  simp only [sliceFrom_append, bind, Except.bind]
  cases hrule : firstRule? (c :: cs) with
  | none =>
    simp only [firstMatch?_of_firstRule?_none hrule, unexpectedCharacter_append]
    rfl
  | some found =>
    obtain ⟨rule, n⟩ := found
    obtain ⟨w, r, hcs, rfl, htakes, -⟩ :=
      Rule.length?_eq_some_iff.1 (firstRule?_eq_some_iff.1 hrule).1
    rw [hcs] at hrule
    obtain ⟨hpos, hmatch⟩ := firstMatch?_of_firstRule? hrule
    have hrefused : rule.read w = .refused := by
      simp only [firstPiece?, hcs, hrule, List.take_left', Option.map_eq_none_iff] at h
      exact piece?_none_iff.1 h
    simp only [hcs, hmatch, Rule.readBytes_append htakes, hrefused]
    rw [← hcs, unexpectedCharacter_append]
    rfl

theorem scanBytes_pieces (u cs : List Char) (ts : List Token) (ss : List Span) :
    scanBytes (u ++ cs) ts ss (byteCount u) =
      .ok (outcome (u ++ cs) ts ss (byteCount u) (pieces cs)) := by
  fun_induction pieces cs generalizing u ts ss with
  | case1 => simpa [outcome, lexemes] using scanBytes_end u ts ss
  | case2 c cs p rest h ih =>
    have htext := append_of_firstPiece? h
    have hfirst : IsFirst p rest := by rwa [IsFirst, ← htext]
    have hstep := ih (u ++ p.text) (ts ++ (lexemes (byteCount u) [p]).map (·.token))
      (ss ++ (lexemes (byteCount u) [p]).map (·.span))
    rw [List.append_assoc, byteCount_append] at hstep
    rw [htext, scanBytes_piece hfirst, hstep]
    cases pieces rest with
    | error e => rfl
    | ok ps => cases p <;> simp [outcome, lexemes, Except.map, Piece.text]
  | case3 c cs h =>
    rw [scanBytes_refused h]
    simp [outcome]

end Loop

/-- Scanning a source by offsets never leaves its range, and finds the tokens and spans, or the
refused character, that the pieces give. -/
theorem scanBytes_eq (source : List Char) : scanBytes source [] [] 0 =
    .ok ((Lexed.ofText source).map fun l => (l.tokens, l.lexemes.map (·.span))) := by
  have h := scanBytes_pieces [] source [] []
  rw [List.nil_append] at h
  rw [Lexed.ofText]
  cases hp : pieces source with
  | ok ps => simpa [outcome, hp, Except.map, Lexed.tokens] using h
  | error r => simpa [outcome, hp, Except.map] using h

end ScriptFront.Token
