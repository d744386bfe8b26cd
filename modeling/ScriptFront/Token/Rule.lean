import ScriptFront.Text.CharClass
import ScriptFront.Text.Word
import ScriptFront.Token
import ScriptFront.Token.Escape
import ScriptFront.Token.LongBracket
/-! The rules by which a text is cut into pieces. They are tried in order and the first that applies
decides: it says how many characters the next piece has and what they read as. -/
namespace ScriptFront.Token
open Text Number

inductive Rule where
  | blank | hexadecimal | word | scientific | decimal | doubleQuoted | singleQuoted
  | longComment | lineComment | longString | operator (op : Operator)

def Rule.all : List Rule :=
  [.blank, .hexadecimal, .word, .scientific, .decimal, .doubleQuoted, .singleQuoted,
   .longComment, .lineComment, .longString] ++ Operator.all.map .operator

def countWhile (p : Char → Bool) (cs : List Char) : Nat := (cs.takeWhile p).length
def positive? (n : Nat) : Option Nat := if n = 0 then none else some n

def isHexDigit (c : Char) : Bool := (hexValue? c).isSome

def hexadecimalLength? : List Char → Option Nat
  | '0' :: x :: cs =>
    if x = 'x' ∨ x = 'X' then (positive? (countWhile isHexDigit cs)).map (· + 2) else none
  | _ => none

def wordLength? : List Char → Option Nat
  | c :: cs => if isWordStart c then some (countWhile isWord cs + 1) else none
  | [] => none

def decimalLength? (cs : List Char) : Option Nat :=
  (positive? (countWhile isAnyDigit cs)).map fun whole =>
    match cs.drop whole with
    | '.' :: places => whole + 1 + countWhile isAnyDigit places
    | _ => whole

def exponentLength? : List Char → Option Nat
  | mark :: cs =>
    if isExponentMark mark then
      let sign := match cs with
        | '+' :: _ => 1
        | '-' :: _ => 1
        | _ => 0
      (positive? (countWhile isAnyDigit (cs.drop sign))).map (· + sign + 1)
    else none
  | [] => none

def scientificLength? (cs : List Char) : Option Nat :=
  match decimalLength? cs with
  | some n => (exponentLength? (cs.drop n)).map (· + n)
  | none => none

/-- The length of a quoted text that is already open, closing quote included. A backslash takes the
next character with it, or a carriage return and newline; no other newline is allowed. -/
def openQuoteLength? (quote : Char) : List Char → Option Nat
  | [] => none
  | '\\' :: '\r' :: '\n' :: cs => (openQuoteLength? quote cs).map (· + 3)
  | '\\' :: _ :: cs => (openQuoteLength? quote cs).map (· + 2)
  | c :: cs =>
    if c = quote then some 1
    else if c = '\\' ∨ c = '\n' then none
    else (openQuoteLength? quote cs).map (· + 1)

def quotedLength? (quote : Char) : List Char → Option Nat
  | c :: cs => if c = quote then (openQuoteLength? quote cs).map (· + 1) else none
  | [] => none

def longCommentLength? : List Char → Option Nat
  | '-' :: '-' :: cs => (longBracketLength? cs).map (· + 2)
  | _ => none

def lineCommentLength? : List Char → Option Nat
  | '-' :: '-' :: cs => some (countWhile (· != '\n') cs + 2)
  | _ => none

def operatorLength? (op : Operator) (cs : List Char) : Option Nat :=
  if op.symbol.isPrefixOf cs then some op.symbol.length else none

/-- The length of the piece that the rule finds at the start of a text, if it applies there. -/
def Rule.length? : Rule → List Char → Option Nat
  | blank, cs => positive? (countWhile isBlank cs)
  | hexadecimal, cs => hexadecimalLength? cs
  | word, cs => wordLength? cs
  | scientific, cs => scientificLength? cs
  | decimal, cs => decimalLength? cs
  | doubleQuoted, cs => quotedLength? '"' cs
  | singleQuoted, cs => quotedLength? '\'' cs
  | longComment, cs => longCommentLength? cs
  | lineComment, cs => lineCommentLength? cs
  | longString, cs => longBracketLength? cs
  | operator op, cs => operatorLength? op cs

/-- What the characters of a piece read as. -/
inductive Reading where
  | skipped
  | token (token : Token)
  | refused

def Reading.ofToken? : Option Token → Reading
  | some t => .token t
  | none => .refused

def ofWord (cs : List Char) : Token :=
  match Keyword.ofSpelling? (String.ofList cs) with
  | some k => .keyword k
  | none => .name (String.ofList cs)

/-- The token that a quoted text stands for, its quotes included. -/
def ofQuoted? (cs : List Char) : Option Token :=
  (unescape? (cs.drop 1).dropLast).map fun text => .string (String.ofList text)

def Rule.read : Rule → List Char → Reading
  | blank, _ => .skipped
  | longComment, _ => .skipped
  | lineComment, _ => .skipped
  | hexadecimal, cs => .ofToken? ((hexadecimal? (cs.drop 2)).map .number)
  | word, cs => .token (ofWord cs)
  | scientific, cs => .ofToken? ((decimal? cs).map .number)
  | decimal, cs => .ofToken? ((decimal? cs).map .number)
  | doubleQuoted, cs => .ofToken? (ofQuoted? cs)
  | singleQuoted, cs => .ofToken? (ofQuoted? cs)
  | longString, cs => .token (.string (String.ofList (longBracketText cs)))
  | operator op, _ => .token (.operator op)

/-- The first rule that applies at the start of a text, with the length of its piece. -/
def firstRule? (cs : List Char) : Option (Rule × Nat) :=
  Rule.all.findSome? fun rule => (rule.length? cs).map (rule, ·)

theorem pos_of_positive? {n m : Nat} (h : positive? n = some m) : 0 < m := by
  unfold positive? at h
  split at h
  · simp at h
  · cases h
    omega

theorem pos_of_map_add {o : Option Nat} {k n : Nat} (hk : 0 < k) (h : o.map (· + k) = some n) :
    0 < n := by
  obtain ⟨m, _, rfl⟩ := Option.map_eq_some_iff.1 h
  omega

theorem pos_of_decimalLength? {cs : List Char} {n : Nat} (h : decimalLength? cs = some n) :
    0 < n := by
  obtain ⟨whole, hw, rfl⟩ := Option.map_eq_some_iff.1 h
  have := pos_of_positive? hw
  split
  · omega
  · exact this

theorem pos_of_longBracketLength? {cs : List Char} {n : Nat}
    (h : longBracketLength? cs = some n) : 0 < n := by
  unfold longBracketLength? at h
  split at h
  · simp only at h
    split at h
    · exact pos_of_map_add (by omega) h
    · simp at h
  · simp at h

theorem pos_of_quotedLength? {quote : Char} {cs : List Char} {n : Nat}
    (h : quotedLength? quote cs = some n) : 0 < n := by
  unfold quotedLength? at h
  repeat' split at h
  · exact pos_of_map_add (by omega) h
  · simp at h
  · simp at h

theorem length_symbol_pos (op : Operator) : 0 < op.symbol.length := by cases op <;> decide

/-- A piece is never empty. -/
theorem Rule.length?_pos {rule : Rule} {cs : List Char} {n : Nat}
    (h : rule.length? cs = some n) : 0 < n := by
  cases rule with
  | blank => exact pos_of_positive? h
  | hexadecimal =>
    simp only [Rule.length?, hexadecimalLength?] at h
    repeat' split at h
    · exact pos_of_map_add (by omega) h
    · simp at h
    · simp at h
  | word =>
    simp only [Rule.length?, wordLength?] at h
    repeat' split at h
    · simp only [Option.some.injEq] at h
      omega
    · simp at h
    · simp at h
  | scientific =>
    simp only [Rule.length?, scientificLength?] at h
    split at h
    · exact pos_of_map_add (pos_of_decimalLength? ‹_›) h
    · simp at h
  | decimal => exact pos_of_decimalLength? h
  | doubleQuoted | singleQuoted => exact pos_of_quotedLength? h
  | longComment =>
    simp only [Rule.length?, longCommentLength?] at h
    split at h
    · exact pos_of_map_add (by omega) h
    · simp at h
  | lineComment =>
    simp only [Rule.length?, lineCommentLength?] at h
    split at h
    · simp only [Option.some.injEq] at h
      omega
    · simp at h
  | longString => exact pos_of_longBracketLength? h
  | operator op =>
    simp only [Rule.length?, operatorLength?] at h
    split at h
    · simp only [Option.some.injEq] at h
      exact h ▸ length_symbol_pos op
    · simp at h

theorem pos_of_firstRule? {cs : List Char} {rule : Rule} {n : Nat}
    (h : firstRule? cs = some (rule, n)) : 0 < n := by
  obtain ⟨r, _, hr⟩ := List.exists_of_findSome?_eq_some h
  obtain ⟨m, hm, he⟩ := Option.map_eq_some_iff.1 hr
  cases he
  exact Rule.length?_pos hm

end ScriptFront.Token
