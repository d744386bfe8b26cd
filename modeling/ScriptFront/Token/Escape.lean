import ScriptFront.Number.Numeral
import ScriptFront.Text.CharClass
/-! The escapes of a quoted string. A backslash before a line break stands for a newline, `\z`
swallows the blank characters after it, and code points are given by two hexadecimal characters or
by one to three decimal digits. -/
namespace ScriptFront.Token
open Text Number

/-- What a backslash and one more character stand for. -/
def simpleEscape? : Char → Option Char
  | 'n' => some '\n'
  | '\n' => some '\n'
  | 't' => some '\t'
  | 'r' => some '\r'
  | 'a' => some '\x07'
  | 'b' => some '\x08'
  | 'f' => some '\x0c'
  | 'v' => some '\x0b'
  | '\\' => some '\\'
  | '"' => some '"'
  | '\'' => some '\''
  | _ => none

/-- The two characters of a hexadecimal escape. The first may also be a plus sign, which counts
nothing. -/
def hexEscape? (high low : Char) : Option Char :=
  match hexValue? low, if high = '+' then some 0 else hexValue? high with
  | some l, some h => some (Char.ofNat (16 * h + l))
  | _, _ => none

/-- The value of the first digits of a text, at most `limit` of them, and what follows them. -/
def digitRun : Nat → Nat → List Char → Nat × List Char
  | limit + 1, value, c :: cs =>
    if c.isDigit then digitRun limit (10 * value + digitValue c) cs else (value, c :: cs)
  | _, value, cs => (value, cs)

theorem length_digitRun_le (limit value : Nat) (cs : List Char) :
    (digitRun limit value cs).2.length ≤ cs.length := by
  induction limit generalizing value cs with
  | zero => simp [digitRun]
  | succ limit ih =>
    cases cs with
    | nil => simp [digitRun]
    | cons c cs =>
      simp only [digitRun]
      split
      · exact Nat.le_succ_of_le (ih _ cs)
      · exact Nat.le_refl _

theorem length_dropWhile_le {α : Type} (p : α → Bool) (xs : List α) :
    (xs.dropWhile p).length ≤ xs.length := (xs.dropWhile_sublist p).length_le

/-- The text that the inside of a quoted string stands for. -/
def unescape? : List Char → Option (List Char)
  | [] => some []
  | '\\' :: '\r' :: '\n' :: cs => (unescape? cs).map ('\n' :: ·)
  | '\\' :: '\r' :: cs => (unescape? cs).map ('\n' :: ·)
  | '\\' :: 'z' :: cs => unescape? (cs.dropWhile isBlank)
  | '\\' :: 'x' :: high :: low :: cs =>
    match hexEscape? high low with
    | some c => (unescape? cs).map (c :: ·)
    | none => none
  | '\\' :: c :: cs =>
    if c.isDigit then
      let run := digitRun 2 (digitValue c) cs
      if run.1 ≤ 255 then (unescape? run.2).map (Char.ofNat run.1 :: ·) else none
    else match simpleEscape? c with
      | some e => (unescape? cs).map (e :: ·)
      | none => none
  | c :: cs => if c = '\\' then none else (unescape? cs).map (c :: ·)
termination_by cs => cs.length
decreasing_by
  all_goals simp only [List.length_cons]
  all_goals first
    | omega
    | exact Nat.lt_add_right 1 (Nat.lt_succ_of_le (length_dropWhile_le ..))
    | exact Nat.lt_add_right 1 (Nat.lt_succ_of_le (length_digitRun_le ..))

end ScriptFront.Token
