/-! Long brackets: `[`, a number of `=` called the level, `[`, then any text up to the first `]`, as
many `=`, `]`. A line break right after the opening bracket is no part of the text. -/
namespace ScriptFront.Token

/-- Where a pattern first occurs in a text. -/
def firstOccurrence? (pattern : List Char) : List Char → Option Nat
  | [] => if pattern.isEmpty then some 0 else none
  | c :: cs =>
    if pattern.isPrefixOf (c :: cs) then some 0 else (firstOccurrence? pattern cs).map (· + 1)

def bracketLevel (cs : List Char) : Nat := (cs.takeWhile (· = '=')).length
def closingBracket (level : Nat) : List Char := ']' :: List.replicate level '=' ++ [']']

/-- The length of the long bracket at the start of a text. -/
def longBracketLength? : List Char → Option Nat
  | '[' :: cs =>
    let level := bracketLevel cs
    match cs.drop level with
    | '[' :: body => (firstOccurrence? (closingBracket level) body).map (· + 2 * (level + 2))
    | _ => none
  | _ => none

def dropLineBreak : List Char → List Char
  | '\r' :: '\n' :: cs => cs
  | '\n' :: cs => cs
  | cs => cs

/-- The text between the brackets of a whole long bracket. -/
def longBracketText (cs : List Char) : List Char :=
  let margin := bracketLevel (cs.drop 1) + 2
  dropLineBreak ((cs.drop margin).take (cs.length - 2 * margin))

end ScriptFront.Token
