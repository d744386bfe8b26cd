/-! Places in a source text. Offsets and spans count UTF-8 bytes; positions count lines and, within
a line, characters, both from one. Lines end at the newline character only. -/
namespace ScriptFront.Text

structure Position where
  line : Nat
  column : Nat
deriving DecidableEq

structure Span where
  start : Nat
  stop : Nat
deriving DecidableEq

def Span.length (s : Span) : Nat := s.stop - s.start
def Span.isEmpty (s : Span) : Bool := s.start == s.stop

/-- The number of bytes that a text takes in UTF-8. -/
def byteCount : List Char → Nat
  | [] => 0
  | c :: cs => c.utf8Size + byteCount cs

def Position.start : Position := ⟨1, 1⟩
def Position.next (p : Position) (c : Char) : Position :=
  if c = '\n' then ⟨p.line + 1, 1⟩ else ⟨p.line, p.column + 1⟩
def Position.toString (p : Position) : String := s!"{p.line}:{p.column}"

/-- The position just after a text that starts at `p`. -/
def Position.after (p : Position) : List Char → Position
  | [] => p
  | c :: cs => (p.next c).after cs

/-- The part of a text before a byte offset; all of it for an offset past its end. -/
def textBefore : List Char → Nat → List Char
  | [], _ => []
  | c :: cs, offset => if c.utf8Size ≤ offset then c :: textBefore cs (offset - c.utf8Size) else []

def positionAt (text : List Char) (offset : Nat) : Position :=
  Position.start.after (textBefore text offset)

end ScriptFront.Text
