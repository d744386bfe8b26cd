import ScriptFront.Token
/-! A cursor over a list of tokens. It may be moved past the end, where there is nothing to see, and
back again. -/
namespace ScriptFront.Token

structure Cursor where
  tokens : List Token
  next : Nat

namespace Cursor

def ofTokens (tokens : List Token) : Cursor := ⟨tokens, 0⟩

def at? (c : Cursor) (i : TokenIndex) : Option (TokenIndex × Token) := c.tokens[i]?.map (i, ·)
def peek (c : Cursor) : Option (TokenIndex × Token) := c.at? c.next
def peekSecond (c : Cursor) : Option (TokenIndex × Token) := c.at? (c.next + 1)

/-- The token that the last step forward went past. -/
def last (c : Cursor) : Option (TokenIndex × Token) := if c.next = 0 then none else c.at? (c.next - 1)

def skip (c : Cursor) : Cursor := { c with next := c.next + 1 }
def undo (c : Cursor) : Cursor := { c with next := c.next - 1 }
def rewind (c : Cursor) (mark : Nat) : Cursor := { c with next := mark }

def endIndex (c : Cursor) : TokenIndex := c.tokens.length
def nextIndex (c : Cursor) : TokenIndex := min c.next c.endIndex
def atEnd (c : Cursor) : Bool := c.endIndex ≤ c.next

end Cursor

end ScriptFront.Token
