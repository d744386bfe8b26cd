import ScriptFront.Text.Position
import ScriptFront.Token.Rule
/-! A text cut into pieces, and the tokens among them with their places in the text. -/
namespace ScriptFront.Token
open Text

inductive Piece where
  | skipped (text : List Char)
  | lexeme (token : Token) (text : List Char)

def Piece.text : Piece → List Char
  | skipped text => text
  | lexeme _ text => text

/-- The piece that a rule makes of some characters, if it takes them. -/
def Rule.piece? (rule : Rule) (text : List Char) : Option Piece :=
  match rule.read text with
  | .skipped => some (.skipped text)
  | .token t => some (.lexeme t text)
  | .refused => none

/-- The first piece of a text and what is left. -/
def firstPiece? (cs : List Char) : Option (Piece × List Char) :=
  match firstRule? cs with
  | some (rule, n) => (rule.piece? (cs.take n)).map (·, cs.drop n)
  | none => none

theorem length_lt_of_firstPiece? {c : Char} {cs rest : List Char} {p : Piece}
    (h : firstPiece? (c :: cs) = some (p, rest)) : rest.length < (c :: cs).length := by
  unfold firstPiece? at h
  split at h
  · obtain ⟨_, _, he⟩ := Option.map_eq_some_iff.1 h
    cases he
    have := pos_of_firstRule? ‹_›
    simp only [List.length_drop, List.length_cons]
    omega
  · simp at h

/-- Where a text cannot be cut further: its next character and those after it. -/
structure Refusal where
  character : Char
  following : List Char

/-- All pieces of a text, from left to right. -/
def pieces : List Char → Except Refusal (List Piece)
  | [] => .ok []
  | c :: cs =>
    match _h : firstPiece? (c :: cs) with
    | some (p, rest) => (pieces rest).map (p :: ·)
    | none => .error ⟨c, cs⟩
termination_by cs => cs.length
decreasing_by exact length_lt_of_firstPiece? _h

/-- A token with the text that it was read from. -/
structure Lexeme where
  token : Token
  text : String
  span : Span

/-- The lexemes among the pieces of a text; the first piece starts at `offset`. -/
def lexemes : Nat → List Piece → List Lexeme
  | _, [] => []
  | offset, .skipped text :: ps => lexemes (offset + byteCount text) ps
  | offset, .lexeme token text :: ps =>
    let stop := offset + byteCount text
    ⟨token, String.ofList text, ⟨offset, stop⟩⟩ :: lexemes stop ps

end Token

/-- A source text whose tokens have been read. -/
structure Lexed where
  source : List Char
  lexemes : List Token.Lexeme

structure LexError where
  character : Char
  position : Text.Position
  offset : Nat

def LexError.message (e : LexError) : String :=
  "Unexpected character '" ++ e.character.toString ++ "'"

namespace Lexed
open Text

def ofText (source : List Char) : Except LexError Lexed :=
  match Token.pieces source with
  | .ok ps => .ok ⟨source, Token.lexemes 0 ps⟩
  | .error r =>
    let offset := byteCount source - byteCount (r.character :: r.following)
    .error ⟨r.character, positionAt source offset, offset⟩

def ofString (source : String) : Except LexError Lexed := ofText source.toList

def tokens (l : Lexed) : List Token := l.lexemes.map (·.token)
def count (l : Lexed) : Nat := l.lexemes.length
def byteCount (l : Lexed) : Nat := Text.byteCount l.source

/-- The span of a token; at the end of the input it is empty. -/
def span (l : Lexed) (i : TokenIndex) : Span :=
  match l.lexemes[i]? with
  | some lexeme => lexeme.span
  | none => ⟨l.byteCount, l.byteCount⟩

def text? (l : Lexed) (i : TokenIndex) : Option String := l.lexemes[i]?.map (·.text)
def positionAt (l : Lexed) (offset : Nat) : Position := Text.positionAt l.source offset
def position (l : Lexed) (i : TokenIndex) : Position := l.positionAt (l.span i).start

end Lexed

end ScriptFront
