import ScriptFront.Phrase.Basic
import ScriptFront.Program.Error
import ScriptFront.Token.Lexed
/-! Diagnostics: an error of any phase with the place in the source that shows it. -/
namespace ScriptFront.Report
open Text

/-- A source text with the name under which it is reported. -/
structure Source where
  name : String
  text : String
deriving DecidableEq

/-- `lexeme?` is the text at the place; there is none at the end of the input. -/
structure Diagnostic where
  detail : String
  position : Position
  lexeme? : Option String
  span : Span
  source? : Option Source

namespace Diagnostic

def ofLexError (e : LexError) : Diagnostic :=
  ⟨e.message, e.position, some e.character.toString, ⟨e.offset, e.offset + e.character.utf8Size⟩,
    none⟩

def ofToken (l : Lexed) (i : TokenIndex) (detail : String) : Diagnostic :=
  ⟨detail, l.position i, l.text? i, l.span i, none⟩

def ofParseError (l : Lexed) (e : Phrase.ParseError) : Diagnostic := ofToken l e.index e.message
def ofResolveError (l : Lexed) (e : Program.ResolveError) : Diagnostic :=
  ofToken l e.index e.message

def withSource (d : Diagnostic) (source : Source) : Diagnostic := { d with source? := some source }

/-- The diagnostic on one line. -/
def message (d : Diagnostic) : String :=
  let place := match d.lexeme? with
    | some lexeme => "'" ++ lexeme ++ "'"
    | none => "end"
  "[line " ++ d.position.toString ++ "] Error at " ++ place ++ ": " ++ d.detail

end Diagnostic

end ScriptFront.Report
