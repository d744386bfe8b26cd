import ScriptFront.Phrase.Chunk
import ScriptFront.Program
import ScriptFront.Report.Diagnostic
import ScriptFront.Syntax.Dump
/-! Listings of a source text: its tokens, its tree, its objects with the types of its annotations.
A text with an error has no listing, only a diagnostic. -/
namespace ScriptFront.Report

/-- What is listed, and whether a diagnostic keeps the source that it points into. -/
structure Settings where
  tokens : Bool
  tree : Bool
  objects : Bool
  keepSource : Bool
deriving DecidableEq

def lines (texts : List String) : String := String.join (texts.map (· ++ "\n"))

/-- A line that opens with the position of a token. -/
def placed (l : Lexed) (i : TokenIndex) (text : String) : String :=
  (l.position i).toString ++ " " ++ text

def tokenListing (l : Lexed) : String :=
  lines (l.tokens.mapIdx fun i t => placed l i t.describe)

def treeListing (chunk : Syntax.Chunk) : String := lines [(Syntax.dumpChunk chunk).spread ""]

def objectListing (l : Lexed) (p : Program) : String :=
  lines p.summaries ++ lines ((p.table 0).map fun (i, t) => placed l i (t.display p.declared))

/-- The listings of a text, in the order of the phases. -/
def listing (text : String) (s : Settings) : Except Diagnostic String := do
  let l ← (Lexed.ofString text).mapError .ofLexError
  let chunk ← (Phrase.chunk l.tokens).mapError (.ofParseError l)
  let program ← (Program.ofChunks [chunk]).mapError (.ofResolveError l)
  return (if s.tokens then tokenListing l else "") ++
    (if s.tree then treeListing chunk else "") ++
    (if s.objects then objectListing l program else "")

def compile (source : Source) (s : Settings) : Except Diagnostic String :=
  (listing source.text s).mapError fun d => if s.keepSource then d.withSource source else d

end ScriptFront.Report
