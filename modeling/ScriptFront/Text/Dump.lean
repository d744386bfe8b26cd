import ScriptFront.Text.Quoted
/-! Dumps: the text of structured values, on one line or spread over many. Spread out, every part
of a record, tuple or list has a line of its own and ends in a comma. -/
namespace ScriptFront.Text

inductive Dump where
  | word (text : String)
  | record (name : String) (fields : List (String × Dump))
  | tuple (name : String) (parts : List Dump)
  | list (parts : List Dump)

namespace Dump

def ofString (s : String) : Dump := word (quoted s)
def ofBool (b : Bool) : Dump := word (if b then "true" else "false")
def some (d : Dump) : Dump := tuple "Some" [d]
def none : Dump := word "None"

def ofOption {α : Type} (f : α → Dump) : Option α → Dump
  | .some a => some (f a)
  | .none => none

mutual
def line : Dump → String
  | word text => text
  | record name fields => name ++ " \x7b " ++ lineFields fields ++ " \x7d"
  | tuple name parts => name ++ "(" ++ lineParts parts ++ ")"
  | list parts => "[" ++ lineParts parts ++ "]"
def lineFields : List (String × Dump) → String
  | [] => ""
  | [(name, d)] => name ++ ": " ++ d.line
  | (name, d) :: fields => name ++ ": " ++ d.line ++ ", " ++ lineFields fields
def lineParts : List Dump → String
  | [] => ""
  | [d] => d.line
  | d :: parts => d.line ++ ", " ++ lineParts parts
end

mutual
/-- The text over many lines; all but the first start with `margin`. -/
def spread (margin : String) : Dump → String
  | word text => text
  | record name fields =>
    name ++ " \x7b\n" ++ spreadFields (margin ++ "    ") fields ++ margin ++ "\x7d"
  | tuple name parts => name ++ "(\n" ++ spreadParts (margin ++ "    ") parts ++ margin ++ ")"
  | list [] => "[]"
  | list parts => "[\n" ++ spreadParts (margin ++ "    ") parts ++ margin ++ "]"
def spreadFields (margin : String) : List (String × Dump) → String
  | [] => ""
  | (name, d) :: fields =>
    margin ++ name ++ ": " ++ d.spread margin ++ ",\n" ++ spreadFields margin fields
def spreadParts (margin : String) : List Dump → String
  | [] => ""
  | d :: parts => margin ++ d.spread margin ++ ",\n" ++ spreadParts margin parts
end

end Dump

end ScriptFront.Text
