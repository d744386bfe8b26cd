import ScriptFront.Number.Written
import ScriptFront.Text.Quoted
/-! Tokens: numbers, strings, names, keywords and operators. -/
namespace ScriptFront

inductive Keyword where
  | and_ | break_ | do_ | else_ | elseif_ | end_ | false_ | for_ | function_ | goto_ | if_ | in_
  | local_ | nil_ | not_ | or_ | repeat_ | return_ | then_ | true_ | until_ | while_
  | class_ | protocol_ | enum_ | typealias_ | default_ | is_
deriving DecidableEq

namespace Keyword

def all : List Keyword :=
  [.and_, .break_, .do_, .else_, .elseif_, .end_, .false_, .for_, .function_, .goto_, .if_, .in_,
   .local_, .nil_, .not_, .or_, .repeat_, .return_, .then_, .true_, .until_, .while_,
   .class_, .protocol_, .enum_, .typealias_, .default_, .is_]

def spelling : Keyword → String
  | and_ => "and"
  | break_ => "break"
  | do_ => "do"
  | else_ => "else"
  | elseif_ => "elseif"
  | end_ => "end"
  | false_ => "false"
  | for_ => "for"
  | function_ => "function"
  | goto_ => "goto"
  | if_ => "if"
  | in_ => "in"
  | local_ => "local"
  | nil_ => "nil"
  | not_ => "not"
  | or_ => "or"
  | repeat_ => "repeat"
  | return_ => "return"
  | then_ => "then"
  | true_ => "true"
  | until_ => "until"
  | while_ => "while"
  | class_ => "class"
  | protocol_ => "protocol"
  | enum_ => "enum"
  | typealias_ => "typealias"
  | default_ => "default"
  | is_ => "is"

def ofSpelling? (word : String) : Option Keyword := all.find? (·.spelling = word)

end Keyword

inductive Operator where
  | doubleColon | colon | question | doubleEqual | notEqual | lessEqual | greaterEqual
  | tripleDot | doubleDot | plusEqual | minusEqual | starEqual | slashEqual | percentEqual
  | caretEqual | equal | plus | star | minus | hash | slash | percent | caret | greater | less
  | dot | squareLeft | squareRight | roundLeft | roundRight | curlyLeft | curlyRight
  | comma | semicolon
deriving DecidableEq

namespace Operator

/-- Every operator; one that starts with another stands before it. -/
def all : List Operator :=
  [.doubleColon, .colon, .question, .doubleEqual, .notEqual, .lessEqual, .greaterEqual,
   .tripleDot, .doubleDot, .plusEqual, .minusEqual, .starEqual, .slashEqual, .percentEqual,
   .caretEqual, .equal, .plus, .star, .minus, .hash, .slash, .percent, .caret, .greater, .less,
   .dot, .squareLeft, .squareRight, .roundLeft, .roundRight, .curlyLeft, .curlyRight,
   .comma, .semicolon]

def symbol : Operator → List Char
  | doubleColon => [':', ':']
  | colon => [':']
  | question => ['?']
  | doubleEqual => ['=', '=']
  | notEqual => ['~', '=']
  | lessEqual => ['<', '=']
  | greaterEqual => ['>', '=']
  | tripleDot => ['.', '.', '.']
  | doubleDot => ['.', '.']
  | plusEqual => ['+', '=']
  | minusEqual => ['-', '=']
  | starEqual => ['*', '=']
  | slashEqual => ['/', '=']
  | percentEqual => ['%', '=']
  | caretEqual => ['^', '=']
  | equal => ['=']
  | plus => ['+']
  | star => ['*']
  | minus => ['-']
  | hash => ['#']
  | slash => ['/']
  | percent => ['%']
  | caret => ['^']
  | greater => ['>']
  | less => ['<']
  | dot => ['.']
  | squareLeft => ['[']
  | squareRight => [']']
  | roundLeft => ['(']
  | roundRight => [')']
  | curlyLeft => ['\x7b']
  | curlyRight => ['\x7d']
  | comma => [',']
  | semicolon => [';']

def spelling (op : Operator) : String := String.ofList op.symbol

end Operator

inductive Token where
  | number (value : Float)
  | string (value : String)
  | name (word : String)
  | keyword (word : Keyword)
  | operator (op : Operator)

/-- The index of a token in its list; the length of the list stands for the end of the input. -/
abbrev TokenIndex := Nat

/-- How messages name a token. -/
def Token.describe : Token → String
  | number value => "number " ++ Number.Layout.short.write value
  | string value => "string " ++ Text.quoted value
  | name word => "identifier '" ++ word ++ "'"
  | keyword word => "keyword '" ++ word.spelling ++ "'"
  | operator op => "'" ++ op.spelling ++ "'"

end ScriptFront
