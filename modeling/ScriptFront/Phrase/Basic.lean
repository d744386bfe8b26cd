import ScriptFront.Phrase.Stream
/-! Reading from a stream. What is parsed takes at least one token and a trail may take none; both
carry the proof, so that readers may call each other on what is left. -/
namespace ScriptFront.Phrase

/-- Why a token list is no chunk, with the index of the token that shows it. -/
inductive ParseError where
  | unexpectedToken (index : TokenIndex) (token : Token)
  | alreadyReturned (index : TokenIndex)
  | invalidTarget (index : TokenIndex)
  | invalidCall (index : TokenIndex)
  | expectedExpression (index : TokenIndex)
  | endOfInput (index : TokenIndex)

def ParseError.index : ParseError → TokenIndex
  | unexpectedToken i _ | alreadyReturned i | invalidTarget i | invalidCall i
  | expectedExpression i | endOfInput i => i

def ParseError.message : ParseError → String
  | unexpectedToken _ token => "Unexpected " ++ token.describe ++ "."
  | alreadyReturned _ => "Statement after 'return'."
  | invalidTarget _ => "Invalid assignment target."
  | invalidCall _ => "Expression is not a function call."
  | expectedExpression _ => "Expect expression."
  | endOfInput _ => "Unexpected end of file."

/-- Something read at the start of `s`, and what is left after it. -/
structure Parsed (s : Stream) (α : Type) where
  value : α
  rest : Stream
  rest_follows : rest.Follows s

/-- Like a phrase, but perhaps of no tokens. -/
structure Trail (s : Stream) (α : Type) where
  value : α
  rest : Stream
  rest_isRest : rest.IsRest s

/-- The next token, if any is left. -/
def token? : (s : Stream) → Option (Parsed s Token)
  | ⟨n, t :: ts⟩ => some ⟨t, ⟨n + 1, ts⟩, Stream.tail_follows ..⟩
  | ⟨_, []⟩ => none

/-- The next token, if something can be made of it. -/
def tokenWith? {α : Type} (read? : Token → Option α) (s : Stream) : Option (Parsed s α) :=
  match token? s with
  | some ⟨t, s₁, h₁⟩ => (read? t).map (⟨·, s₁, h₁⟩)
  | none => none

def nameOf? : Token → Option String
  | .name w => some w
  | _ => none

def keywordOf? (k : Keyword) : Token → Option Unit
  | .keyword j => if j = k then some () else none
  | _ => none

def operatorOf? (o : Operator) : Token → Option Unit
  | .operator p => if p = o then some () else none
  | _ => none

def name? (s : Stream) : Option (Parsed s String) := tokenWith? nameOf? s
def keyword? (k : Keyword) (s : Stream) : Option (Parsed s Unit) := tokenWith? (keywordOf? k) s
def operator? (o : Operator) (s : Stream) : Option (Parsed s Unit) := tokenWith? (operatorOf? o) s

/-- The error where something else is needed than what is next. -/
def unexpected (s : Stream) : ParseError :=
  match token? s with
  | some ⟨t, _, _⟩ => .unexpectedToken s.next t
  | none => .endOfInput s.next

def orUnexpected {s : Stream} {α : Type} : Option (Parsed s α) → Except ParseError (Parsed s α)
  | some p => .ok p
  | none => .error (unexpected s)

def name (s : Stream) : Except ParseError (Parsed s String) := orUnexpected (name? s)
def keyword (k : Keyword) (s : Stream) : Except ParseError (Parsed s Unit) :=
  orUnexpected (keyword? k s)
def operator (o : Operator) (s : Stream) : Except ParseError (Parsed s Unit) :=
  orUnexpected (operator? o s)

/-- A trail with at least one token in front of it. -/
def Trail.from {s t : Stream} {α : Type} (p : Trail t α) (h : t.Follows s) : Parsed s α :=
  ⟨p.value, p.rest, p.rest_isRest.follows h⟩

end ScriptFront.Phrase
