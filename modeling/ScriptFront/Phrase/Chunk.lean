import ScriptFront.Phrase.Declaration
/-! Reading a whole chunk. Nothing but semicolons may follow a return statement, and a declaration
may follow anything but a semicolon. -/
namespace ScriptFront.Phrase
open Syntax

/-- The declaration that starts here, or nothing where no keyword of one is next. -/
def declaration? (s : Stream) : Option (Except ParseError (Parsed s Item)) :=
  match token? s with
  | some ⟨.keyword .class_, _, _⟩ => some do
    let ⟨d, s₁, h₁⟩ ← classDecl s
    return ⟨.object (.ofClass d), s₁, h₁⟩
  | some ⟨.keyword .protocol_, _, _⟩ => some do
    let ⟨d, s₁, h₁⟩ ← protocolDecl s
    return ⟨.object (.ofProtocol d), s₁, h₁⟩
  | some ⟨.keyword .enum_, _, _⟩ => some do
    let ⟨d, s₁, h₁⟩ ← enumDecl s
    return ⟨.object (.ofEnum d), s₁, h₁⟩
  | some ⟨.keyword .typealias_, _, _⟩ => some do
    let ⟨d, s₁, h₁⟩ ← aliasDecl s
    return ⟨.typeAlias d, s₁, h₁⟩
  | _ => none

/-- The items up to the end of the input. -/
def items (returned : Bool) (s : Stream) : Except ParseError Chunk :=
  match declaration? s with
  | some read =>
    if returned then .error (.alreadyReturned s.next)
    else do
      let ⟨first, s₁, _h₁⟩ ← read
      return first :: (← items false s₁)
  | none =>
    let ⟨_, s₁, _h₁⟩ := semicolons s
    match token? s₁ with
    | none => return []
    | some _ =>
      if returned then .error (.alreadyReturned s₁.next)
      else do
        let ⟨first, s₂, _h₂⟩ ← statement s₁
        have _h₂ := _h₂.ofRest _h₁
        return .statement first :: (← items first.isLast s₂)
termination_by s.left.length
decreasing_by all_goals exact Stream.Follows.length_lt ‹_›

/-- The chunk that a token list spells. -/
def chunk (tokens : List Token) : Except ParseError Chunk := items false (Stream.ofTokens tokens)

end ScriptFront.Phrase
