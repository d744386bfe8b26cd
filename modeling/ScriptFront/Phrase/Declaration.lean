import ScriptFront.Phrase.Body
import ScriptFront.Syntax.Declaration
/-! Reading declarations. -/
namespace ScriptFront.Phrase
open Syntax

/-- One or more names, separated by commas. -/
def conformanceList (s : Stream) : Except ParseError (Parsed s (List Conformance)) := do
  let ⟨w, s₁, h₁⟩ ← name s
  match operator? .comma s₁ with
  | some ⟨_, s₂, h₂⟩ => do
    have h₂ := h₂.trans h₁
    let ⟨more, s₃, h₃⟩ ← conformanceList s₂
    return ⟨⟨s.next, w⟩ :: more, s₃, h₃.trans h₂⟩
  | none => return ⟨[⟨s.next, w⟩], s₁, h₁⟩
termination_by s.left.length
decreasing_by exact Stream.Follows.length_lt ‹_›

/-- The names after a colon, if one is next. -/
def conformances (s : Stream) : Except ParseError (Trail s (List Conformance)) :=
  match operator? .colon s with
  | some ⟨_, s₁, h₁⟩ => do
    let ⟨list, s₂, h₂⟩ ← conformanceList s₁
    have h₂ := h₂.trans h₁
    return ⟨list, s₂, h₂.isRest⟩
  | none => return ⟨[], s, s.isRest_self⟩

/-- The value after `=`, if one is next. -/
def initialValue (s : Stream) : Except ParseError (Trail s (Option Expr)) :=
  match operator? .equal s with
  | some ⟨_, s₁, h₁⟩ => do
    let ⟨e, s₂, h₂⟩ ← expression 0 s₁
    have h₂ := h₂.trans h₁
    return ⟨some e, s₂, h₂.isRest⟩
  | none => return ⟨none, s, s.isRest_self⟩

def classMember (s : Stream) : Except ParseError (Parsed s ClassMember) :=
  match token? s with
  | some ⟨.keyword .default_, s₁, h₁⟩ => do
    let ⟨w, s₂, h₂⟩ ← name s₁
    have h₂ := h₂.trans h₁
    let ⟨_, s₃, h₃⟩ ← operator .equal s₂
    have h₃ := h₃.trans h₂
    let ⟨value, s₄, h₄⟩ ← expression 0 s₃
    return ⟨.override s₁.next w value, s₄, h₄.trans h₃⟩
  | some ⟨.keyword .function_, s₁, h₁⟩ => do
    let ⟨w, s₂, h₂⟩ ← name s₁
    have h₂ := h₂.trans h₁
    let ⟨body, s₃, h₃⟩ ← routine s₂
    return ⟨.method s₁.next w body, s₃, h₃.trans h₂⟩
  | some ⟨.name w, s₁, h₁⟩ => do
    let ⟨_, s₂, h₂⟩ ← operator .colon s₁
    have h₂ := h₂.trans h₁
    let ⟨type, s₃, h₃⟩ ← typeExpr s₂
    have h₃ := h₃.trans h₂
    let ⟨initial, s₄, h₄⟩ ← initialValue s₃
    return ⟨.property s.next w type initial, s₄, h₄.follows h₃⟩
  | _ => .error (unexpected s)

def classMembers (s : Stream) : Except ParseError (Parsed s (List ClassMember)) :=
  match keyword? .end_ s with
  | some ⟨_, s₁, h₁⟩ => return ⟨[], s₁, h₁⟩
  | none => do
    let ⟨first, s₁, h₁⟩ ← classMember s
    let ⟨more, s₂, h₂⟩ ← classMembers s₁
    return ⟨first :: more, s₂, h₂.trans h₁⟩
termination_by s.left.length
decreasing_by exact Stream.Follows.length_lt ‹_›

def classDecl (s : Stream) : Except ParseError (Parsed s ClassDecl) := do
  let ⟨_, s₁, h₁⟩ ← keyword .class_ s
  let ⟨w, s₂, h₂⟩ ← name s₁
  have h₂ := h₂.trans h₁
  let ⟨conforms, s₃, h₃⟩ ← conformances s₂
  have h₃ := h₃.follows h₂
  let ⟨members, s₄, h₄⟩ ← classMembers s₃
  return ⟨⟨s₁.next, w, conforms, members⟩, s₄, h₄.trans h₃⟩

def protocolMember (s : Stream) : Except ParseError (Parsed s ProtocolMember) :=
  match token? s with
  | some ⟨.keyword .function_, s₁, h₁⟩ => do
    let ⟨w, s₂, h₂⟩ ← name s₁
    have h₂ := h₂.trans h₁
    let ⟨sig, s₃, h₃⟩ ← signature s₂
    return ⟨.method s₁.next w sig, s₃, h₃.trans h₂⟩
  | some ⟨.name w, s₁, h₁⟩ => do
    let ⟨_, s₂, h₂⟩ ← operator .colon s₁
    have h₂ := h₂.trans h₁
    let ⟨type, s₃, h₃⟩ ← typeExpr s₂
    return ⟨.property s.next w type, s₃, h₃.trans h₂⟩
  | _ => .error (unexpected s)

def protocolMembers (s : Stream) : Except ParseError (Parsed s (List ProtocolMember)) :=
  match keyword? .end_ s with
  | some ⟨_, s₁, h₁⟩ => return ⟨[], s₁, h₁⟩
  | none => do
    let ⟨first, s₁, h₁⟩ ← protocolMember s
    let ⟨more, s₂, h₂⟩ ← protocolMembers s₁
    return ⟨first :: more, s₂, h₂.trans h₁⟩
termination_by s.left.length
decreasing_by exact Stream.Follows.length_lt ‹_›

def protocolDecl (s : Stream) : Except ParseError (Parsed s ProtocolDecl) := do
  let ⟨_, s₁, h₁⟩ ← keyword .protocol_ s
  let ⟨w, s₂, h₂⟩ ← name s₁
  have h₂ := h₂.trans h₁
  let ⟨conforms, s₃, h₃⟩ ← conformances s₂
  have h₃ := h₃.follows h₂
  let ⟨members, s₄, h₄⟩ ← protocolMembers s₃
  return ⟨⟨s₁.next, w, conforms, members⟩, s₄, h₄.trans h₃⟩

/-- A name with a colon after it, in front of an associated type. -/
def typeLabel? (s : Stream) : Option (Parsed s String) := do
  let ⟨w, s₁, h₁⟩ ← name? s
  let ⟨_, s₂, h₂⟩ ← operator? .colon s₁
  return ⟨w, s₂, h₂.trans h₁⟩

def associatedType (s : Stream) : Except ParseError (Parsed s AssociatedType) :=
  match typeLabel? s with
  | some ⟨label, s₁, h₁⟩ => do
    let ⟨type, s₂, h₂⟩ ← typeExpr s₁
    return ⟨⟨some label, type⟩, s₂, h₂.trans h₁⟩
  | none => do
    let ⟨type, s₁, h₁⟩ ← typeExpr s
    return ⟨⟨none, type⟩, s₁, h₁⟩

/-- One or more associated types up to the closing bracket. -/
def associatedTypes (s : Stream) : Except ParseError (Parsed s (List AssociatedType)) := do
  let ⟨first, s₁, h₁⟩ ← associatedType s
  match operator? .roundRight s₁ with
  | some ⟨_, s₂, h₂⟩ => return ⟨[first], s₂, h₂.trans h₁⟩
  | none => do
    let ⟨_, s₂, h₂⟩ ← operator .comma s₁
    have h₂ := h₂.trans h₁
    let ⟨more, s₃, h₃⟩ ← associatedTypes s₂
    return ⟨first :: more, s₃, h₃.trans h₂⟩
termination_by s.left.length
decreasing_by exact Stream.Follows.length_lt ‹_›

/-- The associated types in brackets, if any are next. -/
def payload (s : Stream) : Except ParseError (Trail s (List AssociatedType)) :=
  match operator? .roundLeft s with
  | some ⟨_, s₁, h₁⟩ =>
    match operator? .roundRight s₁ with
    | some ⟨_, s₂, h₂⟩ =>
      have h₂ := h₂.trans h₁
      return ⟨[], s₂, h₂.isRest⟩
    | none => do
      let ⟨list, s₂, h₂⟩ ← associatedTypes s₁
      have h₂ := h₂.trans h₁
      return ⟨list, s₂, h₂.isRest⟩
  | none => return ⟨[], s, s.isRest_self⟩

/-- A number, perhaps with a minus sign, a string or a truth value. -/
def literal (s : Stream) : Except ParseError (Parsed s Literal) :=
  match token? s with
  | some ⟨.number v, s₁, h₁⟩ => return ⟨.number s.next v, s₁, h₁⟩
  | some ⟨.string v, s₁, h₁⟩ => return ⟨.string s.next v, s₁, h₁⟩
  | some ⟨.keyword .true_, s₁, h₁⟩ => return ⟨.bool s.next true, s₁, h₁⟩
  | some ⟨.keyword .false_, s₁, h₁⟩ => return ⟨.bool s.next false, s₁, h₁⟩
  | some ⟨.operator .minus, s₁, h₁⟩ =>
    match token? s₁ with
    | some ⟨.number v, s₂, h₂⟩ => return ⟨.number s.next (-v), s₂, h₂.trans h₁⟩
    | _ => .error (unexpected s₁)
  | _ => .error (unexpected s)

/-- The literal after `=`, if one is next. -/
def rawValue (s : Stream) : Except ParseError (Trail s (Option Literal)) :=
  match operator? .equal s with
  | some ⟨_, s₁, h₁⟩ => do
    let ⟨l, s₂, h₂⟩ ← literal s₁
    have h₂ := h₂.trans h₁
    return ⟨some l, s₂, h₂.isRest⟩
  | none => return ⟨none, s, s.isRest_self⟩

def enumCase (s : Stream) : Except ParseError (Parsed s EnumCase) := do
  let ⟨w, s₁, h₁⟩ ← name s
  let ⟨associated, s₂, h₂⟩ ← payload s₁
  have h₂ := h₂.follows h₁
  let ⟨raw, s₃, h₃⟩ ← rawValue s₂
  return ⟨⟨s.next, w, associated, raw⟩, s₃, h₃.follows h₂⟩

/-- The cases up to `end`. A comma may also stand after the last. -/
def enumCases (s : Stream) : Except ParseError (Parsed s (List EnumCase)) :=
  match keyword? .end_ s with
  | some ⟨_, s₁, h₁⟩ => return ⟨[], s₁, h₁⟩
  | none => do
    let ⟨first, s₁, h₁⟩ ← enumCase s
    match operator? .comma s₁ with
    | some ⟨_, s₂, h₂⟩ => do
      have h₂ := h₂.trans h₁
      let ⟨more, s₃, h₃⟩ ← enumCases s₂
      return ⟨first :: more, s₃, h₃.trans h₂⟩
    | none => do
      let ⟨_, s₂, h₂⟩ ← keyword .end_ s₁
      return ⟨[first], s₂, h₂.trans h₁⟩
termination_by s.left.length
decreasing_by exact Stream.Follows.length_lt ‹_›

def enumDecl (s : Stream) : Except ParseError (Parsed s EnumDecl) := do
  let ⟨_, s₁, h₁⟩ ← keyword .enum_ s
  let ⟨w, s₂, h₂⟩ ← name s₁
  have h₂ := h₂.trans h₁
  let ⟨conforms, s₃, h₃⟩ ← conformances s₂
  have h₃ := h₃.follows h₂
  let ⟨cases, s₄, h₄⟩ ← enumCases s₃
  return ⟨⟨s₁.next, w, conforms, cases⟩, s₄, h₄.trans h₃⟩

def aliasDecl (s : Stream) : Except ParseError (Parsed s AliasDecl) := do
  let ⟨_, s₁, h₁⟩ ← keyword .typealias_ s
  let ⟨w, s₂, h₂⟩ ← name s₁
  have h₂ := h₂.trans h₁
  let ⟨_, s₃, h₃⟩ ← operator .equal s₂
  have h₃ := h₃.trans h₂
  let ⟨type, s₄, h₄⟩ ← typeExpr s₃
  return ⟨⟨s₁.next, w, type⟩, s₄, h₄.trans h₃⟩

end ScriptFront.Phrase
