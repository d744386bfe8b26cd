import ScriptFront.Phrase.Basic
import ScriptFront.Syntax.TypeExpr
/-! Reading types, names with annotations and signatures. -/
namespace ScriptFront.Phrase
open Syntax

/-- Any number of `?` after a type. -/
def optionals (anchor : TokenIndex) (type : TypeExpr) (s : Stream) : Trail s TypeExpr :=
  match operator? .question s with
  | some ⟨_, s₁, h₁⟩ =>
    let ⟨full, s₂, h₂⟩ := optionals anchor (.optional anchor type) s₁
    have h₂ := h₂.follows h₁
    ⟨full, s₂, h₂.isRest⟩
  | none => ⟨type, s, s.isRest_self⟩
termination_by s.left.length
decreasing_by exact Stream.Follows.length_lt ‹_›

/-- `Name`, `Name.Member`, `[T]` or `[K: V]`, each followed by any number of `?`. -/
def typeExpr (s : Stream) : Except ParseError (Parsed s TypeExpr) :=
  match token? s with
  | some ⟨.name w, s₁, h₁⟩ =>
    match operator? .dot s₁ with
    | some ⟨_, s₂, h₂⟩ => do
      have h₂ := h₂.trans h₁
      let ⟨member, s₃, h₃⟩ ← name s₂
      have h₃ := h₃.trans h₂
      return (optionals s.next (.member s.next w member) s₃).from h₃
    | none => return (optionals s.next (.name s.next w) s₁).from h₁
  | some ⟨.operator .squareLeft, s₁, h₁⟩ => do
    let ⟨first, s₂, h₂⟩ ← typeExpr s₁
    have h₂ := h₂.trans h₁
    match operator? .colon s₂ with
    | some ⟨_, s₃, h₃⟩ => do
      have h₃ := h₃.trans h₂
      let ⟨value, s₄, h₄⟩ ← typeExpr s₃
      have h₄ := h₄.trans h₃
      let ⟨_, s₅, h₅⟩ ← operator .squareRight s₄
      have h₅ := h₅.trans h₄
      return (optionals s.next (.dictionary s.next first value) s₅).from h₅
    | none => do
      let ⟨_, s₃, h₃⟩ ← operator .squareRight s₂
      have h₃ := h₃.trans h₂
      return (optionals s.next (.array s.next first) s₃).from h₃
  | _ => .error (unexpected s)
termination_by s.left.length
decreasing_by all_goals exact Stream.Follows.length_lt ‹_›

/-- `name` or `name: T`. -/
def typedName (s : Stream) : Except ParseError (Parsed s TypedName) := do
  let ⟨w, s₁, h₁⟩ ← name s
  match operator? .colon s₁ with
  | some ⟨_, s₂, h₂⟩ => do
    have h₂ := h₂.trans h₁
    let ⟨type, s₃, h₃⟩ ← typeExpr s₂
    return ⟨⟨s.next, w, some type⟩, s₃, h₃.trans h₂⟩
  | none => return ⟨⟨s.next, w, none⟩, s₁, h₁⟩

/-- One or more names with annotations, separated by commas. -/
def typedNames (s : Stream) : Except ParseError (Parsed s (List TypedName)) := do
  let ⟨first, s₁, h₁⟩ ← typedName s
  match operator? .comma s₁ with
  | some ⟨_, s₂, h₂⟩ => do
    have h₂ := h₂.trans h₁
    let ⟨more, s₃, h₃⟩ ← typedNames s₂
    return ⟨first :: more, s₃, h₃.trans h₂⟩
  | none => return ⟨[first], s₁, h₁⟩
termination_by s.left.length
decreasing_by exact Stream.Follows.length_lt ‹_›

/-- One or more types, separated by commas. -/
def typeExprs (s : Stream) : Except ParseError (Parsed s (List TypeExpr)) := do
  let ⟨first, s₁, h₁⟩ ← typeExpr s
  match operator? .comma s₁ with
  | some ⟨_, s₂, h₂⟩ => do
    have h₂ := h₂.trans h₁
    let ⟨more, s₃, h₃⟩ ← typeExprs s₂
    return ⟨first :: more, s₃, h₃.trans h₂⟩
  | none => return ⟨[first], s₁, h₁⟩
termination_by s.left.length
decreasing_by exact Stream.Follows.length_lt ‹_›

/-- One or more parameters up to the closing bracket; `...` may only be the last. -/
def parameters (s : Stream) : Except ParseError (Parsed s (List TypedName × Bool)) :=
  match operator? .tripleDot s with
  | some ⟨_, s₁, h₁⟩ => do
    let ⟨_, s₂, h₂⟩ ← operator .roundRight s₁
    return ⟨([], true), s₂, h₂.trans h₁⟩
  | none => do
    let ⟨first, s₁, h₁⟩ ← typedName s
    match operator? .roundRight s₁ with
    | some ⟨_, s₂, h₂⟩ => return ⟨([first], false), s₂, h₂.trans h₁⟩
    | none => do
      let ⟨_, s₂, h₂⟩ ← operator .comma s₁
      have h₂ := h₂.trans h₁
      let ⟨(more, isVariadic), s₃, h₃⟩ ← parameters s₂
      return ⟨(first :: more, isVariadic), s₃, h₃.trans h₂⟩
termination_by s.left.length
decreasing_by exact Stream.Follows.length_lt ‹_›

/-- The return types after a colon, if one is next. -/
def returnTypes (s : Stream) : Except ParseError (Trail s (List TypeExpr)) :=
  match operator? .colon s with
  | some ⟨_, s₁, h₁⟩ => do
    let ⟨types, s₂, h₂⟩ ← typeExprs s₁
    have h₂ := h₂.trans h₁
    return ⟨types, s₂, h₂.isRest⟩
  | none => return ⟨[], s, s.isRest_self⟩

def signature (s : Stream) : Except ParseError (Parsed s Signature) := do
  let ⟨_, s₁, h₁⟩ ← operator .roundLeft s
  match operator? .roundRight s₁ with
  | some ⟨_, s₂, h₂⟩ => do
    have h₂ := h₂.trans h₁
    let ⟨returns, s₃, h₃⟩ ← returnTypes s₂
    return ⟨⟨[], false, returns⟩, s₃, h₃.follows h₂⟩
  | none => do
    let ⟨(names, isVariadic), s₂, h₂⟩ ← parameters s₁
    have h₂ := h₂.trans h₁
    let ⟨returns, s₃, h₃⟩ ← returnTypes s₂
    return ⟨⟨names, isVariadic, returns⟩, s₃, h₃.follows h₂⟩

/-- `a.b.c` or `a.b:m`, and whether it ends in a method. -/
def path (s : Stream) : Except ParseError (Parsed s (List String × Bool)) := do
  let ⟨first, s₁, h₁⟩ ← name s
  match token? s₁ with
  | some ⟨.operator .dot, s₂, h₂⟩ => do
    have h₂ := h₂.trans h₁
    let ⟨(more, isMethod), s₃, h₃⟩ ← path s₂
    return ⟨(first :: more, isMethod), s₃, h₃.trans h₂⟩
  | some ⟨.operator .colon, s₂, h₂⟩ => do
    have h₂ := h₂.trans h₁
    let ⟨method, s₃, h₃⟩ ← name s₂
    return ⟨([first, method], true), s₃, h₃.trans h₂⟩
  | _ => return ⟨([first], false), s₁, h₁⟩
termination_by s.left.length
decreasing_by exact Stream.Follows.length_lt ‹_›

/-- `name: T` with a comma or `=` after it. Only then is the colon that of an annotation, for
`name:method()` starts in the same way. -/
def typedTarget? (s : Stream) : Option (Parsed s TypedName) := do
  let ⟨w, s₁, h₁⟩ ← name? s
  let ⟨_, s₂, h₂⟩ ← operator? .colon s₁
  have h₂ := h₂.trans h₁
  let ⟨type, s₃, h₃⟩ ← (typeExpr s₂).toOption
  match token? s₃ with
  | some ⟨.operator .comma, _, _⟩ | some ⟨.operator .equal, _, _⟩ =>
    return ⟨⟨s.next, w, some type⟩, s₃, h₃.trans h₂⟩
  | _ => none

end ScriptFront.Phrase
