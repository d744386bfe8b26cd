import ScriptFront.Phrase.Type
import ScriptFront.Syntax.Tree
/-! Reading expressions, statements and blocks. Each function calls the others only on a shorter
rest, or on the same rest with a lower rank: ranks fall from blocks over statements and expressions
to names. -/
namespace ScriptFront.Phrase
open Syntax

/-- The expressions of a single token. -/
def singleToken? (i : TokenIndex) : Token → Option Expr
  | .keyword .nil_ => some (.nil i)
  | .keyword .true_ => some (.literal (.bool i true))
  | .keyword .false_ => some (.literal (.bool i false))
  | .number v => some (.literal (.number i v))
  | .string v => some (.literal (.string i v))
  | .operator .tripleDot => some (.varArgs i)
  | _ => none

def unaryOp? (s : Stream) : Option (Parsed s UnaryOp) := tokenWith? UnaryOp.ofToken? s

/-- A binary operator that binds tighter than `floor`. -/
def binaryOp? (floor : Nat) (s : Stream) : Option (Parsed s BinaryOp) :=
  tokenWith? (fun t => (BinaryOp.ofToken? t).filter (floor < ·.level)) s

/-- The test `is T` after an expression, if one is next. -/
def typeTest (anchor : TokenIndex) (e : Expr) (s : Stream) : Except ParseError (Trail s Expr) :=
  match keyword? .is_ s with
  | some ⟨_, s₁, h₁⟩ => do
    let ⟨type, s₂, h₂⟩ ← typeExpr s₁
    have h₂ := h₂.trans h₁
    return ⟨.typeTest anchor e type, s₂, h₂.isRest⟩
  | none => return ⟨e, s, s.isRest_self⟩

def separatorOf? : Token → Option Unit
  | .operator .comma | .operator .semicolon => some ()
  | _ => none

/-- A name with `=` after it, at the start of a table item. -/
def fieldName? (s : Stream) : Option (Parsed s String) := do
  let ⟨w, s₁, h₁⟩ ← name? s
  let ⟨_, s₂, h₂⟩ ← operator? .equal s₁
  return ⟨w, s₂, h₂.trans h₁⟩

/-- The empty statements that are next. -/
def semicolons (s : Stream) : Trail s Unit :=
  match operator? .semicolon s with
  | some ⟨_, s₁, h₁⟩ =>
    let ⟨_, s₂, h₂⟩ := semicolons s₁
    have h₂ := h₂.follows h₁
    ⟨(), s₂, h₂.isRest⟩
  | none => ⟨(), s, s.isRest_self⟩
termination_by s.left.length
decreasing_by exact Stream.Follows.length_lt ‹_›

/-- What a block may be closed by: `end`, the next branch, or `until`. It has to be one of these. -/
structure Closers where
  end_ : Bool
  branch : Bool
  until_ : Bool
  any : end_ || branch || until_

namespace Closers

def atEnd : Closers := ⟨true, false, false, rfl⟩
def atBranch : Closers := ⟨true, true, false, rfl⟩
def atUntil : Closers := ⟨false, false, true, rfl⟩

def accept (closers : Closers) : Keyword → Bool
  | .end_ => closers.end_
  | .else_ | .elseif_ => closers.branch
  | .until_ => closers.until_
  | _ => false

end Closers

def Closers.ofToken? (closers : Closers) : Token → Option Keyword
  | .keyword k => if closers.accept k then some k else none
  | _ => none

/-- The operation of a token such as `+=`. -/
def updateOf? : Token → Option Arithmetic
  | .operator o => Arithmetic.ofAssignment? o
  | _ => none

def readTarget (e : Expr) : Except ParseError Target :=
  match e.target? with
  | some t => .ok t
  | none => .error (.invalidTarget e.anchor)

def callStatement (anchor : TokenIndex) (e : Expr) : Except ParseError Stmt :=
  match e.call? with
  | some c => .ok (.call anchor c)
  | none => .error (.invalidCall e.anchor)

mutual

/-- An expression whose binary operators bind tighter than `floor`. -/
def expression (floor : Nat) (s : Stream) : Except ParseError (Parsed s Expr) := do
  match ← expression? floor s with
  | some e => return e
  | none => throw (.expectedExpression s.next)
termination_by s.rank 4
decreasing_by all_goals exact s.isRest_self.rank_lt (by decide)

/-- The expression that starts here, or nothing where none can start. -/
def expression? (floor : Nat) (s : Stream) : Except ParseError (Option (Parsed s Expr)) := do
  match ← operand? s with
  | some ⟨e₁, s₁, h₁⟩ => do
    let ⟨e₂, s₂, h₂⟩ ← typeTest s.next e₁ s₁
    have h₂ := h₂.follows h₁
    let ⟨e₃, s₃, h₃⟩ ← operations floor s.next e₂ s₂
    return some ⟨e₃, s₃, h₃.follows h₂⟩
  | none => return none
termination_by s.rank 3
decreasing_by
  all_goals first
    | exact Stream.Follows.rank_lt ‹_› (by decide)
    | exact s.isRest_self.rank_lt (by decide)

def operand? (s : Stream) : Except ParseError (Option (Parsed s Expr)) :=
  match unaryOp? s with
  | some ⟨op, s₁, h₁⟩ => do
    let ⟨e, s₂, h₂⟩ ← expression UnaryOp.floor s₁
    return some ⟨.unary s.next op e, s₂, h₂.trans h₁⟩
  | none => atom? s
termination_by s.rank 2
decreasing_by
  all_goals first
    | exact Stream.Follows.rank_lt ‹_› (by decide)
    | exact s.isRest_self.rank_lt (by decide)

/-- The binary operations that go on from a left operand. -/
def operations (floor : Nat) (anchor : TokenIndex) (left : Expr) (s : Stream) :
    Except ParseError (Trail s Expr) :=
  match binaryOp? floor s with
  | some ⟨op, s₁, h₁⟩ => do
    let ⟨right, s₂, h₂⟩ ← expression op.rightFloor s₁
    have h₂ := h₂.trans h₁
    let ⟨e, s₃, h₃⟩ ← operations floor anchor (.binary anchor op left right) s₂
    have h₃ := h₃.follows h₂
    return ⟨e, s₃, h₃.isRest⟩
  | none => return ⟨left, s, s.isRest_self⟩
termination_by s.rank 0
decreasing_by all_goals exact Stream.Follows.rank_lt ‹_› (by decide)

def atom? (s : Stream) : Except ParseError (Option (Parsed s Expr)) :=
  match tokenWith? (singleToken? s.next) s with
  | some e => return some e
  | none =>
    match token? s with
    | some ⟨.operator .curlyLeft, s₁, h₁⟩ => do
      let ⟨items, s₂, h₂⟩ ← tableItems s₁
      return some ⟨.table s.next items, s₂, h₂.trans h₁⟩
    | some ⟨.keyword .function_, s₁, h₁⟩ => do
      let ⟨body, s₂, h₂⟩ ← routine s₁
      return some ⟨.routine s.next body, s₂, h₂.trans h₁⟩
    | some ⟨.name _, _, _⟩ | some ⟨.operator .roundLeft, _, _⟩ => do
      let e ← chain s
      return some e
    | _ => return none
termination_by s.rank 1
decreasing_by
  all_goals first
    | exact Stream.Follows.rank_lt ‹_› (by decide)
    | exact s.isRest_self.rank_lt (by decide)

/-- A name or an expression in brackets, with the indexings and calls that follow it. -/
def chain (s : Stream) : Except ParseError (Parsed s Expr) :=
  match token? s with
  | some ⟨.name w, s₁, h₁⟩ => do
    let ⟨e, s₂, h₂⟩ ← suffixes s.next (.name s.next w) s₁
    return ⟨e, s₂, h₂.follows h₁⟩
  | some ⟨.operator .roundLeft, s₁, h₁⟩ => do
    let ⟨inner, s₂, h₂⟩ ← expression 0 s₁
    have h₂ := h₂.trans h₁
    let ⟨_, s₃, h₃⟩ ← operator .roundRight s₂
    have h₃ := h₃.trans h₂
    let ⟨e, s₄, h₄⟩ ← suffixes s.next (.parenthesized s.next inner) s₃
    return ⟨e, s₄, h₄.follows h₃⟩
  | _ => .error (unexpected s)
termination_by s.rank 0
decreasing_by all_goals exact Stream.Follows.rank_lt ‹_› (by decide)

def suffixes (anchor : TokenIndex) (e : Expr) (s : Stream) : Except ParseError (Trail s Expr) :=
  match token? s with
  | some ⟨.operator .squareLeft, s₁, h₁⟩ => do
    let ⟨key, s₂, h₂⟩ ← expression 0 s₁
    have h₂ := h₂.trans h₁
    let ⟨_, s₃, h₃⟩ ← operator .squareRight s₂
    have h₃ := h₃.trans h₂
    let ⟨whole, s₄, h₄⟩ ← suffixes anchor (.index (.element anchor e key)) s₃
    have h₄ := h₄.follows h₃
    return ⟨whole, s₄, h₄.isRest⟩
  | some ⟨.operator .dot, s₁, h₁⟩ => do
    let ⟨field, s₂, h₂⟩ ← name s₁
    have h₂ := h₂.trans h₁
    let ⟨whole, s₃, h₃⟩ ← suffixes anchor (.index (.field anchor e field)) s₂
    have h₃ := h₃.follows h₂
    return ⟨whole, s₃, h₃.isRest⟩
  | some ⟨.operator .colon, s₁, h₁⟩ => do
    let ⟨method, s₂, h₂⟩ ← name s₁
    have h₂ := h₂.trans h₁
    let ⟨args, s₃, h₃⟩ ← arguments s₂
    have h₃ := h₃.trans h₂
    let ⟨whole, s₄, h₄⟩ ← suffixes anchor (.call (.method anchor e method args)) s₃
    have h₄ := h₄.follows h₃
    return ⟨whole, s₄, h₄.isRest⟩
  | some ⟨.operator .roundLeft, _, _⟩ | some ⟨.operator .curlyLeft, _, _⟩
  | some ⟨.string _, _, _⟩ => do
    let ⟨args, s₁, h₁⟩ ← arguments s
    let ⟨whole, s₂, h₂⟩ ← suffixes anchor (.call (.plain anchor e args)) s₁
    have h₂ := h₂.follows h₁
    return ⟨whole, s₂, h₂.isRest⟩
  | _ => return ⟨e, s, s.isRest_self⟩
termination_by s.rank 1
decreasing_by
  all_goals first
    | exact Stream.Follows.rank_lt ‹_› (by decide)
    | exact s.isRest_self.rank_lt (by decide)

/-- Call arguments: a list in brackets, or a single table or string without them. -/
def arguments (s : Stream) : Except ParseError (Parsed s (List Expr)) :=
  match token? s with
  | some ⟨.operator .roundLeft, s₁, h₁⟩ =>
    match operator? .roundRight s₁ with
    | some ⟨_, s₂, h₂⟩ => return ⟨[], s₂, h₂.trans h₁⟩
    | none => do
      let ⟨args, s₂, h₂⟩ ← expressions s₁
      have h₂ := h₂.trans h₁
      let ⟨_, s₃, h₃⟩ ← operator .roundRight s₂
      return ⟨args, s₃, h₃.trans h₂⟩
  | some ⟨.operator .curlyLeft, s₁, h₁⟩ => do
    let ⟨items, s₂, h₂⟩ ← tableItems s₁
    return ⟨[.table s.next items], s₂, h₂.trans h₁⟩
  | some ⟨.string v, s₁, h₁⟩ => return ⟨[.literal (.string s.next v)], s₁, h₁⟩
  | _ => .error (unexpected s)
termination_by s.rank 0
decreasing_by all_goals exact Stream.Follows.rank_lt ‹_› (by decide)

/-- One or more expressions, separated by commas. -/
def expressions (s : Stream) : Except ParseError (Parsed s (List Expr)) := do
  let ⟨first, s₁, h₁⟩ ← expression 0 s
  let ⟨more, s₂, h₂⟩ ← moreExpressions s₁
  return ⟨first :: more, s₂, h₂.follows h₁⟩
termination_by s.rank 5
decreasing_by
  all_goals first
    | exact Stream.Follows.rank_lt ‹_› (by decide)
    | exact s.isRest_self.rank_lt (by decide)

def moreExpressions (s : Stream) : Except ParseError (Trail s (List Expr)) :=
  match operator? .comma s with
  | some ⟨_, s₁, h₁⟩ => do
    let ⟨list, s₂, h₂⟩ ← expressions s₁
    have h₂ := h₂.trans h₁
    return ⟨list, s₂, h₂.isRest⟩
  | none => return ⟨[], s, s.isRest_self⟩
termination_by s.rank 0
decreasing_by all_goals exact Stream.Follows.rank_lt ‹_› (by decide)

/-- Table items up to the closing brace. A separator may also stand after the last. -/
def tableItems (s : Stream) : Except ParseError (Parsed s (List TableItem)) :=
  match operator? .curlyRight s with
  | some ⟨_, s₁, h₁⟩ => return ⟨[], s₁, h₁⟩
  | none => do
    let ⟨first, s₁, h₁⟩ ← tableItem s
    match tokenWith? separatorOf? s₁ with
    | some ⟨_, s₂, h₂⟩ => do
      have h₂ := h₂.trans h₁
      let ⟨more, s₃, h₃⟩ ← tableItems s₂
      return ⟨first :: more, s₃, h₃.trans h₂⟩
    | none => do
      let ⟨_, s₂, h₂⟩ ← operator .curlyRight s₁
      return ⟨[first], s₂, h₂.trans h₁⟩
termination_by s.rank 6
decreasing_by
  all_goals first
    | exact Stream.Follows.rank_lt ‹_› (by decide)
    | exact s.isRest_self.rank_lt (by decide)

def tableItem (s : Stream) : Except ParseError (Parsed s TableItem) :=
  match operator? .squareLeft s with
  | some ⟨_, s₁, h₁⟩ => do
    let ⟨key, s₂, h₂⟩ ← expression 0 s₁
    have h₂ := h₂.trans h₁
    let ⟨_, s₃, h₃⟩ ← operator .squareRight s₂
    have h₃ := h₃.trans h₂
    let ⟨_, s₄, h₄⟩ ← operator .equal s₃
    have h₄ := h₄.trans h₃
    let ⟨value, s₅, h₅⟩ ← expression 0 s₄
    return ⟨.keyed key value, s₅, h₅.trans h₄⟩
  | none =>
    match fieldName? s with
    | some ⟨w, s₁, h₁⟩ => do
      let ⟨value, s₂, h₂⟩ ← expression 0 s₁
      return ⟨.named w value, s₂, h₂.trans h₁⟩
    | none => do
      let ⟨value, s₁, h₁⟩ ← expression 0 s
      return ⟨.positional value, s₁, h₁⟩
termination_by s.rank 5
decreasing_by
  all_goals first
    | exact Stream.Follows.rank_lt ‹_› (by decide)
    | exact s.isRest_self.rank_lt (by decide)

/-- The signature and body of a function, up to its `end`. -/
def routine (s : Stream) : Except ParseError (Parsed s Routine) := do
  let ⟨sig, s₁, h₁⟩ ← signature s
  let ⟨(body, _), s₂, h₂⟩ ← block .atEnd false s₁
  return ⟨⟨sig, body⟩, s₂, h₂.trans h₁⟩
termination_by s.rank 0
decreasing_by all_goals exact Stream.Follows.rank_lt ‹_› (by decide)

/-- The statements up to a keyword that closes the block, and that keyword. -/
def block (closers : Closers) (returned : Bool) (s : Stream) :
    Except ParseError (Parsed s (Block × Keyword)) :=
  let ⟨_, s₁, h₁⟩ := semicolons s
  match tokenWith? closers.ofToken? s₁ with
  | some ⟨closer, s₂, h₂⟩ => return ⟨([], closer), s₂, h₂.ofRest h₁⟩
  | none =>
    match token? s₁ with
    | none => .error (.endOfInput s₁.next)
    | some _ =>
      if returned then .error (.alreadyReturned s₁.next)
      else do
        let ⟨first, s₂, h₂⟩ ← statement s₁
        have h₂ := h₂.ofRest h₁
        let ⟨(more, closer), s₃, h₃⟩ ← block closers first.isLast s₂
        return ⟨(first :: more, closer), s₃, h₃.trans h₂⟩
termination_by s.rank 3
decreasing_by
  · exact Stream.IsRest.rank_lt ‹_› (by decide)
  · exact Stream.Follows.rank_lt ‹_› (by decide)

def statement (s : Stream) : Except ParseError (Parsed s Stmt) :=
  match token? s with
  | some ⟨.keyword .do_, s₁, h₁⟩ => do
    let ⟨(body, _), s₂, h₂⟩ ← block .atEnd false s₁
    return ⟨.scope s.next body, s₂, h₂.trans h₁⟩
  | some ⟨.keyword .while_, s₁, h₁⟩ => do
    let ⟨condition, s₂, h₂⟩ ← expression 0 s₁
    have h₂ := h₂.trans h₁
    let ⟨_, s₃, h₃⟩ ← keyword .do_ s₂
    have h₃ := h₃.trans h₂
    let ⟨(body, _), s₄, h₄⟩ ← block .atEnd false s₃
    return ⟨.whileLoop s.next condition body, s₄, h₄.trans h₃⟩
  | some ⟨.keyword .repeat_, s₁, h₁⟩ => do
    let ⟨(body, _), s₂, h₂⟩ ← block .atUntil false s₁
    have h₂ := h₂.trans h₁
    let ⟨condition, s₃, h₃⟩ ← expression 0 s₂
    return ⟨.repeatLoop s.next body condition, s₃, h₃.trans h₂⟩
  | some ⟨.keyword .if_, s₁, h₁⟩ => do
    let ⟨(list, otherwise), s₂, h₂⟩ ← branches s₁
    return ⟨.choice s.next list otherwise, s₂, h₂.trans h₁⟩
  | some ⟨.keyword .for_, s₁, h₁⟩ => do
    let ⟨loop, s₂, h₂⟩ ← forLoop s.next s₁
    return ⟨loop, s₂, h₂.trans h₁⟩
  | some ⟨.keyword .function_, s₁, h₁⟩ => do
    let ⟨(names, isMethod), s₂, h₂⟩ ← path s₁
    have h₂ := h₂.trans h₁
    let ⟨body, s₃, h₃⟩ ← routine s₂
    return ⟨.routine s.next names isMethod body, s₃, h₃.trans h₂⟩
  | some ⟨.keyword .local_, s₁, h₁⟩ =>
    match keyword? .function_ s₁ with
    | some ⟨_, s₂, h₂⟩ => do
      have h₂ := h₂.trans h₁
      let ⟨w, s₃, h₃⟩ ← name s₂
      have h₃ := h₃.trans h₂
      let ⟨body, s₄, h₄⟩ ← routine s₃
      return ⟨.localRoutine s.next w body, s₄, h₄.trans h₃⟩
    | none => do
      let ⟨names, s₂, h₂⟩ ← typedNames s₁
      have h₂ := h₂.trans h₁
      match operator? .equal s₂ with
      | some ⟨_, s₃, h₃⟩ => do
        have h₃ := h₃.trans h₂
        let ⟨values, s₄, h₄⟩ ← expressions s₃
        return ⟨.localNames s.next names values, s₄, h₄.trans h₃⟩
      | none => return ⟨.localNames s.next names [], s₂, h₂⟩
  | some ⟨.keyword .return_, s₁, h₁⟩ => do
    let ⟨values, s₂, h₂⟩ ← returnValues s₁
    have h₂ := h₂.follows h₁
    match operator? .semicolon s₂ with
    | some ⟨_, s₃, h₃⟩ => return ⟨.returnValues s.next values, s₃, h₃.trans h₂⟩
    | none => return ⟨.returnValues s.next values, s₂, h₂⟩
  | some ⟨.keyword .break_, s₁, h₁⟩ => return ⟨.breakLoop s.next, s₁, h₁⟩
  | some ⟨.keyword .goto_, s₁, h₁⟩ => do
    let ⟨label, s₂, h₂⟩ ← name s₁
    return ⟨.goto s.next label, s₂, h₂.trans h₁⟩
  | some ⟨.operator .doubleColon, s₁, h₁⟩ => do
    let ⟨w, s₂, h₂⟩ ← name s₁
    have h₂ := h₂.trans h₁
    let ⟨_, s₃, h₃⟩ ← operator .doubleColon s₂
    return ⟨.label s.next w, s₃, h₃.trans h₂⟩
  | some ⟨.name _, _, _⟩ | some ⟨.operator .roundLeft, _, _⟩ => assignmentOrCall s
  | _ => .error (unexpected s)
termination_by s.rank 2
decreasing_by
  all_goals first
    | exact Stream.Follows.rank_lt ‹_› (by decide)
    | exact s.isRest_self.rank_lt (by decide)

/-- The expressions after `return`, if one starts here. -/
def returnValues (s : Stream) : Except ParseError (Trail s (List Expr)) := do
  match ← expression? 0 s with
  | some ⟨first, s₁, h₁⟩ => do
    let ⟨more, s₂, h₂⟩ ← moreExpressions s₁
    have h₂ := h₂.follows h₁
    return ⟨first :: more, s₂, h₂.isRest⟩
  | none => return ⟨[], s, s.isRest_self⟩
termination_by s.rank 4
decreasing_by
  all_goals first
    | exact Stream.Follows.rank_lt ‹_› (by decide)
    | exact s.isRest_self.rank_lt (by decide)

/-- The branches of an `if`, from its first condition to its `end`. -/
def branches (s : Stream) : Except ParseError (Parsed s (List Branch × Option Block)) := do
  let ⟨condition, s₁, h₁⟩ ← expression 0 s
  let ⟨_, s₂, h₂⟩ ← keyword .then_ s₁
  have h₂ := h₂.trans h₁
  let ⟨(body, closer), s₃, h₃⟩ ← block .atBranch false s₂
  have h₃ := h₃.trans h₂
  match closer with
  | .elseif_ => do
    let ⟨(more, otherwise), s₄, h₄⟩ ← branches s₃
    return ⟨(⟨condition, body⟩ :: more, otherwise), s₄, h₄.trans h₃⟩
  | .else_ => do
    let ⟨(otherwise, _), s₄, h₄⟩ ← block .atEnd false s₃
    return ⟨([⟨condition, body⟩], some otherwise), s₄, h₄.trans h₃⟩
  | _ => return ⟨([⟨condition, body⟩], none), s₃, h₃⟩
termination_by s.rank 5
decreasing_by
  all_goals first
    | exact Stream.Follows.rank_lt ‹_› (by decide)
    | exact s.isRest_self.rank_lt (by decide)

/-- Either kind of `for`, from its first name to its `end`. -/
def forLoop (anchor : TokenIndex) (s : Stream) : Except ParseError (Parsed s Stmt) := do
  let ⟨names, s₁, h₁⟩ ← typedNames s
  match token? s₁, names with
  | some ⟨.operator .equal, s₂, h₂⟩, [counter] => do
    have h₂ := h₂.trans h₁
    let ⟨start, s₃, h₃⟩ ← expression 0 s₂
    have h₃ := h₃.trans h₂
    let ⟨_, s₄, h₄⟩ ← operator .comma s₃
    have h₄ := h₄.trans h₃
    let ⟨stop, s₅, h₅⟩ ← expression 0 s₄
    have h₅ := h₅.trans h₄
    let ⟨step, s₆, h₆⟩ ← stepValue s₅
    have h₆ := h₆.follows h₅
    let ⟨_, s₇, h₇⟩ ← keyword .do_ s₆
    have h₇ := h₇.trans h₆
    let ⟨(body, _), s₈, h₈⟩ ← block .atEnd false s₇
    return ⟨.numericFor anchor counter start stop step body, s₈, h₈.trans h₇⟩
  | some ⟨.keyword .in_, s₂, h₂⟩, names => do
    have h₂ := h₂.trans h₁
    let ⟨iterators, s₃, h₃⟩ ← expressions s₂
    have h₃ := h₃.trans h₂
    let ⟨_, s₄, h₄⟩ ← keyword .do_ s₃
    have h₄ := h₄.trans h₃
    let ⟨(body, _), s₅, h₅⟩ ← block .atEnd false s₄
    return ⟨.genericFor anchor names iterators body, s₅, h₅.trans h₄⟩
  | _, _ => throw (unexpected s₁)
termination_by s.rank 0
decreasing_by all_goals exact Stream.Follows.rank_lt ‹_› (by decide)

/-- The step of a numeric `for` after its second comma, if one is next. -/
def stepValue (s : Stream) : Except ParseError (Trail s (Option Expr)) :=
  match operator? .comma s with
  | some ⟨_, s₁, h₁⟩ => do
    let ⟨e, s₂, h₂⟩ ← expression 0 s₁
    have h₂ := h₂.trans h₁
    return ⟨some e, s₂, h₂.isRest⟩
  | none => return ⟨none, s, s.isRest_self⟩
termination_by s.rank 0
decreasing_by all_goals exact Stream.Follows.rank_lt ‹_› (by decide)

def assignmentOrCall (s : Stream) : Except ParseError (Parsed s Stmt) :=
  match typedTarget? s with
  | some ⟨typed, s₁, h₁⟩ => do
    let ⟨a, s₂, h₂⟩ ← assignment s.next (.name typed) s₁
    return ⟨a, s₂, h₂.trans h₁⟩
  | none => do
    let ⟨e, s₁, h₁⟩ ← chain s
    match token? s₁ with
    | some ⟨.operator .comma, _, _⟩ | some ⟨.operator .equal, _, _⟩ => do
      let target ← readTarget e
      let ⟨a, s₂, h₂⟩ ← assignment s.next target s₁
      return ⟨a, s₂, h₂.trans h₁⟩
    | _ =>
      match tokenWith? updateOf? s₁ with
      | some ⟨op, s₂, h₂⟩ => do
        have h₂ := h₂.trans h₁
        let target ← readTarget e
        let ⟨value, s₃, h₃⟩ ← expression 0 s₂
        return ⟨.update s.next target op value, s₃, h₃.trans h₂⟩
      | none => return ⟨← callStatement s.next e, s₁, h₁⟩
termination_by s.rank 1
decreasing_by
  all_goals first
    | exact Stream.Follows.rank_lt ‹_› (by decide)
    | exact s.isRest_self.rank_lt (by decide)

/-- An assignment after its first target. -/
def assignment (anchor : TokenIndex) (first : Target) (s : Stream) :
    Except ParseError (Parsed s Stmt) := do
  let ⟨more, s₁, h₁⟩ ← moreTargets s
  let ⟨_, s₂, h₂⟩ ← operator .equal s₁
  have h₂ := h₂.ofRest h₁
  let ⟨values, s₃, h₃⟩ ← expressions s₂
  return ⟨.assign anchor (first :: more) values, s₃, h₃.trans h₂⟩
termination_by s.rank 1
decreasing_by
  all_goals first
    | exact Stream.Follows.rank_lt ‹_› (by decide)
    | exact s.isRest_self.rank_lt (by decide)

def moreTargets (s : Stream) : Except ParseError (Trail s (List Target)) :=
  match operator? .comma s with
  | some ⟨_, s₁, h₁⟩ => do
    let ⟨target, s₂, h₂⟩ ← oneTarget s₁
    have h₂ := h₂.trans h₁
    let ⟨more, s₃, h₃⟩ ← moreTargets s₂
    have h₃ := h₃.follows h₂
    return ⟨target :: more, s₃, h₃.isRest⟩
  | none => return ⟨[], s, s.isRest_self⟩
termination_by s.rank 0
decreasing_by all_goals exact Stream.Follows.rank_lt ‹_› (by decide)

def oneTarget (s : Stream) : Except ParseError (Parsed s Target) :=
  match typedTarget? s with
  | some ⟨typed, s₁, h₁⟩ => return ⟨.name typed, s₁, h₁⟩
  | none => do
    let ⟨e, s₁, h₁⟩ ← chain s
    return ⟨← readTarget e, s₁, h₁⟩
termination_by s.rank 1
decreasing_by all_goals exact s.isRest_self.rank_lt (by decide)

end

end ScriptFront.Phrase
