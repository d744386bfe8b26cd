import ScriptFront.Proofs.Ahead
/-! Reading as a relation: `Reading.Expression floor s e t` says that the expression `e` is read at
the start of `s` and `t` is left, and so for each reader. A rule is a way for a reader to succeed. -/
namespace ScriptFront.Phrase
open Syntax

/-- The result of a reader that takes at least one token. -/
def Yields {s : Stream} {α : Type} (x : Except ParseError (Parsed s α)) (v : α) (t : Stream) :
    Prop := ∃ h, x = .ok ⟨v, t, h⟩

/-- The result of a reader that may take nothing. -/
def Leaves {s : Stream} {α : Type} (x : Except ParseError (Trail s α)) (v : α) (t : Stream) :
    Prop := ∃ h, x = .ok ⟨v, t, h⟩

/-- The result of a reader that may find nothing to read. -/
def Offers {s : Stream} {α : Type} (x : Except ParseError (Option (Parsed s α))) (v : α)
    (t : Stream) : Prop := ∃ h, x = .ok (some ⟨v, t, h⟩)

theorem Yields.of {s t : Stream} {α : Type} {x : Except ParseError (Parsed s α)} {v : α}
    (h : x.map (fun p => (p.value, p.rest)) = .ok (v, t)) : Yields x v t := by
  cases x with
  | error e => cases h
  | ok p =>
    cases h
    exact ⟨_, rfl⟩

theorem Leaves.of {s t : Stream} {α : Type} {x : Except ParseError (Trail s α)} {v : α}
    (h : x.map (fun p => (p.value, p.rest)) = .ok (v, t)) : Leaves x v t := by
  cases x with
  | error e => cases h
  | ok p =>
    cases h
    exact ⟨_, rfl⟩

theorem Offers.of {s t : Stream} {α : Type} {x : Except ParseError (Option (Parsed s α))} {v : α}
    (h : x.map (·.map fun p => (p.value, p.rest)) = .ok (some (v, t))) : Offers x v t := by
  obtain _ | _ | p := x
  · cases h
  · cases h
  · cases h
    exact ⟨_, rfl⟩

section
variable {s t : Stream} {α : Type} {v : α}

theorem Yields.follows {x : Except ParseError (Parsed s α)} : Yields x v t → t.Follows s
  | ⟨h, _⟩ => h

theorem Offers.follows {x : Except ParseError (Option (Parsed s α))} :
    Offers x v t → t.Follows s
  | ⟨h, _⟩ => h

theorem Yields.isRest {x : Except ParseError (Parsed s α)} (h : Yields x v t) : t.IsRest s :=
  h.follows.isRest

theorem Leaves.isRest {x : Except ParseError (Trail s α)} : Leaves x v t → t.IsRest s
  | ⟨h, _⟩ => h

theorem Offers.isRest {x : Except ParseError (Option (Parsed s α))} (h : Offers x v t) :
    t.IsRest s := h.follows.isRest

end

def startsSuffix : Token → Bool
  | .operator .squareLeft | .operator .dot | .operator .colon | .operator .roundLeft
  | .operator .curlyLeft | .string _ => true
  | _ => false

def startsExpression (u : Token) : Bool :=
  (UnaryOp.ofToken? u).isSome || (singleToken? 0 u).isSome || match u with
    | .operator .curlyLeft | .keyword .function_ | .name _ | .operator .roundLeft => true
    | _ => false

/-- A binary operator that binds tighter than `floor`. -/
def BindsAbove (floor : Nat) (u : Token) : Prop :=
  ∃ op, BinaryOp.ofToken? u = some op ∧ floor < op.level

/-- What makes an assignment of the expression before it. -/
def startsAssignment : Token → Bool
  | .operator .comma | .operator .equal => true
  | u => (updateOf? u).isSome

/-- What goes on a type: `?`, and the member after a bare name. -/
def goesOnType : TypeExpr → Token → Prop
  | .name _ _, u => u = .operator .dot ∨ u = .operator .question
  | _, u => u = .operator .question

namespace Reading
section
variable {α : Type} (Item : Stream → α → Stream → Prop)

/-- One or more items with commas between them. -/
inductive Listed : Stream → List α → Stream → Prop
  | last : Item s a t → t.Stops (· = .operator .comma) → Listed s [a] t
  | more : Item s a ⟨n, .operator .comma :: ts⟩ → Listed ⟨n + 1, ts⟩ as t → Listed s (a :: as) t

/-- A list behind a colon, if one is next. -/
inductive Clause : Stream → List α → Stream → Prop
  | list : Listed Item ⟨n + 1, ts⟩ as t → Clause ⟨n, .operator .colon :: ts⟩ as t
  | none : s.Stops (· = .operator .colon) → Clause s [] s

/-- An item behind `=`, if one is next. -/
inductive Given : Stream → Option α → Stream → Prop
  | item : Item ⟨n + 1, ts⟩ a t → Given ⟨n, .operator .equal :: ts⟩ (some a) t
  | none : s.Stops (· = .operator .equal) → Given s none s

/-- Items up to an `end`. -/
inductive Members : Stream → List α → Stream → Prop
  | none : Members ⟨n, .keyword .end_ :: ts⟩ [] ⟨n + 1, ts⟩
  | more : Item s a s₁ → Members s₁ as t → Members s (a :: as) t

end

def Annotation (s : Stream) (type : TypeExpr) (t : Stream) : Prop := Yields (typeExpr s) type t

inductive TypedName : Stream → Syntax.TypedName → Stream → Prop
  | typed : Annotation ⟨n + 1 + 1, ts⟩ type t →
    TypedName ⟨n, .name w :: .operator .colon :: ts⟩ ⟨n, w, some type⟩ t
  | plain : Stream.Stops (· = .operator .colon) ⟨n + 1, ts⟩ →
    TypedName ⟨n, .name w :: ts⟩ ⟨n, w, none⟩ ⟨n + 1, ts⟩

inductive Parameters : Stream → List Syntax.TypedName → Bool → Stream → Prop
  | variadic :
    Parameters ⟨n, .operator .tripleDot :: .operator .roundRight :: ts⟩ [] true ⟨n + 1 + 1, ts⟩
  | last : TypedName s p ⟨n, .operator .roundRight :: ts⟩ → Parameters s [p] false ⟨n + 1, ts⟩
  | more : TypedName s p ⟨n, .operator .comma :: ts⟩ → Parameters ⟨n + 1, ts⟩ ps isVariadic t →
    Parameters s (p :: ps) isVariadic t

inductive Signature : Stream → Syntax.Signature → Stream → Prop
  | none : Clause Annotation ⟨n + 1 + 1, ts⟩ returns t →
    Signature ⟨n, .operator .roundLeft :: .operator .roundRight :: ts⟩ ⟨[], false, returns⟩ t
  | list : Parameters ⟨n + 1, ts⟩ ps isVariadic s → Clause Annotation s returns t →
    Signature ⟨n, .operator .roundLeft :: ts⟩ ⟨ps, isVariadic, returns⟩ t

inductive Path : Stream → List String → Bool → Stream → Prop
  | field : Path ⟨n + 1 + 1, ts⟩ ws isMethod t →
    Path ⟨n, .name w :: .operator .dot :: ts⟩ (w :: ws) isMethod t
  | method : Path ⟨n, .name v :: .operator .colon :: .name w :: ts⟩ [v, w] true ⟨n + 1 + 1 + 1, ts⟩
  | last : Stream.Stops (fun u => u = .operator .dot ∨ u = .operator .colon) ⟨n + 1, ts⟩ →
    Path ⟨n, .name w :: ts⟩ [w] false ⟨n + 1, ts⟩

inductive TypedTarget : Stream → Syntax.TypedName → Stream → Prop
  | intro : Annotation ⟨n + 1 + 1, ts⟩ type ⟨m, u :: us⟩ →
    u = .operator .comma ∨ u = .operator .equal →
    TypedTarget ⟨n, .name w :: .operator .colon :: ts⟩ ⟨n, w, some type⟩ ⟨m, u :: us⟩

inductive TypeTest (anchor : TokenIndex) (e : Expr) : Stream → Expr → Stream → Prop
  | is : Annotation ⟨n + 1, ts⟩ type t →
    TypeTest anchor e ⟨n, .keyword .is_ :: ts⟩ (.typeTest anchor e type) t
  | none : s.Stops (· = .keyword .is_) → TypeTest anchor e s e s

mutual

inductive Expression : Nat → Stream → Expr → Stream → Prop
  | intro : Operand s e₁ s₁ → TypeTest s.next e₁ s₁ e₂ s₂ → Operations floor s.next e₂ s₂ e₃ s₃ →
    Expression floor s e₃ s₃

inductive Operand : Stream → Expr → Stream → Prop
  | unary : UnaryOp.ofToken? u = some op → Expression UnaryOp.floor ⟨n + 1, ts⟩ e t →
    Operand ⟨n, u :: ts⟩ (.unary n op e) t
  | single : singleToken? n u = some e → Operand ⟨n, u :: ts⟩ e ⟨n + 1, ts⟩
  | table : TableItems ⟨n + 1, ts⟩ xs t →
    Operand ⟨n, .operator .curlyLeft :: ts⟩ (.table n xs) t
  | routine : RoutineBody ⟨n + 1, ts⟩ r t →
    Operand ⟨n, .keyword .function_ :: ts⟩ (.routine n r) t
  | chain : Chain s e t → Operand s e t

inductive Operations : Nat → TokenIndex → Expr → Stream → Expr → Stream → Prop
  | more : BinaryOp.ofToken? u = some o → floor < o.level →
    Expression o.rightFloor ⟨n + 1, ts⟩ right s →
    Operations floor anchor (.binary anchor o left right) s e t →
    Operations floor anchor left ⟨n, u :: ts⟩ e t
  | done : s.Stops (BindsAbove floor) → Operations floor anchor left s left s

inductive Chain : Stream → Expr → Stream → Prop
  | name : Suffixes n (.name n w) ⟨n + 1, ts⟩ e t → Chain ⟨n, .name w :: ts⟩ e t
  | parenthesized : Expression 0 ⟨n + 1, ts⟩ inside ⟨m, .operator .roundRight :: us⟩ →
    Suffixes n (.parenthesized n inside) ⟨m + 1, us⟩ e t →
    Chain ⟨n, .operator .roundLeft :: ts⟩ e t

inductive Suffixes : TokenIndex → Expr → Stream → Expr → Stream → Prop
  | element : Expression 0 ⟨n + 1, ts⟩ key ⟨m, .operator .squareRight :: us⟩ →
    Suffixes anchor (.index (.element anchor e key)) ⟨m + 1, us⟩ whole t →
    Suffixes anchor e ⟨n, .operator .squareLeft :: ts⟩ whole t
  | field : Suffixes anchor (.index (.field anchor e w)) ⟨n + 1 + 1, ts⟩ whole t →
    Suffixes anchor e ⟨n, .operator .dot :: .name w :: ts⟩ whole t
  | method : Arguments ⟨n + 1 + 1, ts⟩ a s →
    Suffixes anchor (.call (.method anchor e w a)) s whole t →
    Suffixes anchor e ⟨n, .operator .colon :: .name w :: ts⟩ whole t
  | call : Arguments s a s₁ → Suffixes anchor (.call (.plain anchor e a)) s₁ whole t →
    Suffixes anchor e s whole t
  | done : s.Stops (startsSuffix ·) → Suffixes anchor e s e s

inductive Arguments : Stream → List Expr → Stream → Prop
  | none : Arguments ⟨n, .operator .roundLeft :: .operator .roundRight :: ts⟩ [] ⟨n + 1 + 1, ts⟩
  | list : Expressions ⟨n + 1, ts⟩ args ⟨m, .operator .roundRight :: us⟩ →
    Arguments ⟨n, .operator .roundLeft :: ts⟩ args ⟨m + 1, us⟩
  | table : TableItems ⟨n + 1, ts⟩ xs t →
    Arguments ⟨n, .operator .curlyLeft :: ts⟩ [.table n xs] t
  | string : Arguments ⟨n, .string v :: ts⟩ [.literal (.string n v)] ⟨n + 1, ts⟩

inductive Expressions : Stream → List Expr → Stream → Prop
  | intro : Expression 0 s e s₁ → MoreExpressions s₁ es t → Expressions s (e :: es) t

inductive MoreExpressions : Stream → List Expr → Stream → Prop
  | more : Expressions ⟨n + 1, ts⟩ es t → MoreExpressions ⟨n, .operator .comma :: ts⟩ es t
  | done : s.Stops (· = .operator .comma) → MoreExpressions s [] s

inductive TableItems : Stream → List TableItem → Stream → Prop
  | none : TableItems ⟨n, .operator .curlyRight :: ts⟩ [] ⟨n + 1, ts⟩
  | more : TableItem s x ⟨n, u :: ts⟩ → separatorOf? u = some () → TableItems ⟨n + 1, ts⟩ y t →
    TableItems s (x :: y) t
  | last : TableItem s x ⟨n, .operator .curlyRight :: ts⟩ → TableItems s [x] ⟨n + 1, ts⟩

inductive TableItem : Stream → Syntax.TableItem → Stream → Prop
  | keyed : Expression 0 ⟨n + 1, ts⟩ k ⟨m, .operator .squareRight :: .operator .equal :: us⟩ →
    Expression 0 ⟨m + 1 + 1, us⟩ v t →
    TableItem ⟨n, .operator .squareLeft :: ts⟩ (.keyed k v) t
  | named : Expression 0 ⟨n + 1 + 1, ts⟩ v t →
    TableItem ⟨n, .name w :: .operator .equal :: ts⟩ (.named w v) t
  | positional : fieldName? s = none → Expression 0 s v t → TableItem s (.positional v) t

inductive RoutineBody : Stream → Routine → Stream → Prop
  | intro : Signature s sig s₁ → Block .atEnd false s₁ body closer t →
    RoutineBody s ⟨sig, body⟩ t

inductive Block : Closers → Bool → Stream → Syntax.Block → Keyword → Stream → Prop
  | close : (semicolons s).rest = ⟨n, .keyword k :: ts⟩ → closers.accept k →
    Block closers returned s [] k ⟨n + 1, ts⟩
  | cons : Statement (semicolons s).rest a s₁ → Block closers a.isLast s₁ b k t →
    Block closers false s (a :: b) k t

inductive Statement : Stream → Stmt → Stream → Prop
  | scope : Block .atEnd false ⟨n + 1, ts⟩ body k t →
    Statement ⟨n, .keyword .do_ :: ts⟩ (.scope n body) t
  | whileLoop : Expression 0 ⟨n + 1, ts⟩ e ⟨m, .keyword .do_ :: us⟩ →
    Block .atEnd false ⟨m + 1, us⟩ body k t →
    Statement ⟨n, .keyword .while_ :: ts⟩ (.whileLoop n e body) t
  | repeatLoop : Block .atUntil false ⟨n + 1, ts⟩ body k s → Expression 0 s e t →
    Statement ⟨n, .keyword .repeat_ :: ts⟩ (.repeatLoop n body e) t
  | choice : Branches ⟨n + 1, ts⟩ list otherwise t →
    Statement ⟨n, .keyword .if_ :: ts⟩ (.choice n list otherwise) t
  | forLoop : ForLoop n ⟨n + 1, ts⟩ loop t → Statement ⟨n, .keyword .for_ :: ts⟩ loop t
  | routine : Path ⟨n + 1, ts⟩ names isMethod s → RoutineBody s r t →
    Statement ⟨n, .keyword .function_ :: ts⟩ (.routine n names isMethod r) t
  | localRoutine : RoutineBody ⟨n + 1 + 1 + 1, ts⟩ r t →
    Statement ⟨n, .keyword .local_ :: .keyword .function_ :: .name w :: ts⟩ (.localRoutine n w r) t
  | localValues : Listed TypedName ⟨n + 1, ts⟩ names ⟨m, .operator .equal :: us⟩ →
    Expressions ⟨m + 1, us⟩ values t →
    Statement ⟨n, .keyword .local_ :: ts⟩ (.localNames n names values) t
  | localNames : Listed TypedName ⟨n + 1, ts⟩ names t → t.Stops (· = .operator .equal) →
    Statement ⟨n, .keyword .local_ :: ts⟩ (.localNames n names []) t
  | returnEnded : ReturnValues ⟨n + 1, ts⟩ values ⟨m, .operator .semicolon :: us⟩ →
    Statement ⟨n, .keyword .return_ :: ts⟩ (.returnValues n values) ⟨m + 1, us⟩
  | returnValues : ReturnValues ⟨n + 1, ts⟩ values t → t.Stops (· = .operator .semicolon) →
    Statement ⟨n, .keyword .return_ :: ts⟩ (.returnValues n values) t
  | breakLoop : Statement ⟨n, .keyword .break_ :: ts⟩ (.breakLoop n) ⟨n + 1, ts⟩
  | goto : Statement ⟨n, .keyword .goto_ :: .name w :: ts⟩ (.goto n w) ⟨n + 1 + 1, ts⟩
  | label : Statement ⟨n, .operator .doubleColon :: .name w :: .operator .doubleColon :: ts⟩
    (.label n w) ⟨n + 1 + 1 + 1, ts⟩
  | assignmentOrCall : AssignmentOrCall s stmt t → Statement s stmt t

inductive ReturnValues : Stream → List Expr → Stream → Prop
  | list : Expression 0 s e s₁ → MoreExpressions s₁ es t → ReturnValues s (e :: es) t
  | none : s.Stops (startsExpression ·) → ReturnValues s [] s

inductive Branches : Stream → List Branch → Option Syntax.Block → Stream → Prop
  | elseif : Expression 0 s e ⟨m, .keyword .then_ :: us⟩ →
    Block .atBranch false ⟨m + 1, us⟩ body .elseif_ s₁ → Branches s₁ more otherwise t →
    Branches s (⟨e, body⟩ :: more) otherwise t
  | otherwise : Expression 0 s e ⟨m, .keyword .then_ :: us⟩ →
    Block .atBranch false ⟨m + 1, us⟩ body .else_ s₁ → Block .atEnd false s₁ body' k t →
    Branches s [⟨e, body⟩] (some body') t
  | last : Expression 0 s e ⟨m, .keyword .then_ :: us⟩ →
    Block .atBranch false ⟨m + 1, us⟩ body k t → k ≠ .elseif_ → k ≠ .else_ →
    Branches s [⟨e, body⟩] none t

inductive ForLoop : TokenIndex → Stream → Stmt → Stream → Prop
  | numeric : Listed TypedName s [counter] ⟨n, .operator .equal :: ts⟩ →
    Expression 0 ⟨n + 1, ts⟩ start ⟨m, .operator .comma :: us⟩ → Expression 0 ⟨m + 1, us⟩ stop s₁ →
    StepValue s₁ step ⟨k, .keyword .do_ :: vs⟩ → Block .atEnd false ⟨k + 1, vs⟩ body c t →
    ForLoop anchor s (.numericFor anchor counter start stop step body) t
  | generic : Listed TypedName s names ⟨n, .keyword .in_ :: ts⟩ →
    Expressions ⟨n + 1, ts⟩ iterators ⟨m, .keyword .do_ :: us⟩ →
    Block .atEnd false ⟨m + 1, us⟩ body c t →
    ForLoop anchor s (.genericFor anchor names iterators body) t

inductive StepValue : Stream → Option Expr → Stream → Prop
  | step : Expression 0 ⟨n + 1, ts⟩ e t → StepValue ⟨n, .operator .comma :: ts⟩ (some e) t
  | none : s.Stops (· = .operator .comma) → StepValue s none s

inductive AssignmentOrCall : Stream → Stmt → Stream → Prop
  | typed : TypedTarget s typed s₁ → Assignment s.next (.name typed) s₁ stmt t →
    AssignmentOrCall s stmt t
  | assign : Chain s e s₁ → e.target? = some target → Assignment s.next target s₁ stmt t →
    AssignmentOrCall s stmt t
  | update : Chain s e ⟨m, u :: us⟩ → updateOf? u = some op → e.target? = some target →
    Expression 0 ⟨m + 1, us⟩ value t → AssignmentOrCall s (.update s.next target op value) t
  | call : Chain s e t → e.call? = some c → t.Stops (startsAssignment ·) →
    AssignmentOrCall s (.call s.next c) t

inductive Assignment : TokenIndex → Target → Stream → Stmt → Stream → Prop
  | intro : MoreTargets s more ⟨m, .operator .equal :: us⟩ → Expressions ⟨m + 1, us⟩ values t →
    Assignment anchor first s (.assign anchor (first :: more) values) t

inductive MoreTargets : Stream → List Target → Stream → Prop
  | more : OneTarget ⟨n + 1, ts⟩ target s → MoreTargets s targets t →
    MoreTargets ⟨n, .operator .comma :: ts⟩ (target :: targets) t
  | done : s.Stops (· = .operator .comma) → MoreTargets s [] s

inductive OneTarget : Stream → Target → Stream → Prop
  | typed : TypedTarget s typed t → OneTarget s (.name typed) t
  | chain : Chain s e t → e.target? = some target → OneTarget s target t

end

inductive Conformance : Stream → Syntax.Conformance → Stream → Prop
  | intro : Conformance ⟨n, .name w :: ts⟩ ⟨n, w⟩ ⟨n + 1, ts⟩

inductive ClassMember : Stream → Syntax.ClassMember → Stream → Prop
  | override : Expression 0 ⟨n + 1 + 1 + 1, ts⟩ v t →
    ClassMember ⟨n, .keyword .default_ :: .name w :: .operator .equal :: ts⟩
      (.override (n + 1) w v) t
  | method : RoutineBody ⟨n + 1 + 1, ts⟩ r t →
    ClassMember ⟨n, .keyword .function_ :: .name w :: ts⟩ (.method (n + 1) w r) t
  | property : Annotation ⟨n + 1 + 1, ts⟩ type s → Given (Expression 0) s initial t →
    ClassMember ⟨n, .name w :: .operator .colon :: ts⟩ (.property n w type initial) t

inductive ProtocolMember : Stream → Syntax.ProtocolMember → Stream → Prop
  | method : Signature ⟨n + 1 + 1, ts⟩ sig t →
    ProtocolMember ⟨n, .keyword .function_ :: .name w :: ts⟩ (.method (n + 1) w sig) t
  | property : Annotation ⟨n + 1 + 1, ts⟩ type t →
    ProtocolMember ⟨n, .name w :: .operator .colon :: ts⟩ (.property n w type) t

inductive AssociatedType : Stream → Syntax.AssociatedType → Stream → Prop
  | labelled : Annotation ⟨n + 1 + 1, ts⟩ type t →
    AssociatedType ⟨n, .name w :: .operator .colon :: ts⟩ ⟨some w, type⟩ t
  | plain : typeLabel? s = none → Annotation s type t → AssociatedType s ⟨none, type⟩ t

inductive AssociatedTypes : Stream → List Syntax.AssociatedType → Stream → Prop
  | last : AssociatedType s a ⟨n, .operator .roundRight :: ts⟩ → AssociatedTypes s [a] ⟨n + 1, ts⟩
  | more : AssociatedType s a ⟨n, .operator .comma :: ts⟩ → AssociatedTypes ⟨n + 1, ts⟩ as t →
    AssociatedTypes s (a :: as) t

inductive Payload : Stream → List Syntax.AssociatedType → Stream → Prop
  | empty : Payload ⟨n, .operator .roundLeft :: .operator .roundRight :: ts⟩ [] ⟨n + 1 + 1, ts⟩
  | list : AssociatedTypes ⟨n + 1, ts⟩ as t → Payload ⟨n, .operator .roundLeft :: ts⟩ as t
  | none : s.Stops (· = .operator .roundLeft) → Payload s [] s

inductive Literal : Stream → Syntax.Literal → Stream → Prop
  | number : Literal ⟨n, .number v :: ts⟩ (.number n v) ⟨n + 1, ts⟩
  | negative : Literal ⟨n, .operator .minus :: .number v :: ts⟩ (.number n (-v)) ⟨n + 1 + 1, ts⟩
  | string : Literal ⟨n, .string v :: ts⟩ (.string n v) ⟨n + 1, ts⟩
  | true : Literal ⟨n, .keyword .true_ :: ts⟩ (.bool n true) ⟨n + 1, ts⟩
  | false : Literal ⟨n, .keyword .false_ :: ts⟩ (.bool n false) ⟨n + 1, ts⟩

inductive EnumCase : Stream → Syntax.EnumCase → Stream → Prop
  | intro : Payload ⟨n + 1, ts⟩ as s → Given Literal s raw t →
    EnumCase ⟨n, .name w :: ts⟩ ⟨n, w, as, raw⟩ t

inductive EnumCases : Stream → List Syntax.EnumCase → Stream → Prop
  | none : EnumCases ⟨n, .keyword .end_ :: ts⟩ [] ⟨n + 1, ts⟩
  | more : EnumCase s c ⟨n, .operator .comma :: ts⟩ → EnumCases ⟨n + 1, ts⟩ cs t →
    EnumCases s (c :: cs) t
  | last : EnumCase s c ⟨n, .keyword .end_ :: ts⟩ → EnumCases s [c] ⟨n + 1, ts⟩

inductive Declaration : Stream → Item → Stream → Prop
  | ofClass : Clause Conformance ⟨n + 1 + 1, ts⟩ cs s → Members ClassMember s ms t →
    Declaration ⟨n, .keyword .class_ :: .name w :: ts⟩ (.object (.ofClass ⟨n + 1, w, cs, ms⟩)) t
  | ofProtocol : Clause Conformance ⟨n + 1 + 1, ts⟩ cs s → Members ProtocolMember s ms t →
    Declaration ⟨n, .keyword .protocol_ :: .name w :: ts⟩
      (.object (.ofProtocol ⟨n + 1, w, cs, ms⟩)) t
  | ofEnum : Clause Conformance ⟨n + 1 + 1, ts⟩ cs s → EnumCases s es t →
    Declaration ⟨n, .keyword .enum_ :: .name w :: ts⟩ (.object (.ofEnum ⟨n + 1, w, cs, es⟩)) t
  | typeAlias : Annotation ⟨n + 1 + 1 + 1, ts⟩ type t →
    Declaration ⟨n, .keyword .typealias_ :: .name w :: .operator .equal :: ts⟩
      (.typeAlias ⟨n + 1, w, type⟩) t

inductive Items : Bool → Stream → Chunk → Prop
  | done : (semicolons s).rest.left = [] → Items returned s []
  | declaration : Declaration s item s₁ → Items false s₁ more → Items false s (item :: more)
  | statement : Statement (semicolons s).rest stmt s₁ → Items stmt.isLast s₁ more →
    Items false s (.statement stmt :: more)

end Reading

end ScriptFront.Phrase
