import ScriptFront.Proofs.SignatureReading
/-! What a reading starts with. A reader that looks at the next token to choose its way is bound to
choose the way of the reading. -/
namespace ScriptFront.Phrase
open Syntax

def startsChain : Token → Bool
  | .name _ | .operator .roundLeft => true
  | _ => false

def startsType : Token → Bool
  | .name _ | .operator .squareLeft => true
  | _ => false

def startsArguments : Token → Bool
  | .operator .roundLeft | .operator .curlyLeft | .string _ => true
  | _ => false

def startsStatement : Token → Bool
  | .keyword .do_ | .keyword .while_ | .keyword .repeat_ | .keyword .if_ | .keyword .for_
  | .keyword .function_ | .keyword .local_ | .keyword .return_ | .keyword .break_
  | .keyword .goto_ | .operator .doubleColon => true
  | u => startsChain u

/-- Some token that satisfies `p` is next. -/
def Stream.Starts (p : Token → Bool) (s : Stream) : Prop := ∃ n u us, s = ⟨n, u :: us⟩ ∧ p u

theorem Stream.Starts.intro {p : Token → Bool} {n : TokenIndex} {u : Token} {us : List Token}
    (h : p u) : Stream.Starts p ⟨n, u :: us⟩ := ⟨n, u, us, rfl, h⟩

theorem Stream.Starts.mono {p q : Token → Bool} {s : Stream} (h : s.Starts p)
    (hpq : ∀ u, p u → q u) : s.Starts q := by
  obtain ⟨n, u, us, rfl, h⟩ := h
  exact .intro (hpq u h)

theorem startsExpression_of_startsChain {u : Token} (h : startsChain u) : startsExpression u := by
  unfold startsChain at h
  split at h
  · rfl
  · rfl
  · cases h

theorem startsStatement_of_startsChain {u : Token} (h : startsChain u) : startsStatement u := by
  unfold startsChain at h
  split at h
  · rfl
  · rfl
  · cases h

theorem startsExpression_of_unary {u : Token} {op : UnaryOp} (h : UnaryOp.ofToken? u = some op) :
    startsExpression u := by simp [startsExpression, h]

theorem startsExpression_of_single {u : Token} {n : TokenIndex} {e : Expr}
    (h : singleToken? n u = some e) : startsExpression u := by
  have h : (singleToken? 0 u).isSome := by
    unfold singleToken? at h ⊢
    split at h
    all_goals first
      | rfl
      | cases h
  simp [startsExpression, h]

theorem ofToken?_none_of_single {u : Token} {n : TokenIndex} {e : Expr}
    (h : singleToken? n u = some e) : UnaryOp.ofToken? u = none := by
  unfold singleToken? at h
  split at h
  all_goals first
    | rfl
    | cases h

theorem ofToken?_none_of_startsStatement (closers : Closers) {u : Token} (h : startsStatement u) :
    closers.ofToken? u = none := by
  unfold startsStatement at h
  split at h
  case h_12 =>
    unfold startsChain at h
    split at h <;> first | rfl | cases h
  all_goals rfl

theorem semicolons_of_stops {s : Stream} (h : s.Stops (· = .operator .semicolon)) :
    (semicolons s).rest = s := by
  rw [semicolons, operator?_none_iff.2 h]

theorem semicolons_cons (n : TokenIndex) (ts : List Token) :
    (semicolons ⟨n, .operator .semicolon :: ts⟩).rest = (semicolons ⟨n + 1, ts⟩).rest := by
  conv => lhs; rw [semicolons, operator?_cons]

/-- Semicolons only stand before what cannot be one. -/
theorem stops_of_semicolons {p : Token → Prop} {s : Stream} (h : (semicolons s).rest.Stops p)
    (hp : ¬ p (.operator .semicolon)) : s.Stops p := by
  intro u hu hu'
  rw [semicolons_of_stops] at h
  · exact h u hu hu'
  · intro v hv
    obtain rfl := Option.mem_unique hu hv
    rintro rfl
    exact hp hu'

namespace Reading
variable {s t : Stream}

theorem Chain.head {e : Expr} (h : Chain s e t) : s.Starts startsChain := by
  cases h with
  | name _ => exact .intro rfl
  | parenthesized _ _ => exact .intro rfl

theorem Arguments.head {args : List Expr} (h : Arguments s args t) :
    s.Starts startsArguments := by
  cases h with
  | none => exact .intro rfl
  | list _ => exact .intro rfl
  | table _ => exact .intro rfl
  | string => exact .intro rfl

theorem Operand.head {e : Expr} (h : Operand s e t) : s.Starts startsExpression := by
  cases h with
  | unary hu _ => exact .intro (startsExpression_of_unary hu)
  | single hu => exact .intro (startsExpression_of_single hu)
  | table _ => exact .intro rfl
  | routine _ => exact .intro rfl
  | chain h => exact h.head.mono fun _ => startsExpression_of_startsChain

theorem Expression.head {floor : Nat} {e : Expr} (h : Expression floor s e t) :
    s.Starts startsExpression := by
  cases h with
  | intro h _ _ => exact h.head

theorem TypedTarget.head {p : Syntax.TypedName} (h : TypedTarget s p t) :
    s.Starts startsChain := by
  cases h with
  | intro _ _ => exact .intro rfl

theorem AssignmentOrCall.head {stmt : Stmt} (h : AssignmentOrCall s stmt t) :
    s.Starts startsChain := by
  cases h with
  | typed h _ => exact h.head
  | assign h _ _ => exact h.head
  | update h _ _ _ => exact h.head
  | call h _ _ => exact h.head

theorem Statement.head {stmt : Stmt} (h : Statement s stmt t) : s.Starts startsStatement := by
  cases h with
  | assignmentOrCall h => exact h.head.mono fun _ => startsStatement_of_startsChain
  | _ => exact .intro rfl

theorem TableItem.curlyRight_none {x : Syntax.TableItem} (h : TableItem s x t) :
    operator? .curlyRight s = none := by
  cases h with
  | keyed _ _ => exact operator?_of_ne (by simp)
  | named _ => exact operator?_of_ne (by simp)
  | positional _ h =>
    obtain ⟨n, u, us, rfl, hu⟩ := h.head
    refine operator?_of_ne ?_
    rintro rfl
    cases hu

theorem Expression.operator?_none {floor : Nat} {e : Expr} (h : Expression floor s e t)
    {o : Operator} (ho : ¬ startsExpression (.operator o)) : operator? o s = none := by
  obtain ⟨n, u, us, rfl, hu⟩ := h.head
  refine operator?_of_ne ?_
  rintro rfl
  exact ho hu

theorem Expressions.operator?_none {es : List Expr} (h : Expressions s es t) {o : Operator}
    (ho : ¬ startsExpression (.operator o)) : operator? o s = none := by
  cases h with
  | intro h _ => exact h.operator?_none ho

theorem Listed.head {ps : List Syntax.TypedName} (h : Listed TypedName s ps t) :
    ∃ n w ts, s = ⟨n, .name w :: ts⟩ := by
  cases h with
  | last h _ =>
    obtain ⟨ts, h⟩ := h.head
    exact ⟨_, _, ts, h⟩
  | more h _ =>
    obtain ⟨ts, h⟩ := h.head
    exact ⟨_, _, ts, h⟩

theorem Listed.function_none {ps : List Syntax.TypedName} (h : Listed TypedName s ps t) :
    keyword? .function_ s = none := by
  obtain ⟨n, w, ts, rfl⟩ := h.head
  exact keyword?_of_ne (by simp)

theorem Assignment.head {anchor : TokenIndex} {first : Target} {stmt : Stmt}
    (h : Assignment anchor first s stmt t) :
    ∃ n us, s = ⟨n, .operator .comma :: us⟩ ∨ s = ⟨n, .operator .equal :: us⟩ := by
  cases h with
  | intro h _ =>
    cases h with
    | more _ _ => exact ⟨_, _, .inl rfl⟩
    | done _ => exact ⟨_, _, .inr rfl⟩

theorem spelling_head (type : TypeExpr) : ∃ u us, type.spelling = u :: us ∧ startsType u := by
  induction type with
  | name i w => exact ⟨_, _, rfl, rfl⟩
  | member i p w => exact ⟨_, _, rfl, rfl⟩
  | optional i inner ih =>
    obtain ⟨u, us, h, hu⟩ := ih
    refine ⟨u, us ++ [.operator .question], ?_, hu⟩
    rw [TypeExpr.spelling, h, List.cons_append]
  | array i element => exact ⟨_, _, rfl, rfl⟩
  | dictionary i key value => exact ⟨_, _, rfl, rfl⟩

theorem annotation_head {type : TypeExpr} (h : Annotation s type t) : s.Starts startsType := by
  obtain ⟨hs, -, -⟩ := typeExpr_yields_iff.1 h
  obtain ⟨u, us, heq, hu⟩ := spelling_head type
  rw [heq] at hs
  obtain ⟨n, ts, rfl, -⟩ := Stream.after_cons_iff.1 hs
  exact .intro hu

/-- A type that starts with a bare name ends there, unless a member or `?` is next. -/
theorem spelling_name {n : TokenIndex} {w : String} {u : Token} {us : List Token}
    {type : TypeExpr} (h : Stream.After type.spelling ⟨n, .name w :: u :: us⟩ t)
    (hd : u ≠ .operator .dot) (hq : u ≠ .operator .question) : t = ⟨n + 1, u :: us⟩ := by
  induction type generalizing t with
  | name i v =>
    simp only [TypeExpr.spelling, Stream.after_cons_iff, Stream.after_nil_iff] at h
    obtain ⟨n, ts, heq, rfl⟩ := h
    cases heq
    rfl
  | member i p v =>
    simp only [TypeExpr.spelling, Stream.after_cons_iff, Stream.after_nil_iff] at h
    obtain ⟨n, ts, heq, m, us, heq', _⟩ := h
    cases heq
    cases heq'
    exact absurd rfl hd
  | optional i inner ih =>
    simp only [TypeExpr.spelling, Stream.after_append_iff, Stream.after_cons_iff] at h
    obtain ⟨m, h, n, ts, rfl, -⟩ := h
    cases ih h
    exact absurd rfl hq
  | array i element ih =>
    obtain ⟨n, ts, heq, _⟩ := Stream.after_cons_iff.1 h
    cases heq
  | dictionary i key value ihk ihv =>
    obtain ⟨n, ts, heq, _⟩ := Stream.after_cons_iff.1 h
    cases heq

/-- What reads as a chain is no name with an annotation: after `name : method` come arguments,
which no type goes on with and no assignment either. -/
theorem Chain.typedTarget?_none {e : Expr} (h : Chain s e t) : typedTarget? s = none := by
  cases hr : typedTarget? s with
  | none => rfl
  | some p =>
    obtain ⟨p, t', _⟩ := p
    exfalso
    obtain ⟨ha, hu⟩ := reads_typedTarget? hr
    obtain ⟨hs, -, -⟩ := typeExpr_yields_iff.1 ha
    cases h with
    | name h =>
      cases h with
      | method h _ =>
        obtain ⟨i, v, vs, heq, hv⟩ := h.head
        cases heq
        have ht := spelling_name hs (by rintro rfl; cases hv) (by rintro rfl; cases hv)
        cases ht
        rcases hu with rfl | rfl
        · cases hv
        · cases hv
      | call h _ =>
        obtain ⟨i, v, vs, heq, hv⟩ := h.head
        cases heq
        cases hv
      | done h => exact Stream.stops_cons.1 h rfl

end Reading

end ScriptFront.Phrase
