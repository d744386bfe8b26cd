import ScriptFront.Proofs.Completion
/-! Expressions, statements and blocks can be completed where the input ends. All readers are taken
together, by rank. -/
namespace ScriptFront.Phrase
open Syntax Phrase.Stream

/-- A chain is begun at `s` and goes on at `t`, with more suffixes or none. -/
def OpenChain (s t : Stream) : Prop :=
  ∃ anchor e, ∀ ⦃whole r⦄, Reading.Suffixes anchor e t whole r → Reading.Chain s whole r

/-- What suffixes are read at `s` goes on at `t`. -/
def OpenSuffixes (s t : Stream) : Prop :=
  ∀ anchor e, ∃ e', ∀ ⦃whole r⦄, Reading.Suffixes anchor e' t whole r →
    Reading.Suffixes anchor e s whole r

/-- A keyword that closes a block, and leaves nothing open if one does. -/
def Closers.last (closers : Closers) : Keyword :=
  if closers.end_ then .end_ else if closers.until_ then .until_ else .else_

theorem Closers.accept_last (closers : Closers) : closers.accept closers.last := by
  have h := closers.any
  unfold last
  split
  case isTrue he => exact he
  case isFalse he =>
    split
    case isTrue hu => exact hu
    case isFalse hu => simpa [accept, he, hu] using h

section
variable {s t : Stream} {n : TokenIndex} {ts : List Token} {C : Prop}

theorem stops_never : s.Stops Never := fun _ _ h => h

/-! A chain is an expression as it is, and with one more suffix a call or a target. -/

theorem OpenChain.done (h : OpenChain s t) (ht : t.Stops (startsSuffix ·)) :
    ∃ e, Reading.Chain s e t := by
  obtain ⟨anchor, e, h⟩ := h
  exact ⟨e, h (.done ht)⟩

theorem OpenChain.call (h : OpenChain s ⟨n, .operator .roundLeft :: .operator .roundRight :: ts⟩)
    (ht : Stops (startsSuffix ·) ⟨n + 1 + 1, ts⟩) :
    ∃ e c, Reading.Chain s e ⟨n + 1 + 1, ts⟩ ∧ e.call? = some c := by
  obtain ⟨anchor, e, h⟩ := h
  exact ⟨_, _, h (.call .none (.done ht)), rfl⟩

theorem OpenChain.target {w : String} (h : OpenChain s ⟨n, .operator .dot :: .name w :: ts⟩)
    (ht : Stops (startsSuffix ·) ⟨n + 1 + 1, ts⟩) :
    ∃ e target, Reading.Chain s e ⟨n + 1 + 1, ts⟩ ∧ e.target? = some target := by
  obtain ⟨anchor, e, h⟩ := h
  exact ⟨_, _, h (.field (.done ht)), rfl⟩

theorem OpenChain.trans {r : Stream} (h : OpenChain s r) (h' : OpenSuffixes r t) :
    OpenChain s t := by
  obtain ⟨anchor, e, h⟩ := h
  obtain ⟨e', h'⟩ := h' anchor e
  exact ⟨anchor, e', fun _ _ hw => h (h' hw)⟩

theorem OpenSuffixes.trans {r : Stream} (h : OpenSuffixes s r) (h' : OpenSuffixes r t) :
    OpenSuffixes s t := by
  intro anchor e
  obtain ⟨e₁, h⟩ := h anchor e
  obtain ⟨e₂, h'⟩ := h' anchor e₁
  exact ⟨e₂, fun _ _ hw => h (h' hw)⟩

theorem Reading.Block.empty {closers : Closers} {returned : Bool} {k : Keyword}
    (h : closers.accept k) :
    Reading.Block closers returned ⟨n, .keyword k :: ts⟩ [] k ⟨n + 1, ts⟩ :=
  .close (semicolons_of_stops (stops_cons.2 (by simp))) h

theorem Reading.Expression.nil {floor : Nat} (h : Stops (joinsExpression ·) ⟨n + 1, ts⟩) :
    Reading.Expression floor ⟨n, .keyword .nil_ :: ts⟩ (.nil n) ⟨n + 1, ts⟩ :=
  (Reading.Operand.single rfl).expression h

theorem Reading.Expressions.nil (h : Stops (joinsExpressions ·) ⟨n + 1, ts⟩) :
    Reading.Expressions ⟨n, .keyword .nil_ :: ts⟩ [.nil n] ⟨n + 1, ts⟩ :=
  .intro (.nil (h.mono fun _ => joinsExpressions_of_joinsExpression))
    (.done (h.mono (by rintro _ rfl; rfl)))

theorem Reading.RoutineBody.empty :
    Reading.RoutineBody
      ⟨n, .operator .roundLeft :: .operator .roundRight :: .keyword .end_ :: ts⟩
      ⟨⟨[], false, []⟩, []⟩ ⟨n + 1 + 1 + 1, ts⟩ :=
  .intro (.none (.none (stops_cons.2 (by simp)))) (.empty rfl)

/-- A chain can be completed where the suffixes after its beginning can. -/
theorem Completable.chain {r : Stream} (h : Completable Never Never OpenSuffixes r)
    (hs : s.left ≠ []) (begun : ∀ us, OpenChain (s.relocate 0 us) (r.relocate 0 us)) :
    Completable IsName Never OpenChain s := by
  refine h.within hs [] (fun _ _ => stops_never) ?_
  intro us _ _ _ k h
  exact ⟨k, (begun us).trans h⟩

/-- Suffixes can be completed where those after the first can. -/
theorem Completable.suffixes {r : Stream} (h : Completable Never Never OpenSuffixes r)
    (hs : s.left ≠ []) (first : ∀ us, OpenSuffixes (s.relocate 0 us) (r.relocate 0 us)) :
    Completable Never Never OpenSuffixes s := by
  refine h.within hs [] (fun _ _ => stops_never) ?_
  intro us _ _ _ k h
  exact ⟨k, (first us).trans h⟩

theorem short_readTarget {e : Expr} : Short C (readTarget e) := by
  unfold readTarget
  split
  · exact .ok
  · exact .error (by rintro _ ⟨⟩)

theorem short_callStatement {i : TokenIndex} {e : Expr} : Short C (callStatement i e) := by
  unfold callStatement
  split
  · exact .ok
  · exact .error (by rintro _ ⟨⟩)

end

open Reading

/-- What the readers of a rank below `n` cannot finish can be completed. -/
structure ShortBelow (n : Nat) : Prop where
  expression {floor s} : s.rank 4 < n →
    Short (Completable Never (joinsExpression ·) (Read (Expression floor)) s) (expression floor s)
  expression? {floor s} : s.rank 3 < n →
    Short (Completable Never (joinsExpression ·) (Read (Expression floor)) s) (expression? floor s)
  operand? {s} : s.rank 2 < n →
    Short (Completable Never (joinsExpression ·) (Read Operand) s) (operand? s)
  operations {floor anchor left s} : s.rank 0 < n →
    Short (Completable Never (joinsExpression ·)
      (fun s t => ∀ anchor left, ∃ e, Operations floor anchor left s e t) s)
      (operations floor anchor left s)
  atom? {s} : s.rank 1 < n →
    Short (Completable Never (joinsExpression ·) (Read Operand) s) (atom? s)
  chain {s} : s.rank 0 < n → Short (Completable IsName Never OpenChain s) (chain s)
  suffixes {anchor e s} : s.rank 1 < n →
    Short (Completable Never Never OpenSuffixes s) (suffixes anchor e s)
  arguments {s} : s.rank 0 < n →
    Short (Completable (· = .operator .roundLeft) Never (Read Arguments) s) (arguments s)
  expressions {s} : s.rank 5 < n →
    Short (Completable Never (joinsExpressions ·) (Read Expressions) s) (expressions s)
  moreExpressions {s} : s.rank 0 < n →
    Short (Completable Never (joinsExpressions ·) (Read MoreExpressions) s) (moreExpressions s)
  tableItems {s} : s.rank 6 < n → Short (Completable Never Never (Read TableItems) s) (tableItems s)
  tableItem {s} : s.rank 5 < n →
    Short (Completable Never (joinsExpression ·) (Read TableItem) s) (tableItem s)
  routine {s} : s.rank 0 < n →
    Short (Completable (· = .operator .roundLeft) Never (Read RoutineBody) s) (routine s)
  block {closers returned s} : s.rank 3 < n →
    Short (Completable (· = .keyword closers.last) Never
      (fun s t => ∃ body, Block closers returned s body closers.last t) s)
      (block closers returned s)
  statement {s} : s.rank 2 < n →
    Short (Completable (· = .keyword .break_) (joinsStatement ·) (Read Statement) s) (statement s)
  returnValues {s} : s.rank 4 < n →
    Short (Completable Never (joinsExpressions ·) (Read ReturnValues) s) (returnValues s)
  branches {s} : s.rank 5 < n →
    Short (Completable Never Never (fun s t => ∃ list otherwise, Branches s list otherwise t) s)
      (branches s)
  forLoop {anchor s} : s.rank 0 < n →
    Short (Completable IsName Never (fun s t => ∀ anchor, ∃ loop, ForLoop anchor s loop t) s)
      (forLoop anchor s)
  stepValue {s} : s.rank 0 < n →
    Short (Completable Never (joinsExpression ·) (Read StepValue) s) (stepValue s)
  assignmentOrCall {s} : s.rank 1 < n →
    Short (Completable IsName (joinsStatement ·) (Read AssignmentOrCall) s) (assignmentOrCall s)
  assignment {anchor first s} : s.rank 1 < n →
    Short (Completable (· = .operator .equal) (joinsExpressions ·)
      (fun s t => ∀ anchor first, ∃ stmt, Assignment anchor first s stmt t) s)
      (assignment anchor first s)
  moreTargets {s} : s.rank 0 < n →
    Short (Completable Never (joinsExpressions ·) (Read MoreTargets) s) (moreTargets s)
  oneTarget {s} : s.rank 1 < n →
    Short (Completable IsName (startsSuffix ·) (Read OneTarget) s) (oneTarget s)

/-- `do` and a block up to its `end`. -/
inductive DoBlock : Stream → Syntax.Block → Stream → Prop
  | intro {n ts body k t} : Block .atEnd false ⟨n + 1, ts⟩ body k t →
    DoBlock ⟨n, .keyword .do_ :: ts⟩ body t

namespace DoBlock
variable {n m : TokenIndex} {ts us : List Token} {s r t : Stream} {body : Syntax.Block}

theorem whileLoop {e : Expr} (he : Expression 0 ⟨n + 1, ts⟩ e s) (h : DoBlock s body t) :
    Statement ⟨n, .keyword .while_ :: ts⟩ (.whileLoop n e body) t := by
  cases h with
  | intro h => exact .whileLoop he h

theorem numeric {anchor : TokenIndex} {counter : Syntax.TypedName} {start stop : Expr}
    {step : Option Expr} {s₁ : Stream}
    (hc : Listed TypedName r [counter] ⟨n, .operator .equal :: ts⟩)
    (ha : Expression 0 ⟨n + 1, ts⟩ start ⟨m, .operator .comma :: us⟩)
    (hb : Expression 0 ⟨m + 1, us⟩ stop s₁) (hs : StepValue s₁ step s) (h : DoBlock s body t) :
    ForLoop anchor r (.numericFor anchor counter start stop step body) t := by
  cases h with
  | intro h => exact .numeric hc ha hb hs h

theorem generic {anchor : TokenIndex} {names : List Syntax.TypedName} {iterators : List Expr}
    (hn : Listed TypedName r names ⟨n, .keyword .in_ :: ts⟩)
    (hi : Expressions ⟨n + 1, ts⟩ iterators s) (h : DoBlock s body t) :
    ForLoop anchor r (.genericFor anchor names iterators body) t := by
  cases h with
  | intro h => exact .generic hn hi h

end DoBlock

/-- The end of every loop that has a `do`. -/
theorem short_doBlock {n : Nat} {s : Stream} {β : Type} {f : Parsed s Unit → Except ParseError β}
    (ih : ShortBelow n) (hs : s.rank 3 < n)
    (hf : ∀ p, ∃ g : Parsed p.rest (Syntax.Block × Keyword) → β,
      f p = block .atEnd false p.rest >>= fun q => .ok (g q)) :
    Short (Completable (· = .keyword .do_) Never (Read DoBlock) s) (keyword .do_ s >>= f) := by
  refine Short.afterKeyword ?_ ?_
  · rintro m rfl
    exact .tokens [.keyword .do_, .keyword .end_] (resumes_token rfl)
      fun rest _ => ⟨_, _, .intro (.empty rfl)⟩
  rintro m us h rfl
  obtain ⟨g, hg⟩ := hf ⟨(), ⟨m + 1, us⟩, h⟩
  rw [hg]
  refine .bind ((ih.block (Nat.lt_trans (h.below (by decide)) hs)).mono fun h => ?_) fun _ _ => .ok
  exact h.ends (List.cons_ne_nil _ _) (fun _ => False.elim) fun _ h => ⟨_, .intro h⟩

section
variable {s : Stream}

theorem short_typeTest {anchor : TokenIndex} {e : Expr} :
    Short (Completable Never (joinsExpression ·)
      (fun s t => ∀ anchor e, ∃ e', TypeTest anchor e s e' t) s) (typeTest anchor e s) := by
  rw [typeTest]
  split
  · next s₁ h₁ hk =>
    obtain ⟨n, ts, rfl, rfl⟩ := keyword?_some hk
    refine .bind (short_typeExpr.mono fun h => ?_) fun _ _ => .ok
    refine h.within (List.cons_ne_nil _ _) []
      (fun _ hrest => hrest.mono fun _ => joinsExpression_of_joinsType) ?_
    rintro us rest - - m ⟨type, h⟩
    exact ⟨m, fun anchor e => ⟨_, .is h⟩⟩
  · exact .ok

theorem short_expression {floor : Nat} (ih : ShortBelow (s.rank 4)) :
    Short (Completable Never (joinsExpression ·) (Read (Expression floor)) s)
      (expression floor s) := by
  rw [expression]
  refine .bind (ih.expression? (Stream.rank_lt (by decide))) fun e? _ => ?_
  cases e? with
  | none => exact .error (by rintro _ ⟨⟩)
  | some e => exact .ok

theorem short_expression? {floor : Nat} (ih : ShortBelow (s.rank 3)) :
    Short (Completable Never (joinsExpression ·) (Read (Expression floor)) s)
      (expression? floor s) := by
  rw [expression?]
  refine .bind ((ih.operand? (Stream.rank_lt (by decide))).mono fun h => ?_) fun e? he => ?_
  · refine h.begins (fun _ h => h) [] (fun _ hrest => hrest) ?_
    rintro us rest - hrest m ⟨e, h⟩
    exact ⟨_, _, h.expression hrest⟩
  obtain _ | ⟨e₁, s₁, h₁⟩ := e?
  · exact .ok
  have he := (sound _).operand? (Nat.lt_succ_self _) he
  refine .bind (short_typeTest.mono fun h => ?_) ?_
  · refine h.within h₁.ne_nil [] (fun _ hrest => hrest) ?_
    intro us rest hus hrest m h
    obtain ⟨e', h⟩ := h (0 + s.next) (e₁.mapAnchor (0 + ·))
    exact ⟨_, _, .intro (he.relocate (apart_of_ne_nil hus.ne_nil)) h
      (.done (hrest.mono fun _ => joinsExpression_of_bindsAbove))⟩
  rintro ⟨e₂, s₂, h₂⟩ ht
  have ht := reads_typeTest ht
  have h₂' := h₂.follows h₁
  refine .bind ((ih.operations (h₂'.below (by decide))).mono fun h => ?_) fun _ _ => .ok
  refine h.within h₁.ne_nil [] (fun _ hrest => hrest) ?_
  intro us rest hus _ m h
  obtain ⟨e', h⟩ := h (0 + s.next) (e₂.mapAnchor (0 + ·))
  have hs₂ : s₂.Apart (joinsExpression ·) us := apart_of_ne_nil hus.ne_nil
  exact ⟨_, _, .intro (he.relocate (hs₂.before ht.leaves.isRest)) (ht.relocate hs₂) h⟩

theorem short_operand? (ih : ShortBelow (s.rank 2)) :
    Short (Completable Never (joinsExpression ·) (Read Operand) s) (operand? s) := by
  rw [operand?]
  split
  · next op s₁ h₁ ht =>
    obtain ⟨n, u, ts, rfl, rfl, hu⟩ := tokenWith?_some ht
    refine .bind ((ih.expression (h₁.below (by decide))).mono fun h => ?_) fun _ _ => .ok
    exact h.ends (List.cons_ne_nil _ _) (fun _ h => h) fun _ h => ⟨_, .unary hu h⟩
  · exact ih.atom? (Stream.rank_lt (by decide))

theorem short_operations {floor : Nat} {anchor : TokenIndex} {left : Expr}
    (ih : ShortBelow (s.rank 0)) :
    Short (Completable Never (joinsExpression ·)
      (fun s t => ∀ anchor left, ∃ e, Operations floor anchor left s e t) s)
      (operations floor anchor left s) := by
  rw [operations]
  split
  · next op s₁ h₁ hb =>
    obtain ⟨n, u, ts, rfl, rfl, hu, hl⟩ := binaryOp?_some hb
    refine .bind ((ih.expression (h₁.below (by decide))).mono fun h => ?_) ?_
    · refine h.within (List.cons_ne_nil _ _) [] (fun _ hrest => hrest) ?_
      rintro us rest - hrest m ⟨right, h⟩
      exact ⟨_, fun anchor left => ⟨_, .more hu hl h
        (.done (hrest.mono fun _ => joinsExpression_of_bindsAbove))⟩⟩
    rintro ⟨right, s₂, h₂⟩ hr
    have hr := (sound _).expression (Nat.lt_succ_self _) hr
    have h₂' := h₂.trans h₁
    refine .bind ((ih.operations (h₂'.below (by decide))).mono fun h => ?_) fun _ _ => .ok
    refine h.within (List.cons_ne_nil _ _) [] (fun _ hrest => hrest) ?_
    intro us rest hus _ m h
    refine ⟨m, fun anchor left => ?_⟩
    obtain ⟨e, h⟩ := h anchor (.binary anchor op left (right.mapAnchor (0 + ·)))
    exact ⟨e, .more hu hl (hr.relocate (apart_of_ne_nil hus.ne_nil)) h⟩
  · exact .ok

theorem short_atom? (ih : ShortBelow (s.rank 1)) :
    Short (Completable Never (joinsExpression ·) (Read Operand) s) (atom? s) := by
  rw [atom?]
  split
  · exact .ok
  · split
    · next s₁ h₁ ht =>
      obtain ⟨n, ts, rfl, rfl⟩ := token?_some ht
      refine .bind ((ih.tableItems (h₁.below (by decide))).mono fun h => ?_) fun _ _ => .ok
      exact h.ends (List.cons_ne_nil _ _) (fun _ => False.elim) fun _ h => ⟨_, .table h⟩
    · next s₁ h₁ ht =>
      obtain ⟨n, ts, rfl, rfl⟩ := token?_some ht
      refine .bind ((ih.routine (h₁.below (by decide))).mono fun h => ?_) fun _ _ => .ok
      exact h.ends (List.cons_ne_nil _ _) (fun _ => False.elim) fun _ h => ⟨_, .routine h⟩
    iterate 2
      · next s₁ h₁ ht =>
        refine .bind ((ih.chain (Stream.rank_lt (by decide))).mono fun h => ?_) fun _ _ => .ok
        refine h.within h₁.ne_nil [] (fun _ _ => stops_never) ?_
        intro us rest _ hrest m h
        obtain ⟨e, h⟩ := h.done (hrest.mono fun _ => joinsExpression_of_startsSuffix)
        exact ⟨_, _, .chain h⟩
    · exact .ok

theorem short_chain (ih : ShortBelow (s.rank 0)) :
    Short (Completable IsName Never OpenChain s) (chain s) := by
  rw [chain]
  split
  · next w s₁ h₁ ht =>
    obtain ⟨n, ts, rfl, rfl⟩ := token?_some ht
    refine .bind ((ih.suffixes (h₁.below (by decide))).mono fun h => ?_) fun _ _ => .ok
    exact h.chain (List.cons_ne_nil _ _) fun us => ⟨_, _, fun _ _ hw => .name hw⟩
  · next s₁ h₁ ht =>
    obtain ⟨n, ts, rfl, rfl⟩ := token?_some ht
    refine .bind ((ih.expression (h₁.below (by decide))).mono fun h => ?_) ?_
    · refine h.within (List.cons_ne_nil _ _) [.operator .roundRight]
        (fun _ _ => stops_cons.2 (by decide)) ?_
      rintro us rest - - m ⟨e, h⟩
      exact ⟨_, _, _, fun _ _ hw => .parenthesized h hw⟩
    rintro ⟨inner, s₂, h₂⟩ hi
    have hi := (sound _).expression (Nat.lt_succ_self _) hi
    have h₂' := h₂.trans h₁
    refine Short.afterOperator ?_ ?_
    · rintro m rfl
      refine .tokens [.operator .roundRight] resumes_cons fun rest _ => ?_
      exact ⟨_, _, _, fun _ _ hw => .parenthesized (hi.relocate (apart_token (by decide))) hw⟩
    rintro m us h₃ rfl
    have h₃' := h₃.trans h₂'
    refine .bind ((ih.suffixes (h₃'.below (by decide))).mono fun h => ?_) fun _ _ => .ok
    exact h.chain (List.cons_ne_nil _ _)
      fun us => ⟨_, _, fun _ _ hw => .parenthesized (hi.relocate apart_cons) hw⟩
  · refine short_unexpected ?_
    rintro n rfl
    exact .tokens [.name "x"] (resumes_token ⟨_, rfl⟩) fun rest _ =>
      ⟨_, _, _, fun _ _ hw => .name hw⟩

section
variable (anchor : TokenIndex) (e : Expr) {n : TokenIndex} {ts : List Token}

theorem short_element (ih : ShortBelow (rank ⟨n, .operator .squareLeft :: ts⟩ 1)) :
    Short (Completable Never Never OpenSuffixes ⟨n, .operator .squareLeft :: ts⟩)
      (suffixes anchor e ⟨n, .operator .squareLeft :: ts⟩) := by
  have h₁ := tail_follows n (.operator .squareLeft) ts
  rw [suffixes]
  refine .bind ((ih.expression (h₁.below (by decide))).mono fun h => ?_) ?_
  · refine h.within (List.cons_ne_nil _ _) [.operator .squareRight]
      (fun _ _ => stops_cons.2 (by decide)) ?_
    rintro us rest - - m ⟨key, h⟩
    exact ⟨_, fun _ _ => ⟨_, fun _ _ hw => .element h hw⟩⟩
  rintro ⟨key, s₂, h₂⟩ hk
  have hk := (sound _).expression (Nat.lt_succ_self _) hk
  have h₂' := h₂.trans h₁
  refine Short.afterOperator ?_ ?_
  · rintro m rfl
    refine .tokens [.operator .squareRight] resumes_cons fun rest _ => ?_
    exact ⟨_, fun _ _ => ⟨_, fun _ _ hw => .element (hk.relocate (apart_token (by decide))) hw⟩⟩
  rintro m us h₃ rfl
  have h₃' := h₃.trans h₂'
  refine .bind ((ih.suffixes (h₃'.below (by decide))).mono fun h => ?_) fun _ _ => .ok
  exact h.suffixes (List.cons_ne_nil _ _)
    fun us _ _ => ⟨_, fun _ _ hw => .element (hk.relocate apart_cons) hw⟩

theorem short_method (ih : ShortBelow (rank ⟨n, .operator .colon :: ts⟩ 1)) :
    Short (Completable Never Never OpenSuffixes ⟨n, .operator .colon :: ts⟩)
      (suffixes anchor e ⟨n, .operator .colon :: ts⟩) := by
  have h₁ := tail_follows n (.operator .colon) ts
  rw [suffixes]
  refine Short.afterName ?_ ?_
  · rintro _ ⟨⟩
    exact .tokens [.name "x", .operator .roundLeft, .operator .roundRight] resumes_cons
      fun rest _ => ⟨_, fun _ _ => ⟨_, fun _ _ hw => .method .none hw⟩⟩
  rintro m method us h₂ ⟨⟩
  have h₂' := h₂.trans h₁
  refine .bind ((ih.arguments (h₂'.below (by decide))).mono fun h => ?_) ?_
  · refine h.within (List.cons_ne_nil _ _) [] (fun _ _ => stops_never) ?_
    rintro us' rest - - k ⟨args, h⟩
    exact ⟨_, fun _ _ => ⟨_, fun _ _ hw => .method h hw⟩⟩
  rintro ⟨args, s₃, h₃⟩ ha
  have ha := (sound _).arguments (Nat.lt_succ_self _) ha
  have h₃' := h₃.trans h₂'
  refine .bind ((ih.suffixes (h₃'.below (by decide))).mono fun h => ?_) fun _ _ => .ok
  exact h.suffixes (List.cons_ne_nil _ _) fun us _ _ => ⟨_, fun _ _ hw => .method ha.relocate hw⟩

end

theorem short_suffixes {anchor : TokenIndex} {e : Expr} (ih : ShortBelow (s.rank 1)) :
    Short (Completable Never Never OpenSuffixes s) (suffixes anchor e s) := by
  rw [suffixes]
  -- An index, a field, a method call, and three tokens with which arguments begin.
  split
  · next ht =>
    obtain ⟨n, ts, rfl, rfl⟩ := token?_some ht
    have h := short_element anchor e ih
    rw [suffixes] at h
    exact h
  · next s₁ h₁ ht =>
    obtain ⟨n, ts, rfl, rfl⟩ := token?_some ht
    refine Short.afterName ?_ ?_
    · rintro _ ⟨⟩
      exact .tokens [.name "x"] resumes_cons fun rest _ =>
        ⟨_, fun _ _ => ⟨_, fun _ _ hw => .field hw⟩⟩
    rintro m field us h₂ ⟨⟩
    have h₂' := h₂.trans h₁
    refine .bind ((ih.suffixes (h₂'.below (by decide))).mono fun h => ?_) fun _ _ => .ok
    exact h.suffixes (List.cons_ne_nil _ _) fun us _ _ => ⟨_, fun _ _ hw => .field hw⟩
  · next ht =>
    obtain ⟨n, ts, rfl, rfl⟩ := token?_some ht
    have h := short_method anchor e ih
    rw [suffixes] at h
    exact h
  iterate 3
    · next _ hs _ =>
      refine .bind ((ih.arguments (Stream.rank_lt (by decide))).mono fun h => ?_) ?_
      · refine h.within hs.ne_nil [] (fun _ _ => stops_never) ?_
        rintro us rest - - k ⟨args, h⟩
        exact ⟨_, fun _ _ => ⟨_, fun _ _ hw => .call h hw⟩⟩
      rintro ⟨args, s₁, h₁⟩ ha
      have ha := (sound _).arguments (Nat.lt_succ_self _) ha
      refine .bind ((ih.suffixes (h₁.below (by decide))).mono fun h => ?_) fun _ _ => .ok
      exact h.suffixes hs.ne_nil fun us _ _ => ⟨_, fun _ _ hw => .call ha.relocate hw⟩
  · exact .ok

theorem short_arguments (ih : ShortBelow (s.rank 0)) :
    Short (Completable (· = .operator .roundLeft) Never (Read Arguments) s) (arguments s) := by
  rw [arguments]
  split
  · next s₁ h₁ ht =>
    obtain ⟨n, ts, rfl, rfl⟩ := token?_some ht
    split
    · exact .ok
    · refine .bind ((ih.expressions (h₁.below (by decide))).mono fun h => ?_) ?_
      · refine h.within (List.cons_ne_nil _ _) [.operator .roundRight]
          (fun _ _ => stops_cons.2 (by decide)) ?_
        rintro us rest - - m ⟨args, h⟩
        exact ⟨_, _, .list h⟩
      rintro ⟨args, s₂, h₂⟩ ha
      have ha := (sound _).expressions (Nat.lt_succ_self _) ha
      refine .bind (short_operator.mono ?_) fun _ _ => .ok
      rintro ⟨m, rfl⟩
      refine .tokens [.operator .roundRight] resumes_cons fun rest _ => ?_
      exact ⟨_, _, .list (ha.relocate (apart_token (by decide)))⟩
  · next s₁ h₁ ht =>
    obtain ⟨n, ts, rfl, rfl⟩ := token?_some ht
    refine .bind ((ih.tableItems (h₁.below (by decide))).mono fun h => ?_) fun _ _ => .ok
    exact h.ends (List.cons_ne_nil _ _) (fun _ => False.elim) fun _ h => ⟨_, .table h⟩
  · exact .ok
  · refine short_unexpected ?_
    rintro n rfl
    exact .tokens [.operator .roundLeft, .operator .roundRight] (resumes_token rfl)
      fun rest _ => ⟨_, _, .none⟩

theorem short_expressions (ih : ShortBelow (s.rank 5)) :
    Short (Completable Never (joinsExpressions ·) (Read Expressions) s) (expressions s) := by
  rw [expressions]
  refine .bind ((ih.expression (Stream.rank_lt (by decide))).mono fun h => ?_) ?_
  · refine h.begins (fun _ h => h) []
      (fun _ hrest => hrest.mono fun _ => joinsExpressions_of_joinsExpression) ?_
    rintro us rest - hrest m ⟨e, h⟩
    exact ⟨_, _, .intro h (.done (hrest.mono (by rintro _ rfl; rfl)))⟩
  rintro ⟨first, s₁, h₁⟩ he
  have he := (sound _).expression (Nat.lt_succ_self _) he
  refine .bind ((ih.moreExpressions (h₁.below (by decide))).mono fun h => ?_) fun _ _ => .ok
  exact h.ends h₁.ne_nil (fun _ h => h)
    fun hus h => ⟨_, .intro (he.relocate (apart_of_ne_nil hus.ne_nil)) h⟩

theorem short_moreExpressions (ih : ShortBelow (s.rank 0)) :
    Short (Completable Never (joinsExpressions ·) (Read MoreExpressions) s)
      (moreExpressions s) := by
  rw [moreExpressions]
  split
  · next s₁ h₁ ho =>
    obtain ⟨n, ts, rfl, rfl⟩ := operator?_some ho
    refine .bind ((ih.expressions (h₁.below (by decide))).mono fun h => ?_) fun _ _ => .ok
    exact h.ends (List.cons_ne_nil _ _) (fun _ h => h) fun _ h => ⟨_, .more h⟩
  · exact .ok

theorem short_tableItems (ih : ShortBelow (s.rank 6)) :
    Short (Completable Never Never (Read TableItems) s) (tableItems s) := by
  rw [tableItems]
  split
  · exact .ok
  · refine .bind ((ih.tableItem (Stream.rank_lt (by decide))).mono fun h => ?_) ?_
    · refine h.begins (fun _ h => h) [.operator .curlyRight]
        (fun _ _ => stops_cons.2 (by decide)) ?_
      rintro us rest - - m ⟨x, h⟩
      exact ⟨_, _, .last h⟩
    rintro ⟨first, s₁, h₁⟩ hx
    have hx := (sound _).tableItem (Nat.lt_succ_self _) hx
    dsimp only
    split
    · next s₂ h₂ ht =>
      have h₂' := h₂.trans h₁
      obtain ⟨n, u, ts, rfl, rfl, hu⟩ := tokenWith?_some ht
      refine .bind ((ih.tableItems (h₂'.below (by decide))).mono fun h => ?_) fun _ _ => .ok
      exact h.ends h₁.ne_nil (fun _ => False.elim)
        fun _ h => ⟨_, .more (hx.relocate apart_cons apart_cons) hu h⟩
    · refine .bind (short_operator.mono ?_) fun _ _ => .ok
      rintro ⟨m, rfl⟩
      refine .tokens [.operator .curlyRight] (resumes_of_ne_nil h₁.ne_nil) fun rest _ => ?_
      exact ⟨_, _, .last (hx.relocate (apart_token (by decide)) (apart_token (by simp)))⟩

/-- A single name is an expression, so that is not too short. -/
theorem short_expression_name {C : Prop} {n : TokenIndex} {w : String} :
    Short C (expression 0 ⟨n, [.name w]⟩) := by
  have h : Expression 0 ⟨n, [.name w]⟩ (.name n w) ⟨n + 1, []⟩ :=
    Operand.expression (.chain (.name (.done stops_nil))) stops_nil
  obtain ⟨_, h⟩ := h.offers.yields
  rw [h]
  exact .ok

theorem short_tableItem (ih : ShortBelow (s.rank 5)) :
    Short (Completable Never (joinsExpression ·) (Read TableItem) s) (tableItem s) := by
  rw [tableItem]
  split
  · next s₁ h₁ ho =>
    obtain ⟨n, ts, rfl, rfl⟩ := operator?_some ho
    refine .bind ((ih.expression (h₁.below (by decide))).mono fun h => ?_) ?_
    · refine h.within (List.cons_ne_nil _ _)
        [.operator .squareRight, .operator .equal, .keyword .nil_]
        (fun _ _ => stops_cons.2 (by decide)) ?_
      rintro us rest - hrest m ⟨key, h⟩
      exact ⟨_, _, .keyed h (.nil hrest)⟩
    rintro ⟨key, s₂, h₂⟩ hk
    have hk := (sound _).expression (Nat.lt_succ_self _) hk
    have h₂' := h₂.trans h₁
    refine Short.afterOperator ?_ ?_
    · rintro m rfl
      refine .tokens [.operator .squareRight, .operator .equal, .keyword .nil_] resumes_cons
        fun rest hrest => ?_
      exact ⟨_, _, .keyed (hk.relocate (apart_token (by decide))) (.nil hrest)⟩
    rintro m us h₃ rfl
    have h₃' := h₃.trans h₂'
    refine Short.afterOperator ?_ ?_
    · rintro _ ⟨⟩
      refine .tokens [.operator .equal, .keyword .nil_] resumes_cons fun rest hrest => ?_
      exact ⟨_, _, .keyed (hk.relocate apart_cons) (.nil hrest)⟩
    rintro _ vs h₄ ⟨⟩
    have h₄' := h₄.trans h₃'
    refine .bind ((ih.expression (h₄'.below (by decide))).mono fun h => ?_) fun _ _ => .ok
    exact h.ends (List.cons_ne_nil _ _) (fun _ h => h)
      fun _ h => ⟨_, .keyed (hk.relocate apart_cons) h⟩
  · split
    · next w s₁ h₁ hf =>
      obtain ⟨n, ts, rfl, rfl⟩ := fieldName?_some hf
      refine .bind ((ih.expression (h₁.below (by decide))).mono fun h => ?_) fun _ _ => .ok
      exact h.ends (List.cons_ne_nil _ _) (fun _ h => h) fun _ h => ⟨_, .named h⟩
    · next hf =>
      by_cases hname : ∃ n w, s = ⟨n, [.name w]⟩
      · obtain ⟨n, w, rfl⟩ := hname
        exact .bind short_expression_name fun _ _ => .ok
      refine .bind ((ih.expression (Stream.rank_lt (by decide))).mono fun h => ?_) fun _ _ => .ok
      refine h.begins (fun _ h => h) [] (fun _ hrest => hrest) ?_
      rintro us rest hus - m ⟨value, h⟩
      refine ⟨_, _, .positional (fieldName?_relocate hus.ne_nil (fun w hw => ?_) hf) h⟩
      exact absurd ⟨s.next, w, by rw [← hw]⟩ hname

theorem short_routine (ih : ShortBelow (s.rank 0)) :
    Short (Completable (· = .operator .roundLeft) Never (Read RoutineBody) s) (routine s) := by
  rw [routine]
  refine .bind (short_signature.mono fun h => ?_) ?_
  · refine h.begins (fun _ h => h) [.keyword .end_] (fun _ _ => stops_cons.2 (by decide)) ?_
    rintro us rest - - m ⟨sig, h⟩
    exact ⟨_, _, .intro h (.empty rfl)⟩
  rintro ⟨sig, s₁, h₁⟩ hsig
  have hsig := reads_signature hsig
  refine .bind ((ih.block (h₁.below (by decide))).mono fun h => ?_) fun _ _ => .ok
  exact h.ends h₁.ne_nil (fun _ => False.elim)
    fun hus h => ⟨_, .intro (hsig.relocate (hus.apart (by rintro _ rfl; decide))) h⟩

theorem short_block {closers : Closers} {returned : Bool} (ih : ShortBelow (s.rank 3)) :
    Short (Completable (· = .keyword closers.last) Never
      (fun s t => ∃ body, Block closers returned s body closers.last t) s)
      (block closers returned s) := by
  have h₁ := (semicolons s).rest_isRest
  have hlast := not_joinsStatement_of_accept closers.accept_last
  rw [block]
  dsimp only
  split
  · exact .ok
  · split
    · next he =>
      refine .error fun _ _ => ?_
      refine .tokens [.keyword closers.last] (resumes_token rfl) fun rest _ => ?_
      have hr : ∃ m, (semicolons s).rest = ⟨m, []⟩ := by
        generalize (semicolons s).rest = r at he
        obtain ⟨m, _ | ⟨u, us⟩⟩ := r
        · exact ⟨m, rfl⟩
        · cases he
      obtain ⟨m, hr⟩ := hr
      have hclose : (semicolons (s.relocate 0 (.keyword closers.last :: rest))).rest = _ :=
        semicolons_relocate (apart_token (by simp))
      rw [hr] at hclose
      exact ⟨_, [], .close hclose closers.accept_last⟩
    · next u _ =>
      split
      · exact .error (by rintro _ ⟨⟩)
      · next hret =>
        rw [Bool.not_eq_true] at hret
        subst hret
        have hne := u.rest_follows.ne_nil
        have hs : s.left ≠ [] := fun hs => hne (h₁.left_eq_nil hs)
        refine .bind ((ih.statement (h₁.rank_lt (by decide))).mono fun h => ?_) ?_
        · refine h.within hs [.keyword closers.last] (fun _ _ => stops_cons.2 hlast) ?_
          rintro us rest - - m ⟨stmt, h⟩
          rw [← semicolons_relocate (apart_of_ne_nil hne)] at h
          exact ⟨_, _, .cons h (.empty closers.accept_last)⟩
        rintro ⟨first, s₂, h₂⟩ hf
        have hf := (sound _).statement (Nat.lt_succ_self _) hf
        have h₂' := h₂.ofRest h₁
        refine .bind ((ih.block (h₂'.below (by decide))).mono fun h => ?_) fun _ _ => .ok
        refine h.within hs [] (fun _ _ => stops_never) ?_
        rintro us rest hus - m ⟨body, h⟩
        have hf := hf.relocate (k := 0) (hus.apart (by rintro _ rfl; exact hlast))
          fun _ => hus.apart (by rintro _ rfl; simp)
        rw [← semicolons_relocate (apart_of_ne_nil hne)] at hf
        rw [← isLast_mapAnchor (0 + ·)] at h
        exact ⟨_, _, .cons hf h⟩

/-- What the reader of statements cannot finish at `s` can be completed. -/
abbrev ShortStatement (s : Stream) : Prop :=
  Short (Completable (· = .keyword .break_) (joinsStatement ·) (Read Statement) s) (statement s)

section
variable {n : TokenIndex} {ts : List Token}

theorem short_whileLoop (ih : ShortBelow (rank ⟨n, .keyword .while_ :: ts⟩ 2)) :
    ShortStatement ⟨n, .keyword .while_ :: ts⟩ := by
  have h₁ := tail_follows n (.keyword .while_) ts
  rw [ShortStatement, statement]
  refine .bind ((ih.expression (h₁.below (by decide))).mono fun h => ?_) ?_
  · refine h.within (List.cons_ne_nil _ _) [.keyword .do_, .keyword .end_]
      (fun _ _ => stops_cons.2 (by decide)) ?_
    rintro us rest - - m ⟨e, h⟩
    exact ⟨_, _, .whileLoop h (.empty rfl)⟩
  rintro ⟨e, s₂, h₂⟩ he
  have he := (sound _).expression (Nat.lt_succ_self _) he
  refine (short_doBlock ih ((h₂.trans h₁).below (by decide)) fun _ => ⟨_, rfl⟩).mono fun h => ?_
  exact h.ends (List.cons_ne_nil _ _) (fun _ => False.elim)
    fun hus h => ⟨_, h.whileLoop (he.relocate (hus.apart (by rintro _ rfl; decide)))⟩

theorem short_repeatLoop (ih : ShortBelow (rank ⟨n, .keyword .repeat_ :: ts⟩ 2)) :
    ShortStatement ⟨n, .keyword .repeat_ :: ts⟩ := by
  have h₁ := tail_follows n (.keyword .repeat_) ts
  rw [ShortStatement, statement]
  refine .bind ((ih.block (h₁.below (by decide))).mono fun h => ?_) ?_
  · refine h.within (List.cons_ne_nil _ _) [.keyword .nil_] (fun _ _ => stops_never) ?_
    rintro us rest - hrest m ⟨body, h⟩
    have hnil := hrest.mono fun _ => joinsStatement_of_joinsExpression
    exact ⟨_, _, .repeatLoop h (.nil hnil)⟩
  rintro ⟨⟨body, closer⟩, s₂, h₂⟩ hb
  have hb := (sound _).block (Nat.lt_succ_self _) hb
  have h₂' := h₂.trans h₁
  refine .bind ((ih.expression (h₂'.below (by decide))).mono fun h => ?_) fun _ _ => .ok
  exact h.ends (List.cons_ne_nil _ _) (fun _ => joinsStatement_of_joinsExpression)
    fun _ h => ⟨_, .repeatLoop hb.relocate h⟩

theorem short_routineStatement (ih : ShortBelow (rank ⟨n, .keyword .function_ :: ts⟩ 2)) :
    ShortStatement ⟨n, .keyword .function_ :: ts⟩ := by
  have h₁ := tail_follows n (.keyword .function_) ts
  rw [ShortStatement, statement]
  refine .bind (short_path.mono fun h => ?_) ?_
  · refine h.within (List.cons_ne_nil _ _)
      [.operator .roundLeft, .operator .roundRight, .keyword .end_]
      (fun _ _ => stops_cons.2 (by decide)) ?_
    rintro us rest - - m ⟨names, isMethod, h⟩
    exact ⟨_, _, .routine h .empty⟩
  rintro ⟨⟨names, isMethod⟩, s₂, h₂⟩ hp
  have hp := reads_path hp
  have h₂' := h₂.trans h₁
  refine .bind ((ih.routine (h₂'.below (by decide))).mono fun h => ?_) fun _ _ => .ok
  exact h.ends (List.cons_ne_nil _ _) (fun _ => False.elim)
    fun hus h => ⟨_, .routine (hp.relocate (hus.apart (by rintro _ rfl; decide))) h⟩

theorem short_local (ih : ShortBelow (rank ⟨n, .keyword .local_ :: ts⟩ 2)) :
    ShortStatement ⟨n, .keyword .local_ :: ts⟩ := by
  have h₁ := tail_follows n (.keyword .local_) ts
  rw [ShortStatement, statement]
  simp only [token?_cons]
  split
  · next s₂ h₂ hk =>
    have h₂' := h₂.trans h₁
    obtain ⟨_, us, he, rfl⟩ := keyword?_some hk
    cases he
    refine Short.afterName ?_ ?_
    · rintro _ ⟨⟩
      exact .tokens [.name "x", .operator .roundLeft, .operator .roundRight, .keyword .end_]
        resumes_cons fun rest _ => ⟨_, _, .localRoutine .empty⟩
    rintro _ w vs h₃ ⟨⟩
    have h₃' := h₃.trans h₂'
    refine .bind ((ih.routine (h₃'.below (by decide))).mono fun h => ?_) fun _ _ => .ok
    exact h.ends (List.cons_ne_nil _ _) (fun _ => False.elim) fun _ h => ⟨_, .localRoutine h⟩
  · refine .bind (short_typedNames.mono fun h => ?_) ?_
    · refine h.within (List.cons_ne_nil _ _) []
        (fun _ hrest => hrest.mono fun _ => joinsStatement_of_joinsNames) ?_
      rintro us rest - hrest m ⟨names, h⟩
      exact ⟨_, _, .localNames h (hrest.mono (by rintro _ rfl; rfl))⟩
    rintro ⟨names, s₂, h₂⟩ hn
    have hn := reads_typedNames hn
    dsimp only
    split
    · next s₃ h₃ ho =>
      have h₃' := h₃.trans (h₂.trans h₁)
      obtain ⟨m, us, rfl, rfl⟩ := operator?_some ho
      refine .bind ((ih.expressions (h₃'.below (by decide))).mono fun h => ?_) fun _ _ => .ok
      exact h.ends (List.cons_ne_nil _ _) (fun _ => joinsStatement_of_joinsExpressions)
        fun _ h => ⟨_, .localValues (typedNames_relocate hn apart_cons) h⟩
    · exact .ok

theorem short_return (ih : ShortBelow (rank ⟨n, .keyword .return_ :: ts⟩ 2)) :
    ShortStatement ⟨n, .keyword .return_ :: ts⟩ := by
  rw [ShortStatement, statement]
  refine .bind ((ih.returnValues ((tail_follows ..).below (by decide))).mono fun h => ?_)
    fun _ _ => ?_
  · refine h.within (List.cons_ne_nil _ _) [.operator .semicolon]
      (fun _ _ => stops_cons.2 (by decide)) ?_
    rintro us rest - - m ⟨values, h⟩
    exact ⟨_, _, .returnEnded h⟩
  dsimp only
  split
  · exact .ok
  · exact .ok

theorem short_label : ShortStatement ⟨n, .operator .doubleColon :: ts⟩ := by
  rw [ShortStatement, statement]
  refine Short.afterName ?_ ?_
  · rintro _ ⟨⟩
    exact .tokens [.name "x", .operator .doubleColon] resumes_cons fun rest _ => ⟨_, _, .label⟩
  rintro _ w us h₂ ⟨⟩
  refine .bind (short_operator.mono ?_) fun _ _ => .ok
  rintro ⟨_, he⟩
  cases he
  exact .tokens [.operator .doubleColon] resumes_cons fun rest _ => ⟨_, _, .label⟩

end

theorem short_statement (ih : ShortBelow (s.rank 2)) : ShortStatement s := by
  cases s using statement_cases with
  | scope n ts =>
    rw [ShortStatement, statement]
    refine .bind ((ih.block ((tail_follows ..).below (by decide))).mono fun h => ?_) fun _ _ => .ok
    exact h.ends (List.cons_ne_nil _ _) (fun _ => False.elim) fun _ h => ⟨_, .scope h⟩
  | whileLoop n ts => exact short_whileLoop ih
  | repeatLoop n ts => exact short_repeatLoop ih
  | choice n ts =>
    rw [ShortStatement, statement]
    refine .bind ((ih.branches ((tail_follows ..).below (by decide))).mono fun h => ?_)
      fun _ _ => .ok
    refine h.within (List.cons_ne_nil _ _) [] (fun _ _ => stops_never) ?_
    rintro us rest - - m ⟨list, otherwise, h⟩
    exact ⟨_, _, .choice h⟩
  | forLoop n ts =>
    rw [ShortStatement, statement]
    refine .bind ((ih.forLoop ((tail_follows ..).below (by decide))).mono fun h => ?_)
      fun _ _ => .ok
    refine h.within (List.cons_ne_nil _ _) [] (fun _ _ => stops_never) ?_
    intro us rest _ _ m h
    obtain ⟨loop, h⟩ := h (0 + n)
    exact ⟨_, _, .forLoop h⟩
  | routine n ts => exact short_routineStatement ih
  | localNames n ts => exact short_local ih
  | returnValues n ts => exact short_return ih
  | breakLoop n ts =>
    rw [ShortStatement, statement]
    exact .ok
  | goto n ts =>
    rw [ShortStatement, statement]
    refine .bind (short_name.mono ?_) fun _ _ => .ok
    rintro ⟨_, he⟩
    cases he
    exact .tokens [.name "x"] resumes_cons fun rest _ => ⟨_, _, .goto⟩
  | label n ts => exact short_label
  | assignmentOrCall s hne hs =>
    rw [ShortStatement, hs]
    refine (ih.assignmentOrCall (Stream.rank_lt (by decide))).mono fun h => ?_
    exact h.ends hne (fun _ h => h) fun _ h => ⟨_, .assignmentOrCall h⟩
  | other s hs =>
    rw [ShortStatement, hs]
    refine short_unexpected ?_
    rintro n rfl
    exact .tokens [.keyword .break_] (resumes_token rfl) fun rest _ => ⟨_, _, .breakLoop⟩

theorem short_returnValues (ih : ShortBelow (s.rank 4)) :
    Short (Completable Never (joinsExpressions ·) (Read ReturnValues) s) (returnValues s) := by
  rw [returnValues]
  refine .bind ((ih.expression? (Stream.rank_lt (by decide))).mono fun h => ?_) fun e? he => ?_
  · refine h.begins (fun _ h => h) []
      (fun _ hrest => hrest.mono fun _ => joinsExpressions_of_joinsExpression) ?_
    rintro us rest - hrest m ⟨e, h⟩
    exact ⟨_, _, .list h (.done (hrest.mono (by rintro _ rfl; rfl)))⟩
  obtain _ | ⟨first, s₁, h₁⟩ := e?
  · exact .ok
  have he := (sound _).expression? (Nat.lt_succ_self _) he
  refine .bind ((ih.moreExpressions (h₁.below (by decide))).mono fun h => ?_) fun _ _ => .ok
  exact h.ends h₁.ne_nil (fun _ h => h)
    fun hus h => ⟨_, .list (he.relocate (apart_of_ne_nil hus.ne_nil)) h⟩

theorem short_branches (ih : ShortBelow (s.rank 5)) :
    Short (Completable Never Never (fun s t => ∃ list otherwise, Branches s list otherwise t) s)
      (branches s) := by
  rw [branches]
  refine .bind ((ih.expression (Stream.rank_lt (by decide))).mono fun h => ?_) ?_
  · refine h.begins (fun _ h => h) [.keyword .then_, .keyword .end_]
      (fun _ _ => stops_cons.2 (by decide)) ?_
    rintro us rest - - m ⟨e, h⟩
    exact ⟨_, _, _, .last h (.empty (k := .end_) rfl) (by simp) (by simp)⟩
  rintro ⟨condition, s₁, h₁⟩ he
  have he := (sound _).expression (Nat.lt_succ_self _) he
  refine Short.afterKeyword ?_ ?_
  · rintro m rfl
    refine .tokens [.keyword .then_, .keyword .end_] (resumes_of_ne_nil h₁.ne_nil)
      fun rest _ => ?_
    exact ⟨_, _, _, .last (he.relocate (apart_token (by decide))) (.empty (k := .end_) rfl)
      (by simp) (by simp)⟩
  rintro n ts h₂ rfl
  have h₂' := h₂.trans h₁
  refine .bind ((ih.block (h₂'.below (by decide))).mono fun h => ?_) ?_
  · refine h.within h₁.ne_nil [] (fun _ _ => stops_never) ?_
    rintro us rest - - m ⟨body, h⟩
    exact ⟨_, _, _, .last (he.relocate apart_cons) h (by decide) (by decide)⟩
  rintro ⟨⟨body, closer⟩, s₃, h₃⟩ hb
  have hb := (sound _).block (Nat.lt_succ_self _) hb
  have h₃' := h₃.trans h₂'
  dsimp only
  split
  · refine .bind ((ih.branches (h₃'.below (by decide))).mono fun h => ?_) fun _ _ => .ok
    refine h.within h₁.ne_nil [] (fun _ _ => stops_never) ?_
    rintro us rest - - m ⟨list, otherwise, h⟩
    exact ⟨_, _, _, .elseif (he.relocate apart_cons) hb.relocate h⟩
  · refine .bind ((ih.block (h₃'.below (by decide))).mono fun h => ?_) fun _ _ => .ok
    refine h.within h₁.ne_nil [] (fun _ _ => stops_never) ?_
    rintro us rest - - m ⟨body', h⟩
    exact ⟨_, _, _, .otherwise (he.relocate apart_cons) hb.relocate h⟩
  · exact .ok

theorem short_stepValue (ih : ShortBelow (s.rank 0)) :
    Short (Completable Never (joinsExpression ·) (Read StepValue) s) (stepValue s) := by
  rw [stepValue]
  split
  · next s₁ h₁ ho =>
    obtain ⟨n, ts, rfl, rfl⟩ := operator?_some ho
    refine .bind ((ih.expression (h₁.below (by decide))).mono fun h => ?_) fun _ _ => .ok
    exact h.ends (List.cons_ne_nil _ _) (fun _ h => h) fun _ h => ⟨_, .step h⟩
  · exact .ok

/-- What a `for` is completed to, whatever index its node is given. -/
abbrev OpenLoop (s t : Stream) : Prop := ∀ anchor, ∃ loop, ForLoop anchor s loop t

/-- Behind the name and `=`, where at most `, nil do end` is missing. -/
theorem short_numericLoop (anchor : TokenIndex) {n : TokenIndex} {ts : List Token}
    {counter : Syntax.TypedName} {h₁ : Follows ⟨n, .operator .equal :: ts⟩ s}
    (ih : ShortBelow (s.rank 0))
    (hr : typedNames s = .ok ⟨[counter], ⟨n, .operator .equal :: ts⟩, h₁⟩) :
    Short (Completable IsName Never OpenLoop s) (forLoop anchor s) := by
  have hn := reads_typedNames hr
  have h₂' := (tail_follows n (.operator .equal) ts).trans h₁
  rw [forLoop, hr]
  simp only [ok_bind, token?_cons]
  refine .bind ((ih.expression (h₂'.below (by decide))).mono fun h => ?_) ?_
  · refine h.within h₁.ne_nil [.operator .comma, .keyword .nil_, .keyword .do_, .keyword .end_]
      (fun _ _ => stops_cons.2 (by decide)) ?_
    rintro us rest - - m ⟨start, h⟩
    exact ⟨_, fun _ => ⟨_, .numeric (typedNames_relocate hn apart_cons) h
      (.nil (stops_cons.2 (by decide))) (.none (stops_cons.2 (by simp))) (.empty rfl)⟩⟩
  rintro ⟨start, s₃, h₃⟩ ha
  have ha := (sound _).expression (Nat.lt_succ_self _) ha
  have h₃' := h₃.trans h₂'
  refine Short.afterOperator ?_ ?_
  · rintro m rfl
    refine .tokens [.operator .comma, .keyword .nil_, .keyword .do_, .keyword .end_]
      (resumes_of_ne_nil h₁.ne_nil) fun rest _ => ?_
    exact ⟨_, fun _ => ⟨_, .numeric (typedNames_relocate hn apart_cons)
      (ha.relocate (apart_token (by decide))) (.nil (stops_cons.2 (by decide)))
      (.none (stops_cons.2 (by simp))) (.empty rfl)⟩⟩
  rintro m us h₄ rfl
  have h₄' := h₄.trans h₃'
  refine .bind ((ih.expression (h₄'.below (by decide))).mono fun h => ?_) ?_
  · refine h.within h₁.ne_nil [.keyword .do_, .keyword .end_]
      (fun _ _ => stops_cons.2 (by decide)) ?_
    rintro us' rest - - k ⟨stop, h⟩
    exact ⟨_, fun _ => ⟨_, .numeric (typedNames_relocate hn apart_cons)
      (ha.relocate apart_cons) h (.none (stops_cons.2 (by simp))) (.empty rfl)⟩⟩
  rintro ⟨stop, s₅, h₅⟩ hb
  have hb := (sound _).expression (Nat.lt_succ_self _) hb
  have h₅' := h₅.trans h₄'
  refine .bind ((ih.stepValue (h₅'.below (by decide))).mono fun h => ?_) ?_
  · refine h.within h₁.ne_nil [.keyword .do_, .keyword .end_]
      (fun _ _ => stops_cons.2 (by decide)) ?_
    rintro us' rest hus - k ⟨step, h⟩
    exact ⟨_, fun _ => ⟨_, .numeric (typedNames_relocate hn apart_cons)
      (ha.relocate apart_cons) (hb.relocate (apart_of_ne_nil hus.ne_nil)) h (.empty rfl)⟩⟩
  rintro ⟨step, s₆, h₆⟩ hs
  have hs := (sound _).stepValue (Nat.lt_succ_self _) hs
  have h₆' := h₆.follows h₅'
  refine (short_doBlock ih (h₆'.below (by decide)) fun _ => ⟨_, rfl⟩).mono fun h => ?_
  refine h.within h₁.ne_nil [] (fun _ _ => stops_never) ?_
  rintro us' rest hus - j ⟨body, h⟩
  have hjoins : s₆.Apart (joinsExpressions ·) us' := hus.apart (by rintro _ rfl; decide)
  exact ⟨_, fun _ => ⟨_, h.numeric (typedNames_relocate hn apart_cons) (ha.relocate apart_cons)
    (hb.relocate (apart_expression (hjoins.before h₆))) (hs.relocate hjoins)⟩⟩

theorem short_genericLoop (anchor : TokenIndex) {n : TokenIndex} {ts : List Token}
    {names : List Syntax.TypedName}
    {h₁ : Follows ⟨n, .keyword .in_ :: ts⟩ s} (ih : ShortBelow (s.rank 0))
    (hr : typedNames s = .ok ⟨names, ⟨n, .keyword .in_ :: ts⟩, h₁⟩) :
    Short (Completable IsName Never OpenLoop s) (forLoop anchor s) := by
  have hn := reads_typedNames hr
  have h₂' := (tail_follows n (.keyword .in_) ts).trans h₁
  rw [forLoop, hr]
  simp only [ok_bind, token?_cons]
  refine .bind ((ih.expressions (h₂'.below (by decide))).mono fun h => ?_) ?_
  · refine h.within h₁.ne_nil [.keyword .do_, .keyword .end_]
      (fun _ _ => stops_cons.2 (by decide)) ?_
    rintro us rest - - m ⟨iterators, h⟩
    exact ⟨_, fun _ => ⟨_, .generic (typedNames_relocate hn apart_cons) h (.empty rfl)⟩⟩
  rintro ⟨iterators, s₃, h₃⟩ hi
  have hi := (sound _).expressions (Nat.lt_succ_self _) hi
  have h₃' := h₃.trans h₂'
  refine (short_doBlock ih (h₃'.below (by decide)) fun _ => ⟨_, rfl⟩).mono fun h => ?_
  refine h.within h₁.ne_nil [] (fun _ _ => stops_never) ?_
  rintro us rest hus - k ⟨body, h⟩
  exact ⟨_, fun _ => ⟨_, h.generic (typedNames_relocate hn apart_cons)
    (hi.relocate (hus.apart (by rintro _ rfl; decide)))⟩⟩

theorem short_forLoop {anchor : TokenIndex} (ih : ShortBelow (s.rank 0)) :
    Short (Completable IsName Never OpenLoop s) (forLoop anchor s) := by
  rw [forLoop]
  refine .bind (short_typedNames.mono fun h => ?_) ?_
  · refine h.begins (fun _ h => h) [.keyword .in_, .keyword .nil_, .keyword .do_, .keyword .end_]
      (fun _ _ => stops_cons.2 (by decide)) ?_
    rintro us rest - - m ⟨names, h⟩
    exact ⟨_, fun _ => ⟨_, .generic h (.nil (stops_cons.2 (by decide))) (.empty rfl)⟩⟩
  rintro ⟨names, s₁, h₁⟩ hr
  dsimp only
  split
  · next ht =>
    obtain ⟨n, ts, rfl, rfl⟩ := token?_some ht
    have h := short_numericLoop anchor ih hr
    rw [forLoop, hr] at h
    exact h
  · next ht =>
    obtain ⟨n, ts, rfl, rfl⟩ := token?_some ht
    have h := short_genericLoop anchor ih hr
    rw [forLoop, hr] at h
    exact h
  · refine short_unexpected ?_
    rintro m rfl
    have hn := reads_typedNames hr
    refine .tokens [.keyword .in_, .keyword .nil_, .keyword .do_, .keyword .end_]
      (resumes_of_ne_nil h₁.ne_nil) fun rest _ => ?_
    exact ⟨_, fun _ => ⟨_, .generic (typedNames_relocate hn (apart_token (by decide)))
      (.nil (stops_cons.2 (by decide))) (.empty rfl)⟩⟩

theorem short_assignmentOrCall (ih : ShortBelow (s.rank 1)) :
    Short (Completable IsName (joinsStatement ·) (Read AssignmentOrCall) s)
      (assignmentOrCall s) := by
  rw [assignmentOrCall]
  split
  · next typed s₁ h₁ ht =>
    have ht := reads_typedTarget? ht
    refine .bind ((ih.assignment (h₁.below (by decide))).mono fun h => ?_) fun _ _ => .ok
    refine h.within h₁.ne_nil []
      (fun _ hrest => hrest.mono fun _ => joinsStatement_of_joinsExpressions) ?_
    intro us rest _ _ m h
    obtain ⟨stmt, h⟩ := h (0 + s.next) (.name (typed.mapAnchor (0 + ·)))
    exact ⟨_, _, .typed ht.relocate h⟩
  · refine .bind ((ih.chain (Stream.rank_lt (by decide))).mono fun h => ?_) ?_
    -- A chain that was not finished is made a call.
    · refine h.begins (fun _ h => h) [.operator .roundLeft, .operator .roundRight]
        (fun _ _ => stops_never) ?_
      intro us rest _ hrest m h
      have hsuffix := hrest.mono fun _ h =>
        joinsStatement_of_joinsExpression (joinsExpression_of_startsSuffix h)
      obtain ⟨e, c, h, hc⟩ := h.call hsuffix
      exact ⟨_, _, .call h hc (hrest.mono fun _ => joinsStatement_of_startsAssignment)⟩
    rintro ⟨e, s₁, h₁⟩ hr
    have hc := (sound _).chain (Nat.lt_succ_self _) hr
    dsimp only
    split
    iterate 2
      · next _ _ ht =>
        obtain ⟨n, ts, rfl, rfl⟩ := token?_some ht
        refine .bind short_readTarget fun target htarget => ?_
        have htarget := readTarget_ok.1 htarget
        refine .bind ((ih.assignment (h₁.below (by decide))).mono fun h => ?_) fun _ _ => .ok
        refine h.within h₁.ne_nil []
          (fun _ hrest => hrest.mono fun _ => joinsStatement_of_joinsExpressions) ?_
        intro us rest _ _ m h
        obtain ⟨stmt, h⟩ := h (0 + s.next) (target.mapAnchor (0 + ·))
        exact ⟨_, _, .assign (hc.relocate apart_cons)
          (by rw [target?_mapAnchor, htarget]; rfl) h⟩
    · split
      · next op s₂ h₂ ht =>
        have h₂' := h₂.trans h₁
        obtain ⟨n, u, ts, rfl, rfl, hu⟩ := tokenWith?_some ht
        refine .bind short_readTarget fun target htarget => ?_
        have htarget := readTarget_ok.1 htarget
        refine .bind ((ih.expression (h₂'.below (by decide))).mono fun h => ?_) fun _ _ => .ok
        refine h.within h₁.ne_nil []
          (fun _ hrest => hrest.mono fun _ => joinsStatement_of_joinsExpression) ?_
        rintro us rest - - m ⟨value, h⟩
        exact ⟨_, _, .update (hc.relocate apart_cons) hu
          (by rw [target?_mapAnchor, htarget]; rfl) h⟩
      · exact .bind short_callStatement fun _ _ => .ok

theorem short_assignment {anchor : TokenIndex} {first : Target} (ih : ShortBelow (s.rank 1)) :
    Short (Completable (· = .operator .equal) (joinsExpressions ·)
      (fun s t => ∀ anchor first, ∃ stmt, Assignment anchor first s stmt t) s)
      (assignment anchor first s) := by
  rw [assignment]
  refine .bind ((ih.moreTargets (Stream.rank_lt (by decide))).mono fun h => ?_) ?_
  · refine h.begins (fun _ h => h.elim) [.operator .equal, .keyword .nil_]
      (fun _ _ => stops_cons.2 (by decide)) ?_
    rintro us rest - hrest m ⟨more, h⟩
    exact ⟨_, fun _ _ => ⟨_, .intro h (.nil hrest)⟩⟩
  rintro ⟨more, s₁, h₁⟩ hm
  have hm := (sound _).moreTargets (Nat.lt_succ_self _) hm
  refine Short.afterOperator ?_ ?_
  · rintro m rfl
    refine .tokens [.operator .equal, .keyword .nil_] (resumes_token rfl) fun rest hrest => ?_
    exact ⟨_, fun _ _ => ⟨_, .intro (hm.relocate (apart_token (by decide))) (.nil hrest)⟩⟩
  rintro n ts h₂ rfl
  have h₂' := h₂.ofRest h₁
  refine .bind ((ih.expressions (h₂'.below (by decide))).mono fun h => ?_) fun _ _ => .ok
  refine h.within h₂'.ne_nil [] (fun _ hrest => hrest) ?_
  rintro us rest - - m ⟨values, h⟩
  exact ⟨_, fun _ _ => ⟨_, .intro (hm.relocate apart_cons) h⟩⟩

theorem short_moreTargets (ih : ShortBelow (s.rank 0)) :
    Short (Completable Never (joinsExpressions ·) (Read MoreTargets) s) (moreTargets s) := by
  rw [moreTargets]
  split
  · next s₁ h₁ ho =>
    obtain ⟨n, ts, rfl, rfl⟩ := operator?_some ho
    refine .bind ((ih.oneTarget (h₁.below (by decide))).mono fun h => ?_) ?_
    · refine h.within (List.cons_ne_nil _ _) [] (fun _ hrest => hrest.mono fun _ h =>
        joinsExpressions_of_joinsExpression (joinsExpression_of_startsSuffix h)) ?_
      rintro us rest - hrest m ⟨target, h⟩
      exact ⟨_, _, .more h (.done (hrest.mono (by rintro _ rfl; rfl)))⟩
    rintro ⟨target, s₂, h₂⟩ ht
    have ht := (sound _).oneTarget (Nat.lt_succ_self _) ht
    have h₂' := h₂.trans h₁
    refine .bind ((ih.moreTargets (h₂'.below (by decide))).mono fun h => ?_) fun _ _ => .ok
    exact h.ends (List.cons_ne_nil _ _) (fun _ h => h)
      fun hus h => ⟨_, .more (ht.relocate (apart_of_ne_nil hus.ne_nil)) h⟩
  · exact .ok

theorem short_oneTarget (ih : ShortBelow (s.rank 1)) :
    Short (Completable IsName (startsSuffix ·) (Read OneTarget) s) (oneTarget s) := by
  rw [oneTarget]
  split
  · exact .ok
  · refine .bind ((ih.chain (Stream.rank_lt (by decide))).mono fun h => ?_) fun _ _ => ?_
    · refine h.begins (fun _ h => h) [.operator .dot, .name "x"] (fun _ _ => stops_never) ?_
      intro us rest _ hrest m h
      obtain ⟨e, target, h, htarget⟩ := h.target hrest
      exact ⟨_, _, .chain h htarget⟩
    exact .bind short_readTarget fun _ _ => .ok

end

/-- By induction on the rank: each reader calls the others on lower ranks only. -/
theorem shortBelow (n : Nat) : ShortBelow n := by
  induction n using Nat.strongRecOn with
  | ind n ih =>
    exact {
      expression := fun hn => short_expression (ih _ hn)
      expression? := fun hn => short_expression? (ih _ hn)
      operand? := fun hn => short_operand? (ih _ hn)
      operations := fun hn => short_operations (ih _ hn)
      atom? := fun hn => short_atom? (ih _ hn)
      chain := fun hn => short_chain (ih _ hn)
      suffixes := fun hn => short_suffixes (ih _ hn)
      arguments := fun hn => short_arguments (ih _ hn)
      expressions := fun hn => short_expressions (ih _ hn)
      moreExpressions := fun hn => short_moreExpressions (ih _ hn)
      tableItems := fun hn => short_tableItems (ih _ hn)
      tableItem := fun hn => short_tableItem (ih _ hn)
      routine := fun hn => short_routine (ih _ hn)
      block := fun hn => short_block (ih _ hn)
      statement := fun hn => short_statement (ih _ hn)
      returnValues := fun hn => short_returnValues (ih _ hn)
      branches := fun hn => short_branches (ih _ hn)
      forLoop := fun hn => short_forLoop (ih _ hn)
      stepValue := fun hn => short_stepValue (ih _ hn)
      assignmentOrCall := fun hn => short_assignmentOrCall (ih _ hn)
      assignment := fun hn => short_assignment (ih _ hn)
      moreTargets := fun hn => short_moreTargets (ih _ hn)
      oneTarget := fun hn => short_oneTarget (ih _ hn) }

end ScriptFront.Phrase
