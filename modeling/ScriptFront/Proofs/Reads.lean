import ScriptFront.Proofs.SignatureReading
/-! Every success of a reader is derived by the rules of `Reading`. -/
namespace ScriptFront.Phrase
open Syntax

theorem reads_typeTest {anchor : TokenIndex} {e e' : Expr} {s t : Stream} {h : t.IsRest s}
    (hr : typeTest anchor e s = .ok ⟨e', t, h⟩) : Reading.TypeTest anchor e s e' t := by
  rw [typeTest] at hr
  split at hr
  · next s₁ h₁ hs =>
    obtain ⟨⟨type, s₂, h₂⟩, ht, hr⟩ := bind_ok.1 hr
    cases hr
    obtain ⟨n, ts, rfl, rfl⟩ := keyword?_some hs
    exact .is ⟨_, ht⟩
  · next hs =>
    cases hr
    exact .none (keyword?_none_iff.1 hs)

theorem binaryOp?_some {floor : Nat} {s t : Stream} {op : BinaryOp} {h : t.Follows s}
    (hs : binaryOp? floor s = some ⟨op, t, h⟩) :
    ∃ n u ts, s = ⟨n, u :: ts⟩ ∧ t = ⟨n + 1, ts⟩ ∧ BinaryOp.ofToken? u = some op ∧
      floor < op.level := by
  obtain ⟨n, u, ts, rfl, rfl, hu⟩ := tokenWith?_some hs
  obtain ⟨hu, hl⟩ := Option.filter_eq_some_iff.1 hu
  exact ⟨n, u, ts, rfl, rfl, hu, of_decide_eq_true hl⟩

theorem binaryOp?_none_iff {floor : Nat} {s : Stream} :
    binaryOp? floor s = none ↔ s.Stops (BindsAbove floor) := by
  have key (u : Token) : ((BinaryOp.ofToken? u).filter (floor < ·.level)).isSome ↔
      BindsAbove floor u := by
    rw [Option.isSome_iff_exists]
    simp only [Option.filter_eq_some_iff, decide_eq_true_eq, BindsAbove]
  rw [binaryOp?, tokenWith?_none_iff]
  simp only [Stream.Stops, key]

theorem closerOf?_some {closers : Closers} {u : Token} {k : Keyword}
    (h : closers.ofToken? u = some k) : u = .keyword k ∧ closers.accept k := by
  cases u with
  | keyword j =>
    simp only [Closers.ofToken?] at h
    split at h <;> simp_all
  | _ => cases h

theorem readTarget_ok {e : Expr} {target : Target} :
    readTarget e = .ok target ↔ e.target? = some target := by
  unfold readTarget
  cases e.target? <;> simp

theorem callStatement_ok {i : TokenIndex} {e : Expr} {stmt : Stmt} :
    callStatement i e = .ok stmt ↔ ∃ c, e.call? = some c ∧ stmt = .call i c := by
  unfold callStatement
  cases e.call? <;> simp [eq_comm]

theorem startsSuffix_of_not_matched {s : Stream}
    (h₁ : ∀ t h, token? s ≠ some ⟨.operator .squareLeft, t, h⟩)
    (h₂ : ∀ t h, token? s ≠ some ⟨.operator .dot, t, h⟩)
    (h₃ : ∀ t h, token? s ≠ some ⟨.operator .colon, t, h⟩)
    (h₄ : ∀ t h, token? s ≠ some ⟨.operator .roundLeft, t, h⟩)
    (h₅ : ∀ t h, token? s ≠ some ⟨.operator .curlyLeft, t, h⟩)
    (h₆ : ∀ v t h, token? s ≠ some ⟨.string v, t, h⟩) : s.Stops (startsSuffix ·) := by
  obtain ⟨n, _ | ⟨u, ts⟩⟩ := s
  · exact Stream.stops_nil
  · rw [Stream.stops_cons]
    intro hu
    unfold startsSuffix at hu
    split at hu
    · exact h₁ _ _ rfl
    · exact h₂ _ _ rfl
    · exact h₃ _ _ rfl
    · exact h₄ _ _ rfl
    · exact h₅ _ _ rfl
    · exact h₆ _ _ _ rfl
    · cases hu

theorem fieldName?_some {s t : Stream} {w : String} {h : t.Follows s}
    (hs : fieldName? s = some ⟨w, t, h⟩) :
    ∃ n ts, s = ⟨n, .name w :: .operator .equal :: ts⟩ ∧ t = ⟨n + 1 + 1, ts⟩ := by
  obtain ⟨⟨w, s₁, h₁⟩, hw, hs⟩ := Option.bind_eq_some_iff.1 hs
  obtain ⟨⟨_, s₂, h₂⟩, hq, hs⟩ := Option.bind_eq_some_iff.1 hs
  cases hs
  obtain ⟨n, ts, rfl, rfl⟩ := name?_some hw
  obtain ⟨m, us, he, rfl⟩ := operator?_some hq
  cases he
  exact ⟨n, us, rfl, rfl⟩

theorem singleToken?_isSome (i j : TokenIndex) (u : Token) :
    (singleToken? i u).isSome = (singleToken? j u).isSome := by
  unfold singleToken?
  split <;> rfl

theorem stops_of_operand?_none {s : Stream} (h : operand? s = .ok none) :
    s.Stops (startsExpression ·) := by
  rw [operand?] at h
  split at h
  · obtain ⟨p, -, h⟩ := bind_ok.1 h
    cases h
  · next hu =>
    rw [atom?] at h
    split at h
    · cases h
    · next ha =>
      split at h
      iterate 4
        · obtain ⟨p, -, h⟩ := bind_ok.1 h
          cases h
      · next h₁ h₂ h₃ h₄ =>
        obtain ⟨n, _ | ⟨u, ts⟩⟩ := s
        · exact Stream.stops_nil
        · have hu := Stream.stops_cons.1 (tokenWith?_none_iff.1 hu)
          have ha := Stream.stops_cons.1 (tokenWith?_none_iff.1 ha)
          rw [singleToken?_isSome _ 0] at ha
          rw [Stream.stops_cons]
          intro hs
          simp only [startsExpression, hu, ha, Bool.false_or] at hs
          split at hs
          · exact h₁ _ _ rfl
          · exact h₂ _ _ rfl
          · exact h₃ _ _ _ rfl
          · exact h₄ _ _ rfl
          · cases hs

theorem stops_of_expression?_none {floor : Nat} {s : Stream}
    (h : expression? floor s = .ok none) : s.Stops (startsExpression ·) := by
  rw [expression?] at h
  obtain ⟨_ | p, he, h⟩ := bind_ok.1 h
  · exact stops_of_operand?_none he
  · obtain ⟨_, -, h⟩ := bind_ok.1 h
    obtain ⟨_, -, h⟩ := bind_ok.1 h
    cases h

theorem startsAssignment_of_not_matched {s : Stream}
    (h₁ : ∀ t h, token? s ≠ some ⟨.operator .comma, t, h⟩)
    (h₂ : ∀ t h, token? s ≠ some ⟨.operator .equal, t, h⟩)
    (h₃ : tokenWith? updateOf? s = none) : s.Stops (startsAssignment ·) := by
  obtain ⟨n, _ | ⟨u, ts⟩⟩ := s
  · exact Stream.stops_nil
  · rw [Stream.stops_cons]
    intro hu
    unfold startsAssignment at hu
    split at hu
    · exact h₁ _ _ rfl
    · exact h₂ _ _ rfl
    · exact Stream.stops_cons.1 (tokenWith?_none_iff.1 h₃) hu

/-- What the readers of a rank below `n` accept is read. -/
structure Sound (n : Nat) : Prop where
  expression {floor s t e h} : s.rank 4 < n → expression floor s = .ok ⟨e, t, h⟩ →
    Reading.Expression floor s e t
  expression? {floor s t e h} : s.rank 3 < n → expression? floor s = .ok (some ⟨e, t, h⟩) →
    Reading.Expression floor s e t
  operand? {s t e h} : s.rank 2 < n → operand? s = .ok (some ⟨e, t, h⟩) → Reading.Operand s e t
  operations {floor anchor left s t e h} : s.rank 0 < n →
    operations floor anchor left s = .ok ⟨e, t, h⟩ → Reading.Operations floor anchor left s e t
  atom? {s t e h} : s.rank 1 < n → atom? s = .ok (some ⟨e, t, h⟩) → Reading.Operand s e t
  chain {s t e h} : s.rank 0 < n → chain s = .ok ⟨e, t, h⟩ → Reading.Chain s e t
  suffixes {anchor e s t whole h} : s.rank 1 < n → suffixes anchor e s = .ok ⟨whole, t, h⟩ →
    Reading.Suffixes anchor e s whole t
  arguments {s t args h} : s.rank 0 < n → arguments s = .ok ⟨args, t, h⟩ →
    Reading.Arguments s args t
  expressions {s t es h} : s.rank 5 < n → expressions s = .ok ⟨es, t, h⟩ →
    Reading.Expressions s es t
  moreExpressions {s t es h} : s.rank 0 < n → moreExpressions s = .ok ⟨es, t, h⟩ →
    Reading.MoreExpressions s es t
  tableItems {s t xs h} : s.rank 6 < n → tableItems s = .ok ⟨xs, t, h⟩ → Reading.TableItems s xs t
  tableItem {s t x h} : s.rank 5 < n → tableItem s = .ok ⟨x, t, h⟩ → Reading.TableItem s x t
  routine {s t r h} : s.rank 0 < n → routine s = .ok ⟨r, t, h⟩ → Reading.RoutineBody s r t
  block {closers returned s t body k h} : s.rank 3 < n →
    block closers returned s = .ok ⟨(body, k), t, h⟩ → Reading.Block closers returned s body k t
  statement {s t stmt h} : s.rank 2 < n → statement s = .ok ⟨stmt, t, h⟩ →
    Reading.Statement s stmt t
  returnValues {s t es h} : s.rank 4 < n → returnValues s = .ok ⟨es, t, h⟩ →
    Reading.ReturnValues s es t
  branches {s t list otherwise h} : s.rank 5 < n → branches s = .ok ⟨(list, otherwise), t, h⟩ →
    Reading.Branches s list otherwise t
  forLoop {anchor s t loop h} : s.rank 0 < n → forLoop anchor s = .ok ⟨loop, t, h⟩ →
    Reading.ForLoop anchor s loop t
  stepValue {s t step h} : s.rank 0 < n → stepValue s = .ok ⟨step, t, h⟩ →
    Reading.StepValue s step t
  assignmentOrCall {s t stmt h} : s.rank 1 < n → assignmentOrCall s = .ok ⟨stmt, t, h⟩ →
    Reading.AssignmentOrCall s stmt t
  assignment {anchor first s t stmt h} : s.rank 1 < n →
    assignment anchor first s = .ok ⟨stmt, t, h⟩ → Reading.Assignment anchor first s stmt t
  moreTargets {s t targets h} : s.rank 0 < n → moreTargets s = .ok ⟨targets, t, h⟩ →
    Reading.MoreTargets s targets t
  oneTarget {s t target h} : s.rank 1 < n → oneTarget s = .ok ⟨target, t, h⟩ →
    Reading.OneTarget s target t

theorem Stream.Follows.below {s t : Stream} {i j : Nat} (h : t.Follows s)
    (hi : i < 8) : t.rank i < s.rank j := h.rank_lt hi

theorem Stream.rank_lt {s : Stream} {i j : Nat} (h : i < j) : s.rank i < s.rank j :=
  s.isRest_self.rank_lt h

theorem reads_expression? {floor : Nat} {s t : Stream} {e : Expr} {h : t.Follows s}
    (ih : Sound (s.rank 3))
    (hr : expression? floor s = .ok (some ⟨e, t, h⟩)) : Reading.Expression floor s e t := by
  rw [expression?] at hr
  obtain ⟨_ | ⟨e₁, s₁, h₁⟩, he, hr⟩ := bind_ok.1 hr
  · cases hr
  · obtain ⟨⟨e₂, s₂, h₂⟩, ht, hr⟩ := bind_ok.1 hr
    have h₂' := h₂.follows h₁
    obtain ⟨⟨e₃, s₃, h₃⟩, ho, hr⟩ := bind_ok.1 hr
    cases hr
    exact .intro (ih.operand? (Stream.rank_lt (by decide)) he) (reads_typeTest ht)
      (ih.operations (h₂'.below (by decide)) ho)

theorem reads_expression {floor : Nat} {s t : Stream} {e : Expr} {h : t.Follows s}
    (ih : Sound (s.rank 4))
    (hr : expression floor s = .ok ⟨e, t, h⟩) : Reading.Expression floor s e t := by
  rw [expression] at hr
  obtain ⟨_ | p, he, hr⟩ := bind_ok.1 hr
  · cases hr
  · cases hr
    exact ih.expression? (Stream.rank_lt (by decide)) he

theorem reads_operand? {s t : Stream} {e : Expr} {h : t.Follows s}
    (ih : Sound (s.rank 2))
    (hr : operand? s = .ok (some ⟨e, t, h⟩)) : Reading.Operand s e t := by
  rw [operand?] at hr
  split at hr
  · next op s₁ h₁ hs =>
    obtain ⟨⟨e, s₂, h₂⟩, he, hr⟩ := bind_ok.1 hr
    cases hr
    have he := ih.expression (h₁.below (by decide)) he
    obtain ⟨n, u, ts, rfl, rfl, hu⟩ := tokenWith?_some hs
    exact .unary hu he
  · exact ih.atom? (Stream.rank_lt (by decide)) hr

theorem reads_operations {floor : Nat} {anchor : TokenIndex} {left e : Expr} {s t : Stream}
    {h : t.IsRest s} (ih : Sound (s.rank 0))
    (hr : operations floor anchor left s = .ok ⟨e, t, h⟩) :
    Reading.Operations floor anchor left s e t := by
  rw [operations] at hr
  split at hr
  · next op s₁ h₁ hs =>
    obtain ⟨⟨right, s₂, h₂⟩, hright, hr⟩ := bind_ok.1 hr
    have h₂' := h₂.trans h₁
    obtain ⟨⟨e, s₃, h₃⟩, he, hr⟩ := bind_ok.1 hr
    cases hr
    have hright := ih.expression (h₁.below (by decide)) hright
    have he := ih.operations (h₂'.below (by decide)) he
    obtain ⟨n, u, ts, rfl, rfl, hu, hl⟩ := binaryOp?_some hs
    exact .more hu hl hright he
  · next hs =>
    cases hr
    exact .done (binaryOp?_none_iff.1 hs)

theorem reads_atom? {s t : Stream} {e : Expr} {h : t.Follows s}
    (ih : Sound (s.rank 1))
    (hr : atom? s = .ok (some ⟨e, t, h⟩)) : Reading.Operand s e t := by
  rw [atom?] at hr
  split at hr
  · next hs =>
    cases hr
    obtain ⟨n, u, ts, rfl, rfl, hu⟩ := tokenWith?_some hs
    exact .single hu
  · split at hr
    · next s₁ h₁ hs =>
      obtain ⟨⟨xs, s₂, h₂⟩, hx, hr⟩ := bind_ok.1 hr
      cases hr
      have hx := ih.tableItems (h₁.below (by decide)) hx
      obtain ⟨n, ts, rfl, rfl⟩ := token?_some hs
      exact .table hx
    · next s₁ h₁ hs =>
      obtain ⟨⟨body, s₂, h₂⟩, hb, hr⟩ := bind_ok.1 hr
      cases hr
      have hb := ih.routine (h₁.below (by decide)) hb
      obtain ⟨n, ts, rfl, rfl⟩ := token?_some hs
      exact .routine hb
    · obtain ⟨p, hc, hr⟩ := bind_ok.1 hr
      cases hr
      exact .chain (ih.chain (Stream.rank_lt (by decide)) hc)
    · obtain ⟨p, hc, hr⟩ := bind_ok.1 hr
      cases hr
      exact .chain (ih.chain (Stream.rank_lt (by decide)) hc)
    · cases hr

theorem reads_chain {s t : Stream} {e : Expr} {h : t.Follows s}
    (ih : Sound (s.rank 0))
    (hr : chain s = .ok ⟨e, t, h⟩) : Reading.Chain s e t := by
  rw [chain] at hr
  split at hr
  · next w s₁ h₁ hs =>
    obtain ⟨⟨e, s₂, h₂⟩, he, hr⟩ := bind_ok.1 hr
    cases hr
    have he := ih.suffixes (h₁.below (by decide)) he
    obtain ⟨n, ts, rfl, rfl⟩ := token?_some hs
    exact .name he
  · next s₁ h₁ hs =>
    obtain ⟨⟨inner, s₂, h₂⟩, hi, hr⟩ := bind_ok.1 hr
    have h₂' := h₂.trans h₁
    obtain ⟨⟨_, s₃, h₃⟩, hc, hr⟩ := bind_ok.1 hr
    have h₃' := h₃.trans h₂'
    obtain ⟨⟨e, s₄, h₄⟩, he, hr⟩ := bind_ok.1 hr
    cases hr
    have hi := ih.expression (h₁.below (by decide)) hi
    have he := ih.suffixes (h₃'.below (by decide)) he
    obtain ⟨n, ts, rfl, rfl⟩ := token?_some hs
    obtain ⟨m, us, rfl, rfl⟩ := operator_ok hc
    exact .parenthesized hi he
  · cases hr

theorem reads_suffixes {anchor : TokenIndex} {e whole : Expr} {s t : Stream} {h : t.IsRest s}
    (ih : Sound (s.rank 1))
    (hr : suffixes anchor e s = .ok ⟨whole, t, h⟩) : Reading.Suffixes anchor e s whole t := by
  rw [suffixes] at hr
  split at hr
  · next s₁ h₁ hs =>
    obtain ⟨⟨key, s₂, h₂⟩, hk, hr⟩ := bind_ok.1 hr
    have h₂' := h₂.trans h₁
    obtain ⟨⟨_, s₃, h₃⟩, hc, hr⟩ := bind_ok.1 hr
    have h₃' := h₃.trans h₂'
    obtain ⟨⟨whole, s₄, h₄⟩, hw, hr⟩ := bind_ok.1 hr
    cases hr
    have hk := ih.expression (h₁.below (by decide)) hk
    have hw := ih.suffixes (h₃'.below (by decide)) hw
    obtain ⟨n, ts, rfl, rfl⟩ := token?_some hs
    obtain ⟨m, us, rfl, rfl⟩ := operator_ok hc
    exact .element hk hw
  · next s₁ h₁ hs =>
    obtain ⟨⟨field, s₂, h₂⟩, hf, hr⟩ := bind_ok.1 hr
    have h₂' := h₂.trans h₁
    obtain ⟨⟨whole, s₃, h₃⟩, hw, hr⟩ := bind_ok.1 hr
    cases hr
    have hw := ih.suffixes (h₂'.below (by decide)) hw
    obtain ⟨n, ts, rfl, rfl⟩ := token?_some hs
    obtain ⟨m, us, he, rfl⟩ := name_ok hf
    cases he
    exact .field hw
  · next s₁ h₁ hs =>
    obtain ⟨⟨method, s₂, h₂⟩, hm, hr⟩ := bind_ok.1 hr
    have h₂' := h₂.trans h₁
    obtain ⟨⟨args, s₃, h₃⟩, ha, hr⟩ := bind_ok.1 hr
    have h₃' := h₃.trans h₂'
    obtain ⟨⟨whole, s₄, h₄⟩, hw, hr⟩ := bind_ok.1 hr
    cases hr
    have ha := ih.arguments (h₂'.below (by decide)) ha
    have hw := ih.suffixes (h₃'.below (by decide)) hw
    obtain ⟨n, ts, rfl, rfl⟩ := token?_some hs
    obtain ⟨m, us, he, rfl⟩ := name_ok hm
    cases he
    exact .method ha hw
  iterate 3
    · obtain ⟨⟨args, s₁, h₁⟩, ha, hr⟩ := bind_ok.1 hr
      obtain ⟨⟨whole, s₂, h₂⟩, hw, hr⟩ := bind_ok.1 hr
      cases hr
      exact .call (ih.arguments (Stream.rank_lt (by decide)) ha)
        (ih.suffixes (h₁.below (by decide)) hw)
  · cases hr
    exact .done (startsSuffix_of_not_matched ‹_› ‹_› ‹_› ‹_› ‹_› ‹_›)

theorem reads_arguments {s t : Stream} {args : List Expr} {h : t.Follows s}
    (ih : Sound (s.rank 0))
    (hr : arguments s = .ok ⟨args, t, h⟩) : Reading.Arguments s args t := by
  rw [arguments] at hr
  split at hr
  · next s₁ h₁ hs =>
    split at hr
    · next hc =>
      cases hr
      obtain ⟨n, ts, rfl, rfl⟩ := token?_some hs
      obtain ⟨m, us, he, rfl⟩ := operator?_some hc
      cases he
      exact .none
    · obtain ⟨⟨args, s₂, h₂⟩, ha, hr⟩ := bind_ok.1 hr
      obtain ⟨⟨_, s₃, h₃⟩, hc, hr⟩ := bind_ok.1 hr
      cases hr
      have ha := ih.expressions (h₁.below (by decide)) ha
      obtain ⟨n, ts, rfl, rfl⟩ := token?_some hs
      obtain ⟨m, us, rfl, rfl⟩ := operator_ok hc
      exact .list ha
  · next s₁ h₁ hs =>
    obtain ⟨⟨xs, s₂, h₂⟩, hx, hr⟩ := bind_ok.1 hr
    cases hr
    have hx := ih.tableItems (h₁.below (by decide)) hx
    obtain ⟨n, ts, rfl, rfl⟩ := token?_some hs
    exact .table hx
  · next hs =>
    cases hr
    obtain ⟨n, ts, rfl, rfl⟩ := token?_some hs
    exact .string
  · cases hr

theorem reads_expressions {s t : Stream} {es : List Expr} {h : t.Follows s}
    (ih : Sound (s.rank 5))
    (hr : expressions s = .ok ⟨es, t, h⟩) : Reading.Expressions s es t := by
  rw [expressions] at hr
  obtain ⟨⟨first, s₁, h₁⟩, he, hr⟩ := bind_ok.1 hr
  obtain ⟨⟨more, s₂, h₂⟩, hm, hr⟩ := bind_ok.1 hr
  cases hr
  exact .intro (ih.expression (Stream.rank_lt (by decide)) he)
    (ih.moreExpressions (h₁.below (by decide)) hm)

theorem reads_moreExpressions {s t : Stream} {es : List Expr} {h : t.IsRest s}
    (ih : Sound (s.rank 0))
    (hr : moreExpressions s = .ok ⟨es, t, h⟩) : Reading.MoreExpressions s es t := by
  rw [moreExpressions] at hr
  split at hr
  · next s₁ h₁ hs =>
    obtain ⟨⟨list, s₂, h₂⟩, hl, hr⟩ := bind_ok.1 hr
    cases hr
    have hl := ih.expressions (h₁.below (by decide)) hl
    obtain ⟨n, ts, rfl, rfl⟩ := operator?_some hs
    exact .more hl
  · next hs =>
    cases hr
    exact .done (operator?_none_iff.1 hs)

theorem reads_tableItems {s t : Stream} {xs : List TableItem} {h : t.Follows s}
    (ih : Sound (s.rank 6))
    (hr : tableItems s = .ok ⟨xs, t, h⟩) : Reading.TableItems s xs t := by
  rw [tableItems] at hr
  split at hr
  · next hs =>
    cases hr
    obtain ⟨n, ts, rfl, rfl⟩ := operator?_some hs
    exact .none
  · obtain ⟨⟨first, s₁, h₁⟩, hf, hr⟩ := bind_ok.1 hr
    dsimp only at hr
    split at hr
    · next s₂ h₂ hs =>
      have h₂' := h₂.trans h₁
      obtain ⟨⟨more, s₃, h₃⟩, hm, hr⟩ := bind_ok.1 hr
      cases hr
      have hf := ih.tableItem (Stream.rank_lt (by decide)) hf
      have hm := ih.tableItems (h₂'.below (by decide)) hm
      obtain ⟨n, u, ts, rfl, rfl, hu⟩ := tokenWith?_some hs
      exact .more hf hu hm
    · obtain ⟨⟨_, s₂, h₂⟩, hc, hr⟩ := bind_ok.1 hr
      cases hr
      have hf := ih.tableItem (Stream.rank_lt (by decide)) hf
      obtain ⟨n, ts, rfl, rfl⟩ := operator_ok hc
      exact .last hf

theorem reads_tableItem {s t : Stream} {x : TableItem} {h : t.Follows s}
    (ih : Sound (s.rank 5))
    (hr : tableItem s = .ok ⟨x, t, h⟩) : Reading.TableItem s x t := by
  rw [tableItem] at hr
  split at hr
  · next s₁ h₁ hs =>
    obtain ⟨⟨key, s₂, h₂⟩, hk, hr⟩ := bind_ok.1 hr
    have h₂' := h₂.trans h₁
    obtain ⟨⟨_, s₃, h₃⟩, hc, hr⟩ := bind_ok.1 hr
    have h₃' := h₃.trans h₂'
    obtain ⟨⟨_, s₄, h₄⟩, hq, hr⟩ := bind_ok.1 hr
    have h₄' := h₄.trans h₃'
    obtain ⟨⟨value, s₅, h₅⟩, hv, hr⟩ := bind_ok.1 hr
    cases hr
    have hk := ih.expression (h₁.below (by decide)) hk
    have hv := ih.expression (h₄'.below (by decide)) hv
    obtain ⟨n, ts, rfl, rfl⟩ := operator?_some hs
    obtain ⟨m, us, rfl, rfl⟩ := operator_ok hc
    obtain ⟨k, vs, he, rfl⟩ := operator_ok hq
    cases he
    exact .keyed hk hv
  · split at hr
    · next w s₁ h₁ hs =>
      obtain ⟨⟨value, s₂, h₂⟩, hv, hr⟩ := bind_ok.1 hr
      cases hr
      have hv := ih.expression (h₁.below (by decide)) hv
      obtain ⟨n, ts, rfl, rfl⟩ := fieldName?_some hs
      exact .named hv
    · next hs =>
      obtain ⟨⟨value, s₂, h₂⟩, hv, hr⟩ := bind_ok.1 hr
      cases hr
      exact .positional hs (ih.expression (Stream.rank_lt (by decide)) hv)

theorem reads_routine {s t : Stream} {r : Routine} {h : t.Follows s}
    (ih : Sound (s.rank 0))
    (hr : routine s = .ok ⟨r, t, h⟩) : Reading.RoutineBody s r t := by
  rw [routine] at hr
  obtain ⟨⟨sig, s₁, h₁⟩, hs, hr⟩ := bind_ok.1 hr
  obtain ⟨⟨⟨body, k⟩, s₂, h₂⟩, hb, hr⟩ := bind_ok.1 hr
  cases hr
  exact .intro (reads_signature hs) (ih.block (h₁.below (by decide)) hb)

theorem reads_block {closers : Closers} {returned : Bool} {s t : Stream} {body : Block}
    {k : Keyword} {h : t.Follows s} (ih : Sound (s.rank 3))
    (hr : block closers returned s = .ok ⟨(body, k), t, h⟩) :
    Reading.Block closers returned s body k t := by
  rw [block] at hr
  have h₁ := (semicolons s).rest_isRest
  dsimp only at hr
  split at hr
  · next hs =>
    cases hr
    obtain ⟨n, u, ts, he, rfl, hu⟩ := tokenWith?_some hs
    obtain ⟨rfl, hk⟩ := closerOf?_some hu
    exact .close he hk
  · split at hr
    · cases hr
    · split at hr
      · cases hr
      · next hret =>
        obtain ⟨⟨first, s₂, h₂⟩, hf, hr⟩ := bind_ok.1 hr
        have h₂' := h₂.ofRest h₁
        obtain ⟨⟨⟨more, closer⟩, s₃, h₃⟩, hm, hr⟩ := bind_ok.1 hr
        cases hr
        have hf := ih.statement (h₁.rank_lt (by decide)) hf
        have hm := ih.block (h₂'.below (by decide)) hm
        rw [Bool.not_eq_true] at hret
        subst hret
        exact .cons hf hm

/-- By how a statement begins. Where none does, the next token is refused. -/
@[elab_as_elim]
theorem statement_cases {P : Stream → Prop} (scope : ∀ n ts, P ⟨n, .keyword .do_ :: ts⟩)
    (whileLoop : ∀ n ts, P ⟨n, .keyword .while_ :: ts⟩)
    (repeatLoop : ∀ n ts, P ⟨n, .keyword .repeat_ :: ts⟩)
    (choice : ∀ n ts, P ⟨n, .keyword .if_ :: ts⟩)
    (forLoop : ∀ n ts, P ⟨n, .keyword .for_ :: ts⟩)
    (routine : ∀ n ts, P ⟨n, .keyword .function_ :: ts⟩)
    (localNames : ∀ n ts, P ⟨n, .keyword .local_ :: ts⟩)
    (returnValues : ∀ n ts, P ⟨n, .keyword .return_ :: ts⟩)
    (breakLoop : ∀ n ts, P ⟨n, .keyword .break_ :: ts⟩)
    (goto : ∀ n ts, P ⟨n, .keyword .goto_ :: ts⟩)
    (label : ∀ n ts, P ⟨n, .operator .doubleColon :: ts⟩)
    (assignmentOrCall : ∀ s, s.left ≠ [] → statement s = Phrase.assignmentOrCall s → P s)
    (other : ∀ s, statement s = .error (unexpected s) → P s) (s : Stream) : P s := by
  obtain ⟨n, _ | ⟨u, ts⟩⟩ := s
  · exact other _ (by rw [statement]; rfl)
  cases u with
  | keyword k =>
    cases k with
    | do_ => exact scope n ts
    | while_ => exact whileLoop n ts
    | repeat_ => exact repeatLoop n ts
    | if_ => exact choice n ts
    | for_ => exact forLoop n ts
    | function_ => exact routine n ts
    | local_ => exact localNames n ts
    | return_ => exact returnValues n ts
    | break_ => exact breakLoop n ts
    | goto_ => exact goto n ts
    | _ => exact other _ (by rw [statement]; rfl)
  | operator o =>
    cases o with
    | doubleColon => exact label n ts
    | roundLeft => exact assignmentOrCall _ (List.cons_ne_nil _ _) (by rw [statement]; rfl)
    | _ => exact other _ (by rw [statement]; rfl)
  | name w => exact assignmentOrCall _ (List.cons_ne_nil _ _) (by rw [statement]; rfl)
  | _ => exact other _ (by rw [statement]; rfl)

section
variable {n : TokenIndex} {ts : List Token} {t : Stream} {stmt : Stmt}

theorem reads_whileLoop {h : t.Follows ⟨n, .keyword .while_ :: ts⟩}
    (ih : Sound (Stream.rank ⟨n, .keyword .while_ :: ts⟩ 2))
    (hr : statement ⟨n, .keyword .while_ :: ts⟩ = .ok ⟨stmt, t, h⟩) :
    Reading.Statement ⟨n, .keyword .while_ :: ts⟩ stmt t := by
  have h₁ := Stream.tail_follows n (.keyword .while_) ts
  rw [statement] at hr
  obtain ⟨⟨condition, s₂, h₂⟩, he, hr⟩ := bind_ok.1 hr
  have h₂' := h₂.trans h₁
  obtain ⟨⟨_, s₃, h₃⟩, hd, hr⟩ := bind_ok.1 hr
  have h₃' := h₃.trans h₂'
  obtain ⟨⟨⟨body, k⟩, s₄, h₄⟩, hb, hr⟩ := bind_ok.1 hr
  cases hr
  have he := ih.expression (h₁.below (by decide)) he
  have hb := ih.block (h₃'.below (by decide)) hb
  obtain ⟨m, us, rfl, rfl⟩ := keyword_ok hd
  exact .whileLoop he hb

theorem reads_repeatLoop {h : t.Follows ⟨n, .keyword .repeat_ :: ts⟩}
    (ih : Sound (Stream.rank ⟨n, .keyword .repeat_ :: ts⟩ 2))
    (hr : statement ⟨n, .keyword .repeat_ :: ts⟩ = .ok ⟨stmt, t, h⟩) :
    Reading.Statement ⟨n, .keyword .repeat_ :: ts⟩ stmt t := by
  have h₁ := Stream.tail_follows n (.keyword .repeat_) ts
  rw [statement] at hr
  obtain ⟨⟨⟨body, k⟩, s₂, h₂⟩, hb, hr⟩ := bind_ok.1 hr
  have h₂' := h₂.trans h₁
  obtain ⟨⟨condition, s₃, h₃⟩, he, hr⟩ := bind_ok.1 hr
  cases hr
  have hb := ih.block (h₁.below (by decide)) hb
  have he := ih.expression (h₂'.below (by decide)) he
  exact .repeatLoop hb he

theorem reads_routineStatement {h : t.Follows ⟨n, .keyword .function_ :: ts⟩}
    (ih : Sound (Stream.rank ⟨n, .keyword .function_ :: ts⟩ 2))
    (hr : statement ⟨n, .keyword .function_ :: ts⟩ = .ok ⟨stmt, t, h⟩) :
    Reading.Statement ⟨n, .keyword .function_ :: ts⟩ stmt t := by
  have h₁ := Stream.tail_follows n (.keyword .function_) ts
  rw [statement] at hr
  obtain ⟨⟨⟨names, isMethod⟩, s₂, h₂⟩, hp, hr⟩ := bind_ok.1 hr
  have h₂' := h₂.trans h₁
  obtain ⟨⟨body, s₃, h₃⟩, hb, hr⟩ := bind_ok.1 hr
  cases hr
  have hp := reads_path hp
  have hb := ih.routine (h₂'.below (by decide)) hb
  exact .routine hp hb

/-- Of a function with one name, or of a list of names with values or without. -/
theorem reads_local {h : t.Follows ⟨n, .keyword .local_ :: ts⟩}
    (ih : Sound (Stream.rank ⟨n, .keyword .local_ :: ts⟩ 2))
    (hr : statement ⟨n, .keyword .local_ :: ts⟩ = .ok ⟨stmt, t, h⟩) :
    Reading.Statement ⟨n, .keyword .local_ :: ts⟩ stmt t := by
  have h₁ := Stream.tail_follows n (.keyword .local_) ts
  rw [statement] at hr
  simp only [token?_cons] at hr
  split at hr
  · next s₂ h₂ hf =>
    have h₂' := h₂.trans h₁
    obtain ⟨⟨w, s₃, h₃⟩, hw, hr⟩ := bind_ok.1 hr
    have h₃' := h₃.trans h₂'
    obtain ⟨⟨body, s₄, h₄⟩, hb, hr⟩ := bind_ok.1 hr
    cases hr
    have hbody := ih.routine (h₃'.below (by decide)) hb
    obtain ⟨m, us, he, rfl⟩ := keyword?_some hf
    cases he
    obtain ⟨k, vs, he, rfl⟩ := name_ok hw
    cases he
    exact .localRoutine hbody
  · obtain ⟨⟨names, s₂, h₂⟩, hn, hr⟩ := bind_ok.1 hr
    have h₂' := h₂.trans h₁
    have hn := reads_typedNames hn
    dsimp only at hr
    split at hr
    · next s₃ h₃ hq =>
      have h₃' := h₃.trans h₂'
      obtain ⟨⟨values, s₄, h₄⟩, hv, hr⟩ := bind_ok.1 hr
      cases hr
      have hv := ih.expressions (h₃'.below (by decide)) hv
      obtain ⟨m, us, rfl, rfl⟩ := operator?_some hq
      exact .localValues hn hv
    · next hq =>
      cases hr
      exact .localNames hn (operator?_none_iff.1 hq)

theorem reads_return {h : t.Follows ⟨n, .keyword .return_ :: ts⟩}
    (ih : Sound (Stream.rank ⟨n, .keyword .return_ :: ts⟩ 2))
    (hr : statement ⟨n, .keyword .return_ :: ts⟩ = .ok ⟨stmt, t, h⟩) :
    Reading.Statement ⟨n, .keyword .return_ :: ts⟩ stmt t := by
  rw [statement] at hr
  obtain ⟨⟨values, s₂, h₂⟩, hv, hr⟩ := bind_ok.1 hr
  have hv := ih.returnValues ((Stream.tail_follows ..).below (by decide)) hv
  dsimp only at hr
  split at hr
  · next s₃ h₃ hq =>
    cases hr
    obtain ⟨m, us, rfl, rfl⟩ := operator?_some hq
    exact .returnEnded hv
  · next hq =>
    cases hr
    exact .returnValues hv (operator?_none_iff.1 hq)

theorem reads_label {h : t.Follows ⟨n, .operator .doubleColon :: ts⟩}
    (hr : statement ⟨n, .operator .doubleColon :: ts⟩ = .ok ⟨stmt, t, h⟩) :
    Reading.Statement ⟨n, .operator .doubleColon :: ts⟩ stmt t := by
  rw [statement] at hr
  obtain ⟨⟨w, s₂, h₂⟩, hw, hr⟩ := bind_ok.1 hr
  obtain ⟨⟨_, s₃, h₃⟩, hc, hr⟩ := bind_ok.1 hr
  cases hr
  obtain ⟨m, us, he, rfl⟩ := name_ok hw
  cases he
  obtain ⟨k, vs, he, rfl⟩ := operator_ok hc
  cases he
  exact .label

end

theorem reads_statement {s t : Stream} {stmt : Stmt} {h : t.Follows s}
    (ih : Sound (s.rank 2))
    (hr : statement s = .ok ⟨stmt, t, h⟩) : Reading.Statement s stmt t := by
  cases s using statement_cases with
  | scope n ts =>
    rw [statement] at hr
    obtain ⟨⟨⟨body, k⟩, s₂, h₂⟩, hb, hr⟩ := bind_ok.1 hr
    cases hr
    exact .scope (ih.block ((Stream.tail_follows ..).below (by decide)) hb)
  | whileLoop n ts => exact reads_whileLoop ih hr
  | repeatLoop n ts => exact reads_repeatLoop ih hr
  | choice n ts =>
    rw [statement] at hr
    obtain ⟨⟨⟨list, otherwise⟩, s₂, h₂⟩, hb, hr⟩ := bind_ok.1 hr
    cases hr
    exact .choice (ih.branches ((Stream.tail_follows ..).below (by decide)) hb)
  | forLoop n ts =>
    rw [statement] at hr
    obtain ⟨⟨loop, s₂, h₂⟩, hl, hr⟩ := bind_ok.1 hr
    cases hr
    exact .forLoop (ih.forLoop ((Stream.tail_follows ..).below (by decide)) hl)
  | routine n ts => exact reads_routineStatement ih hr
  | localNames n ts => exact reads_local ih hr
  | returnValues n ts => exact reads_return ih hr
  | breakLoop n ts =>
    rw [statement] at hr
    cases hr
    exact .breakLoop
  | goto n ts =>
    rw [statement] at hr
    obtain ⟨⟨w, s₂, h₂⟩, hw, hr⟩ := bind_ok.1 hr
    cases hr
    obtain ⟨m, us, he, rfl⟩ := name_ok hw
    cases he
    exact .goto
  | label n ts => exact reads_label hr
  | assignmentOrCall s _ hs =>
    rw [hs] at hr
    exact .assignmentOrCall (ih.assignmentOrCall (Stream.rank_lt (by decide)) hr)
  | other s hs =>
    rw [hs] at hr
    cases hr

theorem reads_returnValues {s t : Stream} {es : List Expr} {h : t.IsRest s}
    (ih : Sound (s.rank 4))
    (hr : returnValues s = .ok ⟨es, t, h⟩) : Reading.ReturnValues s es t := by
  rw [returnValues] at hr
  obtain ⟨_ | ⟨first, s₁, h₁⟩, he, hr⟩ := bind_ok.1 hr
  · cases hr
    exact .none (stops_of_expression?_none he)
  · obtain ⟨⟨more, s₂, h₂⟩, hm, hr⟩ := bind_ok.1 hr
    cases hr
    exact .list (ih.expression? (Stream.rank_lt (by decide)) he) 
      (ih.moreExpressions (h₁.below (by decide)) hm)

theorem reads_branches {s t : Stream} {list : List Branch} {otherwise : Option Block}
    {h : t.Follows s} (ih : Sound (s.rank 5))
    (hr : branches s = .ok ⟨(list, otherwise), t, h⟩) :
    Reading.Branches s list otherwise t := by
  rw [branches] at hr
  obtain ⟨⟨condition, s₁, h₁⟩, he, hr⟩ := bind_ok.1 hr
  obtain ⟨⟨_, s₂, h₂⟩, hk, hr⟩ := bind_ok.1 hr
  have h₂' := h₂.trans h₁
  obtain ⟨⟨⟨body, closer⟩, s₃, h₃⟩, hb, hr⟩ := bind_ok.1 hr
  have h₃' := h₃.trans h₂'
  have he := ih.expression (Stream.rank_lt (by decide)) he
  have hb := ih.block (h₂'.below (by decide)) hb
  obtain ⟨m, us, rfl, rfl⟩ := keyword_ok hk
  dsimp only at hr
  split at hr
  · obtain ⟨⟨⟨more, otherwise⟩, s₄, h₄⟩, hm, hr⟩ := bind_ok.1 hr
    cases hr
    exact .elseif he hb (ih.branches (h₃'.below (by decide)) hm)
  · obtain ⟨⟨⟨otherwise, k⟩, s₄, h₄⟩, ho, hr⟩ := bind_ok.1 hr
    cases hr
    exact .otherwise he hb (ih.block (h₃'.below (by decide)) ho)
  · cases hr
    exact .last he hb ‹_› ‹_›

theorem reads_forLoop {anchor : TokenIndex} {s t : Stream} {loop : Stmt} {h : t.Follows s}
    (ih : Sound (s.rank 0))
    (hr : forLoop anchor s = .ok ⟨loop, t, h⟩) : Reading.ForLoop anchor s loop t := by
  rw [forLoop] at hr
  obtain ⟨⟨names, s₁, h₁⟩, hn, hr⟩ := bind_ok.1 hr
  dsimp only at hr
  split at hr
  · next s₂ h₂ counter hs =>
    have h₂' := h₂.trans h₁
    obtain ⟨⟨start, s₃, h₃⟩, ha, hr⟩ := bind_ok.1 hr
    have h₃' := h₃.trans h₂'
    obtain ⟨⟨_, s₄, h₄⟩, hc, hr⟩ := bind_ok.1 hr
    have h₄' := h₄.trans h₃'
    obtain ⟨⟨stop, s₅, h₅⟩, hb, hr⟩ := bind_ok.1 hr
    have h₅' := h₅.trans h₄'
    obtain ⟨⟨step, s₆, h₆⟩, hs', hr⟩ := bind_ok.1 hr
    have h₆' := h₆.follows h₅'
    obtain ⟨⟨_, s₇, h₇⟩, hd, hr⟩ := bind_ok.1 hr
    have h₇' := h₇.trans h₆'
    obtain ⟨⟨⟨body, k⟩, s₈, h₈⟩, hbody, hr⟩ := bind_ok.1 hr
    cases hr
    have hn := reads_typedNames hn
    have rstart := ih.expression (h₂'.below (by decide)) ha
    have rstop := ih.expression (h₄'.below (by decide)) hb
    have rstep := ih.stepValue (h₅'.below (by decide)) hs'
    have rbody := ih.block (h₇'.below (by decide)) hbody
    obtain ⟨n, ts, rfl, rfl⟩ := token?_some hs
    obtain ⟨m, us, rfl, rfl⟩ := operator_ok hc
    obtain ⟨k, vs, rfl, rfl⟩ := keyword_ok hd
    exact .numeric hn rstart rstop rstep rbody
  · next s₂ h₂ hs =>
    have h₂' := h₂.trans h₁
    obtain ⟨⟨iterators, s₃, h₃⟩, hi, hr⟩ := bind_ok.1 hr
    have h₃' := h₃.trans h₂'
    obtain ⟨⟨_, s₄, h₄⟩, hd, hr⟩ := bind_ok.1 hr
    have h₄' := h₄.trans h₃'
    obtain ⟨⟨⟨body, k⟩, s₅, h₅⟩, hb, hr⟩ := bind_ok.1 hr
    cases hr
    have hn := reads_typedNames hn
    have ri := ih.expressions (h₂'.below (by decide)) hi
    have rb := ih.block (h₄'.below (by decide)) hb
    obtain ⟨n, ts, rfl, rfl⟩ := token?_some hs
    obtain ⟨m, us, rfl, rfl⟩ := keyword_ok hd
    exact .generic hn ri rb
  · cases hr

theorem reads_stepValue {s t : Stream} {step : Option Expr} {h : t.IsRest s}
    (ih : Sound (s.rank 0))
    (hr : stepValue s = .ok ⟨step, t, h⟩) : Reading.StepValue s step t := by
  rw [stepValue] at hr
  split at hr
  · next s₁ h₁ hs =>
    obtain ⟨⟨e, s₂, h₂⟩, he, hr⟩ := bind_ok.1 hr
    cases hr
    have he := ih.expression (h₁.below (by decide)) he
    obtain ⟨n, ts, rfl, rfl⟩ := operator?_some hs
    exact .step he
  · next hs =>
    cases hr
    exact .none (operator?_none_iff.1 hs)

theorem reads_assignmentOrCall {s t : Stream} {stmt : Stmt} {h : t.Follows s}
    (ih : Sound (s.rank 1))
    (hr : assignmentOrCall s = .ok ⟨stmt, t, h⟩) : Reading.AssignmentOrCall s stmt t := by
  rw [assignmentOrCall] at hr
  split at hr
  · next typed s₁ h₁ hs =>
    obtain ⟨⟨a, s₂, h₂⟩, ha, hr⟩ := bind_ok.1 hr
    cases hr
    exact .typed (reads_typedTarget? hs) (ih.assignment (h₁.below (by decide)) ha)
  · obtain ⟨⟨e, s₁, h₁⟩, hc, hr⟩ := bind_ok.1 hr
    have hc := ih.chain (Stream.rank_lt (by decide)) hc
    dsimp only at hr
    split at hr
    iterate 2
      · obtain ⟨target, ht, hr⟩ := bind_ok.1 hr
        obtain ⟨⟨a, s₂, h₂⟩, ha, hr⟩ := bind_ok.1 hr
        cases hr
        exact .assign hc (readTarget_ok.1 ht) (ih.assignment (h₁.below (by decide)) ha)
    · next hcomma hequal =>
      split at hr
      · next op s₂ h₂ hs =>
        have h₂' := h₂.trans h₁
        obtain ⟨target, ht, hr⟩ := bind_ok.1 hr
        obtain ⟨⟨value, s₃, h₃⟩, hv, hr⟩ := bind_ok.1 hr
        cases hr
        have hv := ih.expression (h₂'.below (by decide)) hv
        obtain ⟨n, u, ts, rfl, rfl, hu⟩ := tokenWith?_some hs
        exact .update hc hu (readTarget_ok.1 ht) hv
      · next hu =>
        obtain ⟨stmt, hs, hr⟩ := bind_ok.1 hr
        cases hr
        obtain ⟨c, hc', rfl⟩ := callStatement_ok.1 hs
        exact .call hc hc' (startsAssignment_of_not_matched hcomma hequal hu)

theorem reads_assignment {anchor : TokenIndex} {first : Target} {s t : Stream} {stmt : Stmt}
    {h : t.Follows s} (ih : Sound (s.rank 1))
    (hr : assignment anchor first s = .ok ⟨stmt, t, h⟩) :
    Reading.Assignment anchor first s stmt t := by
  rw [assignment] at hr
  obtain ⟨⟨more, s₁, h₁⟩, hm, hr⟩ := bind_ok.1 hr
  obtain ⟨⟨_, s₂, h₂⟩, hq, hr⟩ := bind_ok.1 hr
  have h₂' := h₂.ofRest h₁
  obtain ⟨⟨values, s₃, h₃⟩, hv, hr⟩ := bind_ok.1 hr
  cases hr
  have hm := ih.moreTargets (Stream.rank_lt (by decide)) hm
  have hv := ih.expressions (h₂'.below (by decide)) hv
  obtain ⟨n, ts, rfl, rfl⟩ := operator_ok hq
  exact .intro hm hv

theorem reads_moreTargets {s t : Stream} {targets : List Target} {h : t.IsRest s}
    (ih : Sound (s.rank 0))
    (hr : moreTargets s = .ok ⟨targets, t, h⟩) : Reading.MoreTargets s targets t := by
  rw [moreTargets] at hr
  split at hr
  · next s₁ h₁ hs =>
    obtain ⟨⟨target, s₂, h₂⟩, ht, hr⟩ := bind_ok.1 hr
    have h₂' := h₂.trans h₁
    obtain ⟨⟨more, s₃, h₃⟩, hm, hr⟩ := bind_ok.1 hr
    cases hr
    have ht := ih.oneTarget (h₁.below (by decide)) ht
    have hm := ih.moreTargets (h₂'.below (by decide)) hm
    obtain ⟨n, ts, rfl, rfl⟩ := operator?_some hs
    exact .more ht hm
  · next hs =>
    cases hr
    exact .done (operator?_none_iff.1 hs)

theorem reads_oneTarget {s t : Stream} {target : Target} {h : t.Follows s}
    (ih : Sound (s.rank 1))
    (hr : oneTarget s = .ok ⟨target, t, h⟩) : Reading.OneTarget s target t := by
  rw [oneTarget] at hr
  split at hr
  · next hs =>
    cases hr
    exact .typed (reads_typedTarget? hs)
  · obtain ⟨⟨e, s₁, h₁⟩, hc, hr⟩ := bind_ok.1 hr
    obtain ⟨target, ht, hr⟩ := bind_ok.1 hr
    cases hr
    exact .chain (ih.chain (Stream.rank_lt (by decide)) hc) (readTarget_ok.1 ht)

/-- By induction on the rank: each reader calls the others on lower ranks only. -/
theorem sound (n : Nat) : Sound n := by
  induction n using Nat.strongRecOn with
  | ind n ih =>
    exact {
      expression := fun hn hr => reads_expression (ih _ hn) hr
      expression? := fun hn hr => reads_expression? (ih _ hn) hr
      operand? := fun hn hr => reads_operand? (ih _ hn) hr
      operations := fun hn hr => reads_operations (ih _ hn) hr
      atom? := fun hn hr => reads_atom? (ih _ hn) hr
      chain := fun hn hr => reads_chain (ih _ hn) hr
      suffixes := fun hn hr => reads_suffixes (ih _ hn) hr
      arguments := fun hn hr => reads_arguments (ih _ hn) hr
      expressions := fun hn hr => reads_expressions (ih _ hn) hr
      moreExpressions := fun hn hr => reads_moreExpressions (ih _ hn) hr
      tableItems := fun hn hr => reads_tableItems (ih _ hn) hr
      tableItem := fun hn hr => reads_tableItem (ih _ hn) hr
      routine := fun hn hr => reads_routine (ih _ hn) hr
      block := fun hn hr => reads_block (ih _ hn) hr
      statement := fun hn hr => reads_statement (ih _ hn) hr
      returnValues := fun hn hr => reads_returnValues (ih _ hn) hr
      branches := fun hn hr => reads_branches (ih _ hn) hr
      forLoop := fun hn hr => reads_forLoop (ih _ hn) hr
      stepValue := fun hn hr => reads_stepValue (ih _ hn) hr
      assignmentOrCall := fun hn hr => reads_assignmentOrCall (ih _ hn) hr
      assignment := fun hn hr => reads_assignment (ih _ hn) hr
      moreTargets := fun hn hr => reads_moreTargets (ih _ hn) hr
      oneTarget := fun hn hr => reads_oneTarget (ih _ hn) hr }

end ScriptFront.Phrase
