import ScriptFront.Proofs.Walking
/-! The walks over expressions, statements and blocks, all taken together by rank. -/
namespace ScriptFront.Phrase
open Syntax Token

/-- The statements of a body, without the keyword that closed it. -/
def Parsed.outBody {s : Stream} {α β : Type} (p : Parsed s (α × β)) : α × Stream :=
  (p.value.1, p.rest)

/-- What is read further on. -/
def Parsed.behind {s t : Stream} {α : Type} (h : t.Follows s) (p : Parsed t α) : Parsed s α :=
  ⟨p.value, p.rest, p.rest_follows.trans h⟩

/-- The walks over streams of a rank below `n` come to what the readers make of them. -/
structure WalksBelow (ts : List Token) (n : Nat) : Prop where
  expression {floor s} : s.rank 4 < n → s.In ts →
    Walks ts (.call (.expression floor)) s.next (expression floor s) Parsed.out
  expression? {floor s} : s.rank 3 < n → s.In ts →
    Walks ts (.call (.expression? floor)) s.next (expression? floor s) Parsed.out?
  operand? {i u us} : Stream.rank ⟨i, u :: us⟩ 2 < n → Stream.In ⟨i, u :: us⟩ ts →
    Walks ts (Walk.operand? i u) i (operand? ⟨i, u :: us⟩) Parsed.out?
  operations {floor anchor left s} : s.rank 0 < n → s.In ts →
    Walks ts (.call (.operations floor anchor left)) s.next (operations floor anchor left s)
      Trail.out
  atom? {s} : s.rank 1 < n → s.In ts → Walks ts (.call .atom?) s.next (atom? s) Parsed.out?
  chain {s} : s.rank 0 < n → s.In ts → Walks ts (.call .chain) s.next (chain s) Parsed.out
  suffixes {anchor e s} : s.rank 1 < n → s.In ts →
    Walks ts (.call (.suffixes anchor e)) s.next (suffixes anchor e s) Trail.out
  arguments {s} : s.rank 0 < n → s.In ts →
    Walks ts (.call .arguments) s.next (arguments s) Parsed.out
  expressions {s} : s.rank 5 < n → s.In ts →
    Walks ts (.call .expressions) s.next (expressions s) Parsed.out
  moreExpressions {s} : s.rank 0 < n → s.In ts →
    Walks ts (.call .moreExpressions) s.next (moreExpressions s) Trail.out
  tableItems {s} : s.rank 6 < n → s.In ts →
    Walks ts (.call .tableItems) s.next (tableItems s) Parsed.out
  tableItem {s} : s.rank 5 < n → s.In ts →
    Walks ts (.call .tableItem) s.next (tableItem s) Parsed.out
  routine {s} : s.rank 0 < n → s.In ts → Walks ts (.call .routine) s.next (routine s) Parsed.out
  block {closers returned s} : s.rank 3 < n → s.In ts →
    Walks ts (.call (.block (some closers) returned)) s.next (block closers returned s)
      Parsed.outBody
  statement {i u us} : Stream.rank ⟨i, u :: us⟩ 2 < n → Stream.In ⟨i, u :: us⟩ ts →
    Walks ts (Walk.statement i u) i (statement ⟨i, u :: us⟩) Parsed.out
  returnValues {s} : s.rank 4 < n → s.In ts →
    Walks ts (.call .returnValues) s.next (returnValues s) Trail.out
  branches {s} : s.rank 5 < n → s.In ts → Walks ts (.call .branches) s.next (branches s) Parsed.out
  forLoop {anchor s} : s.rank 0 < n → s.In ts →
    Walks ts (.call (.forLoop anchor)) s.next (forLoop anchor s) Parsed.out
  stepValue {s} : s.rank 0 < n → s.In ts →
    Walks ts (.call .stepValue) s.next (stepValue s) Trail.out
  assignmentOrCall {s} : s.rank 1 < n → s.In ts →
    Walks ts (.call (.assignmentOrCall s.next)) s.next (assignmentOrCall s) Parsed.out
  assignment {anchor first s} : s.rank 1 < n → s.In ts →
    Walks ts (.call (.assignment anchor first)) s.next (assignment anchor first s) Parsed.out
  moreTargets {s} : s.rank 0 < n → s.In ts →
    Walks ts (.call .moreTargets) s.next (moreTargets s) Trail.out
  oneTarget {s} : s.rank 1 < n → s.In ts →
    Walks ts (.call .oneTarget) s.next (oneTarget s) Parsed.out

section
variable {ts us : List Token} {s : Stream} {i : TokenIndex} {u : Token}

theorem walks_typeTest {anchor : TokenIndex} {e : Expr} (hs : s.In ts) :
    Walks ts (Walk.typeTest anchor e) s.next (typeTest anchor e s) Trail.out := by
  rw [typeTest, Walk.typeTest]
  split
  · next s₁ h₁ ho =>
    exact .step (Walk.accept_some hs ho)
      (.bind (walks_typeExpr (hs.follows h₁)) fun _ _ => .done rfl rfl)
  · next ho => exact .step (Walk.accept_none hs ho) (.done rfl rfl)

theorem walks_semicolons {s : Stream} (hs : s.In ts) :
    Walks ts (.call .semicolons) s.next (.ok (semicolons s)) Trail.out := by
  refine .call ?_
  rw [semicolons, Procedure.walk, Walk.semicolons]
  split
  · next s₁ h₁ ho => exact .step (Walk.accept_some hs ho) (walks_semicolons (hs.follows h₁))
  · next ho => exact .step (Walk.accept_none hs ho) (.done rfl rfl)
termination_by s.left.length
decreasing_by exact Stream.Follows.length_lt ‹_›

theorem walks_expression {floor : Nat} (ih : WalksBelow ts (s.rank 4)) (hs : s.In ts) :
    Walks ts (Walk.expression floor) s.next (expression floor s) Parsed.out := by
  rw [expression, Walk.expression]
  refine .step (Walk.nextIndex_comes hs)
    (.bind (ih.expression? (Stream.rank_lt (by decide)) hs) fun e? _ => ?_)
  cases e? with
  | none => exact .error hs.le
  | some e => exact .done rfl rfl

theorem walks_expression? {floor : Nat} (ih : WalksBelow ts (s.rank 3)) (hs : s.In ts) :
    Walks ts (Walk.expression? floor) s.next (expression? floor s) Parsed.out? := by
  obtain ⟨i, _ | ⟨u, us⟩⟩ := s
  · rw [expression?_of_stops Stream.stops_nil, Walk.expression?]
    exact .step (Walk.peek_nil hs) (.done rfl rfl)
  · rw [expression?, Walk.expression?]
    refine .step (Walk.peek_cons hs)
      (.bind (ih.operand? (Stream.rank_lt (by decide)) hs) fun e? _ => ?_)
    obtain _ | ⟨e₁, s₁, h₁⟩ := e?
    · exact .done rfl rfl
    · refine .bind (walks_typeTest (hs.follows h₁)) ?_
      rintro ⟨e₂, s₂, h₂⟩ -
      have h₂' := h₂.follows h₁
      exact .bind (ih.operations (h₂'.below (by decide)) (hs.follows h₂')) fun _ _ => .done rfl rfl

theorem walks_operand? (ih : WalksBelow ts (Stream.rank ⟨i, u :: us⟩ 2))
    (hs : Stream.In ⟨i, u :: us⟩ ts) :
    Walks ts (Walk.operand? i u) i (operand? ⟨i, u :: us⟩) Parsed.out? := by
  rw [operand?]
  split
  · next op s₁ h₁ ho =>
    obtain ⟨_, _, _, he, rfl, hu⟩ := tokenWith?_some ho
    cases he
    rw [Walk.operand?, hu]
    exact .step Walk.skip_comes
      (.bind (ih.expression (h₁.below (by decide)) hs.tail) fun _ _ => .done rfl rfl)
  · next ho =>
    have hu := Stream.stops_cons.1 (tokenWith?_none_iff.1 ho)
    rw [Walk.operand?, Option.not_isSome_iff_eq_none.1 hu]
    exact ih.atom? (Stream.rank_lt (by decide)) hs

theorem walks_operations {floor : Nat} {anchor : TokenIndex} {left : Expr}
    (ih : WalksBelow ts (s.rank 0)) (hs : s.In ts) :
    Walks ts (Walk.operations floor anchor left) s.next (operations floor anchor left s)
      Trail.out := by
  rw [operations, Walk.operations]
  split
  · next op s₁ h₁ ho =>
    obtain ⟨i, u, us, rfl, rfl, hu⟩ := tokenWith?_some ho
    obtain ⟨hu, hl⟩ := Option.filter_eq_some_iff.1 hu
    refine .step (Walk.peek_cons hs) ?_
    dsimp only
    rw [hu]
    dsimp only
    rw [if_neg (Nat.not_le.2 (of_decide_eq_true hl))]
    refine .step Walk.skip_comes (.bind (ih.expression (h₁.below (by decide)) hs.tail) ?_)
    rintro ⟨right, s₂, h₂⟩ -
    have h₂' := h₂.trans h₁
    exact .handed (ih.operations (h₂'.below (by decide)) (hs.follows h₂')) fun _ => ⟨_, rfl, rfl⟩
  · next ho =>
    obtain ⟨i, _ | ⟨u, us⟩⟩ := s
    · exact .step (Walk.peek_nil hs) (.done rfl rfl)
    · have hstop := Stream.stops_cons.1 (binaryOp?_none_iff.1 ho)
      refine .step (Walk.peek_cons hs) ?_
      dsimp only
      split
      · exact .done rfl rfl
      · next op hu =>
        rw [if_pos (Nat.not_lt.1 fun hl => hstop ⟨op, hu, hl⟩)]
        exact .done rfl rfl

theorem walks_atom? (ih : WalksBelow ts (s.rank 1)) (hs : s.In ts) :
    Walks ts Walk.atom? s.next (atom? s) Parsed.out? := by
  rw [atom?]
  split
  · next p hp =>
    obtain ⟨e, s₁, h₁⟩ := p
    obtain ⟨i, u, us, rfl, rfl, hu⟩ := tokenWith?_some hp
    rw [Walk.atom?]
    refine .step (Walk.advance_cons hs) ?_
    have hu : singleToken? i u = some e := hu
    simp only [hu]
    exact .done rfl rfl
  · next hp =>
    split
    · next s₁ h₁ ht =>
      rw [Walk.atom?]
      exact .step (Walk.advance_some hs ht)
        (.bind (ih.tableItems (h₁.below (by decide)) (hs.follows h₁)) fun _ _ => .done rfl rfl)
    · next s₁ h₁ ht =>
      rw [Walk.atom?]
      exact .step (Walk.advance_some hs ht)
        (.bind (ih.routine (h₁.below (by decide)) (hs.follows h₁)) fun _ _ => .done rfl rfl)
    iterate 2
      · next ht =>
        rw [Walk.atom?]
        exact .step (Walk.advance_some hs ht) (.step (Walk.undo_token ht)
          (.bind (ih.chain (Stream.rank_lt (by decide)) hs) fun _ _ => .done rfl rfl))
    · next hcurly hfunction hname hround =>
      rw [Walk.atom?]
      obtain ⟨i, _ | ⟨u, us⟩⟩ := s
      · exact .step (Walk.advance_nil hs) (.step Walk.undo_comes (.done rfl rfl))
      · have hu := Stream.stops_cons.1 (tokenWith?_none_iff.1 hp)
        refine .step (Walk.advance_cons hs) ?_
        simp only [Option.not_isSome_iff_eq_none.1 hu]
        split
        · exact (hcurly _ _ rfl).elim
        · exact (hfunction _ _ rfl).elim
        · exact (hname _ _ _ rfl).elim
        · exact (hround _ _ rfl).elim
        · exact .step Walk.undo_comes (.done rfl rfl)

theorem walks_chain (ih : WalksBelow ts (s.rank 0)) (hs : s.In ts) :
    Walks ts Walk.chain s.next (chain s) Parsed.out := by
  rw [chain]
  split
  · next w s₁ h₁ ht =>
    rw [Walk.chain]
    exact .step (Walk.next_some hs ht)
      (.handed (ih.suffixes (h₁.below (by decide)) (hs.follows h₁)) fun _ => ⟨_, rfl, rfl⟩)
  · next s₁ h₁ ht =>
    rw [Walk.chain]
    refine .step (Walk.next_some hs ht)
      (.bind (ih.expression (h₁.below (by decide)) (hs.follows h₁)) ?_)
    rintro ⟨inner, s₂, h₂⟩ -
    have h₂' := h₂.trans h₁
    refine .bind (walks_operator (hs.follows h₂')) ?_
    rintro ⟨_, s₃, h₃⟩ -
    have h₃' := h₃.trans h₂'
    exact .handed (ih.suffixes (h₃'.below (by decide)) (hs.follows h₃')) fun _ => ⟨_, rfl, rfl⟩
  · next hname hround =>
    rw [Walk.chain]
    refine .unexpected hs fun u t h hu => ?_
    dsimp only
    split
    · exact (hname _ _ _ hu).elim
    · exact (hround _ _ hu).elim
    · rfl

theorem walks_suffixes {anchor : TokenIndex} {e : Expr} (ih : WalksBelow ts (s.rank 1))
    (hs : s.In ts) :
    Walks ts (Walk.suffixes anchor e) s.next (suffixes anchor e s) Trail.out := by
  rw [suffixes]
  split
  · next s₁ h₁ ht =>
    rw [Walk.suffixes]
    refine .step (Walk.advance_some hs ht)
      (.bind (ih.expression (h₁.below (by decide)) (hs.follows h₁)) ?_)
    rintro ⟨key, s₂, h₂⟩ -
    have h₂' := h₂.trans h₁
    refine .bind (walks_operator (hs.follows h₂')) ?_
    rintro ⟨_, s₃, h₃⟩ -
    have h₃' := h₃.trans h₂'
    exact .handed (ih.suffixes (h₃'.below (by decide)) (hs.follows h₃')) fun _ => ⟨_, rfl, rfl⟩
  · next s₁ h₁ ht =>
    rw [Walk.suffixes]
    refine .step (Walk.advance_some hs ht) (.bind (walks_name (hs.follows h₁)) ?_)
    rintro ⟨field, s₂, h₂⟩ -
    have h₂' := h₂.trans h₁
    exact .handed (ih.suffixes (h₂'.below (by decide)) (hs.follows h₂')) fun _ => ⟨_, rfl, rfl⟩
  · next s₁ h₁ ht =>
    rw [Walk.suffixes]
    refine .step (Walk.advance_some hs ht) (.bind (walks_name (hs.follows h₁)) ?_)
    rintro ⟨method, s₂, h₂⟩ -
    have h₂' := h₂.trans h₁
    refine .bind (ih.arguments (h₂'.below (by decide)) (hs.follows h₂')) ?_
    rintro ⟨args, s₃, h₃⟩ -
    have h₃' := h₃.trans h₂'
    exact .handed (ih.suffixes (h₃'.below (by decide)) (hs.follows h₃')) fun _ => ⟨_, rfl, rfl⟩
  iterate 3
    · next ht =>
      rw [Walk.suffixes]
      refine .step (Walk.advance_some hs ht) (.step (Walk.undo_token ht)
        (.bind (ih.arguments (Stream.rank_lt (by decide)) hs) ?_))
      rintro ⟨args, s₁, h₁⟩ -
      exact .handed (ih.suffixes (h₁.below (by decide)) (hs.follows h₁)) fun _ => ⟨_, rfl, rfl⟩
  · next hsquare hdot hcolon hround hcurly hstring =>
    rw [Walk.suffixes]
    obtain ⟨i, _ | ⟨u, us⟩⟩ := s
    · exact .step (Walk.advance_nil hs) (.step Walk.undo_comes (.done rfl rfl))
    · refine .step (Walk.advance_cons hs) ?_
      dsimp only
      split
      · exact (hsquare _ _ rfl).elim
      · exact (hdot _ _ rfl).elim
      · exact (hcolon _ _ rfl).elim
      · exact (hround _ _ rfl).elim
      · exact (hcurly _ _ rfl).elim
      · exact (hstring _ _ _ rfl).elim
      · exact .step Walk.undo_comes (.done rfl rfl)

theorem walks_arguments (ih : WalksBelow ts (s.rank 0)) (hs : s.In ts) :
    Walks ts Walk.arguments s.next (arguments s) Parsed.out := by
  rw [arguments]
  split
  · next s₁ h₁ ht =>
    have hs₁ := hs.follows h₁
    rw [Walk.arguments]
    refine .step (Walk.next_some hs ht) ?_
    dsimp only
    split
    · next ho => exact .step (Walk.accept_some hs₁ ho) (.done rfl rfl)
    · next ho =>
      refine .step (Walk.accept_none hs₁ ho) (.bind (ih.expressions (h₁.below (by decide)) hs₁) ?_)
      rintro ⟨args, s₂, h₂⟩ -
      exact .bind (walks_operator (hs₁.follows h₂)) fun _ _ => .done rfl rfl
  · next s₁ h₁ ht =>
    rw [Walk.arguments]
    exact .step (Walk.next_some hs ht)
      (.bind (ih.tableItems (h₁.below (by decide)) (hs.follows h₁)) fun _ _ => .done rfl rfl)
  · next ht =>
    rw [Walk.arguments]
    exact .step (Walk.next_some hs ht) (.done rfl rfl)
  · next hround hcurly hstring =>
    rw [Walk.arguments]
    refine .unexpected hs fun u t h hu => ?_
    dsimp only
    split
    · exact (hround _ _ hu).elim
    · exact (hcurly _ _ hu).elim
    · exact (hstring _ _ _ hu).elim
    · rfl

theorem walks_expressions (ih : WalksBelow ts (s.rank 5)) (hs : s.In ts) :
    Walks ts Walk.expressions s.next (expressions s) Parsed.out := by
  rw [expressions, Walk.expressions]
  refine .bind (ih.expression (Stream.rank_lt (by decide)) hs) ?_
  rintro ⟨first, s₁, h₁⟩ -
  exact .bind (ih.moreExpressions (h₁.below (by decide)) (hs.follows h₁)) fun _ _ => .done rfl rfl

theorem walks_moreExpressions (ih : WalksBelow ts (s.rank 0)) (hs : s.In ts) :
    Walks ts Walk.moreExpressions s.next (moreExpressions s) Trail.out := by
  rw [moreExpressions, Walk.moreExpressions]
  split
  · next s₁ h₁ ho =>
    exact .step (Walk.accept_some hs ho)
      (.handed (ih.expressions (h₁.below (by decide)) (hs.follows h₁)) fun _ => ⟨_, rfl, rfl⟩)
  · next ho => exact .step (Walk.accept_none hs ho) (.done rfl rfl)

theorem walks_tableItems (ih : WalksBelow ts (s.rank 6)) (hs : s.In ts) :
    Walks ts Walk.tableItems s.next (tableItems s) Parsed.out := by
  rw [tableItems, Walk.tableItems]
  split
  · next ho => exact .step (Walk.accept_some hs ho) (.done rfl rfl)
  · next ho =>
    refine .step (Walk.accept_none hs ho) (.bind (ih.tableItem (Stream.rank_lt (by decide)) hs) ?_)
    rintro ⟨first, s₁, h₁⟩ -
    have hs₁ := hs.follows h₁
    dsimp only [Parsed.out]
    split
    · next s₂ h₂ ht =>
      have h₂' := h₂.trans h₁
      have rest := ih.tableItems (h₂'.below (by decide)) (hs.follows h₂')
      obtain ⟨i, u, us, rfl, rfl, hu⟩ := tokenWith?_some ht
      unfold separatorOf? at hu
      split at hu
      · exact .step (Walk.accept_token hs₁ (token?_cons _) rfl)
          (.bind rest fun _ _ => .done rfl rfl)
      · exact .step (Walk.accept_other hs₁ (token?_cons _) rfl)
          (.step (Walk.accept_token hs₁ (token?_cons _) rfl) (.bind rest fun _ _ => .done rfl rfl))
      · cases hu
    · next ht =>
      have none {o} (h : separatorOf? (.operator o) = some ()) : operator? o s₁ = none := by
        refine operator?_none_iff.2 fun u hu => ?_
        have := tokenWith?_none_iff.1 ht u hu
        rintro rfl
        exact this (by simp [h])
      exact .step (Walk.accept_none hs₁ (none rfl)) (.step (Walk.accept_none hs₁ (none rfl))
        (.bind (walks_operator hs₁) fun _ _ => .done rfl rfl))

theorem walks_tableItem (ih : WalksBelow ts (s.rank 5)) (hs : s.In ts) :
    Walks ts Walk.tableItem s.next (tableItem s) Parsed.out := by
  rw [tableItem]
  split
  · next s₁ h₁ ho =>
    rw [Walk.tableItem]
    refine .step (Walk.accept_some hs ho)
      (.bind (ih.expression (h₁.below (by decide)) (hs.follows h₁)) ?_)
    rintro ⟨key, s₂, h₂⟩ -
    have h₂' := h₂.trans h₁
    refine .bind (walks_operator (hs.follows h₂')) ?_
    rintro ⟨_, s₃, h₃⟩ -
    have h₃' := h₃.trans h₂'
    refine .bind (walks_operator (hs.follows h₃')) ?_
    rintro ⟨_, s₄, h₄⟩ -
    have h₄' := h₄.trans h₃'
    exact .bind (ih.expression (h₄'.below (by decide)) (hs.follows h₄')) fun _ _ => .done rfl rfl
  · next ho =>
    split
    · next w s₁ h₁ hf =>
      rw [Walk.tableItem]
      obtain ⟨i, us, rfl, rfl⟩ := fieldName?_some hf
      refine .step (Walk.accept_none hs ho)
        (.step (Walk.advance_cons hs) (.step (Walk.sees_comes hs.tail) ?_))
      simp only [operator?_cons, Option.isSome_some]
      exact .step Walk.skip_comes
        (.bind (ih.expression (h₁.below (by decide)) hs.tail.tail) fun _ _ => .done rfl rfl)
    · next hf =>
      rw [Walk.tableItem]
      refine .step (Walk.accept_none hs ho) ?_
      have value : Walks ts (.call (.expression 0)) s.next (expression 0 s) Parsed.out :=
        ih.expression (Stream.rank_lt (by decide)) hs
      obtain ⟨i, _ | ⟨u, us⟩⟩ := s
      · exact .step (Walk.advance_nil hs)
          (.step Walk.undo_comes (.bind value fun _ _ => .done rfl rfl))
      · refine .step (Walk.advance_cons hs) ?_
        dsimp only
        split
        · next w h =>
          cases h
          have he : operator? .equal ⟨i + 1, us⟩ = none := by
            cases he : operator? .equal ⟨i + 1, us⟩ with
            | none => rfl
            | some p =>
              obtain ⟨_, vs, hc, -⟩ := operator?_some he
              cases hc
              obtain ⟨_, hf'⟩ := fieldName?_cons i w vs
              cases hf.symm.trans hf'
          refine .step (Walk.sees_comes hs.tail) ?_
          simp only [he]
          exact .step Walk.undo_comes (.bind value fun _ _ => .done rfl rfl)
        · exact .step Walk.undo_comes (.bind value fun _ _ => .done rfl rfl)

theorem walks_routine (ih : WalksBelow ts (s.rank 0)) (hs : s.In ts) :
    Walks ts Walk.routine s.next (routine s) Parsed.out := by
  rw [routine, Walk.routine]
  refine .bind (walks_signature hs) ?_
  rintro ⟨sig, s₁, h₁⟩ -
  exact .bind (ih.block (h₁.below (by decide)) (hs.follows h₁)) fun _ _ => .done rfl rfl

/-- The next statement, after any semicolons; or what is left once a closing keyword is taken, and
at the end where none has to be. -/
def statement? (closers : Option Closers) (returned : Bool) (s : Stream) :
    Except ParseError (Parsed s Stmt ⊕ Trail s Unit) :=
  let ⟨_, s₁, h₁⟩ := semicolons s
  match token? s₁, closers with
  | none, some _ => .error (.endOfInput s₁.next)
  | none, none => .ok (.inr ⟨(), s₁, h₁⟩)
  | some ⟨u, s₂, h₂⟩, closers =>
    match closers.bind (·.ofToken? u), returned with
    | some _, _ => .ok (.inr ⟨(), s₂, (h₂.ofRest h₁).isRest⟩)
    | none, true => .error (.alreadyReturned s₁.next)
    | none, false => do
      let ⟨stmt, s₃, h₃⟩ ← statement s₁
      return .inl ⟨stmt, s₃, h₃.ofRest h₁⟩

def outStatement? {s : Stream} : Parsed s Stmt ⊕ Trail s Unit → Option Stmt × Stream
  | .inl p => (some p.value, p.rest)
  | .inr t => (none, t.rest)

theorem walks_statement? {closers : Option Closers} {returned : Bool}
    (ih : WalksBelow ts (s.rank 3)) (hs : s.In ts) :
    Walks ts (Walk.statement? closers returned) s.next (statement? closers returned s)
      outStatement? := by
  rw [Walk.statement?.eq_def, statement?]
  have hsemicolons := walks_semicolons hs
  generalize semicolons s = p at hsemicolons
  obtain ⟨⟨⟩, s₁, h₁⟩ := p
  have hs₁ := hs.rest h₁
  refine .step hsemicolons ?_
  obtain ⟨i, _ | ⟨u, us⟩⟩ := s₁
  · refine .step (Walk.peek_nil hs₁) ?_
    cases closers with
    | none => exact .done rfl rfl
    | some c => exact .step (Walk.endIndex_nil hs₁) (.error hs₁.le)
  · refine .step (Walk.peek_cons hs₁) ?_
    dsimp only [token?_cons]
    split
    · next h =>
      rw [h]
      exact .step Walk.skip_comes (.done rfl rfl)
    · next h =>
      rw [h]
      cases returned with
      | true => exact .error hs₁.le
      | false => exact .bind (ih.statement (h₁.rank_lt (by decide)) hs₁) fun _ _ => .done rfl rfl

theorem walks_returnValues (ih : WalksBelow ts (s.rank 4)) (hs : s.In ts) :
    Walks ts Walk.returnValues s.next (returnValues s) Trail.out := by
  rw [returnValues, Walk.returnValues]
  refine .bind (ih.expression? (Stream.rank_lt (by decide)) hs) fun e? _ => ?_
  obtain _ | ⟨first, s₁, h₁⟩ := e?
  · exact .done rfl rfl
  · exact .bind (ih.moreExpressions (h₁.below (by decide)) (hs.follows h₁)) fun _ _ => .done rfl rfl

theorem walks_stepValue (ih : WalksBelow ts (s.rank 0)) (hs : s.In ts) :
    Walks ts Walk.stepValue s.next (stepValue s) Trail.out := by
  rw [stepValue, Walk.stepValue]
  split
  · next s₁ h₁ ho =>
    exact .step (Walk.accept_some hs ho)
      (.bind (ih.expression (h₁.below (by decide)) (hs.follows h₁)) fun _ _ => .done rfl rfl)
  · next ho => exact .step (Walk.accept_none hs ho) (.done rfl rfl)

theorem walks_assignment {anchor : TokenIndex} {first : Target} (ih : WalksBelow ts (s.rank 1))
    (hs : s.In ts) :
    Walks ts (Walk.assignment anchor first) s.next (assignment anchor first s) Parsed.out := by
  rw [assignment, Walk.assignment]
  refine .bind (ih.moreTargets (Stream.rank_lt (by decide)) hs) ?_
  rintro ⟨more, s₁, h₁⟩ -
  refine .bind (walks_operator (hs.rest h₁)) ?_
  rintro ⟨_, s₂, h₂⟩ -
  have h₂' := h₂.ofRest h₁
  exact .bind (ih.expressions (h₂'.below (by decide)) (hs.follows h₂')) fun _ _ => .done rfl rfl

theorem walks_moreTargets (ih : WalksBelow ts (s.rank 0)) (hs : s.In ts) :
    Walks ts Walk.moreTargets s.next (moreTargets s) Trail.out := by
  rw [moreTargets, Walk.moreTargets]
  split
  · next s₁ h₁ ho =>
    refine .step (Walk.accept_some hs ho)
      (.bind (ih.oneTarget (h₁.below (by decide)) (hs.follows h₁)) ?_)
    rintro ⟨target, s₂, h₂⟩ -
    have h₂' := h₂.trans h₁
    exact .bind (ih.moreTargets (h₂'.below (by decide)) (hs.follows h₂')) fun _ _ => .done rfl rfl
  · next ho => exact .step (Walk.accept_none hs ho) (.done rfl rfl)

theorem walks_oneTarget (ih : WalksBelow ts (s.rank 1)) (hs : s.In ts) :
    Walks ts Walk.oneTarget s.next (oneTarget s) Parsed.out := by
  rw [oneTarget, Walk.oneTarget]
  have htyped := walks_typedTarget? hs
  split
  · next ht =>
    rw [ht] at htyped
    exact .step htyped (.done rfl rfl)
  · next ht =>
    rw [ht] at htyped
    refine .step htyped (.bind (ih.chain (Stream.rank_lt (by decide)) hs) ?_)
    rintro ⟨e, s₁, h₁⟩ -
    exact .handed (walks_ofExcept (hs.follows h₁)) fun _ => ⟨_, rfl, rfl⟩

theorem walks_block {closers : Closers} {returned : Bool} (ih : WalksBelow ts (s.rank 3))
    (hs : s.In ts) :
    Walks ts (Walk.block (some closers) returned) s.next (block closers returned s)
      Parsed.outBody := by
  have hfirst : Walks ts (Walk.statement? (some closers) returned) s.next
      (statement? (some closers) returned s) outStatement? := walks_statement? ih hs
  rw [statement?] at hfirst
  rw [block, Walk.block]
  generalize semicolons s = p at hfirst ⊢
  obtain ⟨⟨⟩, s₁, h₁⟩ := p
  have hs₁ := hs.rest h₁
  obtain ⟨i, _ | ⟨u, us⟩⟩ := s₁
  · exact .stop hfirst
  · dsimp only [token?_cons, Option.bind_some] at hfirst ⊢
    cases hc : closers.ofToken? u with
    | some k =>
      rw [hc] at hfirst
      rw [tokenWith?_cons hc]
      exact .step hfirst (.done rfl rfl)
    | none =>
      rw [hc] at hfirst
      rw [tokenWith?_of_none hc]
      cases returned with
      | true => exact .stop hfirst
      | false =>
        refine .bind_map hfirst ?_
        rintro ⟨first, s₂, h₂⟩ -
        have h₂' := h₂.ofRest h₁
        exact .bind (ih.block (h₂'.below (by decide)) (hs.follows h₂')) fun _ _ => .done rfl rfl

section
variable {γ : Type} {n : Nat} {anchor : TokenIndex} {out : γ → Stmt × Stream}

/-! Three parts of statements that are walked on their own. Their readers stand inside others, which
make of the part what `mk` says. -/

theorem walks_functionStatement (ih : WalksBelow ts n) (hn : s.rank 7 < n) (hs : s.In ts)
    (mk : Parsed s Stmt → γ) (hmk : ∀ p, out (mk p) = p.out) :
    Walks ts (Walk.functionStatement anchor) s.next (do
      let ⟨(names, isMethod), s₁, h₁⟩ ← path s
      let ⟨body, s₂, h₂⟩ ← routine s₁
      return mk ⟨.routine anchor names isMethod body, s₂, h₂.trans h₁⟩) out := by
  rw [Walk.functionStatement]
  refine .bind (walks_path hs) ?_
  rintro ⟨⟨names, isMethod⟩, s₁, h₁⟩ -
  exact .bind (ih.routine (Nat.lt_trans (h₁.rank_lt (by decide)) hn) (hs.follows h₁))
    fun _ _ => .value (hmk _)

theorem walks_localNames (ih : WalksBelow ts n) (hn : s.rank 7 < n) (hs : s.In ts)
    (mk : Parsed s Stmt → γ) (hmk : ∀ p, out (mk p) = p.out) :
    Walks ts (Walk.localNames anchor) s.next (do
      let ⟨names, s₁, h₁⟩ ← typedNames s
      match operator? .equal s₁ with
      | some ⟨_, s₂, h₂⟩ => do
        have h₂ := h₂.trans h₁
        let ⟨values, s₃, h₃⟩ ← expressions s₂
        return mk ⟨.localNames anchor names values, s₃, h₃.trans h₂⟩
      | none => return mk ⟨.localNames anchor names [], s₁, h₁⟩) out := by
  rw [Walk.localNames]
  refine .bind (walks_typedNames hs) ?_
  rintro ⟨names, s₁, h₁⟩ -
  have hs₁ := hs.follows h₁
  dsimp only [Parsed.out]
  split
  · next s₂ h₂ ho =>
    have h₂' := h₂.trans h₁
    refine .step (Walk.accept_some hs₁ ho) ?_
    exact .bind (ih.expressions (Nat.lt_trans (h₂'.rank_lt (by decide)) hn) (hs.follows h₂'))
      fun _ _ => .value (hmk _)
  · next ho => exact .step (Walk.accept_none hs₁ ho) (.value (hmk _))

theorem walks_numericFor {counter : Syntax.TypedName} (ih : WalksBelow ts n) (hn : s.rank 7 < n)
    (hs : s.In ts) (mk : Parsed s Stmt → γ) (hmk : ∀ p, out (mk p) = p.out) :
    Walks ts (Walk.numericFor anchor counter) s.next (do
      let ⟨start, s₁, h₁⟩ ← expression 0 s
      let ⟨_, s₂, h₂⟩ ← operator .comma s₁
      have h₂ := h₂.trans h₁
      let ⟨stop, s₃, h₃⟩ ← expression 0 s₂
      have h₃ := h₃.trans h₂
      let ⟨step, s₄, h₄⟩ ← stepValue s₃
      have h₄ := h₄.follows h₃
      let ⟨_, s₅, h₅⟩ ← keyword .do_ s₄
      have h₅ := h₅.trans h₄
      let ⟨(body, _), s₆, h₆⟩ ← block .atEnd false s₅
      return mk ⟨.numericFor anchor counter start stop step body, s₆, h₆.trans h₅⟩) out := by
  have below {t : Stream} {i : Nat} (h : t.Follows s) (hi : i < 8) : t.rank i < n :=
    Nat.lt_trans (h.rank_lt hi) hn
  rw [Walk.numericFor]
  refine .bind (ih.expression (Nat.lt_trans (Stream.rank_lt (by decide)) hn) hs) ?_
  rintro ⟨start, s₁, h₁⟩ -
  refine .bind (walks_operator (hs.follows h₁)) ?_
  rintro ⟨_, s₂, h₂⟩ -
  have h₂' := h₂.trans h₁
  refine .bind (ih.expression (below h₂' (by decide)) (hs.follows h₂')) ?_
  rintro ⟨stop, s₃, h₃⟩ -
  have h₃' := h₃.trans h₂'
  refine .bind (ih.stepValue (below h₃' (by decide)) (hs.follows h₃')) ?_
  rintro ⟨step, s₄, h₄⟩ -
  have h₄' := h₄.follows h₃'
  refine .bind (walks_keyword (hs.follows h₄')) ?_
  rintro ⟨_, s₅, h₅⟩ -
  have h₅' := h₅.trans h₄'
  exact .bind (ih.block (below h₅' (by decide)) (hs.follows h₅')) fun _ _ => .value (hmk _)

end

theorem walks_local (ih : WalksBelow ts (Stream.rank ⟨i, .keyword .local_ :: us⟩ 2))
    (hs : Stream.In ⟨i, .keyword .local_ :: us⟩ ts) :
    Walks ts (Walk.statement i (.keyword .local_)) i (statement ⟨i, .keyword .local_ :: us⟩)
      Parsed.out := by
  have h₁ := Stream.tail_follows i (.keyword .local_) us
  have hs₁ := hs.tail
  rw [Walk.statement, statement]
  refine .step Walk.skip_comes ?_
  dsimp only [token?_cons]
  split
  · next s₂ h₂ ho =>
    have h₂' := h₂.trans h₁
    refine .step (Walk.accept_some hs₁ ho) (.bind (walks_name (hs₁.follows h₂)) ?_)
    rintro ⟨w, s₃, h₃⟩ -
    have h₃' := h₃.trans h₂'
    exact .bind (ih.routine (h₃'.below (by decide)) (hs.follows h₃')) fun _ _ => .done rfl rfl
  · next ho =>
    exact .step (Walk.accept_none hs₁ ho) (walks_localNames ih (h₁.below (by decide)) hs₁
      (Parsed.behind h₁) fun _ => rfl)

/-- A statement that begins with a keyword, or a keyword that begins none. -/
theorem walks_keywordStatement {k : Keyword}
    (ih : WalksBelow ts (Stream.rank ⟨i, .keyword k :: us⟩ 2))
    (hs : Stream.In ⟨i, .keyword k :: us⟩ ts) :
    Walks ts (Walk.statement i (.keyword k)) i (statement ⟨i, .keyword k :: us⟩) Parsed.out := by
  have h₁ := Stream.tail_follows i (.keyword k) us
  have hs₁ := hs.tail
  cases k with
  | do_ =>
    rw [Walk.statement, statement]
    exact .step Walk.skip_comes
      (.bind (ih.block (h₁.below (by decide)) hs₁) fun _ _ => .done rfl rfl)
  | while_ =>
    rw [Walk.statement, statement]
    refine .step Walk.skip_comes (.bind (ih.expression (h₁.below (by decide)) hs₁) ?_)
    rintro ⟨condition, s₂, h₂⟩ -
    have h₂' := h₂.trans h₁
    refine .bind (walks_keyword (hs.follows h₂')) ?_
    rintro ⟨_, s₃, h₃⟩ -
    have h₃' := h₃.trans h₂'
    exact .bind (ih.block (h₃'.below (by decide)) (hs.follows h₃')) fun _ _ => .done rfl rfl
  | repeat_ =>
    rw [Walk.statement, statement]
    refine .step Walk.skip_comes (.bind (ih.block (h₁.below (by decide)) hs₁) ?_)
    rintro ⟨_, s₂, h₂⟩ -
    have h₂' := h₂.trans h₁
    exact .bind (ih.expression (h₂'.below (by decide)) (hs.follows h₂')) fun _ _ => .done rfl rfl
  | if_ =>
    rw [Walk.statement, statement]
    exact .step Walk.skip_comes
      (.bind (ih.branches (h₁.below (by decide)) hs₁) fun _ _ => .done rfl rfl)
  | for_ =>
    rw [Walk.statement, statement]
    exact .step Walk.skip_comes
      (.handed (ih.forLoop (h₁.below (by decide)) hs₁) fun _ => ⟨_, rfl, rfl⟩)
  | function_ =>
    rw [Walk.statement, statement]
    exact .step Walk.skip_comes (walks_functionStatement ih (h₁.below (by decide)) hs₁
      (Parsed.behind h₁) fun _ => rfl)
  | local_ => exact walks_local ih hs
  | return_ =>
    rw [Walk.statement, statement]
    refine .step Walk.skip_comes (.bind (ih.returnValues (h₁.below (by decide)) hs₁) ?_)
    rintro ⟨values, s₂, h₂⟩ -
    have hs₂ := hs₁.rest h₂
    dsimp only [Trail.out]
    split
    · next ho => exact .step (Walk.accept_some hs₂ ho) (.done rfl rfl)
    · next ho => exact .step (Walk.accept_none hs₂ ho) (.done rfl rfl)
  | break_ =>
    rw [Walk.statement, statement]
    exact .step Walk.skip_comes (.done rfl rfl)
  | goto_ =>
    rw [Walk.statement, statement]
    exact .step Walk.skip_comes (.bind (walks_name hs₁) fun _ _ => .done rfl rfl)
  | _ =>
    rw [Walk.statement.eq_def, statement]
    exact .error hs.le

theorem walks_statement (ih : WalksBelow ts (Stream.rank ⟨i, u :: us⟩ 2))
    (hs : Stream.In ⟨i, u :: us⟩ ts) :
    Walks ts (Walk.statement i u) i (statement ⟨i, u :: us⟩) Parsed.out := by
  cases u with
  | keyword k => exact walks_keywordStatement ih hs
  | operator o =>
    cases o with
    | doubleColon =>
      rw [Walk.statement, statement]
      refine .step Walk.skip_comes (.bind (walks_name hs.tail) ?_)
      rintro ⟨w, s₂, h₂⟩ -
      exact .bind (walks_operator (hs.tail.follows h₂)) fun _ _ => .done rfl rfl
    | roundLeft =>
      rw [Walk.statement, statement]
      exact ih.assignmentOrCall (Stream.rank_lt (by decide)) hs
    | _ =>
      rw [Walk.statement.eq_def, statement]
      exact .error hs.le
  | name w =>
    rw [Walk.statement, statement]
    exact ih.assignmentOrCall (Stream.rank_lt (by decide)) hs
  | _ =>
    rw [Walk.statement.eq_def, statement]
    exact .error hs.le

theorem walks_branches (ih : WalksBelow ts (s.rank 5)) (hs : s.In ts) :
    Walks ts Walk.branches s.next (branches s) Parsed.out := by
  rw [branches, Walk.branches]
  refine .bind (ih.expression (Stream.rank_lt (by decide)) hs) ?_
  rintro ⟨condition, s₁, h₁⟩ -
  refine .bind (walks_keyword (hs.follows h₁)) ?_
  rintro ⟨_, s₂, h₂⟩ -
  have h₂' := h₂.trans h₁
  have hs₂ := hs.follows h₂'
  refine .bind (ih.block (h₂'.below (by decide)) hs₂) ?_
  rintro ⟨⟨body, closer⟩, s₃, h₃⟩ hr
  have h₃' := h₃.trans h₂'
  have hs₃ := hs.follows h₃'
  -- The cursor stands behind the keyword that closed the block.
  obtain ⟨n, us, rfl, hin⟩ := ((sound _).block (Nat.lt_succ_self _) hr).closed hs₂
  refine .step (Walk.last_cons hin) ?_
  dsimp only [Parsed.outBody]
  cases closer with
  | elseif_ => exact .bind (ih.branches (h₃'.below (by decide)) hs₃) fun _ _ => .done rfl rfl
  | else_ => exact .bind (ih.block (h₃'.below (by decide)) hs₃) fun _ _ => .done rfl rfl
  | _ => exact .done rfl rfl

/-- An assignment or a call, with whatever index its node is given. -/
theorem walks_assignmentOrCall {anchor : TokenIndex} (ih : WalksBelow ts (s.rank 1))
    (hs : s.In ts) :
    Walks ts (Walk.assignmentOrCall anchor) s.next
      (match typedTarget? s with
      | some ⟨typed, s₁, h₁⟩ => do
        let ⟨a, s₂, h₂⟩ ← assignment anchor (.name typed) s₁
        return ⟨a, s₂, h₂.trans h₁⟩
      | none => do
        let ⟨e, s₁, h₁⟩ ← chain s
        match token? s₁ with
        | some ⟨.operator .comma, _, _⟩ | some ⟨.operator .equal, _, _⟩ => do
          let target ← readTarget e
          let ⟨a, s₂, h₂⟩ ← assignment anchor target s₁
          return ⟨a, s₂, h₂.trans h₁⟩
        | _ =>
          match tokenWith? updateOf? s₁ with
          | some ⟨op, s₂, h₂⟩ => do
            have h₂ := h₂.trans h₁
            let target ← readTarget e
            let ⟨value, s₃, h₃⟩ ← expression 0 s₂
            return ⟨.update anchor target op value, s₃, h₃.trans h₂⟩
          | none => return ⟨← callStatement anchor e, s₁, h₁⟩)
      (Parsed.out (s := s)) := by
  rw [Walk.assignmentOrCall]
  have htyped := walks_typedTarget? hs
  split
  · next typed s₁ h₁ ht =>
    rw [ht] at htyped
    exact .step htyped
      (.handed (ih.assignment (h₁.below (by decide)) (hs.follows h₁)) fun _ => ⟨_, rfl, rfl⟩)
  · next ht =>
    rw [ht] at htyped
    refine .step htyped (.bind (ih.chain (Stream.rank_lt (by decide)) hs) ?_)
    rintro ⟨e, s₁, h₁⟩ -
    have hs₁ := hs.follows h₁
    dsimp only
    split
    iterate 2
      · next hu =>
        obtain ⟨i, us, rfl, -⟩ := token?_some hu
        refine .step (Walk.peek_cons hs₁) (.bind (walks_ofExcept hs₁) fun target _ => ?_)
        exact .handed (ih.assignment (h₁.below (by decide)) hs₁) fun _ => ⟨_, rfl, rfl⟩
    · next hcomma hequal =>
      split
      · next op s₂ h₂ hu =>
        have h₂' := h₂.trans h₁
        obtain ⟨i, u, us, rfl, rfl, ho⟩ := tokenWith?_some hu
        refine .step (Walk.peek_cons hs₁) ?_
        cases u with
        | operator o =>
          cases o <;> cases ho
          all_goals
            refine .step Walk.skip_comes (.bind (walks_ofExcept hs₁.tail) fun target _ => ?_)
            exact .bind (ih.expression (h₂'.below (by decide)) hs₁.tail) fun _ _ => .done rfl rfl
        | _ => cases ho
      · next hu =>
        have call : Walks ts (ofExcept (callStatement anchor e)) s₁.next
            (callStatement anchor e >>= fun c => .ok ⟨c, s₁, h₁⟩) (Parsed.out (s := s)) :=
          .handed (walks_ofExcept hs₁) fun _ => ⟨_, rfl, rfl⟩
        obtain ⟨i, _ | ⟨u, us⟩⟩ := s₁
        · exact .step (Walk.peek_nil hs₁) call
        · have hu := Stream.stops_cons.1 (tokenWith?_none_iff.1 hu)
          refine .step (Walk.peek_cons hs₁) ?_
          cases u with
          | operator o =>
            cases o with
            | comma => exact (hcomma _ _ rfl).elim
            | equal => exact (hequal _ _ rfl).elim
            | plusEqual | minusEqual | starEqual | slashEqual | percentEqual | caretEqual =>
              exact absurd rfl hu
            | _ => exact call
          | _ => exact call

/-- The names of a `for`, and the token after them. -/
def forNames (s : Stream) :
    Except ParseError (Parsed s (List Syntax.TypedName × TokenIndex × Token)) := do
  let ⟨names, s₁, h₁⟩ ← typedNames s
  match token? s₁ with
  | none => throw (.endOfInput s₁.next)
  | some ⟨u, s₂, h₂⟩ => return ⟨(names, s₁.next, u), s₂, h₂.trans h₁⟩

theorem walks_forNames {s : Stream} (hs : s.In ts) :
    Walks ts (.call .forNames) s.next (forNames s) Parsed.out := by
  refine .call ?_
  rw [forNames, typedNames, Procedure.walk, Walk.forNames, bind_assoc]
  refine .bind (walks_typedName hs) ?_
  rintro ⟨first, s₁, h₁⟩ -
  have hs₁ := hs.follows h₁
  dsimp only [Parsed.out]
  split
  · next s₂ h₂ ho =>
    have h₂' := h₂.trans h₁
    have ih := walks_forNames (hs.follows h₂')
    obtain ⟨i, us, rfl, rfl⟩ := operator?_some ho
    refine .step (Walk.next_cons hs₁) ?_
    rw [forNames] at ih
    cases hn : typedNames ⟨i + 1, us⟩ with
    | error e =>
      rw [hn] at ih
      exact .stop ih
    | ok c =>
      rw [hn] at ih
      obtain ⟨more, ⟨j, _ | ⟨u, vs⟩⟩, h₃⟩ := c
      · exact .stop ih
      · exact .step ih (.done rfl rfl)
  · next ho =>
    obtain ⟨i, _ | ⟨u, us⟩⟩ := s₁
    · exact ⟨i, hs₁.le, (Walk.next_nil hs₁).bind_error⟩
    · refine .step (Walk.next_cons hs₁) ?_
      dsimp only
      split
      · rw [operator?_cons] at ho
        cases ho
      · exact .done rfl rfl
termination_by s.left.length
decreasing_by exact h₂'.length_lt

theorem walks_forLoop {anchor : TokenIndex} (ih : WalksBelow ts (s.rank 0)) (hs : s.In ts) :
    Walks ts (Walk.forLoop anchor) s.next (forLoop anchor s) Parsed.out := by
  have hnames : Walks ts (.call .forNames) s.next (forNames s) Parsed.out := walks_forNames hs
  rw [forNames] at hnames
  rw [forLoop, Walk.forLoop]
  cases hn : typedNames s with
  | error e =>
    rw [hn] at hnames
    exact .stop hnames
  | ok c =>
    obtain ⟨names, s₁, h₁⟩ := c
    rw [hn, ok_bind] at hnames
    rw [ok_bind]
    dsimp only at hnames ⊢
    split
    · next s₂ h₂ counter ht =>
      have h₂' := h₂.trans h₁
      rw [ht] at hnames
      exact .step hnames (walks_numericFor ih (h₂'.below (by decide)) (hs.follows h₂')
        (Parsed.behind h₂') fun _ => rfl)
    · next s₂ h₂ ht =>
      have h₂' := h₂.trans h₁
      rw [ht] at hnames
      refine .step hnames (.bind (ih.expressions (h₂'.below (by decide)) (hs.follows h₂')) ?_)
      rintro ⟨iterators, s₃, h₃⟩ -
      have h₃' := h₃.trans h₂'
      refine .bind (walks_keyword (hs.follows h₃')) ?_
      rintro ⟨_, s₄, h₄⟩ -
      have h₄' := h₄.trans h₃'
      exact .bind (ih.block (h₄'.below (by decide)) (hs.follows h₄')) fun _ _ => .done rfl rfl
    · next hin hequal =>
      obtain ⟨i, _ | ⟨u, us⟩⟩ := s₁
      · exact .stop hnames
      · have hs₂ := hs.follows ((Stream.tail_follows i u us).trans h₁)
        refine .step hnames ?_
        dsimp only [Parsed.out]
        split
        · split
          · exact (hequal _ _ _ (token?_cons _) rfl).elim
          · exact .error hs₂.le
        · exact (hin _ _ (token?_cons _)).elim
        · exact .error hs₂.le

/-- By induction on the rank. -/
theorem walksBelow (ts : List Token) (n : Nat) : WalksBelow ts n := by
  induction n using Nat.strongRecOn with
  | ind n ih =>
    exact {
      expression := fun hn hs => .call (walks_expression (ih _ hn) hs)
      expression? := fun hn hs => .call (walks_expression? (ih _ hn) hs)
      operand? := fun hn => walks_operand? (ih _ hn)
      operations := fun hn hs => .call (walks_operations (ih _ hn) hs)
      atom? := fun hn hs => .call (walks_atom? (ih _ hn) hs)
      chain := fun hn hs => .call (walks_chain (ih _ hn) hs)
      suffixes := fun hn hs => .call (walks_suffixes (ih _ hn) hs)
      arguments := fun hn hs => .call (walks_arguments (ih _ hn) hs)
      expressions := fun hn hs => .call (walks_expressions (ih _ hn) hs)
      moreExpressions := fun hn hs => .call (walks_moreExpressions (ih _ hn) hs)
      tableItems := fun hn hs => .call (walks_tableItems (ih _ hn) hs)
      tableItem := fun hn hs => .call (walks_tableItem (ih _ hn) hs)
      routine := fun hn hs => .call (walks_routine (ih _ hn) hs)
      block := fun hn hs => .call (walks_block (ih _ hn) hs)
      statement := fun hn => walks_statement (ih _ hn)
      returnValues := fun hn hs => .call (walks_returnValues (ih _ hn) hs)
      branches := fun hn hs => .call (walks_branches (ih _ hn) hs)
      forLoop := fun hn hs => .call (walks_forLoop (ih _ hn) hs)
      stepValue := fun hn hs => .call (walks_stepValue (ih _ hn) hs)
      assignmentOrCall := fun hn hs => by
        rw [assignmentOrCall]
        exact .call (walks_assignmentOrCall (ih _ hn) hs)
      assignment := fun hn hs => .call (walks_assignment (ih _ hn) hs)
      moreTargets := fun hn hs => .call (walks_moreTargets (ih _ hn) hs)
      oneTarget := fun hn hs => .call (walks_oneTarget (ih _ hn) hs) }

end

end ScriptFront.Phrase
