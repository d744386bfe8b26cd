import ScriptFront.Proofs.Heads
import ScriptFront.Proofs.Reads
/-! Every reading is accepted: the rules of `Reading` say how readers succeed, and nothing besides. -/
namespace ScriptFront.Phrase
open Syntax

theorem Offers.yields {floor : Nat} {s t : Stream} {e : Expr}
    (h : Offers (expression? floor s) e t) : Yields (expression floor s) e t := by
  obtain ⟨_, h⟩ := h
  apply Yields.of
  rw [expression, h]
  rfl

theorem tokenWith?_cons {α : Type} {read? : Token → Option α} {n : TokenIndex} {u : Token}
    {us : List Token} {a : α} (h : read? u = some a) :
    tokenWith? read? ⟨n, u :: us⟩ = some ⟨a, ⟨n + 1, us⟩, Stream.tail_follows ..⟩ := by
  simp only [tokenWith?, token?_cons, h, Option.map_some]

theorem tokenWith?_of_none {α : Type} {read? : Token → Option α} {n : TokenIndex} {u : Token}
    {us : List Token} (h : read? u = none) : tokenWith? read? ⟨n, u :: us⟩ = none := by
  simp only [tokenWith?, token?_cons, h, Option.map_none]

theorem binaryOp?_cons {floor : Nat} {n : TokenIndex} {u : Token} {us : List Token}
    {op : BinaryOp} (h : BinaryOp.ofToken? u = some op) (hl : floor < op.level) :
    binaryOp? floor ⟨n, u :: us⟩ = some ⟨op, ⟨n + 1, us⟩, Stream.tail_follows ..⟩ := by
  apply tokenWith?_cons
  simp [h, Option.filter, hl]

theorem binaryOp?_of_stops {floor : Nat} {s : Stream} (h : s.Stops (BindsAbove floor)) :
    binaryOp? floor s = none := by
  refine tokenWith?_none_iff.2 (h.mono fun u hu => ?_)
  obtain ⟨op, hop⟩ := Option.isSome_iff_exists.1 hu
  obtain ⟨ho, hl⟩ := Option.filter_eq_some_iff.1 hop
  exact ⟨op, ho, of_decide_eq_true hl⟩

theorem atom?_of_startsChain {s : Stream} (h : s.Starts startsChain) :
    atom? s = (chain s).map some := by
  obtain ⟨n, u, us, rfl, hu⟩ := h
  rw [atom?]
  unfold startsChain at hu
  split at hu
  · rw [tokenWith?_of_none rfl]
    rfl
  · rw [tokenWith?_of_none rfl]
    rfl
  · cases hu

theorem operand?_of_stops {s : Stream} (h : s.Stops (startsExpression ·)) :
    operand? s = .ok none := by
  obtain ⟨n, _ | ⟨u, us⟩⟩ := s
  · rw [operand?, atom?]
    rfl
  · have hu := Stream.stops_cons.1 h
    have hun : UnaryOp.ofToken? u = none := by
      cases ho : UnaryOp.ofToken? u with
      | none => rfl
      | some op => exact absurd (startsExpression_of_unary ho) hu
    have hsi : singleToken? n u = none := by
      cases ho : singleToken? n u with
      | none => rfl
      | some e => exact absurd (startsExpression_of_single ho) hu
    rw [operand?, unaryOp?, tokenWith?_of_none hun]
    dsimp only
    rw [atom?, tokenWith?_of_none hsi, token?_cons]
    dsimp only
    split
    iterate 4
      · next heq =>
        cases heq
        exact absurd rfl hu
    · rfl

theorem expression?_of_stops {floor : Nat} {s : Stream} (h : s.Stops (startsExpression ·)) :
    expression? floor s = .ok none := by
  rw [expression?, operand?_of_stops h]
  rfl

theorem fieldName?_cons (n : TokenIndex) (w : String) (us : List Token) :
    ∃ h, fieldName? ⟨n, .name w :: .operator .equal :: us⟩ = some ⟨w, ⟨n + 1 + 1, us⟩, h⟩ := by
  apply found_of
  simp only [fieldName?, name?_cons, operator?_cons, Option.bind_eq_bind, Option.bind_some]
  rfl

theorem Reading.TypeTest.leaves {anchor : TokenIndex} {e e' : Expr} {s t : Stream}
    (h : Reading.TypeTest anchor e s e' t) : Leaves (typeTest anchor e s) e' t := by
  apply Leaves.of
  rw [typeTest]
  cases h with
  | is h =>
    obtain ⟨_, h⟩ := h
    simp only [keyword?_cons, h, ok_bind]
    rfl
  | none h =>
    simp only [keyword?_none_iff.2 h]
    rfl

/-- After its arguments a suffix is a call, whatever the token they start with. -/
theorem suffixes_of_startsArguments {anchor : TokenIndex} {e whole : Expr} {s t u : Stream}
    {args : List Expr} (h : s.Starts startsArguments) (ha : Yields (arguments s) args t)
    (hw : Leaves (suffixes anchor (.call (.plain anchor e args)) t) whole u) :
    Leaves (suffixes anchor e s) whole u := by
  obtain ⟨_, ha⟩ := ha
  obtain ⟨_, hw⟩ := hw
  obtain ⟨n, v, us, rfl, hv⟩ := h
  apply Leaves.of
  rw [suffixes, token?_cons]
  unfold startsArguments at hv
  split at hv
  iterate 3
    · simp only [ha, hw, ok_bind]
      rfl
  · cases hv

theorem suffixes_of_stops {anchor : TokenIndex} {e : Expr} {s : Stream}
    (h : s.Stops (startsSuffix ·)) : Leaves (suffixes anchor e s) e s := by
  apply Leaves.of
  rw [suffixes]
  obtain ⟨n, _ | ⟨u, us⟩⟩ := s
  · rfl
  · have hu := Stream.stops_cons.1 h
    rw [token?_cons]
    split
    iterate 6
      · next heq =>
        cases heq
        exact absurd rfl hu
    · rfl

theorem unaryOp?_of_startsChain {s : Stream} (h : s.Starts startsChain) : unaryOp? s = none := by
  obtain ⟨n, u, us, rfl, hu⟩ := h
  refine tokenWith?_of_none ?_
  unfold startsChain at hu
  split at hu
  · rfl
  · rfl
  · cases hu

theorem startsAssignment_of_update {u : Token} (h : (updateOf? u).isSome) :
    startsAssignment u := by
  unfold startsAssignment
  split
  · rfl
  · rfl
  · exact h

theorem block_of_closer {closers : Closers} {returned : Bool} {s : Stream} {n : TokenIndex}
    {k : Keyword} {ts : List Token} (h : (semicolons s).rest = ⟨n, .keyword k :: ts⟩)
    (hk : closers.accept k) : Yields (block closers returned s) ([], k) ⟨n + 1, ts⟩ := by
  apply Yields.of
  rw [block]
  generalize semicolons s = p at h
  obtain ⟨_, s₁, h₁⟩ := p
  obtain rfl : s₁ = _ := h
  have hu : closers.ofToken? (.keyword k) = some k := by simp [Closers.ofToken?, hk]
  simp only [tokenWith?_cons hu]
  rfl

theorem block_of_statement {closers : Closers} {s s₁ t : Stream} {first : Stmt} {more : Block}
    {k : Keyword} (hs : (semicolons s).rest.Starts startsStatement)
    (h : Yields (statement (semicolons s).rest) first s₁)
    (h' : Yields (block closers first.isLast s₁) (more, k) t) :
    Yields (block closers false s) (first :: more, k) t := by
  obtain ⟨_, h'⟩ := h'
  apply Yields.of
  rw [block]
  generalize semicolons s = p at h hs
  obtain ⟨_, s₂, h₂⟩ := p
  obtain ⟨n, u, us, rfl, hu⟩ := hs
  obtain ⟨_, h⟩ := h
  simp only [tokenWith?_of_none (ofToken?_none_of_startsStatement closers hu), token?_cons, h, h',
    ok_bind]
  rfl

theorem statement_of_startsChain {s t : Stream} {stmt : Stmt} (hs : s.Starts startsChain)
    (h : Yields (assignmentOrCall s) stmt t) : Yields (statement s) stmt t := by
  obtain ⟨_, h⟩ := h
  obtain ⟨n, u, us, rfl, hu⟩ := hs
  apply Yields.of
  rw [statement]
  unfold startsChain at hu
  split at hu
  · simp only [token?_cons, h]
    rfl
  · simp only [token?_cons, h]
    rfl
  · cases hu

section
variable {n : TokenIndex} {ts : List Token} {s t : Stream} {e : Expr} {body : Block} {k : Keyword}
  {r : Routine} {names : List TypedName} {values : List Expr} {w : String}

theorem statement_scope (h : Yields (block .atEnd false ⟨n + 1, ts⟩) (body, k) t) :
    Yields (statement ⟨n, .keyword .do_ :: ts⟩) (.scope n body) t := by
  obtain ⟨_, h⟩ := h
  apply Yields.of
  rw [statement]
  simp only [token?_cons, h, ok_bind]
  rfl

theorem statement_whileLoop {m : TokenIndex} {us : List Token}
    (h : Yields (expression 0 ⟨n + 1, ts⟩) e ⟨m, .keyword .do_ :: us⟩)
    (h' : Yields (block .atEnd false ⟨m + 1, us⟩) (body, k) t) :
    Yields (statement ⟨n, .keyword .while_ :: ts⟩) (.whileLoop n e body) t := by
  obtain ⟨_, h⟩ := h
  obtain ⟨_, h'⟩ := h'
  apply Yields.of
  rw [statement]
  simp only [token?_cons, h, keyword_cons, h', ok_bind]
  rfl

theorem statement_repeatLoop (h : Yields (block .atUntil false ⟨n + 1, ts⟩) (body, k) s)
    (h' : Yields (expression 0 s) e t) :
    Yields (statement ⟨n, .keyword .repeat_ :: ts⟩) (.repeatLoop n body e) t := by
  obtain ⟨_, h⟩ := h
  obtain ⟨_, h'⟩ := h'
  apply Yields.of
  rw [statement]
  simp only [token?_cons, h, h', ok_bind]
  rfl

theorem statement_choice {list : List Branch} {otherwise : Option Block}
    (h : Yields (branches ⟨n + 1, ts⟩) (list, otherwise) t) :
    Yields (statement ⟨n, .keyword .if_ :: ts⟩) (.choice n list otherwise) t := by
  obtain ⟨_, h⟩ := h
  apply Yields.of
  rw [statement]
  simp only [token?_cons, h, ok_bind]
  rfl

theorem statement_forLoop {loop : Stmt} (h : Yields (forLoop n ⟨n + 1, ts⟩) loop t) :
    Yields (statement ⟨n, .keyword .for_ :: ts⟩) loop t := by
  obtain ⟨_, h⟩ := h
  apply Yields.of
  rw [statement]
  simp only [token?_cons, h, ok_bind]
  rfl

theorem statement_routine {ws : List String} {isMethod : Bool}
    (h : Yields (path ⟨n + 1, ts⟩) (ws, isMethod) s) (h' : Yields (routine s) r t) :
    Yields (statement ⟨n, .keyword .function_ :: ts⟩) (.routine n ws isMethod r) t := by
  obtain ⟨_, h⟩ := h
  obtain ⟨_, h'⟩ := h'
  apply Yields.of
  rw [statement]
  simp only [token?_cons, h, h', ok_bind]
  rfl

theorem statement_localRoutine (h : Yields (routine ⟨n + 1 + 1 + 1, ts⟩) r t) :
    Yields (statement ⟨n, .keyword .local_ :: .keyword .function_ :: .name w :: ts⟩)
      (.localRoutine n w r) t := by
  obtain ⟨_, h⟩ := h
  apply Yields.of
  rw [statement]
  simp only [token?_cons, keyword?_cons, name_cons, h, ok_bind]
  rfl

/-- Names are read where no `function` stands. -/
theorem statement_localValues {m : TokenIndex} {us : List Token}
    (hk : keyword? .function_ ⟨n + 1, ts⟩ = none)
    (h : Yields (typedNames ⟨n + 1, ts⟩) names ⟨m, .operator .equal :: us⟩)
    (h' : Yields (expressions ⟨m + 1, us⟩) values t) :
    Yields (statement ⟨n, .keyword .local_ :: ts⟩) (.localNames n names values) t := by
  obtain ⟨_, h⟩ := h
  obtain ⟨_, h'⟩ := h'
  apply Yields.of
  rw [statement]
  simp only [token?_cons, hk, h, operator?_cons, h', ok_bind]
  rfl

theorem statement_localNames (hk : keyword? .function_ ⟨n + 1, ts⟩ = none)
    (h : Yields (typedNames ⟨n + 1, ts⟩) names t) (hq : t.Stops (· = .operator .equal)) :
    Yields (statement ⟨n, .keyword .local_ :: ts⟩) (.localNames n names []) t := by
  obtain ⟨_, h⟩ := h
  apply Yields.of
  rw [statement]
  simp only [token?_cons, hk, h, operator?_none_iff.2 hq, ok_bind]
  rfl

theorem statement_returnEnded {m : TokenIndex} {us : List Token}
    (h : Leaves (returnValues ⟨n + 1, ts⟩) values ⟨m, .operator .semicolon :: us⟩) :
    Yields (statement ⟨n, .keyword .return_ :: ts⟩) (.returnValues n values) ⟨m + 1, us⟩ := by
  obtain ⟨_, h⟩ := h
  apply Yields.of
  rw [statement]
  simp only [token?_cons, h, operator?_cons, ok_bind]
  rfl

theorem statement_returnValues (h : Leaves (returnValues ⟨n + 1, ts⟩) values t)
    (hq : t.Stops (· = .operator .semicolon)) :
    Yields (statement ⟨n, .keyword .return_ :: ts⟩) (.returnValues n values) t := by
  obtain ⟨_, h⟩ := h
  apply Yields.of
  rw [statement]
  simp only [token?_cons, h, operator?_none_iff.2 hq, ok_bind]
  rfl

theorem statement_label : Yields
    (statement ⟨n, .operator .doubleColon :: .name w :: .operator .doubleColon :: ts⟩)
    (.label n w) ⟨n + 1 + 1 + 1, ts⟩ := by
  apply Yields.of
  rw [statement]
  simp only [token?_cons, name_cons, operator_cons, ok_bind]
  rfl

end

namespace Reading

mutual

theorem Expression.offers {floor : Nat} {s t : Stream} {e : Expr} :
    Expression floor s e t → Offers (expression? floor s) e t
  | .intro h₁ h₂ h₃ => by
    obtain ⟨_, h₁⟩ := h₁.offers
    obtain ⟨_, h₂⟩ := h₂.leaves
    obtain ⟨_, h₃⟩ := h₃.leaves
    apply Offers.of
    rw [expression?]
    simp only [h₁, h₂, h₃, ok_bind]
    rfl

theorem Operand.offers {s t : Stream} {e : Expr} : Operand s e t → Offers (operand? s) e t
  | .unary hu h => by
    obtain ⟨_, h⟩ := h.offers.yields
    apply Offers.of
    rw [operand?]
    simp only [unaryOp?, tokenWith?_cons hu, h, ok_bind]
    rfl
  | .single h => by
    apply Offers.of
    rw [operand?]
    simp only [unaryOp?, tokenWith?_of_none (ofToken?_none_of_single h)]
    rw [atom?, tokenWith?_cons h]
    rfl
  | .table h => by
    obtain ⟨_, h⟩ := h.yields
    apply Offers.of
    rw [operand?]
    simp only [unaryOp?, tokenWith?_of_none (rfl : UnaryOp.ofToken? (.operator .curlyLeft) = none)]
    rw [atom?, tokenWith?_of_none rfl]
    simp only [token?_cons, h, ok_bind]
    rfl
  | .routine h => by
    obtain ⟨_, h⟩ := h.yields
    apply Offers.of
    rw [operand?]
    simp only [unaryOp?, tokenWith?_of_none (rfl : UnaryOp.ofToken? (.keyword .function_) = none)]
    rw [atom?, tokenWith?_of_none rfl]
    simp only [token?_cons, h, ok_bind]
    rfl
  | .chain h => by
    have hs := h.head
    obtain ⟨_, h⟩ := h.yields
    apply Offers.of
    rw [operand?, unaryOp?_of_startsChain hs]
    simp only [atom?_of_startsChain hs, h]
    rfl

theorem Operations.leaves {floor : Nat} {anchor : TokenIndex} {left e : Expr} {s t : Stream} :
    Operations floor anchor left s e t → Leaves (operations floor anchor left s) e t
  | .more hu hl h h' => by
    obtain ⟨_, h⟩ := h.offers.yields
    obtain ⟨_, h'⟩ := h'.leaves
    apply Leaves.of
    rw [operations]
    simp only [binaryOp?_cons hu hl, h, h', ok_bind]
    rfl
  | .done h => by
    apply Leaves.of
    rw [operations, binaryOp?_of_stops h]
    rfl

theorem Chain.yields {s t : Stream} {e : Expr} : Chain s e t → Yields (chain s) e t
  | .name h => by
    obtain ⟨_, h⟩ := h.leaves
    apply Yields.of
    rw [chain]
    simp only [token?_cons, h, ok_bind]
    rfl
  | .parenthesized h h' => by
    obtain ⟨_, h⟩ := h.offers.yields
    obtain ⟨_, h'⟩ := h'.leaves
    apply Yields.of
    rw [chain]
    simp only [token?_cons, h, operator_cons, h', ok_bind]
    rfl

theorem Suffixes.leaves {anchor : TokenIndex} {e whole : Expr} {s t : Stream} :
    Suffixes anchor e s whole t → Leaves (suffixes anchor e s) whole t
  | .element h h' => by
    obtain ⟨_, h⟩ := h.offers.yields
    obtain ⟨_, h'⟩ := h'.leaves
    apply Leaves.of
    rw [suffixes]
    simp only [token?_cons, h, operator_cons, h', ok_bind]
    rfl
  | .field h => by
    obtain ⟨_, h⟩ := h.leaves
    apply Leaves.of
    rw [suffixes]
    simp only [token?_cons, name_cons, h, ok_bind]
    rfl
  | .method h h' => by
    obtain ⟨_, h⟩ := h.yields
    obtain ⟨_, h'⟩ := h'.leaves
    apply Leaves.of
    rw [suffixes]
    simp only [token?_cons, name_cons, h, h', ok_bind]
    rfl
  | .call h h' => suffixes_of_startsArguments h.head h.yields h'.leaves
  | .done h => suffixes_of_stops h

theorem Arguments.yields {s t : Stream} {args : List Expr} :
    Arguments s args t → Yields (arguments s) args t
  | .none => by
    apply Yields.of
    rw [arguments]
    simp only [token?_cons, operator?_cons]
    rfl
  | .list h => by
    have hc := h.operator?_none (o := .roundRight) (by decide)
    obtain ⟨_, h⟩ := h.yields
    apply Yields.of
    rw [arguments]
    simp only [token?_cons, hc, h, operator_cons, ok_bind]
    rfl
  | .table h => by
    obtain ⟨_, h⟩ := h.yields
    apply Yields.of
    rw [arguments]
    simp only [token?_cons, h, ok_bind]
    rfl
  | .string => by
    apply Yields.of
    rw [arguments]
    rfl

theorem Expressions.yields {s t : Stream} {es : List Expr} :
    Expressions s es t → Yields (expressions s) es t
  | .intro h h' => by
    obtain ⟨_, h⟩ := h.offers.yields
    obtain ⟨_, h'⟩ := h'.leaves
    apply Yields.of
    rw [expressions]
    simp only [h, h', ok_bind]
    rfl

theorem MoreExpressions.leaves {s t : Stream} {es : List Expr} :
    MoreExpressions s es t → Leaves (moreExpressions s) es t
  | .more h => by
    obtain ⟨_, h⟩ := h.yields
    apply Leaves.of
    rw [moreExpressions]
    simp only [operator?_cons, h, ok_bind]
    rfl
  | .done h => by
    apply Leaves.of
    rw [moreExpressions]
    simp only [operator?_none_iff.2 h]
    rfl

theorem TableItems.yields {s t : Stream} {xs : List Syntax.TableItem} :
    TableItems s xs t → Yields (tableItems s) xs t
  | .none => by
    apply Yields.of
    rw [tableItems, operator?_cons]
    rfl
  | .more h hu h' => by
    have hc := h.curlyRight_none
    obtain ⟨_, h⟩ := h.yields
    obtain ⟨_, h'⟩ := h'.yields
    apply Yields.of
    rw [tableItems]
    simp only [hc, h, tokenWith?_cons hu, h', ok_bind]
    rfl
  | .last h => by
    have hc := h.curlyRight_none
    obtain ⟨_, h⟩ := h.yields
    apply Yields.of
    rw [tableItems]
    simp only [hc, h, tokenWith?_of_none (rfl : separatorOf? (.operator .curlyRight) = none),
      operator_cons, ok_bind]
    rfl

theorem TableItem.yields {s t : Stream} {x : Syntax.TableItem} :
    TableItem s x t → Yields (tableItem s) x t
  | .keyed h h' => by
    obtain ⟨_, h⟩ := h.offers.yields
    obtain ⟨_, h'⟩ := h'.offers.yields
    apply Yields.of
    rw [tableItem]
    simp only [operator?_cons, h, operator_cons, h', ok_bind]
    rfl
  | .named (n := n) (w := w) h => by
    rename_i ts v
    obtain ⟨_, h⟩ := h.offers.yields
    obtain ⟨_, hf⟩ := fieldName?_cons n w ts
    apply Yields.of
    rw [tableItem]
    simp only [operator?_of_ne (by simp : Token.name w ≠ .operator .squareLeft), hf, h, ok_bind]
    rfl
  | .positional hf h => by
    have hc := h.operator?_none (o := .squareLeft) (by decide)
    obtain ⟨_, h⟩ := h.offers.yields
    apply Yields.of
    rw [tableItem]
    simp only [hc, hf, h, ok_bind]
    rfl

theorem RoutineBody.yields {s t : Stream} {r : Routine} :
    RoutineBody s r t → Yields (routine s) r t
  | .intro h h' => by
    obtain ⟨_, h⟩ := h.yields
    obtain ⟨_, h'⟩ := h'.yields
    apply Yields.of
    rw [routine]
    simp only [h, h', ok_bind]
    rfl

theorem Block.yields {closers : Closers} {returned : Bool} {s t : Stream} {body : Syntax.Block}
    {k : Keyword} : Block closers returned s body k t →
    Yields (block closers returned s) (body, k) t
  | .close h hk => block_of_closer h hk
  | .cons h h' => block_of_statement h.head h.yields h'.yields

theorem Statement.yields {s t : Stream} {stmt : Stmt} :
    Statement s stmt t → Yields (statement s) stmt t
  | .scope h => statement_scope h.yields
  | .whileLoop h h' => statement_whileLoop h.offers.yields h'.yields
  | .repeatLoop h h' => statement_repeatLoop h.yields h'.offers.yields
  | .choice h => statement_choice h.yields
  | .forLoop h => statement_forLoop h.yields
  | .routine h h' => statement_routine (yields_path h) h'.yields
  | .localRoutine h => statement_localRoutine h.yields
  | .localValues h h' => statement_localValues h.function_none (yields_typedNames h) h'.yields
  | .localNames h hq => statement_localNames h.function_none (yields_typedNames h) hq
  | .returnEnded h => statement_returnEnded h.leaves
  | .returnValues h hq => statement_returnValues h.leaves hq
  | .breakLoop => by
    apply Yields.of
    rw [statement]
    rfl
  | .goto => by
    apply Yields.of
    rw [statement]
    rfl
  | .label => statement_label
  | .assignmentOrCall h => statement_of_startsChain h.head h.yields

theorem ReturnValues.leaves {s t : Stream} {es : List Expr} :
    ReturnValues s es t → Leaves (returnValues s) es t
  | .list h h' => by
    obtain ⟨_, h⟩ := h.offers
    obtain ⟨_, h'⟩ := h'.leaves
    apply Leaves.of
    rw [returnValues]
    simp only [h, h', ok_bind]
    rfl
  | .none h => by
    apply Leaves.of
    rw [returnValues, expression?_of_stops h]
    rfl

theorem Branches.yields {s t : Stream} {list : List Branch} {otherwise : Option Syntax.Block} :
    Branches s list otherwise t → Yields (branches s) (list, otherwise) t
  | .elseif h h' h'' => by
    obtain ⟨_, h⟩ := h.offers.yields
    obtain ⟨_, h'⟩ := h'.yields
    obtain ⟨_, h''⟩ := h''.yields
    apply Yields.of
    rw [branches]
    simp only [h, keyword_cons, h', h'', ok_bind]
    rfl
  | .otherwise h h' h'' => by
    obtain ⟨_, h⟩ := h.offers.yields
    obtain ⟨_, h'⟩ := h'.yields
    obtain ⟨_, h''⟩ := h''.yields
    apply Yields.of
    rw [branches]
    simp only [h, keyword_cons, h', h'', ok_bind]
    rfl
  | .last h h' hi he => by
    obtain ⟨_, h⟩ := h.offers.yields
    obtain ⟨_, h'⟩ := h'.yields
    apply Yields.of
    rw [branches]
    simp only [h, keyword_cons, h', ok_bind]
    rfl

theorem ForLoop.yields {anchor : TokenIndex} {s t : Stream} {loop : Stmt} :
    ForLoop anchor s loop t → Yields (forLoop anchor s) loop t
  | .numeric h₁ h₂ h₃ h₄ h₅ => by
    obtain ⟨_, h₁⟩ := yields_typedNames h₁
    obtain ⟨_, h₂⟩ := h₂.offers.yields
    obtain ⟨_, h₃⟩ := h₃.offers.yields
    obtain ⟨_, h₄⟩ := h₄.leaves
    obtain ⟨_, h₅⟩ := h₅.yields
    apply Yields.of
    rw [forLoop]
    simp only [h₁, token?_cons, h₂, operator_cons, h₃, h₄, keyword_cons, h₅, ok_bind]
    rfl
  | .generic h₁ h₂ h₃ => by
    obtain ⟨_, h₁⟩ := yields_typedNames h₁
    obtain ⟨_, h₂⟩ := h₂.yields
    obtain ⟨_, h₃⟩ := h₃.yields
    apply Yields.of
    rw [forLoop]
    simp only [h₁, token?_cons, h₂, keyword_cons, h₃, ok_bind]
    rfl

theorem StepValue.leaves {s t : Stream} {step : Option Expr} :
    StepValue s step t → Leaves (stepValue s) step t
  | .step h => by
    obtain ⟨_, h⟩ := h.offers.yields
    apply Leaves.of
    rw [stepValue]
    simp only [operator?_cons, h, ok_bind]
    rfl
  | .none h => by
    apply Leaves.of
    rw [stepValue, operator?_none_iff.2 h]
    rfl

theorem AssignmentOrCall.yields {s t : Stream} {stmt : Stmt} :
    AssignmentOrCall s stmt t → Yields (assignmentOrCall s) stmt t
  | .typed h h' => by
    obtain ⟨_, h⟩ := h.found
    obtain ⟨_, h'⟩ := h'.yields
    apply Yields.of
    rw [assignmentOrCall]
    simp only [h, h', ok_bind]
    rfl
  | .assign h ht h' => by
    have hd := h.typedTarget?_none
    have hh := h'.head
    obtain ⟨_, h⟩ := h.yields
    obtain ⟨_, h'⟩ := h'.yields
    apply Yields.of
    rw [assignmentOrCall, hd]
    obtain ⟨n, us, rfl | rfl⟩ := hh
    · simp only [h, ok_bind, token?_cons, readTarget_ok.2 ht, h']
      rfl
    · simp only [h, ok_bind, token?_cons, readTarget_ok.2 ht, h']
      rfl
  | .update h hu ht h' => by
    have hd := h.typedTarget?_none
    obtain ⟨_, h⟩ := h.yields
    obtain ⟨_, h'⟩ := h'.offers.yields
    apply Yields.of
    rw [assignmentOrCall, hd]
    simp only [h, ok_bind, tokenWith?_cons hu]
    rw [token?_cons]
    split
    · next heq =>
      cases heq
      cases hu
    · next heq =>
      cases heq
      cases hu
    · simp only [readTarget_ok.2 ht, h', ok_bind]
      rfl
  | .call h hc hs => by
    have hd := h.typedTarget?_none
    obtain ⟨_, h⟩ := h.yields
    have hu : tokenWith? updateOf? t = none :=
      tokenWith?_none_iff.2 (hs.mono fun u hu => startsAssignment_of_update hu)
    apply Yields.of
    rw [assignmentOrCall, hd]
    simp only [h, ok_bind, hu]
    split
    · next heq =>
      obtain ⟨n, us, rfl, -⟩ := token?_some heq
      exact (Stream.stops_cons.1 hs rfl).elim
    · next heq =>
      obtain ⟨n, us, rfl, -⟩ := token?_some heq
      exact (Stream.stops_cons.1 hs rfl).elim
    · rw [callStatement_ok.2 ⟨_, hc, rfl⟩]
      rfl

theorem Assignment.yields {anchor : TokenIndex} {first : Target} {s t : Stream} {stmt : Stmt} :
    Assignment anchor first s stmt t → Yields (assignment anchor first s) stmt t
  | .intro h h' => by
    obtain ⟨_, h⟩ := h.leaves
    obtain ⟨_, h'⟩ := h'.yields
    apply Yields.of
    rw [assignment]
    simp only [h, operator_cons, h', ok_bind]
    rfl

theorem MoreTargets.leaves {s t : Stream} {targets : List Target} :
    MoreTargets s targets t → Leaves (moreTargets s) targets t
  | .more h h' => by
    obtain ⟨_, h⟩ := h.yields
    obtain ⟨_, h'⟩ := h'.leaves
    apply Leaves.of
    rw [moreTargets]
    simp only [operator?_cons, h, h', ok_bind]
    rfl
  | .done h => by
    apply Leaves.of
    rw [moreTargets, operator?_none_iff.2 h]
    rfl

theorem OneTarget.yields {s t : Stream} {target : Target} :
    OneTarget s target t → Yields (oneTarget s) target t
  | .typed h => by
    obtain ⟨_, h⟩ := h.found
    apply Yields.of
    rw [oneTarget, h]
    rfl
  | .chain h ht => by
    have hd := h.typedTarget?_none
    obtain ⟨_, h⟩ := h.yields
    apply Yields.of
    rw [oneTarget, hd]
    simp only [h, ok_bind, readTarget_ok.2 ht]
    rfl

end

end Reading

end ScriptFront.Phrase
