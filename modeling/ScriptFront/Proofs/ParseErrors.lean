import ScriptFront.Proofs.NodeRanges
/-! What the errors of the parser say is true of the tokens. All readers are taken together, by
rank: an error of one is its own or that of a reader it calls further on. -/
namespace ScriptFront.Phrase
open Syntax Phrase.Stream

/-- No expression begins with the token, whatever follows. -/
def StartsNothing (u : Token) : Prop :=
  ∀ floor n us p, expression floor ⟨n, u :: us⟩ ≠ .ok p

/-- Where a function has its signature: behind the keyword, or behind the name or the path that
follows it. -/
inductive FunctionHead (ts : List Token) : Stream → Prop
  | unnamed : Stream.In ⟨n, .keyword .function_ :: us⟩ ts → FunctionHead ts ⟨n + 1, us⟩
  | named : Stream.In ⟨n, .keyword .function_ :: .name w :: us⟩ ts →
    FunctionHead ts ⟨n + 1 + 1, us⟩
  | path : Stream.In ⟨n, .keyword .function_ :: us⟩ ts →
    Reading.Path ⟨n + 1, us⟩ ws isMethod s → FunctionHead ts s

/-- Where a body begins: that of the chunk with the first token, any other behind the keyword or
the signature that opens it. -/
inductive Opens (ts : List Token) : Bool → Stream → Prop
  | chunk : Opens ts true (.ofTokens ts)
  | keyword : Stream.In ⟨n, .keyword k :: us⟩ ts → k ∈ [.do_, .then_, .else_, .repeat_] →
    Opens ts false ⟨n + 1, us⟩
  | routine : FunctionHead ts s → Reading.Signature s sig t → Opens ts false t

/-- From where a body begins, statements are read one behind the other up to here. Declarations
may stand between those of a chunk. -/
inductive InBody (ts : List Token) (inChunk : Bool) : Stream → Prop
  | start : Opens ts inChunk s → InBody ts inChunk s
  | statement : InBody ts inChunk s → Reading.Statement (semicolons s).rest stmt t →
    InBody ts inChunk t
  | declaration : inChunk → InBody ts inChunk s → Reading.Declaration s item t →
    InBody ts inChunk t

/-- A return statement of a body ends here. -/
def ReturnEnds (ts : List Token) (t : Stream) : Prop :=
  ∃ inChunk s i values, InBody ts inChunk s ∧
    Reading.Statement (semicolons s).rest (.returnValues i values) t

/-- The tokens are as the error says. -/
def ParseError.Shown (ts : List Token) : ParseError → Prop
  | unexpectedToken i u => ts[i]? = some u
  | endOfInput i => i = ts.length
  | expectedExpression i => i = ts.length ∨ ∃ u, ts[i]? = some u ∧ StartsNothing u
  | alreadyReturned i => (∃ u, ts[i]? = some u ∧ u ≠ .operator .semicolon) ∧
    ∃ t, ReturnEnds ts t ∧ t.next ≤ i ∧ ∀ j, t.next ≤ j → j < i → ts[j]? = some (.operator .semicolon)
  | invalidTarget i | invalidCall i =>
    ∃ u, ts[i]? = some u ∧ ((∃ w, u = .name w) ∨ u = .operator .roundLeft)

/-- Whatever error a reader gives, it is shown. -/
abbrev ErrorsShown {α : Type} (ts : List Token) (x : Except ParseError α) : Prop :=
  Fails (ParseError.Shown ts) x

section
variable {ts : List Token} {s t : Stream} {α : Type}

theorem shown_unexpected (hs : s.In ts) : (unexpected s).Shown ts := by
  obtain ⟨n, _ | ⟨u, us⟩⟩ := s
  · exact hs.next_add
  · exact hs.getElem?

theorem shows_orUnexpected {x : Option (Parsed s α)} (hs : s.In ts) :
    ErrorsShown ts (orUnexpected x) := by
  cases x with
  | none => exact .error (shown_unexpected hs)
  | some p => exact .ok

theorem shows_name (hs : s.In ts) : ErrorsShown ts (name s) := shows_orUnexpected hs

theorem shows_keyword {k : Keyword} (hs : s.In ts) : ErrorsShown ts (keyword k s) :=
  shows_orUnexpected hs

theorem shows_operator {o : Operator} (hs : s.In ts) : ErrorsShown ts (operator o s) :=
  shows_orUnexpected hs

theorem shows_typeExpr {s : Stream} (hs : s.In ts) : ErrorsShown ts (typeExpr s) := by
  rw [typeExpr]
  split
  · next w s₁ h₁ _ =>
    split
    · next s₂ h₂ _ => exact .bind (shows_name (hs.follows (h₂.trans h₁))) fun _ _ => .ok
    · exact .ok
  · next s₁ h₁ _ =>
    have hs₁ := hs.follows h₁
    refine .bind (shows_typeExpr hs₁) ?_
    rintro ⟨first, s₂, h₂⟩ -
    have h₂' := h₂.trans h₁
    have hs₂ := hs.follows h₂'
    dsimp only
    split
    · next s₃ h₃ _ =>
      have h₃' := h₃.trans h₂'
      refine .bind (shows_typeExpr (hs.follows h₃')) ?_
      rintro ⟨value, s₄, h₄⟩ -
      exact .bind (shows_operator (hs.follows (h₄.trans h₃'))) fun _ _ => .ok
    · exact .bind (shows_operator hs₂) fun _ _ => .ok
  · exact .error (shown_unexpected hs)
termination_by s.left.length
decreasing_by all_goals exact Stream.Follows.length_lt ‹_›

theorem shows_typedName (hs : s.In ts) : ErrorsShown ts (typedName s) := by
  refine .bind (shows_name hs) ?_
  rintro ⟨w, s₁, h₁⟩ -
  dsimp only
  split
  · next s₂ h₂ _ => exact .bind (shows_typeExpr (hs.follows (h₂.trans h₁))) fun _ _ => .ok
  · exact .ok

theorem shows_typedNames {s : Stream} (hs : s.In ts) : ErrorsShown ts (typedNames s) := by
  rw [typedNames]
  refine .bind (shows_typedName hs) ?_
  rintro ⟨first, s₁, h₁⟩ -
  dsimp only
  split
  · next s₂ h₂ _ =>
    have h₂' := h₂.trans h₁
    exact .bind (shows_typedNames (hs.follows h₂')) fun _ _ => .ok
  · exact .ok
termination_by s.left.length
decreasing_by exact Stream.Follows.length_lt ‹_›

theorem shows_typeExprs {s : Stream} (hs : s.In ts) : ErrorsShown ts (typeExprs s) := by
  rw [typeExprs]
  refine .bind (shows_typeExpr hs) ?_
  rintro ⟨first, s₁, h₁⟩ -
  dsimp only
  split
  · next s₂ h₂ _ =>
    have h₂' := h₂.trans h₁
    exact .bind (shows_typeExprs (hs.follows h₂')) fun _ _ => .ok
  · exact .ok
termination_by s.left.length
decreasing_by exact Stream.Follows.length_lt ‹_›

theorem shows_parameters {s : Stream} (hs : s.In ts) : ErrorsShown ts (parameters s) := by
  rw [parameters]
  split
  · next s₁ h₁ _ => exact .bind (shows_operator (hs.follows h₁)) fun _ _ => .ok
  · refine .bind (shows_typedName hs) ?_
    rintro ⟨first, s₁, h₁⟩ -
    dsimp only
    split
    · exact .ok
    · refine .bind (shows_operator (hs.follows h₁)) ?_
      rintro ⟨_, s₂, h₂⟩ -
      have h₂' := h₂.trans h₁
      exact .bind (shows_parameters (hs.follows h₂')) fun _ _ => .ok
termination_by s.left.length
decreasing_by exact Stream.Follows.length_lt ‹_›

theorem shows_returnTypes (hs : s.In ts) : ErrorsShown ts (returnTypes s) := by
  rw [returnTypes]
  split
  · next s₁ h₁ _ => exact .bind (shows_typeExprs (hs.follows h₁)) fun _ _ => .ok
  · exact .ok

theorem shows_signature (hs : s.In ts) : ErrorsShown ts (signature s) := by
  refine .bind (shows_operator hs) ?_
  rintro ⟨_, s₁, h₁⟩ -
  dsimp only
  split
  · next s₂ h₂ _ => exact .bind (shows_returnTypes (hs.follows (h₂.trans h₁))) fun _ _ => .ok
  · refine .bind (shows_parameters (hs.follows h₁)) ?_
    rintro ⟨_, s₂, h₂⟩ -
    exact .bind (shows_returnTypes (hs.follows (h₂.trans h₁))) fun _ _ => .ok

theorem shows_path {s : Stream} (hs : s.In ts) : ErrorsShown ts (path s) := by
  rw [path]
  refine .bind (shows_name hs) ?_
  rintro ⟨first, s₁, h₁⟩ -
  dsimp only
  split
  · next s₂ h₂ _ =>
    have h₂' := h₂.trans h₁
    exact .bind (shows_path (hs.follows h₂')) fun _ _ => .ok
  · next s₂ h₂ _ => exact .bind (shows_name (hs.follows (h₂.trans h₁))) fun _ _ => .ok
  · exact .ok
termination_by s.left.length
decreasing_by exact Stream.Follows.length_lt ‹_›

theorem startsNothing_of_not {u : Token} (h : ¬ startsExpression u) : StartsNothing u := by
  intro floor n us p hp
  obtain ⟨m, v, vs, he, hv⟩ := (expression_yields_iff.1 ⟨p.rest_follows, hp⟩).head
  cases he
  exact h hv

theorem shown_expected (hs : s.In ts) (h : s.Stops (startsExpression ·)) :
    (ParseError.expectedExpression s.next).Shown ts := by
  obtain ⟨n, _ | ⟨u, us⟩⟩ := s
  · exact .inl hs.next_add
  · exact .inr ⟨u, hs.getElem?, startsNothing_of_not (Stream.stops_cons.1 h)⟩

/-- A chain keeps the index of its first token, a name or an opening bracket. -/
theorem Reading.Chain.first {e : Expr} (h : Reading.Chain s e t) (hs : s.In ts) :
    ∃ u, ts[e.anchor]? = some u ∧ ((∃ w, u = .name w) ∨ u = .operator .roundLeft) := by
  obtain ⟨ha, -⟩ := (h.occupies hs).placed.leading _ rfl
  rw [ha]
  cases h with
  | name _ => exact ⟨_, hs.getElem?, .inl ⟨_, rfl⟩⟩
  | parenthesized _ _ => exact ⟨_, hs.getElem?, .inr rfl⟩

theorem shows_readTarget {e : Expr} (h : Reading.Chain s e t) (hs : s.In ts) :
    ErrorsShown ts (readTarget e) := by
  unfold readTarget
  split
  · exact .ok
  · exact .error (h.first hs)

theorem shows_callStatement {i : TokenIndex} {e : Expr} (h : Reading.Chain s e t) (hs : s.In ts) :
    ErrorsShown ts (callStatement i e) := by
  unfold callStatement
  split
  · exact .ok
  · exact .error (h.first hs)

theorem semicolons_between {s : Stream} (hs : s.In ts) {j : TokenIndex} (hj : s.next ≤ j)
    (hj' : j < (semicolons s).rest.next) : ts[j]? = some (.operator .semicolon) := by
  rw [semicolons] at hj'
  split at hj'
  · next s₁ h₁ ho =>
    have between (h : s₁.next ≤ j) := semicolons_between (hs.follows h₁) h hj'
    obtain ⟨n, us, rfl, rfl⟩ := operator?_some ho
    rcases Nat.eq_or_lt_of_le hj with rfl | hj
    · exact hs.getElem?
    · exact between hj
  · exact absurd (Nat.lt_of_le_of_lt hj hj') (Nat.lt_irrefl _)
termination_by s.left.length
decreasing_by exact Stream.Follows.length_lt ‹_›

theorem semicolons_stops (s : Stream) : (semicolons s).rest.Stops (· = .operator .semicolon) := by
  rw [semicolons]
  split
  · next s₁ h₁ _ => exact semicolons_stops s₁
  · next h => exact operator?_none_iff.1 h
termination_by s.left.length
decreasing_by exact Stream.Follows.length_lt ‹_›

/-- What a body finds behind a return statement and semicolons. -/
theorem shown_alreadyReturned (hs : s.In ts) (hr : ReturnEnds ts s)
    (hu : token? (semicolons s).rest ≠ none) :
    (ParseError.alreadyReturned (semicolons s).rest.next).Shown ts := by
  refine ⟨?_, s, hr, semicolons_next_le s, fun j => semicolons_between hs⟩
  have hs' := hs.rest (semicolons s).rest_isRest
  have hstop := semicolons_stops s
  generalize (semicolons s).rest = r at hu hs' hstop
  obtain ⟨n, _ | ⟨u, us⟩⟩ := r
  · exact absurd rfl hu
  · have hne := Stream.stops_cons.1 hstop
    exact ⟨u, hs'.getElem?, hne⟩

theorem functionHead_of_name {r : Stream} {w : String} {h : r.Follows t} (hs : s.In ts)
    (hf : ∃ n us, s = ⟨n, .keyword .function_ :: us⟩ ∧ t = ⟨n + 1, us⟩)
    (hn : name t = .ok ⟨w, r, h⟩) : FunctionHead ts r := by
  obtain ⟨n, us, rfl, rfl⟩ := hf
  obtain ⟨m, vs, he, rfl⟩ := name_ok hn
  cases he
  exact .named hs

theorem returnEnds_of_isLast {inChunk : Bool} {stmt : Stmt} (hb : InBody ts inChunk s)
    (h : Reading.Statement (semicolons s).rest stmt t) (hl : stmt.isLast) : ReturnEnds ts t := by
  cases stmt with
  | returnValues i values => exact ⟨inChunk, s, i, values, hb, h⟩
  | _ => cases hl

end

/-- The errors of the readers of a rank below `n` are shown. -/
structure ShownBelow (ts : List Token) (n : Nat) : Prop where
  expression {floor s} : s.rank 4 < n → s.In ts → ErrorsShown ts (expression floor s)
  expression? {floor s} : s.rank 3 < n → s.In ts → ErrorsShown ts (expression? floor s)
  operand? {s} : s.rank 2 < n → s.In ts → ErrorsShown ts (operand? s)
  operations {floor anchor left s} : s.rank 0 < n → s.In ts →
    ErrorsShown ts (operations floor anchor left s)
  atom? {s} : s.rank 1 < n → s.In ts → ErrorsShown ts (atom? s)
  chain {s} : s.rank 0 < n → s.In ts → ErrorsShown ts (chain s)
  suffixes {anchor e s} : s.rank 1 < n → s.In ts → ErrorsShown ts (suffixes anchor e s)
  arguments {s} : s.rank 0 < n → s.In ts → ErrorsShown ts (arguments s)
  expressions {s} : s.rank 5 < n → s.In ts → ErrorsShown ts (expressions s)
  moreExpressions {s} : s.rank 0 < n → s.In ts → ErrorsShown ts (moreExpressions s)
  tableItems {s} : s.rank 6 < n → s.In ts → ErrorsShown ts (tableItems s)
  tableItem {s} : s.rank 5 < n → s.In ts → ErrorsShown ts (tableItem s)
  routine {s} : s.rank 0 < n → s.In ts → FunctionHead ts s → ErrorsShown ts (routine s)
  block {closers} {returned : Bool} {s} : s.rank 3 < n → s.In ts → InBody ts false s →
    (returned → ReturnEnds ts s) → ErrorsShown ts (block closers returned s)
  statement {s} : s.rank 2 < n → s.In ts → ErrorsShown ts (statement s)
  returnValues {s} : s.rank 4 < n → s.In ts → ErrorsShown ts (returnValues s)
  branches {s} : s.rank 5 < n → s.In ts → ErrorsShown ts (branches s)
  forLoop {anchor s} : s.rank 0 < n → s.In ts → ErrorsShown ts (forLoop anchor s)
  stepValue {s} : s.rank 0 < n → s.In ts → ErrorsShown ts (stepValue s)
  assignmentOrCall {s} : s.rank 1 < n → s.In ts → ErrorsShown ts (assignmentOrCall s)
  assignment {anchor first s} : s.rank 1 < n → s.In ts → ErrorsShown ts (assignment anchor first s)
  moreTargets {s} : s.rank 0 < n → s.In ts → ErrorsShown ts (moreTargets s)
  oneTarget {s} : s.rank 1 < n → s.In ts → ErrorsShown ts (oneTarget s)

section
variable {ts : List Token} {s t : Stream}

theorem shows_typeTest {anchor : TokenIndex} {e : Expr} (hs : s.In ts) :
    ErrorsShown ts (typeTest anchor e s) := by
  rw [typeTest]
  split
  · next s₁ h₁ _ => exact .bind (shows_typeExpr (hs.follows h₁)) fun _ _ => .ok
  · exact .ok

theorem shows_expression {floor : Nat} (ih : ShownBelow ts (s.rank 4)) (hs : s.In ts) :
    ErrorsShown ts (expression floor s) := by
  rw [expression]
  refine .bind (ih.expression? (Stream.rank_lt (by decide)) hs) fun e? he => ?_
  cases e? with
  | none => exact .error (shown_expected hs (stops_of_expression?_none he))
  | some e => exact .ok

theorem shows_expression? {floor : Nat} (ih : ShownBelow ts (s.rank 3)) (hs : s.In ts) :
    ErrorsShown ts (expression? floor s) := by
  rw [expression?]
  refine .bind (ih.operand? (Stream.rank_lt (by decide)) hs) fun e? _ => ?_
  obtain _ | ⟨e₁, s₁, h₁⟩ := e?
  · exact .ok
  · refine .bind (shows_typeTest (hs.follows h₁)) ?_
    rintro ⟨e₂, s₂, h₂⟩ -
    have h₂' := h₂.follows h₁
    exact .bind (ih.operations (h₂'.below (by decide)) (hs.follows h₂')) fun _ _ => .ok

theorem shows_operand? (ih : ShownBelow ts (s.rank 2)) (hs : s.In ts) :
    ErrorsShown ts (operand? s) := by
  rw [operand?]
  split
  · next op s₁ h₁ _ =>
    exact .bind (ih.expression (h₁.below (by decide)) (hs.follows h₁)) fun _ _ => .ok
  · exact ih.atom? (Stream.rank_lt (by decide)) hs

theorem shows_operations {floor : Nat} {anchor : TokenIndex} {left : Expr}
    (ih : ShownBelow ts (s.rank 0)) (hs : s.In ts) :
    ErrorsShown ts (operations floor anchor left s) := by
  rw [operations]
  split
  · next op s₁ h₁ _ =>
    refine .bind (ih.expression (h₁.below (by decide)) (hs.follows h₁)) ?_
    rintro ⟨right, s₂, h₂⟩ -
    have h₂' := h₂.trans h₁
    exact .bind (ih.operations (h₂'.below (by decide)) (hs.follows h₂')) fun _ _ => .ok
  · exact .ok

theorem shows_atom? (ih : ShownBelow ts (s.rank 1)) (hs : s.In ts) :
    ErrorsShown ts (atom? s) := by
  rw [atom?]
  split
  · exact .ok
  · split
    · next s₁ h₁ _ =>
      exact .bind (ih.tableItems (h₁.below (by decide)) (hs.follows h₁)) fun _ _ => .ok
    · next s₁ h₁ hf =>
      have hhead : FunctionHead ts s₁ := by
        obtain ⟨n, us, rfl, rfl⟩ := token?_some hf
        exact .unnamed hs
      exact .bind (ih.routine (h₁.below (by decide)) (hs.follows h₁) hhead) fun _ _ => .ok
    · exact .bind (ih.chain (Stream.rank_lt (by decide)) hs) fun _ _ => .ok
    · exact .bind (ih.chain (Stream.rank_lt (by decide)) hs) fun _ _ => .ok
    · exact .ok

theorem shows_chain (ih : ShownBelow ts (s.rank 0)) (hs : s.In ts) : ErrorsShown ts (chain s) := by
  rw [chain]
  split
  · next w s₁ h₁ _ =>
    exact .bind (ih.suffixes (h₁.below (by decide)) (hs.follows h₁)) fun _ _ => .ok
  · next s₁ h₁ _ =>
    refine .bind (ih.expression (h₁.below (by decide)) (hs.follows h₁)) ?_
    rintro ⟨inner, s₂, h₂⟩ -
    have h₂' := h₂.trans h₁
    refine .bind (shows_operator (hs.follows h₂')) ?_
    rintro ⟨_, s₃, h₃⟩ -
    have h₃' := h₃.trans h₂'
    exact .bind (ih.suffixes (h₃'.below (by decide)) (hs.follows h₃')) fun _ _ => .ok
  · exact .error (shown_unexpected hs)

theorem shows_suffixes {anchor : TokenIndex} {e : Expr} (ih : ShownBelow ts (s.rank 1))
    (hs : s.In ts) : ErrorsShown ts (suffixes anchor e s) := by
  rw [suffixes]
  -- An index, a field, a method call, and three tokens with which arguments begin.
  split
  · next s₁ h₁ _ =>
    refine .bind (ih.expression (h₁.below (by decide)) (hs.follows h₁)) ?_
    rintro ⟨key, s₂, h₂⟩ -
    have h₂' := h₂.trans h₁
    refine .bind (shows_operator (hs.follows h₂')) ?_
    rintro ⟨_, s₃, h₃⟩ -
    have h₃' := h₃.trans h₂'
    exact .bind (ih.suffixes (h₃'.below (by decide)) (hs.follows h₃')) fun _ _ => .ok
  · next s₁ h₁ _ =>
    refine .bind (shows_name (hs.follows h₁)) ?_
    rintro ⟨field, s₂, h₂⟩ -
    have h₂' := h₂.trans h₁
    exact .bind (ih.suffixes (h₂'.below (by decide)) (hs.follows h₂')) fun _ _ => .ok
  · next s₁ h₁ _ =>
    refine .bind (shows_name (hs.follows h₁)) ?_
    rintro ⟨method, s₂, h₂⟩ -
    have h₂' := h₂.trans h₁
    refine .bind (ih.arguments (h₂'.below (by decide)) (hs.follows h₂')) ?_
    rintro ⟨args, s₃, h₃⟩ -
    have h₃' := h₃.trans h₂'
    exact .bind (ih.suffixes (h₃'.below (by decide)) (hs.follows h₃')) fun _ _ => .ok
  iterate 3
    · refine .bind (ih.arguments (Stream.rank_lt (by decide)) hs) ?_
      rintro ⟨args, s₁, h₁⟩ -
      exact .bind (ih.suffixes (h₁.below (by decide)) (hs.follows h₁)) fun _ _ => .ok
  · exact .ok

theorem shows_arguments (ih : ShownBelow ts (s.rank 0)) (hs : s.In ts) :
    ErrorsShown ts (arguments s) := by
  rw [arguments]
  split
  · next s₁ h₁ _ =>
    split
    · exact .ok
    · refine .bind (ih.expressions (h₁.below (by decide)) (hs.follows h₁)) ?_
      rintro ⟨args, s₂, h₂⟩ -
      exact .bind (shows_operator (hs.follows (h₂.trans h₁))) fun _ _ => .ok
  · next s₁ h₁ _ =>
    exact .bind (ih.tableItems (h₁.below (by decide)) (hs.follows h₁)) fun _ _ => .ok
  · exact .ok
  · exact .error (shown_unexpected hs)

theorem shows_expressions (ih : ShownBelow ts (s.rank 5)) (hs : s.In ts) :
    ErrorsShown ts (expressions s) := by
  rw [expressions]
  refine .bind (ih.expression (Stream.rank_lt (by decide)) hs) ?_
  rintro ⟨first, s₁, h₁⟩ -
  exact .bind (ih.moreExpressions (h₁.below (by decide)) (hs.follows h₁)) fun _ _ => .ok

theorem shows_moreExpressions (ih : ShownBelow ts (s.rank 0)) (hs : s.In ts) :
    ErrorsShown ts (moreExpressions s) := by
  rw [moreExpressions]
  split
  · next s₁ h₁ _ =>
    exact .bind (ih.expressions (h₁.below (by decide)) (hs.follows h₁)) fun _ _ => .ok
  · exact .ok

theorem shows_tableItems (ih : ShownBelow ts (s.rank 6)) (hs : s.In ts) :
    ErrorsShown ts (tableItems s) := by
  rw [tableItems]
  split
  · exact .ok
  · refine .bind (ih.tableItem (Stream.rank_lt (by decide)) hs) ?_
    rintro ⟨first, s₁, h₁⟩ -
    dsimp only
    split
    · next s₂ h₂ _ =>
      have h₂' := h₂.trans h₁
      exact .bind (ih.tableItems (h₂'.below (by decide)) (hs.follows h₂')) fun _ _ => .ok
    · exact .bind (shows_operator (hs.follows h₁)) fun _ _ => .ok

theorem shows_tableItem (ih : ShownBelow ts (s.rank 5)) (hs : s.In ts) :
    ErrorsShown ts (tableItem s) := by
  rw [tableItem]
  split
  · next s₁ h₁ _ =>
    refine .bind (ih.expression (h₁.below (by decide)) (hs.follows h₁)) ?_
    rintro ⟨key, s₂, h₂⟩ -
    have h₂' := h₂.trans h₁
    refine .bind (shows_operator (hs.follows h₂')) ?_
    rintro ⟨_, s₃, h₃⟩ -
    have h₃' := h₃.trans h₂'
    refine .bind (shows_operator (hs.follows h₃')) ?_
    rintro ⟨_, s₄, h₄⟩ -
    have h₄' := h₄.trans h₃'
    exact .bind (ih.expression (h₄'.below (by decide)) (hs.follows h₄')) fun _ _ => .ok
  · split
    · next w s₁ h₁ _ =>
      exact .bind (ih.expression (h₁.below (by decide)) (hs.follows h₁)) fun _ _ => .ok
    · exact .bind (ih.expression (Stream.rank_lt (by decide)) hs) fun _ _ => .ok

theorem shows_routine (ih : ShownBelow ts (s.rank 0)) (hs : s.In ts) (hhead : FunctionHead ts s) :
    ErrorsShown ts (routine s) := by
  rw [routine]
  refine .bind (shows_signature hs) ?_
  rintro ⟨sig, s₁, h₁⟩ hsig
  have hb : InBody ts false s₁ := .start (.routine hhead (reads_signature hsig))
  exact .bind (ih.block (h₁.below (by decide)) (hs.follows h₁) hb (by simp)) fun _ _ => .ok

theorem shows_block {closers : Closers} {returned : Bool} (ih : ShownBelow ts (s.rank 3))
    (hs : s.In ts) (hb : InBody ts false s) (hr : returned → ReturnEnds ts s) :
    ErrorsShown ts (block closers returned s) := by
  have h₁ := (semicolons s).rest_isRest
  have hs₁ := hs.rest h₁
  rw [block]
  dsimp only
  split
  · exact .ok
  · split
    · next he =>
      refine .error ?_
      generalize (semicolons s).rest = r at he hs₁
      obtain ⟨n, _ | ⟨u, us⟩⟩ := r
      · exact hs₁.next_add
      · cases he
    · next u hu =>
      split
      · next hret => exact .error (shown_alreadyReturned hs (hr hret) (by simp [hu]))
      · refine .bind (ih.statement (h₁.rank_lt (by decide)) hs₁) ?_
        rintro ⟨first, s₂, h₂⟩ hf
        have h₂' := h₂.ofRest h₁
        have hf := statement_yields_iff.1 ⟨h₂, hf⟩
        refine .bind (ih.block (h₂'.below (by decide)) (hs.follows h₂') (.statement hb hf) ?_)
          fun _ _ => .ok
        exact returnEnds_of_isLast hb hf

theorem inBody_of_keyword {k : Keyword} {h : t.Follows s} (hs : s.In ts)
    (ht : keyword k s = .ok ⟨(), t, h⟩) (hk : k ∈ [.do_, .then_, .else_, .repeat_]) :
    InBody ts false t := by
  obtain ⟨n, us, rfl, rfl⟩ := keyword_ok ht
  exact .start (.keyword hs hk)

/-- A block is left behind the keyword that closes it. -/
theorem Reading.Block.closed {closers : Closers} {returned : Bool} {body : Syntax.Block}
    {k : Keyword} {s : Stream} (h : Reading.Block closers returned s body k t) (hs : s.In ts) :
    ∃ n us, t = ⟨n + 1, us⟩ ∧ Stream.In ⟨n, .keyword k :: us⟩ ts := by
  induction body generalizing returned s with
  | nil =>
    cases h with
    | close h _ => exact ⟨_, _, rfl, h ▸ hs.rest (semicolons s).rest_isRest⟩
  | cons a b ih =>
    cases h with
    | cons h h' => exact ih h' ((hs.rest (semicolons s).rest_isRest).rest h.yields.isRest)

theorem shows_whileLoop {n : TokenIndex} {us : List Token}
    (ih : ShownBelow ts (Stream.rank ⟨n, .keyword .while_ :: us⟩ 2))
    (hs : Stream.In ⟨n, .keyword .while_ :: us⟩ ts) :
    ErrorsShown ts (statement ⟨n, .keyword .while_ :: us⟩) := by
  have h₁ := Stream.tail_follows n (.keyword .while_) us
  rw [statement]
  refine .bind (ih.expression (h₁.below (by decide)) hs.tail) ?_
  rintro ⟨e, s₂, h₂⟩ -
  have h₂' := h₂.trans h₁
  refine .bind (shows_keyword (hs.follows h₂')) ?_
  rintro ⟨_, s₃, h₃⟩ hk
  have h₃' := h₃.trans h₂'
  have hb := inBody_of_keyword (hs.follows h₂') hk (by decide)
  exact .bind (ih.block (h₃'.below (by decide)) (hs.follows h₃') hb (by simp)) fun _ _ => .ok

theorem shows_local {n : TokenIndex} {us : List Token}
    (ih : ShownBelow ts (Stream.rank ⟨n, .keyword .local_ :: us⟩ 2))
    (hs : Stream.In ⟨n, .keyword .local_ :: us⟩ ts) :
    ErrorsShown ts (statement ⟨n, .keyword .local_ :: us⟩) := by
  have h₁ := Stream.tail_follows n (.keyword .local_) us
  rw [statement]
  simp only [token?_cons]
  split
  · next s₂ h₂ hf =>
    have h₂' := h₂.trans h₁
    refine .bind (shows_name (hs.follows h₂')) ?_
    rintro ⟨w, s₃, h₃⟩ hn
    have h₃' := h₃.trans h₂'
    have hhead := functionHead_of_name hs.tail (keyword?_some hf) hn
    exact .bind (ih.routine (h₃'.below (by decide)) (hs.follows h₃') hhead) fun _ _ => .ok
  · refine .bind (shows_typedNames hs.tail) ?_
    rintro ⟨names, s₂, h₂⟩ -
    dsimp only
    split
    · next s₃ h₃ _ =>
      have h₃' := h₃.trans (h₂.trans h₁)
      exact .bind (ih.expressions (h₃'.below (by decide)) (hs.follows h₃')) fun _ _ => .ok
    · exact .ok

theorem shows_statement (ih : ShownBelow ts (s.rank 2)) (hs : s.In ts) :
    ErrorsShown ts (statement s) := by
  -- An error behind the first token is that of a reader called on what is left; only where nothing
  -- begins a statement is the token itself refused.
  cases s using statement_cases with
  | scope n us =>
    have h₁ := Stream.tail_follows n (.keyword .do_) us
    have hb : InBody ts false ⟨n + 1, us⟩ := .start (.keyword hs (by decide))
    rw [statement]
    exact .bind (ih.block (h₁.below (by decide)) hs.tail hb (by simp)) fun _ _ => .ok
  | whileLoop n us => exact shows_whileLoop ih hs
  | repeatLoop n us =>
    have h₁ := Stream.tail_follows n (.keyword .repeat_) us
    have hb : InBody ts false ⟨n + 1, us⟩ := .start (.keyword hs (by decide))
    rw [statement]
    refine .bind (ih.block (h₁.below (by decide)) hs.tail hb (by simp)) ?_
    rintro ⟨_, s₂, h₂⟩ -
    have h₂' := h₂.trans h₁
    exact .bind (ih.expression (h₂'.below (by decide)) (hs.follows h₂')) fun _ _ => .ok
  | choice n us =>
    rw [statement]
    exact .bind (ih.branches ((Stream.tail_follows ..).below (by decide)) hs.tail) fun _ _ => .ok
  | forLoop n us =>
    rw [statement]
    exact .bind (ih.forLoop ((Stream.tail_follows ..).below (by decide)) hs.tail) fun _ _ => .ok
  | routine n us =>
    have h₁ := Stream.tail_follows n (.keyword .function_) us
    rw [statement]
    refine .bind (shows_path hs.tail) ?_
    rintro ⟨_, s₂, h₂⟩ hp
    have h₂' := h₂.trans h₁
    have hhead : FunctionHead ts s₂ := .path hs (reads_path hp)
    exact .bind (ih.routine (h₂'.below (by decide)) (hs.follows h₂') hhead) fun _ _ => .ok
  | localNames n us => exact shows_local ih hs
  | returnValues n us =>
    rw [statement]
    refine .bind (ih.returnValues ((Stream.tail_follows ..).below (by decide)) hs.tail)
      fun _ _ => ?_
    dsimp only
    split
    · exact .ok
    · exact .ok
  | breakLoop n us =>
    rw [statement]
    exact .ok
  | goto n us =>
    rw [statement]
    exact .bind (shows_name hs.tail) fun _ _ => .ok
  | label n us =>
    rw [statement]
    refine .bind (shows_name hs.tail) ?_
    rintro ⟨w, s₂, h₂⟩ -
    exact .bind (shows_operator (hs.tail.follows h₂)) fun _ _ => .ok
  | assignmentOrCall s _ h =>
    rw [h]
    exact ih.assignmentOrCall (Stream.rank_lt (by decide)) hs
  | other s h =>
    rw [h]
    exact .error (shown_unexpected hs)

theorem shows_returnValues (ih : ShownBelow ts (s.rank 4)) (hs : s.In ts) :
    ErrorsShown ts (returnValues s) := by
  rw [returnValues]
  refine .bind (ih.expression? (Stream.rank_lt (by decide)) hs) fun e? _ => ?_
  obtain _ | ⟨first, s₁, h₁⟩ := e?
  · exact .ok
  · exact .bind (ih.moreExpressions (h₁.below (by decide)) (hs.follows h₁)) fun _ _ => .ok

theorem shows_branches (ih : ShownBelow ts (s.rank 5)) (hs : s.In ts) :
    ErrorsShown ts (branches s) := by
  rw [branches]
  refine .bind (ih.expression (Stream.rank_lt (by decide)) hs) ?_
  rintro ⟨condition, s₁, h₁⟩ -
  refine .bind (shows_keyword (hs.follows h₁)) ?_
  rintro ⟨_, s₂, h₂⟩ hk
  have h₂' := h₂.trans h₁
  have hs₂ := hs.follows h₂'
  have hb := inBody_of_keyword (hs.follows h₁) hk (by decide)
  refine .bind (ih.block (h₂'.below (by decide)) hs₂ hb (by simp)) ?_
  rintro ⟨⟨body, closer⟩, s₃, h₃⟩ hr
  have h₃' := h₃.trans h₂'
  have hs₃ := hs.follows h₃'
  dsimp only
  -- The body of `else` opens behind the keyword that closed the block before it.
  split
  · exact .bind (ih.branches (h₃'.below (by decide)) hs₃) fun _ _ => .ok
  · have hclosed := ((sound _).block (Nat.lt_succ_self _) hr).closed hs₂
    obtain ⟨n, us, rfl, hin⟩ := hclosed
    have hb := InBody.start (.keyword hin (by decide))
    exact .bind (ih.block (h₃'.below (by decide)) hs₃ hb (by simp)) fun _ _ => .ok
  · exact .ok

theorem shows_forLoop {anchor : TokenIndex} (ih : ShownBelow ts (s.rank 0)) (hs : s.In ts) :
    ErrorsShown ts (forLoop anchor s) := by
  rw [forLoop]
  refine .bind (shows_typedNames hs) ?_
  rintro ⟨names, s₁, h₁⟩ -
  dsimp only
  split
  · next s₂ h₂ counter _ =>
    have h₂' := h₂.trans h₁
    refine .bind (ih.expression (h₂'.below (by decide)) (hs.follows h₂')) ?_
    rintro ⟨a, s₃, h₃⟩ -
    have h₃' := h₃.trans h₂'
    refine .bind (shows_operator (hs.follows h₃')) ?_
    rintro ⟨_, s₄, h₄⟩ -
    have h₄' := h₄.trans h₃'
    refine .bind (ih.expression (h₄'.below (by decide)) (hs.follows h₄')) ?_
    rintro ⟨b, s₅, h₅⟩ -
    have h₅' := h₅.trans h₄'
    refine .bind (ih.stepValue (h₅'.below (by decide)) (hs.follows h₅')) ?_
    rintro ⟨_, s₆, h₆⟩ -
    have h₆' := h₆.follows h₅'
    refine .bind (shows_keyword (hs.follows h₆')) ?_
    rintro ⟨_, s₇, h₇⟩ hk
    have h₇' := h₇.trans h₆'
    have hb := inBody_of_keyword (hs.follows h₆') hk (by decide)
    exact .bind (ih.block (h₇'.below (by decide)) (hs.follows h₇') hb (by simp)) fun _ _ => .ok
  · next s₂ h₂ _ =>
    have h₂' := h₂.trans h₁
    refine .bind (ih.expressions (h₂'.below (by decide)) (hs.follows h₂')) ?_
    rintro ⟨_, s₃, h₃⟩ -
    have h₃' := h₃.trans h₂'
    refine .bind (shows_keyword (hs.follows h₃')) ?_
    rintro ⟨_, s₄, h₄⟩ hk
    have h₄' := h₄.trans h₃'
    have hb := inBody_of_keyword (hs.follows h₃') hk (by decide)
    exact .bind (ih.block (h₄'.below (by decide)) (hs.follows h₄') hb (by simp)) fun _ _ => .ok
  · exact .error (shown_unexpected (hs.follows h₁))

theorem shows_stepValue (ih : ShownBelow ts (s.rank 0)) (hs : s.In ts) :
    ErrorsShown ts (stepValue s) := by
  rw [stepValue]
  split
  · next s₁ h₁ _ =>
    exact .bind (ih.expression (h₁.below (by decide)) (hs.follows h₁)) fun _ _ => .ok
  · exact .ok

theorem shows_assignmentOrCall (ih : ShownBelow ts (s.rank 1)) (hs : s.In ts) :
    ErrorsShown ts (assignmentOrCall s) := by
  rw [assignmentOrCall]
  split
  · next typed s₁ h₁ _ =>
    exact .bind (ih.assignment (h₁.below (by decide)) (hs.follows h₁)) fun _ _ => .ok
  · refine .bind (ih.chain (Stream.rank_lt (by decide)) hs) ?_
    rintro ⟨e, s₁, h₁⟩ hc
    have hc := (sound _).chain (Nat.lt_succ_self _) hc
    dsimp only
    split
    iterate 2
      · refine .bind (shows_readTarget hc hs) fun _ _ => ?_
        exact .bind (ih.assignment (h₁.below (by decide)) (hs.follows h₁)) fun _ _ => .ok
    · split
      · next op s₂ h₂ _ =>
        have h₂' := h₂.trans h₁
        refine .bind (shows_readTarget hc hs) fun _ _ => ?_
        exact .bind (ih.expression (h₂'.below (by decide)) (hs.follows h₂')) fun _ _ => .ok
      · exact .bind (shows_callStatement hc hs) fun _ _ => .ok

theorem shows_assignment {anchor : TokenIndex} {first : Target} (ih : ShownBelow ts (s.rank 1))
    (hs : s.In ts) : ErrorsShown ts (assignment anchor first s) := by
  rw [assignment]
  refine .bind (ih.moreTargets (Stream.rank_lt (by decide)) hs) ?_
  rintro ⟨more, s₁, h₁⟩ -
  refine .bind (shows_operator (hs.rest h₁)) ?_
  rintro ⟨_, s₂, h₂⟩ -
  have h₂' := h₂.ofRest h₁
  exact .bind (ih.expressions (h₂'.below (by decide)) (hs.follows h₂')) fun _ _ => .ok

theorem shows_moreTargets (ih : ShownBelow ts (s.rank 0)) (hs : s.In ts) :
    ErrorsShown ts (moreTargets s) := by
  rw [moreTargets]
  split
  · next s₁ h₁ _ =>
    refine .bind (ih.oneTarget (h₁.below (by decide)) (hs.follows h₁)) ?_
    rintro ⟨_, s₂, h₂⟩ -
    have h₂' := h₂.trans h₁
    exact .bind (ih.moreTargets (h₂'.below (by decide)) (hs.follows h₂')) fun _ _ => .ok
  · exact .ok

theorem shows_oneTarget (ih : ShownBelow ts (s.rank 1)) (hs : s.In ts) :
    ErrorsShown ts (oneTarget s) := by
  rw [oneTarget]
  split
  · exact .ok
  · refine .bind (ih.chain (Stream.rank_lt (by decide)) hs) ?_
    rintro ⟨e, s₁, h₁⟩ hc
    have hc := (sound _).chain (Nat.lt_succ_self _) hc
    exact .bind (shows_readTarget hc hs) fun _ _ => .ok

end

/-- By induction on the rank: each reader calls the others on lower ranks only. -/
theorem shownBelow (ts : List Token) (n : Nat) : ShownBelow ts n := by
  induction n using Nat.strongRecOn with
  | ind n ih =>
    exact {
      expression := fun hn => shows_expression (ih _ hn)
      expression? := fun hn => shows_expression? (ih _ hn)
      operand? := fun hn => shows_operand? (ih _ hn)
      operations := fun hn => shows_operations (ih _ hn)
      atom? := fun hn => shows_atom? (ih _ hn)
      chain := fun hn => shows_chain (ih _ hn)
      suffixes := fun hn => shows_suffixes (ih _ hn)
      arguments := fun hn => shows_arguments (ih _ hn)
      expressions := fun hn => shows_expressions (ih _ hn)
      moreExpressions := fun hn => shows_moreExpressions (ih _ hn)
      tableItems := fun hn => shows_tableItems (ih _ hn)
      tableItem := fun hn => shows_tableItem (ih _ hn)
      routine := fun hn => shows_routine (ih _ hn)
      block := fun hn => shows_block (ih _ hn)
      statement := fun hn => shows_statement (ih _ hn)
      returnValues := fun hn => shows_returnValues (ih _ hn)
      branches := fun hn => shows_branches (ih _ hn)
      forLoop := fun hn => shows_forLoop (ih _ hn)
      stepValue := fun hn => shows_stepValue (ih _ hn)
      assignmentOrCall := fun hn => shows_assignmentOrCall (ih _ hn)
      assignment := fun hn => shows_assignment (ih _ hn)
      moreTargets := fun hn => shows_moreTargets (ih _ hn)
      oneTarget := fun hn => shows_oneTarget (ih _ hn) }

section
variable {ts : List Token} {s : Stream}

theorem shows_conformanceList {s : Stream} (hs : s.In ts) :
    ErrorsShown ts (conformanceList s) := by
  rw [conformanceList]
  refine .bind (shows_name hs) ?_
  rintro ⟨w, s₁, h₁⟩ -
  dsimp only
  split
  · next s₂ h₂ _ =>
    have h₂' := h₂.trans h₁
    exact .bind (shows_conformanceList (hs.follows h₂')) fun _ _ => .ok
  · exact .ok
termination_by s.left.length
decreasing_by exact Stream.Follows.length_lt ‹_›

theorem shows_conformances (hs : s.In ts) : ErrorsShown ts (conformances s) := by
  rw [conformances]
  split
  · next s₁ h₁ _ => exact .bind (shows_conformanceList (hs.follows h₁)) fun _ _ => .ok
  · exact .ok

theorem shows_expression_anywhere {floor : Nat} (hs : s.In ts) :
    ErrorsShown ts (expression floor s) := (shownBelow ts _).expression (Nat.lt_succ_self _) hs

theorem shows_initialValue (hs : s.In ts) : ErrorsShown ts (initialValue s) := by
  rw [initialValue]
  split
  · next s₁ h₁ _ => exact .bind (shows_expression_anywhere (hs.follows h₁)) fun _ _ => .ok
  · exact .ok

theorem shows_classMember (hs : s.In ts) : ErrorsShown ts (classMember s) := by
  rw [classMember]
  split
  · next s₁ h₁ _ =>
    refine .bind (shows_name (hs.follows h₁)) ?_
    rintro ⟨w, s₂, h₂⟩ -
    have h₂' := h₂.trans h₁
    refine .bind (shows_operator (hs.follows h₂')) ?_
    rintro ⟨_, s₃, h₃⟩ -
    exact .bind (shows_expression_anywhere (hs.follows (h₃.trans h₂'))) fun _ _ => .ok
  · next s₁ h₁ hf =>
    refine .bind (shows_name (hs.follows h₁)) ?_
    rintro ⟨w, s₂, h₂⟩ hn
    have hs₂ := hs.follows (h₂.trans h₁)
    have hhead := functionHead_of_name hs (token?_some hf) hn
    exact .bind ((shownBelow ts _).routine (Nat.lt_succ_self _) hs₂ hhead) fun _ _ => .ok
  · next w s₁ h₁ _ =>
    refine .bind (shows_operator (hs.follows h₁)) ?_
    rintro ⟨_, s₂, h₂⟩ -
    have h₂' := h₂.trans h₁
    refine .bind (shows_typeExpr (hs.follows h₂')) ?_
    rintro ⟨_, s₃, h₃⟩ -
    exact .bind (shows_initialValue (hs.follows (h₃.trans h₂'))) fun _ _ => .ok
  · exact .error (shown_unexpected hs)

theorem shows_classMembers {s : Stream} (hs : s.In ts) : ErrorsShown ts (classMembers s) := by
  rw [classMembers]
  split
  · exact .ok
  · refine .bind (shows_classMember hs) ?_
    rintro ⟨first, s₁, h₁⟩ -
    exact .bind (shows_classMembers (hs.follows h₁)) fun _ _ => .ok
termination_by s.left.length
decreasing_by exact Stream.Follows.length_lt ‹_›

theorem shows_classDecl (hs : s.In ts) : ErrorsShown ts (classDecl s) := by
  refine .bind (shows_keyword hs) ?_
  rintro ⟨_, s₁, h₁⟩ -
  refine .bind (shows_name (hs.follows h₁)) ?_
  rintro ⟨w, s₂, h₂⟩ -
  have h₂' := h₂.trans h₁
  refine .bind (shows_conformances (hs.follows h₂')) ?_
  rintro ⟨_, s₃, h₃⟩ -
  exact .bind (shows_classMembers (hs.follows (h₃.follows h₂'))) fun _ _ => .ok

theorem shows_protocolMember (hs : s.In ts) : ErrorsShown ts (protocolMember s) := by
  rw [protocolMember]
  split
  · next s₁ h₁ _ =>
    refine .bind (shows_name (hs.follows h₁)) ?_
    rintro ⟨w, s₂, h₂⟩ -
    exact .bind (shows_signature (hs.follows (h₂.trans h₁))) fun _ _ => .ok
  · next w s₁ h₁ _ =>
    refine .bind (shows_operator (hs.follows h₁)) ?_
    rintro ⟨_, s₂, h₂⟩ -
    exact .bind (shows_typeExpr (hs.follows (h₂.trans h₁))) fun _ _ => .ok
  · exact .error (shown_unexpected hs)

theorem shows_protocolMembers {s : Stream} (hs : s.In ts) :
    ErrorsShown ts (protocolMembers s) := by
  rw [protocolMembers]
  split
  · exact .ok
  · refine .bind (shows_protocolMember hs) ?_
    rintro ⟨first, s₁, h₁⟩ -
    exact .bind (shows_protocolMembers (hs.follows h₁)) fun _ _ => .ok
termination_by s.left.length
decreasing_by exact Stream.Follows.length_lt ‹_›

theorem shows_protocolDecl (hs : s.In ts) : ErrorsShown ts (protocolDecl s) := by
  refine .bind (shows_keyword hs) ?_
  rintro ⟨_, s₁, h₁⟩ -
  refine .bind (shows_name (hs.follows h₁)) ?_
  rintro ⟨w, s₂, h₂⟩ -
  have h₂' := h₂.trans h₁
  refine .bind (shows_conformances (hs.follows h₂')) ?_
  rintro ⟨_, s₃, h₃⟩ -
  exact .bind (shows_protocolMembers (hs.follows (h₃.follows h₂'))) fun _ _ => .ok

theorem shows_associatedType (hs : s.In ts) : ErrorsShown ts (associatedType s) := by
  rw [associatedType]
  split
  · next w s₁ h₁ _ => exact .bind (shows_typeExpr (hs.follows h₁)) fun _ _ => .ok
  · exact .bind (shows_typeExpr hs) fun _ _ => .ok

theorem shows_associatedTypes {s : Stream} (hs : s.In ts) :
    ErrorsShown ts (associatedTypes s) := by
  rw [associatedTypes]
  refine .bind (shows_associatedType hs) ?_
  rintro ⟨first, s₁, h₁⟩ -
  dsimp only
  split
  · exact .ok
  · refine .bind (shows_operator (hs.follows h₁)) ?_
    rintro ⟨_, s₂, h₂⟩ -
    have h₂' := h₂.trans h₁
    exact .bind (shows_associatedTypes (hs.follows h₂')) fun _ _ => .ok
termination_by s.left.length
decreasing_by exact Stream.Follows.length_lt ‹_›

theorem shows_payload (hs : s.In ts) : ErrorsShown ts (payload s) := by
  rw [payload]
  split
  · next s₁ h₁ _ =>
    split
    · exact .ok
    · exact .bind (shows_associatedTypes (hs.follows h₁)) fun _ _ => .ok
  · exact .ok

theorem shows_literal (hs : s.In ts) : ErrorsShown ts (literal s) := by
  rw [literal]
  split
  iterate 4
    · exact .ok
  · next s₁ h₁ _ =>
    split
    · exact .ok
    · exact .error (shown_unexpected (hs.follows h₁))
  · exact .error (shown_unexpected hs)

theorem shows_rawValue (hs : s.In ts) : ErrorsShown ts (rawValue s) := by
  rw [rawValue]
  split
  · next s₁ h₁ _ => exact .bind (shows_literal (hs.follows h₁)) fun _ _ => .ok
  · exact .ok

theorem shows_enumCase (hs : s.In ts) : ErrorsShown ts (enumCase s) := by
  refine .bind (shows_name hs) ?_
  rintro ⟨w, s₁, h₁⟩ -
  refine .bind (shows_payload (hs.follows h₁)) ?_
  rintro ⟨_, s₂, h₂⟩ -
  exact .bind (shows_rawValue (hs.follows (h₂.follows h₁))) fun _ _ => .ok

theorem shows_enumCases {s : Stream} (hs : s.In ts) : ErrorsShown ts (enumCases s) := by
  rw [enumCases]
  split
  · exact .ok
  · refine .bind (shows_enumCase hs) ?_
    rintro ⟨first, s₁, h₁⟩ -
    dsimp only
    split
    · next s₂ h₂ _ =>
      have h₂' := h₂.trans h₁
      exact .bind (shows_enumCases (hs.follows h₂')) fun _ _ => .ok
    · exact .bind (shows_keyword (hs.follows h₁)) fun _ _ => .ok
termination_by s.left.length
decreasing_by exact Stream.Follows.length_lt ‹_›

theorem shows_enumDecl (hs : s.In ts) : ErrorsShown ts (enumDecl s) := by
  refine .bind (shows_keyword hs) ?_
  rintro ⟨_, s₁, h₁⟩ -
  refine .bind (shows_name (hs.follows h₁)) ?_
  rintro ⟨w, s₂, h₂⟩ -
  have h₂' := h₂.trans h₁
  refine .bind (shows_conformances (hs.follows h₂')) ?_
  rintro ⟨_, s₃, h₃⟩ -
  exact .bind (shows_enumCases (hs.follows (h₃.follows h₂'))) fun _ _ => .ok

theorem shows_aliasDecl (hs : s.In ts) : ErrorsShown ts (aliasDecl s) := by
  refine .bind (shows_keyword hs) ?_
  rintro ⟨_, s₁, h₁⟩ -
  refine .bind (shows_name (hs.follows h₁)) ?_
  rintro ⟨w, s₂, h₂⟩ -
  have h₂' := h₂.trans h₁
  refine .bind (shows_operator (hs.follows h₂')) ?_
  rintro ⟨_, s₃, h₃⟩ -
  exact .bind (shows_typeExpr (hs.follows (h₃.trans h₂'))) fun _ _ => .ok

theorem shows_declaration? {read : Except ParseError (Parsed s Item)}
    (hd : declaration? s = some read) (hs : s.In ts) : ErrorsShown ts read := by
  rw [declaration?] at hd
  split at hd
  · cases hd
    exact .bind (shows_classDecl hs) fun _ _ => .ok
  · cases hd
    exact .bind (shows_protocolDecl hs) fun _ _ => .ok
  · cases hd
    exact .bind (shows_enumDecl hs) fun _ _ => .ok
  · cases hd
    exact .bind (shows_aliasDecl hs) fun _ _ => .ok
  · cases hd

/-- A declaration begins with its keyword, so there are no semicolons to skip before it. -/
theorem semicolons_of_declaration? {read : Except ParseError (Parsed s Item)}
    (hd : declaration? s = some read) : (semicolons s).rest = s ∧ token? s ≠ none := by
  rw [declaration?] at hd
  split at hd
  iterate 4
    · next heq =>
      refine ⟨?_, by simp [heq]⟩
      obtain ⟨n, us, rfl, -⟩ := token?_some heq
      exact semicolons_of_stops (Stream.stops_cons.2 (by simp))
  · cases hd

theorem shows_items {returned : Bool} {s : Stream} (hs : s.In ts) (hb : InBody ts true s)
    (hr : returned → ReturnEnds ts s) : ErrorsShown ts (items returned s) := by
  rw [items]
  split
  · next read hd =>
    split
    · next hret =>
      obtain ⟨hskip, hu⟩ := semicolons_of_declaration? hd
      have hshown := shown_alreadyReturned hs (hr hret) (by rwa [hskip])
      rw [hskip] at hshown
      exact .error hshown
    · refine .bind (shows_declaration? hd hs) ?_
      rintro ⟨first, s₁, h₁⟩ hf
      have hb' := InBody.declaration rfl hb (reads_declaration? hd hf)
      exact .bind (shows_items (hs.follows h₁) hb' nofun) fun _ _ => .ok
  · have h₁ := (semicolons s).rest_isRest
    have hs₁ := hs.rest h₁
    dsimp only
    split
    · exact .ok
    · next u hu =>
      split
      · next hret => exact .error (shown_alreadyReturned hs (hr hret) (by simp [hu]))
      · have hstatement := (shownBelow ts _).statement (Nat.lt_succ_self _) hs₁
        refine .bind hstatement ?_
        rintro ⟨first, s₂, h₂⟩ hf
        have h₂' := h₂.ofRest h₁
        have hf := statement_yields_iff.1 ⟨h₂, hf⟩
        have hr' := returnEnds_of_isLast hb hf
        exact .bind (shows_items (hs.follows h₂') (.statement hb hf) hr') fun _ _ => .ok
termination_by s.left.length
decreasing_by all_goals exact Stream.Follows.length_lt ‹_›

end

theorem shows_chunk (ts : List Token) : ErrorsShown ts (chunk ts) :=
  shows_items (.whole ts) (.start .chunk) nofun

/-- The errors of the parser are true of the tokens. -/
theorem chunk_error_shown {ts : List Token} {e : ParseError} (h : chunk ts = .error e) :
    e.Shown ts := shows_chunk ts e h

/-- `return;; break` -/
def returnedTokens : List Token :=
  [.keyword .return_, .operator .semicolon, .operator .semicolon, .keyword .break_]

theorem chunk_returned : chunk returnedTokens = .error (.alreadyReturned 3) := by
  have h : Reading.Statement ⟨0, returnedTokens⟩ (.returnValues 0 [])
      ⟨2, [.operator .semicolon, .keyword .break_]⟩ :=
    .returnEnded (.none (Stream.stops_cons.2 (by decide)))
  have hb : (semicolons ⟨2, [.operator .semicolon, .keyword .break_]⟩).rest =
      ⟨3, [.keyword .break_]⟩ := by
    rw [semicolons_cons]
    exact semicolons_of_stops (Stream.stops_cons.2 (by simp))
  have hi : items true ⟨2, [.operator .semicolon, .keyword .break_]⟩ =
      .error (.alreadyReturned 3) := by
    rw [items, declaration?_of_stops (Stream.stops_cons.2 (by decide))]
    generalize semicolons _ = p at hb
    obtain ⟨_, r, h₁⟩ := p
    obtain rfl : r = _ := hb
    rfl
  rw [chunk, Stream.ofTokens, items_of_statement (h.semicolons_eq.symm ▸ h)]
  simp only [Stmt.isLast, hi]
  rfl

theorem chunk_error_shown_returned :
    chunk returnedTokens = .error (.alreadyReturned 3) ∧
      (ParseError.alreadyReturned 3).Shown returnedTokens :=
  ⟨chunk_returned, chunk_error_shown chunk_returned⟩

end ScriptFront.Phrase
