import ScriptFront.Proofs.Reads
import ScriptFront.Proofs.Heads
import ScriptFront.Proofs.Respelling
/-! Expressions, statements and blocks are read again where they are spelled. -/
namespace ScriptFront.Phrase
open Syntax Phrase.Stream

/-- What goes on some expression. -/
def joinsExpression (u : Token) : Bool :=
  startsSuffix u || (BinaryOp.ofToken? u).isSome || match u with
    | .keyword .is_ | .operator .question => true
    | _ => false

/-- What goes on a list of expressions. -/
def joinsExpressions : Token → Bool
  | .operator .comma => true
  | u => joinsExpression u

/-- What goes on some statement. -/
def joinsStatement (u : Token) : Bool :=
  joinsExpression u || startsAssignment u || startsExpression u

section
variable {u : Token}

theorem joinsExpression_of_startsSuffix (h : startsSuffix u) : joinsExpression u := by
  simp [joinsExpression, h]

theorem joinsExpression_of_bindsAbove {floor : Nat} (h : BindsAbove floor u) :
    joinsExpression u := by
  obtain ⟨op, h, -⟩ := h
  simp [joinsExpression, h]

theorem joinsExpression_of_joinsType (h : joinsType u) : joinsExpression u := by
  unfold joinsType at h
  split at h
  · rfl
  · rfl
  · cases h

theorem joinsExpressions_of_joinsExpression (h : joinsExpression u) : joinsExpressions u := by
  unfold joinsExpressions
  split
  · rfl
  · exact h

theorem joinsStatement_of_joinsExpression (h : joinsExpression u) : joinsStatement u := by
  simp [joinsStatement, h]

theorem joinsStatement_of_joinsExpressions (h : joinsExpressions u) : joinsStatement u := by
  unfold joinsExpressions at h
  split at h
  · rfl
  · exact joinsStatement_of_joinsExpression h

theorem joinsStatement_of_startsAssignment (h : startsAssignment u) : joinsStatement u := by
  simp [joinsStatement, h]

theorem joinsStatement_of_startsExpression (h : startsExpression u) : joinsStatement u := by
  simp [joinsStatement, h]

theorem joinsStatement_of_joinsNames (h : joinsNames u) : joinsStatement u := by
  unfold joinsNames at h
  split at h
  · rfl
  · rfl
  · exact joinsStatement_of_joinsExpression (joinsExpression_of_joinsType h)

theorem token_of_unary {op : UnaryOp} (h : UnaryOp.ofToken? u = some op) : op.token = u := by
  unfold UnaryOp.ofToken? at h
  split at h
  all_goals first
    | cases h
      rfl
    | cases h

theorem token_of_binary {op : BinaryOp} (h : BinaryOp.ofToken? u = some op) : op.token = u := by
  unfold BinaryOp.ofToken? at h
  split at h
  · cases h
    rfl
  · cases h
    rfl
  · unfold BinaryOp.ofOperator? at h
    split at h
    all_goals first
      | cases h
        rfl
      | cases h
  · cases h

theorem token_of_update {op : Arithmetic} (h : updateOf? u = some op) :
    .operator op.assignment = u := by
  unfold updateOf? at h
  split at h
  · unfold Arithmetic.ofAssignment? at h
    split at h
    all_goals first
      | cases h
        rfl
      | cases h
  · cases h

theorem single_again {n : TokenIndex} {e : Expr} (h : singleToken? n u = some e) :
    e.spelling = [u] ∧
      ∀ m, ∃ e', singleToken? m u = some e' ∧ e'.mapAnchor forget = e.mapAnchor forget := by
  unfold singleToken? at h
  split at h
  all_goals first
    | cases h
      refine ⟨by simp only [Expr.spelling, Literal.spelling], fun m => ⟨_, rfl, ?_⟩⟩
      simp only [Expr.mapAnchor, Literal.mapAnchor, forget]
    | cases h

end

theorem not_joinsNames_of_startsStatement {u : Token} (h : startsStatement u) :
    ¬ joinsNames u := by
  intro hj
  unfold joinsNames at hj
  split at hj
  · cases h
  · cases h
  · unfold joinsType at hj
    split at hj
    · cases h
    · cases h
    · cases hj

theorem isLast_mapAnchor (f : TokenIndex → TokenIndex) (stmt : Stmt) :
    (stmt.mapAnchor f).isLast = stmt.isLast := by
  cases stmt <;> simp only [Stmt.mapAnchor, Stmt.isLast]

theorem target?_mapAnchor (f : TokenIndex → TokenIndex) (e : Expr) :
    (e.mapAnchor f).target? = e.target?.map (·.mapAnchor f) := by
  cases e <;> simp [Expr.mapAnchor, Expr.target?, Target.mapAnchor, TypedName.mapAnchor]

theorem call?_mapAnchor (f : TokenIndex → TokenIndex) (e : Expr) :
    (e.mapAnchor f).call? = e.call?.map (·.mapAnchor f) := by
  cases e <;> simp [Expr.mapAnchor, Expr.call?]

theorem target?_again {e e' : Expr} {target : Target} (h : e.target? = some target)
    (he : e'.mapAnchor forget = e.mapAnchor forget) :
    ∃ target', e'.target? = some target' ∧ target'.mapAnchor forget = target.mapAnchor forget := by
  have := target?_mapAnchor forget e'
  rw [he, target?_mapAnchor, h] at this
  exact Option.map_eq_some_iff.1 this.symm

theorem call?_again {e e' : Expr} {c : Call} (h : e.call? = some c)
    (he : e'.mapAnchor forget = e.mapAnchor forget) :
    ∃ c', e'.call? = some c' ∧ c'.mapAnchor forget = c.mapAnchor forget := by
  have := call?_mapAnchor forget e'
  rw [he, call?_mapAnchor, h] at this
  exact Option.map_eq_some_iff.1 this.symm

theorem target?_spelling {e : Expr} {target : Target} (h : e.target? = some target) :
    target.spelling = e.spelling := by
  cases e <;> cases h
  · simp only [Target.spelling, Expr.spelling]
    rfl
  · simp only [Target.spelling, Expr.spelling]

theorem call?_spelling {e : Expr} {c : Call} (h : e.call? = some c) :
    c.spelling = e.spelling := by
  cases e <;> cases h
  simp only [Expr.spelling]

theorem mapAnchor_choice (f : TokenIndex → TokenIndex) (i : TokenIndex) (list : List Branch)
    (otherwise : Option Block) : (Stmt.choice i list otherwise).mapAnchor f =
      .choice (f i) (mapAnchorBranches f list) (otherwise.map (mapAnchorBlock f)) := by
  cases otherwise <;> simp [Stmt.mapAnchor]

theorem mapAnchor_numericFor (f : TokenIndex → TokenIndex) (i : TokenIndex) (counter : TypedName)
    (start stop : Expr) (step : Option Expr) (body : Block) :
    (Stmt.numericFor i counter start stop step body).mapAnchor f =
      .numericFor (f i) (counter.mapAnchor f) (start.mapAnchor f) (stop.mapAnchor f)
        (step.map (·.mapAnchor f)) (mapAnchorBlock f body) := by
  cases step <;> simp [Stmt.mapAnchor]

theorem flatMap_separator {u : Token} {list : List (List Token)} (h : list ≠ []) :
    list.flatMap (u :: ·) = u :: separated u list := by
  cases list with
  | nil => exact absurd rfl h
  | cons first more => simp [separated]

namespace Reading

/-- A reader that goes on from `left` does so again, from anything like `left`. -/
def Grows (begins : Stream → Prop) (read : TokenIndex → Expr → Stream → Expr → Stream → Prop)
    (left e : Expr) (t : Stream) : Prop :=
  ∃ extra, e.spelling = left.spelling ++ extra ∧ ∀ ⦃s' t'⦄, After extra s' t' →
    EndsAs (joinsExpression ·) t t' → begins s' ∧
      ∀ anchor left', left'.mapAnchor forget = left.mapAnchor forget →
        ∃ e', read anchor left' s' e' t' ∧ e'.mapAnchor forget = e.mapAnchor forget

theorem TypeTest.again {anchor : TokenIndex} {e e' : Expr} {s t : Stream}
    (h : TypeTest anchor e s e' t) : Grows (EndsAs (joinsExpression ·) s) TypeTest e e' t := by
  cases h with
  | is h =>
    refine ⟨_, by rw [Expr.spelling], fun s' t' hs ht => ?_⟩
    obtain ⟨n, ts, rfl, hs'⟩ := after_cons_iff.1 hs
    refine ⟨endsAs_cons, fun anchor left' hl => ?_⟩
    obtain ⟨type', h', he⟩ :=
      annotation_again h hs' (ht.mono fun _ => joinsExpression_of_joinsType)
    exact ⟨_, .is h', by simp only [Expr.mapAnchor, hl, he, forget]⟩
  | none hi =>
    refine ⟨[], (List.append_nil _).symm, fun s' t' hs ht => ?_⟩
    obtain rfl := after_nil_iff.1 hs
    refine ⟨ht, fun anchor left' hl => ⟨left', .none (ht.stops hi ?_), hl⟩⟩
    rintro u rfl
    rfl

/-- An operand in front of what goes on no expression is an expression. -/
theorem Operand.expression {floor : Nat} {s t : Stream} {e : Expr} (h : Operand s e t)
    (ht : t.Stops (joinsExpression ·)) : Expression floor s e t := by
  refine .intro h (.none (ht.mono ?_)) (.done (ht.mono fun _ => joinsExpression_of_bindsAbove))
  rintro u rfl
  rfl

/-- What stands between a table item and the next, or behind the last. -/
def endsItem : Token → Bool
  | .operator .comma | .operator .curlyRight => true
  | _ => false

theorem stops_of_endsItem {s : Stream} (h : s.Starts endsItem) :
    s.Stops (joinsExpression ·) ∧ s.Stops (· = .operator .equal) := by
  obtain ⟨n, u, us, rfl, hu⟩ := h
  rw [stops_cons, stops_cons]
  unfold endsItem at hu
  split at hu
  · simp [joinsExpression, startsSuffix, BinaryOp.ofToken?, BinaryOp.ofOperator?]
  · simp [joinsExpression, startsSuffix, BinaryOp.ofToken?, BinaryOp.ofOperator?]
  · cases hu

/-- Where `=` follows a name, the expression is that name. -/
theorem Expression.stops_at_equal {floor : Nat} {n : TokenIndex} {w : String} {ts : List Token}
    {e : Expr} {t : Stream}
    (h : Expression floor ⟨n, .name w :: .operator .equal :: ts⟩ e t) :
    t = ⟨n + 1, .operator .equal :: ts⟩ := by
  obtain ⟨h₁, h₂, h₃⟩ := h
  cases h₁ with
  | unary hu _ => cases hu
  | single hu => cases hu
  | chain h =>
    cases h with
    | name h =>
      cases h with
      | call h _ =>
        obtain ⟨m, u, us, heq, hu⟩ := h.head
        cases heq
        cases hu
      | done _ =>
        cases h₂ with
        | none _ =>
          cases h₃ with
          | more hu _ _ _ => cases hu
          | done _ => rfl

theorem Block.returned_false {closers : Closers} {returned : Bool} {s t : Stream}
    {body : Syntax.Block} {k : Keyword} (h : Block closers returned s body k t)
    (hb : body ≠ []) : returned = false := by
  cases h with
  | close _ _ => exact absurd rfl hb
  | cons _ _ => rfl

theorem Block.semicolon {closers : Closers} {returned : Bool} {n : TokenIndex} {ts : List Token}
    {t : Stream} {body : Syntax.Block} {k : Keyword}
    (h : Block closers returned ⟨n + 1, ts⟩ body k t) :
    Block closers returned ⟨n, .operator .semicolon :: ts⟩ body k t := by
  cases h with
  | close h hk => exact .close ((semicolons_cons n ts).trans h) hk
  | cons h h' => exact .cons (semicolons_cons n ts ▸ h) h'

theorem Block.stops {closers : Closers} {returned : Bool} {s t : Stream} {body : Syntax.Block}
    {k : Keyword} (h : Block closers returned s body k t) : s.Stops (joinsNames ·) := by
  refine stops_of_semicolons ?_ (by decide)
  cases h with
  | close h _ =>
    rw [h]
    exact stops_cons.2 (by simp [joinsNames, joinsType])
  | cons h _ =>
    obtain ⟨n, u, us, hs, hu⟩ := h.head
    rw [hs]
    exact stops_cons.2 (not_joinsNames_of_startsStatement hu)

theorem RoutineBody.head {s t : Stream} {r : Routine} (h : RoutineBody s r t) :
    ∃ n ts, s = ⟨n, .operator .roundLeft :: ts⟩ := by
  cases h with
  | intro h _ =>
    cases h with
    | none _ => exact ⟨_, _, rfl⟩
    | list _ _ => exact ⟨_, _, rfl⟩

theorem Expressions.ne_nil {s t : Stream} {es : List Expr} (h : Expressions s es t) :
    spellingsOfExprs es ≠ [] := by
  cases h with
  | intro _ _ => simp [spellingsOfExprs]

theorem Branches.ne_nil {s t : Stream} {list : List Branch} {otherwise : Option Syntax.Block}
    (h : Branches s list otherwise t) : spellingsOfBranches list ≠ [] := by
  cases h <;> simp [spellingsOfBranches]

/-- How a block with its closing keyword is spelled. -/
def spelledBlock (body : Syntax.Block) (k : Keyword) : List Token :=
  separated (.operator .semicolon) (spellingsOfBlock body) ++ [.keyword k]

/-- How the branches of an `if` are spelled, from the first condition to the `end`. -/
def spelledBranches (list : List Branch) (otherwise : Option Syntax.Block) : List Token :=
  separated (.keyword .elseif_) (spellingsOfBranches list) ++
    match otherwise with
    | some body => .keyword .else_ :: spelledBlock body .end_
    | none => [.keyword .end_]

def spelledStep (step : Option Expr) : List Token :=
  match step with
  | some e => .operator .comma :: e.spelling
  | none => []

section
variable (i : TokenIndex) (e : Expr) (body : Syntax.Block)

theorem spelling_routine (sig : Syntax.Signature) :
    (⟨sig, body⟩ : Routine).spelling = sig.spelling ++ spelledBlock body .end_ := by
  simp [Routine.spelling, spelledBlock]

theorem spelling_scope :
    (Stmt.scope i body).spelling = .keyword .do_ :: spelledBlock body .end_ := by
  simp [Stmt.spelling, spelledBlock]

theorem spelling_whileLoop : (Stmt.whileLoop i e body).spelling =
    .keyword .while_ :: (e.spelling ++ .keyword .do_ :: spelledBlock body .end_) := by
  simp [Stmt.spelling, spelledBlock]

theorem spelling_repeatLoop : (Stmt.repeatLoop i body e).spelling =
    .keyword .repeat_ :: (spelledBlock body .until_ ++ e.spelling) := by
  simp [Stmt.spelling, spelledBlock]

theorem spelling_choice (list : List Branch) (otherwise : Option Syntax.Block) :
    (Stmt.choice i list otherwise).spelling = .keyword .if_ :: spelledBranches list otherwise := by
  cases otherwise <;> simp [Stmt.spelling, spelledBranches, spelledBlock]

theorem spelling_numericFor (counter : Syntax.TypedName) (stop : Expr) (step : Option Expr) :
    (Stmt.numericFor i counter e stop step body).spelling =
      .keyword .for_ :: (counter.spelling ++ .operator .equal :: (e.spelling ++ .operator .comma ::
        (stop.spelling ++ (spelledStep step ++ .keyword .do_ :: spelledBlock body .end_)))) := by
  cases step <;> simp [Stmt.spelling, spelledStep, spelledBlock]

theorem spelling_genericFor (names : List Syntax.TypedName) (iterators : List Expr) :
    (Stmt.genericFor i names iterators body).spelling =
      .keyword .for_ :: (commas (names.map TypedName.spelling) ++ .keyword .in_ ::
        (commas (spellingsOfExprs iterators) ++ .keyword .do_ :: spelledBlock body .end_)) := by
  simp [Stmt.spelling, spelledBlock]

theorem spelledBranches_cons {more : List Branch} (otherwise : Option Syntax.Block)
    (h : spellingsOfBranches more ≠ []) : spelledBranches (⟨e, body⟩ :: more) otherwise =
      e.spelling ++ .keyword .then_ ::
        (spelledBlock body .elseif_ ++ spelledBranches more otherwise) := by
  simp [spelledBranches, spelledBlock, spellingsOfBranches, separated_cons _ _ _ h,
    Branch.spelling]

theorem spelledBranches_some (body' : Syntax.Block) : spelledBranches [⟨e, body⟩] (some body') =
    e.spelling ++ .keyword .then_ :: (spelledBlock body .else_ ++ spelledBlock body' .end_) := by
  simp [spelledBranches, spelledBlock, spellingsOfBranches, separated_singleton, Branch.spelling]

theorem spelledBranches_none : spelledBranches [⟨e, body⟩] none =
    e.spelling ++ .keyword .then_ :: spelledBlock body .end_ := by
  simp [spelledBranches, spelledBlock, spellingsOfBranches, separated_singleton, Branch.spelling]

end

def spelledArguments (args : List Expr) : List Token :=
  .operator .roundLeft :: (commas (spellingsOfExprs args) ++ [.operator .roundRight])

theorem commas_cons (e : Expr) (es : List Expr) : commas (spellingsOfExprs (e :: es)) =
    e.spelling ++ (spellingsOfExprs es).flatMap (.operator .comma :: ·) := by
  rw [spellingsOfExprs, commas, separated]

theorem spelledBlock_singleton (first : Stmt) (k : Keyword) :
    spelledBlock [first] k = first.spelling ++ [.keyword k] := by
  rw [spelledBlock, spellingsOfBlock, spellingsOfBlock, separated_singleton]

theorem spelledBlock_cons {first : Stmt} {more : Syntax.Block} (k : Keyword) (h : more ≠ []) :
    spelledBlock (first :: more) k =
      first.spelling ++ .operator .semicolon :: spelledBlock more k := by
  have hne : spellingsOfBlock more ≠ [] := by
    cases more with
    | nil => exact absurd rfl h
    | cons second more => simp [spellingsOfBlock]
  rw [spelledBlock, spellingsOfBlock, separated_cons _ _ _ hne, List.append_assoc]
  rfl

theorem not_joinsStatement_of_accept {closers : Closers} {k : Keyword} (h : closers.accept k) :
    ¬ joinsStatement (.keyword k) := by
  unfold Closers.accept at h
  split at h
  all_goals first
    | decide
    | cases h

/-- Where a statement ends: nothing goes on it, and no semicolon is left of a return statement. -/
def EndsStatement (stmt : Stmt) (t : Stream) : Prop :=
  t.Stops (joinsStatement ·) ∧ (stmt.isLast → t.Stops (· = .operator .semicolon))

theorem endsStatement_of_accept {closers : Closers} {k : Keyword} (h : closers.accept k)
    (stmt : Stmt) (n : TokenIndex) (ts : List Token) :
    EndsStatement stmt ⟨n, .keyword k :: ts⟩ :=
  ⟨stops_cons.2 (not_joinsStatement_of_accept h), fun _ => stops_cons.2 (by simp)⟩

theorem endsStatement_of_semicolon {stmt : Stmt} (h : stmt.isLast = false) (n : TokenIndex)
    (ts : List Token) : EndsStatement stmt ⟨n, .operator .semicolon :: ts⟩ :=
  ⟨stops_cons.2 (by decide), by simp [h]⟩

theorem EndsStatement.endsExpression {stmt : Stmt} {s t : Stream} (h : EndsStatement stmt t) :
    EndsAs (joinsExpression ·) s t :=
  Stops.endsAs (h.1.mono fun _ => joinsStatement_of_joinsExpression)

theorem EndsStatement.endsExpressions {stmt : Stmt} {s t : Stream} (h : EndsStatement stmt t) :
    EndsAs (joinsExpressions ·) s t :=
  Stops.endsAs (h.1.mono fun _ => joinsStatement_of_joinsExpressions)

theorem EndsStatement.endsNames {stmt : Stmt} {s t : Stream} (h : EndsStatement stmt t) :
    EndsAs (joinsNames ·) s t :=
  Stops.endsAs (h.1.mono fun _ => joinsStatement_of_joinsNames)

theorem Statement.semicolons_eq {s t : Stream} {stmt : Stmt} (h : Statement s stmt t) :
    (semicolons s).rest = s := by
  obtain ⟨n, u, us, rfl, hu⟩ := h.head
  refine semicolons_of_stops (stops_cons.2 ?_)
  rintro rfl
  cases hu

theorem spelling_localNames (i : TokenIndex) (names : List Syntax.TypedName) :
    (Stmt.localNames i names []).spelling =
      .keyword .local_ :: commas (names.map TypedName.spelling) := by
  simp [Stmt.spelling, spellingsOfExprs, clause]

theorem spelling_localValues (i : TokenIndex) (names : List Syntax.TypedName) {values : List Expr}
    (h : spellingsOfExprs values ≠ []) : (Stmt.localNames i names values).spelling =
      .keyword .local_ :: (commas (names.map TypedName.spelling) ++
        .operator .equal :: commas (spellingsOfExprs values)) := by
  rw [Stmt.spelling, clause_of_ne_nil h, List.cons_append]

/-! Statements whose parts are read again are read again themselves, one lemma for each kind. -/

def ExpressionAgain (floor : Nat) (e : Expr) (t : Stream) : Prop :=
  Again e.spelling (Expr.mapAnchor forget) (Expression floor) e (EndsAs (joinsExpression ·) t)

def ExpressionsAgain (es : List Expr) (t : Stream) : Prop :=
  Again (commas (spellingsOfExprs es)) (mapAnchorExprs forget) Expressions es
    (EndsAs (joinsExpressions ·) t)

def ReturnValuesAgain (es : List Expr) : Prop :=
  Again (commas (spellingsOfExprs es)) (mapAnchorExprs forget) ReturnValues es
    (Stream.Stops (joinsStatement ·))

def RoutineAgain (r : Routine) : Prop :=
  Again r.spelling (Routine.mapAnchor forget) RoutineBody r (fun _ => True)

/-- Whatever keyword closed a block, it may be closed by any that its reader accepts. -/
def BlockAgain (closers : Closers) (returned : Bool) (body : Syntax.Block) : Prop :=
  ∀ k, closers.accept k → Again (spelledBlock body k) (mapAnchorBlock forget)
    (fun s body t => Block closers returned s body k t) body (fun _ => True)

def StatementAgain (stmt : Stmt) : Prop :=
  Again stmt.spelling (Stmt.mapAnchor forget) Statement stmt (EndsStatement stmt)

section
variable {i : TokenIndex} {s t : Stream} {e : Expr} {values : List Expr} {body : Syntax.Block}
  {r : Routine} {names : List Syntax.TypedName} {w : String}

theorem again_scope (hb : BlockAgain .atEnd false body) : StatementAgain (.scope i body) := by
  intro s' t' hs _
  rw [spelling_scope] at hs
  obtain ⟨n, ts, rfl, hs'⟩ := after_cons_iff.1 hs
  obtain ⟨body', h', hb⟩ := hb .end_ rfl hs' trivial
  exact ⟨_, .scope h', by simp only [Stmt.mapAnchor, hb, forget]⟩

theorem again_whileLoop {n : TokenIndex} {ts : List Token}
    (he : ExpressionAgain 0 e ⟨n, .keyword .do_ :: ts⟩) (hb : BlockAgain .atEnd false body) :
    StatementAgain (.whileLoop i e body) := by
  intro s' t' hs _
  simp only [spelling_whileLoop, after_cons_iff, after_append_iff] at hs
  obtain ⟨n, ts, rfl, r, hs, m, us, rfl, hr⟩ := hs
  obtain ⟨e', h, he⟩ := he hs endsAs_cons
  obtain ⟨body', h', hb⟩ := hb .end_ rfl hr trivial
  exact ⟨_, .whileLoop h h', by simp only [Stmt.mapAnchor, he, hb, forget]⟩

theorem again_repeatLoop (hb : BlockAgain .atUntil false body) (he : ExpressionAgain 0 e t) :
    StatementAgain (.repeatLoop i body e) := by
  intro s' t' hs ht
  simp only [spelling_repeatLoop, after_cons_iff, after_append_iff] at hs
  obtain ⟨n, ts, rfl, r, hs, hr⟩ := hs
  obtain ⟨body', h, hb⟩ := hb .until_ rfl hs trivial
  obtain ⟨e', h', he⟩ := he hr ht.endsExpression
  exact ⟨_, .repeatLoop h h', by simp only [Stmt.mapAnchor, he, hb, forget]⟩

theorem again_routine {path : List String} {isMethod : Bool} (hp : Path s path isMethod t)
    (hr : RoutineAgain r) : StatementAgain (.routine i path isMethod r) := by
  intro s' t' hs _
  simp only [Stmt.spelling, List.cons_append, after_cons_iff, after_append_iff] at hs
  obtain ⟨n, ts, rfl, q, hs, hq⟩ := hs
  obtain ⟨r', hr', he⟩ := hr hq trivial
  obtain ⟨m, us, rfl⟩ := hr'.head
  have hp' := hp.again hs (Stops.endsAs (stops_cons.2 (by decide)))
  exact ⟨_, .routine hp' hr', by simp only [Stmt.mapAnchor, he, forget]⟩

theorem again_localRoutine (hr : RoutineAgain r) : StatementAgain (.localRoutine i w r) := by
  intro s' t' hs _
  simp only [Stmt.spelling, after_cons_iff] at hs
  obtain ⟨n, ts, rfl, m, us, heq, k, vs, heq', hs⟩ := hs
  cases heq
  cases heq'
  obtain ⟨r', h', he⟩ := hr hs trivial
  exact ⟨_, .localRoutine h', by simp only [Stmt.mapAnchor, he, forget]⟩

theorem again_localValues {n : TokenIndex} {ts : List Token}
    (hn : Listed TypedName s names ⟨n, .operator .equal :: ts⟩) (hne : spellingsOfExprs values ≠ [])
    (hv : ExpressionsAgain values t) : StatementAgain (.localNames i names values) := by
  intro s' t' hs ht
  simp only [spelling_localValues _ _ hne, after_cons_iff, after_append_iff] at hs
  obtain ⟨n, ts, rfl, r, hs, m, us, rfl, hr⟩ := hs
  obtain ⟨names', h, hn⟩ := hn.again TypedName.again hs endsAs_cons
  obtain ⟨values', h', hv⟩ := hv hr ht.endsExpressions
  exact ⟨_, .localValues h h', by simp only [Stmt.mapAnchor, hn, hv, forget]⟩

theorem again_localNames (hn : Listed TypedName s names t) :
    StatementAgain (.localNames i names []) := by
  intro s' t' hs ht
  rw [spelling_localNames] at hs
  obtain ⟨n, ts, rfl, hs'⟩ := after_cons_iff.1 hs
  obtain ⟨names', h, hn⟩ := hn.again TypedName.again hs' ht.endsNames
  refine ⟨_, .localNames h (ht.1.mono ?_), by simp only [Stmt.mapAnchor, hn, forget]⟩
  rintro u rfl
  rfl

/-- Whether or not a semicolon stood behind it, a return statement is read again without one. -/
theorem again_returnValues (hv : ReturnValuesAgain values) :
    StatementAgain (.returnValues i values) := by
  intro s' t' hs ht
  rw [Stmt.spelling] at hs
  obtain ⟨n, ts, rfl, hs'⟩ := after_cons_iff.1 hs
  obtain ⟨values', h', hv⟩ := hv hs' ht.1
  exact ⟨_, .returnValues h' (ht.2 rfl), by simp only [Stmt.mapAnchor, hv, forget]⟩

theorem again_breakLoop : StatementAgain (.breakLoop i) := by
  intro s' t' hs _
  simp only [Stmt.spelling, after_cons_iff, after_nil_iff] at hs
  obtain ⟨n, ts, rfl, rfl⟩ := hs
  exact ⟨_, .breakLoop, by simp only [Stmt.mapAnchor, forget]⟩

theorem again_goto : StatementAgain (.goto i w) := by
  intro s' t' hs _
  simp only [Stmt.spelling, after_cons_iff, after_nil_iff] at hs
  obtain ⟨n, ts, rfl, m, us, heq, rfl⟩ := hs
  cases heq
  exact ⟨_, .goto, by simp only [Stmt.mapAnchor, forget]⟩

theorem again_label : StatementAgain (.label i w) := by
  intro s' t' hs _
  simp only [Stmt.spelling, after_cons_iff, after_nil_iff] at hs
  obtain ⟨n, ts, rfl, m, us, heq, k, vs, heq', rfl⟩ := hs
  cases heq
  cases heq'
  exact ⟨_, .label, by simp only [Stmt.mapAnchor, forget]⟩

end

mutual

theorem Expression.again {floor : Nat} {s t : Stream} {e : Expr} :
    Expression floor s e t → ExpressionAgain floor e t
  | .intro h₁ h₂ h₃ => by
    intro s' t' hs ht
    obtain ⟨extra₂, e₂, g₂⟩ := h₂.again
    obtain ⟨extra₃, e₃, g₃⟩ := h₃.again
    rw [e₃, e₂, after_append_iff] at hs
    obtain ⟨b, hs, hb⟩ := hs
    obtain ⟨a, hs, ha⟩ := after_append_iff.1 hs
    obtain ⟨hb', g₃⟩ := g₃ hb ht
    obtain ⟨ha', g₂⟩ := g₂ ha hb'
    obtain ⟨e₁', h₁', he₁⟩ := h₁.again hs ha'
    obtain ⟨e₂', h₂', he₂⟩ := g₂ s'.next e₁' he₁
    obtain ⟨e₃', h₃', he₃⟩ := g₃ s'.next e₂' he₂
    exact ⟨e₃', .intro h₁' h₂' h₃', he₃⟩

theorem Operand.again {s t : Stream} {e : Expr} : Operand s e t →
    Again e.spelling (Expr.mapAnchor forget) Operand e (EndsAs (joinsExpression ·) t)
  | .unary hu h => by
    intro s' t' hs ht
    rw [Expr.spelling, token_of_unary hu] at hs
    obtain ⟨n, ts, rfl, hs'⟩ := after_cons_iff.1 hs
    obtain ⟨e', h', he⟩ := h.again hs' ht
    exact ⟨_, .unary hu h', by simp only [Expr.mapAnchor, he, forget]⟩
  | .single hu => by
    intro s' t' hs _
    obtain ⟨hsp, h⟩ := single_again hu
    rw [hsp] at hs
    obtain ⟨n, ts, rfl, hs'⟩ := after_cons_iff.1 hs
    obtain rfl := after_nil_iff.1 hs'
    obtain ⟨e', h', he⟩ := h n
    exact ⟨e', .single h', he⟩
  | .table h => by
    intro s' t' hs _
    rw [Expr.spelling] at hs
    obtain ⟨n, ts, rfl, hs'⟩ := after_cons_iff.1 hs
    obtain ⟨xs', h', he⟩ := h.again hs' trivial
    exact ⟨_, .table h', by simp only [Expr.mapAnchor, he, forget]⟩
  | .routine h => by
    intro s' t' hs _
    rw [Expr.spelling] at hs
    obtain ⟨n, ts, rfl, hs'⟩ := after_cons_iff.1 hs
    obtain ⟨r', h', he⟩ := h.again hs' trivial
    exact ⟨_, .routine h', by simp only [Expr.mapAnchor, he, forget]⟩
  | .chain h => by
    intro s' t' hs ht
    obtain ⟨e', h', he⟩ := h.again hs ht
    exact ⟨e', .chain h', he⟩

theorem Operations.again {floor : Nat} {anchor : TokenIndex} {left e : Expr} {s t : Stream} :
    Operations floor anchor left s e t →
    Grows (EndsAs (joinsExpression ·) s) (Operations floor) left e t
  | .more (o := op) hu hl h h' => by
    obtain ⟨extra, hx, g⟩ := h'.again
    refine ⟨_, by rw [hx, Expr.spelling, List.append_assoc, List.cons_append], ?_⟩
    intro s' t' hs ht
    rw [token_of_binary hu] at hs
    obtain ⟨n, ts, rfl, hs'⟩ := after_cons_iff.1 hs
    obtain ⟨r, hr, hr'⟩ := after_append_iff.1 hs'
    obtain ⟨hb, g⟩ := g hr' ht
    obtain ⟨right', hright, her⟩ := h.again hr hb
    refine ⟨endsAs_cons, fun anchor left' hleft => ?_⟩
    obtain ⟨e', he', he⟩ := g anchor (.binary anchor op left' right')
      (by simp only [Expr.mapAnchor, hleft, her, forget])
    exact ⟨e', .more hu hl hright he', he⟩
  | .done hd => by
    refine ⟨[], (List.append_nil _).symm, fun s' t' hs ht => ?_⟩
    obtain rfl := after_nil_iff.1 hs
    exact ⟨ht, fun anchor left' hl =>
      ⟨left', .done (ht.stops hd fun _ => joinsExpression_of_bindsAbove), hl⟩⟩

theorem Chain.again {s t : Stream} {e : Expr} : Chain s e t →
    Again e.spelling (Expr.mapAnchor forget) Chain e (EndsAs (joinsExpression ·) t)
  | .name (w := w) h => by
    intro s' t' hs ht
    obtain ⟨extra, hx, g⟩ := h.again
    rw [hx, Expr.spelling] at hs
    obtain ⟨n, ts, rfl, hs'⟩ := after_cons_iff.1 hs
    obtain ⟨-, g⟩ := g hs' ht
    obtain ⟨e', h', he⟩ := g n (.name n w) (by simp only [Expr.mapAnchor, forget])
    exact ⟨e', .name h', he⟩
  | .parenthesized h h' => by
    intro s' t' hs ht
    obtain ⟨extra, hx, g⟩ := h'.again
    rw [hx, Expr.spelling] at hs
    simp only [List.append_assoc, List.cons_append, List.nil_append, after_cons_iff,
      after_append_iff] at hs
    obtain ⟨n, ts, rfl, r, hi, m, us, rfl, hs⟩ := hs
    obtain ⟨inner', hi', hei⟩ := h.again hi endsAs_cons
    obtain ⟨-, g⟩ := g hs ht
    obtain ⟨e', h', he⟩ := g n (.parenthesized n inner')
      (by simp only [Expr.mapAnchor, hei, forget])
    exact ⟨e', .parenthesized hi' h', he⟩

theorem Suffixes.again {anchor : TokenIndex} {e whole : Expr} {s t : Stream} :
    Suffixes anchor e s whole t → Grows (fun _ => True) Suffixes e whole t
  | .element h h' => by
    obtain ⟨extra, hx, g⟩ := h'.again
    refine ⟨_, by rw [hx, Expr.spelling, Index.spelling, List.append_assoc, List.append_assoc], ?_⟩
    intro s' t' hs ht
    simp only [List.cons_append, List.nil_append, after_cons_iff, after_append_iff] at hs
    obtain ⟨n, ts, rfl, r, hk, m, us, rfl, hs⟩ := hs
    obtain ⟨key', hk', hek⟩ := h.again hk endsAs_cons
    obtain ⟨-, g⟩ := g hs ht
    refine ⟨trivial, fun anchor left' hl => ?_⟩
    obtain ⟨e', h', he⟩ := g anchor (.index (.element anchor left' key'))
      (by simp only [Expr.mapAnchor, Index.mapAnchor, hl, hek, forget])
    exact ⟨e', .element hk' h', he⟩
  | .field (w := w) h => by
    obtain ⟨extra, hx, g⟩ := h.again
    refine ⟨_, by rw [hx, Expr.spelling, Index.spelling, List.append_assoc], ?_⟩
    intro s' t' hs ht
    simp only [List.cons_append, List.nil_append, after_cons_iff] at hs
    obtain ⟨n, ts, rfl, m, us, heq, hs⟩ := hs
    cases heq
    obtain ⟨-, g⟩ := g hs ht
    refine ⟨trivial, fun anchor left' hl => ?_⟩
    obtain ⟨e', h', he⟩ := g anchor (.index (.field anchor left' w))
      (by simp only [Expr.mapAnchor, Index.mapAnchor, hl, forget])
    exact ⟨e', .field h', he⟩
  | .method (w := w) (a := args) h h' => by
    obtain ⟨extra, hx, g⟩ := h'.again
    refine ⟨.operator .colon :: .name w :: (spelledArguments args ++ extra), by
      rw [hx, Expr.spelling, Call.spelling, spelledArguments]
      simp only [List.append_assoc, List.cons_append], ?_⟩
    intro s' t' hs ht
    simp only [after_cons_iff, after_append_iff] at hs
    obtain ⟨n, ts, rfl, m, us, heq, r, ha, hs⟩ := hs
    cases heq
    obtain ⟨args', ha', hea⟩ := h.again ha trivial
    obtain ⟨-, g⟩ := g hs ht
    refine ⟨trivial, fun anchor left' hl => ?_⟩
    obtain ⟨e', h', he⟩ := g anchor (.call (.method anchor left' w args'))
      (by simp only [Expr.mapAnchor, Call.mapAnchor, hl, hea, forget])
    exact ⟨e', .method ha' h', he⟩
  | .call (a := args) h h' => by
    obtain ⟨extra, hx, g⟩ := h'.again
    refine ⟨spelledArguments args ++ extra, by
      rw [hx, Expr.spelling, Call.spelling, spelledArguments]
      simp only [List.append_assoc, List.cons_append], ?_⟩
    intro s' t' hs ht
    obtain ⟨r, ha, hs⟩ := after_append_iff.1 hs
    obtain ⟨args', ha', hea⟩ := h.again ha trivial
    obtain ⟨-, g⟩ := g hs ht
    refine ⟨trivial, fun anchor left' hl => ?_⟩
    obtain ⟨e', h', he⟩ := g anchor (.call (.plain anchor left' args'))
      (by simp only [Expr.mapAnchor, Call.mapAnchor, hl, hea, forget])
    exact ⟨e', .call ha' h', he⟩
  | .done hd => by
    refine ⟨[], (List.append_nil _).symm, fun s' t' hs ht => ?_⟩
    obtain rfl := after_nil_iff.1 hs
    exact ⟨trivial, fun anchor left' hl =>
      ⟨left', .done (ht.stops hd fun _ => joinsExpression_of_startsSuffix), hl⟩⟩

theorem Arguments.again {s t : Stream} {args : List Expr} : Arguments s args t →
    Again (spelledArguments args) (mapAnchorExprs forget) Arguments args (fun _ => True)
  | .none => by
    intro s' t' hs _
    simp only [spelledArguments, spellingsOfExprs, commas, separated, List.nil_append,
      after_cons_iff, after_nil_iff] at hs
    obtain ⟨n, ts, rfl, m, us, heq, rfl⟩ := hs
    cases heq
    exact ⟨_, .none, rfl⟩
  | .list h => by
    intro s' t' hs _
    simp only [spelledArguments, after_cons_iff, after_append_iff, after_nil_iff] at hs
    obtain ⟨n, ts, rfl, r, ha, m, us, rfl, rfl⟩ := hs
    obtain ⟨args', h', he⟩ := h.again ha endsAs_cons
    exact ⟨args', .list h', he⟩
  | .table h => by
    intro s' t' hs _
    simp only [spelledArguments, spellingsOfExprs, commas, separated_singleton, after_cons_iff,
      after_append_iff, after_nil_iff] at hs
    obtain ⟨n, ts, rfl, r, ha, m, us, rfl, rfl⟩ := hs
    rw [Expr.spelling] at ha
    obtain ⟨k, vs, heq, ha'⟩ := after_cons_iff.1 ha
    cases heq
    obtain ⟨xs', h', he⟩ := h.again ha' trivial
    refine ⟨_, .list (.intro ((Operand.table h').expression (stops_cons.2 (by decide)))
      (.done (stops_cons.2 (by simp)))), ?_⟩
    simp only [mapAnchorExprs, Expr.mapAnchor, he, forget]
  | .string => by
    intro s' t' hs _
    simp only [spelledArguments, spellingsOfExprs, commas, separated_singleton, Expr.spelling,
      Literal.spelling, List.cons_append, List.nil_append, after_cons_iff, after_nil_iff] at hs
    obtain ⟨n, ts, rfl, m, us, heq, k, vs, heq', rfl⟩ := hs
    cases heq
    cases heq'
    refine ⟨_, .list (.intro ((Operand.single rfl).expression (stops_cons.2 (by decide)))
      (.done (stops_cons.2 (by simp)))), ?_⟩
    simp only [mapAnchorExprs, Expr.mapAnchor, Literal.mapAnchor, forget]

theorem Expressions.again {s t : Stream} {es : List Expr} :
    Expressions s es t → ExpressionsAgain es t
  | .intro h h' => by
    intro s' t' hs ht
    rw [commas_cons, after_append_iff] at hs
    obtain ⟨r, hs, hr⟩ := hs
    obtain ⟨hb, es', h', hes⟩ := h'.again hr ht
    obtain ⟨e', h, he⟩ := h.again hs hb
    exact ⟨_, .intro h h', by simp only [mapAnchorExprs, he, hes]⟩

theorem MoreExpressions.again {s t : Stream} {es : List Expr} : MoreExpressions s es t →
    ∀ ⦃s' t'⦄, After ((spellingsOfExprs es).flatMap (.operator .comma :: ·)) s' t' →
      EndsAs (joinsExpressions ·) t t' → EndsAs (joinsExpression ·) s s' ∧
        ∃ es', MoreExpressions s' es' t' ∧ mapAnchorExprs forget es' = mapAnchorExprs forget es
  | .more h => by
    intro s' t' hs ht
    rw [flatMap_separator h.ne_nil] at hs
    obtain ⟨n, ts, rfl, hs'⟩ := after_cons_iff.1 hs
    obtain ⟨es', h', he⟩ := h.again hs' ht
    exact ⟨endsAs_cons, es', .more h', he⟩
  | .done hd => by
    intro s' t' hs ht
    obtain rfl := after_nil_iff.1 hs
    refine ⟨ht.mono fun _ => joinsExpressions_of_joinsExpression, [], .done (ht.stops hd ?_), rfl⟩
    rintro u rfl
    rfl

theorem TableItems.again {s t : Stream} {xs : List Syntax.TableItem} : TableItems s xs t →
    Again (commas (spellingsOfItems xs) ++ [.operator .curlyRight]) (mapAnchorItems forget)
      TableItems xs (fun _ => True)
  | .none => by
    intro s' t' hs _
    simp only [spellingsOfItems, commas, separated, List.nil_append, after_cons_iff,
      after_nil_iff] at hs
    obtain ⟨n, ts, rfl, rfl⟩ := hs
    exact ⟨_, .none, rfl⟩
  | .more (y := xs) h _ h' => by
    intro s' t' hs _
    by_cases hx : xs = []
    · simp only [hx, spellingsOfItems, commas, separated_singleton, after_append_iff,
        after_cons_iff, after_nil_iff] at hs
      obtain ⟨r, hs, n, ts, rfl, rfl⟩ := hs
      obtain ⟨x', hx', he⟩ := h.again hs (.intro rfl)
      exact ⟨_, .last hx', by simp only [hx, mapAnchorItems, he]⟩
    · have hne : spellingsOfItems xs ≠ [] := by
        cases xs with
        | nil => exact absurd rfl hx
        | cons x xs => simp [spellingsOfItems]
      rw [spellingsOfItems, commas, separated_cons _ _ _ hne, List.append_assoc] at hs
      obtain ⟨r, hs, hr⟩ := after_append_iff.1 hs
      obtain ⟨n, ts, rfl, hr'⟩ := after_cons_iff.1 hr
      obtain ⟨x', hx', he⟩ := h.again hs (.intro rfl)
      obtain ⟨xs', hxs', hes⟩ := h'.again hr' trivial
      exact ⟨_, .more hx' rfl hxs', by simp only [mapAnchorItems, he, hes]⟩
  | .last h => by
    intro s' t' hs _
    simp only [spellingsOfItems, commas, separated_singleton, after_append_iff,
      after_cons_iff, after_nil_iff] at hs
    obtain ⟨r, hs, n, ts, rfl, rfl⟩ := hs
    obtain ⟨x', hx', he⟩ := h.again hs (.intro rfl)
    exact ⟨_, .last hx', by simp only [mapAnchorItems, he]⟩

theorem TableItem.again {s t : Stream} {x : Syntax.TableItem} : TableItem s x t →
    Again x.spelling (TableItem.mapAnchor forget) TableItem x (Stream.Starts endsItem)
  | .keyed h h' => by
    intro s' t' hs ht
    simp only [TableItem.spelling, after_append_iff, after_cons_iff] at hs
    obtain ⟨r, ⟨n, ts, rfl, hk⟩, m, us, rfl, k, vs, heq, hv⟩ := hs
    cases heq
    obtain ⟨k', hk', hek⟩ := h.again hk endsAs_cons
    obtain ⟨v', hv', hev⟩ := h'.again hv (stops_of_endsItem ht).1.endsAs
    exact ⟨_, .keyed hk' hv', by simp only [TableItem.mapAnchor, hek, hev]⟩
  | .named h => by
    intro s' t' hs ht
    simp only [TableItem.spelling, after_cons_iff] at hs
    obtain ⟨n, ts, rfl, m, us, heq, hv⟩ := hs
    cases heq
    obtain ⟨v', hv', hev⟩ := h.again hv (stops_of_endsItem ht).1.endsAs
    exact ⟨_, .named hv', by simp only [TableItem.mapAnchor, hev]⟩
  | .positional _ h => by
    intro s' t' hs ht
    rw [TableItem.spelling] at hs
    obtain ⟨v', hv', hev⟩ := h.again hs (stops_of_endsItem ht).1.endsAs
    refine ⟨_, .positional ?_ hv', by simp only [TableItem.mapAnchor, hev]⟩
    cases hf : fieldName? s' with
    | none => rfl
    | some p =>
      obtain ⟨w, s₁, h₁⟩ := p
      obtain ⟨n, ts, rfl, -⟩ := fieldName?_some hf
      obtain rfl := hv'.stops_at_equal
      exact (stops_cons.1 (stops_of_endsItem ht).2 rfl).elim

theorem RoutineBody.again {s t : Stream} {r : Routine} : RoutineBody s r t → RoutineAgain r
  | .intro h h' => by
    intro s' t' hs _
    rw [spelling_routine, after_append_iff] at hs
    obtain ⟨r, hs, hr⟩ := hs
    obtain ⟨body', h', hb⟩ := h'.again .end_ rfl hr trivial
    obtain ⟨sig', h, he⟩ := h.again hs h'.stops.endsAs
    exact ⟨_, .intro h h', by simp only [Routine.mapAnchor, he, hb]⟩

theorem Block.again {closers : Closers} {returned : Bool} {s t : Stream} {body : Syntax.Block}
    {k : Keyword} : Block closers returned s body k t → BlockAgain closers returned body
  | .close _ _ => by
    intro k' hk s' t' hs _
    simp only [spelledBlock, spellingsOfBlock, separated, List.nil_append, after_cons_iff,
      after_nil_iff] at hs
    obtain ⟨n, ts, rfl, rfl⟩ := hs
    exact ⟨[], .close (semicolons_of_stops (stops_cons.2 (by simp))) hk, rfl⟩
  | .cons (a := first) (b := more) h h' => by
    intro k' hk s' t' hs _
    by_cases hm : more = []
    · rw [hm, spelledBlock_singleton, after_append_iff] at hs
      obtain ⟨r, hs, hr⟩ := hs
      obtain ⟨n, ts, rfl, hr'⟩ := after_cons_iff.1 hr
      obtain rfl := after_nil_iff.1 hr'
      obtain ⟨first', h, he⟩ := h.again hs (endsStatement_of_accept hk _ n ts)
      refine ⟨[first'], .cons (h.semicolons_eq.symm ▸ h) (.close ?_ hk), ?_⟩
      · exact semicolons_of_stops (stops_cons.2 (by simp))
      · simp only [hm, mapAnchorBlock, he]
    · have hlast := h'.returned_false hm
      rw [spelledBlock_cons _ hm, after_append_iff] at hs
      obtain ⟨r, hs, hr⟩ := hs
      obtain ⟨n, ts, rfl, hr'⟩ := after_cons_iff.1 hr
      obtain ⟨first', h, he⟩ := h.again hs (endsStatement_of_semicolon hlast n ts)
      obtain ⟨more', h', hes⟩ := h'.again k' hk hr' trivial
      have hlast' : first'.isLast = first.isLast := by
        rw [← isLast_mapAnchor forget, he, isLast_mapAnchor]
      refine ⟨first' :: more', .cons (h.semicolons_eq.symm ▸ h) ?_, ?_⟩
      · rw [hlast']
        exact h'.semicolon
      · simp only [mapAnchorBlock, he, hes]

theorem Statement.again {s t : Stream} {stmt : Stmt} : Statement s stmt t → StatementAgain stmt
  | .scope h => again_scope h.again
  | .whileLoop h h' => again_whileLoop h.again h'.again
  | .repeatLoop h h' => again_repeatLoop h.again h'.again
  | .choice h => by
    intro s' t' hs _
    rw [spelling_choice] at hs
    obtain ⟨n, ts, rfl, hs'⟩ := after_cons_iff.1 hs
    obtain ⟨list', otherwise', h', hl, ho⟩ := h.again hs'
    exact ⟨_, .choice h', by simp only [mapAnchor_choice, hl, ho, forget]⟩
  | .forLoop h => by
    intro s' t' hs _
    obtain ⟨rest, hx, g⟩ := h.again
    rw [hx] at hs
    obtain ⟨n, ts, rfl, hs'⟩ := after_cons_iff.1 hs
    obtain ⟨loop', h', he⟩ := g n hs'
    exact ⟨_, .forLoop h', he⟩
  | .routine h h' => again_routine h h'.again
  | .localRoutine h => again_localRoutine h.again
  | .localValues h h' => again_localValues h h'.ne_nil h'.again
  | .localNames h _ => again_localNames h
  | .returnEnded h => again_returnValues h.again
  | .returnValues h _ => again_returnValues h.again
  | .breakLoop => again_breakLoop
  | .goto => again_goto
  | .label => again_label
  | .assignmentOrCall h => by
    intro s' t' hs ht
    obtain ⟨stmt', h', he⟩ := h.again hs ht.1
    exact ⟨_, .assignmentOrCall h', he⟩

theorem ReturnValues.again {s t : Stream} {es : List Expr} :
    ReturnValues s es t → ReturnValuesAgain es
  | .list h h' => by
    intro s' t' hs ht
    rw [commas_cons, after_append_iff] at hs
    obtain ⟨r, hs, hr⟩ := hs
    obtain ⟨hb, es', h', hes⟩ :=
      h'.again hr (Stops.endsAs (ht.mono fun _ => joinsStatement_of_joinsExpressions))
    obtain ⟨e', h, he⟩ := h.again hs hb
    exact ⟨_, .list h h', by simp only [mapAnchorExprs, he, hes]⟩
  | .none _ => by
    intro s' t' hs ht
    obtain rfl := after_nil_iff.1 hs
    exact ⟨[], .none (ht.mono fun _ => joinsStatement_of_startsExpression), rfl⟩

theorem Branches.again {s t : Stream} {list : List Branch} {otherwise : Option Syntax.Block} :
    Branches s list otherwise t → ∀ ⦃s' t'⦄, After (spelledBranches list otherwise) s' t' →
      ∃ list' otherwise', Branches s' list' otherwise' t' ∧
        mapAnchorBranches forget list' = mapAnchorBranches forget list ∧
        otherwise'.map (mapAnchorBlock forget) = otherwise.map (mapAnchorBlock forget)
  | .elseif h h' h'' => by
    intro s' t' hs
    simp only [spelledBranches_cons _ _ _ h''.ne_nil, after_cons_iff, after_append_iff] at hs
    obtain ⟨r, hs, n, ts, rfl, q, hb, hm⟩ := hs
    obtain ⟨e', h, he⟩ := h.again hs endsAs_cons
    obtain ⟨body', h', heb⟩ := h'.again .elseif_ rfl hb trivial
    obtain ⟨list', otherwise', h'', hl, ho⟩ := h''.again hm
    refine ⟨_, _, .elseif h h' h'', ?_, ho⟩
    simp only [mapAnchorBranches, Branch.mapAnchor, he, heb, hl]
  | .otherwise h h' h'' => by
    intro s' t' hs
    simp only [spelledBranches_some, after_cons_iff, after_append_iff] at hs
    obtain ⟨r, hs, n, ts, rfl, q, hb, ho⟩ := hs
    obtain ⟨e', h, he⟩ := h.again hs endsAs_cons
    obtain ⟨body', h', heb⟩ := h'.again .else_ rfl hb trivial
    obtain ⟨body'', h'', heo⟩ := h''.again .end_ rfl ho trivial
    refine ⟨_, _, .otherwise h h' h'', ?_, ?_⟩
    · simp only [mapAnchorBranches, Branch.mapAnchor, he, heb]
    · simp only [Option.map_some, heo]
  | .last h h' _ _ => by
    intro s' t' hs
    simp only [spelledBranches_none, after_cons_iff, after_append_iff] at hs
    obtain ⟨r, hs, n, ts, rfl, hb⟩ := hs
    obtain ⟨e', h, he⟩ := h.again hs endsAs_cons
    obtain ⟨body', h', heb⟩ := h'.again .end_ rfl hb trivial
    refine ⟨_, _, .last h h' (by decide) (by decide), ?_, rfl⟩
    simp only [mapAnchorBranches, Branch.mapAnchor, he, heb]

theorem ForLoop.again {anchor : TokenIndex} {s t : Stream} {loop : Stmt} :
    ForLoop anchor s loop t → ∃ rest, loop.spelling = .keyword .for_ :: rest ∧
      ∀ anchor' ⦃s' t'⦄, After rest s' t' →
        ∃ loop', ForLoop anchor' s' loop' t' ∧ loop'.mapAnchor forget = loop.mapAnchor forget
  | .numeric h₁ h₂ h₃ h₄ h₅ => by
    refine ⟨_, spelling_numericFor .., fun anchor' s' t' hs => ?_⟩
    simp only [after_cons_iff, after_append_iff] at hs
    obtain ⟨r, hc, n, ts, rfl, p, hstart, m, us, rfl, q, hstop, o, hstep, k, vs, rfl, hb⟩ := hs
    obtain ⟨names', h₁, hn⟩ := h₁.again TypedName.again
      (by rw [List.map_singleton, commas, separated_singleton]; exact hc) endsAs_cons
    obtain ⟨counter', rfl, hec⟩ := List.map_eq_singleton_iff.1 hn
    obtain ⟨start', h₂, hes⟩ := h₂.again hstart endsAs_cons
    obtain ⟨hb', step', h₄, het⟩ := h₄.again hstep endsAs_cons
    obtain ⟨stop', h₃, hep⟩ := h₃.again hstop hb'
    obtain ⟨body', h₅, heb⟩ := h₅.again .end_ rfl hb trivial
    exact ⟨_, .numeric h₁ h₂ h₃ h₄ h₅, by
      simp only [mapAnchor_numericFor, hec, hes, hep, het, heb, forget]⟩
  | .generic h₁ h₂ h₃ => by
    refine ⟨_, spelling_genericFor .., fun anchor' s' t' hs => ?_⟩
    simp only [after_cons_iff, after_append_iff] at hs
    obtain ⟨r, hn, n, ts, rfl, q, hi, m, us, rfl, hb⟩ := hs
    obtain ⟨names', h₁, hn'⟩ := h₁.again TypedName.again hn endsAs_cons
    obtain ⟨iterators', h₂, hi'⟩ := h₂.again hi endsAs_cons
    obtain ⟨body', h₃, hb'⟩ := h₃.again .end_ rfl hb trivial
    exact ⟨_, .generic h₁ h₂ h₃, by simp only [Stmt.mapAnchor, hn', hi', hb', forget]⟩

theorem StepValue.again {s t : Stream} {step : Option Expr} : StepValue s step t →
    ∀ ⦃s' t'⦄, After (spelledStep step) s' t' → EndsAs (joinsExpressions ·) t t' →
      EndsAs (joinsExpression ·) s s' ∧ ∃ step', StepValue s' step' t' ∧
        step'.map (Expr.mapAnchor forget) = step.map (Expr.mapAnchor forget)
  | .step h => by
    intro s' t' hs ht
    obtain ⟨n, ts, rfl, hs'⟩ := after_cons_iff.1 hs
    obtain ⟨e', h', he⟩ :=
      h.again hs' (ht.mono fun _ => joinsExpressions_of_joinsExpression)
    exact ⟨endsAs_cons, _, .step h', by simp only [Option.map_some, he]⟩
  | .none hd => by
    intro s' t' hs ht
    obtain rfl := after_nil_iff.1 hs
    refine ⟨ht.mono fun _ => joinsExpressions_of_joinsExpression, _, .none (ht.stops hd ?_), rfl⟩
    rintro u rfl
    rfl

theorem AssignmentOrCall.again {s t : Stream} {stmt : Stmt} : AssignmentOrCall s stmt t →
    Again stmt.spelling (Stmt.mapAnchor forget) AssignmentOrCall stmt
      (Stream.Stops (joinsStatement ·))
  | .typed h h' => by
    intro s' t' hs ht
    obtain ⟨extra, hx, g⟩ := h'.again
    rw [hx, after_append_iff] at hs
    obtain ⟨r, hs, hr⟩ := hs
    obtain ⟨hh, g⟩ := g hr ht
    rw [Target.spelling] at hs
    obtain ⟨p', h, hp⟩ := h.again hs hh
    obtain ⟨stmt', h', he⟩ := g s'.next (.name p') (by simp only [Target.mapAnchor, hp])
    exact ⟨_, .typed h h', he⟩
  | .assign h htarget h' => by
    intro s' t' hs ht
    obtain ⟨extra, hx, g⟩ := h'.again
    rw [hx, target?_spelling htarget, after_append_iff] at hs
    obtain ⟨r, hs, hr⟩ := hs
    obtain ⟨hh, g⟩ := g hr ht
    obtain ⟨e', h, he⟩ := h.again hs hh.endsAs
    obtain ⟨target', htarget', het⟩ := target?_again htarget he
    obtain ⟨stmt', h', he⟩ := g s'.next target' het
    exact ⟨_, .assign h htarget' h', he⟩
  | .update h hu htarget h' => by
    intro s' t' hs ht
    simp only [Stmt.spelling, target?_spelling htarget, token_of_update hu, after_append_iff,
      after_cons_iff] at hs
    obtain ⟨r, hs, n, ts, rfl, hr⟩ := hs
    obtain ⟨e', h, he⟩ := h.again hs endsAs_cons
    obtain ⟨target', htarget', het⟩ := target?_again htarget he
    obtain ⟨value', h', hv⟩ :=
      h'.again hr (Stops.endsAs (ht.mono fun _ => joinsStatement_of_joinsExpression))
    exact ⟨_, .update h hu htarget' h', by simp only [Stmt.mapAnchor, het, hv, forget]⟩
  | .call h hc _ => by
    intro s' t' hs ht
    rw [Stmt.spelling, call?_spelling hc] at hs
    obtain ⟨e', h, he⟩ :=
      h.again hs (Stops.endsAs (ht.mono fun _ => joinsStatement_of_joinsExpression))
    obtain ⟨c', hc', hec⟩ := call?_again hc he
    exact ⟨_, .call h hc' (ht.mono fun _ => joinsStatement_of_startsAssignment), by
      simp only [Stmt.mapAnchor, hec, forget]⟩

theorem Assignment.again {anchor : TokenIndex} {first : Target} {s t : Stream} {stmt : Stmt} :
    Assignment anchor first s stmt t → ∃ extra, stmt.spelling = first.spelling ++ extra ∧
      ∀ ⦃s' t'⦄, After extra s' t' → t'.Stops (joinsStatement ·) → SameHead s s' ∧
        ∀ anchor' first', first'.mapAnchor forget = first.mapAnchor forget →
          ∃ stmt', Assignment anchor' first' s' stmt' t' ∧
            stmt'.mapAnchor forget = stmt.mapAnchor forget
  | .intro h h' => by
    refine ⟨_, by rw [Stmt.spelling, spellingsOfTargets, commas, separated, List.append_assoc], ?_⟩
    intro s' t' hs ht
    simp only [after_append_iff, after_cons_iff] at hs
    obtain ⟨r, hs, n, ts, rfl, hr⟩ := hs
    obtain ⟨hh, more', h, hm⟩ := h.again hs sameHead_cons
    obtain ⟨values', h', hv⟩ :=
      h'.again hr (Stops.endsAs (ht.mono fun _ => joinsStatement_of_joinsExpressions))
    exact ⟨hh, fun anchor' first' hf => ⟨_, .intro h h', by
      simp only [Stmt.mapAnchor, mapAnchorTargets, hf, hm, hv, forget]⟩⟩

theorem MoreTargets.again {s t : Stream} {targets : List Target} : MoreTargets s targets t →
    ∀ ⦃s' t'⦄, After ((spellingsOfTargets targets).flatMap (.operator .comma :: ·)) s' t' →
      SameHead t t' → SameHead s s' ∧ ∃ targets', MoreTargets s' targets' t' ∧
        mapAnchorTargets forget targets' = mapAnchorTargets forget targets
  | .more h h' => by
    intro s' t' hs ht
    simp only [spellingsOfTargets, List.flatMap_cons, List.cons_append, after_cons_iff,
      after_append_iff] at hs
    obtain ⟨n, ts, rfl, r, hs, hr⟩ := hs
    obtain ⟨hh, targets', h', hes⟩ := h'.again hr ht
    obtain ⟨target', h, he⟩ := h.again hs hh
    exact ⟨sameHead_cons, _, .more h h', by simp only [mapAnchorTargets, he, hes]⟩
  | .done hd => by
    intro s' t' hs ht
    obtain rfl := after_nil_iff.1 hs
    exact ⟨ht, [], .done (ht.stops hd), rfl⟩

theorem OneTarget.again {s t : Stream} {target : Target} : OneTarget s target t →
    Again target.spelling (Target.mapAnchor forget) OneTarget target (SameHead t)
  | .typed h => by
    intro s' t' hs ht
    rw [Target.spelling] at hs
    obtain ⟨p', h', hp⟩ := h.again hs ht
    exact ⟨_, .typed h', by simp only [Target.mapAnchor, hp]⟩
  | .chain h htarget => by
    intro s' t' hs ht
    rw [target?_spelling htarget] at hs
    obtain ⟨e', h', he⟩ := h.again hs ht.endsAs
    obtain ⟨target', htarget', het⟩ := target?_again htarget he
    exact ⟨_, .chain h' htarget', het⟩

end

end Reading

end ScriptFront.Phrase
