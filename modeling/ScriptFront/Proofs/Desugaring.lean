import ScriptFront.Proofs.ChunkRespelling
/-! No token that is read is lost: what was read is spelled with the same tokens, but for the sugar
that no tree keeps. -/
namespace ScriptFront.Phrase
open Syntax Phrase.Stream

/-- `Desugars ts us` says that `us` is `ts` without its sugar: semicolons come and go, a table has
commas between its items and no separator behind the last, an argument without brackets gets them,
and an enum has no comma behind its last case, no empty brackets and no sign apart from its
number. -/
inductive Desugars : List Token → List Token → Prop
  | nil : Desugars [] []
  | keep : Desugars ts us → Desugars (u :: ts) (u :: us)
  | dropSemicolon : Desugars ts us → Desugars (.operator .semicolon :: ts) us
  | addSemicolon : Desugars ts us → Desugars ts (.operator .semicolon :: us)
  | separator : Desugars ts us → Desugars (.operator .semicolon :: ts) (.operator .comma :: us)
  | lastSeparator : separatorOf? u = some () → Desugars ts us →
    Desugars (u :: .operator .curlyRight :: ts) (.operator .curlyRight :: us)
  | stringCall : Desugars ts us → Desugars (.string v :: ts)
    (.operator .roundLeft :: .string v :: .operator .roundRight :: us)
  | tableCall : Desugars as (bs ++ [.operator .curlyRight]) → Desugars ts us →
    Desugars (.operator .curlyLeft :: (as ++ ts)) (.operator .roundLeft :: .operator .curlyLeft ::
      (bs ++ .operator .curlyRight :: .operator .roundRight :: us))
  | lastCase : Desugars ts us →
    Desugars (.operator .comma :: .keyword .end_ :: ts) (.keyword .end_ :: us)
  | payload : Desugars ts us → Desugars (.operator .roundLeft :: .operator .roundRight :: ts) us
  | negative : Desugars ts us → Desugars (.operator .minus :: .number v :: ts) (.number (-v) :: us)

theorem desugars_self (ts : List Token) : Desugars ts ts := by
  induction ts with
  | nil => exact .nil
  | cons u ts ih => exact .keep ih

theorem Desugars.append {as bs ts us : List Token} (h : Desugars as bs) (k : Desugars ts us) :
    Desugars (as ++ ts) (bs ++ us) := by
  induction h with
  | nil => exact k
  | keep _ ih => exact .keep ih
  | dropSemicolon _ ih => exact .dropSemicolon ih
  | addSemicolon _ ih => exact .addSemicolon ih
  | separator _ ih => exact .separator ih
  | lastSeparator hu _ ih => exact .lastSeparator hu ih
  | stringCall _ ih => exact .stringCall ih
  | tableCall h _ _ ih =>
    simp only [List.cons_append, List.append_assoc]
    exact .tableCall h ih
  | lastCase _ ih => exact .lastCase ih
  | payload _ ih => exact .payload ih
  | negative _ ih => exact .negative ih

/-- The tokens from `s` to `t` are those of `us`, with sugar. -/
def Spells (s : Stream) (us : List Token) (t : Stream) : Prop :=
  ∃ taken, After taken s t ∧ Desugars taken us

section
variable {r s t : Stream} {us vs ts : List Token} {n : TokenIndex} {u : Token}

theorem spells_nil (s : Stream) : Spells s [] s := ⟨[], after_nil, .nil⟩

theorem spells_of_after (h : After us s t) : Spells s us t := ⟨us, h, desugars_self us⟩

theorem Spells.append : Spells r us s → Spells s vs t → Spells r (us ++ vs) t
  | ⟨_, h, d⟩, ⟨_, k, e⟩ => ⟨_, h.trans k, d.append e⟩

theorem Spells.keep : Spells ⟨n + 1, ts⟩ us t → Spells ⟨n, u :: ts⟩ (u :: us) t
  | ⟨_, h, d⟩ => ⟨_, h.cons, .keep d⟩

theorem Spells.dropSemicolon :
    Spells ⟨n + 1, ts⟩ us t → Spells ⟨n, .operator .semicolon :: ts⟩ us t
  | ⟨_, h, d⟩ => ⟨_, h.cons, .dropSemicolon d⟩

theorem Spells.addSemicolon : Spells s us t → Spells s (.operator .semicolon :: us) t
  | ⟨_, h, d⟩ => ⟨_, h, .addSemicolon d⟩

theorem Spells.snoc (h : Spells s us ⟨n, u :: ts⟩) : Spells s (us ++ [u]) ⟨n + 1, ts⟩ :=
  h.append (spells_nil _).keep

end

theorem Spells.ofSemicolons {s t : Stream} {us : List Token}
    (h : Spells (semicolons s).rest us t) : Spells s us t := by
  cases hs : operator? .semicolon s with
  | none =>
    rw [semicolons_of_stops (operator?_none_iff.1 hs)] at h
    exact h
  | some p =>
    obtain ⟨_, s₁, h₁⟩ := p
    obtain ⟨n, ts, hn, rfl⟩ := operator?_some hs
    rw [hn, semicolons_cons] at h
    rw [hn]
    exact (Spells.ofSemicolons h).dropSemicolon
termination_by s.left.length
decreasing_by exact Stream.Follows.length_lt ‹_›

namespace Reading

theorem annotation_after {s t : Stream} {type : TypeExpr} (h : Annotation s type t) :
    After type.spelling s t := (typeExpr_yields_iff.1 h).1

theorem TypedName.after {s t : Stream} {p : Syntax.TypedName} (h : TypedName s p t) :
    After p.spelling s t := by
  cases h with
  | typed h =>
    simp only [TypedName.spelling, clause, commas, separated_singleton, Option.toList,
      List.map_cons, List.map_nil]
    exact (annotation_after h).cons.cons
  | plain _ => exact after_nil.cons

theorem Listed.after {α : Type} {Item : Stream → α → Stream → Prop} {spelling : α → List Token}
    {s t : Stream} {as : List α} (h : Listed Item s as t)
    (after : ∀ {s t a}, Item s a t → After (spelling a) s t) :
    After (commas (as.map spelling)) s t := by
  induction h with
  | last h _ =>
    rw [List.map_singleton, commas, separated_singleton]
    exact after h
  | more h hm ih =>
    rw [List.map_cons, commas, separated_cons _ _ _ (by simp [hm.ne_nil])]
    exact (after h).trans ih.cons

theorem Clause.after {α : Type} {Item : Stream → α → Stream → Prop} {spelling : α → List Token}
    {s t : Stream} {as : List α} (h : Clause Item s as t)
    (after : ∀ {s t a}, Item s a t → After (spelling a) s t) :
    After (clause (.operator .colon) (as.map spelling)) s t := by
  cases h with
  | list h =>
    rw [clause_of_ne_nil (by simp [h.ne_nil])]
    exact (h.after after).cons
  | none _ => exact after_nil

theorem Parameters.after {s t : Stream} {ps : List Syntax.TypedName} {isVariadic : Bool}
    (h : Parameters s ps isVariadic t) :
    After (commas (spelledParameters ps isVariadic) ++ [.operator .roundRight]) s t := by
  induction h with
  | variadic => exact after_nil.cons.cons
  | last h =>
    rw [show spelledParameters [_] false = [_] from rfl, commas, separated_singleton]
    exact h.after.snoc
  | more h hm ih =>
    rw [spelledParameters_cons, commas, separated_cons _ _ _ hm.spelled_ne_nil, List.append_assoc]
    exact h.after.trans ih.cons

theorem Signature.after {s t : Stream} {sig : Syntax.Signature} (h : Signature s sig t) :
    After sig.spelling s t := by
  cases h with
  | none h => exact (h.after annotation_after).cons.cons
  | list h h' =>
    rw [Signature.spelling, List.append_cons]
    exact (h.after.trans (h'.after annotation_after)).cons

theorem Path.after {s t : Stream} {ws : List String} {isMethod : Bool}
    (h : Path s ws isMethod t) : After (spellingOfPath isMethod ws) s t := by
  induction h with
  | field h ih =>
    rw [h.spelling_cons]
    exact ih.cons.cons
  | method => exact after_nil.cons.cons.cons
  | last _ => exact after_nil.cons

theorem TypedTarget.after {s t : Stream} {p : Syntax.TypedName} (h : TypedTarget s p t) :
    After p.spelling s t := by
  cases h with
  | intro h _ => exact (TypedName.typed h).after

theorem TypeTest.spells {anchor : TokenIndex} {e e' : Expr} {s t : Stream}
    (h : TypeTest anchor e s e' t) : ∃ extra, e'.spelling = e.spelling ++ extra ∧
      Spells s extra t := by
  cases h with
  | is h =>
    exact ⟨_, by rw [Expr.spelling], spells_of_after (annotation_after h).cons⟩
  | none _ => exact ⟨[], (List.append_nil _).symm, spells_nil _⟩

theorem TableItems.of_nil {s t : Stream} (h : TableItems s [] t) :
    ∃ n ts, s = ⟨n, .operator .curlyRight :: ts⟩ ∧ t = ⟨n + 1, ts⟩ := by
  cases h
  exact ⟨_, _, rfl, rfl⟩

/-- A separator in front of the closing brace is left out. -/
theorem spells_lastSeparator {n : TokenIndex} {u : Token} {ts : List Token} {t : Stream}
    (hu : separatorOf? u = some ()) (h : TableItems ⟨n + 1, ts⟩ [] t) :
    Spells ⟨n, u :: ts⟩ [.operator .curlyRight] t := by
  obtain ⟨m, us, heq, rfl⟩ := h.of_nil
  cases heq
  exact ⟨_, after_nil.cons.cons, .lastSeparator hu .nil⟩

/-- Any other separator becomes a comma. -/
theorem spells_separator {n : TokenIndex} {u : Token} {ts us : List Token} {t : Stream}
    (hu : separatorOf? u = some ()) (h : Spells ⟨n + 1, ts⟩ us t) :
    Spells ⟨n, u :: ts⟩ (.operator .comma :: us) t := by
  unfold separatorOf? at hu
  split at hu
  · exact h.keep
  · obtain ⟨taken, h, d⟩ := h
    exact ⟨_, h.cons, .separator d⟩
  · cases hu

theorem spells_tableCall {n : TokenIndex} {ts us : List Token} {t : Stream}
    (h : Spells ⟨n + 1, ts⟩ (us ++ [.operator .curlyRight]) t) :
    Spells ⟨n, .operator .curlyLeft :: ts⟩ (.operator .roundLeft :: .operator .curlyLeft ::
      (us ++ [.operator .curlyRight, .operator .roundRight])) t := by
  obtain ⟨taken, h, d⟩ := h
  refine ⟨_, h.cons, ?_⟩
  have := Desugars.tableCall d .nil
  rw [List.append_nil] at this
  exact this

theorem Block.accepted {closers : Closers} {returned : Bool} {s t : Stream} {body : Syntax.Block}
    {k : Keyword} (h : Block closers returned s body k t) : closers.accept k := by
  induction body generalizing returned s with
  | nil =>
    cases h with
    | close _ hk => exact hk
  | cons stmt body ih =>
    cases h with
    | cons _ h => exact ih h

theorem eq_of_accept_atEnd {k : Keyword} (h : Closers.atEnd.accept k) : k = .end_ := by
  cases k <;> first | rfl | cases h

theorem eq_of_accept_atUntil {k : Keyword} (h : Closers.atUntil.accept k) : k = .until_ := by
  cases k <;> first | rfl | cases h

theorem eq_of_accept_atBranch {k : Keyword} (h : Closers.atBranch.accept k) (hi : k ≠ .elseif_)
    (he : k ≠ .else_) : k = .end_ := by
  cases k <;> first | rfl | exact absurd rfl hi | exact absurd rfl he | cases h

mutual

theorem Expression.spells {floor : Nat} {s t : Stream} {e : Expr} :
    Expression floor s e t → Spells s e.spelling t
  | .intro h₁ h₂ h₃ => by
    obtain ⟨extra₂, e₂, g₂⟩ := h₂.spells
    obtain ⟨extra₃, e₃, g₃⟩ := h₃.spells
    rw [e₃, e₂]
    exact (h₁.spells.append g₂).append g₃

theorem Operand.spells {s t : Stream} {e : Expr} : Operand s e t → Spells s e.spelling t
  | .unary hu h => by
    rw [Expr.spelling, token_of_unary hu]
    exact h.spells.keep
  | .single hu => by
    rw [(single_again hu).1]
    exact (spells_nil _).keep
  | .table h => by
    rw [Expr.spelling]
    exact h.spells.keep
  | .routine h => by
    rw [Expr.spelling]
    exact h.spells.keep
  | .chain h => h.spells

theorem Operations.spells {floor : Nat} {anchor : TokenIndex} {left e : Expr} {s t : Stream} :
    Operations floor anchor left s e t →
    ∃ extra, e.spelling = left.spelling ++ extra ∧ Spells s extra t
  | .more hu _ h h' => by
    obtain ⟨extra, hx, g⟩ := h'.spells
    refine ⟨_, by rw [hx, Expr.spelling, List.append_assoc, List.cons_append], ?_⟩
    rw [token_of_binary hu]
    exact (h.spells.append g).keep
  | .done _ => ⟨[], (List.append_nil _).symm, spells_nil _⟩

theorem Chain.spells {s t : Stream} {e : Expr} : Chain s e t → Spells s e.spelling t
  | .name h => by
    obtain ⟨extra, hx, g⟩ := h.spells
    rw [hx, Expr.spelling]
    exact g.keep
  | .parenthesized h h' => by
    obtain ⟨extra, hx, g⟩ := h'.spells
    rw [hx, Expr.spelling]
    exact h.spells.keep.snoc.append g

theorem Suffixes.spells {anchor : TokenIndex} {e whole : Expr} {s t : Stream} :
    Suffixes anchor e s whole t →
    ∃ extra, whole.spelling = e.spelling ++ extra ∧ Spells s extra t
  | .element h h' => by
    obtain ⟨extra, hx, g⟩ := h'.spells
    refine ⟨_, by rw [hx, Expr.spelling, Index.spelling, List.append_assoc, List.append_assoc], ?_⟩
    rw [← List.append_assoc]
    exact h.spells.keep.snoc.append g
  | .field h => by
    obtain ⟨extra, hx, g⟩ := h.spells
    refine ⟨_, by rw [hx, Expr.spelling, Index.spelling, List.append_assoc], ?_⟩
    exact g.keep.keep
  | .method (w := w) (a := args) h h' => by
    obtain ⟨extra, hx, g⟩ := h'.spells
    refine ⟨.operator .colon :: .name w :: (spelledArguments args ++ extra), by
      rw [hx, Expr.spelling, Call.spelling, spelledArguments]
      simp only [List.append_assoc, List.cons_append], ?_⟩
    exact (h.spells.append g).keep.keep
  | .call (a := args) h h' => by
    obtain ⟨extra, hx, g⟩ := h'.spells
    refine ⟨spelledArguments args ++ extra, by
      rw [hx, Expr.spelling, Call.spelling, spelledArguments]
      simp only [List.append_assoc, List.cons_append], ?_⟩
    exact h.spells.append g
  | .done _ => ⟨[], (List.append_nil _).symm, spells_nil _⟩

theorem Arguments.spells {s t : Stream} {args : List Expr} :
    Arguments s args t → Spells s (spelledArguments args) t
  | .none => (spells_nil _).keep.keep
  | .list h => h.spells.snoc.keep
  | .table h => by
    simp only [spelledArguments, spellingsOfExprs, commas, separated_singleton, Expr.spelling,
      List.cons_append, List.append_assoc, List.nil_append]
    exact spells_tableCall h.spells
  | .string => by
    simp only [spelledArguments, spellingsOfExprs, commas, separated_singleton, Expr.spelling,
      Literal.spelling, List.cons_append, List.nil_append]
    exact ⟨_, after_nil.cons, .stringCall .nil⟩

theorem Expressions.spells {s t : Stream} {es : List Expr} :
    Expressions s es t → Spells s (commas (spellingsOfExprs es)) t
  | .intro h h' => by
    rw [commas_cons]
    exact h.spells.append h'.spells

theorem MoreExpressions.spells {s t : Stream} {es : List Expr} : MoreExpressions s es t →
    Spells s ((spellingsOfExprs es).flatMap (.operator .comma :: ·)) t
  | .more h => by
    rw [flatMap_separator h.ne_nil]
    exact h.spells.keep
  | .done _ => spells_nil _

theorem TableItems.spells {s t : Stream} {xs : List Syntax.TableItem} : TableItems s xs t →
    Spells s (commas (spellingsOfItems xs) ++ [.operator .curlyRight]) t
  | .none => (spells_nil _).keep
  | .more (y := xs) h hu h' => by
    by_cases hx : xs = []
    · rw [hx, spellingsOfItems, spellingsOfItems, commas, separated_singleton]
      exact h.spells.append (spells_lastSeparator hu (hx ▸ h'))
    · have hne : spellingsOfItems xs ≠ [] := by
        cases xs with
        | nil => exact absurd rfl hx
        | cons x xs => simp [spellingsOfItems]
      rw [spellingsOfItems, commas, separated_cons _ _ _ hne, List.append_assoc, List.cons_append]
      exact h.spells.append (spells_separator hu h'.spells)
  | .last h => by
    rw [spellingsOfItems, spellingsOfItems, commas, separated_singleton]
    exact h.spells.snoc

theorem TableItem.spells {s t : Stream} {x : Syntax.TableItem} :
    TableItem s x t → Spells s x.spelling t
  | .keyed h h' => by
    rw [TableItem.spelling]
    exact h.spells.keep.append h'.spells.keep.keep
  | .named h => by
    rw [TableItem.spelling]
    exact h.spells.keep.keep
  | .positional _ h => by
    rw [TableItem.spelling]
    exact h.spells

theorem RoutineBody.spells {s t : Stream} {r : Routine} :
    RoutineBody s r t → Spells s r.spelling t
  | .intro h h' => by
    have hb := h'.spells
    rw [eq_of_accept_atEnd h'.accepted] at hb
    rw [spelling_routine]
    exact (spells_of_after h.after).append hb

theorem Block.spells {closers : Closers} {returned : Bool} {s t : Stream} {body : Syntax.Block}
    {k : Keyword} : Block closers returned s body k t → Spells s (spelledBlock body k) t
  | .close h _ => Spells.ofSemicolons (h ▸ (spells_nil _).keep)
  | .cons (b := more) h h' => by
    refine Spells.ofSemicolons ?_
    by_cases hm : more = []
    · have hb := h'.spells
      rw [hm] at hb
      rw [hm, spelledBlock_singleton]
      exact h.spells.append hb
    · rw [spelledBlock_cons _ hm]
      exact h.spells.append h'.spells.addSemicolon

theorem Statement.spells {s t : Stream} {stmt : Stmt} :
    Statement s stmt t → Spells s stmt.spelling t
  | .scope h => by
    have hb := h.spells
    rw [eq_of_accept_atEnd h.accepted] at hb
    rw [spelling_scope]
    exact hb.keep
  | .whileLoop h h' => by
    have hb := h'.spells
    rw [eq_of_accept_atEnd h'.accepted] at hb
    rw [spelling_whileLoop]
    exact (h.spells.append hb.keep).keep
  | .repeatLoop h h' => by
    have hb := h.spells
    rw [eq_of_accept_atUntil h.accepted] at hb
    rw [spelling_repeatLoop]
    exact (hb.append h'.spells).keep
  | .choice h => by
    rw [spelling_choice]
    exact h.spells.keep
  | .forLoop h => by
    obtain ⟨rest, hx, g⟩ := h.spells
    rw [hx]
    exact g.keep
  | .routine h h' => by
    rw [Stmt.spelling]
    exact (spells_of_after h.after).keep.append h'.spells
  | .localRoutine h => by
    rw [Stmt.spelling]
    exact h.spells.keep.keep.keep
  | .localValues h h' => by
    rw [spelling_localValues _ _ h'.ne_nil]
    exact ((spells_of_after (h.after TypedName.after)).append h'.spells.keep).keep
  | .localNames h _ => by
    rw [spelling_localNames]
    exact (spells_of_after (h.after TypedName.after)).keep
  | .returnEnded h => by
    have := h.spells.keep (u := .keyword .return_) |>.append (spells_nil _).dropSemicolon
    rw [List.append_nil] at this
    rw [Stmt.spelling]
    exact this
  | .returnValues h _ => by
    rw [Stmt.spelling]
    exact h.spells.keep
  | .breakLoop => by
    rw [Stmt.spelling]
    exact (spells_nil _).keep
  | .goto => by
    rw [Stmt.spelling]
    exact (spells_nil _).keep.keep
  | .label => by
    rw [Stmt.spelling]
    exact (spells_nil _).keep.keep.keep
  | .assignmentOrCall h => h.spells

theorem ReturnValues.spells {s t : Stream} {es : List Expr} :
    ReturnValues s es t → Spells s (commas (spellingsOfExprs es)) t
  | .list h h' => by
    rw [commas_cons]
    exact h.spells.append h'.spells
  | .none _ => spells_nil _

theorem Branches.spells {s t : Stream} {list : List Branch} {otherwise : Option Syntax.Block} :
    Branches s list otherwise t → Spells s (spelledBranches list otherwise) t
  | .elseif h h' h'' => by
    rw [spelledBranches_cons _ _ _ h''.ne_nil]
    exact h.spells.append (h'.spells.append h''.spells).keep
  | .otherwise h h' h'' => by
    have hb := h''.spells
    rw [eq_of_accept_atEnd h''.accepted] at hb
    rw [spelledBranches_some]
    exact h.spells.append (h'.spells.append hb).keep
  | .last h h' hi he => by
    have hb := h'.spells
    rw [eq_of_accept_atBranch h'.accepted hi he] at hb
    rw [spelledBranches_none]
    exact h.spells.append hb.keep

theorem ForLoop.spells {anchor : TokenIndex} {s t : Stream} {loop : Stmt} :
    ForLoop anchor s loop t → ∃ rest, loop.spelling = .keyword .for_ :: rest ∧ Spells s rest t
  | .numeric h₁ h₂ h₃ h₄ h₅ => by
    have hb := h₅.spells
    rw [eq_of_accept_atEnd h₅.accepted] at hb
    have hc := h₁.after TypedName.after
    rw [List.map_singleton, commas, separated_singleton] at hc
    refine ⟨_, spelling_numericFor .., (spells_of_after hc).append ?_⟩
    exact (h₂.spells.append (h₃.spells.append (h₄.spells.append hb.keep)).keep).keep
  | .generic h₁ h₂ h₃ => by
    have hb := h₃.spells
    rw [eq_of_accept_atEnd h₃.accepted] at hb
    refine ⟨_, spelling_genericFor .., (spells_of_after (h₁.after TypedName.after)).append ?_⟩
    exact (h₂.spells.append hb.keep).keep

theorem StepValue.spells {s t : Stream} {step : Option Expr} :
    StepValue s step t → Spells s (spelledStep step) t
  | .step h => h.spells.keep
  | .none _ => spells_nil _

theorem AssignmentOrCall.spells {s t : Stream} {stmt : Stmt} :
    AssignmentOrCall s stmt t → Spells s stmt.spelling t
  | .typed h h' => by
    obtain ⟨extra, hx, g⟩ := h'.spells
    rw [hx, Target.spelling]
    exact (spells_of_after h.after).append g
  | .assign h htarget h' => by
    obtain ⟨extra, hx, g⟩ := h'.spells
    rw [hx, target?_spelling htarget]
    exact h.spells.append g
  | .update h hu htarget h' => by
    rw [Stmt.spelling, target?_spelling htarget, token_of_update hu]
    exact h.spells.append h'.spells.keep
  | .call h hc _ => by
    rw [Stmt.spelling, call?_spelling hc]
    exact h.spells

theorem Assignment.spells {anchor : TokenIndex} {first : Target} {s t : Stream} {stmt : Stmt} :
    Assignment anchor first s stmt t →
    ∃ extra, stmt.spelling = first.spelling ++ extra ∧ Spells s extra t
  | .intro h h' => by
    refine ⟨_, by rw [Stmt.spelling, spellingsOfTargets, commas, separated, List.append_assoc], ?_⟩
    exact h.spells.append h'.spells.keep

theorem MoreTargets.spells {s t : Stream} {targets : List Target} : MoreTargets s targets t →
    Spells s ((spellingsOfTargets targets).flatMap (.operator .comma :: ·)) t
  | .more h h' => by
    rw [spellingsOfTargets, List.flatMap_cons]
    exact h.spells.keep.append h'.spells
  | .done _ => spells_nil _

theorem OneTarget.spells {s t : Stream} {target : Target} :
    OneTarget s target t → Spells s target.spelling t
  | .typed h => by
    rw [Target.spelling]
    exact spells_of_after h.after
  | .chain h htarget => by
    rw [target?_spelling htarget]
    exact h.spells

end

theorem Given.spells {α : Type} {Item : Stream → α → Stream → Prop} {spelling : α → List Token}
    {s t : Stream} {a? : Option α} (h : Given Item s a? t)
    (spells : ∀ {s t a}, Item s a t → Spells s (spelling a) t) :
    Spells s (clause (.operator .equal) (a?.toList.map spelling)) t := by
  cases h with
  | item h =>
    simp only [Option.toList, List.map_cons, List.map_nil, clause, commas, separated_singleton]
    exact (spells h).keep
  | none _ => exact spells_nil _

theorem Members.spells {α : Type} {Item : Stream → α → Stream → Prop} {spelling : α → List Token}
    {s t : Stream} {as : List α} (h : Members Item s as t)
    (spells : ∀ {s t a}, Item s a t → Spells s (spelling a) t) :
    Spells s (as.flatMap spelling ++ [.keyword .end_]) t := by
  induction h with
  | none => exact (spells_nil _).keep
  | more h _ ih =>
    rw [List.flatMap_cons, List.append_assoc]
    exact (spells h).append ih

theorem ClassMember.spells {s t : Stream} {m : Syntax.ClassMember} (h : ClassMember s m t) :
    Spells s m.spelling t := by
  cases h with
  | override h => exact h.spells.keep.keep.keep
  | method h => exact h.spells.keep.keep
  | property h h' =>
    exact (spells_of_after (annotation_after h)).keep.keep.append (h'.spells Expression.spells)

theorem ProtocolMember.spells {s t : Stream} {m : Syntax.ProtocolMember}
    (h : ProtocolMember s m t) : Spells s m.spelling t := by
  cases h with
  | method h => exact (spells_of_after h.after).keep.keep
  | property h => exact (spells_of_after (annotation_after h)).keep.keep

theorem AssociatedType.spells {s t : Stream} {a : Syntax.AssociatedType}
    (h : AssociatedType s a t) : Spells s a.spelling t := by
  cases h with
  | labelled h => exact (spells_of_after (annotation_after h)).keep.keep
  | plain _ h => exact spells_of_after (annotation_after h)

theorem AssociatedTypes.spells {s t : Stream} {as : List Syntax.AssociatedType}
    (h : AssociatedTypes s as t) :
    Spells s (commas (as.map AssociatedType.spelling) ++ [.operator .roundRight]) t := by
  induction h with
  | last h =>
    rw [List.map_singleton, commas, separated_singleton]
    exact h.spells.snoc
  | more h hm ih =>
    rw [List.map_cons, commas, separated_cons _ _ _ (by simp [hm.ne_nil]), List.append_assoc]
    exact h.spells.append ih.keep

theorem Payload.spells {s t : Stream} {as : List Syntax.AssociatedType} (h : Payload s as t) :
    Spells s (spelledPayload as) t := by
  cases h with
  | empty => exact ⟨_, after_nil.cons.cons, .payload .nil⟩
  | list h =>
    rw [spelledPayload_of_ne_nil h.ne_nil]
    exact h.spells.keep
  | none _ => exact spells_nil _

theorem Literal.spells {s t : Stream} {l : Syntax.Literal} (h : Literal s l t) :
    Spells s l.spelling t := by
  cases h with
  | negative => exact ⟨_, after_nil.cons.cons, .negative .nil⟩
  | _ => exact (spells_nil _).keep

theorem EnumCase.spells {s t : Stream} {c : Syntax.EnumCase} (h : EnumCase s c t) :
    Spells s c.spelling t := by
  cases h with
  | intro h h' =>
    rw [spelling_enumCase]
    exact (h.spells.append (h'.spells Literal.spells)).keep

theorem EnumCases.spells {s t : Stream} {cs : List Syntax.EnumCase} (h : EnumCases s cs t) :
    Spells s (commas (cs.map EnumCase.spelling) ++ [.keyword .end_]) t := by
  induction h with
  | none => exact (spells_nil _).keep
  | @more _ _ _ _ cs _ h hm ih =>
    cases cs with
    | nil =>
      rw [List.map_singleton, commas, separated_singleton]
      refine h.spells.append ?_
      cases hm
      exact ⟨_, after_nil.cons.cons, .lastCase .nil⟩
    | cons c cs =>
      rw [List.map_cons, commas, separated_cons _ _ _ (by simp), List.append_assoc]
      exact h.spells.append ih.keep
  | last h =>
    rw [List.map_singleton, commas, separated_singleton]
    exact h.spells.snoc

theorem spells_declaration {k : Keyword} {w : String} {cs : List Syntax.Conformance}
    {parts ts : List Token} {n : TokenIndex} {s t : Stream}
    (h : Clause Conformance ⟨n + 1 + 1, ts⟩ cs s) (h' : Spells s (parts ++ [.keyword .end_]) t) :
    Spells ⟨n, .keyword k :: .name w :: ts⟩ (declarationSpelling k w cs parts) t := by
  have hc : After (clause (.operator .colon) (cs.map Conformance.spelling)) _ _ :=
    h.after fun h => by
      cases h
      exact after_nil.cons
  rw [declarationSpelling, List.append_assoc]
  exact (spells_of_after hc).keep.keep.append h'

theorem Declaration.spells {s t : Stream} {item : Item} (h : Declaration s item t) :
    Spells s item.spelling t := by
  cases h with
  | ofClass h h' => exact spells_declaration h (h'.spells ClassMember.spells)
  | ofProtocol h h' => exact spells_declaration h (h'.spells ProtocolMember.spells)
  | ofEnum h h' => exact spells_declaration h h'.spells
  | typeAlias h => exact (spells_of_after (annotation_after h)).keep.keep.keep

theorem Items.spells {returned : Bool} {s : Stream} {c : Chunk} (h : Items returned s c) :
    ∃ t, Spells s (spellingOfChunk c) t ∧ t.left = [] := by
  induction h with
  | done h => exact ⟨_, Spells.ofSemicolons (spells_nil _), h⟩
  | @declaration _ item _ more h _ ih =>
    obtain ⟨t, ht, hn⟩ := ih
    have hgap : more.head?.elim [] (gap item) = [] := by
      cases h <;> cases more <;> rfl
    rw [spellingOfChunk_cons, hgap]
    exact ⟨t, h.spells.append ht, hn⟩
  | @statement _ stmt _ more h _ ih =>
    obtain ⟨t, ht, hn⟩ := ih
    rw [spellingOfChunk_cons]
    refine ⟨t, Spells.ofSemicolons (h.spells.append ?_), hn⟩
    obtain _ | ⟨_ | _ | _, rest⟩ := more
    · exact ht
    · exact ht
    · exact ht
    · exact ht.addSemicolon

end Reading

/-- A chunk that is read takes every token: what its spelling lacks is sugar. -/
theorem chunk_desugars {ts : List Token} {c : Chunk} (h : chunk ts = .ok c) :
    Desugars ts (spellingOfChunk c) := by
  obtain ⟨t, ⟨taken, ha, hd⟩, hn⟩ := (reads_items h).spells
  have hts : ts = taken ++ t.left := ha.1
  rw [hts, hn, List.append_nil]
  exact hd

/-- Reading and spelling are inverse: a chunk that is read takes every token of its source, of which
its spelling lacks the sugar only, and the spelling is read as the same chunk once the anchors are
erased. -/
theorem chunk_roundTrip {ts : List Token} {c : Chunk} (h : chunk ts = .ok c) :
    Desugars ts (spellingOfChunk c) ∧
      ∃ c', chunk (spellingOfChunk c) = .ok c' ∧ eraseChunk c' = eraseChunk c :=
  ⟨chunk_desugars h, chunk_spelling h⟩

/-- `f"a";` reads as a call with one argument. -/
theorem chunk_stringCall : chunk [.name "f", .string "a", .operator .semicolon] =
    .ok [.statement (.call 0 (.plain 0 (.name 0 "f") [.literal (.string 1 "a")]))] := by
  have h : Reading.Statement ⟨0, [.name "f", .string "a", .operator .semicolon]⟩
      (.call 0 (.plain 0 (.name 0 "f") [.literal (.string 1 "a")]))
      ⟨2, [.operator .semicolon]⟩ :=
    .assignmentOrCall (.call (.name (.call .string (.done (stops_cons.2 (by decide))))) rfl
      (stops_cons.2 (by decide)))
  refine accepts_items (.statement (h.semicolons_eq.symm ▸ h) (.done ?_))
  rw [semicolons_cons, semicolons_of_stops stops_nil]

theorem chunk_roundTrip_stringCall :
    chunk [.name "f", .string "a", .operator .semicolon] =
        .ok [.statement (.call 0 (.plain 0 (.name 0 "f") [.literal (.string 1 "a")]))] ∧
      spellingOfChunk [.statement (.call 0 (.plain 0 (.name 0 "f") [.literal (.string 1 "a")]))] =
        [.name "f", .operator .roundLeft, .string "a", .operator .roundRight] ∧
      ∃ c', chunk [.name "f", .operator .roundLeft, .string "a", .operator .roundRight] = .ok c' ∧
        eraseChunk c' =
          eraseChunk [.statement (.call 0 (.plain 0 (.name 0 "f") [.literal (.string 1 "a")]))] := by
  have hs : spellingOfChunk
      [.statement (.call 0 (.plain 0 (.name 0 "f") [.literal (.string 1 "a")]))] =
      [.name "f", .operator .roundLeft, .string "a", .operator .roundRight] := by
    simp [spellingOfChunk, Item.spelling, Stmt.spelling, Call.spelling, Expr.spelling,
      spellingsOfExprs, Literal.spelling, commas, separated]
  have h := (chunk_roundTrip chunk_stringCall).2
  rw [hs] at h
  exact ⟨chunk_stringCall, hs, h⟩

end ScriptFront.Phrase
