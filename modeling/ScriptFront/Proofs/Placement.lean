import ScriptFront.Proofs.ChunkReading
import ScriptFront.Proofs.Occurrence
/-! Where the annotations of what is read lie: each at its own token, in the order in which the walk
lists them. -/
namespace ScriptFront.Phrase
open Syntax Program Phrase.Stream

/-- The types begin at tokens from `m` up to `n`, each further on than those before it. -/
structure Lies (m : TokenIndex) (types : List TypeExpr) (n : TokenIndex) : Prop where
  le : m ≤ n
  ordered : types.Pairwise fun t u => t.anchor < u.anchor
  within : ∀ t ∈ types, m ≤ t.anchor ∧ t.anchor < n

section
variable {l m n : TokenIndex} {ts us : List TypeExpr}

theorem lies_nil (h : m ≤ n) : Lies m [] n := ⟨h, .nil, by simp⟩

theorem Lies.append (h : Lies l ts m) (h' : Lies m us n) : Lies l (ts ++ us) n where
  le := Nat.le_trans h.le h'.le
  ordered := by
    rw [List.pairwise_append]
    refine ⟨h.ordered, h'.ordered, fun t ht u hu => ?_⟩
    exact Nat.lt_of_lt_of_le (h.within t ht).2 (h'.within u hu).1
  within := by
    intro t ht
    rcases List.mem_append.1 ht with ht | ht
    · exact ⟨(h.within t ht).1, Nat.lt_of_lt_of_le (h.within t ht).2 h'.le⟩
    · exact ⟨Nat.le_trans h.le (h'.within t ht).1, (h'.within t ht).2⟩

theorem Lies.after (h : Lies m ts n) (hl : l ≤ m) : Lies l ts n := (lies_nil hl).append h

theorem Lies.before (h : Lies l ts m) (hn : m ≤ n) : Lies l ts n := by
  have := h.append (lies_nil hn)
  rwa [List.append_nil] at this

theorem Lies.skip (h : Lies (m + 1) ts n) : Lies m ts n := h.after (Nat.le_succ m)

theorem Lies.past (h : Lies l ts m) : Lies l ts (m + 1) := h.before (Nat.le_succ m)

end

theorem Stream.IsRest.next_le {s t : Stream} : t.IsRest s → s.next ≤ t.next
  | ⟨_, _, h⟩ => h ▸ Nat.le_add_right ..

theorem Stream.Follows.next_lt {s t : Stream} : t.Follows s → s.next < t.next
  | ⟨_, _, _, h⟩ => by
    rw [h, List.length_cons]
    exact Nat.lt_add_of_pos_right (Nat.succ_pos _)

theorem semicolons_next_le (s : Stream) : s.next ≤ (semicolons s).rest.next :=
  (semicolons s).rest_isRest.next_le

namespace Reading

theorem Annotation.lies {s t : Stream} {type : TypeExpr} (h : Annotation s type t) :
    Lies s.next [type] t.next := by
  obtain ⟨-, hp, -⟩ := typeExpr_yields_iff.1 h
  obtain ⟨hf, -⟩ := h
  have ha : type.anchor = s.next := by rw [← hp, anchor_place]
  exact ⟨Nat.le_of_lt hf.next_lt, List.pairwise_singleton .., by simp [ha, hf.next_lt]⟩

theorem TypedName.lies {s t : Stream} {p : Syntax.TypedName} (h : TypedName s p t) :
    Lies s.next (annotationsOfNames [p]) t.next := by
  cases h with
  | typed h => exact h.lies.skip.skip
  | plain _ => exact lies_nil (Nat.le_succ _)

theorem Listed.lies {α : Type} {Item : Stream → α → Stream → Prop} {w : List α → List TypeExpr}
    {s t : Stream} {as : List α} (h : Listed Item s as t)
    (lies : ∀ {s t a}, Item s a t → Lies s.next (w [a]) t.next)
    (hw : ∀ a as, w (a :: as) = w [a] ++ w as) : Lies s.next (w as) t.next := by
  induction h with
  | last h _ => exact lies h
  | more h _ ih =>
    rw [hw]
    exact (lies h).past.append ih

theorem Clause.lies {s t : Stream} {types : List TypeExpr} (h : Clause Annotation s types t) :
    Lies s.next types t.next := by
  cases h with
  | list h => exact (h.lies (w := id) Annotation.lies fun _ _ => rfl).skip
  | none _ => exact lies_nil (Nat.le_refl _)

theorem Parameters.lies {s t : Stream} {ps : List Syntax.TypedName} {isVariadic : Bool}
    (h : Parameters s ps isVariadic t) : Lies s.next (annotationsOfNames ps) t.next := by
  induction h with
  | variadic => exact lies_nil (Nat.le_add_right _ 2)
  | last h => exact h.lies.past
  | more h _ ih =>
    rw [Part.annotationsOfNames_cons]
    exact h.lies.past.append ih

theorem Signature.lies {s t : Stream} {sig : Syntax.Signature} (h : Signature s sig t) :
    Lies s.next (annotationsOfSignature sig) t.next := by
  cases h with
  | none h => exact h.lies.skip.skip
  | list h h' => exact (h.lies.append h'.lies).skip

theorem Path.next_le {s t : Stream} {ws : List String} {isMethod : Bool}
    (h : Path s ws isMethod t) : s.next ≤ t.next := by
  induction h with
  | field _ ih => exact Nat.le_trans (Nat.le_add_right _ 2) ih
  | method => exact Nat.le_add_right _ 3
  | last _ => exact Nat.le_succ _

theorem TypedTarget.lies {s t : Stream} {p : Syntax.TypedName} (h : TypedTarget s p t) :
    Lies s.next (annotationsOfNames [p]) t.next := by
  cases h with
  | intro h _ => exact (TypedName.typed h).lies

theorem TypeTest.lies {anchor : TokenIndex} {e e' : Expr} {s t : Stream}
    (h : TypeTest anchor e s e' t) : ∃ extra,
      annotationsOfExpr e' = annotationsOfExpr e ++ extra ∧ Lies s.next extra t.next := by
  cases h with
  | is h => exact ⟨_, by rw [annotationsOfExpr], h.lies.skip⟩
  | none _ => exact ⟨[], (List.append_nil _).symm, lies_nil (Nat.le_refl _)⟩

theorem annotationsOf_single {n : TokenIndex} {u : Token} {e : Expr}
    (h : singleToken? n u = some e) : annotationsOfExpr e = [] := by
  unfold singleToken? at h
  split at h <;> cases h <;> rw [annotationsOfExpr]

theorem annotationsOf_target {e : Expr} {target : Target} (h : e.target? = some target) :
    annotationsOfTarget target = annotationsOfExpr e := by
  cases e <;> cases h <;> simp [annotationsOfTarget, annotationsOfExpr, annotationsOfNames]

theorem annotationsOf_call {e : Expr} {c : Call} (h : e.call? = some c) :
    annotationsOfCall c = annotationsOfExpr e := by
  cases e <;> cases h
  rw [annotationsOfExpr]

mutual

theorem Expression.lies {floor : Nat} {s t : Stream} {e : Expr} :
    Expression floor s e t → Lies s.next (annotationsOfExpr e) t.next
  | .intro h₁ h₂ h₃ => by
    obtain ⟨extra₂, e₂, g₂⟩ := h₂.lies
    obtain ⟨extra₃, e₃, g₃⟩ := h₃.lies
    rw [e₃, e₂]
    exact (h₁.lies.append g₂).append g₃

theorem Operand.lies {s t : Stream} {e : Expr} :
    Operand s e t → Lies s.next (annotationsOfExpr e) t.next
  | .unary _ h => by
    rw [annotationsOfExpr]
    exact h.lies.skip
  | .single hu => by
    rw [annotationsOf_single hu]
    exact lies_nil (Nat.le_succ _)
  | .table h => by
    rw [annotationsOfExpr]
    exact h.lies.skip
  | .routine h => by
    rw [annotationsOfExpr]
    exact h.lies.skip
  | .chain h => h.lies

theorem Operations.lies {floor : Nat} {anchor : TokenIndex} {left e : Expr} {s t : Stream} :
    Operations floor anchor left s e t →
    ∃ extra, annotationsOfExpr e = annotationsOfExpr left ++ extra ∧ Lies s.next extra t.next
  | .more _ _ h h' => by
    obtain ⟨extra, hx, g⟩ := h'.lies
    refine ⟨_, by rw [hx, annotationsOfExpr, List.append_assoc], ?_⟩
    exact (h.lies.append g).skip
  | .done _ => ⟨[], (List.append_nil _).symm, lies_nil (Nat.le_refl _)⟩

theorem Chain.lies {s t : Stream} {e : Expr} :
    Chain s e t → Lies s.next (annotationsOfExpr e) t.next
  | .name h => by
    obtain ⟨extra, hx, g⟩ := h.lies
    rw [hx, annotationsOfExpr]
    exact g.skip
  | .parenthesized h h' => by
    obtain ⟨extra, hx, g⟩ := h'.lies
    rw [hx, annotationsOfExpr]
    exact h.lies.past.skip.append g

theorem Suffixes.lies {anchor : TokenIndex} {e whole : Expr} {s t : Stream} :
    Suffixes anchor e s whole t →
    ∃ extra, annotationsOfExpr whole = annotationsOfExpr e ++ extra ∧ Lies s.next extra t.next
  | .element h h' => by
    obtain ⟨extra, hx, g⟩ := h'.lies
    refine ⟨_, by rw [hx, annotationsOfExpr, annotationsOfIndex, List.append_assoc], ?_⟩
    exact h.lies.past.skip.append g
  | .field h => by
    obtain ⟨extra, hx, g⟩ := h.lies
    exact ⟨_, by rw [hx, annotationsOfExpr, annotationsOfIndex], g.skip.skip⟩
  | .method h h' => by
    obtain ⟨extra, hx, g⟩ := h'.lies
    refine ⟨_, by rw [hx, annotationsOfExpr, annotationsOfCall, List.append_assoc], ?_⟩
    exact (h.lies.append g).skip.skip
  | .call h h' => by
    obtain ⟨extra, hx, g⟩ := h'.lies
    refine ⟨_, by rw [hx, annotationsOfExpr, annotationsOfCall, List.append_assoc], ?_⟩
    exact h.lies.append g
  | .done _ => ⟨[], (List.append_nil _).symm, lies_nil (Nat.le_refl _)⟩

theorem Arguments.lies {s t : Stream} {args : List Expr} :
    Arguments s args t → Lies s.next (annotationsOfExprs args) t.next
  | .none => lies_nil (Nat.le_add_right _ 2)
  | .list h => h.lies.past.skip
  | .table h => by
    simp only [annotationsOfExprs, annotationsOfExpr, List.append_nil]
    exact h.lies.skip
  | .string => lies_nil (Nat.le_succ _)

theorem Expressions.lies {s t : Stream} {es : List Expr} :
    Expressions s es t → Lies s.next (annotationsOfExprs es) t.next
  | .intro h h' => by
    rw [annotationsOfExprs]
    exact h.lies.append h'.lies

theorem MoreExpressions.lies {s t : Stream} {es : List Expr} :
    MoreExpressions s es t → Lies s.next (annotationsOfExprs es) t.next
  | .more h => h.lies.skip
  | .done _ => lies_nil (Nat.le_refl _)

theorem TableItems.lies {s t : Stream} {xs : List Syntax.TableItem} :
    TableItems s xs t → Lies s.next (annotationsOfItems xs) t.next
  | .none => lies_nil (Nat.le_succ _)
  | .more h _ h' => by
    rw [annotationsOfItems]
    exact h.lies.append h'.lies.skip
  | .last h => by
    rw [annotationsOfItems, annotationsOfItems, List.append_nil]
    exact h.lies.past

theorem TableItem.lies {s t : Stream} {x : Syntax.TableItem} :
    TableItem s x t → Lies s.next (annotationsOfItem x) t.next
  | .keyed h h' => by
    rw [annotationsOfItem]
    exact h.lies.skip.append h'.lies.skip.skip
  | .named h => by
    rw [annotationsOfItem]
    exact h.lies.skip.skip
  | .positional _ h => by
    rw [annotationsOfItem]
    exact h.lies

theorem RoutineBody.lies {s t : Stream} {r : Routine} :
    RoutineBody s r t → Lies s.next (annotationsOfRoutine r) t.next
  | .intro h h' => by
    rw [annotationsOfRoutine]
    exact (Signature.lies h).append h'.lies

theorem Block.lies {closers : Closers} {returned : Bool} {s t : Stream} {body : Syntax.Block}
    {k : Keyword} : Block closers returned s body k t → Lies s.next (annotationsOfBlock body) t.next
  | .close (s := s) h _ => by
    have := semicolons_next_le s
    rw [h] at this
    exact lies_nil (Nat.le_succ_of_le this)
  | .cons h h' => by
    rw [annotationsOfBlock]
    exact (h.lies.append h'.lies).after (semicolons_next_le _)

theorem Statement.lies {s t : Stream} {stmt : Stmt} :
    Statement s stmt t → Lies s.next (annotationsOfStmt stmt) t.next
  | .scope h => by
    rw [annotationsOfStmt]
    exact h.lies.skip
  | .whileLoop h h' => by
    rw [annotationsOfStmt]
    exact (h.lies.append h'.lies.skip).skip
  | .repeatLoop h h' => by
    rw [annotationsOfStmt]
    exact (h.lies.append h'.lies).skip
  | .choice h => by
    rw [Part.annotationsOf_choice]
    exact h.lies.skip
  | .forLoop h => h.lies.skip
  | .routine h h' => by
    rw [annotationsOfStmt]
    exact (h'.lies.after h.next_le).skip
  | .localRoutine h => by
    rw [annotationsOfStmt]
    exact h.lies.skip.skip.skip
  | .localValues h h' => by
    rw [annotationsOfStmt]
    exact ((h.lies TypedName.lies Part.annotationsOfNames_cons).append h'.lies.skip).skip
  | .localNames h _ => by
    rw [annotationsOfStmt, annotationsOfExprs, List.append_nil]
    exact (h.lies TypedName.lies Part.annotationsOfNames_cons).skip
  | .returnEnded h => by
    rw [annotationsOfStmt]
    exact h.lies.past.skip
  | .returnValues h _ => by
    rw [annotationsOfStmt]
    exact h.lies.skip
  | .breakLoop => by
    rw [annotationsOfStmt]
    exact lies_nil (Nat.le_succ _)
  | .goto => by
    rw [annotationsOfStmt]
    exact lies_nil (Nat.le_add_right _ 2)
  | .label => by
    rw [annotationsOfStmt]
    exact lies_nil (Nat.le_add_right _ 3)
  | .assignmentOrCall h => h.lies

theorem ReturnValues.lies {s t : Stream} {es : List Expr} :
    ReturnValues s es t → Lies s.next (annotationsOfExprs es) t.next
  | .list h h' => by
    rw [annotationsOfExprs]
    exact h.lies.append h'.lies
  | .none _ => lies_nil (Nat.le_refl _)

theorem Branches.lies {s t : Stream} {list : List Branch} {otherwise : Option Syntax.Block} :
    Branches s list otherwise t →
    Lies s.next (annotationsOfBranches list ++ annotationsOfBlock (otherwise.getD [])) t.next
  | .elseif h h' h'' => by
    rw [annotationsOfBranches, annotationsOfBranch, List.append_assoc]
    exact (h.lies.append h'.lies.skip).append h''.lies
  | .otherwise h h' h'' => by
    rw [annotationsOfBranches, annotationsOfBranch, annotationsOfBranches, List.append_nil]
    exact (h.lies.append h'.lies.skip).append h''.lies
  | .last h h' _ _ => by
    rw [annotationsOfBranches, annotationsOfBranch, annotationsOfBranches, List.append_nil]
    exact (h.lies.append h'.lies.skip).append (lies_nil (Nat.le_refl _))

theorem ForLoop.lies {anchor : TokenIndex} {s t : Stream} {loop : Stmt} :
    ForLoop anchor s loop t → Lies s.next (annotationsOfStmt loop) t.next
  | .numeric h₁ h₂ h₃ h₄ h₅ => by
    have hn := h₁.lies TypedName.lies Part.annotationsOfNames_cons
    rw [Part.annotationsOf_numericFor]
    exact (((hn.append h₂.lies.skip).append h₃.lies.skip).append h₄.lies).append h₅.lies.skip
  | .generic h₁ h₂ h₃ => by
    have hn := h₁.lies TypedName.lies Part.annotationsOfNames_cons
    rw [annotationsOfStmt]
    exact (hn.append h₂.lies.skip).append h₃.lies.skip

theorem StepValue.lies {s t : Stream} {step : Option Expr} : StepValue s step t →
    Lies s.next (annotationsOfExprs step.toList) t.next
  | .step h => by
    rw [Option.toList, annotationsOfExprs, annotationsOfExprs, List.append_nil]
    exact h.lies.skip
  | .none _ => lies_nil (Nat.le_refl _)

theorem AssignmentOrCall.lies {s t : Stream} {stmt : Stmt} :
    AssignmentOrCall s stmt t → Lies s.next (annotationsOfStmt stmt) t.next
  | .typed h h' => by
    obtain ⟨extra, hx, g⟩ := h'.lies
    rw [hx, annotationsOfTarget]
    exact h.lies.append g
  | .assign h htarget h' => by
    obtain ⟨extra, hx, g⟩ := h'.lies
    rw [hx, annotationsOf_target htarget]
    exact h.lies.append g
  | .update h _ htarget h' => by
    rw [annotationsOfStmt, annotationsOf_target htarget]
    exact h.lies.append h'.lies.skip
  | .call h hc _ => by
    rw [annotationsOfStmt, annotationsOf_call hc]
    exact h.lies

theorem Assignment.lies {anchor : TokenIndex} {first : Target} {s t : Stream} {stmt : Stmt} :
    Assignment anchor first s stmt t →
    ∃ extra, annotationsOfStmt stmt = annotationsOfTarget first ++ extra ∧ Lies s.next extra t.next
  | .intro h h' => by
    refine ⟨_, by rw [annotationsOfStmt, annotationsOfTargets, List.append_assoc], ?_⟩
    exact h.lies.append h'.lies.skip

theorem MoreTargets.lies {s t : Stream} {targets : List Target} :
    MoreTargets s targets t → Lies s.next (annotationsOfTargets targets) t.next
  | .more h h' => by
    rw [annotationsOfTargets]
    exact (h.lies.append h'.lies).skip
  | .done _ => lies_nil (Nat.le_refl _)

theorem OneTarget.lies {s t : Stream} {target : Target} :
    OneTarget s target t → Lies s.next (annotationsOfTarget target) t.next
  | .typed h => by
    rw [annotationsOfTarget]
    exact h.lies
  | .chain h htarget => by
    rw [annotationsOf_target htarget]
    exact h.lies

end

theorem Clause.next_le {s t : Stream} {cs : List Syntax.Conformance}
    (h : Clause Conformance s cs t) : s.next ≤ t.next := by
  cases h with
  | list h =>
    refine Nat.le_of_succ_le (h.lies (w := fun _ => []) (fun h => ?_) fun _ _ => rfl).le
    cases h
    exact lies_nil (Nat.le_succ _)
  | none _ => exact Nat.le_refl _

theorem Literal.next_le {s t : Stream} {l : Syntax.Literal} (h : Literal s l t) :
    s.next ≤ t.next := by
  cases h with
  | negative => exact Nat.le_add_right _ 2
  | _ => exact Nat.le_succ _

theorem Given.lies {α : Type} {Item : Stream → α → Stream → Prop} {w : List α → List TypeExpr}
    {s t : Stream} {a? : Option α} (h : Given Item s a? t)
    (lies : ∀ {s t a}, Item s a t → Lies s.next (w [a]) t.next) (hn : w [] = []) :
    Lies s.next (w a?.toList) t.next := by
  cases h with
  | item h => exact (lies h).skip
  | none _ => exact hn ▸ lies_nil (Nat.le_refl _)

theorem Expression.lies_singleton {floor : Nat} {s t : Stream} {e : Expr}
    (h : Expression floor s e t) : Lies s.next (annotationsOfExprs [e]) t.next := by
  rw [annotationsOfExprs, annotationsOfExprs, List.append_nil]
  exact h.lies

theorem Members.lies {α : Type} {Item : Stream → α → Stream → Prop} {w : α → List TypeExpr}
    {s t : Stream} {as : List α} (h : Members Item s as t)
    (lies : ∀ {s t a}, Item s a t → Lies s.next (w a) t.next) :
    Lies s.next (as.flatMap w) t.next := by
  induction h with
  | none => exact lies_nil (Nat.le_succ _)
  | more h _ ih => exact (lies h).append ih

theorem ClassMember.lies {s t : Stream} {m : Syntax.ClassMember} (h : ClassMember s m t) :
    Lies s.next (annotationsOfClassMember m) t.next := by
  cases h with
  | override h => exact h.lies.skip.skip.skip
  | method h => exact h.lies.skip.skip
  | property h h' =>
    exact (h.lies.append (h'.lies Expression.lies_singleton rfl)).skip.skip

theorem ProtocolMember.lies {s t : Stream} {m : Syntax.ProtocolMember}
    (h : ProtocolMember s m t) : Lies s.next (annotationsOfProtocolMember m) t.next := by
  cases h with
  | method h => exact (Signature.lies h).skip.skip
  | property h => exact h.lies.skip.skip

theorem AssociatedType.lies {s t : Stream} {a : Syntax.AssociatedType}
    (h : AssociatedType s a t) : Lies s.next [a.type] t.next := by
  cases h with
  | labelled h => exact h.lies.skip.skip
  | plain _ h => exact h.lies

theorem AssociatedTypes.lies {s t : Stream} {as : List Syntax.AssociatedType}
    (h : AssociatedTypes s as t) : Lies s.next (as.map (·.type)) t.next := by
  induction h with
  | last h => exact h.lies.past
  | more h _ ih => exact h.lies.append ih.skip

theorem Payload.lies {s t : Stream} {as : List Syntax.AssociatedType} (h : Payload s as t) :
    Lies s.next (as.map (·.type)) t.next := by
  cases h with
  | empty => exact lies_nil (Nat.le_add_right _ 2)
  | list h => exact h.lies.skip
  | none _ => exact lies_nil (Nat.le_refl _)

theorem EnumCase.lies {s t : Stream} {c : Syntax.EnumCase} (h : EnumCase s c t) :
    Lies s.next (c.associated.map (·.type)) t.next := by
  cases h with
  | intro h h' =>
    have hr := (h'.lies (w := fun _ => []) (fun h => lies_nil h.next_le) rfl).le
    exact (h.lies.before hr).skip

theorem EnumCases.lies {s t : Stream} {cs : List Syntax.EnumCase} (h : EnumCases s cs t) :
    Lies s.next (cs.flatMap fun c => c.associated.map (·.type)) t.next := by
  induction h with
  | none => exact lies_nil (Nat.le_succ _)
  | more h _ ih => exact h.lies.append ih.skip
  | last h =>
    rw [List.flatMap_singleton]
    exact h.lies.past

theorem Declaration.lies {s t : Stream} {item : Item} (h : Declaration s item t) :
    Lies s.next (annotationsOfTopItem item) t.next := by
  cases h with
  | ofClass h h' => exact ((h'.lies ClassMember.lies).after h.next_le).skip.skip
  | ofProtocol h h' => exact ((h'.lies ProtocolMember.lies).after h.next_le).skip.skip
  | ofEnum h h' => exact (h'.lies.after h.next_le).skip.skip
  | typeAlias h => exact h.lies.skip.skip.skip

theorem Items.lies {returned : Bool} {s : Stream} {c : Chunk} (h : Items returned s c) :
    ∃ n, Lies s.next (annotationsOfChunk c) n := by
  induction h with
  | done _ => exact ⟨_, lies_nil (Nat.le_refl _)⟩
  | declaration h _ ih =>
    obtain ⟨n, hn⟩ := ih
    exact ⟨n, h.lies.append hn⟩
  | statement h _ ih =>
    obtain ⟨n, hn⟩ := ih
    exact ⟨n, (h.lies.append hn).after (semicolons_next_le _)⟩

end Reading

/-- No two annotations of a chunk that is read begin at one token. -/
theorem chunk_annotations_ordered {ts : List Token} {c : Chunk} (h : chunk ts = .ok c) :
    (annotationsOfChunk c).Pairwise fun t u => t.anchor < u.anchor := by
  obtain ⟨n, hn⟩ := (reads_items h).lies
  exact hn.ordered

end ScriptFront.Phrase
