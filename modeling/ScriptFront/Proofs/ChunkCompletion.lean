import ScriptFront.Proofs.BodyCompletion
/-! Declarations can be completed where the input ends, and so can a whole chunk: its items are read
again and the last one is finished. So the error that the input has ended says that more input can
still make a chunk of it. -/
namespace ScriptFront.Phrase
open Syntax Phrase.Stream Reading

theorem short_expression_anywhere {floor : Nat} {s : Stream} :
    Short (Completable Never (joinsExpression ·) (Read (Expression floor)) s)
      (expression floor s) := (shortBelow _).expression (Nat.lt_succ_self _)

theorem short_routine_anywhere {s : Stream} :
    Short (Completable (· = .operator .roundLeft) Never (Read RoutineBody) s) (routine s) :=
  (shortBelow _).routine (Nat.lt_succ_self _)

section
variable {s : Stream}

theorem short_conformanceList {s : Stream} :
    Short (Completable IsName (joinsNames ·) (Read (Listed Conformance)) s)
      (conformanceList s) := by
  induction s using Stream.follows_induction with | step s ih => ?_
  rw [conformanceList]
  refine Short.afterName ?_ ?_
  · rintro n rfl
    refine .tokens [.name "x"] (resumes_token ⟨_, rfl⟩) fun rest hrest => ?_
    exact ⟨_, _, .last .intro (hrest.mono (by rintro _ rfl; rfl))⟩
  rintro n w ts h₁ rfl
  dsimp only
  split
  · next s₂ h₂ ho =>
    obtain ⟨_, us, he, rfl⟩ := operator?_some ho
    cases he
    refine .bind ((ih _ (h₂.trans h₁)).mono fun h => ?_) fun _ _ => .ok
    exact h.listed_more (List.cons_ne_nil _ _) fun us => ⟨_, .intro⟩
  · exact .ok

theorem short_conformances :
    Short (Completable Never (joinsNames ·) (Read (Clause Conformance)) s) (conformances s) := by
  rw [conformances]
  split
  · next s₁ h₁ ho =>
    obtain ⟨n, ts, rfl, rfl⟩ := operator?_some ho
    refine .bind (short_conformanceList.mono fun h => ?_) fun _ _ => .ok
    exact h.ends (List.cons_ne_nil _ _) (fun _ h => h) fun _ h => ⟨_, .list h⟩
  · exact .ok

theorem short_initialValue :
    Short (Completable Never (joinsExpression ·) (Read (Given (Expression 0))) s)
      (initialValue s) := by
  rw [initialValue]
  split
  · next s₁ h₁ ho =>
    obtain ⟨n, ts, rfl, rfl⟩ := operator?_some ho
    refine .bind (short_expression_anywhere.mono fun h => ?_) fun _ _ => .ok
    exact h.ends (List.cons_ne_nil _ _) (fun _ h => h) fun _ h => ⟨_, .item h⟩
  · exact .ok

theorem short_classMember :
    Short (Completable IsName (fun u => joinsExpression u ∨ u = .operator .equal)
      (Read ClassMember) s) (classMember s) := by
  have joins_type (u : Token) (h : joinsType u) : joinsExpression u ∨ u = .operator .equal :=
    .inl (joinsExpression_of_joinsType h)
  rw [classMember]
  split
  · next s₁ h₁ ht =>
    obtain ⟨n, ts, rfl, rfl⟩ := token?_some ht
    refine Short.afterName ?_ ?_
    · rintro _ ⟨⟩
      refine .tokens [.name "x", .operator .equal, .keyword .nil_] resumes_cons
        fun rest hrest => ?_
      exact ⟨_, _, .override (.nil (hrest.mono fun _ => .inl))⟩
    rintro _ w us h₂ ⟨⟩
    refine Short.afterOperator ?_ ?_
    · rintro _ ⟨⟩
      refine .tokens [.operator .equal, .keyword .nil_] resumes_cons fun rest hrest => ?_
      exact ⟨_, _, .override (.nil (hrest.mono fun _ => .inl))⟩
    rintro _ vs h₃ ⟨⟩
    refine .bind (short_expression_anywhere.mono fun h => ?_) fun _ _ => .ok
    exact h.ends (List.cons_ne_nil _ _) (fun _ => .inl) fun _ h => ⟨_, .override h⟩
  · next s₁ h₁ ht =>
    obtain ⟨n, ts, rfl, rfl⟩ := token?_some ht
    refine Short.afterName ?_ ?_
    · rintro _ ⟨⟩
      exact .tokens [.name "x", .operator .roundLeft, .operator .roundRight, .keyword .end_]
        resumes_cons fun rest _ => ⟨_, _, .method .empty⟩
    rintro _ w us h₂ ⟨⟩
    refine .bind (short_routine_anywhere.mono fun h => ?_) fun _ _ => .ok
    exact h.ends (List.cons_ne_nil _ _) (fun _ => False.elim) fun _ h => ⟨_, .method h⟩
  · next w s₁ h₁ ht =>
    obtain ⟨n, ts, rfl, rfl⟩ := token?_some ht
    refine Short.afterOperator ?_ ?_
    · rintro _ ⟨⟩
      refine .tokens [.operator .colon, .name "x"] resumes_cons fun rest hrest => ?_
      exact ⟨_, _, .property (annotation_name (hrest.mono joins_type))
        (.none (hrest.mono fun _ => .inr))⟩
    rintro _ us h₂ ⟨⟩
    refine .bind (short_typeExpr.mono fun h => ?_) ?_
    · refine h.within (List.cons_ne_nil _ _) []
        (fun _ hrest => hrest.mono joins_type) ?_
      rintro us rest - hrest m ⟨type, h⟩
      exact ⟨_, _, .property h (.none (hrest.mono fun _ => .inr))⟩
    rintro ⟨type, s₃, h₃⟩ htype
    have htype : Annotation _ type s₃ := ⟨_, htype⟩
    refine .bind (short_initialValue.mono fun h => ?_) fun _ _ => .ok
    exact h.ends (List.cons_ne_nil _ _) (fun _ => .inl)
      fun hus h => ⟨_, .property (annotation_relocate htype (apart_of_ne_nil hus.ne_nil)) h⟩
  · refine short_unexpected ?_
    rintro n rfl
    refine .tokens [.name "x", .operator .colon, .name "x"] (resumes_token ⟨_, rfl⟩)
      fun rest hrest => ?_
    exact ⟨_, _, .property (annotation_name (hrest.mono joins_type))
      (.none (hrest.mono fun _ => .inr))⟩

section Members
variable {α : Type} {Item : Stream → α → Stream → Prop} {joins : Token → Prop} {s₁ : Stream}

theorem Completable.members_first (h : Completable IsName joins (Read Item) s)
    (hend : ¬ joins (.keyword .end_)) : Completable IsName Never (Read (Members Item)) s := by
  refine h.begins (fun _ h => h) [.keyword .end_] (fun _ _ => stops_cons.2 hend) ?_
  rintro us rest - - m ⟨a, h⟩
  exact ⟨_, _, .more h .none⟩

theorem Completable.members_more (h : Completable IsName Never (Read (Members Item)) s₁)
    (hs : s.left ≠ [])
    (item : ∀ us, s₁.Resumes IsName us → ∃ a, Item (s.relocate 0 us) a (s₁.relocate 0 us)) :
    Completable IsName Never (Read (Members Item)) s := by
  refine h.ends hs (fun _ h => h) ?_
  intro us _ _ hus h
  obtain ⟨a, ha⟩ := item us hus
  exact ⟨_, .more ha h⟩

end Members

theorem Stream.Resumes.apart_name {p : Token → Prop} {us : List Token} (h : s.Resumes IsName us)
    (hp : ∀ w, ¬ p (.name w)) : s.Apart p us := by
  refine h.apart ?_
  rintro _ ⟨w, rfl⟩
  exact hp w

theorem short_classMembers {s : Stream} :
    Short (Completable IsName Never (Read (Members ClassMember)) s) (classMembers s) := by
  induction s using Stream.follows_induction with | step s ih => ?_
  rw [classMembers]
  split
  · exact .ok
  · have hend : ¬ (joinsExpression (.keyword .end_) ∨ Token.keyword .end_ = .operator .equal) := by
      simp [joinsExpression, startsSuffix, BinaryOp.ofToken?]
    refine .bind (short_classMember.mono fun h => h.members_first hend) ?_
    rintro ⟨first, s₁, h₁⟩ hf
    have hf := classMember_yields_iff.1 ⟨h₁, hf⟩
    refine .bind ((ih _ h₁).mono fun h => ?_) fun _ _ => .ok
    exact h.members_more h₁.ne_nil fun us hus =>
      ⟨_, hf.relocate (hus.apart_name (by rintro _ ⟨⟩)) (hus.apart_name (by rintro _ ⟨⟩))⟩

theorem short_protocolMember :
    Short (Completable IsName (joinsNames ·) (Read ProtocolMember) s) (protocolMember s) := by
  rw [protocolMember]
  split
  · next s₁ h₁ ht =>
    obtain ⟨n, ts, rfl, rfl⟩ := token?_some ht
    refine Short.afterName ?_ ?_
    · rintro _ ⟨⟩
      refine .tokens [.name "x", .operator .roundLeft, .operator .roundRight] resumes_cons
        fun rest hrest => ?_
      exact ⟨_, _, .method (.none (.none (hrest.mono (by rintro _ rfl; rfl))))⟩
    rintro _ w us h₂ ⟨⟩
    refine .bind (short_signature.mono fun h => ?_) fun _ _ => .ok
    exact h.ends (List.cons_ne_nil _ _) (fun _ h => h) fun _ h => ⟨_, .method h⟩
  · next w s₁ h₁ ht =>
    obtain ⟨n, ts, rfl, rfl⟩ := token?_some ht
    refine Short.afterOperator ?_ ?_
    · rintro _ ⟨⟩
      refine .tokens [.operator .colon, .name "x"] resumes_cons fun rest hrest => ?_
      exact ⟨_, _, .property (annotation_name (hrest.mono fun _ => joinsNames_of_joinsType))⟩
    rintro _ us h₂ ⟨⟩
    refine .bind (short_typeExpr.mono fun h => ?_) fun _ _ => .ok
    exact h.ends (List.cons_ne_nil _ _) (fun _ => joinsNames_of_joinsType)
      fun _ h => ⟨_, .property h⟩
  · refine short_unexpected ?_
    rintro n rfl
    refine .tokens [.name "x", .operator .colon, .name "x"] (resumes_token ⟨_, rfl⟩)
      fun rest hrest => ?_
    exact ⟨_, _, .property (annotation_name (hrest.mono fun _ => joinsNames_of_joinsType))⟩

theorem short_protocolMembers {s : Stream} :
    Short (Completable IsName Never (Read (Members ProtocolMember)) s) (protocolMembers s) := by
  induction s using Stream.follows_induction with | step s ih => ?_
  rw [protocolMembers]
  split
  · exact .ok
  · refine .bind (short_protocolMember.mono fun h => h.members_first (by decide)) ?_
    rintro ⟨first, s₁, h₁⟩ hf
    have hf := protocolMember_yields_iff.1 ⟨h₁, hf⟩
    refine .bind ((ih _ h₁).mono fun h => ?_) fun _ _ => .ok
    exact h.members_more h₁.ne_nil fun us hus => ⟨_, hf.relocate (hus.apart_name (by rintro _ ⟨⟩))⟩

theorem typeLabel?_of_stops {n : TokenIndex} {w : String} {us : List Token}
    (h : Stops (· = .operator .colon) ⟨n + 1, us⟩) : typeLabel? ⟨n, .name w :: us⟩ = none := by
  rw [typeLabel?, name?_cons]
  simp [operator?_none_iff.2 h]

theorem short_associatedType :
    Short (Completable IsName (joinsNames ·) (Read AssociatedType) s) (associatedType s) := by
  rw [associatedType]
  split
  · next w s₁ h₁ hl =>
    obtain ⟨n, ts, rfl, rfl⟩ := typeLabel?_some hl
    refine .bind (short_typeExpr.mono fun h => ?_) fun _ _ => .ok
    exact h.ends (List.cons_ne_nil _ _) (fun _ => joinsNames_of_joinsType)
      fun _ h => ⟨_, .labelled h⟩
  · next hl =>
    -- A name at the end is a type, and one put behind the end has no colon behind it.
    by_cases hname : ∃ n w, s = ⟨n, [.name w]⟩
    · obtain ⟨n, w, rfl⟩ := hname
      obtain ⟨_, h⟩ := annotation_name (n := n) (w := w) stops_nil
      rw [h]
      exact .ok
    refine .bind (short_typeExpr.mono fun h => ?_) fun _ _ => .ok
    by_cases hs : s.left = []
    · obtain ⟨n, _ | _⟩ := s
      · refine .tokens [.name "x"] (resumes_token ⟨_, rfl⟩) fun rest hrest => ?_
        exact ⟨_, _, .plain (typeLabel?_of_stops (hrest.mono (by rintro _ rfl; rfl)))
          (annotation_name (hrest.mono fun _ => joinsNames_of_joinsType))⟩
      · cases hs
    refine h.within hs [] (fun _ hrest => hrest.mono fun _ => joinsNames_of_joinsType) ?_
    rintro us rest - - m ⟨type, h⟩
    refine ⟨_, _, .plain (typeLabel?_relocate hs (fun w hw => ?_) hl) h⟩
    exact absurd ⟨s.next, w, by rw [← hw]⟩ hname

theorem short_associatedTypes {s : Stream} :
    Short (Completable IsName Never (Read AssociatedTypes) s) (associatedTypes s) := by
  induction s using Stream.follows_induction with | step s ih => ?_
  rw [associatedTypes]
  refine .bind (short_associatedType.mono fun h => ?_) ?_
  · refine h.begins (fun _ h => h) [.operator .roundRight] (fun _ _ => stops_cons.2 (by decide)) ?_
    rintro us rest - - m ⟨a, h⟩
    exact ⟨_, _, .last h⟩
  rintro ⟨first, s₁, h₁⟩ ha
  have ha := associatedType_yields_iff.1 ⟨h₁, ha⟩
  dsimp only
  split
  · exact .ok
  · refine .bind (short_operator.mono ?_) ?_
    · rintro ⟨m, rfl⟩
      refine .tokens [.operator .roundRight] (resumes_of_ne_nil h₁.ne_nil) fun rest _ => ?_
      exact ⟨_, _, .last (ha.relocate (apart_token (by decide)))⟩
    rintro ⟨_, s₂, h₂⟩ ho
    obtain ⟨m, us, rfl, rfl⟩ := operator_ok ho
    refine .bind ((ih _ (h₂.trans h₁)).mono fun h => ?_) fun _ _ => .ok
    exact h.ends h₁.ne_nil (fun _ => False.elim) fun _ h => ⟨_, .more (ha.relocate apart_cons) h⟩

theorem short_payload : Short (Completable Never Never (Read Payload) s) (payload s) := by
  rw [payload]
  split
  · next s₁ h₁ ho =>
    obtain ⟨n, ts, rfl, rfl⟩ := operator?_some ho
    split
    · exact .ok
    · refine .bind (short_associatedTypes.mono fun h => ?_) fun _ _ => .ok
      exact h.ends (List.cons_ne_nil _ _) (fun _ => False.elim) fun _ h => ⟨_, .list h⟩
  · exact .ok

theorem short_literal :
    Short (Completable (· = .keyword .true_) Never (Read Literal) s) (literal s) := by
  rw [literal]
  split
  iterate 4
    · exact .ok
  · next s₁ h₁ ht =>
    obtain ⟨n, ts, rfl, rfl⟩ := token?_some ht
    split
    · exact .ok
    · refine short_unexpected ?_
      rintro _ he
      cases he
      exact .tokens [.number 0] resumes_cons fun rest _ => ⟨_, _, .negative⟩
  · refine short_unexpected ?_
    rintro n rfl
    exact .tokens [.keyword .true_] (resumes_token rfl) fun rest _ => ⟨_, _, .true⟩

theorem short_rawValue :
    Short (Completable Never Never (Read (Given Literal)) s) (rawValue s) := by
  rw [rawValue]
  split
  · next s₁ h₁ ho =>
    obtain ⟨n, ts, rfl, rfl⟩ := operator?_some ho
    refine .bind (short_literal.mono fun h => ?_) fun _ _ => .ok
    exact h.ends (List.cons_ne_nil _ _) (fun _ => False.elim) fun _ h => ⟨_, .item h⟩
  · exact .ok

theorem short_enumCase :
    Short (Completable IsName (fun u => u = .operator .roundLeft ∨ u = .operator .equal)
      (Read EnumCase) s) (enumCase s) := by
  refine Short.afterName ?_ ?_
  · rintro n rfl
    refine .tokens [.name "x"] (resumes_token ⟨_, rfl⟩) fun rest hrest => ?_
    exact ⟨_, _, .intro (.none (hrest.mono fun _ => .inl)) (.none (hrest.mono fun _ => .inr))⟩
  rintro n w ts h₁ rfl
  refine .bind (short_payload.mono fun h => ?_) ?_
  · refine h.within (List.cons_ne_nil _ _) [] (fun _ _ => stops_never) ?_
    rintro us rest - hrest m ⟨as, h⟩
    exact ⟨_, _, .intro h (.none (hrest.mono fun _ => .inr))⟩
  rintro ⟨as, s₂, h₂⟩ hp
  have hp := payload_leaves_iff.1 ⟨_, hp⟩
  refine .bind (short_rawValue.mono fun h => ?_) fun _ _ => .ok
  exact h.ends (List.cons_ne_nil _ _) (fun _ => False.elim)
    fun hus h => ⟨_, .intro (hp.relocate (apart_of_ne_nil hus.ne_nil)) h⟩

theorem short_enumCases {s : Stream} :
    Short (Completable IsName Never (Read EnumCases) s) (enumCases s) := by
  induction s using Stream.follows_induction with | step s ih => ?_
  rw [enumCases]
  split
  · exact .ok
  · refine .bind (short_enumCase.mono fun h => ?_) ?_
    · refine h.begins (fun _ h => h) [.keyword .end_] (fun _ _ => stops_cons.2 (by simp)) ?_
      rintro us rest - - m ⟨c, h⟩
      exact ⟨_, _, .last h⟩
    rintro ⟨first, s₁, h₁⟩ hc
    have hc := enumCase_yields_iff.1 ⟨h₁, hc⟩
    dsimp only
    split
    · next s₂ h₂ ho =>
      obtain ⟨m, us, rfl, rfl⟩ := operator?_some ho
      refine .bind ((ih _ (h₂.trans h₁)).mono fun h => ?_) fun _ _ => .ok
      exact h.ends h₁.ne_nil (fun _ => False.elim)
        fun _ h => ⟨_, .more (hc.relocate apart_cons apart_cons) h⟩
    · refine .bind (short_keyword.mono ?_) fun _ _ => .ok
      rintro ⟨m, rfl⟩
      refine .tokens [.keyword .end_] (resumes_of_ne_nil h₁.ne_nil) fun rest _ => ?_
      exact ⟨_, _, .last (hc.relocate (apart_token (by simp)) (apart_token (by simp)))⟩

/-- A declaration of a keyword, a name, what it conforms to and a body that an `end` may close. -/
structure Headed (k : Keyword) (Body : Stream → Stream → Prop) : Prop where
  declares {n w ts cs s t} : Clause Conformance ⟨n + 1 + 1, ts⟩ cs s → Body s t →
    Read Declaration ⟨n, .keyword k :: .name w :: ts⟩ t
  ends {n ts} : Body ⟨n, .keyword .end_ :: ts⟩ ⟨n + 1, ts⟩

namespace Headed
variable {k : Keyword} {Body : Stream → Stream → Prop} {n : TokenIndex} {w : String}
  {ts : List Token}

theorem class_ : Headed .class_ (Read (Members ClassMember)) where
  declares := fun hc ⟨_, h⟩ => ⟨_, .ofClass hc h⟩
  ends := ⟨_, .none⟩

theorem protocol_ : Headed .protocol_ (Read (Members ProtocolMember)) where
  declares := fun hc ⟨_, h⟩ => ⟨_, .ofProtocol hc h⟩
  ends := ⟨_, .none⟩

theorem enum_ : Headed .enum_ (Read EnumCases) where
  declares := fun hc ⟨_, h⟩ => ⟨_, .ofEnum hc h⟩
  ends := ⟨_, .none⟩

theorem name_missing (h : Headed k Body) :
    Completable Never (joinsType ·) (Read Declaration) ⟨n, [.keyword k]⟩ :=
  .tokens [.name "x", .keyword .end_] resumes_cons fun _ _ =>
    ⟨_, h.declares (.none (stops_cons.2 (by simp))) h.ends⟩

theorem conformances_short (h : Headed k Body)
    (hc : Completable Never (joinsNames ·) (Read (Clause Conformance)) ⟨n + 1 + 1, ts⟩) :
    Completable Never (joinsType ·) (Read Declaration) ⟨n, .keyword k :: .name w :: ts⟩ := by
  refine hc.within (List.cons_ne_nil _ _) [.keyword .end_] (fun _ _ => stops_cons.2 (by decide)) ?_
  rintro us rest - - m ⟨cs, hc⟩
  exact ⟨_, h.declares hc h.ends⟩

theorem body_short {cs : List Syntax.Conformance} {s : Stream} (h : Headed k Body)
    (hc : Clause Conformance ⟨n + 1 + 1, ts⟩ cs s) (hb : Completable IsName Never Body s) :
    Completable Never (joinsType ·) (Read Declaration) ⟨n, .keyword k :: .name w :: ts⟩ := by
  refine hb.within (List.cons_ne_nil _ _) [] (fun _ _ => stops_never) ?_
  intro us rest hus _ m hb
  exact ⟨_, h.declares (conformances_relocate hc (hus.apart_name (by rintro _ ⟨⟩))) hb⟩

/-- What reads a name, what it conforms to and a body, where the keyword is already read. -/
theorem short {α β : Type} {body : (s : Stream) → Except ParseError (Parsed s α)}
    {result : (p : Parsed ⟨n + 1, ts⟩ String) → (q : Trail p.rest (List Syntax.Conformance)) →
      Parsed q.rest α → β}
    (h : Headed k Body) (hbody : ∀ {s}, Short (Completable IsName Never Body s) (body s)) :
    Short (Completable Never (joinsType ·) (Read Declaration) ⟨n, .keyword k :: ts⟩) do
      let p ← name ⟨n + 1, ts⟩
      let q ← conformances p.rest
      let r ← body q.rest
      return result p q r := by
  refine Short.afterName ?_ ?_
  · rintro _ ⟨⟩
    exact h.name_missing
  rintro _ w us h₂ ⟨⟩
  refine .bind (short_conformances.mono h.conformances_short) ?_
  rintro ⟨cs, s₃, h₃⟩ hc
  have hc := conformances_leaves_iff.1 ⟨_, hc⟩
  exact .bind (hbody.mono (h.body_short hc)) fun _ _ => .ok

end Headed

theorem short_classDecl {n : TokenIndex} {ts : List Token} :
    Short (Completable Never (joinsType ·) (Read Declaration) ⟨n, .keyword .class_ :: ts⟩)
      (classDecl ⟨n, .keyword .class_ :: ts⟩) := by
  rw [classDecl]
  simp only [keyword_cons, ok_bind]
  exact Headed.class_.short short_classMembers

theorem short_protocolDecl {n : TokenIndex} {ts : List Token} :
    Short (Completable Never (joinsType ·) (Read Declaration) ⟨n, .keyword .protocol_ :: ts⟩)
      (protocolDecl ⟨n, .keyword .protocol_ :: ts⟩) := by
  rw [protocolDecl]
  simp only [keyword_cons, ok_bind]
  exact Headed.protocol_.short short_protocolMembers

theorem short_enumDecl {n : TokenIndex} {ts : List Token} :
    Short (Completable Never (joinsType ·) (Read Declaration) ⟨n, .keyword .enum_ :: ts⟩)
      (enumDecl ⟨n, .keyword .enum_ :: ts⟩) := by
  rw [enumDecl]
  simp only [keyword_cons, ok_bind]
  exact Headed.enum_.short short_enumCases

theorem short_aliasDecl {n : TokenIndex} {ts : List Token} :
    Short (Completable Never (joinsType ·) (Read Declaration) ⟨n, .keyword .typealias_ :: ts⟩)
      (aliasDecl ⟨n, .keyword .typealias_ :: ts⟩) := by
  rw [aliasDecl]
  simp only [keyword_cons, ok_bind]
  refine Short.afterName ?_ ?_
  · rintro _ ⟨⟩
    refine .tokens [.name "x", .operator .equal, .name "x"] resumes_cons fun rest hrest => ?_
    exact ⟨_, _, .typeAlias (annotation_name hrest)⟩
  rintro _ w us h₂ ⟨⟩
  refine Short.afterOperator ?_ ?_
  · rintro _ ⟨⟩
    refine .tokens [.operator .equal, .name "x"] resumes_cons fun rest hrest => ?_
    exact ⟨_, _, .typeAlias (annotation_name hrest)⟩
  rintro _ vs h₃ ⟨⟩
  refine .bind (short_typeExpr.mono fun h => ?_) fun _ _ => .ok
  exact h.ends (List.cons_ne_nil _ _) (fun _ h => h) fun _ h => ⟨_, .typeAlias h⟩

theorem short_declaration? {read : Except ParseError (Parsed s Item)}
    (hd : declaration? s = some read) :
    Short (Completable Never (joinsType ·) (Read Declaration) s) read := by
  rw [declaration?] at hd
  split at hd
  iterate 4
    · next ht =>
      obtain ⟨n, ts, rfl, -⟩ := token?_some ht
      cases hd
      first
        | exact .bind short_classDecl fun _ _ => .ok
        | exact .bind short_protocolDecl fun _ _ => .ok
        | exact .bind short_enumDecl fun _ _ => .ok
        | exact .bind short_aliasDecl fun _ _ => .ok
  · cases hd

/-- At the very end of the input there is nothing to finish, so items before are read again as they
were. -/
theorem short_items {returned : Bool} {s : Stream} :
    Short (s.left ≠ [] ∧ ∃ us c, Items returned (s.relocate 0 us) c) (items returned s) := by
  have hdone {returned : Bool} {n : TokenIndex} : Items returned ⟨n, []⟩ [] :=
    .done (by rw [semicolons_of_stops stops_nil])
  induction s using Stream.follows_induction generalizing returned with | step s ih => ?_
  rw [items]
  split
  · next read hd =>
    split
    · exact .error (by rintro _ ⟨⟩)
    next hret =>
    rw [Bool.not_eq_true] at hret
    subst hret
    refine .bind ((short_declaration? hd).mono ?_) ?_
    · rintro ⟨us, hus, h⟩
      obtain ⟨n, item, h⟩ := h [] stops_nil
      rw [List.append_nil] at h
      exact ⟨hus.ne_nil, us, _, .declaration h hdone⟩
    rintro ⟨first, s₁, h₁⟩ hf
    have hf := reads_declaration? hd hf
    refine .bind ((ih _ h₁).mono ?_) fun _ _ => .ok
    rintro ⟨hs₁, us, c, h⟩
    exact ⟨h₁.ne_nil, us, _, .declaration (hf.relocate (apart_of_ne_nil hs₁)) h⟩
  · have h₁ := (semicolons s).rest_isRest
    dsimp only
    split
    · exact .ok
    next u _ =>
    split
    · exact .error (by rintro _ ⟨⟩)
    next hret =>
    rw [Bool.not_eq_true] at hret
    subst hret
    have hne := u.rest_follows.ne_nil
    have hs : s.left ≠ [] := fun hs => hne (h₁.left_eq_nil hs)
    refine .bind (((shortBelow _).statement (Nat.lt_succ_self _)).mono ?_) ?_
    · rintro ⟨us, -, h⟩
      obtain ⟨n, stmt, h⟩ := h [] stops_nil
      rw [List.append_nil, ← semicolons_relocate (apart_of_ne_nil hne)] at h
      exact ⟨hs, us, _, .statement h hdone⟩
    rintro ⟨first, s₂, h₂⟩ hf
    have hf := statement_yields_iff.1 ⟨_, hf⟩
    refine .bind ((ih _ (h₂.ofRest h₁)).mono ?_) fun _ _ => .ok
    rintro ⟨hs₂, us, c, h⟩
    have hf : Statement ((semicolons s).rest.relocate 0 us) _ (s₂.relocate 0 us) :=
      hf.relocate (apart_of_ne_nil hs₂) fun _ => apart_of_ne_nil hs₂
    rw [← semicolons_relocate (apart_of_ne_nil hne)] at hf
    rw [← isLast_mapAnchor (0 + ·)] at h
    exact ⟨hs, us, _, .statement hf h⟩

end

/-- Where the parser says that the input has ended, more tokens make a chunk of it. -/
theorem endOfInput_completable {ts : List Token} {i : TokenIndex}
    (h : chunk ts = .error (.endOfInput i)) : ∃ us c, chunk (ts ++ us) = .ok c := by
  obtain ⟨-, us, c, hc⟩ := short_items _ h i rfl
  exact ⟨us, c, accepts_items hc⟩

/-- `while x` -/
def openLoopTokens : List Token := [.keyword .while_, .name "x"]

theorem chunk_openLoop : chunk openLoopTokens = .error (.endOfInput 2) := by
  have h : Expression 0 ⟨1, [.name "x"]⟩ (.name 1 "x") ⟨2, []⟩ :=
    Operand.expression (.chain (.name (.done stops_nil))) stops_nil
  obtain ⟨_, h⟩ := h.offers.yields
  have hs : statement ⟨0, openLoopTokens⟩ = .error (.endOfInput 2) := by
    rw [statement]
    simp only [openLoopTokens, token?_cons, h, ok_bind]
    rfl
  have hd : declaration? ⟨0, openLoopTokens⟩ = none :=
    declaration?_of_stops (stops_cons.2 (by decide))
  have hb : (semicolons ⟨0, openLoopTokens⟩).rest = ⟨0, openLoopTokens⟩ :=
    semicolons_of_stops (stops_cons.2 (by simp))
  rw [chunk, Stream.ofTokens, items, hd]
  generalize semicolons _ = p at hb
  obtain ⟨_, r, _⟩ := p
  obtain rfl : r = _ := hb
  simp only [hs]
  rfl

theorem endOfInput_completable_loop :
    chunk openLoopTokens = .error (.endOfInput 2) ∧
      ∃ us c, chunk (openLoopTokens ++ us) = .ok c :=
  ⟨chunk_openLoop, endOfInput_completable chunk_openLoop⟩

end ScriptFront.Phrase
