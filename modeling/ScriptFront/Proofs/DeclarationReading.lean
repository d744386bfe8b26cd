import ScriptFront.Proofs.Accepts
/-! The readers of declarations and of chunks accept what `Reading` derives, and nothing else. -/
namespace ScriptFront.Phrase
open Syntax

theorem expression_yields_iff {floor : Nat} {s t : Stream} {e : Expr} :
    Yields (expression floor s) e t ↔ Reading.Expression floor s e t :=
  ⟨fun ⟨_, h⟩ => (sound _).expression (Nat.lt_succ_self _) h, fun h => h.offers.yields⟩

theorem routine_yields_iff {s t : Stream} {r : Routine} :
    Yields (routine s) r t ↔ Reading.RoutineBody s r t :=
  ⟨fun ⟨_, h⟩ => (sound _).routine (Nat.lt_succ_self _) h, fun h => h.yields⟩

theorem statement_yields_iff {s t : Stream} {stmt : Stmt} :
    Yields (statement s) stmt t ↔ Reading.Statement s stmt t :=
  ⟨fun ⟨_, h⟩ => (sound _).statement (Nat.lt_succ_self _) h, fun h => h.yields⟩

theorem reads_conformanceList {s t : Stream} {cs : List Conformance} {h : t.Follows s}
    (hr : conformanceList s = .ok ⟨cs, t, h⟩) : Reading.Listed Reading.Conformance s cs t := by
  rw [conformanceList] at hr
  obtain ⟨⟨w, s₁, h₁⟩, hw, hr⟩ := bind_ok.1 hr
  dsimp only at hr
  split at hr
  · next s₂ h₂ hc =>
    have h₂' := h₂.trans h₁
    obtain ⟨⟨more, s₃, h₃⟩, hm, hr⟩ := bind_ok.1 hr
    cases hr
    have hm := reads_conformanceList hm
    obtain ⟨n, ts, rfl, rfl⟩ := name_ok hw
    obtain ⟨m, us, heq, rfl⟩ := operator?_some hc
    cases heq
    exact .more .intro hm
  · next hc =>
    cases hr
    obtain ⟨n, ts, rfl, rfl⟩ := name_ok hw
    exact .last .intro (operator?_none_iff.1 hc)
termination_by s.left.length
decreasing_by exact Stream.Follows.length_lt ‹_›

theorem yields_conformanceList {s t : Stream} {cs : List Conformance}
    (h : Reading.Listed Reading.Conformance s cs t) : Yields (conformanceList s) cs t := by
  induction h with
  | last hf hc =>
    cases hf
    apply Yields.of
    rw [conformanceList]
    simp only [name_cons, ok_bind, operator?_none_iff.2 hc]
    rfl
  | more hf _ ih =>
    obtain ⟨_, ih⟩ := ih
    cases hf
    apply Yields.of
    rw [conformanceList]
    simp only [name_cons, ok_bind, operator?_cons, ih]
    rfl

theorem conformances_leaves_iff {s t : Stream} {cs : List Conformance} :
    Leaves (conformances s) cs t ↔ Reading.Clause Reading.Conformance s cs t := by
  constructor
  · rintro ⟨_, hr⟩
    rw [conformances] at hr
    split at hr
    · next s₁ h₁ hc =>
      obtain ⟨⟨list, s₂, h₂⟩, hl, hr⟩ := bind_ok.1 hr
      cases hr
      obtain ⟨n, ts, rfl, rfl⟩ := operator?_some hc
      exact .list (reads_conformanceList hl)
    · next hc =>
      cases hr
      exact .none (operator?_none_iff.1 hc)
  · intro h
    apply Leaves.of
    rw [conformances]
    cases h with
    | list h =>
      obtain ⟨_, h⟩ := yields_conformanceList h
      simp only [operator?_cons, h, ok_bind]
      rfl
    | none h =>
      rw [operator?_none_iff.2 h]
      rfl

theorem initialValue_leaves_iff {s t : Stream} {initial : Option Expr} :
    Leaves (initialValue s) initial t ↔ Reading.Given (Reading.Expression 0) s initial t := by
  constructor
  · rintro ⟨_, hr⟩
    rw [initialValue] at hr
    split at hr
    · next s₁ h₁ hc =>
      obtain ⟨⟨e, s₂, h₂⟩, he, hr⟩ := bind_ok.1 hr
      cases hr
      obtain ⟨n, ts, rfl, rfl⟩ := operator?_some hc
      exact .item (expression_yields_iff.1 ⟨_, he⟩)
    · next hc =>
      cases hr
      exact .none (operator?_none_iff.1 hc)
  · intro h
    apply Leaves.of
    rw [initialValue]
    cases h with
    | item h =>
      obtain ⟨_, h⟩ := expression_yields_iff.2 h
      simp only [operator?_cons, h, ok_bind]
      rfl
    | none h =>
      rw [operator?_none_iff.2 h]
      rfl

theorem classMember_yields_iff {s t : Stream} {m : ClassMember} :
    Yields (classMember s) m t ↔ Reading.ClassMember s m t := by
  constructor
  · rintro ⟨_, hr⟩
    rw [classMember] at hr
    split at hr
    · next s₁ h₁ hs =>
      obtain ⟨⟨w, s₂, h₂⟩, hw, hr⟩ := bind_ok.1 hr
      obtain ⟨⟨_, s₃, h₃⟩, hq, hr⟩ := bind_ok.1 hr
      obtain ⟨⟨value, s₄, h₄⟩, hv, hr⟩ := bind_ok.1 hr
      cases hr
      obtain ⟨n, ts, rfl, rfl⟩ := token?_some hs
      obtain ⟨m, us, heq, rfl⟩ := name_ok hw
      cases heq
      obtain ⟨m, us, heq, rfl⟩ := operator_ok hq
      cases heq
      exact .override (expression_yields_iff.1 ⟨_, hv⟩)
    · next s₁ h₁ hs =>
      obtain ⟨⟨w, s₂, h₂⟩, hw, hr⟩ := bind_ok.1 hr
      obtain ⟨⟨body, s₃, h₃⟩, hb, hr⟩ := bind_ok.1 hr
      cases hr
      obtain ⟨n, ts, rfl, rfl⟩ := token?_some hs
      obtain ⟨m, us, heq, rfl⟩ := name_ok hw
      cases heq
      exact .method (routine_yields_iff.1 ⟨_, hb⟩)
    · next w s₁ h₁ hs =>
      obtain ⟨⟨_, s₂, h₂⟩, hc, hr⟩ := bind_ok.1 hr
      obtain ⟨⟨type, s₃, h₃⟩, ht, hr⟩ := bind_ok.1 hr
      obtain ⟨⟨initial, s₄, h₄⟩, hi, hr⟩ := bind_ok.1 hr
      cases hr
      obtain ⟨n, ts, rfl, rfl⟩ := token?_some hs
      obtain ⟨m, us, heq, rfl⟩ := operator_ok hc
      cases heq
      exact .property ⟨_, ht⟩ (initialValue_leaves_iff.1 ⟨_, hi⟩)
    · cases hr
  · intro h
    apply Yields.of
    rw [classMember]
    cases h with
    | override h =>
      obtain ⟨_, h⟩ := expression_yields_iff.2 h
      simp only [token?_cons, name_cons, operator_cons, h, ok_bind]
      rfl
    | method h =>
      obtain ⟨_, h⟩ := routine_yields_iff.2 h
      simp only [token?_cons, name_cons, h, ok_bind]
      rfl
    | property h h' =>
      obtain ⟨_, h⟩ := h
      obtain ⟨_, h'⟩ := initialValue_leaves_iff.2 h'
      simp only [token?_cons, operator_cons, h, h', ok_bind]
      rfl

theorem Reading.ClassMember.end_none {s t : Stream} {m : Syntax.ClassMember}
    (h : Reading.ClassMember s m t) : keyword? .end_ s = none := by
  cases h with
  | override _ => exact keyword?_of_ne (by simp)
  | method _ => exact keyword?_of_ne (by simp)
  | property _ _ => exact keyword?_of_ne (by simp)

theorem reads_classMembers {s t : Stream} {ms : List ClassMember} {h : t.Follows s}
    (hr : classMembers s = .ok ⟨ms, t, h⟩) : Reading.Members Reading.ClassMember s ms t := by
  rw [classMembers] at hr
  split at hr
  · next s₁ h₁ he =>
    cases hr
    obtain ⟨n, ts, rfl, rfl⟩ := keyword?_some he
    exact .none
  · obtain ⟨⟨first, s₁, h₁⟩, hf, hr⟩ := bind_ok.1 hr
    obtain ⟨⟨more, s₂, h₂⟩, hm, hr⟩ := bind_ok.1 hr
    cases hr
    exact .more (classMember_yields_iff.1 ⟨_, hf⟩) (reads_classMembers hm)
termination_by s.left.length
decreasing_by exact Stream.Follows.length_lt ‹_›

theorem yields_classMembers {s t : Stream} {ms : List ClassMember}
    (h : Reading.Members Reading.ClassMember s ms t) : Yields (classMembers s) ms t := by
  induction h with
  | none =>
    apply Yields.of
    rw [classMembers, keyword?_cons]
    rfl
  | more h _ ih =>
    have he := h.end_none
    obtain ⟨_, h⟩ := classMember_yields_iff.2 h
    obtain ⟨_, ih⟩ := ih
    apply Yields.of
    rw [classMembers]
    simp only [he, h, ih, ok_bind]
    rfl

theorem protocolMember_yields_iff {s t : Stream} {m : ProtocolMember} :
    Yields (protocolMember s) m t ↔ Reading.ProtocolMember s m t := by
  constructor
  · rintro ⟨_, hr⟩
    rw [protocolMember] at hr
    split at hr
    · next s₁ h₁ hs =>
      obtain ⟨⟨w, s₂, h₂⟩, hw, hr⟩ := bind_ok.1 hr
      obtain ⟨⟨sig, s₃, h₃⟩, hg, hr⟩ := bind_ok.1 hr
      cases hr
      obtain ⟨n, ts, rfl, rfl⟩ := token?_some hs
      obtain ⟨m, us, heq, rfl⟩ := name_ok hw
      cases heq
      exact .method (reads_signature hg)
    · next w s₁ h₁ hs =>
      obtain ⟨⟨_, s₂, h₂⟩, hc, hr⟩ := bind_ok.1 hr
      obtain ⟨⟨type, s₃, h₃⟩, ht, hr⟩ := bind_ok.1 hr
      cases hr
      obtain ⟨n, ts, rfl, rfl⟩ := token?_some hs
      obtain ⟨m, us, heq, rfl⟩ := operator_ok hc
      cases heq
      exact .property ⟨_, ht⟩
    · cases hr
  · intro h
    apply Yields.of
    rw [protocolMember]
    cases h with
    | method h =>
      obtain ⟨_, h⟩ := h.yields
      simp only [token?_cons, name_cons, h, ok_bind]
      rfl
    | property h =>
      obtain ⟨_, h⟩ := h
      simp only [token?_cons, operator_cons, h, ok_bind]
      rfl

theorem Reading.ProtocolMember.end_none {s t : Stream} {m : Syntax.ProtocolMember}
    (h : Reading.ProtocolMember s m t) : keyword? .end_ s = none := by
  cases h with
  | method _ => exact keyword?_of_ne (by simp)
  | property _ => exact keyword?_of_ne (by simp)

theorem reads_protocolMembers {s t : Stream} {ms : List ProtocolMember} {h : t.Follows s}
    (hr : protocolMembers s = .ok ⟨ms, t, h⟩) :
    Reading.Members Reading.ProtocolMember s ms t := by
  rw [protocolMembers] at hr
  split at hr
  · next s₁ h₁ he =>
    cases hr
    obtain ⟨n, ts, rfl, rfl⟩ := keyword?_some he
    exact .none
  · obtain ⟨⟨first, s₁, h₁⟩, hf, hr⟩ := bind_ok.1 hr
    obtain ⟨⟨more, s₂, h₂⟩, hm, hr⟩ := bind_ok.1 hr
    cases hr
    exact .more (protocolMember_yields_iff.1 ⟨_, hf⟩) (reads_protocolMembers hm)
termination_by s.left.length
decreasing_by exact Stream.Follows.length_lt ‹_›

theorem yields_protocolMembers {s t : Stream} {ms : List ProtocolMember}
    (h : Reading.Members Reading.ProtocolMember s ms t) : Yields (protocolMembers s) ms t := by
  induction h with
  | none =>
    apply Yields.of
    rw [protocolMembers, keyword?_cons]
    rfl
  | more h _ ih =>
    have he := h.end_none
    obtain ⟨_, h⟩ := protocolMember_yields_iff.2 h
    obtain ⟨_, ih⟩ := ih
    apply Yields.of
    rw [protocolMembers]
    simp only [he, h, ih, ok_bind]
    rfl

theorem typeLabel?_some {s t : Stream} {w : String} {h : t.Follows s}
    (hs : typeLabel? s = some ⟨w, t, h⟩) :
    ∃ n ts, s = ⟨n, .name w :: .operator .colon :: ts⟩ ∧ t = ⟨n + 1 + 1, ts⟩ := by
  obtain ⟨⟨w, s₁, h₁⟩, hw, hs⟩ := Option.bind_eq_some_iff.1 hs
  obtain ⟨⟨_, s₂, h₂⟩, hc, hs⟩ := Option.bind_eq_some_iff.1 hs
  cases hs
  obtain ⟨n, ts, rfl, rfl⟩ := name?_some hw
  obtain ⟨m, us, he, rfl⟩ := operator?_some hc
  cases he
  exact ⟨n, us, rfl, rfl⟩

theorem typeLabel?_cons (n : TokenIndex) (w : String) (us : List Token) :
    ∃ h, typeLabel? ⟨n, .name w :: .operator .colon :: us⟩ = some ⟨w, ⟨n + 1 + 1, us⟩, h⟩ := by
  apply found_of
  simp only [typeLabel?, name?_cons, operator?_cons, Option.bind_eq_bind, Option.bind_some]
  rfl

theorem associatedType_yields_iff {s t : Stream} {a : AssociatedType} :
    Yields (associatedType s) a t ↔ Reading.AssociatedType s a t := by
  constructor
  · rintro ⟨_, hr⟩
    rw [associatedType] at hr
    split at hr
    · next w s₁ h₁ hw =>
      obtain ⟨⟨type, s₂, h₂⟩, ht, hr⟩ := bind_ok.1 hr
      cases hr
      obtain ⟨n, ts, rfl, rfl⟩ := typeLabel?_some hw
      exact .labelled ⟨_, ht⟩
    · next hw =>
      obtain ⟨⟨type, s₁, h₁⟩, ht, hr⟩ := bind_ok.1 hr
      cases hr
      exact .plain hw ⟨_, ht⟩
  · intro h
    apply Yields.of
    rw [associatedType]
    cases h with
    | @labelled n ts _ _ w h =>
      obtain ⟨_, h⟩ := h
      obtain ⟨_, hw⟩ := typeLabel?_cons n w ts
      simp only [hw, h, ok_bind]
      rfl
    | plain hw h =>
      obtain ⟨_, h⟩ := h
      simp only [hw, h, ok_bind]
      rfl

theorem reads_associatedTypes {s t : Stream} {as : List AssociatedType} {h : t.Follows s}
    (hr : associatedTypes s = .ok ⟨as, t, h⟩) : Reading.AssociatedTypes s as t := by
  rw [associatedTypes] at hr
  obtain ⟨⟨first, s₁, h₁⟩, hf, hr⟩ := bind_ok.1 hr
  have hf : Reading.AssociatedType _ _ _ := associatedType_yields_iff.1 ⟨_, hf⟩
  dsimp only at hr
  split at hr
  · next s₂ h₂ hb =>
    cases hr
    obtain ⟨n, ts, rfl, rfl⟩ := operator?_some hb
    exact .last hf
  · obtain ⟨⟨_, s₂, h₂⟩, hc, hr⟩ := bind_ok.1 hr
    have h₂' := h₂.trans h₁
    obtain ⟨⟨more, s₃, h₃⟩, hm, hr⟩ := bind_ok.1 hr
    cases hr
    have hm := reads_associatedTypes hm
    obtain ⟨n, ts, rfl, rfl⟩ := operator_ok hc
    exact .more hf hm
termination_by s.left.length
decreasing_by exact Stream.Follows.length_lt ‹_›

theorem yields_associatedTypes {s t : Stream} {as : List AssociatedType}
    (h : Reading.AssociatedTypes s as t) : Yields (associatedTypes s) as t := by
  induction h with
  | last h =>
    obtain ⟨_, h⟩ := associatedType_yields_iff.2 h
    apply Yields.of
    rw [associatedTypes]
    simp only [h, operator?_cons, ok_bind]
    rfl
  | more h _ ih =>
    obtain ⟨_, h⟩ := associatedType_yields_iff.2 h
    obtain ⟨_, ih⟩ := ih
    apply Yields.of
    rw [associatedTypes]
    simp only [h, operator_cons, ih, ok_bind,
      operator?_of_ne (by simp : Token.operator .comma ≠ .operator .roundRight)]
    rfl

theorem Reading.AssociatedType.head {s t : Stream} {a : Syntax.AssociatedType}
    (h : Reading.AssociatedType s a t) : s.Starts startsType := by
  cases h with
  | labelled _ => exact .intro rfl
  | plain _ h => exact Reading.annotation_head h

theorem Reading.AssociatedTypes.operator?_none {s t : Stream} {as : List Syntax.AssociatedType}
    (h : Reading.AssociatedTypes s as t) : operator? .roundRight s = none := by
  have hs : s.Starts startsType := by
    cases h with
    | last h => exact h.head
    | more h _ => exact h.head
  obtain ⟨n, u, us, rfl, hu⟩ := hs
  refine operator?_of_ne ?_
  rintro rfl
  cases hu

theorem payload_leaves_iff {s t : Stream} {as : List AssociatedType} :
    Leaves (payload s) as t ↔ Reading.Payload s as t := by
  constructor
  · rintro ⟨_, hr⟩
    rw [payload] at hr
    split at hr
    · next s₁ h₁ hb =>
      obtain ⟨n, ts, rfl, rfl⟩ := operator?_some hb
      split at hr
      · next s₂ h₂ hc =>
        cases hr
        obtain ⟨m, us, heq, rfl⟩ := operator?_some hc
        cases heq
        exact .empty
      · obtain ⟨⟨list, s₂, h₂⟩, hl, hr⟩ := bind_ok.1 hr
        cases hr
        exact .list (reads_associatedTypes hl)
    · next hb =>
      cases hr
      exact .none (operator?_none_iff.1 hb)
  · intro h
    apply Leaves.of
    rw [payload]
    cases h with
    | empty =>
      simp only [operator?_cons]
      rfl
    | list h =>
      have hc := h.operator?_none
      obtain ⟨_, h⟩ := yields_associatedTypes h
      simp only [operator?_cons, hc, h, ok_bind]
      rfl
    | none h =>
      rw [operator?_none_iff.2 h]
      rfl

theorem literal_yields_iff {s t : Stream} {l : Literal} :
    Yields (literal s) l t ↔ Reading.Literal s l t := by
  constructor
  · rintro ⟨_, hr⟩
    rw [literal] at hr
    split at hr
    · next hs =>
      cases hr
      obtain ⟨n, ts, rfl, rfl⟩ := token?_some hs
      exact .number
    · next hs =>
      cases hr
      obtain ⟨n, ts, rfl, rfl⟩ := token?_some hs
      exact .string
    · next hs =>
      cases hr
      obtain ⟨n, ts, rfl, rfl⟩ := token?_some hs
      exact .true
    · next hs =>
      cases hr
      obtain ⟨n, ts, rfl, rfl⟩ := token?_some hs
      exact .false
    · next hs =>
      split at hr
      · next hv =>
        cases hr
        obtain ⟨n, ts, rfl, rfl⟩ := token?_some hs
        obtain ⟨m, us, heq, rfl⟩ := token?_some hv
        cases heq
        exact .negative
      · cases hr
    · cases hr
  · intro h
    apply Yields.of
    rw [literal]
    cases h <;> rfl

theorem rawValue_leaves_iff {s t : Stream} {raw : Option Literal} :
    Leaves (rawValue s) raw t ↔ Reading.Given Reading.Literal s raw t := by
  constructor
  · rintro ⟨_, hr⟩
    rw [rawValue] at hr
    split at hr
    · next s₁ h₁ hc =>
      obtain ⟨⟨l, s₂, h₂⟩, hl, hr⟩ := bind_ok.1 hr
      cases hr
      obtain ⟨n, ts, rfl, rfl⟩ := operator?_some hc
      exact .item (literal_yields_iff.1 ⟨_, hl⟩)
    · next hc =>
      cases hr
      exact .none (operator?_none_iff.1 hc)
  · intro h
    apply Leaves.of
    rw [rawValue]
    cases h with
    | item h =>
      obtain ⟨_, h⟩ := literal_yields_iff.2 h
      simp only [operator?_cons, h, ok_bind]
      rfl
    | none h =>
      rw [operator?_none_iff.2 h]
      rfl

theorem enumCase_yields_iff {s t : Stream} {c : EnumCase} :
    Yields (enumCase s) c t ↔ Reading.EnumCase s c t := by
  constructor
  · rintro ⟨_, hr⟩
    rw [enumCase] at hr
    obtain ⟨⟨w, s₁, h₁⟩, hw, hr⟩ := bind_ok.1 hr
    obtain ⟨⟨as, s₂, h₂⟩, ha, hr⟩ := bind_ok.1 hr
    obtain ⟨⟨raw, s₃, h₃⟩, hv, hr⟩ := bind_ok.1 hr
    cases hr
    obtain ⟨n, ts, rfl, rfl⟩ := name_ok hw
    exact .intro (payload_leaves_iff.1 ⟨_, ha⟩) (rawValue_leaves_iff.1 ⟨_, hv⟩)
  · intro h
    apply Yields.of
    rw [enumCase]
    cases h with
    | intro h h' =>
      obtain ⟨_, h⟩ := payload_leaves_iff.2 h
      obtain ⟨_, h'⟩ := rawValue_leaves_iff.2 h'
      simp only [name_cons, h, h', ok_bind]
      rfl

theorem Reading.EnumCase.end_none {s t : Stream} {c : Syntax.EnumCase}
    (h : Reading.EnumCase s c t) : keyword? .end_ s = none := by
  cases h with
  | intro _ _ => exact keyword?_of_ne (by simp)

theorem reads_enumCases {s t : Stream} {cs : List EnumCase} {h : t.Follows s}
    (hr : enumCases s = .ok ⟨cs, t, h⟩) : Reading.EnumCases s cs t := by
  rw [enumCases] at hr
  split at hr
  · next s₁ h₁ he =>
    cases hr
    obtain ⟨n, ts, rfl, rfl⟩ := keyword?_some he
    exact .none
  · obtain ⟨⟨first, s₁, h₁⟩, hf, hr⟩ := bind_ok.1 hr
    have hf : Reading.EnumCase _ _ _ := enumCase_yields_iff.1 ⟨_, hf⟩
    dsimp only at hr
    split at hr
    · next s₂ h₂ hc =>
      have h₂' := h₂.trans h₁
      obtain ⟨⟨more, s₃, h₃⟩, hm, hr⟩ := bind_ok.1 hr
      cases hr
      have hm := reads_enumCases hm
      obtain ⟨n, ts, rfl, rfl⟩ := operator?_some hc
      exact .more hf hm
    · obtain ⟨⟨_, s₂, h₂⟩, he, hr⟩ := bind_ok.1 hr
      cases hr
      obtain ⟨n, ts, rfl, rfl⟩ := keyword_ok he
      exact .last hf
termination_by s.left.length
decreasing_by exact Stream.Follows.length_lt ‹_›

theorem yields_enumCases {s t : Stream} {cs : List EnumCase} (h : Reading.EnumCases s cs t) :
    Yields (enumCases s) cs t := by
  induction h with
  | none =>
    apply Yields.of
    rw [enumCases, keyword?_cons]
    rfl
  | more h _ ih =>
    have he := h.end_none
    obtain ⟨_, h⟩ := enumCase_yields_iff.2 h
    obtain ⟨_, ih⟩ := ih
    apply Yields.of
    rw [enumCases]
    simp only [he, h, operator?_cons, ih, ok_bind]
    rfl
  | last h =>
    have he := h.end_none
    obtain ⟨_, h⟩ := enumCase_yields_iff.2 h
    apply Yields.of
    rw [enumCases]
    simp only [he, h, keyword_cons, ok_bind,
      operator?_of_ne (by simp : Token.keyword .end_ ≠ .operator .comma)]
    rfl

end ScriptFront.Phrase
