import ScriptFront.Proofs.BodyWalking
/-! The walks over declarations and chunks. The parser, moving its cursor, makes of all tokens the
chunk that the readers make. -/
namespace ScriptFront.Phrase
open Syntax Token

section
variable {ts us : List Token} {s : Stream} {i : TokenIndex} {u : Token}

theorem walks_expression_anywhere {floor : Nat} (hs : s.In ts) :
    Walks ts (.call (.expression floor)) s.next (expression floor s) Parsed.out :=
  (walksBelow ts _).expression (Nat.lt_succ_self _) hs

theorem walks_routine_anywhere (hs : s.In ts) :
    Walks ts (.call .routine) s.next (routine s) Parsed.out :=
  (walksBelow ts _).routine (Nat.lt_succ_self _) hs

theorem walks_conformanceList {s : Stream} (hs : s.In ts) :
    Walks ts (.call .conformanceList) s.next (conformanceList s) Parsed.out := by
  refine .call ?_
  rw [conformanceList, Procedure.walk, Walk.conformanceList]
  refine .bind (walks_name hs) ?_
  rintro ⟨w, s₁, h₁⟩ -
  have hs₁ := hs.follows h₁
  dsimp only [Parsed.outAt]
  split
  · next s₂ h₂ ho =>
    have h₂' := h₂.trans h₁
    exact .step (Walk.accept_some hs₁ ho)
      (.bind (walks_conformanceList (hs.follows h₂')) fun _ _ => .done rfl rfl)
  · next ho => exact .step (Walk.accept_none hs₁ ho) (.done rfl rfl)
termination_by s.left.length
decreasing_by exact Stream.Follows.length_lt ‹_›

theorem walks_conformances (hs : s.In ts) :
    Walks ts Walk.conformances s.next (conformances s) Trail.out := by
  rw [conformances, Walk.conformances]
  split
  · next s₁ h₁ ho =>
    exact .step (Walk.accept_some hs ho)
      (.handed (walks_conformanceList (hs.follows h₁)) fun _ => ⟨_, rfl, rfl⟩)
  · next ho => exact .step (Walk.accept_none hs ho) (.done rfl rfl)

theorem walks_initialValue (hs : s.In ts) :
    Walks ts Walk.initialValue s.next (initialValue s) Trail.out := by
  rw [initialValue, Walk.initialValue]
  split
  · next s₁ h₁ ho =>
    exact .step (Walk.accept_some hs ho)
      (.bind (walks_expression_anywhere (hs.follows h₁)) fun _ _ => .done rfl rfl)
  · next ho => exact .step (Walk.accept_none hs ho) (.done rfl rfl)

theorem walks_classMember (hs : Stream.In ⟨i, u :: us⟩ ts) :
    Walks ts (Walk.classMember i u) (i + 1) (classMember ⟨i, u :: us⟩) Parsed.out := by
  have hs₁ := hs.tail
  rw [classMember]
  split
  · next ht =>
    cases ht
    refine .bind (walks_name hs₁) ?_
    rintro ⟨w, s₂, h₂⟩ -
    have hs₂ := hs₁.follows h₂
    refine .bind (walks_operator hs₂) ?_
    rintro ⟨_, s₃, h₃⟩ -
    exact .bind (walks_expression_anywhere (hs₂.follows h₃)) fun _ _ => .done rfl rfl
  · next ht =>
    cases ht
    refine .bind (walks_name hs₁) ?_
    rintro ⟨w, s₂, h₂⟩ -
    exact .bind (walks_routine_anywhere (hs₁.follows h₂)) fun _ _ => .done rfl rfl
  · next ht =>
    cases ht
    refine .bind (walks_operator hs₁) ?_
    rintro ⟨_, s₂, h₂⟩ -
    have hs₂ := hs₁.follows h₂
    refine .bind (walks_typeExpr hs₂) ?_
    rintro ⟨type, s₃, h₃⟩ -
    exact .bind (walks_initialValue (hs₂.follows h₃)) fun _ _ => .done rfl rfl
  · next hdefault hfunction hname =>
    unfold Walk.classMember
    split
    · exact (hdefault _ _ rfl).elim
    · exact (hfunction _ _ rfl).elim
    · exact (hname _ _ _ rfl).elim
    · exact .error hs₁.le

/-- Members up to `end`, of whichever declaration. -/
theorem walks_members {α : Type} {f : Procedure (List α)} {walkOne : TokenIndex → Token → Walk α}
    {read : (s : Stream) → Except ParseError (Parsed s (List α))}
    {readOne : (s : Stream) → Except ParseError (Parsed s α)}
    (hwalk : f.walk = do
      let (i, u) ← Walk.next
      match keywordOf? .end_ u with
      | some _ => return []
      | none => do
        let first ← walkOne i u
        let more ← .call f
        return first :: more)
    (hread : ∀ s, read s = match keyword? .end_ s with
      | some ⟨_, s₁, h₁⟩ => return ⟨[], s₁, h₁⟩
      | none => do
        let ⟨first, s₁, h₁⟩ ← readOne s
        let ⟨more, s₂, h₂⟩ ← read s₁
        return ⟨first :: more, s₂, h₂.trans h₁⟩)
    (hend : ∀ i, readOne ⟨i, []⟩ = .error (.endOfInput i))
    (hone : ∀ {i u us}, Stream.In ⟨i, u :: us⟩ ts →
      Walks ts (walkOne i u) (i + 1) (readOne ⟨i, u :: us⟩) Parsed.out)
    {s : Stream} (hs : s.In ts) : Walks ts (.call f) s.next (read s) Parsed.out := by
  induction hn : s.left.length using Nat.strongRecOn generalizing s with
  | ind n ih =>
    subst hn
    refine .call ?_
    rw [hread, hwalk]
    obtain ⟨i, _ | ⟨u, us⟩⟩ := s
    · rw [keyword?_none_iff.2 Stream.stops_nil]
      dsimp only
      rw [hend]
      exact ⟨i, hs.le, (Walk.next_nil hs).bind_error⟩
    · refine .step (Walk.next_cons hs) ?_
      dsimp only
      cases hu : keywordOf? .end_ u with
      | some _ =>
        have hk : keyword? .end_ ⟨i, u :: us⟩ = _ := tokenWith?_cons hu
        rw [hk]
        exact .done rfl rfl
      | none =>
        have hk : keyword? .end_ ⟨i, u :: us⟩ = _ := tokenWith?_of_none hu
        rw [hk]
        refine .bind (hone hs) ?_
        rintro ⟨first, s₁, h₁⟩ -
        exact .bind (ih _ h₁.length_lt (hs.follows h₁) rfl) fun _ _ => .done rfl rfl

theorem walks_classMembers (hs : s.In ts) :
    Walks ts (.call .classMembers) s.next (classMembers s) Parsed.out :=
  walks_members rfl classMembers.eq_def (fun _ => rfl) walks_classMember hs

theorem walks_classDecl (hs : s.In ts) :
    Walks ts Walk.classDecl s.next (classDecl s) Parsed.out := by
  refine .bind (walks_keyword hs) ?_
  rintro ⟨_, s₁, h₁⟩ -
  refine .bind (walks_name (hs.follows h₁)) ?_
  rintro ⟨w, s₂, h₂⟩ -
  have hs₂ := hs.follows (h₂.trans h₁)
  refine .bind (walks_conformances hs₂) ?_
  rintro ⟨conforms, s₃, h₃⟩ -
  exact .bind (walks_classMembers (hs₂.rest h₃)) fun _ _ => .done rfl rfl

theorem walks_protocolMember (hs : Stream.In ⟨i, u :: us⟩ ts) :
    Walks ts (Walk.protocolMember i u) (i + 1) (protocolMember ⟨i, u :: us⟩) Parsed.out := by
  have hs₁ := hs.tail
  rw [protocolMember]
  split
  · next ht =>
    cases ht
    refine .bind (walks_name hs₁) ?_
    rintro ⟨w, s₂, h₂⟩ -
    exact .bind (walks_signature (hs₁.follows h₂)) fun _ _ => .done rfl rfl
  · next ht =>
    cases ht
    refine .bind (walks_operator hs₁) ?_
    rintro ⟨_, s₂, h₂⟩ -
    exact .bind (walks_typeExpr (hs₁.follows h₂)) fun _ _ => .done rfl rfl
  · next hfunction hname =>
    unfold Walk.protocolMember
    split
    · exact (hfunction _ _ rfl).elim
    · exact (hname _ _ _ rfl).elim
    · exact .error hs₁.le

theorem walks_protocolMembers (hs : s.In ts) :
    Walks ts (.call .protocolMembers) s.next (protocolMembers s) Parsed.out :=
  walks_members rfl protocolMembers.eq_def (fun _ => rfl)
    walks_protocolMember hs

theorem walks_protocolDecl (hs : s.In ts) :
    Walks ts Walk.protocolDecl s.next (protocolDecl s) Parsed.out := by
  refine .bind (walks_keyword hs) ?_
  rintro ⟨_, s₁, h₁⟩ -
  refine .bind (walks_name (hs.follows h₁)) ?_
  rintro ⟨w, s₂, h₂⟩ -
  have hs₂ := hs.follows (h₂.trans h₁)
  refine .bind (walks_conformances hs₂) ?_
  rintro ⟨conforms, s₃, h₃⟩ -
  exact .bind (walks_protocolMembers (hs₂.rest h₃)) fun _ _ => .done rfl rfl

theorem walks_typeLabel? (hs : s.In ts) :
    Walks ts Walk.typeLabel? s.next (.ok (typeLabel? s)) Parsed.out? := by
  refine .step (Walk.labelAhead_comes hs) ?_
  cases hl : typeLabel? s with
  | none => exact .done rfl rfl
  | some l =>
    obtain ⟨w, s₂, h₂⟩ := l
    obtain ⟨i, us, rfl, rfl⟩ := typeLabel?_some hl
    exact .step Walk.skip_comes (.step Walk.skip_comes (.done rfl rfl))

theorem walks_associatedType (hs : s.In ts) :
    Walks ts Walk.associatedType s.next (associatedType s) Parsed.out := by
  have hlabel := walks_typeLabel? hs
  rw [associatedType]
  split
  · next label s₁ h₁ hl =>
    rw [hl] at hlabel
    exact .step hlabel (.bind (walks_typeExpr (hs.follows h₁)) fun _ _ => .done rfl rfl)
  · next hl =>
    rw [hl] at hlabel
    exact .step hlabel (.bind (walks_typeExpr hs) fun _ _ => .done rfl rfl)

theorem walks_associatedTypes {s : Stream} (hs : s.In ts) :
    Walks ts (.call .associatedTypes) s.next (associatedTypes s) Parsed.out := by
  refine .call ?_
  rw [associatedTypes, Procedure.walk, Walk.associatedTypes]
  refine .bind (walks_associatedType hs) ?_
  rintro ⟨first, s₁, h₁⟩ -
  have hs₁ := hs.follows h₁
  dsimp only [Parsed.out]
  split
  · next ho => exact .step (Walk.accept_some hs₁ ho) (.done rfl rfl)
  · next ho =>
    refine .step (Walk.accept_none hs₁ ho) (.bind (walks_operator hs₁) ?_)
    rintro ⟨_, s₂, h₂⟩ -
    have h₂' := h₂.trans h₁
    exact .bind (walks_associatedTypes (hs.follows h₂')) fun _ _ => .done rfl rfl
termination_by s.left.length
decreasing_by exact Stream.Follows.length_lt ‹_›

theorem walks_payload (hs : s.In ts) : Walks ts Walk.payload s.next (payload s) Trail.out := by
  rw [payload, Walk.payload]
  split
  · next s₁ h₁ ho =>
    have hs₁ := hs.follows h₁
    refine .step (Walk.accept_some hs ho) ?_
    dsimp only
    split
    · next ho => exact .step (Walk.accept_some hs₁ ho) (.done rfl rfl)
    · next ho =>
      exact .step (Walk.accept_none hs₁ ho)
        (.handed (walks_associatedTypes hs₁) fun _ => ⟨_, rfl, rfl⟩)
  · next ho => exact .step (Walk.accept_none hs ho) (.done rfl rfl)

theorem walks_literal (hs : s.In ts) : Walks ts Walk.literal s.next (literal s) Parsed.out := by
  rw [literal]
  split
  · next ht => exact .step (Walk.next_some hs ht) (.done rfl rfl)
  · next ht => exact .step (Walk.next_some hs ht) (.done rfl rfl)
  · next ht => exact .step (Walk.next_some hs ht) (.done rfl rfl)
  · next ht => exact .step (Walk.next_some hs ht) (.done rfl rfl)
  · next s₁ h₁ ht =>
    have hs₁ := hs.follows h₁
    refine .step (Walk.next_some hs ht) ?_
    dsimp only
    split
    · next ht => exact .step (Walk.next_some hs₁ ht) (.done rfl rfl)
    · next hnumber =>
      refine .unexpected hs₁ fun u t h hu => ?_
      dsimp only
      split
      · exact (hnumber _ _ _ hu).elim
      · rfl
  · next hnumber hstring htrue hfalse hminus =>
    refine .unexpected hs fun u t h hu => ?_
    dsimp only
    split
    · exact (hnumber _ _ _ hu).elim
    · exact (hminus _ _ hu).elim
    · exact (hstring _ _ _ hu).elim
    · exact (htrue _ _ hu).elim
    · exact (hfalse _ _ hu).elim
    · rfl

theorem walks_rawValue (hs : s.In ts) :
    Walks ts Walk.rawValue s.next (rawValue s) Trail.out := by
  rw [rawValue, Walk.rawValue]
  split
  · next s₁ h₁ ho =>
    exact .step (Walk.accept_some hs ho)
      (.bind (walks_literal (hs.follows h₁)) fun _ _ => .done rfl rfl)
  · next ho => exact .step (Walk.accept_none hs ho) (.done rfl rfl)

theorem walks_enumCase (hs : s.In ts) :
    Walks ts Walk.enumCase s.next (enumCase s) Parsed.out := by
  refine .bind (walks_name hs) ?_
  rintro ⟨w, s₁, h₁⟩ -
  have hs₁ := hs.follows h₁
  refine .bind (walks_payload hs₁) ?_
  rintro ⟨associated, s₂, h₂⟩ -
  exact .bind (walks_rawValue (hs₁.rest h₂)) fun _ _ => .done rfl rfl

theorem walks_enumCases {s : Stream} (hs : s.In ts) :
    Walks ts (.call .enumCases) s.next (enumCases s) Parsed.out := by
  refine .call ?_
  rw [enumCases, Procedure.walk, Walk.enumCases]
  split
  · next ho => exact .step (Walk.accept_some hs ho) (.done rfl rfl)
  · next ho =>
    refine .step (Walk.accept_none hs ho) (.bind (walks_enumCase hs) ?_)
    rintro ⟨first, s₁, h₁⟩ -
    have hs₁ := hs.follows h₁
    dsimp only [Parsed.out]
    split
    · next s₂ h₂ ho =>
      have h₂' := h₂.trans h₁
      exact .step (Walk.accept_some hs₁ ho)
        (.bind (walks_enumCases (hs.follows h₂')) fun _ _ => .done rfl rfl)
    · next ho =>
      exact .step (Walk.accept_none hs₁ ho) (.bind (walks_keyword hs₁) fun _ _ => .done rfl rfl)
termination_by s.left.length
decreasing_by exact Stream.Follows.length_lt ‹_›

theorem walks_enumDecl (hs : s.In ts) :
    Walks ts Walk.enumDecl s.next (enumDecl s) Parsed.out := by
  refine .bind (walks_keyword hs) ?_
  rintro ⟨_, s₁, h₁⟩ -
  refine .bind (walks_name (hs.follows h₁)) ?_
  rintro ⟨w, s₂, h₂⟩ -
  have hs₂ := hs.follows (h₂.trans h₁)
  refine .bind (walks_conformances hs₂) ?_
  rintro ⟨conforms, s₃, h₃⟩ -
  exact .bind (walks_enumCases (hs₂.rest h₃)) fun _ _ => .done rfl rfl

theorem walks_aliasDecl (hs : s.In ts) :
    Walks ts Walk.aliasDecl s.next (aliasDecl s) Parsed.out := by
  refine .bind (walks_keyword hs) ?_
  rintro ⟨_, s₁, h₁⟩ -
  refine .bind (walks_name (hs.follows h₁)) ?_
  rintro ⟨w, s₂, h₂⟩ -
  have hs₂ := hs.follows (h₂.trans h₁)
  refine .bind (walks_operator hs₂) ?_
  rintro ⟨_, s₃, h₃⟩ -
  exact .bind (walks_typeExpr (hs₂.follows h₃)) fun _ _ => .done rfl rfl

theorem walks_declaration? (hs : Stream.In ⟨i, u :: us⟩ ts) :
    Option.Rel (fun read walk => Walks ts walk i read Parsed.out)
      (declaration? ⟨i, u :: us⟩) (Walk.declaration? u) := by
  rw [declaration?]
  split
  · next ht =>
    cases ht
    exact .some (.bind (walks_classDecl hs) fun _ _ => .done rfl rfl)
  · next ht =>
    cases ht
    exact .some (.bind (walks_protocolDecl hs) fun _ _ => .done rfl rfl)
  · next ht =>
    cases ht
    exact .some (.bind (walks_enumDecl hs) fun _ _ => .done rfl rfl)
  · next ht =>
    cases ht
    exact .some (.bind (walks_aliasDecl hs) fun _ _ => .done rfl rfl)
  · next hclass hprotocol henum halias =>
    unfold Walk.declaration?
    split
    · exact (hclass _ _ rfl).elim
    · exact (hprotocol _ _ rfl).elim
    · exact (henum _ _ rfl).elim
    · exact (halias _ _ rfl).elim
    · exact .none

/-- The cursor after a chunk: behind the last token. -/
def outChunk (ts : List Token) (c : Chunk) : Chunk × Stream := (c, ⟨ts.length, []⟩)

/-- Where no declaration is next, none is under the cursor. -/
theorem Walk.peek_undeclared (hs : s.In ts) (hd : Phrase.declaration? s = none) :
    ∃ found, Comes peek ⟨ts, s.next⟩ (.ok found) ⟨ts, s.next⟩ ∧
      (found.bind fun (i, u) => (declaration? u).map (i, ·)) = none := by
  obtain ⟨i, _ | ⟨u, us⟩⟩ := s
  · exact ⟨none, peek_nil hs, rfl⟩
  · refine ⟨some (i, u), peek_cons hs, ?_⟩
    have h := walks_declaration? hs
    rw [hd] at h
    cases hw : declaration? u with
    | none => simp [hw]
    | some _ =>
      rw [hw] at h
      cases h

theorem walks_items {returned : Bool} {s : Stream} (hs : s.In ts) :
    Walks ts (.call (.items returned)) s.next (items returned s) (outChunk ts) := by
  induction hn : s.left.length using Nat.strongRecOn generalizing returned s with
  | ind n ih =>
    subst hn
    refine .call ?_
    rw [items, Procedure.walk, Walk.items]
    cases hd : declaration? s with
    | some read =>
      obtain ⟨i, _ | ⟨u, us⟩⟩ := s
      · cases hd
      · have hread := walks_declaration? hs
        rw [hd] at hread
        refine .step (Walk.peek_cons hs) ?_
        cases hw : Walk.declaration? u with
        | none =>
          rw [hw] at hread
          cases hread
        | some walk =>
          rw [hw] at hread
          obtain ⟨hread⟩ | _ := hread
          simp only [Option.bind_some, hw, Option.map_some]
          cases returned with
          | true => exact .error hs.le
          | false =>
            refine .bind hread ?_
            rintro ⟨first, s₁, h₁⟩ -
            exact .bind (ih _ h₁.length_lt (hs.follows h₁) rfl) fun _ _ => .done rfl rfl
    | none =>
      obtain ⟨found, hpeek, hfound⟩ := Walk.peek_undeclared hs hd
      refine .step hpeek ?_
      dsimp only
      rw [hfound]
      have hfirst : Walks ts (Walk.statement? none returned) s.next (statement? none returned s)
          outStatement? := walks_statement? (walksBelow ts _) hs
      rw [statement?] at hfirst
      generalize semicolons s = p at hfirst ⊢
      obtain ⟨⟨⟩, s₁, h₁⟩ := p
      have hs₁ := hs.rest h₁
      obtain ⟨i, _ | ⟨u, us⟩⟩ := s₁
      · have hi : i = ts.length := hs₁.next_add
        subst hi
        exact .step hfirst (.done rfl rfl)
      · dsimp only [token?_cons, Option.bind_none] at hfirst ⊢
        cases returned with
        | true => exact .stop hfirst
        | false =>
          refine .bind_map hfirst ?_
          rintro ⟨first, s₂, h₂⟩ -
          have h₂' := h₂.ofRest h₁
          exact .bind (ih _ h₂'.length_lt (hs.follows h₂') rfl) fun _ _ => .done rfl rfl

theorem walks_chunk (ts : List Token) :
    Walks ts (.call .chunk) 0 (chunk ts) (outChunk ts) := .call (walks_items (.whole ts))

/-- A block that only the end closes; no reader asks for one. -/
theorem walks_openBlock (returned : Bool) {s : Stream} (hs : s.In ts) :
    ∃ r : Except ParseError (Trail s Block),
      Walks ts (.call (.block none returned)) s.next r Trail.out := by
  have hfirst : Walks ts (Walk.statement? none returned) s.next (statement? none returned s)
      outStatement? := walks_statement? (walksBelow ts _) hs
  cases hx : statement? none returned s with
  | error e =>
    rw [hx] at hfirst
    exact ⟨.error e, .call (.stop hfirst)⟩
  | ok found =>
    rw [hx] at hfirst
    cases found with
    | inl p =>
      have h₁ := p.rest_follows
      obtain ⟨r, hr⟩ := walks_openBlock (returned || p.value.isLast) (hs.follows h₁)
      have hfollows (t : Trail p.rest Block) := (t.rest_isRest.follows h₁).isRest
      refine ⟨r >>= fun t => .ok ⟨p.value :: t.value, t.rest, hfollows t⟩, ?_⟩
      exact .call (.step hfirst (.bind hr fun _ _ => .done rfl rfl))
    | inr t => exact ⟨.ok ⟨[], t.rest, t.rest_isRest⟩, .call (.step hfirst (.done rfl rfl))⟩
termination_by s.left.length
decreasing_by exact Stream.Follows.length_lt ‹_›

end

end ScriptFront.Phrase
