import ScriptFront.Proofs.DeclarationReading
/-! The reader of chunks accepts what `Reading.Items` derives, and nothing else. -/
namespace ScriptFront.Phrase
open Syntax

def startsDeclaration : Token → Bool
  | .keyword .class_ | .keyword .protocol_ | .keyword .enum_ | .keyword .typealias_ => true
  | _ => false

theorem declaration?_of_stops {s : Stream} (h : s.Stops (startsDeclaration ·)) :
    declaration? s = none := by
  obtain ⟨n, _ | ⟨u, us⟩⟩ := s
  · rfl
  · have hu := Stream.stops_cons.1 h
    rw [declaration?, token?_cons]
    split
    iterate 4
      · next heq =>
        cases heq
        exact (hu rfl).elim
    · rfl

theorem reads_classDecl {s t : Stream} {d : ClassDecl} {h : t.Follows s}
    (hr : classDecl s = .ok ⟨d, t, h⟩) : Reading.Declaration s (.object (.ofClass d)) t := by
  rw [classDecl] at hr
  obtain ⟨⟨_, s₁, h₁⟩, hk, hr⟩ := bind_ok.1 hr
  obtain ⟨⟨w, s₂, h₂⟩, hw, hr⟩ := bind_ok.1 hr
  obtain ⟨⟨cs, s₃, h₃⟩, hc, hr⟩ := bind_ok.1 hr
  obtain ⟨⟨ms, s₄, h₄⟩, hm, hr⟩ := bind_ok.1 hr
  cases hr
  obtain ⟨n, ts, rfl, rfl⟩ := keyword_ok hk
  obtain ⟨m, us, heq, rfl⟩ := name_ok hw
  cases heq
  exact .ofClass (conformances_leaves_iff.1 ⟨_, hc⟩) (reads_classMembers hm)

theorem reads_protocolDecl {s t : Stream} {d : ProtocolDecl} {h : t.Follows s}
    (hr : protocolDecl s = .ok ⟨d, t, h⟩) :
    Reading.Declaration s (.object (.ofProtocol d)) t := by
  rw [protocolDecl] at hr
  obtain ⟨⟨_, s₁, h₁⟩, hk, hr⟩ := bind_ok.1 hr
  obtain ⟨⟨w, s₂, h₂⟩, hw, hr⟩ := bind_ok.1 hr
  obtain ⟨⟨cs, s₃, h₃⟩, hc, hr⟩ := bind_ok.1 hr
  obtain ⟨⟨ms, s₄, h₄⟩, hm, hr⟩ := bind_ok.1 hr
  cases hr
  obtain ⟨n, ts, rfl, rfl⟩ := keyword_ok hk
  obtain ⟨m, us, heq, rfl⟩ := name_ok hw
  cases heq
  exact .ofProtocol (conformances_leaves_iff.1 ⟨_, hc⟩) (reads_protocolMembers hm)

theorem reads_enumDecl {s t : Stream} {d : EnumDecl} {h : t.Follows s}
    (hr : enumDecl s = .ok ⟨d, t, h⟩) : Reading.Declaration s (.object (.ofEnum d)) t := by
  rw [enumDecl] at hr
  obtain ⟨⟨_, s₁, h₁⟩, hk, hr⟩ := bind_ok.1 hr
  obtain ⟨⟨w, s₂, h₂⟩, hw, hr⟩ := bind_ok.1 hr
  obtain ⟨⟨cs, s₃, h₃⟩, hc, hr⟩ := bind_ok.1 hr
  obtain ⟨⟨es, s₄, h₄⟩, hm, hr⟩ := bind_ok.1 hr
  cases hr
  obtain ⟨n, ts, rfl, rfl⟩ := keyword_ok hk
  obtain ⟨m, us, heq, rfl⟩ := name_ok hw
  cases heq
  exact .ofEnum (conformances_leaves_iff.1 ⟨_, hc⟩) (reads_enumCases hm)

theorem reads_aliasDecl {s t : Stream} {d : AliasDecl} {h : t.Follows s}
    (hr : aliasDecl s = .ok ⟨d, t, h⟩) : Reading.Declaration s (.typeAlias d) t := by
  rw [aliasDecl] at hr
  obtain ⟨⟨_, s₁, h₁⟩, hk, hr⟩ := bind_ok.1 hr
  obtain ⟨⟨w, s₂, h₂⟩, hw, hr⟩ := bind_ok.1 hr
  obtain ⟨⟨_, s₃, h₃⟩, hq, hr⟩ := bind_ok.1 hr
  obtain ⟨⟨type, s₄, h₄⟩, ht, hr⟩ := bind_ok.1 hr
  cases hr
  obtain ⟨n, ts, rfl, rfl⟩ := keyword_ok hk
  obtain ⟨m, us, heq, rfl⟩ := name_ok hw
  cases heq
  obtain ⟨m, us, heq, rfl⟩ := operator_ok hq
  cases heq
  exact .typeAlias ⟨_, ht⟩

theorem reads_declaration? {s t : Stream} {item : Item} {h : t.Follows s}
    {read : Except ParseError (Parsed s Item)} (hd : declaration? s = some read)
    (hr : read = .ok ⟨item, t, h⟩) : Reading.Declaration s item t := by
  rw [declaration?] at hd
  split at hd
  iterate 4
    · cases hd
      obtain ⟨⟨d, s₁, h₁⟩, hd, hr⟩ := bind_ok.1 hr
      cases hr
      first
        | exact reads_classDecl hd
        | exact reads_protocolDecl hd
        | exact reads_enumDecl hd
        | exact reads_aliasDecl hd
  · cases hd

theorem Reading.Declaration.head {s t : Stream} {item : Item} (h : Reading.Declaration s item t) :
    s.Starts startsDeclaration := by
  cases h with
  | ofClass _ _ => exact .intro rfl
  | ofProtocol _ _ => exact .intro rfl
  | ofEnum _ _ => exact .intro rfl
  | typeAlias _ => exact .intro rfl

theorem Reading.Declaration.found {s t : Stream} {item : Item}
    (h : Reading.Declaration s item t) : ∃ read, declaration? s = some read ∧ Yields read item t := by
  cases h with
  | ofClass h h' =>
    obtain ⟨_, h⟩ := conformances_leaves_iff.2 h
    obtain ⟨_, h'⟩ := yields_classMembers h'
    refine ⟨_, rfl, Yields.of ?_⟩
    rw [classDecl]
    simp only [keyword_cons, name_cons, h, h', ok_bind]
    rfl
  | ofProtocol h h' =>
    obtain ⟨_, h⟩ := conformances_leaves_iff.2 h
    obtain ⟨_, h'⟩ := yields_protocolMembers h'
    refine ⟨_, rfl, Yields.of ?_⟩
    rw [protocolDecl]
    simp only [keyword_cons, name_cons, h, h', ok_bind]
    rfl
  | ofEnum h h' =>
    obtain ⟨_, h⟩ := conformances_leaves_iff.2 h
    obtain ⟨_, h'⟩ := yields_enumCases h'
    refine ⟨_, rfl, Yields.of ?_⟩
    rw [enumDecl]
    simp only [keyword_cons, name_cons, h, h', ok_bind]
    rfl
  | typeAlias h =>
    obtain ⟨_, h⟩ := h
    refine ⟨_, rfl, Yields.of ?_⟩
    rw [aliasDecl]
    simp only [keyword_cons, name_cons, operator_cons, h, ok_bind]
    rfl

theorem reads_items {returned : Bool} {s : Stream} {c : Chunk} (hr : items returned s = .ok c) :
    Reading.Items returned s c := by
  rw [items] at hr
  split at hr
  · next read hd =>
    split at hr
    · cases hr
    · next hret =>
      obtain ⟨⟨first, s₁, h₁⟩, hf, hr⟩ := bind_ok.1 hr
      obtain ⟨more, hm, hr⟩ := bind_ok.1 hr
      cases hr
      rw [Bool.not_eq_true] at hret
      subst hret
      exact .declaration (reads_declaration? hd hf) (reads_items hm)
  · have h₁ := (semicolons s).rest_isRest
    dsimp only at hr
    split at hr
    · next hs =>
      cases hr
      refine .done ?_
      generalize (semicolons s).rest = p at hs
      obtain ⟨n, _ | ⟨u, us⟩⟩ := p
      · rfl
      · cases hs
    · split at hr
      · cases hr
      · next hret =>
        obtain ⟨⟨first, s₂, h₂⟩, hf, hr⟩ := bind_ok.1 hr
        have h₂' := h₂.ofRest h₁
        obtain ⟨more, hm, hr⟩ := bind_ok.1 hr
        cases hr
        rw [Bool.not_eq_true] at hret
        subst hret
        exact .statement (statement_yields_iff.1 ⟨_, hf⟩) (reads_items hm)
termination_by s.left.length
decreasing_by all_goals exact Stream.Follows.length_lt ‹_›

/-- A declaration keyword stands neither before semicolons nor at the start of a statement. -/
theorem declaration?_of_semicolons {s : Stream}
    (h : (semicolons s).rest.Stops (startsDeclaration ·)) : declaration? s = none := by
  exact declaration?_of_stops (stops_of_semicolons h (by simp [startsDeclaration]))

theorem startsDeclaration_of_startsStatement {u : Token} (h : startsStatement u) :
    ¬ startsDeclaration u := by
  intro hd
  unfold startsDeclaration at hd
  split at hd
  all_goals first
    | cases h
    | cases hd

theorem items_of_statement {s t : Stream} {stmt : Stmt}
    (h : Reading.Statement (semicolons s).rest stmt t) :
    items false s = (items stmt.isLast t).map (.statement stmt :: ·) := by
  obtain ⟨n, u, us, hs, hu⟩ := h.head
  have hd := startsDeclaration_of_startsStatement hu
  rw [items, declaration?_of_semicolons (by rw [hs]; exact Stream.stops_cons.2 hd)]
  generalize semicolons _ = p at h hs
  obtain ⟨_, s₂, h₁⟩ := p
  obtain rfl : s₂ = _ := hs
  obtain ⟨_, h⟩ := statement_yields_iff.2 h
  simp only [token?_cons, h, ok_bind]
  rfl

theorem accepts_items {returned : Bool} {s : Stream} {c : Chunk} (h : Reading.Items returned s c) :
    items returned s = .ok c := by
  induction h with
  | done h =>
    rw [items, declaration?_of_semicolons (by simp [Stream.Stops, h])]
    generalize semicolons _ = p at h
    obtain ⟨_, ⟨n, ts⟩, h₁⟩ := p
    obtain rfl : ts = [] := h
    rfl
  | declaration h _ ih =>
    obtain ⟨read, hd, _, hr⟩ := h.found
    rw [items, hd]
    simp only [hr, ih, ok_bind]
    rfl
  | statement h _ ih =>
    rw [items_of_statement h, ih]
    rfl

end ScriptFront.Phrase
