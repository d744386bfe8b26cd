import ScriptFront.Proofs.TypeReading
/-! The readers of annotated names, signatures and paths accept what `Reading` derives, and nothing
else. -/
namespace ScriptFront.Phrase
open Syntax

theorem reads_typedName {s t : Stream} {p : TypedName} {h : t.Follows s}
    (hr : typedName s = .ok ⟨p, t, h⟩) : Reading.TypedName s p t := by
  rw [typedName] at hr
  obtain ⟨⟨w, s₁, h₁⟩, hw, hr⟩ := bind_ok.1 hr
  obtain ⟨n, ts, rfl, rfl⟩ := name_ok hw
  dsimp only at hr
  split at hr
  · next s₂ h₂ hc =>
    obtain ⟨⟨type, s₃, h₃⟩, ht, hr⟩ := bind_ok.1 hr
    cases hr
    obtain ⟨m, us, heq, rfl⟩ := operator?_some hc
    cases heq
    exact .typed ⟨_, ht⟩
  · next hc =>
    cases hr
    exact .plain (operator?_none_iff.1 hc)

theorem Reading.TypedName.yields {s t : Stream} {p : Syntax.TypedName}
    (h : Reading.TypedName s p t) : Yields (typedName s) p t := by
  apply Yields.of
  rw [typedName]
  cases h with
  | typed h =>
    obtain ⟨_, h⟩ := h
    simp only [name_cons, ok_bind, operator?_cons, h]
    rfl
  | plain h =>
    simp only [name_cons, ok_bind, operator?_none_iff.2 h]
    rfl

theorem reads_typedNames {s t : Stream} {ps : List TypedName} {h : t.Follows s}
    (hr : typedNames s = .ok ⟨ps, t, h⟩) : Reading.Listed Reading.TypedName s ps t := by
  rw [typedNames] at hr
  obtain ⟨⟨first, s₁, h₁⟩, hf, hr⟩ := bind_ok.1 hr
  dsimp only at hr
  split at hr
  · next s₂ h₂ hc =>
    have h₂' := h₂.trans h₁
    obtain ⟨⟨more, s₃, h₃⟩, hm, hr⟩ := bind_ok.1 hr
    cases hr
    have hm := reads_typedNames hm
    obtain ⟨n, ts, rfl, rfl⟩ := operator?_some hc
    exact .more (reads_typedName hf) hm
  · next hc =>
    cases hr
    exact .last (reads_typedName hf) (operator?_none_iff.1 hc)
termination_by s.left.length
decreasing_by exact Stream.Follows.length_lt ‹_›

theorem yields_typedNames {s t : Stream} {ps : List TypedName}
    (h : Reading.Listed Reading.TypedName s ps t) : Yields (typedNames s) ps t := by
  induction h with
  | last hf hc =>
    obtain ⟨_, hf⟩ := hf.yields
    apply Yields.of
    rw [typedNames]
    simp only [hf, ok_bind, operator?_none_iff.2 hc]
    rfl
  | more hf _ ih =>
    obtain ⟨_, hf⟩ := hf.yields
    obtain ⟨_, ih⟩ := ih
    apply Yields.of
    rw [typedNames]
    simp only [hf, ok_bind, operator?_cons, ih]
    rfl

theorem reads_typeExprs {s t : Stream} {types : List TypeExpr} {h : t.Follows s}
    (hr : typeExprs s = .ok ⟨types, t, h⟩) : Reading.Listed Reading.Annotation s types t := by
  rw [typeExprs] at hr
  obtain ⟨⟨first, s₁, h₁⟩, hf, hr⟩ := bind_ok.1 hr
  dsimp only at hr
  split at hr
  · next s₂ h₂ hc =>
    have h₂' := h₂.trans h₁
    obtain ⟨⟨more, s₃, h₃⟩, hm, hr⟩ := bind_ok.1 hr
    cases hr
    have hm := reads_typeExprs hm
    obtain ⟨n, ts, rfl, rfl⟩ := operator?_some hc
    exact .more ⟨_, hf⟩ hm
  · next hc =>
    cases hr
    exact .last ⟨_, hf⟩ (operator?_none_iff.1 hc)
termination_by s.left.length
decreasing_by exact Stream.Follows.length_lt ‹_›

theorem yields_typeExprs {s t : Stream} {types : List TypeExpr}
    (h : Reading.Listed Reading.Annotation s types t) : Yields (typeExprs s) types t := by
  induction h with
  | last hf hc =>
    obtain ⟨_, hf⟩ := hf
    apply Yields.of
    rw [typeExprs]
    simp only [hf, ok_bind, operator?_none_iff.2 hc]
    rfl
  | more hf _ ih =>
    obtain ⟨_, hf⟩ := hf
    obtain ⟨_, ih⟩ := ih
    apply Yields.of
    rw [typeExprs]
    simp only [hf, ok_bind, operator?_cons, ih]
    rfl

theorem reads_returnTypes {s t : Stream} {types : List TypeExpr} {h : t.IsRest s}
    (hr : returnTypes s = .ok ⟨types, t, h⟩) : Reading.Clause Reading.Annotation s types t := by
  rw [returnTypes] at hr
  split at hr
  · next s₁ h₁ hc =>
    obtain ⟨⟨types, s₂, h₂⟩, ht, hr⟩ := bind_ok.1 hr
    cases hr
    obtain ⟨n, ts, rfl, rfl⟩ := operator?_some hc
    exact .list (reads_typeExprs ht)
  · next hc =>
    cases hr
    exact .none (operator?_none_iff.1 hc)

theorem leaves_returnTypes {s t : Stream} {types : List TypeExpr}
    (h : Reading.Clause Reading.Annotation s types t) : Leaves (returnTypes s) types t := by
  apply Leaves.of
  rw [returnTypes]
  cases h with
  | list h =>
    obtain ⟨_, h⟩ := yields_typeExprs h
    simp only [operator?_cons, h, ok_bind]
    rfl
  | none h =>
    simp only [operator?_none_iff.2 h]
    rfl

theorem reads_parameters {s t : Stream} {ps : List TypedName} {isVariadic : Bool}
    {h : t.Follows s} (hr : parameters s = .ok ⟨(ps, isVariadic), t, h⟩) :
    Reading.Parameters s ps isVariadic t := by
  rw [parameters] at hr
  split at hr
  · next s₁ h₁ hd =>
    obtain ⟨⟨_, s₂, h₂⟩, hb, hr⟩ := bind_ok.1 hr
    cases hr
    obtain ⟨n, ts, rfl, rfl⟩ := operator?_some hd
    obtain ⟨m, us, heq, rfl⟩ := operator_ok hb
    cases heq
    exact .variadic
  · obtain ⟨⟨first, s₁, h₁⟩, hf, hr⟩ := bind_ok.1 hr
    dsimp only at hr
    split at hr
    · next s₂ h₂ hb =>
      cases hr
      obtain ⟨n, ts, rfl, rfl⟩ := operator?_some hb
      exact .last (reads_typedName hf)
    · obtain ⟨⟨_, s₂, h₂⟩, hc, hr⟩ := bind_ok.1 hr
      have h₂' := h₂.trans h₁
      obtain ⟨⟨⟨more, isVariadic⟩, s₃, h₃⟩, hm, hr⟩ := bind_ok.1 hr
      cases hr
      have hm := reads_parameters hm
      obtain ⟨n, ts, rfl, rfl⟩ := operator_ok hc
      exact .more (reads_typedName hf) hm
termination_by s.left.length
decreasing_by exact Stream.Follows.length_lt ‹_›

theorem Reading.TypedName.head {s t : Stream} {p : Syntax.TypedName}
    (h : Reading.TypedName s p t) : ∃ ts, s = ⟨s.next, .name p.name :: ts⟩ := by
  cases h with
  | typed _ => exact ⟨_, rfl⟩
  | plain _ => exact ⟨_, rfl⟩

theorem Reading.TypedName.operator?_none {s t : Stream} {p : Syntax.TypedName}
    (h : Reading.TypedName s p t) (o : Operator) : operator? o s = none := by
  obtain ⟨ts, hs⟩ := h.head
  rw [hs]
  exact operator?_of_ne (by simp)

theorem yields_parameters {s t : Stream} {ps : List TypedName} {isVariadic : Bool}
    (h : Reading.Parameters s ps isVariadic t) : Yields (parameters s) (ps, isVariadic) t := by
  induction h with
  | variadic =>
    apply Yields.of
    rw [parameters]
    simp only [operator?_cons, operator_cons, ok_bind]
    rfl
  | last hf =>
    obtain ⟨_, hr⟩ := hf.yields
    apply Yields.of
    rw [parameters]
    simp only [hf.operator?_none, hr, ok_bind, operator?_cons]
    rfl
  | more hf _ ih =>
    obtain ⟨_, hr⟩ := hf.yields
    obtain ⟨_, ih⟩ := ih
    apply Yields.of
    rw [parameters]
    simp only [hf.operator?_none, hr, ok_bind, operator_cons, ih,
      operator?_of_ne (by simp : Token.operator .comma ≠ .operator .roundRight)]
    rfl

theorem reads_signature {s t : Stream} {sig : Signature} {h : t.Follows s}
    (hr : signature s = .ok ⟨sig, t, h⟩) : Reading.Signature s sig t := by
  rw [signature] at hr
  obtain ⟨⟨_, s₁, h₁⟩, hb, hr⟩ := bind_ok.1 hr
  obtain ⟨n, ts, rfl, rfl⟩ := operator_ok hb
  dsimp only at hr
  split at hr
  · next s₂ h₂ hc =>
    obtain ⟨⟨returns, s₃, h₃⟩, ht, hr⟩ := bind_ok.1 hr
    cases hr
    have ht := reads_returnTypes ht
    obtain ⟨m, us, heq, rfl⟩ := operator?_some hc
    cases heq
    exact .none ht
  · obtain ⟨⟨⟨ps, isVariadic⟩, s₂, h₂⟩, hp, hr⟩ := bind_ok.1 hr
    obtain ⟨⟨returns, s₃, h₃⟩, ht, hr⟩ := bind_ok.1 hr
    cases hr
    exact .list (reads_parameters hp) (reads_returnTypes ht)

theorem Reading.Parameters.operator?_none {s t : Stream} {ps : List Syntax.TypedName}
    {isVariadic : Bool} (h : Reading.Parameters s ps isVariadic t) :
    operator? .roundRight s = none := by
  cases h with
  | variadic => exact operator?_of_ne (by simp)
  | last h => exact h.operator?_none _
  | more h _ => exact h.operator?_none _

theorem Reading.Signature.yields {s t : Stream} {sig : Syntax.Signature}
    (h : Reading.Signature s sig t) : Yields (signature s) sig t := by
  apply Yields.of
  rw [signature]
  cases h with
  | none h =>
    obtain ⟨_, h⟩ := leaves_returnTypes h
    simp only [operator_cons, ok_bind, operator?_cons, h]
    rfl
  | list hp h =>
    have hb := hp.operator?_none
    obtain ⟨_, hp⟩ := yields_parameters hp
    obtain ⟨_, h⟩ := leaves_returnTypes h
    simp only [operator_cons, ok_bind, hb, hp, h]
    rfl

theorem reads_path {s t : Stream} {ws : List String} {isMethod : Bool} {h : t.Follows s}
    (hr : path s = .ok ⟨(ws, isMethod), t, h⟩) : Reading.Path s ws isMethod t := by
  rw [path] at hr
  obtain ⟨⟨first, s₁, h₁⟩, hf, hr⟩ := bind_ok.1 hr
  dsimp only at hr
  split at hr
  · next s₂ h₂ hd =>
    have h₂' := h₂.trans h₁
    obtain ⟨⟨⟨more, isMethod⟩, s₃, h₃⟩, hm, hr⟩ := bind_ok.1 hr
    cases hr
    have hm := reads_path hm
    obtain ⟨n, ts, rfl, rfl⟩ := name_ok hf
    obtain ⟨m, us, heq, rfl⟩ := token?_some hd
    cases heq
    exact .field hm
  · next s₂ h₂ hc =>
    obtain ⟨⟨method, s₃, h₃⟩, hm, hr⟩ := bind_ok.1 hr
    cases hr
    obtain ⟨n, ts, rfl, rfl⟩ := name_ok hf
    obtain ⟨m, us, heq, rfl⟩ := token?_some hc
    cases heq
    obtain ⟨m, us, heq, rfl⟩ := name_ok hm
    cases heq
    exact .method
  · next hd hc =>
    cases hr
    obtain ⟨n, ts, rfl, rfl⟩ := name_ok hf
    refine .last ?_
    cases ts with
    | nil => exact Stream.stops_nil
    | cons u us =>
      rw [Stream.stops_cons]
      rintro (rfl | rfl)
      · exact hd _ _ rfl
      · exact hc _ _ rfl
termination_by s.left.length
decreasing_by exact Stream.Follows.length_lt ‹_›

theorem yields_path {s t : Stream} {ws : List String} {isMethod : Bool}
    (h : Reading.Path s ws isMethod t) : Yields (path s) (ws, isMethod) t := by
  induction h with
  | field _ ih =>
    obtain ⟨_, ih⟩ := ih
    apply Yields.of
    rw [path]
    simp only [name_cons, ok_bind, token?_cons, ih]
    rfl
  | method =>
    apply Yields.of
    rw [path]
    simp only [name_cons, ok_bind, token?_cons]
    rfl
  | @last n ts w hs =>
    apply Yields.of
    rw [path]
    simp only [name_cons, ok_bind]
    cases ts with
    | nil => rfl
    | cons u us =>
      have hu := Stream.stops_cons.1 hs
      rw [token?_cons]
      split
      · next heq =>
        cases heq
        exact absurd (.inl rfl) hu
      · next heq =>
        cases heq
        exact absurd (.inr rfl) hu
      · rfl

theorem toOption_some_iff {ε α : Type} {x : Except ε α} {a : α} :
    x.toOption = some a ↔ x = .ok a := by
  cases x <;> simp [Except.toOption]

theorem reads_typedTarget? {s t : Stream} {p : TypedName} {h : t.Follows s}
    (hr : typedTarget? s = some ⟨p, t, h⟩) : Reading.TypedTarget s p t := by
  obtain ⟨⟨w, s₁, h₁⟩, hw, hr⟩ := Option.bind_eq_some_iff.1 hr
  obtain ⟨⟨_, s₂, h₂⟩, hc, hr⟩ := Option.bind_eq_some_iff.1 hr
  obtain ⟨⟨type, s₃, h₃⟩, ht, hr⟩ := Option.bind_eq_some_iff.1 hr
  dsimp only at hr
  obtain ⟨n, ts, rfl, rfl⟩ := name?_some hw
  obtain ⟨m, us, heq, rfl⟩ := operator?_some hc
  cases heq
  have ht : Reading.Annotation _ _ _ := ⟨_, toOption_some_iff.1 ht⟩
  split at hr
  · next hu =>
    cases hr
    obtain ⟨m, us, rfl, rfl⟩ := token?_some hu
    exact .intro ht (.inl rfl)
  · next hu =>
    cases hr
    obtain ⟨m, us, rfl, rfl⟩ := token?_some hu
    exact .intro ht (.inr rfl)
  · cases hr

theorem found_of {s t : Stream} {α : Type} {x : Option (Parsed s α)} {v : α}
    (h : x.map (fun p => (p.value, p.rest)) = some (v, t)) : ∃ h, x = some ⟨v, t, h⟩ := by
  cases x with
  | none => cases h
  | some p =>
    cases h
    exact ⟨_, rfl⟩

theorem Reading.TypedTarget.found {s t : Stream} {p : Syntax.TypedName}
    (h : Reading.TypedTarget s p t) : ∃ h, typedTarget? s = some ⟨p, t, h⟩ := by
  obtain ⟨⟨_, ht⟩, hu⟩ := h
  apply found_of
  simp only [typedTarget?, name?_cons, operator?_cons, ht, Option.bind_eq_bind, Option.bind_some,
    Except.toOption, token?_cons]
  rcases hu with rfl | rfl
  · rfl
  · rfl

end ScriptFront.Phrase
