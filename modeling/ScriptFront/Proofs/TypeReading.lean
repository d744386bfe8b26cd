import ScriptFront.Proofs.Anchor
import ScriptFront.Proofs.Reading
import ScriptFront.Proofs.Spelling
/-! What the reader of types accepts: the spelling of a type, as far as it goes, with the anchors
that the places of its tokens give it. -/
namespace ScriptFront

/-- A type with the anchors that it has where its spelling starts at token `n`. -/
def Syntax.TypeExpr.place (n : TokenIndex) : Syntax.TypeExpr → Syntax.TypeExpr
  | .name _ w => .name n w
  | .member _ p w => .member n p w
  | .optional _ t => .optional n (t.place n)
  | .array _ t => .array n (t.place (n + 1))
  | .dictionary _ k v =>
    .dictionary n (k.place (n + 1)) (v.place (n + 1 + k.spelling.length + 1))

namespace Phrase
open Syntax Phrase.Stream

theorem spelling_place (n : TokenIndex) (type : TypeExpr) :
    (type.place n).spelling = type.spelling := by
  induction type generalizing n with
  | name i w => rfl
  | member i p w => rfl
  | optional i t ih => simp [TypeExpr.place, TypeExpr.spelling, ih]
  | array i t ih => simp [TypeExpr.place, TypeExpr.spelling, ih]
  | dictionary i k v ihk ihv => simp [TypeExpr.place, TypeExpr.spelling, ihk, ihv]

theorem place_place (m n : TokenIndex) (type : TypeExpr) :
    (type.place m).place n = type.place n := by
  induction type generalizing m n with
  | name i w => rfl
  | member i p w => rfl
  | optional i t ih => simp [TypeExpr.place, ih]
  | array i t ih => simp [TypeExpr.place, ih]
  | dictionary i k v ihk ihv => simp [TypeExpr.place, spelling_place, ihk, ihv]

theorem forget_place (n : TokenIndex) (type : TypeExpr) :
    (type.place n).mapAnchor forget = type.mapAnchor forget := by
  induction type generalizing n with
  | name i w => rfl
  | member i p w => rfl
  | optional i t ih => simp [TypeExpr.place, TypeExpr.mapAnchor, ih, forget]
  | array i t ih => simp [TypeExpr.place, TypeExpr.mapAnchor, ih, forget]
  | dictionary i k v ihk ihv => simp [TypeExpr.place, TypeExpr.mapAnchor, ihk, ihv, forget]

theorem anchor_place (n : TokenIndex) (type : TypeExpr) : (type.place n).anchor = n := by
  cases type <;> rfl

theorem goesOnType_place (n : TokenIndex) (type : TypeExpr) :
    goesOnType (type.place n) = goesOnType type := by
  cases type <;> rfl

theorem optionals_of_stops {i : TokenIndex} {type : TypeExpr} {s : Stream}
    (h : s.Stops (· = .operator .question)) : optionals i type s = ⟨type, s, s.isRest_self⟩ := by
  rw [optionals, operator?_none_iff.2 h]

theorem optionals_cons {i : TokenIndex} {type : TypeExpr} {n : TokenIndex} {ts : List Token} :
    (optionals i type ⟨n, .operator .question :: ts⟩).value =
        (optionals i (.optional i type) ⟨n + 1, ts⟩).value ∧
      (optionals i type ⟨n, .operator .question :: ts⟩).rest =
        (optionals i (.optional i type) ⟨n + 1, ts⟩).rest := by
  constructor
  all_goals
    conv => lhs; rw [optionals, operator?_cons]

/-- What `optionals` adds to a type. -/
structure Extended (i : TokenIndex) (s t : Stream) (type full : TypeExpr) : Prop where
  spelling : ∃ us, After us s t ∧ full.spelling = type.spelling ++ us
  placed : type.place i = type → full.place i = full
  stops : t.Stops (· = .operator .question)
  same_or_optional : t = s ∧ full = type ∨ ∃ inner, full = .optional i inner

theorem optionals_extended (i : TokenIndex) (type : TypeExpr) (s : Stream) :
    Extended i s (optionals i type s).rest type (optionals i type s).value := by
  rw [optionals]
  split
  · next s₁ h₁ hs =>
    obtain ⟨⟨us, hu, hsp⟩, hp, hstop, hor⟩ := optionals_extended i (.optional i type) s₁
    obtain ⟨n, ts, rfl, rfl⟩ := operator?_some hs
    refine ⟨⟨.operator .question :: us, after_cons_iff.2 ⟨n, ts, rfl, hu⟩, ?_⟩, ?_, hstop, ?_⟩
    · rw [hsp]
      simp [TypeExpr.spelling]
    · intro h
      exact hp (by rw [TypeExpr.place, h])
    · right
      rcases hor with ⟨-, h⟩ | h
      · exact ⟨type, h⟩
      · exact h
  · next hs =>
    exact ⟨⟨[], after_nil_iff.2 rfl, (List.append_nil _).symm⟩, id, operator?_none_iff.1 hs,
      .inl ⟨rfl, rfl⟩⟩
termination_by s.left.length
decreasing_by exact Stream.Follows.length_lt ‹_›

/-- With the `?` after it a type is spelled from where it begins, and no further token goes on it. -/
theorem optionals_sound {type : TypeExpr} {s m : Stream} (ha : After type.spelling s m)
    (hp : type.place s.next = type)
    (hd : ∀ i w, type = .name i w → m.Stops (· = .operator .dot)) :
    After (optionals s.next type m).value.spelling s (optionals s.next type m).rest ∧
      (optionals s.next type m).value.place s.next = (optionals s.next type m).value ∧
      (optionals s.next type m).rest.Stops (goesOnType (optionals s.next type m).value) := by
  have he := optionals_extended s.next type m
  obtain ⟨us, hu, hsp⟩ := he.spelling
  have hq := he.stops
  refine ⟨?_, he.placed hp, ?_⟩
  · rw [hsp]
    exact ha.trans hu
  rcases he.same_or_optional with ⟨ht, hf⟩ | ⟨inner, hf⟩
  · rw [ht] at hq ⊢
    rw [hf]
    cases type with
    | name i w =>
      rintro u hu (rfl | rfl)
      · exact hd i w rfl _ hu rfl
      · exact hq _ hu rfl
    | _ => exact hq
  · rw [hf]
    exact hq

theorem typeExpr_sound {s t : Stream} {type : TypeExpr} {h : t.Follows s}
    (hr : typeExpr s = .ok ⟨type, t, h⟩) :
    After type.spelling s t ∧ type.place s.next = type ∧ t.Stops (goesOnType type) := by
  rw [typeExpr] at hr
  split at hr
  · next w s₁ h₁ hs =>
    split at hr
    · next s₂ h₂ hd =>
      obtain ⟨⟨member, s₃, h₃⟩, hm, hr⟩ := bind_ok.1 hr
      cases hr
      obtain ⟨n, ts, rfl, rfl⟩ := token?_some hs
      obtain ⟨m, us, heq, rfl⟩ := operator?_some hd
      cases heq
      obtain ⟨m, us, heq, rfl⟩ := name_ok hm
      cases heq
      exact optionals_sound after_nil.cons.cons.cons rfl (by simp)
    · next hd =>
      cases hr
      obtain ⟨n, ts, rfl, rfl⟩ := token?_some hs
      exact optionals_sound after_nil.cons rfl fun _ _ _ => operator?_none_iff.1 hd
  · next s₁ h₁ hs =>
    obtain ⟨⟨first, s₂, h₂⟩, hf, hr⟩ := bind_ok.1 hr
    have h₂' := h₂.trans h₁
    obtain ⟨hf, pf, -⟩ := typeExpr_sound hf
    dsimp only at hr
    split at hr
    · next s₃ h₃ hc =>
      have h₃' := h₃.trans h₂'
      obtain ⟨⟨value, s₄, h₄⟩, hv, hr⟩ := bind_ok.1 hr
      obtain ⟨hv, pv, -⟩ := typeExpr_sound hv
      obtain ⟨⟨_, s₅, h₅⟩, hb, hr⟩ := bind_ok.1 hr
      cases hr
      obtain ⟨n, ts, rfl, rfl⟩ := token?_some hs
      obtain ⟨m, vs, rfl, rfl⟩ := operator?_some hc
      obtain ⟨k, ws, rfl, rfl⟩ := operator_ok hb
      have hm : m = n + 1 + first.spelling.length := hf.2
      subst hm
      exact optionals_sound (hf.cons.trans hv.cons).snoc (by simp [TypeExpr.place, pf, pv]) (by simp)
    · obtain ⟨⟨_, s₃, h₃⟩, hb, hr⟩ := bind_ok.1 hr
      cases hr
      obtain ⟨n, ts, rfl, rfl⟩ := token?_some hs
      obtain ⟨k, ws, rfl, rfl⟩ := operator_ok hb
      exact optionals_sound hf.cons.snoc (by simp [TypeExpr.place, pf]) (by simp)
  · cases hr
termination_by s.left.length
decreasing_by all_goals exact Stream.Follows.length_lt ‹_›

/-- Where the spelling of a type ends, the reader has read that type and looks for `?`. -/
theorem typeExpr_runs {s m : Stream} {type : TypeExpr} (h : After type.spelling s m)
    (hd : ∀ i w, type = .name i w → m.Stops (· = .operator .dot)) :
    Yields (typeExpr s) (optionals s.next (type.place s.next) m).value
      (optionals s.next (type.place s.next) m).rest := by
  induction type generalizing s m with
  | name i w =>
    simp only [TypeExpr.spelling, after_cons_iff, after_nil_iff] at h
    obtain ⟨n, ts, rfl, rfl⟩ := h
    rw [typeExpr]
    simp only [token?_cons, operator?_none_iff.2 (hd i w rfl)]
    exact ⟨_, rfl⟩
  | member i p w =>
    simp only [TypeExpr.spelling, after_cons_iff, after_nil_iff] at h
    obtain ⟨n, ts, rfl, n₁, ts₁, he, n₂, ts₂, he', rfl⟩ := h
    cases he
    cases he'
    rw [typeExpr]
    simp only [token?_cons, operator?_cons, name_cons]
    exact ⟨_, rfl⟩
  | optional i inner ih =>
    simp only [TypeExpr.spelling, after_append_iff, after_cons_iff, after_nil_iff] at h
    obtain ⟨m, h, n, ts, rfl, rfl⟩ := h
    have h := ih h (fun _ _ _ => Stream.stops_cons.2 (by simp))
    rw [optionals_cons.1, optionals_cons.2] at h
    exact h
  | array i element ih =>
    simp only [TypeExpr.spelling, after_append_iff, after_cons_iff, after_nil_iff] at h
    obtain ⟨m, ⟨n, ts, rfl, h⟩, k, us, rfl, rfl⟩ := h
    have h := ih h (fun _ _ _ => Stream.stops_cons.2 (by simp))
    rw [optionals_of_stops (Stream.stops_cons.2 (by simp))] at h
    obtain ⟨_, h⟩ := h
    apply Yields.of
    rw [typeExpr]
    have hne : Token.operator .squareRight ≠ .operator .colon := by simp
    simp only [token?_cons, h, ok_bind, operator?_of_ne hne, operator_cons]
    rfl
  | dictionary i key value ihk ihv =>
    simp only [TypeExpr.spelling, after_append_iff, after_cons_iff, after_nil_iff] at h
    obtain ⟨m₂, ⟨m₁, ⟨n, ts, rfl, hk⟩, k, us, rfl, hv⟩, j, vs, rfl, rfl⟩ := h
    have hn : k = n + 1 + key.spelling.length := hk.2
    have hk := ihk hk (fun _ _ _ => Stream.stops_cons.2 (by simp))
    have hv := ihv hv (fun _ _ _ => Stream.stops_cons.2 (by simp))
    rw [optionals_of_stops (Stream.stops_cons.2 (by simp))] at hk hv
    obtain ⟨_, hk⟩ := hk
    obtain ⟨_, hv⟩ := hv
    apply Yields.of
    rw [typeExpr]
    simp only [token?_cons, hk, hv, ok_bind, operator?_cons, operator_cons]
    rw [TypeExpr.place, ← hn]
    rfl

theorem typeExpr_yields_iff {s t : Stream} {type : TypeExpr} :
    Yields (typeExpr s) type t ↔
      After type.spelling s t ∧ type.place s.next = type ∧ t.Stops (goesOnType type) := by
  constructor
  · rintro ⟨_, h⟩
    exact typeExpr_sound h
  · rintro ⟨h, hp, hs⟩
    have hr := typeExpr_runs h (by
      rintro i w rfl
      exact hs.mono fun u hu => .inl hu)
    rw [hp, optionals_of_stops] at hr
    · exact hr
    · refine hs.mono fun u hu => ?_
      cases type <;> simp [goesOnType, hu]

end Phrase

end ScriptFront
