import ScriptFront.Proofs.SignatureReading
/-! What was read is read again where it is spelled, with other anchors only. That what follows the
spelling makes no difference is said by `Stream.EndsAs`: it goes on no further than what followed at
first. Here for types, annotated names, signatures and paths. -/
namespace ScriptFront.Phrase
open Syntax Phrase.Stream

/-- Wherever `us` is spelled in front of a stream that `ends`, something is read that is like `v`. -/
def Again {α β : Type} (us : List Token) (view : α → β) (read : Stream → α → Stream → Prop) (v : α)
    (ends : Stream → Prop) : Prop :=
  ∀ ⦃s t⦄, After us s t → ends t → ∃ v', read s v' t ∧ view v' = view v

theorem Again.mono {α β : Type} {us : List Token} {view : α → β}
    {read : Stream → α → Stream → Prop} {v : α} {ends ends' : Stream → Prop}
    (h : Again us view read v ends) (he : ∀ t, ends' t → ends t) : Again us view read v ends' :=
  fun _ _ hs ht => h hs (he _ ht)

/-- What goes on some type. -/
def joinsType : Token → Bool
  | .operator .question | .operator .dot => true
  | _ => false

/-- What goes on a list of annotated names, their types, or a path. -/
def joinsNames : Token → Bool
  | .operator .colon | .operator .comma => true
  | u => joinsType u

theorem joinsType_of_goesOnType {type : TypeExpr} {u : Token} (h : goesOnType type u) :
    joinsType u := by
  cases type with
  | name i w =>
    rcases h with rfl | rfl
    · rfl
    · rfl
  | _ =>
    obtain rfl := h
    rfl

theorem joinsNames_of_joinsType {u : Token} (h : joinsType u) : joinsNames u := by
  unfold joinsNames
  split
  · rfl
  · rfl
  · exact h

theorem separated_cons (separator : Token) (first : List Token) (more : List (List Token))
    (h : more ≠ []) :
    separated separator (first :: more) = first ++ separator :: separated separator more := by
  cases more with
  | nil => exact absurd rfl h
  | cons second more => simp [separated]

theorem separated_singleton (separator : Token) (us : List Token) :
    separated separator [us] = us := by simp [separated]

theorem clause_of_ne_nil {u : Token} {list : List (List Token)} (h : list ≠ []) :
    clause u list = u :: commas list := by
  cases list with
  | nil => exact absurd rfl h
  | cons first more => rfl

namespace Reading

theorem annotation_again {s t : Stream} {type : Syntax.TypeExpr} (h : Annotation s type t) :
    Again type.spelling (·.mapAnchor forget) Annotation type (EndsAs (joinsType ·) t) := by
  intro s' t' hs ht
  obtain ⟨-, -, hstop⟩ := typeExpr_yields_iff.1 h
  refine ⟨type.place s'.next, typeExpr_yields_iff.2 ⟨?_, ?_, ?_⟩, forget_place ..⟩
  · rw [spelling_place]
    exact hs
  · exact place_place ..
  · rw [goesOnType_place]
    exact ht.stops hstop fun _ => joinsType_of_goesOnType

/-- The same in a list of types. -/
theorem annotation_again' {s t : Stream} {type : Syntax.TypeExpr} (h : Annotation s type t) :
    Again type.spelling (·.mapAnchor forget) Annotation type (EndsAs (joinsNames ·) t) :=
  (annotation_again h).mono fun _ ht => ht.mono fun _ => joinsNames_of_joinsType

theorem TypedName.again {s t : Stream} {p : Syntax.TypedName} (h : TypedName s p t) :
    Again p.spelling (·.mapAnchor forget) TypedName p (EndsAs (joinsNames ·) t) := by
  intro s' t' hs ht
  cases h with
  | typed h =>
    simp only [TypedName.spelling, clause, commas, separated, Option.toList, List.map_cons,
      List.map_nil, List.flatMap_nil, List.append_nil, after_cons_iff] at hs
    obtain ⟨n, ts, rfl, m, us, heq, hs⟩ := hs
    cases heq
    obtain ⟨type', h', he⟩ := annotation_again' h hs ht
    exact ⟨_, .typed h', by simp only [TypedName.mapAnchor, Option.map_some, he, forget]⟩
  | plain hc =>
    simp only [TypedName.spelling, clause, Option.toList, List.map_nil, after_cons_iff,
      after_nil_iff] at hs
    obtain ⟨n, ts, rfl, rfl⟩ := hs
    refine ⟨_, .plain (ht.stops hc ?_), rfl⟩
    rintro u rfl
    rfl

theorem Listed.ne_nil {α : Type} {Item : Stream → α → Stream → Prop} {s t : Stream}
    {as : List α} (h : Listed Item s as t) : as ≠ [] := by
  cases h <;> simp

/-- A list is read again if its items are. -/
theorem Listed.again {α β : Type} {Item : Stream → α → Stream → Prop} {spelling : α → List Token}
    {view : α → β} {s t : Stream} {as : List α} (h : Listed Item s as t)
    (again : ∀ {s t a}, Item s a t → Again (spelling a) view Item a (EndsAs (joinsNames ·) t)) :
    Again (commas (as.map spelling)) (·.map view) (Listed Item) as (EndsAs (joinsNames ·) t) := by
  induction h with
  | last h hc =>
    intro s' t' hs ht
    rw [List.map_singleton, commas, separated_singleton] at hs
    obtain ⟨a', h', he⟩ := again h hs ht
    refine ⟨_, .last h' (ht.stops hc ?_), by simp only [List.map_cons, he, List.map_nil]⟩
    rintro u rfl
    rfl
  | more h hm ih =>
    intro s' t' hs ht
    rw [List.map_cons, commas, separated_cons _ _ _ (by simp [hm.ne_nil]), after_append_iff] at hs
    obtain ⟨r, hs, hr⟩ := hs
    obtain ⟨n, ts, rfl, hr'⟩ := after_cons_iff.1 hr
    obtain ⟨a', h', he⟩ := again h hs endsAs_cons
    obtain ⟨as', hm', hes⟩ := ih hr' ht
    exact ⟨_, .more h' hm', by simp only [List.map_cons, he, hes]⟩

theorem Clause.again {α β : Type} {Item : Stream → α → Stream → Prop} {spelling : α → List Token}
    {view : α → β} {s t : Stream} {as : List α} (h : Clause Item s as t)
    (again : ∀ {s t a}, Item s a t → Again (spelling a) view Item a (EndsAs (joinsNames ·) t)) :
    Again (clause (.operator .colon) (as.map spelling)) (·.map view) (Clause Item) as
      (EndsAs (joinsNames ·) t) := by
  intro s' t' hs ht
  cases h with
  | list h =>
    rw [clause_of_ne_nil (by simp [h.ne_nil])] at hs
    obtain ⟨n, ts, rfl, hs'⟩ := after_cons_iff.1 hs
    obtain ⟨as', h', he⟩ := h.again again hs' ht
    exact ⟨_, .list h', he⟩
  | none hc =>
    obtain rfl := after_nil_iff.1 hs
    refine ⟨_, .none (ht.stops hc ?_), rfl⟩
    rintro u rfl
    rfl

/-- What stands between the brackets of a signature. -/
def spelledParameters (ps : List Syntax.TypedName) (isVariadic : Bool) : List (List Token) :=
  ps.map Syntax.TypedName.spelling ++ if isVariadic then [[.operator .tripleDot]] else []

theorem spelledParameters_cons (p : Syntax.TypedName) (ps : List Syntax.TypedName)
    (isVariadic : Bool) :
    spelledParameters (p :: ps) isVariadic = p.spelling :: spelledParameters ps isVariadic := rfl

theorem Parameters.spelled_ne_nil {s t : Stream} {ps : List Syntax.TypedName} {isVariadic : Bool}
    (h : Parameters s ps isVariadic t) : spelledParameters ps isVariadic ≠ [] := by
  cases h <;> simp [spelledParameters]

theorem Parameters.again {s t : Stream} {ps : List Syntax.TypedName} {isVariadic : Bool}
    (h : Parameters s ps isVariadic t) {s' : Stream} {n : TokenIndex} {ts : List Token}
    (hs : After (commas (spelledParameters ps isVariadic)) s' ⟨n, .operator .roundRight :: ts⟩) :
    ∃ ps', Parameters s' ps' isVariadic ⟨n + 1, ts⟩ ∧
      ps'.map (·.mapAnchor forget) = ps.map (·.mapAnchor forget) := by
  induction h generalizing s' with
  | variadic =>
    obtain ⟨m, us, rfl, hs'⟩ := after_cons_iff.1 hs
    cases after_nil_iff.1 hs'
    exact ⟨_, .variadic, rfl⟩
  | last h =>
    rw [show spelledParameters [_] false = [_] from rfl, commas, separated_singleton] at hs
    obtain ⟨p', h', he⟩ := h.again hs endsAs_cons
    exact ⟨_, .last h', by simp only [List.map_cons, he, List.map_nil]⟩
  | more h hm ih =>
    rw [spelledParameters_cons, commas, separated_cons _ _ _ hm.spelled_ne_nil,
      after_append_iff] at hs
    obtain ⟨r, hs, hr⟩ := hs
    obtain ⟨m, us, rfl, hr'⟩ := after_cons_iff.1 hr
    obtain ⟨p', h', he⟩ := h.again hs endsAs_cons
    obtain ⟨ps', hm', hes⟩ := ih hr'
    exact ⟨_, .more h' hm', by simp only [List.map_cons, he, hes]⟩

theorem Signature.again {s t : Stream} {sig : Syntax.Signature} (h : Signature s sig t) :
    Again sig.spelling (·.mapAnchor forget) Signature sig (EndsAs (joinsNames ·) t) := by
  intro s' t' hs ht
  rw [Signature.spelling, List.cons_append, after_cons_iff] at hs
  obtain ⟨n, ts, rfl, hs⟩ := hs
  obtain ⟨r, hs, hr⟩ := after_append_iff.1 hs
  obtain ⟨m, us, rfl, hr'⟩ := after_cons_iff.1 hr
  cases h with
  | none h =>
    obtain ⟨returns', h', he⟩ := h.again annotation_again' hr' ht
    cases after_nil_iff.1 hs
    exact ⟨_, .none h', by simp only [Signature.mapAnchor, he]⟩
  | list hp h =>
    obtain ⟨ps', hp', hes⟩ := hp.again hs
    obtain ⟨returns', h', he⟩ := h.again annotation_again' hr' ht
    exact ⟨_, .list hp' h', by simp only [Signature.mapAnchor, hes, he]⟩

theorem Path.ne_nil {s t : Stream} {ws : List String} {isMethod : Bool}
    (h : Path s ws isMethod t) : ws ≠ [] := by
  cases h <;> simp

theorem Path.length_of_method {s t : Stream} {ws : List String} (h : Path s ws true t) :
    2 ≤ ws.length := by
  cases h with
  | field h =>
    have := List.length_pos_iff.2 h.ne_nil
    simp only [List.length_cons]
    omega
  | method => exact Nat.le_refl _

theorem Path.spelling_cons {s t : Stream} {ws : List String} {isMethod : Bool} {w : String}
    (h : Path s ws isMethod t) :
    spellingOfPath isMethod (w :: ws) = .name w :: .operator .dot :: spellingOfPath isMethod ws := by
  match ws, isMethod, h with
  | [], _, h => exact absurd rfl h.ne_nil
  | [v], true, h => exact absurd h.length_of_method (by simp)
  | [v], false, _ => rfl
  | v :: x :: ws, _, _ => rfl

theorem Path.again {s t : Stream} {ws : List String} {isMethod : Bool} (h : Path s ws isMethod t)
    {s' t' : Stream} (hs : After (spellingOfPath isMethod ws) s' t')
    (ht : EndsAs (joinsNames ·) t t') : Path s' ws isMethod t' := by
  induction h generalizing s' with
  | field h ih =>
    rw [h.spelling_cons] at hs
    obtain ⟨n, ts, rfl, hs'⟩ := after_cons_iff.1 hs
    obtain ⟨m, us, heq, hr⟩ := after_cons_iff.1 hs'
    cases heq
    exact .field (ih hr ht)
  | method =>
    simp only [spellingOfPath, if_true, after_cons_iff, after_nil_iff] at hs
    obtain ⟨n, ts, rfl, m, us, heq, k, vs, heq', rfl⟩ := hs
    cases heq
    cases heq'
    exact .method
  | last hstop =>
    simp only [spellingOfPath, after_cons_iff, after_nil_iff] at hs
    obtain ⟨n, ts, rfl, rfl⟩ := hs
    refine .last (ht.stops hstop ?_)
    rintro u (rfl | rfl)
    · rfl
    · rfl

theorem TypedTarget.again {s t : Stream} {p : Syntax.TypedName} (h : TypedTarget s p t) :
    Again p.spelling (·.mapAnchor forget) TypedTarget p (SameHead t) := by
  intro s' t' hs ht
  cases h with
  | intro h hor =>
    simp only [TypedName.spelling, clause, commas, separated, Option.toList, List.map_cons,
      List.map_nil, List.flatMap_nil, List.append_nil, after_cons_iff] at hs
    obtain ⟨n, ts, rfl, m, us, heq, hs⟩ := hs
    cases heq
    obtain ⟨type', h', he⟩ := annotation_again h hs ht.endsAs
    obtain ⟨v, hv, hv'⟩ := ht
    cases hv
    obtain ⟨k, _ | ⟨v, vs⟩⟩ := t'
    · cases hv'
    · cases hv'
      exact ⟨_, .intro h' hor, by simp only [TypedName.mapAnchor, Option.map_some, he, forget]⟩

end Reading

end ScriptFront.Phrase
