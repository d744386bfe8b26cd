import ScriptFront.Proofs.Relocation
/-! Where a reader comes to the end of the input, more tokens would have helped it: what it was
reading can be completed. What was read before is read again in front of them. Here for types,
annotated names, signatures and paths. -/
namespace ScriptFront.Phrase
open Syntax Phrase.Stream

/-- If the reader comes to the end of the input and needs more, then `C`. -/
abbrev Short {α : Type} (C : Prop) (x : Except ParseError α) : Prop :=
  Fails (fun e => ∀ i, e = .endOfInput i → C) x

/-- Where nothing is left of `s`, the tokens put behind it begin with one that satisfies `p`. -/
def Stream.Resumes (p : Token → Prop) (us : List Token) (s : Stream) : Prop :=
  s.left = [] → ∃ u ∈ us.head?, p u

/-- With some more tokens behind it, `R` leads from `s` to the end of them, whatever `rest` follows
that does not join. -/
def Completable (first joins : Token → Prop) (R : Stream → Stream → Prop) (s : Stream) : Prop :=
  ∃ us, s.Resumes first us ∧
    ∀ rest, Stops joins ⟨0, rest⟩ → ∃ n, R (s.relocate 0 (us ++ rest)) ⟨n, rest⟩

/-- Something is read from `s` to `t`. -/
abbrev Read {α : Type} (R : Stream → α → Stream → Prop) (s t : Stream) : Prop := ∃ a, R s a t

/-- For what is not read up to the end of the input, or joined by nothing. -/
abbrev Never : Token → Prop := fun _ => False

abbrev IsName : Token → Prop := fun u => ∃ w, u = .name w

section
variable {s s₁ t : Stream} {us : List Token} {C : Prop} {p first first' joins joins' : Token → Prop}
  {R R' : Stream → Stream → Prop} {α : Type}

theorem Short.mono {x : Except ParseError α} {C' : Prop} (h : Short C x) (hc : C → C') :
    Short C' x := fun e he i hi => hc (h e he i hi)

theorem short_unexpected (h : ∀ n, s = ⟨n, []⟩ → C) :
    Short C (.error (unexpected s) : Except ParseError α) := by
  refine .error ?_
  obtain ⟨n, _ | ⟨u, us⟩⟩ := s
  · exact fun _ _ => h n rfl
  · intro i hi
    cases hi

theorem short_orUnexpected {x : Option (Parsed s α)} :
    Short (∃ n, s = ⟨n, []⟩) (orUnexpected x) := by
  cases x with
  | none => exact short_unexpected fun n hs => ⟨n, hs⟩
  | some _ => exact .ok

theorem short_name : Short (∃ n, s = ⟨n, []⟩) (name s) := short_orUnexpected

theorem short_keyword {k : Keyword} : Short (∃ n, s = ⟨n, []⟩) (keyword k s) := short_orUnexpected

theorem short_operator {o : Operator} : Short (∃ n, s = ⟨n, []⟩) (operator o s) :=
  short_orUnexpected

/-! One token is read first: it is missing where the input ends, and goes before what is read
after it. -/

theorem Short.afterName {β : Type} {f : Parsed s String → Except ParseError β}
    (missing : ∀ n, s = ⟨n, []⟩ → C)
    (after : ∀ n w us h, s = ⟨n, .name w :: us⟩ → Short C (f ⟨w, ⟨n + 1, us⟩, h⟩)) :
    Short C (name s >>= f) := by
  refine .bind (short_name.mono fun ⟨n, hs⟩ => missing n hs) ?_
  rintro ⟨w, t, h⟩ hn
  obtain ⟨n, us, hs, rfl⟩ := name_ok hn
  exact after n w us h hs

theorem Short.afterKeyword {β : Type} {k : Keyword} {f : Parsed s Unit → Except ParseError β}
    (missing : ∀ n, s = ⟨n, []⟩ → C)
    (after : ∀ n us h, s = ⟨n, .keyword k :: us⟩ → Short C (f ⟨(), ⟨n + 1, us⟩, h⟩)) :
    Short C (keyword k s >>= f) := by
  refine .bind (short_keyword.mono fun ⟨n, hs⟩ => missing n hs) ?_
  rintro ⟨_, t, h⟩ hk
  obtain ⟨n, us, hs, rfl⟩ := keyword_ok hk
  exact after n us h hs

theorem Short.afterOperator {β : Type} {o : Operator} {f : Parsed s Unit → Except ParseError β}
    (missing : ∀ n, s = ⟨n, []⟩ → C)
    (after : ∀ n us h, s = ⟨n, .operator o :: us⟩ → Short C (f ⟨(), ⟨n + 1, us⟩, h⟩)) :
    Short C (operator o s >>= f) := by
  refine .bind (short_operator.mono fun ⟨n, hs⟩ => missing n hs) ?_
  rintro ⟨_, t, h⟩ ho
  obtain ⟨n, us, hs, rfl⟩ := operator_ok ho
  exact after n us h hs

namespace Stream

/-- What holds of a stream if it holds of those left after it holds of all. -/
theorem follows_induction {P : Stream → Prop} (step : ∀ s, (∀ t, t.Follows s → P t) → P s)
    (s : Stream) : P s := step s fun t _ => follows_induction step t
termination_by s.left.length
decreasing_by exact Follows.length_lt ‹_›

theorem resumes_of_ne_nil (h : s.left ≠ []) : s.Resumes p us := fun he => absurd he h

theorem resumes_cons {n : TokenIndex} {u : Token} {ts : List Token} :
    Resumes p us ⟨n, u :: ts⟩ := resumes_of_ne_nil (List.cons_ne_nil _ _)

theorem resumes_token {u : Token} (h : p u) : s.Resumes p (u :: us) := fun _ => ⟨u, rfl, h⟩

theorem Resumes.ne_nil (h : s.Resumes Never us) : s.left ≠ [] := by
  intro hs
  obtain ⟨u, -, hu⟩ := h hs
  exact hu

theorem Resumes.mono {q : Token → Prop} (h : s.Resumes p us) (hq : ∀ u, p u → q u) :
    s.Resumes q us := by
  intro hs
  obtain ⟨u, hu, hp⟩ := h hs
  exact ⟨u, hu, hq u hp⟩

theorem Resumes.append {vs : List Token} (h : s.Resumes p us) : s.Resumes p (us ++ vs) := by
  intro hs
  obtain ⟨u, hu, hp⟩ := h hs
  obtain ⟨us, rfl⟩ := List.head?_eq_some_iff.1 hu
  exact ⟨u, rfl, hp⟩

/-- What resumes does not join what was read before. -/
theorem Resumes.apart (h : s.Resumes first us) (hf : ∀ u, first u → ¬ p u) : s.Apart p us := by
  intro hs u hu
  obtain ⟨v, hv, hfirst⟩ := h hs
  obtain rfl : v = u := Option.some.inj (hv.symm.trans hu)
  exact hf v hfirst

theorem apart_token {u : Token} (h : ¬ p u) : s.Apart p (u :: us) := by
  rintro - v ⟨⟩
  exact h

end Stream

theorem Completable.tokens (us : List Token) (hs : s.Resumes first us)
    (h : ∀ rest, Stops joins ⟨0, rest⟩ → ∃ n, R (s.relocate 0 (us ++ rest)) ⟨n, rest⟩) :
    Completable first joins R s := ⟨us, hs, h⟩

/-- Where a part is completed, the tokens `vs` complete the whole that it is built into. -/
theorem Completable.extend (h : Completable first joins R s₁)
    (hs : ∀ us, s₁.Resumes first us → s.Resumes first' us) (vs : List Token)
    (hvs : ∀ rest, Stops joins' ⟨0, rest⟩ → Stops joins ⟨0, vs ++ rest⟩)
    (build : ∀ us rest, s₁.Resumes first us → Stops joins' ⟨0, rest⟩ →
      ∀ n, R (s₁.relocate 0 us) ⟨n, vs ++ rest⟩ → ∃ n, R' (s.relocate 0 us) ⟨n, rest⟩) :
    Completable first' joins' R' s := by
  obtain ⟨us, hus, h⟩ := h
  refine ⟨us ++ vs, hs _ hus.append, fun rest hrest => ?_⟩
  obtain ⟨n, hr⟩ := h (vs ++ rest) (hvs rest hrest)
  rw [List.append_assoc]
  exact build _ rest hus.append hrest n hr

/-- The whole has begun before the part. -/
theorem Completable.within (h : Completable first joins R s₁) (hs : s.left ≠ []) (vs : List Token)
    (hvs : ∀ rest, Stops joins' ⟨0, rest⟩ → Stops joins ⟨0, vs ++ rest⟩)
    (build : ∀ us rest, s₁.Resumes first us → Stops joins' ⟨0, rest⟩ →
      ∀ n, R (s₁.relocate 0 us) ⟨n, vs ++ rest⟩ → ∃ n, R' (s.relocate 0 us) ⟨n, rest⟩) :
    Completable first' joins' R' s :=
  h.extend (fun _ _ => resumes_of_ne_nil hs) vs hvs build

/-- The whole ends with the part. -/
theorem Completable.ends {β : Type} {Part : Stream → α → Stream → Prop}
    {Whole : Stream → β → Stream → Prop} (h : Completable first joins (Read Part) s₁)
    (hs : s.left ≠ []) (hjoins : ∀ u, joins u → joins' u)
    (build : ∀ {us a t}, s₁.Resumes first us → Part (s₁.relocate 0 us) a t →
      ∃ b, Whole (s.relocate 0 us) b t) :
    Completable first' joins' (Read Whole) s := by
  refine h.within hs [] (fun _ hrest => hrest.mono hjoins) ?_
  rintro us rest hus - n ⟨a, h⟩
  exact ⟨n, build hus h⟩

/-- The whole begins with the part. -/
theorem Completable.begins (h : Completable first joins R s) (hfirst : ∀ u, first u → first' u)
    (vs : List Token) (hvs : ∀ rest, Stops joins' ⟨0, rest⟩ → Stops joins ⟨0, vs ++ rest⟩)
    (build : ∀ us rest, s.Resumes first us → Stops joins' ⟨0, rest⟩ →
      ∀ n, R (s.relocate 0 us) ⟨n, vs ++ rest⟩ → ∃ n, R' (s.relocate 0 us) ⟨n, rest⟩) :
    Completable first' joins' R' s :=
  h.extend (fun _ hus => hus.mono hfirst) vs hvs build

end

namespace Reading
section
variable {n m k : TokenIndex} {ts us rest : List Token} {type key value : TypeExpr}

theorem annotation_name {w : String} (h : Stops (joinsType ·) ⟨n + 1, rest⟩) :
    Annotation ⟨n, .name w :: rest⟩ (.name n w) ⟨n + 1, rest⟩ :=
  typeExpr_yields_iff.2 ⟨after_nil.cons, rfl, h.mono fun _ => joinsType_of_goesOnType⟩

theorem annotation_member {v w : String} (h : Stops (joinsType ·) ⟨n + 1 + 1 + 1, rest⟩) :
    Annotation ⟨n, .name v :: .operator .dot :: .name w :: rest⟩ (.member n v w)
      ⟨n + 1 + 1 + 1, rest⟩ :=
  typeExpr_yields_iff.2 ⟨after_nil.cons.cons.cons, rfl, h.mono fun _ => joinsType_of_goesOnType⟩

theorem annotation_array (h : Annotation ⟨n + 1, ts⟩ type ⟨m, .operator .squareRight :: rest⟩)
    (hrest : Stops (joinsType ·) ⟨m + 1, rest⟩) :
    Annotation ⟨n, .operator .squareLeft :: ts⟩ (.array n type) ⟨m + 1, rest⟩ := by
  obtain ⟨ha, hp, -⟩ := typeExpr_yields_iff.1 h
  refine typeExpr_yields_iff.2 ⟨ha.snoc.cons, ?_, hrest.mono fun _ => joinsType_of_goesOnType⟩
  rw [TypeExpr.place, hp]

theorem annotation_dictionary (h : Annotation ⟨n + 1, ts⟩ key ⟨m, .operator .colon :: us⟩)
    (h' : Annotation ⟨m + 1, us⟩ value ⟨k, .operator .squareRight :: rest⟩)
    (hrest : Stops (joinsType ·) ⟨k + 1, rest⟩) :
    Annotation ⟨n, .operator .squareLeft :: ts⟩ (.dictionary n key value) ⟨k + 1, rest⟩ := by
  obtain ⟨ha, hp, -⟩ := typeExpr_yields_iff.1 h
  obtain ⟨ha', hp', -⟩ := typeExpr_yields_iff.1 h'
  have hm : m = n + 1 + key.spelling.length := ha.2
  refine typeExpr_yields_iff.2 ⟨(ha.trans ha'.cons).snoc.cons, ?_,
    hrest.mono fun _ => joinsType_of_goesOnType⟩
  rw [TypeExpr.place, hp, ← hm, hp']

end

end Reading

open Reading

section Lists
variable {α : Type} {Item : Stream → α → Stream → Prop} {first first' joins : Token → Prop}
  {s : Stream} {n : TokenIndex} {ts : List Token}

theorem Completable.listed_first (h : Completable first joins (Read Item) s)
    (hjoins : ∀ u, joins u → joinsNames u) :
    Completable first (joinsNames ·) (Read (Listed Item)) s := by
  refine h.begins (fun _ h => h) [] (fun _ hrest => hrest.mono hjoins) ?_
  rintro us rest - hrest m ⟨a, h⟩
  exact ⟨_, _, .last h (hrest.mono (by rintro _ rfl; rfl))⟩

theorem Completable.listed_more
    (h : Completable first (joinsNames ·) (Read (Listed Item)) ⟨n + 1, ts⟩) (hs : s.left ≠ [])
    (item : ∀ us, ∃ a, Item (s.relocate 0 us) a (relocate 0 us ⟨n, .operator .comma :: ts⟩)) :
    Completable first' (joinsNames ·) (Read (Listed Item)) s := by
  refine h.ends hs (fun _ h => h) ?_
  intro us _ _ _ h
  obtain ⟨a, ha⟩ := item us
  exact ⟨_, .more ha h⟩

end Lists

theorem short_typeExpr {s : Stream} :
    Short (Completable IsName (joinsType ·) (Read Annotation) s)
      (typeExpr s) := by
  induction s using Stream.follows_induction with | step s ih => ?_
  rw [typeExpr]
  split
  · next w s₁ h₁ ht =>
    obtain ⟨n, ts, rfl, rfl⟩ := token?_some ht
    split
    · next s₂ h₂ ho =>
      obtain ⟨m, us, he, rfl⟩ := operator?_some ho
      cases he
      refine .bind (short_name.mono ?_) fun _ _ => .ok
      rintro ⟨_, he⟩
      cases he
      exact .tokens [.name "x"] resumes_cons fun rest h => ⟨_, _, annotation_member h⟩
    · exact .ok
  · next s₁ h₁ ht =>
    obtain ⟨n, ts, rfl, rfl⟩ := token?_some ht
    refine .bind ((ih _ h₁).mono fun h => ?_) ?_
    · refine h.within (List.cons_ne_nil _ _) [.operator .squareRight]
        (fun _ _ => stops_cons.2 (by decide)) ?_
      rintro us rest - hrest m ⟨type, h⟩
      exact ⟨_, _, annotation_array h hrest⟩
    rintro ⟨first, s₂, h₂⟩ h
    have h : Annotation _ first s₂ := ⟨_, h⟩
    dsimp only
    split
    · next s₃ h₃ ho =>
      obtain ⟨m, us, rfl, rfl⟩ := operator?_some ho
      refine .bind ((ih _ (h₃.trans (h₂.trans h₁))).mono fun h' => ?_) ?_
      · refine h'.within (List.cons_ne_nil _ _) [.operator .squareRight]
          (fun _ _ => stops_cons.2 (by decide)) ?_
        rintro us rest - hrest m ⟨type, h'⟩
        exact ⟨_, _, annotation_dictionary (annotation_relocate h apart_cons) h' hrest⟩
      rintro ⟨value, s₄, h₄⟩ h'
      have h' : Annotation _ value s₄ := ⟨_, h'⟩
      refine .bind (short_operator.mono ?_) fun _ _ => .ok
      rintro ⟨m, rfl⟩
      refine .tokens [.operator .squareRight] resumes_cons fun rest hrest => ?_
      exact ⟨_, _, annotation_dictionary (annotation_relocate h apart_cons)
        (annotation_relocate h' (apart_token (by decide))) hrest⟩
    · refine .bind (short_operator.mono ?_) fun _ _ => .ok
      rintro ⟨m, rfl⟩
      refine .tokens [.operator .squareRight] resumes_cons fun rest hrest => ?_
      exact ⟨_, _, annotation_array (annotation_relocate h (apart_token (by decide))) hrest⟩
  · refine short_unexpected ?_
    rintro n rfl
    exact .tokens [.name "x"] (resumes_token ⟨_, rfl⟩) fun rest h => ⟨_, _, annotation_name h⟩

theorem short_typedName {s : Stream} :
    Short (Completable IsName (joinsNames ·) (Read TypedName) s) (typedName s) := by
  refine Short.afterName ?_ ?_
  · rintro n rfl
    refine .tokens [.name "x"] (resumes_token ⟨_, rfl⟩) fun rest hrest => ?_
    exact ⟨_, _, .plain (hrest.mono (by rintro _ rfl; rfl))⟩
  rintro n w ts h₁ rfl
  dsimp only
  split
  · next s₂ h₂ ho =>
    obtain ⟨m, us, he, rfl⟩ := operator?_some ho
    cases he
    refine .bind (short_typeExpr.mono fun h => ?_) fun _ _ => .ok
    exact h.ends (List.cons_ne_nil _ _) (fun _ => joinsNames_of_joinsType)
      fun _ h => ⟨_, .typed h⟩
  · exact .ok

theorem short_typedNames {s : Stream} :
    Short (Completable IsName (joinsNames ·) (Read (Listed TypedName)) s) (typedNames s) := by
  induction s using Stream.follows_induction with | step s ih => ?_
  rw [typedNames]
  refine .bind (short_typedName.mono fun h => h.listed_first fun _ h => h) ?_
  rintro ⟨first, s₁, h₁⟩ h
  have h := reads_typedName h
  dsimp only
  split
  · next s₂ h₂ ho =>
    obtain ⟨m, us, rfl, rfl⟩ := operator?_some ho
    refine .bind ((ih _ (h₂.trans h₁)).mono fun hmore => ?_) fun _ _ => .ok
    exact hmore.listed_more h₁.ne_nil fun us => ⟨_, h.relocate apart_cons⟩
  · exact .ok

theorem short_typeExprs {s : Stream} :
    Short (Completable IsName (joinsNames ·) (Read (Listed Annotation)) s) (typeExprs s) := by
  induction s using Stream.follows_induction with | step s ih => ?_
  rw [typeExprs]
  refine .bind (short_typeExpr.mono fun h => h.listed_first fun _ => joinsNames_of_joinsType) ?_
  rintro ⟨first, s₁, h₁⟩ h
  have h : Annotation s first s₁ := ⟨_, h⟩
  dsimp only
  split
  · next s₂ h₂ ho =>
    obtain ⟨m, us, rfl, rfl⟩ := operator?_some ho
    refine .bind ((ih _ (h₂.trans h₁)).mono fun hmore => ?_) fun _ _ => .ok
    exact hmore.listed_more h₁.ne_nil fun us => ⟨_, annotation_relocate h apart_cons⟩
  · exact .ok

theorem short_returnTypes {s : Stream} :
    Short (Completable Never (joinsNames ·) (Read (Clause Annotation)) s) (returnTypes s) := by
  rw [returnTypes]
  split
  · next s₁ h₁ ho =>
    obtain ⟨n, ts, rfl, rfl⟩ := operator?_some ho
    refine .bind (short_typeExprs.mono fun h => ?_) fun _ _ => .ok
    exact h.ends (List.cons_ne_nil _ _) (fun _ h => h) fun _ h => ⟨_, .list h⟩
  · exact .ok

theorem short_parameters {s : Stream} :
    Short (Completable IsName Never (fun s t => ∃ ps v, Parameters s ps v t) s) (parameters s) := by
  induction s using Stream.follows_induction with | step s ih => ?_
  rw [parameters]
  split
  · next s₁ h₁ ho =>
    obtain ⟨n, ts, rfl, rfl⟩ := operator?_some ho
    refine .bind (short_operator.mono ?_) fun _ _ => .ok
    rintro ⟨_, he⟩
    cases he
    exact .tokens [.operator .roundRight] resumes_cons fun rest _ => ⟨_, _, _, .variadic⟩
  · refine .bind (short_typedName.mono fun h => ?_) ?_
    · refine h.begins (fun _ h => h) [.operator .roundRight]
        (fun _ _ => stops_cons.2 (by decide)) ?_
      rintro us rest - - m ⟨p, h⟩
      exact ⟨_, _, _, .last h⟩
    rintro ⟨first, s₁, h₁⟩ h
    have h := reads_typedName h
    dsimp only
    split
    · exact .ok
    · refine .bind (short_operator.mono ?_) ?_
      · rintro ⟨n, rfl⟩
        refine .tokens [.operator .roundRight] (resumes_of_ne_nil h₁.ne_nil) fun rest _ => ?_
        exact ⟨_, _, _, .last (h.relocate (apart_token (by decide)))⟩
      rintro ⟨_, s₂, h₂⟩ ho
      obtain ⟨m, us, rfl, rfl⟩ := operator_ok ho
      refine .bind ((ih _ (h₂.trans h₁)).mono fun hmore => ?_) fun _ _ => .ok
      refine hmore.within h₁.ne_nil [] (fun _ hrest => hrest) ?_
      rintro us rest - - m ⟨ps, v, hmore⟩
      exact ⟨_, _, _, .more (h.relocate apart_cons) hmore⟩

theorem short_signature {s : Stream} :
    Short (Completable (· = .operator .roundLeft) (joinsNames ·) (Read Signature) s)
      (signature s) := by
  refine Short.afterOperator ?_ ?_
  · rintro n rfl
    refine .tokens [.operator .roundLeft, .operator .roundRight] (resumes_token rfl)
      fun rest hrest => ?_
    exact ⟨_, _, .none (.none (hrest.mono (by rintro _ rfl; rfl)))⟩
  rintro n ts h₁ rfl
  dsimp only
  split
  · next s₂ h₂ ho =>
    obtain ⟨m, us, he, rfl⟩ := operator?_some ho
    cases he
    refine .bind (short_returnTypes.mono fun h => ?_) fun _ _ => .ok
    exact h.ends (List.cons_ne_nil _ _) (fun _ h => h) fun _ h => ⟨_, .none h⟩
  · refine .bind (short_parameters.mono fun h => ?_) ?_
    · refine h.within (List.cons_ne_nil _ _) [] (fun _ _ _ _ h => h) ?_
      rintro us rest - hrest m ⟨ps, v, h⟩
      exact ⟨_, _, .list h (.none (hrest.mono (by rintro _ rfl; rfl)))⟩
    rintro ⟨⟨ps, isVariadic⟩, s₂, h₂⟩ h
    have h := reads_parameters h
    refine .bind (short_returnTypes.mono fun h' => ?_) fun _ _ => .ok
    exact h'.ends (List.cons_ne_nil _ _) (fun _ h => h) fun _ h' => ⟨_, .list h.relocate h'⟩

theorem short_path {s : Stream} :
    Short (Completable IsName (joinsNames ·) (fun s t => ∃ ws v, Path s ws v t) s) (path s) := by
  induction s using Stream.follows_induction with | step s ih => ?_
  rw [path]
  refine Short.afterName ?_ ?_
  · rintro n rfl
    refine .tokens [.name "x"] (resumes_token ⟨_, rfl⟩) fun rest hrest => ?_
    refine ⟨_, _, _, .last (hrest.mono ?_)⟩
    rintro _ (rfl | rfl)
    · rfl
    · rfl
  rintro n first ts h₁ rfl
  dsimp only
  split
  · next s₂ h₂ ht =>
    obtain ⟨m, us, he, rfl⟩ := token?_some ht
    cases he
    refine .bind ((ih _ (h₂.trans h₁)).mono fun h => ?_) fun _ _ => .ok
    refine h.within (List.cons_ne_nil _ _) [] (fun _ hrest => hrest) ?_
    rintro us rest - - m ⟨ws, v, h⟩
    exact ⟨_, _, _, .field h⟩
  · next s₂ h₂ ht =>
    obtain ⟨m, us, he, rfl⟩ := token?_some ht
    cases he
    refine .bind (short_name.mono ?_) fun _ _ => .ok
    rintro ⟨_, he⟩
    cases he
    exact .tokens [.name "x"] resumes_cons fun rest _ => ⟨_, _, _, .method⟩
  · exact .ok

end ScriptFront.Phrase
