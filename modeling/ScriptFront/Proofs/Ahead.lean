import ScriptFront.Phrase.Chunk
/-! What stands at the head of a stream, and what the readers of single tokens make of it. -/
namespace ScriptFront.Phrase

theorem bind_ok {ε α β : Type} {x : Except ε α} {f : α → Except ε β} {b : β} :
    (x >>= f) = .ok b ↔ ∃ a, x = .ok a ∧ f a = .ok b := by
  cases x with
  | error e => simp [bind, Except.bind]
  | ok a => simp [bind, Except.bind]

theorem error_of_bind {ε α β : Type} {x : Except ε α} {f : α → Except ε β} {e : ε}
    (h : (x >>= f) = .error e) : x = .error e ∨ ∃ a, x = .ok a ∧ f a = .error e := by
  cases x with
  | error e' =>
    cases h
    exact .inl rfl
  | ok a => exact .inr ⟨a, rfl, h⟩

theorem ok_bind {ε α β : Type} (a : α) (f : α → Except ε β) : (.ok a >>= f : Except ε β) = f a :=
  rfl

theorem ok_of_mapError {ε ε' α : Type} {x : Except ε α} {f : ε → ε'} {a : α}
    (h : x.mapError f = .ok a) : x = .ok a := by
  cases x with
  | error e => cases h
  | ok b =>
    cases h
    rfl

/-- If there is an error, it satisfies `p`. -/
def Fails {ε α : Type} (p : ε → Prop) (x : Except ε α) : Prop := ∀ e, x = .error e → p e

namespace Fails
variable {ε α β : Type} {p : ε → Prop} {x : Except ε α}

theorem ok {a : α} : Fails p (.ok a) := nofun

theorem error {e : ε} (h : p e) : Fails (α := α) p (.error e) := by
  rintro _ ⟨⟩
  exact h

theorem mono {q : ε → Prop} (h : Fails p x) (hpq : ∀ e, p e → q e) : Fails q x :=
  fun e he => hpq e (h e he)

theorem bind {f : α → Except ε β} (hx : Fails p x) (hf : ∀ a, x = .ok a → Fails p (f a)) :
    Fails p (x >>= f) := by
  cases x with
  | error e => exact error (hx e rfl)
  | ok a => exact hf a rfl

theorem map {f : α → β} (hx : Fails p x) : Fails p (x.map f) := by
  cases x with
  | error e => exact error (hx e rfl)
  | ok a => exact ok

theorem mapError {ε' : Type} {f : ε → ε'} {q : ε' → Prop} (h : ∀ e, x = .error e → q (f e)) :
    Fails q (x.mapError f) := by
  cases x with
  | error e => exact error (h e rfl)
  | ok a => exact ok

theorem foldlM {f : β → α → Except ε β} {as : List α} (h : ∀ b, ∀ a ∈ as, Fails p (f b a)) (b : β) :
    Fails p (as.foldlM f b) := by
  induction as generalizing b with
  | nil => exact ok
  | cons a as ih =>
    rw [List.foldlM_cons]
    exact bind (h b a List.mem_cons_self) fun b _ =>
      ih (fun b a ha => h b a (List.mem_cons_of_mem _ ha)) b

theorem mapM {f : α → Except ε β} {as : List α} (h : ∀ a ∈ as, Fails p (f a)) :
    Fails p (as.mapM f) := by
  induction as with
  | nil => exact ok
  | cons a as ih =>
    rw [List.mapM_cons]
    refine bind (h a List.mem_cons_self) fun b _ => ?_
    exact bind (ih fun a ha => h a (List.mem_cons_of_mem _ ha)) fun bs _ => ok

end Fails

namespace Stream

theorem after_nil_iff {s t : Stream} : After [] s t ↔ t = s := by
  constructor
  · exact eq_of_after_nil
  · rintro rfl
    exact ⟨rfl, rfl⟩

theorem after_cons_iff {u : Token} {us : List Token} {s t : Stream} :
    After (u :: us) s t ↔ ∃ n ts, s = ⟨n, u :: ts⟩ ∧ After us ⟨n + 1, ts⟩ t := by
  constructor
  · rintro ⟨h, k⟩
    refine ⟨s.next, us ++ t.left, ?_, rfl, ?_⟩
    · cases s
      simp_all
    · rw [k, List.length_cons, Nat.add_right_comm, Nat.add_assoc]
  · rintro ⟨n, ts, rfl, rfl, k⟩
    refine ⟨rfl, ?_⟩
    rw [k, List.length_cons, Nat.add_right_comm, Nat.add_assoc]

theorem after_append_iff {us vs : List Token} {r t : Stream} :
    After (us ++ vs) r t ↔ ∃ s, After us r s ∧ After vs s t := by
  constructor
  · rintro ⟨h, k⟩
    refine ⟨⟨r.next + us.length, vs ++ t.left⟩, ⟨by rw [h, List.append_assoc], rfl⟩, rfl, ?_⟩
    rw [k, List.length_append, Nat.add_assoc]
  · rintro ⟨s, h, k⟩
    exact h.trans k

theorem after_nil {s : Stream} : After [] s s := after_nil_iff.2 rfl

theorem After.cons {u : Token} {us ts : List Token} {n : TokenIndex} {t : Stream}
    (h : After us ⟨n + 1, ts⟩ t) : After (u :: us) ⟨n, u :: ts⟩ t :=
  after_cons_iff.2 ⟨n, ts, rfl, h⟩

theorem After.snoc {u : Token} {us ts : List Token} {n : TokenIndex} {s : Stream}
    (h : After us s ⟨n, u :: ts⟩) : After (us ++ [u]) s ⟨n + 1, ts⟩ := h.trans after_nil.cons

/-- No token that satisfies `p` is next. -/
def Stops (p : Token → Prop) (s : Stream) : Prop := ∀ u ∈ s.left.head?, ¬ p u

theorem stops_nil {p : Token → Prop} {n : TokenIndex} : Stops p ⟨n, []⟩ := by simp [Stops]

theorem stops_cons {p : Token → Prop} {n : TokenIndex} {u : Token} {us : List Token} :
    Stops p ⟨n, u :: us⟩ ↔ ¬ p u := by simp [Stops]

/-- Where a token that satisfies `p` is next in `t`, the same is next in `s`. So what ends before
`s` because no such token is next ends before `t` as well. -/
def EndsAs (p : Token → Prop) (s t : Stream) : Prop := ∀ u ∈ t.left.head?, p u → u ∈ s.left.head?

/-- The same token is next in both. -/
def SameHead (s t : Stream) : Prop := ∃ u, s.left.head? = some u ∧ t.left.head? = some u

variable {p q : Token → Prop} {s t : Stream}

theorem sameHead_cons {m n : TokenIndex} {u : Token} {us vs : List Token} :
    SameHead ⟨m, u :: us⟩ ⟨n, u :: vs⟩ := ⟨u, rfl, rfl⟩

theorem SameHead.endsAs : SameHead s t → EndsAs p s t
  | ⟨_, hs, ht⟩, v, hv, _ => by
    rw [ht] at hv
    rw [hs]
    exact hv

theorem SameHead.stops (h : SameHead s t) (hs : s.Stops p) : t.Stops p := by
  obtain ⟨u, hu, hu'⟩ := h
  intro v hv
  rw [hu'] at hv
  exact hs v (hu ▸ hv)

theorem endsAs_cons {m n : TokenIndex} {u : Token} {us vs : List Token} :
    EndsAs p ⟨m, u :: us⟩ ⟨n, u :: vs⟩ := by simp [EndsAs]

theorem Stops.endsAs (h : t.Stops p) : EndsAs p s t := fun u hu hp => absurd hp (h u hu)

theorem Stops.mono (h : s.Stops p) (hq : ∀ u, q u → p u) : s.Stops q :=
  fun u hu hu' => h u hu (hq u hu')

theorem EndsAs.mono (h : EndsAs p s t) (hq : ∀ u, q u → p u) : EndsAs q s t :=
  fun u hu hu' => h u hu (hq u hu')

theorem EndsAs.stops (h : EndsAs p s t) (hs : s.Stops q) (hq : ∀ u, q u → p u) : t.Stops q :=
  fun u hu hu' => hs u (h u hu (hq u hu')) hu'

end Stream

variable {s t : Stream}

theorem token?_some {u : Token} {h : t.Follows s} (hs : token? s = some ⟨u, t, h⟩) :
    ∃ n ts, s = ⟨n, u :: ts⟩ ∧ t = ⟨n + 1, ts⟩ := by
  obtain ⟨n, _ | ⟨v, ts⟩⟩ := s
  · cases hs
  · cases hs
    exact ⟨n, ts, rfl, rfl⟩

theorem tokenWith?_some {α : Type} {read? : Token → Option α} {a : α} {h : t.Follows s}
    (hs : tokenWith? read? s = some ⟨a, t, h⟩) :
    ∃ n u ts, s = ⟨n, u :: ts⟩ ∧ t = ⟨n + 1, ts⟩ ∧ read? u = some a := by
  obtain ⟨n, _ | ⟨u, ts⟩⟩ := s
  · cases hs
  · obtain ⟨b, hb, he⟩ := Option.map_eq_some_iff.1 hs
    cases he
    exact ⟨n, u, ts, rfl, rfl, hb⟩

theorem tokenWith?_none_iff {α : Type} {read? : Token → Option α} :
    tokenWith? read? s = none ↔ s.Stops fun u => (read? u).isSome := by
  obtain ⟨n, ts⟩ := s
  cases ts <;> simp [tokenWith?, token?, Stream.Stops]

theorem nameOf?_some_iff {u : Token} {w : String} : nameOf? u = some w ↔ u = .name w := by
  cases u <;> simp [nameOf?]

theorem keywordOf?_some_iff {k : Keyword} {u : Token} :
    keywordOf? k u = some () ↔ u = .keyword k := by
  cases u <;> simp [keywordOf?]

theorem operatorOf?_some_iff {o : Operator} {u : Token} :
    operatorOf? o u = some () ↔ u = .operator o := by
  cases u <;> simp [operatorOf?]

theorem name?_some {w : String} {h : t.Follows s} (hs : name? s = some ⟨w, t, h⟩) :
    ∃ n ts, s = ⟨n, .name w :: ts⟩ ∧ t = ⟨n + 1, ts⟩ := by
  obtain ⟨n, u, ts, rfl, rfl, hu⟩ := tokenWith?_some hs
  exact ⟨n, ts, by rw [nameOf?_some_iff.1 hu], rfl⟩

theorem keyword?_some {k : Keyword} {h : t.Follows s} (hs : keyword? k s = some ⟨(), t, h⟩) :
    ∃ n ts, s = ⟨n, .keyword k :: ts⟩ ∧ t = ⟨n + 1, ts⟩ := by
  obtain ⟨n, u, ts, rfl, rfl, hu⟩ := tokenWith?_some hs
  exact ⟨n, ts, by rw [keywordOf?_some_iff.1 hu], rfl⟩

theorem operator?_some {o : Operator} {h : t.Follows s} (hs : operator? o s = some ⟨(), t, h⟩) :
    ∃ n ts, s = ⟨n, .operator o :: ts⟩ ∧ t = ⟨n + 1, ts⟩ := by
  obtain ⟨n, u, ts, rfl, rfl, hu⟩ := tokenWith?_some hs
  exact ⟨n, ts, by rw [operatorOf?_some_iff.1 hu], rfl⟩

theorem keyword?_none_iff {k : Keyword} : keyword? k s = none ↔ s.Stops (· = .keyword k) := by
  have key (u : Token) : (keywordOf? k u).isSome ↔ u = .keyword k := by
    cases u <;> simp [keywordOf?]
  rw [keyword?, tokenWith?_none_iff]
  simp only [Stream.Stops, key]

theorem operator?_none_iff {o : Operator} : operator? o s = none ↔ s.Stops (· = .operator o) := by
  have key (u : Token) : (operatorOf? o u).isSome ↔ u = .operator o := by
    cases u <;> simp [operatorOf?]
  rw [operator?, tokenWith?_none_iff]
  simp only [Stream.Stops, key]

theorem orUnexpected_ok {α : Type} {x : Option (Parsed s α)} {p : Parsed s α} :
    orUnexpected x = .ok p ↔ x = some p := by
  cases x <;> simp [orUnexpected]

theorem name_ok {w : String} {h : t.Follows s} (hs : name s = .ok ⟨w, t, h⟩) :
    ∃ n ts, s = ⟨n, .name w :: ts⟩ ∧ t = ⟨n + 1, ts⟩ := name?_some (orUnexpected_ok.1 hs)

theorem keyword_ok {k : Keyword} {h : t.Follows s} (hs : keyword k s = .ok ⟨(), t, h⟩) :
    ∃ n ts, s = ⟨n, .keyword k :: ts⟩ ∧ t = ⟨n + 1, ts⟩ := keyword?_some (orUnexpected_ok.1 hs)

theorem operator_ok {o : Operator} {h : t.Follows s} (hs : operator o s = .ok ⟨(), t, h⟩) :
    ∃ n ts, s = ⟨n, .operator o :: ts⟩ ∧ t = ⟨n + 1, ts⟩ := operator?_some (orUnexpected_ok.1 hs)

variable {n : TokenIndex} {us : List Token}

theorem token?_cons (u : Token) :
    token? ⟨n, u :: us⟩ = some ⟨u, ⟨n + 1, us⟩, Stream.tail_follows ..⟩ := rfl

theorem name?_cons (w : String) :
    name? ⟨n, .name w :: us⟩ = some ⟨w, ⟨n + 1, us⟩, Stream.tail_follows ..⟩ := rfl

theorem keyword?_cons (k : Keyword) :
    keyword? k ⟨n, .keyword k :: us⟩ = some ⟨(), ⟨n + 1, us⟩, Stream.tail_follows ..⟩ := by
  simp [keyword?, tokenWith?, token?, keywordOf?]

theorem operator?_cons (o : Operator) :
    operator? o ⟨n, .operator o :: us⟩ = some ⟨(), ⟨n + 1, us⟩, Stream.tail_follows ..⟩ := by
  simp [operator?, tokenWith?, token?, operatorOf?]

theorem keyword?_of_ne {k : Keyword} {u : Token} (h : u ≠ .keyword k) :
    keyword? k ⟨n, u :: us⟩ = none := keyword?_none_iff.2 (Stream.stops_cons.2 h)

theorem operator?_of_ne {o : Operator} {u : Token} (h : u ≠ .operator o) :
    operator? o ⟨n, u :: us⟩ = none := operator?_none_iff.2 (Stream.stops_cons.2 h)

theorem name_cons (w : String) :
    name ⟨n, .name w :: us⟩ = .ok ⟨w, ⟨n + 1, us⟩, Stream.tail_follows ..⟩ := rfl

theorem keyword_cons (k : Keyword) :
    keyword k ⟨n, .keyword k :: us⟩ = .ok ⟨(), ⟨n + 1, us⟩, Stream.tail_follows ..⟩ := by
  rw [keyword, keyword?_cons, orUnexpected]

theorem operator_cons (o : Operator) :
    operator o ⟨n, .operator o :: us⟩ = .ok ⟨(), ⟨n + 1, us⟩, Stream.tail_follows ..⟩ := by
  rw [operator, operator?_cons, orUnexpected]

end ScriptFront.Phrase
