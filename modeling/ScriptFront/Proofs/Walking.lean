import ScriptFront.Proofs.ParseErrors
import ScriptFront.Proofs.Walk
/-! A walk over the tokens comes to what a reader makes of them, and leaves the cursor where the
reader's rest begins. The moves of the cursor, tokens, types and signatures. -/
namespace ScriptFront.Phrase
open Syntax Token

/-- From the cursor `c` on, the walk comes to `r` and leaves the cursor at `c'`, once calls may nest
deep enough. -/
def Comes {α : Type} (x : Walk α) (c : Cursor) (r : Except ParseError α) (c' : Cursor) : Prop :=
  ∃ depth, ∀ n ≥ depth, x (Procedure.run n) c = some (r, c')

namespace Comes
variable {α β : Type} {x : Walk α} {g : α → Walk β} {c c₁ c₂ : Cursor} {a : α} {e : ParseError}
  {r r' : Except ParseError α} {r₂ : Except ParseError β}

theorem of (h : ∀ calls, x calls c = some (r, c₁)) : Comes x c r c₁ := ⟨0, fun _ _ => h _⟩

theorem value : Comes (pure a) c (.ok a) c := .of fun _ => rfl

theorem error : Comes (throw e : Walk α) c (.error e) c := .of fun _ => rfl

theorem bind (h : Comes x c (.ok a) c₁) (hg : Comes (g a) c₁ r₂ c₂) : Comes (x >>= g) c r₂ c₂ := by
  obtain ⟨d, h⟩ := h
  obtain ⟨d', hg⟩ := hg
  refine ⟨max d d', fun n hn => ?_⟩
  show Option.bind (x _ c) _ = _
  rw [h n (Nat.le_trans (Nat.le_max_left ..) hn)]
  exact hg n (Nat.le_trans (Nat.le_max_right ..) hn)

theorem bind_error (h : Comes x c (.error e) c₁) : Comes (x >>= g) c (.error e) c₁ := by
  obtain ⟨d, h⟩ := h
  refine ⟨d, fun n hn => ?_⟩
  show Option.bind (x _ c) _ = _
  rw [h n hn]
  rfl

theorem attempt (h : Comes x c r c₁) : Comes x.attempt c (.ok r.toOption) c₁ := by
  obtain ⟨d, h⟩ := h
  refine ⟨d, fun n hn => ?_⟩
  show Option.bind (Option.bind (x _ c) _) _ = _
  rw [h n hn]
  cases r <;> rfl

/-- A call nests one deeper than what is called. -/
theorem call {f : Procedure α} (h : Comes f.walk c r c₁) : Comes (.call f) c r c₁ := by
  obtain ⟨d, h⟩ := h
  refine ⟨d + 1, fun n hn => ?_⟩
  obtain ⟨n, rfl⟩ := Nat.exists_eq_add_of_le' hn
  exact h (n + d) (Nat.le_add_left ..)

theorem call_iff {f : Procedure α} : Comes (.call f) c r c₁ ↔ Comes f.walk c r c₁ := by
  refine ⟨fun ⟨d, h⟩ => ⟨d, fun n hn => ?_⟩, call⟩
  exact h (n + 1) (Nat.le_succ_of_le hn)

/-- After what is known to come first, a walk comes to what it does from there. -/
theorem bind_iff (h : Comes x c (.ok a) c₁) : Comes (x >>= g) c r₂ c₂ ↔ Comes (g a) c₁ r₂ c₂ := by
  refine ⟨fun ⟨d', hg⟩ => ?_, h.bind⟩
  obtain ⟨d, h⟩ := h
  refine ⟨max d d', fun n hn => ?_⟩
  have hn' := hg n (Nat.le_trans (Nat.le_max_right ..) hn)
  have hbind : Option.bind (x (Procedure.run n) c) _ = _ := hn'
  rw [h n (Nat.le_trans (Nat.le_max_left ..) hn)] at hbind
  exact hbind

/-- However deep calls may nest, there are no two ends. -/
theorem unique (h : Comes x c r c₁) (h' : Comes x c r' c₂) : r = r' ∧ c₁ = c₂ := by
  obtain ⟨d, h⟩ := h
  obtain ⟨d', h'⟩ := h'
  have he := (h _ (Nat.le_max_left d d')).symm.trans (h' _ (Nat.le_max_right d d'))
  exact Prod.mk.inj (Option.some.inj he)

end Comes

/-- From the token `n` on, the walk comes to what the reader makes of the tokens: to the value and
the rest that `out` tells, or to the same error somewhere within the tokens. -/
def Walks {α γ : Type} (ts : List Token) (x : Walk α) (n : TokenIndex) (r : Except ParseError γ)
    (out : γ → α × Stream) : Prop :=
  match r with
  | .ok c => Comes x ⟨ts, n⟩ (.ok (out c).1) ⟨ts, (out c).2.next⟩
  | .error e => ∃ m ≤ ts.length, Comes x ⟨ts, n⟩ (.error e) ⟨ts, m⟩

def Parsed.out {s : Stream} {α : Type} (p : Parsed s α) : α × Stream := (p.value, p.rest)
def Trail.out {s : Stream} {α : Type} (p : Trail s α) : α × Stream := (p.value, p.rest)

/-- With the index of the token that is read. -/
def Parsed.outAt {s : Stream} {α : Type} (p : Parsed s α) : (TokenIndex × α) × Stream :=
  ((s.next, p.value), p.rest)

/-- The index alone, of a token that is known. -/
def Parsed.outIndex {s : Stream} {α : Type} (p : Parsed s α) : TokenIndex × Stream :=
  (s.next, p.rest)

/-- A reader that may find nothing leaves the stream where it is. -/
def Parsed.out? {s : Stream} {α : Type} : Option (Parsed s α) → Option α × Stream
  | some p => (some p.value, p.rest)
  | none => (none, s)

section
variable {α β γ δ : Type} {ts us : List Token} {s t : Stream} {n m : TokenIndex} {u : Token}
  {x : Walk α} {g : α → Walk β} {a : α} {r : Except ParseError γ} {out : γ → α × Stream}
  {r' : Except ParseError δ} {out' : δ → β × Stream}

namespace Walks

theorem error {e : ParseError} (hn : n ≤ ts.length) :
    Walks ts (throw e : Walk α) n (.error e) out := ⟨n, hn, .error⟩

theorem done {c : γ} (hx : x = pure (out c).1) (hn : n = (out c).2.next) :
    Walks ts x n (.ok c) out := by
  subst hx hn
  exact Comes.value

theorem value {c : γ} (h : out c = (a, s)) : Walks ts (pure a) s.next (.ok c) out :=
  .done (congrArg (pure ·.1) h.symm) (congrArg (·.2.next) h.symm)

/-- Moves that no reader answers to. -/
theorem step (h : Comes x ⟨ts, n⟩ (.ok a) ⟨ts, m⟩) (hk : Walks ts (g a) m r' out') :
    Walks ts (x >>= g) n r' out' := by
  cases r' with
  | ok c => exact h.bind hk
  | error e =>
    obtain ⟨l, hl, hk⟩ := hk
    exact ⟨l, hl, h.bind hk⟩

/-- Nothing comes after an error. -/
theorem stop {e : ParseError} (h : Walks ts x n (.error e) out) :
    Walks ts (x >>= g) n (.error e) out' := by
  obtain ⟨m, hm, h⟩ := h
  exact ⟨m, hm, h.bind_error⟩

theorem bind {k : γ → Except ParseError δ} (h : Walks ts x n r out)
    (hk : ∀ c, r = .ok c → Walks ts (g (out c).1) (out c).2.next (k c) out') :
    Walks ts (x >>= g) n (r >>= k) out' := by
  cases r with
  | ok c => exact step h (hk c rfl)
  | error e => exact stop h

/-- A walk that answers to a reader whose value it gives another form. -/
theorem bind_map {ε : Type} {q : Except ParseError ε} {f : ε → γ} {k : ε → Except ParseError δ}
    (h : Walks ts x n (q >>= fun c => .ok (f c)) out)
    (hk : ∀ c, q = .ok c → Walks ts (g (out (f c)).1) (out (f c)).2.next (k c) out') :
    Walks ts (x >>= g) n (q >>= k) out' := by
  cases q with
  | ok c => exact step h (hk c rfl)
  | error e => exact stop h

/-- A reader that hands on what another has made. -/
theorem handed {k : γ → Except ParseError δ} {out' : δ → α × Stream} (h : Walks ts x n r out)
    (hk : ∀ c, ∃ d, k c = .ok d ∧ out' d = out c) : Walks ts x n (r >>= k) out' := by
  cases r with
  | ok c =>
    obtain ⟨d, hd, ho⟩ := hk c
    show Walks ts x n (k c) out'
    rw [hd]
    show Comes x ⟨ts, n⟩ (.ok (out' d).1) ⟨ts, (out' d).2.next⟩
    rw [ho]
    exact h
  | error e => exact h

theorem call {f : Procedure α} (h : Walks ts f.walk n r out) : Walks ts (.call f) n r out := by
  cases r with
  | ok c => exact Comes.call h
  | error e =>
    obtain ⟨m, hm, h⟩ := h
    exact ⟨m, hm, h.call⟩

/-- What a walk that answers to a reader comes to. -/
theorem comes_ok_iff {c : Cursor} (h : Walks ts x n r out) :
    Comes x ⟨ts, n⟩ (.ok a) c ↔ ∃ v, r = .ok v ∧ (out v).1 = a ∧ c = ⟨ts, (out v).2.next⟩ := by
  constructor
  · intro hc
    cases r with
    | ok v =>
      obtain ⟨ha, rfl⟩ := Comes.unique h hc
      exact ⟨v, rfl, Except.ok.inj ha, rfl⟩
    | error e =>
      obtain ⟨m, -, h⟩ := h
      cases (h.unique hc).1
  · rintro ⟨v, rfl, rfl, rfl⟩
    exact h

end Walks

theorem Stream.In.le (hs : s.In ts) : s.next ≤ ts.length := hs.next_add ▸ Nat.le_add_right ..

namespace Walk

theorem skip_comes : Comes skip ⟨ts, n⟩ (.ok ()) ⟨ts, n + 1⟩ := .of fun _ => rfl
theorem undo_comes : Comes undo ⟨ts, n + 1⟩ (.ok ()) ⟨ts, n⟩ := .of fun _ => rfl
theorem position_comes : Comes position ⟨ts, n⟩ (.ok n) ⟨ts, n⟩ := .of fun _ => rfl
theorem rewind_comes : Comes (rewind m) ⟨ts, n⟩ (.ok ()) ⟨ts, m⟩ := .of fun _ => rfl

theorem endIndex_nil (hs : Stream.In ⟨n, []⟩ ts) : Comes endIndex ⟨ts, n⟩ (.ok n) ⟨ts, n⟩ := by
  have h : n = ts.length := hs.next_add
  subst h
  exact .of fun _ => rfl

theorem nextIndex_comes (hs : s.In ts) :
    Comes nextIndex ⟨ts, s.next⟩ (.ok s.next) ⟨ts, s.next⟩ := by
  have h : (Cursor.mk ts s.next).nextIndex = s.next := Nat.min_eq_left hs.le
  refine .of fun _ => ?_
  show some (Except.ok (Cursor.mk ts s.next).nextIndex, _) = _
  rw [h]

theorem peek_of {o : Option (TokenIndex × Token)} (h : (Cursor.mk ts n).peek = o) :
    Comes peek ⟨ts, n⟩ (.ok o) ⟨ts, n⟩ := .of fun _ => h ▸ rfl

theorem cursorPeek_cons (hs : Stream.In ⟨n, u :: us⟩ ts) : (Cursor.mk ts n).peek = some (n, u) := by
  simp [Cursor.peek, Cursor.at?, hs.getElem?]

theorem cursorPeek_nil (hs : Stream.In ⟨n, []⟩ ts) : (Cursor.mk ts n).peek = none := by
  have h : n = ts.length := hs.next_add
  simp [Cursor.peek, Cursor.at?, h]

theorem peek_cons (hs : Stream.In ⟨n, u :: us⟩ ts) :
    Comes peek ⟨ts, n⟩ (.ok (some (n, u))) ⟨ts, n⟩ := peek_of (cursorPeek_cons hs)

theorem peek_nil (hs : Stream.In ⟨n, []⟩ ts) : Comes peek ⟨ts, n⟩ (.ok none) ⟨ts, n⟩ :=
  peek_of (cursorPeek_nil hs)

/-- Behind the last token there is none. -/
theorem peek_beyond (h : ts.length ≤ n) : Comes peek ⟨ts, n⟩ (.ok none) ⟨ts, n⟩ :=
  peek_of (by simp [Cursor.peek, Cursor.at?, h])

theorem peekSecond_of {o : Option (TokenIndex × Token)} (h : (Cursor.mk ts (n + 1)).peek = o) :
    Comes peekSecond ⟨ts, n⟩ (.ok o) ⟨ts, n⟩ := .of fun _ => h ▸ rfl

theorem advance_cons (hs : Stream.In ⟨n, u :: us⟩ ts) :
    Comes advance ⟨ts, n⟩ (.ok (some (n, u))) ⟨ts, n + 1⟩ :=
  (peek_cons hs).bind (skip_comes.bind .value)

theorem advance_nil (hs : Stream.In ⟨n, []⟩ ts) :
    Comes advance ⟨ts, n⟩ (.ok none) ⟨ts, n + 1⟩ :=
  (peek_nil hs).bind (skip_comes.bind .value)

theorem advance_some {h : t.Follows s} (hs : s.In ts) (ht : token? s = some ⟨u, t, h⟩) :
    Comes advance ⟨ts, s.next⟩ (.ok (some (s.next, u))) ⟨ts, t.next⟩ := by
  obtain ⟨n, us, rfl, rfl⟩ := token?_some ht
  exact advance_cons hs

theorem undo_token {h : t.Follows s} (ht : token? s = some ⟨u, t, h⟩) :
    Comes undo ⟨ts, t.next⟩ (.ok ()) ⟨ts, s.next⟩ := by
  obtain ⟨n, us, rfl, rfl⟩ := token?_some ht
  exact undo_comes

theorem last_cons (hs : Stream.In ⟨n, u :: us⟩ ts) :
    Comes last ⟨ts, n + 1⟩ (.ok (some (n, u))) ⟨ts, n + 1⟩ := by
  have h : (Cursor.mk ts (n + 1)).last = some (n, u) := by
    simp [Cursor.last, Cursor.at?, hs.getElem?]
  exact .of fun _ => h ▸ rfl

theorem next_cons (hs : Stream.In ⟨n, u :: us⟩ ts) :
    Comes next ⟨ts, n⟩ (.ok (n, u)) ⟨ts, n + 1⟩ := (advance_cons hs).bind .value

theorem next_nil (hs : Stream.In ⟨n, []⟩ ts) :
    Comes next ⟨ts, n⟩ (.error (.endOfInput n)) ⟨ts, n⟩ :=
  (advance_nil hs).bind (undo_comes.bind ((endIndex_nil hs).bind .error))

theorem next_beyond (h : ts.length ≤ n) :
    Comes next ⟨ts, n⟩ (.error (.endOfInput ts.length)) ⟨ts, n⟩ := by
  have hadvance : Comes advance ⟨ts, n⟩ (.ok none) ⟨ts, n + 1⟩ :=
    (peek_beyond h).bind (skip_comes.bind .value)
  have hend : Comes endIndex ⟨ts, n⟩ (.ok ts.length) ⟨ts, n⟩ := .of fun _ => rfl
  exact hadvance.bind (undo_comes.bind (hend.bind .error))

theorem next_some (hs : s.In ts) {h : t.Follows s} (ht : token? s = some ⟨u, t, h⟩) :
    Comes next ⟨ts, s.next⟩ (.ok (s.next, u)) ⟨ts, t.next⟩ := by
  obtain ⟨n, us, rfl, rfl⟩ := token?_some ht
  exact next_cons hs

theorem accept_some {is? : Token → Option Unit} {h : t.Follows s} {v : Unit} (hs : s.In ts)
    (ht : tokenWith? is? s = some ⟨v, t, h⟩) :
    Comes (accept is?) ⟨ts, s.next⟩ (.ok (some s.next)) ⟨ts, t.next⟩ := by
  obtain ⟨n, u, us, rfl, rfl, hu⟩ := tokenWith?_some ht
  refine (peek_cons hs).bind ?_
  simp only [hu]
  exact skip_comes.bind .value

theorem accept_none {is? : Token → Option Unit} (hs : s.In ts) (ht : tokenWith? is? s = none) :
    Comes (accept is?) ⟨ts, s.next⟩ (.ok none) ⟨ts, s.next⟩ := by
  obtain ⟨n, _ | ⟨u, us⟩⟩ := s
  · exact (peek_nil hs).bind .value
  · have hu := Stream.stops_cons.1 (tokenWith?_none_iff.1 ht)
    refine (peek_cons hs).bind ?_
    simp only [Option.not_isSome_iff_eq_none.1 hu]
    exact .value

theorem accept_token {is? : Token → Option Unit} {h : t.Follows s} (hs : s.In ts)
    (ht : token? s = some ⟨u, t, h⟩) (hu : is? u = some ()) :
    Comes (accept is?) ⟨ts, s.next⟩ (.ok (some s.next)) ⟨ts, t.next⟩ :=
  accept_some (h := h) (v := ()) hs (by rw [tokenWith?, ht]; simp [hu])

theorem accept_other {is? : Token → Option Unit} {h : t.Follows s} (hs : s.In ts)
    (ht : token? s = some ⟨u, t, h⟩) (hu : is? u = none) :
    Comes (accept is?) ⟨ts, s.next⟩ (.ok none) ⟨ts, s.next⟩ :=
  accept_none hs (by rw [tokenWith?, ht]; simp [hu])

end Walk

/-- Where no token will do, the walk stops as the reader does. -/
theorem Walks.unexpected {g : TokenIndex × Token → Walk β} (hs : s.In ts)
    (hg : ∀ u t h, token? s = some ⟨u, t, h⟩ →
      g (s.next, u) = throw (.unexpectedToken s.next u)) :
    Walks ts (Walk.next >>= g) s.next (.error (unexpected s)) out' := by
  obtain ⟨n, _ | ⟨u, us⟩⟩ := s
  · exact ⟨n, hs.le, (Walk.next_nil hs).bind_error⟩
  · refine .step (Walk.next_cons hs) ?_
    rw [hg u _ _ rfl]
    exact .error hs.tail.le

/-- What is made without a look at the tokens. -/
theorem walks_ofExcept {r : Except ParseError α} (hs : s.In ts) :
    Walks ts (ofExcept r) s.next r (·, s) := by
  cases r with
  | ok a => exact .done rfl rfl
  | error e => exact .error hs.le

theorem walks_name (hs : s.In ts) : Walks ts Walk.name s.next (name s) Parsed.outAt := by
  obtain ⟨n, _ | ⟨u, us⟩⟩ := s
  · exact ⟨n, hs.le, (Walk.next_nil hs).bind_error⟩
  · cases u with
    | name w => exact .step (Walk.next_cons hs) (.done rfl rfl)
    | _ => exact .step (Walk.next_cons hs) (.error hs.tail.le)

theorem walks_expect {is? : Token → Option Unit} (hs : s.In ts) :
    Walks ts (Walk.expect is?) s.next (orUnexpected (tokenWith? is? s)) Parsed.outIndex := by
  cases ht : tokenWith? is? s with
  | some p =>
    obtain ⟨n, u, us, rfl, he, hu⟩ := tokenWith?_some ht
    refine .step (Walk.next_cons hs) ?_
    dsimp only
    rw [hu]
    exact .done rfl (congrArg Stream.next he).symm
  | none =>
    refine .unexpected hs fun u t h hu => ?_
    obtain ⟨n, us, rfl, rfl⟩ := token?_some hu
    have hu := Stream.stops_cons.1 (tokenWith?_none_iff.1 ht)
    dsimp only
    rw [Option.not_isSome_iff_eq_none.1 hu]

theorem walks_keyword {k : Keyword} (hs : s.In ts) :
    Walks ts (Walk.keyword k) s.next (keyword k s) Parsed.outIndex := walks_expect hs

theorem walks_operator {o : Operator} (hs : s.In ts) :
    Walks ts (Walk.operator o) s.next (operator o s) Parsed.outIndex := walks_expect hs

theorem walks_optionals {i : TokenIndex} {type : TypeExpr} {s : Stream} (hs : s.In ts) :
    Walks ts (.call (.optionals i type)) s.next (.ok (optionals i type s)) Trail.out := by
  refine .call ?_
  rw [optionals, Procedure.walk, Walk.optionals]
  split
  · next s₁ h₁ ho =>
    exact .step (Walk.accept_some hs ho) (walks_optionals (hs.follows h₁))
  · next ho => exact .step (Walk.accept_none hs ho) (.done rfl rfl)
termination_by s.left.length
decreasing_by exact Stream.Follows.length_lt ‹_›

theorem walks_typeExpr {s : Stream} (hs : s.In ts) :
    Walks ts (.call .typeExpr) s.next (typeExpr s) Parsed.out := by
  refine .call ?_
  rw [typeExpr, Procedure.walk, Walk.typeExpr]
  split
  · next w s₁ h₁ ht =>
    have hs₁ := hs.follows h₁
    refine .step (Walk.next_some hs ht) ?_
    dsimp only
    split
    · next s₂ h₂ ho =>
      have hs₂ := hs₁.follows h₂
      refine .step (Walk.accept_some hs₁ ho) (.bind (walks_name hs₂) ?_)
      rintro ⟨member, s₃, h₃⟩ -
      exact walks_optionals (hs₂.follows h₃)
    · next ho => exact .step (Walk.accept_none hs₁ ho) (walks_optionals hs₁)
  · next s₁ h₁ ht =>
    have hs₁ := hs.follows h₁
    refine .step (Walk.next_some hs ht) (.bind (walks_typeExpr hs₁) ?_)
    rintro ⟨first, s₂, h₂⟩ -
    have h₂' := h₂.trans h₁
    have hs₂ := hs.follows h₂'
    dsimp only [Parsed.out]
    split
    · next s₃ h₃ ho =>
      have h₃' := h₃.trans h₂'
      have hs₃ := hs.follows h₃'
      refine .step (Walk.accept_some hs₂ ho) (.bind (walks_typeExpr hs₃) ?_)
      rintro ⟨value, s₄, h₄⟩ -
      have hs₄ := hs₃.follows h₄
      refine .bind (walks_operator hs₄) ?_
      rintro ⟨_, s₅, h₅⟩ -
      exact walks_optionals (hs₄.follows h₅)
    · next ho =>
      refine .step (Walk.accept_none hs₂ ho) (.bind (walks_operator hs₂) ?_)
      rintro ⟨_, s₃, h₃⟩ -
      exact walks_optionals (hs₂.follows h₃)
  · next hname hsquare =>
    refine .unexpected hs fun u t h hu => ?_
    dsimp only
    split
    · exact (hname _ _ _ hu).elim
    · exact (hsquare _ _ hu).elim
    · rfl
termination_by s.left.length
decreasing_by all_goals exact Stream.Follows.length_lt ‹_›

theorem walks_typedName (hs : s.In ts) :
    Walks ts Walk.typedName s.next (typedName s) Parsed.out := by
  refine .bind (walks_name hs) ?_
  rintro ⟨w, s₁, h₁⟩ -
  have hs₁ := hs.follows h₁
  dsimp only [Parsed.outAt]
  split
  · next s₂ h₂ ho =>
    exact .step (Walk.accept_some hs₁ ho)
      (.bind (walks_typeExpr (hs₁.follows h₂)) fun _ _ => .done rfl rfl)
  · next ho => exact .step (Walk.accept_none hs₁ ho) (.done rfl rfl)

theorem walks_typedNames {s : Stream} (hs : s.In ts) :
    Walks ts (.call .typedNames) s.next (typedNames s) Parsed.out := by
  refine .call ?_
  rw [typedNames, Procedure.walk, Walk.typedNames]
  refine .bind (walks_typedName hs) ?_
  rintro ⟨first, s₁, h₁⟩ -
  have hs₁ := hs.follows h₁
  dsimp only [Parsed.out]
  split
  · next s₂ h₂ ho =>
    have h₂' := h₂.trans h₁
    exact .step (Walk.accept_some hs₁ ho)
      (.bind (walks_typedNames (hs.follows h₂')) fun _ _ => .done rfl rfl)
  · next ho => exact .step (Walk.accept_none hs₁ ho) (.done rfl rfl)
termination_by s.left.length
decreasing_by exact Stream.Follows.length_lt ‹_›

theorem walks_typeExprs {s : Stream} (hs : s.In ts) :
    Walks ts (.call .typeExprs) s.next (typeExprs s) Parsed.out := by
  refine .call ?_
  rw [typeExprs, Procedure.walk, Walk.typeExprs]
  refine .bind (walks_typeExpr hs) ?_
  rintro ⟨first, s₁, h₁⟩ -
  have hs₁ := hs.follows h₁
  dsimp only [Parsed.out]
  split
  · next s₂ h₂ ho =>
    have h₂' := h₂.trans h₁
    exact .step (Walk.accept_some hs₁ ho)
      (.bind (walks_typeExprs (hs.follows h₂')) fun _ _ => .done rfl rfl)
  · next ho => exact .step (Walk.accept_none hs₁ ho) (.done rfl rfl)
termination_by s.left.length
decreasing_by exact Stream.Follows.length_lt ‹_›

theorem walks_parameters {s : Stream} (hs : s.In ts) :
    Walks ts (.call .parameters) s.next (parameters s) Parsed.out := by
  refine .call ?_
  rw [parameters, Procedure.walk, Walk.parameters]
  split
  · next s₁ h₁ ho =>
    exact .step (Walk.accept_some hs ho)
      (.bind (walks_operator (hs.follows h₁)) fun _ _ => .done rfl rfl)
  · next ho =>
    refine .step (Walk.accept_none hs ho) (.bind (walks_typedName hs) ?_)
    rintro ⟨first, s₁, h₁⟩ -
    have hs₁ := hs.follows h₁
    dsimp only [Parsed.out]
    split
    · next ho => exact .step (Walk.accept_some hs₁ ho) (.done rfl rfl)
    · next ho =>
      refine .step (Walk.accept_none hs₁ ho) (.bind (walks_operator hs₁) ?_)
      rintro ⟨_, s₂, h₂⟩ -
      have h₂' := h₂.trans h₁
      exact .bind (walks_parameters (hs.follows h₂')) fun _ _ => .done rfl rfl
termination_by s.left.length
decreasing_by exact Stream.Follows.length_lt ‹_›

theorem walks_returnTypes (hs : s.In ts) :
    Walks ts Walk.returnTypes s.next (returnTypes s) Trail.out := by
  rw [returnTypes, Walk.returnTypes]
  split
  · next s₁ h₁ ho =>
    exact .step (Walk.accept_some hs ho)
      (.handed (walks_typeExprs (hs.follows h₁)) fun _ => ⟨_, rfl, rfl⟩)
  · next ho => exact .step (Walk.accept_none hs ho) (.done rfl rfl)

theorem walks_signature (hs : s.In ts) :
    Walks ts Walk.signature s.next (signature s) Parsed.out := by
  refine .bind (walks_operator hs) ?_
  rintro ⟨_, s₁, h₁⟩ -
  have hs₁ := hs.follows h₁
  dsimp only [Parsed.outIndex]
  split
  · next s₂ h₂ ho =>
    exact .step (Walk.accept_some hs₁ ho)
      (.bind (walks_returnTypes (hs₁.follows h₂)) fun _ _ => .done rfl rfl)
  · next ho =>
    refine .step (Walk.accept_none hs₁ ho) (.bind (walks_parameters hs₁) ?_)
    rintro ⟨_, s₂, h₂⟩ -
    exact .bind (walks_returnTypes (hs₁.follows h₂)) fun _ _ => .done rfl rfl

theorem operator?_none_of {o : Operator}
    (h : ∀ t ht, token? s = some ⟨.operator o, t, ht⟩ → False) : operator? o s = none := by
  cases ho : operator? o s with
  | none => rfl
  | some p =>
    obtain ⟨n, us, rfl, -⟩ := operator?_some ho
    exact (h _ _ (token?_cons _)).elim

theorem walks_path {s : Stream} (hs : s.In ts) :
    Walks ts (.call .path) s.next (path s) Parsed.out := by
  refine .call ?_
  rw [path, Procedure.walk, Walk.path]
  refine .bind (walks_name hs) ?_
  rintro ⟨first, s₁, h₁⟩ -
  have hs₁ := hs.follows h₁
  dsimp only [Parsed.outAt]
  split
  · next s₂ h₂ ht =>
    have h₂' := h₂.trans h₁
    exact .step (Walk.accept_token hs₁ ht rfl)
      (.bind (walks_path (hs.follows h₂')) fun _ _ => .done rfl rfl)
  · next s₂ h₂ ht =>
    refine .step (Walk.accept_other hs₁ ht rfl) (.step (Walk.accept_token hs₁ ht rfl) ?_)
    exact .bind (walks_name (hs₁.follows h₂)) fun _ _ => .done rfl rfl
  · next hdot hcolon =>
    exact .step (Walk.accept_none hs₁ (operator?_none_of hdot))
      (.step (Walk.accept_none hs₁ (operator?_none_of hcolon)) (.done rfl rfl))
termination_by s.left.length
decreasing_by exact Stream.Follows.length_lt ‹_›

theorem Walk.labelAhead_comes (hs : s.In ts) :
    Comes labelAhead? ⟨ts, s.next⟩ (.ok ((Phrase.typeLabel? s).map (·.value))) ⟨ts, s.next⟩ := by
  obtain ⟨n, _ | ⟨u, _ | ⟨v, us⟩⟩⟩ := s
  · exact (peek_nil hs).bind ((peekSecond_of rfl).bind .value)
  · refine (peek_cons hs).bind ((peekSecond_of (cursorPeek_nil hs.tail)).bind ?_)
    cases u <;> exact .value
  · refine (peek_cons hs).bind ((peekSecond_of (cursorPeek_cons hs.tail)).bind ?_)
    cases u with
    | name w =>
      cases v with
      | operator o => cases o <;> exact .value
      | _ => exact .value
    | _ => exact .value

theorem Walk.sees_comes {o : Operator} (hs : s.In ts) :
    Comes (sees o) ⟨ts, s.next⟩ (.ok (Phrase.operator? o s).isSome) ⟨ts, s.next⟩ := by
  obtain ⟨n, _ | ⟨u, us⟩⟩ := s
  · exact (peek_nil hs).bind .value
  · have h : (Phrase.operator? o ⟨n, u :: us⟩).isSome = (operatorOf? o u).isSome :=
      Option.isSome_map ..
    rw [h]
    exact (peek_cons hs).bind .value

theorem Walk.seesTargetEnd_comes (hs : s.In ts) :
    Comes (sees .comma <||> sees .equal) ⟨ts, s.next⟩
      (.ok ((Phrase.operator? .comma s).isSome || (Phrase.operator? .equal s).isSome))
      ⟨ts, s.next⟩ := by
  refine (sees_comes hs).bind ?_
  cases (Phrase.operator? .comma s).isSome with
  | true => exact .value
  | false => exact sees_comes hs

theorem operator?_of_token? {o : Operator} {h : t.Follows s}
    (ht : token? s = some ⟨.operator o, t, h⟩) : (operator? o s).isSome = true := by
  obtain ⟨n, us, rfl, -⟩ := token?_some ht
  rw [operator?_cons]
  rfl

theorem walks_typedTarget? (hs : s.In ts) :
    Walks ts Walk.typedTarget? s.next (.ok (typedTarget? s)) Parsed.out? := by
  refine .step (Walk.labelAhead_comes hs) ?_
  cases hl : typeLabel? s with
  | none =>
    cases ht : typedTarget? s with
    | none => exact .done rfl rfl
    | some p =>
      obtain ⟨typed, t, h⟩ := p
      obtain ⟨_, _⟩ := reads_typedTarget? ht
      obtain ⟨_, hl'⟩ := typeLabel?_cons _ _ _
      cases hl.symm.trans hl'
  | some l =>
    obtain ⟨w, s₂, h₂⟩ := l
    obtain ⟨n, us, rfl, rfl⟩ := typeLabel?_some hl
    have hs₂ := hs.tail.tail
    refine .step Walk.position_comes (.step (walks_name hs) (.step Walk.skip_comes ?_))
    simp only [typedTarget?, name?_cons, operator?_cons, Option.bind_eq_bind, Option.bind_some]
    have hx := walks_typeExpr hs₂
    cases hr : typeExpr ⟨n + 1 + 1, us⟩ with
    | error e =>
      rw [hr] at hx
      obtain ⟨m, -, hx⟩ := hx
      exact .step hx.attempt (.step Walk.rewind_comes (.done rfl rfl))
    | ok c =>
      obtain ⟨type, t, h⟩ := c
      rw [hr] at hx
      have hx := Comes.attempt hx
      refine .step hx (.step (Walk.seesTargetEnd_comes (hs₂.follows h)) ?_)
      simp only [Parsed.out, Except.toOption, Option.bind_some]
      cases hb : (operator? .comma t).isSome || (operator? .equal t).isSome with
      | true =>
        rcases Bool.or_eq_true_iff.1 hb with hb | hb
        all_goals
          obtain ⟨p, ho⟩ := Option.isSome_iff_exists.1 hb
          obtain ⟨m, vs, rfl, -⟩ := operator?_some ho
          exact .done rfl rfl
      | false =>
        obtain ⟨hc, he⟩ := Bool.or_eq_false_iff.1 hb
        refine .step Walk.rewind_comes ?_
        split
        · next ht => cases (operator?_of_token? ht).symm.trans hc
        · next ht => cases (operator?_of_token? ht).symm.trans he
        · exact .done rfl rfl

end
end ScriptFront.Phrase
