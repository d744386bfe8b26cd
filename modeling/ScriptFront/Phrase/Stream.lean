import ScriptFront.Token
/-! What is left of a token list while it is read. `t.IsRest s` says that `t` is reached from `s` by
taking tokens, and `t.Follows s` that at least one is taken. -/
namespace ScriptFront.Phrase

structure Stream where
  next : TokenIndex
  left : List Token

namespace Stream

def ofTokens (tokens : List Token) : Stream := ⟨0, tokens⟩

/-- `t` is left of `s` after `taken`. -/
def After (taken : List Token) (s t : Stream) : Prop :=
  s.left = taken ++ t.left ∧ t.next = s.next + taken.length

def IsRest (t s : Stream) : Prop := ∃ taken, After taken s t
def Follows (t s : Stream) : Prop := ∃ token taken, After (token :: taken) s t

theorem After.trans {r s t : Stream} {us vs : List Token} (h : After us r s) (k : After vs s t) :
    After (us ++ vs) r t := by
  constructor
  · rw [h.1, k.1, List.append_assoc]
  · rw [k.2, h.2, List.length_append, Nat.add_assoc]

theorem eq_of_after_nil {s t : Stream} (h : After [] s t) : t = s := by
  cases s
  cases t
  cases h.1
  cases h.2
  rfl

theorem isRest_self (s : Stream) : s.IsRest s := ⟨[], rfl, rfl⟩

theorem Follows.isRest {s t : Stream} : t.Follows s → t.IsRest s
  | ⟨token, taken, h⟩ => ⟨token :: taken, h⟩

theorem IsRest.trans {r s t : Stream} : t.IsRest s → s.IsRest r → t.IsRest r
  | ⟨_, h⟩, ⟨_, k⟩ => ⟨_, k.trans h⟩

theorem IsRest.follows {r s t : Stream} : t.IsRest s → s.Follows r → t.Follows r
  | ⟨_, h⟩, ⟨_, _, k⟩ => ⟨_, _, k.trans h⟩

theorem Follows.ofRest {r s t : Stream} : t.Follows s → s.IsRest r → t.Follows r
  | h, ⟨[], k⟩ => eq_of_after_nil k ▸ h
  | h, ⟨_ :: _, k⟩ => h.isRest.follows ⟨_, _, k⟩

theorem Follows.trans {r s t : Stream} (h : t.Follows s) (k : s.Follows r) : t.Follows r :=
  h.isRest.follows k

theorem IsRest.length_le {s t : Stream} : t.IsRest s → t.left.length ≤ s.left.length
  | ⟨_, h, _⟩ => by
    rw [h, List.length_append]
    exact Nat.le_add_left ..

theorem Follows.length_lt {s t : Stream} : t.Follows s → t.left.length < s.left.length
  | ⟨_, _, h, _⟩ => by
    rw [h, List.length_append, List.length_cons]
    omega

/-- The measure of readers that call each other on one stream: how much is left, then a rank below
eight. -/
def rank (s : Stream) (i : Nat) : Nat := 8 * s.left.length + i

theorem Follows.rank_lt {s t : Stream} {i j : Nat} (h : t.Follows s) (hi : i < 8) :
    t.rank i < s.rank j := by
  have := h.length_lt
  unfold rank
  omega

theorem IsRest.rank_lt {s t : Stream} {i j : Nat} (h : t.IsRest s) (hij : i < j) :
    t.rank i < s.rank j := by
  have := h.length_le
  unfold rank
  omega

theorem tail_follows (next : TokenIndex) (token : Token) (tokens : List Token) :
    (⟨next + 1, tokens⟩ : Stream).Follows ⟨next, token :: tokens⟩ := ⟨token, [], rfl, rfl⟩

end Stream

end ScriptFront.Phrase
