import ScriptFront.Proofs.ChunkWalking
/-! Where the parser leaves its cursor. Whichever of its functions is called, and wherever within
the tokens, it ends, without a step back from before the first token, and the cursor is within the
tokens again. -/
namespace ScriptFront.Phrase
open Syntax Token

/-- How far a success takes the cursor. -/
inductive Progress where
  | stays | moves | any

def Progress.Holds (p q : Nat) : Progress → Prop
  | stays => q = p
  | moves => p < q
  | any => p ≤ q

/-- An offer that is taken up moves the cursor, and else it stays. -/
def Progress.ofOffer {α : Type} : Option α → Progress
  | some _ => moves
  | none => stays

/-- How far a success with the value takes the cursor. -/
def Procedure.progress {α : Type} : Procedure α → α → Progress
  | keyword? _, found => .ofOffer found
  | operator? _, found => .ofOffer found
  | sees _, _ => .stays
  | optionals .., _ => .any
  | typedTarget?, found => .ofOffer found
  | semicolons, _ => .any
  | expression? _, found => .ofOffer found
  | operations .., _ => .any
  | atom?, found => .ofOffer found
  | suffixes .., _ => .any
  | moreExpressions, _ => .any
  | block none _, _ => .any
  | statement? .., some _ => .moves
  | statement? .., none => .any
  | returnValues, _ => .any
  | stepValue, _ => .any
  | moreTargets, _ => .any
  | conformances, _ => .any
  | items _, _ => .any
  | chunk, _ => .any
  | _, _ => .moves

/-- The walk ends within the tokens, and after a success as far on as `g` says. -/
def Ends {α : Type} (ts : List Token) (p : Nat) (x : Walk α) (g : α → Progress) : Prop :=
  ∃ r q, Comes x ⟨ts, p⟩ r ⟨ts, q⟩ ∧ q ≤ ts.length ∧ ∀ a, r = .ok a → (g a).Holds p q

section
variable {α β γ : Type} {ts : List Token} {s : Stream} {x : Walk α}

theorem Ends.call {p : Nat} {f : Procedure α} {g : α → Progress} (h : Ends ts p f.walk g) :
    Ends ts p (.call f) g := by
  obtain ⟨r, q, h, hq⟩ := h
  exact ⟨r, q, h.call, hq⟩

theorem Walks.ends {r : Except ParseError γ} {out : γ → α × Stream} {g : α → Progress}
    (h : Walks ts x s.next r out) (hs : s.In ts) (hrest : ∀ c, (out c).2.IsRest s)
    (hg : ∀ c, (g (out c).1).Holds s.next (out c).2.next) : Ends ts s.next x g := by
  cases r with
  | ok c =>
    refine ⟨_, _, h, (hs.rest (hrest c)).le, fun a ha => ?_⟩
    cases ha
    exact hg c
  | error e =>
    obtain ⟨m, hm, h⟩ := h
    refine ⟨_, _, h, hm, fun a ha => ?_⟩
    cases ha

variable (hs : s.In ts)
include hs

theorem ends_of_rest {r : Except ParseError (Parsed s β)} {out : Parsed s β → α × Stream}
    (h : Walks ts x s.next r out) (hout : ∀ p, (out p).2 = p.rest) :
    Ends ts s.next x fun _ => .moves :=
  h.ends hs (fun p => hout p ▸ p.rest_follows.isRest) fun p => hout p ▸ p.rest_follows.next_lt

theorem ends_of_parsed {r : Except ParseError (Parsed s α)} (h : Walks ts x s.next r Parsed.out) :
    Ends ts s.next x fun _ => .moves :=
  ends_of_rest hs h fun _ => rfl

theorem ends_of_trail {r : Except ParseError (Trail s α)} (h : Walks ts x s.next r Trail.out) :
    Ends ts s.next x fun _ => .any :=
  h.ends hs (fun p => p.rest_isRest) fun p => p.rest_isRest.next_le

theorem ends_of_offer {x : Walk (Option α)} {r : Except ParseError (Option (Parsed s α))}
    (h : Walks ts x s.next r Parsed.out?) : Ends ts s.next x .ofOffer := by
  refine h.ends hs (fun p => ?_) fun p => ?_
  · cases p with
    | none => exact s.isRest_self
    | some p => exact p.rest_follows.isRest
  · cases p with
    | none => rfl
    | some p => exact p.rest_follows.next_lt

theorem ends_accept {is? : Token → Option Unit} : Ends ts s.next (Walk.accept is?) .ofOffer := by
  cases ht : tokenWith? is? s with
  | none =>
    refine ⟨_, _, Walk.accept_none hs ht, hs.le, fun a ha => ?_⟩
    cases ha
    rfl
  | some p =>
    have h := p.rest_follows
    refine ⟨_, _, Walk.accept_some hs ht, (hs.follows h).le, fun a ha => ?_⟩
    cases ha
    exact h.next_lt

theorem ends_statement? {closers : Option Closers} {returned : Bool} :
    Ends ts s.next (Walk.statement? closers returned)
      (Procedure.statement? closers returned).progress := by
  refine (walks_statement? (walksBelow ts _) hs).ends hs (fun p => ?_) fun p => ?_
  · cases p with
    | inl p => exact p.rest_follows.isRest
    | inr t => exact t.rest_isRest
  · cases p with
    | inl p => exact p.rest_follows.next_lt
    | inr t => exact t.rest_isRest.next_le

theorem ends_next : Ends ts s.next Walk.next fun _ => .moves := by
  obtain ⟨i, _ | ⟨u, us⟩⟩ := s
  · refine ⟨_, _, Walk.next_nil hs, hs.le, fun a ha => ?_⟩
    cases ha
  · exact ⟨_, _, Walk.next_cons hs, hs.tail.le, fun _ _ => Nat.lt_succ_self _⟩

theorem ends_items {returned : Bool} : Ends ts s.next (.call (.items returned)) fun _ => .any :=
  (walks_items hs).ends hs (fun _ => ⟨s.left, (List.append_nil _).symm, hs.next_add.symm⟩)
    fun _ => hs.le

theorem ends_block {closers : Option Closers} {returned : Bool} :
    Ends ts s.next (.call (.block closers returned)) (Procedure.block closers returned).progress := by
  cases closers with
  | none =>
    obtain ⟨r, h⟩ := walks_openBlock returned hs
    exact ends_of_trail hs h
  | some closers =>
    exact ends_of_rest hs ((walksBelow ts _).block (Nat.lt_succ_self _) hs) fun _ => rfl

theorem ends_functionStatement {i : TokenIndex} :
    Ends ts s.next (.call (.functionStatement i)) fun _ => .moves :=
  .call (ends_of_parsed hs
    (walks_functionStatement (walksBelow ts _) (Nat.lt_succ_self _) hs id fun _ => rfl))

theorem ends_localNames {i : TokenIndex} :
    Ends ts s.next (.call (.localNames i)) fun _ => .moves :=
  .call (ends_of_parsed hs
    (walks_localNames (walksBelow ts _) (Nat.lt_succ_self _) hs id fun _ => rfl))

theorem ends_numericFor {i : TokenIndex} {counter : TypedName} :
    Ends ts s.next (.call (.numericFor i counter)) fun _ => .moves :=
  .call (ends_of_parsed hs
    (walks_numericFor (walksBelow ts _) (Nat.lt_succ_self _) hs id fun _ => rfl))

theorem Procedure.ends (f : Procedure α) : Ends ts s.next (.call f) f.progress := by
  have below := walksBelow ts (s.rank 8)
  have lt {k : Nat} (hk : k < 8) : s.rank k < s.rank 8 := Stream.rank_lt hk
  cases f with
  | next => exact .call (ends_next hs)
  | name => exact .call (ends_of_rest hs (walks_name hs) fun _ => rfl)
  | keyword => exact .call (ends_of_rest hs (walks_keyword hs) fun _ => rfl)
  | operator => exact .call (ends_of_rest hs (walks_operator hs) fun _ => rfl)
  | keyword? => exact .call (ends_accept hs)
  | operator? => exact .call (ends_accept hs)
  | sees => exact .call ⟨_, _, Walk.sees_comes hs, hs.le, fun _ _ => rfl⟩
  | optionals => exact ends_of_trail hs (walks_optionals hs)
  | typeExpr => exact ends_of_parsed hs (walks_typeExpr hs)
  | typedName => exact .call (ends_of_parsed hs (walks_typedName hs))
  | typedNames => exact ends_of_parsed hs (walks_typedNames hs)
  | typeExprs => exact ends_of_parsed hs (walks_typeExprs hs)
  | parameters => exact ends_of_parsed hs (walks_parameters hs)
  | signature => exact .call (ends_of_parsed hs (walks_signature hs))
  | path => exact ends_of_parsed hs (walks_path hs)
  | typedTarget? => exact .call (ends_of_offer hs (walks_typedTarget? hs))
  | semicolons => exact ends_of_trail hs (walks_semicolons hs)
  | expression => exact ends_of_parsed hs (below.expression (lt (by decide)) hs)
  | expression? => exact ends_of_offer hs (below.expression? (lt (by decide)) hs)
  | operations => exact ends_of_trail hs (below.operations (lt (by decide)) hs)
  | atom? => exact ends_of_offer hs (below.atom? (lt (by decide)) hs)
  | chain => exact ends_of_parsed hs (below.chain (lt (by decide)) hs)
  | suffixes => exact ends_of_trail hs (below.suffixes (lt (by decide)) hs)
  | arguments => exact ends_of_parsed hs (below.arguments (lt (by decide)) hs)
  | expressions => exact ends_of_parsed hs (below.expressions (lt (by decide)) hs)
  | moreExpressions => exact ends_of_trail hs (below.moreExpressions (lt (by decide)) hs)
  | tableItems => exact ends_of_parsed hs (below.tableItems (lt (by decide)) hs)
  | tableItem => exact ends_of_parsed hs (below.tableItem (lt (by decide)) hs)
  | routine => exact ends_of_parsed hs (below.routine (lt (by decide)) hs)
  | block => exact ends_block hs
  | statement? => exact .call (ends_statement? hs)
  | functionStatement => exact ends_functionStatement hs
  | localNames => exact ends_localNames hs
  | returnValues => exact ends_of_trail hs (below.returnValues (lt (by decide)) hs)
  | branches => exact ends_of_parsed hs (below.branches (lt (by decide)) hs)
  | forLoop => exact ends_of_parsed hs (below.forLoop (lt (by decide)) hs)
  | forNames => exact ends_of_parsed hs (walks_forNames hs)
  | numericFor => exact ends_numericFor hs
  | stepValue => exact ends_of_trail hs (below.stepValue (lt (by decide)) hs)
  | assignmentOrCall =>
    exact .call (ends_of_parsed hs (walks_assignmentOrCall (walksBelow ts _) hs))
  | assignment => exact ends_of_parsed hs (below.assignment (lt (by decide)) hs)
  | moreTargets => exact ends_of_trail hs (below.moreTargets (lt (by decide)) hs)
  | oneTarget => exact ends_of_parsed hs (below.oneTarget (lt (by decide)) hs)
  | conformanceList => exact ends_of_parsed hs (walks_conformanceList hs)
  | conformances => exact .call (ends_of_trail hs (walks_conformances hs))
  | classMembers => exact ends_of_parsed hs (walks_classMembers hs)
  | classDecl => exact .call (ends_of_parsed hs (walks_classDecl hs))
  | protocolMembers => exact ends_of_parsed hs (walks_protocolMembers hs)
  | protocolDecl => exact .call (ends_of_parsed hs (walks_protocolDecl hs))
  | associatedTypes => exact ends_of_parsed hs (walks_associatedTypes hs)
  | literal => exact .call (ends_of_parsed hs (walks_literal hs))
  | enumCase => exact .call (ends_of_parsed hs (walks_enumCase hs))
  | enumCases => exact ends_of_parsed hs (walks_enumCases hs)
  | enumDecl => exact .call (ends_of_parsed hs (walks_enumDecl hs))
  | aliasDecl => exact .call (ends_of_parsed hs (walks_aliasDecl hs))
  | items => exact ends_items hs
  | chunk => exact .call (ends_items hs)

end

theorem Progress.Holds.le {p q : Nat} {g : Progress} (h : g.Holds p q) : p ≤ q := by
  cases g with
  | stays => exact Nat.le_of_eq h.symm
  | moves => exact Nat.le_of_lt h
  | any => exact h

/-- What is left of the tokens from an index on. -/
theorem Stream.In.drop {ts : List Token} {p : Nat} (hp : p ≤ ts.length) :
    Stream.In ⟨p, ts.drop p⟩ ts :=
  ⟨ts.take p, (List.take_append_drop p ts).symm, by simp [Stream.ofTokens, hp]⟩

/-- The parser ends and keeps its cursor within the tokens. From the first token on, it comes to the
chunk that the tokens spell, or to its error. From any token on, and from behind the last, each of
its functions comes to one value or error and no other, with no step back from before the first
token, and leaves the cursor on a token or behind the last. A success never leaves the cursor
further back: it moves the cursor on, leaves it in place, or may do either, as `progress` tells. -/
theorem parser_ends (ts : List Token) :
    (∃ q ≤ ts.length, Comes (.call .chunk) ⟨ts, 0⟩ (chunk ts) ⟨ts, q⟩) ∧
    ∀ {α : Type} (f : Procedure α) (p : Nat), p ≤ ts.length →
      ∃ r q, Comes (.call f) ⟨ts, p⟩ r ⟨ts, q⟩ ∧
        (∀ r' c, Comes (.call f) ⟨ts, p⟩ r' c → r = r' ∧ ⟨ts, q⟩ = c) ∧
        q ≤ ts.length ∧ ∀ a, r = .ok a → p ≤ q ∧ (f.progress a).Holds p q := by
  constructor
  · have h := walks_chunk ts
    cases hc : chunk ts with
    | ok c =>
      rw [hc] at h
      exact ⟨_, Nat.le_refl _, h⟩
    | error e =>
      rw [hc] at h
      exact h
  · intro α f p hp
    obtain ⟨r, q, h, hq, hg⟩ := f.ends (Stream.In.drop hp)
    exact ⟨r, q, h, fun r' c h' => h.unique h', hq, fun a ha => ⟨(hg a ha).le, hg a ha⟩⟩

/-- `x:f()` -/
def callTokens : List Token :=
  [.name "x", .operator .colon, .name "f", .operator .roundLeft, .operator .roundRight]

theorem parser_ends_call :
    2 ≤ callTokens.length ∧
      ∃ r q, Comes (.call (.expression 0)) ⟨callTokens, 2⟩ r ⟨callTokens, q⟩ ∧ q ≤ 5 ∧
        ∀ e, r = .ok e → 2 ≤ q ∧ 2 < q := by
  have h : 2 ≤ callTokens.length := by decide
  obtain ⟨r, q, hr, -, hq, hg⟩ := (parser_ends callTokens).2 (.expression 0) 2 h
  exact ⟨h, r, q, hr, hq, hg⟩

end ScriptFront.Phrase
