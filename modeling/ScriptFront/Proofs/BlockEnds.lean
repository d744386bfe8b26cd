import ScriptFront.Proofs.CursorBounds
import ScriptFront.Proofs.Desugaring
/-! Where a block ends. The parser does not hand on the keyword that closed a block: whoever has called
for the block looks at the token that the cursor last went past. That is the keyword, whatever
blocks lie inside the statements of the body. -/
namespace ScriptFront.Phrase
open Syntax Token

/-- Only semicolons stand from `p` up to `q`. -/
def Blank (ts : List Token) (p q : Nat) : Prop :=
  p ≤ q ∧ ∀ i, p ≤ i → i < q → ts[i]? = some (.operator .semicolon)

/-- The statements of a body stand from `p` up to `q`, with nothing but semicolons between them. The
ranges are those of their tokens: each begins with the first and ends behind the last. -/
inductive Lays (ts : List Token) : Nat → Block → List (Nat × Nat) → Nat → Prop
  | nil {p q : Nat} : Blank ts p q → Lays ts p [] [] q
  | cons {p q i j : Nat} {u : Token} {first : Stmt} {more : Block} {ranges : List (Nat × Nat)} :
    Blank ts p i → ts[i]? = some u → Comes (Walk.statement i u) ⟨ts, i⟩ (.ok first) ⟨ts, j⟩ →
    Lays ts j more ranges q → Lays ts p (first :: more) ((i, j) :: ranges) q

/-- A branch whose block is closed by the keyword `k` at `q`. -/
def BranchTo (ts : List Token) (p : Nat) (branch : Branch) (q : Nat) (k : Keyword) : Prop :=
  ∃ m, Comes (.call (.expression 0)) ⟨ts, p⟩ (.ok branch.condition) ⟨ts, m⟩ ∧
    ts[m]? = some (.keyword .then_) ∧
    Comes (.call (.block (some .atBranch) false)) ⟨ts, m + 1⟩ (.ok branch.body) ⟨ts, q + 1⟩ ∧
    ts[q]? = some (.keyword k)

/-- The branches of an `if`, and where which keyword closes a block of them. After `elseif` a branch
comes, after `else` the last block, and after `end` nothing. -/
inductive BranchesTo (ts : List Token) :
    Nat → List Branch → Option Block → List (Nat × Keyword) → Nat → Prop
  | elseif {p q r : Nat} {branch : Branch} {more : List Branch} {otherwise : Option Block}
    {marks : List (Nat × Keyword)} : BranchTo ts p branch q .elseif_ →
    BranchesTo ts (q + 1) more otherwise marks r →
    BranchesTo ts p (branch :: more) otherwise ((q, .elseif_) :: marks) r
  | else_ {p q r : Nat} {branch : Branch} {body : Block} : BranchTo ts p branch q .else_ →
    Comes (.call (.block (some .atEnd) false)) ⟨ts, q + 1⟩ (.ok body) ⟨ts, r + 1⟩ →
    ts[r]? = some (.keyword .end_) →
    BranchesTo ts p [branch] (some body) [(q, .else_), (r, .end_)] (r + 1)
  | end_ {p q : Nat} {branch : Branch} : BranchTo ts p branch q .end_ →
    BranchesTo ts p [branch] none [(q, .end_)] (q + 1)

section
variable {α β : Type} {ts : List Token} {p q i j : Nat} {u : Token} {c : Cursor}

theorem Comes.of_value {a b : α} {c' : Cursor} (h : Comes (pure a) c (.ok b) c') :
    b = a ∧ c' = c := by
  obtain ⟨hb, hc⟩ := value.unique h
  exact ⟨(Except.ok.inj hb).symm, hc.symm⟩

/-- What comes to a value has come to one before. -/
theorem Ends.bind_ok {x : Walk α} {g : α → Walk β} {f : α → Progress} {b : β} (hx : Ends ts p x f)
    (h : Comes (x >>= g) ⟨ts, p⟩ (.ok b) c) :
    ∃ a q, Comes x ⟨ts, p⟩ (.ok a) ⟨ts, q⟩ ∧ q ≤ ts.length ∧ (f a).Holds p q ∧
      Comes (g a) ⟨ts, q⟩ (.ok b) c := by
  obtain ⟨r, q, hr, hq, hf⟩ := hx
  cases r with
  | ok a => exact ⟨a, q, hr, hq, hf a rfl, (Comes.bind_iff hr).1 h⟩
  | error e => cases (hr.bind_error.unique h).1

theorem Ends.holds {x : Walk α} {f : α → Progress} {a : α} (hx : Ends ts p x f)
    (h : Comes x ⟨ts, p⟩ (.ok a) ⟨ts, q⟩) : (f a).Holds p q := by
  obtain ⟨r, q', hr, -, hf⟩ := hx
  obtain ⟨ha, hc⟩ := hr.unique h
  cases hc
  exact hf a ha

theorem ends_call (hp : p ≤ ts.length) (f : Procedure α) : Ends ts p (.call f) f.progress :=
  f.ends (Stream.In.drop hp)

theorem Stream.In.of_getElem? (hi : ts[i]? = some u) :
    Stream.In ⟨i, u :: ts.drop (i + 1)⟩ ts := by
  obtain ⟨hlt, rfl⟩ := List.getElem?_eq_some_iff.1 hi
  rw [← List.drop_eq_getElem_cons hlt]
  exact .drop (Nat.le_of_lt hlt)

namespace Walk

theorem peek_comes : Comes peek ⟨ts, p⟩ (.ok (ts[p]?.map (p, ·))) ⟨ts, p⟩ := .of fun _ => rfl

theorem last_comes : Comes last ⟨ts, q + 1⟩ (.ok (ts[q]?.map (q, ·))) ⟨ts, q + 1⟩ := .of fun _ => rfl

theorem endIndex_comes : Comes endIndex ⟨ts, p⟩ (.ok ts.length) ⟨ts, p⟩ := .of fun _ => rfl

theorem accept_not {is? : Token → Option Unit} (h : ∀ u, ts[p]? = some u → is? u = none) :
    Comes (accept is?) ⟨ts, p⟩ (.ok none) ⟨ts, p⟩ := by
  refine peek_comes.bind ?_
  cases hu : ts[p]? with
  | none => exact .value
  | some u =>
    simp only [Option.map_some, h u hu]
    exact .value

theorem keyword_ok_iff {k : Keyword} {i : TokenIndex} :
    Comes (keyword k) ⟨ts, p⟩ (.ok i) c ↔
      ts[p]? = some (.keyword k) ∧ i = p ∧ c = ⟨ts, p + 1⟩ := by
  constructor
  · intro h
    cases hu : ts[p]? with
    | none => cases ((next_beyond (List.getElem?_eq_none_iff.1 hu)).bind_error.unique h).1
    | some u =>
      have h := (Comes.bind_iff (next_cons (.of_getElem? hu))).1 h
      dsimp only at h
      split at h
      case h_1 hk =>
        obtain ⟨rfl, rfl⟩ := h.of_value
        exact ⟨congrArg some (keywordOf?_some_iff.1 hk), rfl, rfl⟩
      case h_2 => cases (Comes.error.unique h).1
  · rintro ⟨hu, rfl, rfl⟩
    refine (next_cons (.of_getElem? hu)).bind ?_
    dsimp only
    rw [keywordOf?_some_iff.2 rfl]
    exact .value

end Walk

/-- Wherever the cursor is, it goes past the semicolons that are there. -/
theorem semicolons_comes (ts : List Token) (p : Nat) :
    ∃ q, Comes (.call .semicolons) ⟨ts, p⟩ (.ok ()) ⟨ts, q⟩ ∧ Blank ts p q := by
  by_cases hp : ts[p]? = some (.operator .semicolon)
  · obtain ⟨hlt, -⟩ := List.getElem?_eq_some_iff.1 hp
    obtain ⟨q, h, hle, hblank⟩ := semicolons_comes ts (p + 1)
    have hfirst : Comes (Walk.operator? .semicolon) ⟨ts, p⟩ (.ok (some p)) ⟨ts, p + 1⟩ :=
      Walk.accept_token (.of_getElem? hp) (token?_cons _) rfl
    refine ⟨q, .call (hfirst.bind h), by omega, fun i hi hiq => ?_⟩
    rcases Nat.eq_or_lt_of_le hi with rfl | hi
    · exact hp
    · exact hblank i hi hiq
  · have hother (u) (hu : ts[p]? = some u) : operatorOf? .semicolon u = none :=
      Option.eq_none_iff_forall_ne_some.2 fun _ ho => hp (operatorOf?_some_iff.1 ho ▸ hu)
    exact ⟨p, .call ((Walk.accept_not hother).bind .value), Nat.le_refl p, fun i _ _ => by omega⟩
termination_by ts.length - p

theorem ends_statement (hi : ts[i]? = some u) : Ends ts i (Walk.statement i u) fun _ => .moves := by
  have hs := Stream.In.of_getElem? hi
  exact ends_of_parsed hs (walks_statement (walksBelow ts _) hs)

variable {closers : Closers} {returned : Bool}

/-- A block that is not closed fails at the end of the tokens. -/
theorem statement?_end (h : Comes (.call .semicolons) ⟨ts, p⟩ (.ok ()) ⟨ts, q⟩)
    (hq : ts[q]? = none) : Comes (Walk.statement? (some closers) returned) ⟨ts, p⟩
      (.error (.endOfInput ts.length)) ⟨ts, q⟩ := by
  refine h.bind (Walk.peek_comes.bind ?_)
  rw [hq]
  exact Walk.endIndex_comes.bind .error

/-- The next thing in a block is a closing keyword, or a statement. -/
theorem statement?_ok {o : Option Stmt}
    (h : Comes (Walk.statement? (some closers) returned) ⟨ts, p⟩ (.ok o) c) :
    (∃ q k, o = none ∧ c = ⟨ts, q + 1⟩ ∧ Blank ts p q ∧ ts[q]? = some (.keyword k) ∧
        closers.accept k) ∨
      ∃ i j u stmt, o = some stmt ∧ c = ⟨ts, j⟩ ∧ Blank ts p i ∧ ts[i]? = some u ∧
        Comes (Walk.statement i u) ⟨ts, i⟩ (.ok stmt) ⟨ts, j⟩ := by
  obtain ⟨i, hi, hblank⟩ := semicolons_comes ts p
  cases hu : ts[i]? with
  | none => cases ((statement?_end hi hu).unique h).1
  | some u =>
    have h := (Comes.bind_iff Walk.peek_comes).1 ((Comes.bind_iff hi).1 h)
    rw [hu] at h
    simp only [Option.map_some, Option.bind_some] at h
    split at h
    case h_1 k hc =>
      obtain ⟨rfl, hk⟩ := closerOf?_some hc
      have h := (Comes.bind_iff Walk.skip_comes).1 h
      obtain ⟨rfl, rfl⟩ := h.of_value
      exact .inl ⟨i, k, rfl, rfl, hblank, hu, hk⟩
    case h_2 =>
      cases returned with
      | true => cases (Comes.error.unique h).1
      | false =>
        obtain ⟨stmt, j, hstmt, -, -, h⟩ := (ends_statement hu).bind_ok h
        obtain ⟨rfl, rfl⟩ := h.of_value
        exact .inr ⟨i, j, u, stmt, rfl, rfl, hblank, hu, hstmt⟩

/-- A block ends at a keyword that closes it, behind its statements. -/
theorem block_lays {ts : List Token} {p : Nat} {closers : Closers} {returned : Bool} {body : Block}
    {c : Cursor} (h : Comes (.call (.block (some closers) returned)) ⟨ts, p⟩ (.ok body) c) :
    ∃ q k ranges, c = ⟨ts, q + 1⟩ ∧ ts[q]? = some (.keyword k) ∧ closers.accept k ∧
      Lays ts p body ranges q := by
  have h := Comes.call_iff.1 h
  have hp : p ≤ ts.length := by
    refine Nat.not_lt.1 fun hp => ?_
    obtain ⟨q, hq, hle, -⟩ := semicolons_comes ts p
    have hend : Comes (Walk.statement? (some closers) returned) ⟨ts, p⟩ _ _ :=
      statement?_end hq (List.getElem?_eq_none (by omega))
    cases (hend.bind_error.unique h).1
  have hends : Ends ts p (Walk.statement? (some closers) returned) _ := ends_statement? (.drop hp)
  obtain ⟨o, j, ho, hj, hmoves, h⟩ := hends.bind_ok h
  rcases statement?_ok ho with ⟨q, k, rfl, hc, hblank, hq, hk⟩ |
    ⟨i, j', u, first, rfl, hc, hblank, hu, hfirst⟩
  · cases hc
    obtain ⟨rfl, rfl⟩ := h.of_value
    exact ⟨q, k, [], rfl, hq, hk, .nil hblank⟩
  · cases hc
    have hlt : p < j := hmoves
    obtain ⟨more, r, hmore, -, -, h⟩ := (ends_call hj _).bind_ok h
    obtain ⟨rfl, rfl⟩ := h.of_value
    obtain ⟨q, k, ranges, hc, hq, hk, hlays⟩ := block_lays hmore
    exact ⟨q, k, (i, j) :: ranges, hc, hq, hk, .cons hblank hu hfirst hlays⟩
termination_by ts.length - p
decreasing_by omega

theorem Lays.within {p q : Nat} {body : Block} {ranges : List (Nat × Nat)}
    (h : Lays ts p body ranges q) : p ≤ q ∧ ∀ r ∈ ranges, p ≤ r.1 ∧ r.1 < r.2 ∧ r.2 ≤ q := by
  induction h with
  | nil hblank => exact ⟨hblank.1, by simp⟩
  | @cons p q i j _ _ _ _ hblank hu hfirst _ ih =>
    obtain ⟨hle, hranges⟩ := ih
    have hi : p ≤ i := hblank.1
    have hj : i < j := (ends_statement hu).holds hfirst
    refine ⟨by omega, List.forall_mem_cons.2 ⟨⟨hi, hj, hle⟩, fun r hr => ?_⟩⟩
    have := hranges r hr
    omega

theorem expression_beyond {floor : Nat} (hp : ts.length ≤ p) :
    ∃ e, Comes (.call (.expression floor)) ⟨ts, p⟩ (.error e) ⟨ts, p⟩ := by
  have hindex : Comes Walk.nextIndex ⟨ts, p⟩ (.ok _) ⟨ts, p⟩ := .of fun _ => rfl
  have hnone : Comes (.call (.expression? floor)) ⟨ts, p⟩ (.ok none) ⟨ts, p⟩ :=
    .call ((Walk.peek_beyond hp).bind .value)
  exact ⟨_, .call (hindex.bind (hnone.bind .error))⟩

/-- What an `if` does after a branch, by the keyword that closed it. -/
def afterBranch (branch : Branch) : Keyword → Walk (List Branch × Option Block)
  | .elseif_ => do
    let (more, otherwise) ← .call .branches
    return (branch :: more, otherwise)
  | .else_ => do
    let otherwise ← .call (.block (some .atEnd) false)
    return ([branch], some otherwise)
  | _ => return ([branch], none)

theorem BranchTo.comes_iff {branch : Branch} {k : Keyword} (h : BranchTo ts p branch q k)
    {r : Except ParseError (List Branch × Option Block)} : Comes (.call .branches) ⟨ts, p⟩ r c ↔
      Comes (afterBranch branch k) ⟨ts, q + 1⟩ r c := by
  obtain ⟨condition, body⟩ := branch
  obtain ⟨m, hcondition, hthen, hbody, hq⟩ := h
  have hkeyword : Comes (Walk.keyword .then_) ⟨ts, m⟩ (.ok m) ⟨ts, m + 1⟩ :=
    Walk.keyword_ok_iff.2 ⟨hthen, rfl, rfl⟩
  rw [Comes.call_iff, Procedure.walk, Walk.branches, Comes.bind_iff hcondition,
    Comes.bind_iff hkeyword, Comes.bind_iff hbody, Comes.bind_iff Walk.last_comes, hq]
  cases k <;> rfl

/-- Where an `if` has come to its end, it has come to that of its first branch. -/
theorem branchTo_of_comes {v : List Branch × Option Block}
    (h : Comes (.call .branches) ⟨ts, p⟩ (.ok v) c) :
    ∃ branch q k, BranchTo ts p branch q k ∧ p < q ∧ q < ts.length ∧ Closers.atBranch.accept k := by
  have h := Comes.call_iff.1 h
  have hp : p < ts.length := by
    refine Nat.not_le.1 fun hp => ?_
    obtain ⟨e, he⟩ := expression_beyond hp
    cases (he.bind_error.unique h).1
  obtain ⟨condition, m, hcondition, hm, hpm, h⟩ := (ends_call (Nat.le_of_lt hp) _).bind_ok h
  have hpm : p < m := hpm
  have hkeyword : Ends ts m (Walk.keyword .then_) _ :=
    ends_of_rest (.drop hm) (walks_keyword (.drop hm)) fun _ => rfl
  obtain ⟨_, m', hnext, hm', -, h⟩ := hkeyword.bind_ok h
  obtain ⟨hthen, -, hc⟩ := Walk.keyword_ok_iff.1 hnext
  cases hc
  obtain ⟨body, e, hbody, he, hme, -⟩ := (ends_call hm' _).bind_ok h
  have hme : m + 1 < e := hme
  obtain ⟨q, k, -, hc, hq, hk, -⟩ := block_lays hbody
  cases hc
  exact ⟨⟨condition, body⟩, q, k, ⟨m, hcondition, hthen, hbody, hq⟩, by omega, by omega, hk⟩

theorem branchesTo_of_comes {ts : List Token} {p : Nat} {list : List Branch}
    {otherwise : Option Block} {c : Cursor}
    (h : Comes (.call .branches) ⟨ts, p⟩ (.ok (list, otherwise)) c) :
    ∃ marks r, c = ⟨ts, r⟩ ∧ BranchesTo ts p list otherwise marks r := by
  obtain ⟨branch, q, k, hbranch, hpq, hq, hk⟩ := branchTo_of_comes h
  have h := hbranch.comes_iff.1 h
  by_cases hi : k = .elseif_
  · subst hi
    obtain ⟨⟨more, otherwise⟩, r, hmore, -, -, h⟩ := (ends_call hq .branches).bind_ok h
    obtain ⟨⟨⟩, rfl⟩ := h.of_value
    obtain ⟨marks, r', hc, hmore⟩ := branchesTo_of_comes hmore
    cases hc
    exact ⟨_, _, rfl, .elseif hbranch hmore⟩
  by_cases he : k = .else_
  · subst he
    obtain ⟨last, r, hlast, -, -, h⟩ := (ends_call hq (.block (some .atEnd) false)).bind_ok h
    obtain ⟨⟨⟩, rfl⟩ := h.of_value
    obtain ⟨q', k', -, hc, hq', hk', -⟩ := block_lays hlast
    cases hc
    rw [Reading.eq_of_accept_atEnd hk'] at hq'
    exact ⟨_, _, rfl, .else_ hbranch hlast hq'⟩
  obtain rfl := Reading.eq_of_accept_atBranch hk hi he
  obtain ⟨⟨⟩, rfl⟩ := h.of_value
  exact ⟨_, _, rfl, .end_ hbranch⟩
termination_by ts.length - p
decreasing_by omega

theorem BranchesTo.comes {p r : Nat} {list : List Branch} {otherwise : Option Block}
    {marks : List (Nat × Keyword)} (h : BranchesTo ts p list otherwise marks r) :
    Comes (.call .branches) ⟨ts, p⟩ (.ok (list, otherwise)) ⟨ts, r⟩ := by
  induction h with
  | elseif hbranch _ ih => exact hbranch.comes_iff.2 (ih.bind .value)
  | else_ hbranch hlast _ => exact hbranch.comes_iff.2 (hlast.bind .value)
  | end_ hbranch => exact hbranch.comes_iff.2 .value

theorem BranchesTo.counts {p r : Nat} {list : List Branch} {otherwise : Option Block}
    {marks : List (Nat × Keyword)} (h : BranchesTo ts p list otherwise marks r) :
    list.length = marks.countP (·.2 = .elseif_) + 1 ∧
      (otherwise.isSome ↔ .else_ ∈ marks.map (·.2)) := by
  induction h with
  | elseif _ _ ih => simp [ih.1, ih.2]
  | else_ => simp
  | end_ => simp

theorem choice_comes_iff {stmt : Stmt} (hp : ts[p]? = some (.keyword .if_)) :
    Comes (Walk.statement p (.keyword .if_)) ⟨ts, p⟩ (.ok stmt) c ↔
      ∃ list otherwise, stmt = .choice p list otherwise ∧
        Comes (.call .branches) ⟨ts, p + 1⟩ (.ok (list, otherwise)) c := by
  obtain ⟨hlt, -⟩ := List.getElem?_eq_some_iff.1 hp
  rw [Walk.statement, Comes.bind_iff Walk.skip_comes]
  constructor
  · intro h
    obtain ⟨⟨list, otherwise⟩, r, hlist, -, -, h⟩ := (ends_call hlt .branches).bind_ok h
    obtain ⟨⟨⟩, rfl⟩ := h.of_value
    exact ⟨list, otherwise, rfl, hlist⟩
  · rintro ⟨list, otherwise, rfl, h⟩
    exact h.bind .value

end

/-- The token that the cursor has last gone past after a block is a keyword that may close the block,
and stands behind all its statements. An `if` goes on after a branch as that keyword says: it has one
branch more than there are `elseif`, and a last block exactly if there is an `else`. -/
theorem block_closer (ts : List Token) (p : Nat) :
    (∀ (closers : Closers) (returned : Bool) (body : Block) (c : Cursor),
      Comes (.call (.block (some closers) returned)) ⟨ts, p⟩ (.ok body) c →
        ∃ q k ranges, c = ⟨ts, q + 1⟩ ∧ c.last = some (q, .keyword k) ∧ closers.accept k ∧
          Lays ts p body ranges q ∧ ∀ r ∈ ranges, p ≤ r.1 ∧ r.1 < r.2 ∧ r.2 ≤ q) ∧
    (ts[p]? = some (.keyword .if_) → ∀ (stmt : Stmt) (c : Cursor),
      Comes (Walk.statement p (.keyword .if_)) ⟨ts, p⟩ (.ok stmt) c ↔
        ∃ list otherwise marks r, stmt = .choice p list otherwise ∧ c = ⟨ts, r⟩ ∧
          BranchesTo ts (p + 1) list otherwise marks r ∧
          list.length = marks.countP (·.2 = .elseif_) + 1 ∧
          (otherwise.isSome ↔ .else_ ∈ marks.map (·.2))) := by
  constructor
  · intro closers returned body c h
    obtain ⟨q, k, ranges, rfl, hq, hk, hlays⟩ := block_lays h
    have hlast : (Cursor.mk ts (q + 1)).last = some (q, .keyword k) := by
      simp [Cursor.last, Cursor.at?, hq]
    exact ⟨q, k, ranges, rfl, hlast, hk, hlays, hlays.within.2⟩
  · intro hp stmt c
    rw [choice_comes_iff hp]
    constructor
    · rintro ⟨list, otherwise, rfl, h⟩
      obtain ⟨marks, r, rfl, hto⟩ := branchesTo_of_comes h
      exact ⟨list, otherwise, marks, r, rfl, rfl, hto, hto.counts⟩
    · rintro ⟨list, otherwise, marks, r, rfl, rfl, h, -⟩
      exact ⟨list, otherwise, rfl, h.comes⟩

/-- `if a then repeat until b elseif c then else end end` -/
def choiceTokens : List Token :=
  [.keyword .if_, .name "a", .keyword .then_, .keyword .repeat_, .keyword .until_, .name "b",
    .keyword .elseif_, .name "c", .keyword .then_, .keyword .else_, .keyword .end_, .keyword .end_]

def choiceStmt : Stmt :=
  .choice 0 [⟨.name 1 "a", [.repeatLoop 3 [] (.name 5 "b")]⟩, ⟨.name 7 "c", []⟩] (some [])

theorem block_comes_choice :
    Comes (.call (.block (some .atEnd) false)) ⟨choiceTokens, 0⟩ (.ok [choiceStmt])
      ⟨choiceTokens, 12⟩ := by
  refine ⟨20, fun n hn => ?_⟩
  obtain ⟨n, rfl⟩ := Nat.exists_eq_add_of_le' hn
  rfl

theorem statement_comes_choice :
    Comes (Walk.statement 0 (.keyword .if_)) ⟨choiceTokens, 0⟩ (.ok choiceStmt)
      ⟨choiceTokens, 11⟩ := by
  refine ⟨20, fun n hn => ?_⟩
  obtain ⟨n, rfl⟩ := Nat.exists_eq_add_of_le' hn
  rfl

theorem block_closer_choice :
    choiceTokens[0]? = some (.keyword .if_) ∧
      (∃ ranges, (Cursor.mk choiceTokens 12).last = some (11, .keyword .end_) ∧
        Lays choiceTokens 0 [choiceStmt] ranges 11) ∧
      ∃ list otherwise marks, choiceStmt = .choice 0 list otherwise ∧
        BranchesTo choiceTokens 1 list otherwise marks 11 ∧
        marks.countP (·.2 = .elseif_) = 1 ∧ .else_ ∈ marks.map (·.2) := by
  obtain ⟨hblock, hchoice⟩ := block_closer choiceTokens 0
  obtain ⟨q, k, ranges, hc, hlast, -, hlays, -⟩ := hblock _ _ _ _ block_comes_choice
  cases hc
  obtain ⟨list, otherwise, marks, r, hstmt, hc, hto, hlength, hotherwise⟩ :=
    (hchoice rfl _ _).1 statement_comes_choice
  cases hc
  refine ⟨rfl, ⟨ranges, rfl, hlays⟩, list, otherwise, marks, hstmt, hto, ?_⟩
  cases hstmt
  exact ⟨(Nat.succ.inj hlength).symm, hotherwise.1 rfl⟩

end ScriptFront.Phrase
