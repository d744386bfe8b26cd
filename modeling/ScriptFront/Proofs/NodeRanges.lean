import ScriptFront.Proofs.Nodes
import ScriptFront.Proofs.Placement
import ScriptFront.Proofs.BodyRespelling
/-! What is read takes the tokens it is read from: a node from its first token up to what is left
after it, and its children one behind the other in between. -/
namespace ScriptFront

namespace Phrase

/-- The stream stands in the tokens: it is what is left of them from its index on. -/
def Stream.In (s : Stream) (ts : List Token) : Prop := s.IsRest (.ofTokens ts)

namespace Stream.In
variable {s t : Stream} {ts us : List Token} {u : Token} {n : TokenIndex}

theorem whole (ts : List Token) : (Stream.ofTokens ts).In ts := Stream.isRest_self _

theorem rest (h : s.In ts) (ht : t.IsRest s) : t.In ts := ht.trans h

theorem follows (h : s.In ts) (ht : t.Follows s) : t.In ts := h.rest ht.isRest

theorem tail (h : Stream.In ⟨n, u :: us⟩ ts) : Stream.In ⟨n + 1, us⟩ ts :=
  h.follows (Stream.tail_follows ..)

theorem getElem? (h : Stream.In ⟨n, u :: us⟩ ts) : ts[n]? = some u := by
  obtain ⟨taken, rfl, rfl⟩ : ∃ taken, ts = taken ++ u :: us ∧ n = 0 + taken.length := h
  simp

theorem next_add (h : s.In ts) : s.next + s.left.length = ts.length := by
  obtain ⟨taken, he, hn⟩ := h
  have he : ts = taken ++ s.left := he
  rw [he, List.length_append, hn, Stream.ofTokens, Nat.zero_add]

end Stream.In

end Phrase

namespace Syntax.Node
section
variable {ts : List Token} {m n : Node} {list : List Node} {ps qs : List Part} {i j k : TokenIndex}

theorem Placed.plain (h : i ≤ j) (hl : n.leading? = none) (hm : n.leftmost? = none)
    (hn : n.named? = none) : n.Placed ts i j where
  le := h
  leading := by simp [hl]
  leftmost := by simp [hm]
  named := by simp [hn]

theorem Placed.leads (h : i < j) (hl : n.leading? = some i)
    (hm : n.leftmost? = none ∨ n.leftmost? = some i) (hn : n.named? = none) : n.Placed ts i j where
  le := Nat.le_of_lt h
  leading := by simp [hl, h]
  leftmost := by rcases hm with hm | hm <;> simp [hm]
  named := by simp [hn]

theorem Placed.carries {w : String} (hl : n.leading? = none ∨ n.leading? = some i)
    (hm : n.leftmost? = none) (hn : n.named? = some (k, w)) (hi : i ≤ k) (hk : k < j)
    (hw : ts[k]? = some (.name w)) : n.Placed ts i j where
  le := Nat.le_of_lt (Nat.lt_of_le_of_lt hi hk)
  leading := by
    rcases hl with hl | hl
    · simp [hl]
    · simp [hl, Nat.lt_of_le_of_lt hi hk]
  leftmost := by simp [hm]
  named := by simp [hn, hi, hk, hw]

theorem parts_map {α : Type} (f : α → Part) (as : List α) :
    parts (as.map f) = as.map fun a => part (f a) := List.map_map ..

theorem Occupies.only {p : Part} (h : Occupies ts (part p) i j) : Row ts (parts [p]) i j := h.alone

theorem Row.both (h : Row ts (parts ps) i j) (h' : Row ts (parts qs) j k) :
    Row ts (parts (ps ++ qs)) i k := by
  rw [parts, List.map_append]
  exact h.append h'

/-- A member of a type is a node with a name. -/
theorem spelled_of_named? (h : n.named? = none) : n.Spelled ts := by
  cases n with
  | type t =>
    cases t with
    | member i p w => cases h
    | _ => trivial
  | _ => trivial

/-- A node without an anchor takes the tokens of its children. -/
theorem Row.gathered (h : Row ts n.children i j) (hl : n.leading? = none)
    (hm : n.leftmost? = none) (hn : n.named? = none) (hw : n.WellFormed) : Occupies ts n i j :=
  .intro (.plain h.le hl hm hn) hw (spelled_of_named? hn) h

/-- The first token of a node may stand before its children. -/
theorem Row.headed (h : Row ts n.children (i + 1) j) (hl : n.leading? = some i)
    (hm : n.leftmost? = none) (hn : n.named? = none) (hw : n.WellFormed) : Occupies ts n i j :=
  .intro (.leads h.le hl (.inl hm) hn) hw (spelled_of_named? hn) h.skip

/-- The children of a node may stand behind its name. -/
theorem Row.carried {w : String} (h : Row ts n.children (k + 1) j) (hi : i ≤ k)
    (hl : n.leading? = none ∨ n.leading? = some i) (hm : n.leftmost? = none)
    (hn : n.named? = some (k, w)) (ht : ts[k]? = some (.name w)) (hw : n.WellFormed)
    (hs : n.Spelled ts) : Occupies ts n i j :=
  .intro (.carries hl hm hn hi h.le ht) hw hs (h.after (Nat.le_succ_of_le hi))

/-- A node may begin with the first token of its first child. -/
theorem Occupies.goesOn {a : TokenIndex} (h : Occupies ts m i j) (ha : m.leading? = some a)
    (hr : Row ts list j k) (hc : n.children = m :: list)
    (hl : n.leading? = some a ∨ n.leading? = some i)
    (hm : n.leftmost? = none ∨ n.leftmost? = some a) (hn : n.named? = none) (hw : n.WellFormed) :
    Occupies ts n i k := by
  obtain ⟨rfl, hij⟩ := h.placed.leading a ha
  refine .intro (.leads (Nat.lt_of_lt_of_le hij hr.le) (hl.elim id id) hm hn) hw
    (spelled_of_named? hn) ?_
  rw [hc]
  exact h.alone.append hr

/-- A node may be made of the children of another, from the same token on. -/
theorem Occupies.onto {a : TokenIndex} (h : Occupies ts m i j) (ha : m.leading? = some a)
    (hc : n.children = m.children) (hl : n.leading? = some a ∨ n.leading? = some i)
    (hm : n.leftmost? = none) (hn : n.named? = none) (hw : n.WellFormed) : Occupies ts n i j := by
  obtain ⟨rfl, hij⟩ := h.placed.leading a ha
  exact .intro (.leads hij (hl.elim id id) (.inl hm) hn) hw (spelled_of_named? hn) (hc ▸ h.row)

/-- A node may have another as its only child and take the same tokens. -/
theorem Occupies.wrapped {a : TokenIndex} (h : Occupies ts m i j) (ha : m.leading? = some a)
    (hc : n.children = [m]) (hl : n.leading? = some a) (hm : n.leftmost? = none)
    (hn : n.named? = none) (hw : n.WellFormed) : Occupies ts n i j :=
  h.goesOn ha (.nil (Nat.le_refl _)) hc (.inl hl) (.inl hm) hn hw

theorem wellFormed_expr {e : Expr} (h : e.operation? = none) : (part (.expr e)).WellFormed := by
  intro label hasRight he
  rw [h] at he
  cases he

theorem wellFormed_unary (op : UnaryOp) (e : Expr) : (part (.expr (.unary i op e))).WellFormed := by
  rintro label hasRight ⟨⟩
  cases op <;> decide

theorem wellFormed_binary (op : BinaryOp) (a b : Expr) :
    (part (.expr (.binary i op a b))).WellFormed := by
  rintro label hasRight ⟨⟩
  cases op with
  | arithmetic op => cases op <;> decide
  | _ => decide

theorem forall_dropLast_cons {α : Type} {p : α → Prop} {a : α} {as : List α} (ha : as ≠ [] → p a)
    (has : ∀ x ∈ as.dropLast, p x) : ∀ x ∈ (a :: as).dropLast, p x := by
  intro x hx
  cases as with
  | nil => cases hx
  | cons b as =>
    rcases List.mem_cons.1 hx with rfl | hx
    · exact ha (List.cons_ne_nil b as)
    · exact has x hx

end
end Syntax.Node

namespace Phrase
open Syntax Phrase.Stream Syntax.Node

theorem type_occupies {ts : List Token} {s t : Stream} {type : TypeExpr} (hs : s.In ts)
    (h : After type.spelling s t) (hp : type.place s.next = type) :
    Occupies ts (.type type) s.next t.next := by
  induction type generalizing s t with
  | name i w =>
    simp only [TypeExpr.spelling, after_cons_iff, after_nil_iff] at h
    obtain ⟨n, us, rfl, rfl⟩ := h
    cases hp
    exact (Row.nil (Nat.le_refl _)).carried (Nat.le_refl _) (.inr rfl) rfl rfl
      hs.getElem? trivial trivial
  | member i p w =>
    simp only [TypeExpr.spelling, after_cons_iff, after_nil_iff] at h
    obtain ⟨n, us, rfl, n₁, us₁, he, n₂, us₂, he', rfl⟩ := h
    cases he
    cases he'
    cases hp
    exact (Row.nil (Nat.le_add_right _ 2)).carried (Nat.le_refl _) (.inr rfl) rfl rfl hs.getElem?
      trivial ⟨hs.tail.getElem?, hs.tail.tail.getElem?⟩
  | optional i inner ih =>
    simp only [TypeExpr.spelling, after_append_iff, after_cons_iff, after_nil_iff] at h
    obtain ⟨m, h, n, us, rfl, rfl⟩ := h
    simp only [TypeExpr.place, TypeExpr.optional.injEq] at hp
    obtain ⟨rfl, hp⟩ := hp
    exact (ih hs h hp).goesOn rfl (.nil (Nat.le_succ _)) rfl (.inr rfl) (.inr rfl) rfl trivial
  | array i element ih =>
    simp only [TypeExpr.spelling, after_append_iff, after_cons_iff, after_nil_iff] at h
    obtain ⟨m, ⟨n, us, rfl, h⟩, k, vs, rfl, rfl⟩ := h
    simp only [TypeExpr.place, TypeExpr.array.injEq] at hp
    obtain ⟨rfl, hp⟩ := hp
    exact (ih hs.tail h hp).alone.past.headed rfl rfl rfl trivial
  | dictionary i key value ihk ihv =>
    simp only [TypeExpr.spelling, after_append_iff, after_cons_iff, after_nil_iff] at h
    obtain ⟨m₂, ⟨m₁, ⟨n, us, rfl, hk⟩, k, vs, rfl, hv⟩, j, ws, rfl, rfl⟩ := h
    simp only [TypeExpr.place, TypeExpr.dictionary.injEq] at hp
    obtain ⟨rfl, hpk, hpv⟩ := hp
    have hn : k = n + 1 + key.spelling.length := hk.2
    have gk := ihk hs.tail hk hpk
    have gv := ihv (hs.tail.rest ⟨_, hk⟩).tail hv (hn ▸ hpv)
    exact (gk.alone.append gv.alone.skip).past.headed rfl rfl rfl trivial

theorem single_occupies {ts : List Token} {n : TokenIndex} {u : Token} {e : Expr}
    (h : singleToken? n u = some e) : Occupies ts (.part (.expr e)) n (n + 1) := by
  unfold singleToken? at h
  split at h
  case h_7 => cases h
  all_goals
    cases h
    exact (Row.nil (Nat.le_refl _)).headed rfl rfl rfl (wellFormed_expr rfl)

theorem target_occupies {ts : List Token} {i j : TokenIndex} {e : Expr} {target : Target}
    (h : Occupies ts (.part (.expr e)) i j) (ht : e.target? = some target) :
    Occupies ts (.part (.target target)) i j := by
  cases e with
  | name k w =>
    cases ht
    obtain ⟨rfl, -⟩ := h.placed.leading k rfl
    obtain ⟨hi, hk, hw⟩ := h.placed.named k w rfl
    have hn : Occupies ts (.part (.name ⟨k, w, none⟩)) k j :=
      (Row.nil hk).carried hi (.inr rfl) rfl rfl hw trivial trivial
    exact hn.wrapped rfl rfl rfl rfl rfl trivial
  | index x =>
    cases ht
    exact h.onto rfl rfl (.inl rfl) rfl rfl trivial
  | _ => cases ht

namespace Reading

section
variable {ts : List Token} {s t : Stream}

theorem Annotation.occupies {type : TypeExpr} (h : Annotation s type t) (hs : s.In ts) :
    Occupies ts (.part (.root type)) s.next t.next := by
  obtain ⟨ha, hp, -⟩ := typeExpr_yields_iff.1 h
  exact (type_occupies hs ha hp).wrapped rfl rfl rfl rfl rfl trivial

theorem Annotation.isRest {type : TypeExpr} (h : Annotation s type t) : t.IsRest s := Yields.isRest h

theorem TypedName.occupies {p : Syntax.TypedName} (h : TypedName s p t) (hs : s.In ts) :
    Occupies ts (.part (.name p)) s.next t.next := by
  cases h with
  | typed h =>
    have g := h.occupies hs.tail.tail
    exact g.only.skip.carried (Nat.le_refl _) (.inr rfl) rfl rfl hs.getElem? trivial trivial
  | plain _ =>
    exact (Row.nil (Nat.le_refl _)).carried (Nat.le_refl _) (.inr rfl) rfl rfl
      hs.getElem? trivial trivial

theorem Listed.row {α : Type} {Item : Stream → α → Stream → Prop} {node : α → Node} {as : List α}
    (h : Listed Item s as t) (hs : s.In ts) (isRest : ∀ {s t a}, Item s a t → t.IsRest s)
    (occupies : ∀ {s t a}, Item s a t → s.In ts → Occupies ts (node a) s.next t.next) :
    Row ts (as.map node) s.next t.next := by
  induction h with
  | last h _ => exact (occupies h hs).alone
  | more h _ ih =>
    have g := occupies h hs
    exact .cons (Nat.le_refl _) g (ih (hs.rest (isRest h)).tail).skip

theorem Listed.names {ps : List Syntax.TypedName} (h : Listed TypedName s ps t) (hs : s.In ts) :
    Row ts (Node.parts (ps.map .name)) s.next t.next := by
  rw [parts_map]
  exact h.row hs (fun h => h.yields.isRest) TypedName.occupies

theorem Clause.annotations {types : List TypeExpr} (h : Clause Annotation s types t)
    (hs : s.In ts) : Row ts (Node.parts (types.map .root)) s.next t.next := by
  cases h with
  | list h =>
    rw [parts_map]
    exact (h.row hs.tail Annotation.isRest Annotation.occupies).skip
  | none _ => exact .nil (Nat.le_refl _)

theorem Parameters.row {ps : List Syntax.TypedName} {isVariadic : Bool}
    (h : Parameters s ps isVariadic t) (hs : s.In ts) :
    Row ts (Node.parts (ps.map .name)) s.next t.next := by
  induction h with
  | variadic => exact .nil (Nat.le_add_right _ 2)
  | last h => exact (h.occupies hs).only.past
  | more h _ ih =>
    have g := h.occupies hs
    exact .cons (Nat.le_refl _) g (ih (hs.rest h.yields.isRest).tail).skip

theorem Signature.occupies {sig : Syntax.Signature} (h : Signature s sig t) (hs : s.In ts) :
    Occupies ts (.part (.signature sig)) s.next t.next := by
  cases h with
  | none h =>
    exact (h.annotations hs.tail.tail).skip.skip.gathered rfl rfl rfl trivial
  | list h h' =>
    have g := h.row hs.tail
    have g' := h'.annotations (hs.tail.rest (yields_parameters h).isRest)
    exact (g.both g').skip.gathered rfl rfl rfl trivial

theorem TypedTarget.isRest {p : Syntax.TypedName} (h : TypedTarget s p t) : t.IsRest s := by
  obtain ⟨h, _⟩ := h.found
  exact h.isRest

theorem TypedTarget.occupies {p : Syntax.TypedName} (h : TypedTarget s p t) (hs : s.In ts) :
    Occupies ts (.part (.target (.name p))) s.next t.next := by
  cases h with
  | intro h _ => exact ((TypedName.typed h).occupies hs).wrapped rfl rfl rfl rfl rfl trivial

theorem TypeTest.occupies {anchor : TokenIndex} {e e' : Expr} (h : TypeTest anchor e s e' t)
    (hs : s.In ts) (he : Occupies ts (.part (.expr e)) anchor s.next) :
    Occupies ts (.part (.expr e')) anchor t.next := by
  cases h with
  | is h =>
    have g := (h.occupies hs.tail).alone.skip
    exact he.goesOn rfl g rfl (.inr rfl) (.inr rfl) rfl (wellFormed_expr rfl)
  | none _ => exact he

end

theorem Block.returnsLast {closers : Closers} {returned : Bool} {s t : Stream}
    {body : Syntax.Block} {k : Keyword} (h : Block closers returned s body k t) :
    Block.ReturnsLast body := by
  induction body generalizing returned s with
  | nil => simp [Block.ReturnsLast]
  | cons a b ih =>
    cases h with
    | cons _ h =>
      refine forall_dropLast_cons (fun hb => ?_) (ih h)
      rw [h.returned_false hb]
      exact Bool.false_ne_true

theorem Expressions.values_ne_nil {s t : Stream} {es : List Expr} (h : Expressions s es t) :
    es ≠ [] := by
  cases h with
  | intro _ _ => exact List.cons_ne_nil _ _

theorem Branches.list_ne_nil {s t : Stream} {list : List Branch} {otherwise : Option Syntax.Block}
    (h : Branches s list otherwise t) : list ≠ [] := by
  cases h <;> exact List.cons_ne_nil _ _

theorem Branches.otherwise_returnsLast {list : List Branch} {otherwise : Option Syntax.Block}
    {body : Syntax.Block} (ho : otherwise = some body) {s t : Stream} :
    Branches s list otherwise t → Block.ReturnsLast body
  | .elseif _ _ h => h.otherwise_returnsLast ho
  | .otherwise _ _ h => by
    cases ho
    exact h.returnsLast
  | .last _ _ _ _ => by cases ho

/-- A call or an indexing of an expression, as an expression. -/
theorem call_occupies {ts : List Token} {i j : TokenIndex} {c : Call}
    (h : Occupies ts (.part (.call c)) i j) : Occupies ts (.part (.expr (.call c))) i j :=
  h.wrapped rfl rfl rfl rfl rfl (wellFormed_expr rfl)

theorem index_occupies {ts : List Token} {i j : TokenIndex} {x : Index}
    (h : Occupies ts (.part (.index x)) i j) : Occupies ts (.part (.expr (.index x))) i j :=
  h.wrapped rfl rfl rfl rfl rfl (wellFormed_expr rfl)

theorem branch_occupies {ts : List Token} {i j : TokenIndex} {e : Expr} {body : Syntax.Block}
    (h : Row ts (Node.parts (.expr e :: body.map .stmt)) i j) (hb : Block.ReturnsLast body) :
    Occupies ts (.part (.branch ⟨e, body⟩)) i j := h.gathered rfl rfl rfl hb

theorem target_untyped {e : Expr} {target : Target} {n : Syntax.TypedName}
    (h : e.target? = some target) (hn : target = .name n) : n.type? = none := by
  subst hn
  cases e <;> cases h
  rfl

mutual

theorem Expression.occupies {ts : List Token} {floor : Nat} {s t : Stream} {e : Expr} :
    Expression floor s e t → s.In ts → Occupies ts (.part (.expr e)) s.next t.next
  | .intro h₁ h₂ h₃, hs => by
    have hs₁ := hs.rest h₁.offers.isRest
    have g₁ := h₁.occupies hs
    have g₂ := h₂.occupies hs₁ g₁
    exact h₃.occupies (hs₁.rest h₂.leaves.isRest) g₂

theorem Operand.occupies {ts : List Token} {s t : Stream} {e : Expr} :
    Operand s e t → s.In ts → Occupies ts (.part (.expr e)) s.next t.next
  | .unary _ h, hs => (h.occupies hs.tail).only.headed rfl rfl rfl (wellFormed_unary _ _)
  | .single hu, _ => single_occupies hu
  | .table h, hs => (h.row hs.tail).headed rfl rfl rfl (wellFormed_expr rfl)
  | .routine h, hs => (h.occupies hs.tail).only.headed rfl rfl rfl (wellFormed_expr rfl)
  | .chain h, hs => h.occupies hs

theorem Operations.occupies {ts : List Token} {floor : Nat} {anchor : TokenIndex} {left e : Expr}
    {s t : Stream} : Operations floor anchor left s e t → s.In ts →
    Occupies ts (.part (.expr left)) anchor s.next → Occupies ts (.part (.expr e)) anchor t.next
  | .more _ _ h h', hs, hl => by
    have g := (h.occupies hs.tail).alone.skip
    refine h'.occupies (hs.tail.rest h.offers.isRest) ?_
    exact hl.goesOn rfl g rfl (.inr rfl) (.inr rfl) rfl (wellFormed_binary _ _ _)
  | .done _, _, hl => hl

theorem Chain.occupies {ts : List Token} {s t : Stream} {e : Expr} :
    Chain s e t → s.In ts → Occupies ts (.part (.expr e)) s.next t.next
  | .name h, hs => by
    refine h.occupies hs.tail rfl ?_
    exact (Row.nil (Nat.le_refl _)).carried (Nat.le_refl _) (.inr rfl) rfl rfl hs.getElem?
      (wellFormed_expr rfl) trivial
  | .parenthesized h h', hs => by
    have g := (h.occupies hs.tail).only.past
    refine h'.occupies (hs.tail.rest h.offers.isRest).tail rfl ?_
    exact g.headed rfl rfl rfl (wellFormed_expr rfl)

theorem Suffixes.occupies {ts : List Token} {anchor : TokenIndex} {e whole : Expr}
    {s t : Stream} : Suffixes anchor e s whole t → s.In ts → e.isPrefix →
    Occupies ts (.part (.expr e)) anchor s.next → Occupies ts (.part (.expr whole)) anchor t.next
  | .element h h', hs, hp, he => by
    have g := (h.occupies hs.tail).alone.skip.past
    refine h'.occupies (hs.tail.rest h.offers.isRest).tail rfl (index_occupies ?_)
    exact he.goesOn rfl g rfl (.inr rfl) (.inr rfl) rfl hp
  | .field h, hs, hp, he => by
    refine h.occupies hs.tail.tail rfl (index_occupies ?_)
    exact he.goesOn rfl (.nil (Nat.le_add_right _ 2)) rfl (.inr rfl) (.inr rfl) rfl hp
  | .method h h', hs, hp, he => by
    have g := (h.row hs.tail.tail).skip.skip
    refine h'.occupies (hs.tail.tail.rest h.yields.isRest) rfl (call_occupies ?_)
    exact he.goesOn rfl g rfl (.inr rfl) (.inr rfl) rfl hp
  | .call h h', hs, hp, he => by
    refine h'.occupies (hs.rest h.yields.isRest) rfl (call_occupies ?_)
    exact he.goesOn rfl (h.row hs) rfl (.inr rfl) (.inr rfl) rfl hp
  | .done _, _, _, he => he

theorem Arguments.row {ts : List Token} {s t : Stream} {args : List Expr} :
    Arguments s args t → s.In ts → Row ts (Node.parts (args.map .expr)) s.next t.next
  | .none, _ => .nil (Nat.le_add_right _ 2)
  | .list h, hs => (h.row hs.tail).past.skip
  | .table h, hs =>
    ((h.row hs.tail).headed (n := .part (.expr _)) rfl rfl rfl (wellFormed_expr rfl)).only
  | .string (v := v), _ => (single_occupies (u := .string v) rfl).only

theorem Expressions.row {ts : List Token} {s t : Stream} {es : List Expr} :
    Expressions s es t → s.In ts → Row ts (Node.parts (es.map .expr)) s.next t.next
  | .intro h h', hs =>
    .cons (Nat.le_refl _) (h.occupies hs) (h'.row (hs.rest h.offers.isRest))

theorem MoreExpressions.row {ts : List Token} {s t : Stream} {es : List Expr} :
    MoreExpressions s es t → s.In ts → Row ts (Node.parts (es.map .expr)) s.next t.next
  | .more h, hs => (h.row hs.tail).skip
  | .done _, _ => .nil (Nat.le_refl _)

theorem TableItems.row {ts : List Token} {s t : Stream} {xs : List Syntax.TableItem} :
    TableItems s xs t → s.In ts → Row ts (Node.parts (xs.map .tableItem)) s.next t.next
  | .none, _ => .nil (Nat.le_succ _)
  | .more h _ h', hs =>
    .cons (Nat.le_refl _) (h.occupies hs) (h'.row (hs.rest h.yields.isRest).tail).skip
  | .last h, hs => (h.occupies hs).only.past

theorem TableItem.occupies {ts : List Token} {s t : Stream} {x : Syntax.TableItem} :
    TableItem s x t → s.In ts → Occupies ts (.part (.tableItem x)) s.next t.next
  | .keyed h h', hs => by
    have g := (h.occupies hs.tail).only.skip
    have g' := (h'.occupies (hs.tail.rest h.offers.isRest).tail.tail).only.skip.skip
    exact (g.both g').gathered rfl rfl rfl trivial
  | .named h, hs => (h.occupies hs.tail.tail).only.skip.skip.gathered rfl rfl rfl trivial
  | .positional _ h, hs => (h.occupies hs).only.gathered rfl rfl rfl trivial

theorem RoutineBody.occupies {ts : List Token} {s t : Stream} {r : Routine} :
    RoutineBody s r t → s.In ts → Occupies ts (.part (.routine r)) s.next t.next
  | .intro h h', hs => by
    have g := (Signature.occupies h hs).only
    have g' := h'.row (hs.rest h.yields.isRest)
    exact (g.both g').gathered rfl rfl rfl h'.returnsLast

theorem Block.row {ts : List Token} {closers : Closers} {returned : Bool} {s t : Stream}
    {body : Syntax.Block} {k : Keyword} : Block closers returned s body k t → s.In ts →
    Row ts (Node.parts (body.map .stmt)) s.next t.next
  | .close (s := s) h _, _ => by
    have := semicolons_next_le s
    rw [h] at this
    exact .nil (Nat.le_succ_of_le this)
  | .cons (s := s) h h', hs => by
    have hs' := hs.rest (semicolons s).rest_isRest
    exact .cons (semicolons_next_le s) (h.occupies hs') (h'.row (hs'.rest h.yields.isRest))

theorem Statement.occupies {ts : List Token} {s t : Stream} {stmt : Stmt} :
    Statement s stmt t → s.In ts → Occupies ts (.part (.stmt stmt)) s.next t.next
  | .scope h, hs => (h.row hs.tail).headed rfl rfl rfl h.returnsLast
  | .whileLoop h h', hs => by
    have g := (h.occupies hs.tail).only
    have g' := (h'.row (hs.tail.rest h.offers.isRest).tail).skip
    exact (g.both g').headed rfl rfl rfl h'.returnsLast
  | .repeatLoop h h', hs => by
    have g := h.row hs.tail
    have g' := (h'.occupies (hs.tail.rest h.yields.isRest)).only
    exact (g.both g').headed rfl rfl rfl h.returnsLast
  | .choice h, hs =>
    (h.row hs.tail).headed rfl rfl rfl ⟨h.list_ne_nil, fun _ ho => h.otherwise_returnsLast ho⟩
  | .forLoop h, hs => h.occupies hs.tail rfl
  | .routine h h', hs => by
    have g := (h'.occupies (hs.tail.rest (yields_path h).isRest)).only
    refine (g.after h.next_le).headed rfl rfl rfl ⟨h.ne_nil, ?_⟩
    rintro rfl
    exact h.length_of_method
  | .localRoutine h, hs =>
    (h.occupies hs.tail.tail.tail).only.skip.skip.headed rfl rfl rfl trivial
  | .localValues h h', hs => by
    have g := h.names hs.tail
    have g' := (h'.row (hs.tail.rest (yields_typedNames h).isRest).tail).skip
    exact (g.both g').headed rfl rfl rfl h.ne_nil
  | .localNames h _, hs => by
    have g := h.names hs.tail
    exact (g.both (.nil (Nat.le_refl _))).headed rfl rfl rfl h.ne_nil
  | .returnEnded h, hs => (h.row hs.tail).past.headed rfl rfl rfl trivial
  | .returnValues h _, hs => (h.row hs.tail).headed rfl rfl rfl trivial
  | .breakLoop, _ => (Row.nil (Nat.le_refl _)).headed rfl rfl rfl trivial
  | .goto, _ => (Row.nil (Nat.le_succ _)).headed rfl rfl rfl trivial
  | .label, _ => (Row.nil (Nat.le_add_right _ 2)).headed rfl rfl rfl trivial
  | .assignmentOrCall h, hs => h.occupies hs

theorem ReturnValues.row {ts : List Token} {s t : Stream} {es : List Expr} :
    ReturnValues s es t → s.In ts → Row ts (Node.parts (es.map .expr)) s.next t.next
  | .list h h', hs =>
    .cons (Nat.le_refl _) (h.occupies hs) (h'.row (hs.rest h.offers.isRest))
  | .none _, _ => .nil (Nat.le_refl _)

theorem Branches.row {ts : List Token} {s t : Stream} {list : List Branch}
    {otherwise : Option Syntax.Block} : Branches s list otherwise t → s.In ts →
    Row ts (Node.parts (list.map .branch ++ (otherwise.getD []).map .stmt)) s.next t.next
  | .elseif h h' h'', hs => by
    have hs' := (hs.rest h.offers.isRest).tail
    have g := (h.occupies hs).only.both (h'.row hs').skip
    have g' := h''.row (hs'.rest h'.yields.isRest)
    exact (branch_occupies g h'.returnsLast).only.both g'
  | .otherwise h h' h'', hs => by
    have hs' := (hs.rest h.offers.isRest).tail
    have g := (h.occupies hs).only.both (h'.row hs').skip
    have g' := h''.row (hs'.rest h'.yields.isRest)
    exact (branch_occupies g h'.returnsLast).only.both g'
  | .last h h' _ _, hs => by
    have hs' := (hs.rest h.offers.isRest).tail
    have g := (h.occupies hs).only.both (h'.row hs').skip
    exact (branch_occupies g h'.returnsLast).only

theorem ForLoop.occupies {ts : List Token} {anchor : TokenIndex} {s t : Stream} {loop : Stmt} :
    ForLoop anchor s loop t → s.In ts → anchor + 1 = s.next →
    Occupies ts (.part (.stmt loop)) anchor t.next
  | .numeric h₁ h₂ h₃ h₄ h₅, hs, ha => by
    have hs₁ := (hs.rest (yields_typedNames h₁).isRest).tail
    have hs₂ := (hs₁.rest h₂.offers.isRest).tail
    have hs₃ := hs₂.rest h₃.offers.isRest
    have hs₄ := (hs₃.rest h₄.leaves.isRest).tail
    have g := ((h₁.names hs).both (h₂.occupies hs₁).only.skip).both (h₃.occupies hs₂).only.skip
    have g' := (g.both (h₄.row hs₃)).both (h₅.row hs₄).skip
    exact (g'.after (Nat.le_of_eq ha)).headed rfl rfl rfl h₅.returnsLast
  | .generic h₁ h₂ h₃, hs, ha => by
    have hs₁ := (hs.rest (yields_typedNames h₁).isRest).tail
    have hs₂ := (hs₁.rest h₂.yields.isRest).tail
    have g := ((h₁.names hs).both (h₂.row hs₁).skip).both (h₃.row hs₂).skip
    exact (g.after (Nat.le_of_eq ha)).headed rfl rfl rfl ⟨h₁.ne_nil, h₂.values_ne_nil, h₃.returnsLast⟩

theorem StepValue.row {ts : List Token} {s t : Stream} {step : Option Expr} :
    StepValue s step t → s.In ts → Row ts (Node.parts (step.toList.map .expr)) s.next t.next
  | .step h, hs => (h.occupies hs.tail).only.skip
  | .none _, _ => .nil (Nat.le_refl _)

theorem AssignmentOrCall.occupies {ts : List Token} {s t : Stream} {stmt : Stmt} :
    AssignmentOrCall s stmt t → s.In ts → Occupies ts (.part (.stmt stmt)) s.next t.next
  | .typed h h', hs => h'.occupies (hs.rest h.isRest) (h.occupies hs)
  | .assign h htarget h', hs =>
    h'.occupies (hs.rest h.yields.isRest) (target_occupies (h.occupies hs) htarget)
  | .update h _ htarget h', hs => by
    have g := target_occupies (h.occupies hs) htarget
    have g' := (h'.occupies (hs.rest h.yields.isRest).tail).only.skip
    exact g.goesOn rfl g' rfl (.inr rfl) (.inl rfl) rfl fun _ => target_untyped htarget
  | .call (e := e) h hc _, hs => by
    have g := h.occupies hs
    cases e <;> cases hc
    exact g.onto rfl rfl (.inr rfl) rfl rfl trivial

theorem Assignment.occupies {ts : List Token} {anchor : TokenIndex} {first : Target}
    {s t : Stream} {stmt : Stmt} : Assignment anchor first s stmt t → s.In ts →
    Occupies ts (.part (.target first)) anchor s.next → Occupies ts (.part (.stmt stmt)) anchor t.next
  | .intro h h', hs, hf => by
    have g := h.row hs
    have g' := (h'.row (hs.rest h.leaves.isRest).tail).skip
    exact hf.goesOn rfl (g.both g') rfl (.inr rfl) (.inl rfl) rfl
      ⟨List.cons_ne_nil _ _, h'.values_ne_nil⟩

theorem MoreTargets.row {ts : List Token} {s t : Stream} {targets : List Target} :
    MoreTargets s targets t → s.In ts → Row ts (Node.parts (targets.map .target)) s.next t.next
  | .more h h', hs => by
    have g' := h'.row (hs.tail.rest h.yields.isRest)
    exact .cons (Nat.le_succ _) (h.occupies hs.tail) g'
  | .done _, _ => .nil (Nat.le_refl _)

theorem OneTarget.occupies {ts : List Token} {s t : Stream} {target : Target} :
    OneTarget s target t → s.In ts → Occupies ts (.part (.target target)) s.next t.next
  | .typed h, hs => h.occupies hs
  | .chain h htarget, hs => target_occupies (h.occupies hs) htarget

end

section
variable {ts : List Token} {s t : Stream}

theorem Conformance.isRest {c : Syntax.Conformance} (h : Conformance s c t) : t.IsRest s := by
  cases h with
  | intro => exact (tail_follows ..).isRest

theorem Conformance.occupies {c : Syntax.Conformance} (h : Conformance s c t) (hs : s.In ts) :
    Occupies ts (.conformance c) s.next t.next := by
  cases h with
  | intro =>
    exact (Row.nil (Nat.le_refl _)).carried (Nat.le_refl _) (.inr rfl) rfl rfl
      hs.getElem? trivial trivial

theorem Clause.conformances {cs : List Syntax.Conformance} (h : Clause Conformance s cs t)
    (hs : s.In ts) : Row ts (cs.map .conformance) s.next t.next := by
  cases h with
  | list h => exact (h.row hs.tail Conformance.isRest Conformance.occupies).skip
  | none _ => exact .nil (Nat.le_refl _)

theorem Given.row {α : Type} {Item : Stream → α → Stream → Prop} {node : α → Node} {a? : Option α}
    (h : Given Item s a? t) (hs : s.In ts)
    (occupies : ∀ {s t a}, Item s a t → s.In ts → Occupies ts (node a) s.next t.next) :
    Row ts (a?.toList.map node) s.next t.next := by
  cases h with
  | item h => exact (occupies h hs.tail).alone.skip
  | none _ => exact .nil (Nat.le_refl _)

theorem Members.row {α : Type} {Item : Stream → α → Stream → Prop} {node : α → Part} {as : List α}
    (h : Members Item s as t) (hs : s.In ts) (isRest : ∀ {s t a}, Item s a t → t.IsRest s)
    (occupies : ∀ {s t a}, Item s a t → s.In ts → Occupies ts (.part (node a)) s.next t.next) :
    Row ts (Node.parts (as.map node)) s.next t.next := by
  induction h with
  | none => exact .nil (Nat.le_succ _)
  | more h _ ih => exact .cons (Nat.le_refl _) (occupies h hs) (ih (hs.rest (isRest h)))

theorem ClassMember.occupies {m : Syntax.ClassMember} (h : ClassMember s m t) (hs : s.In ts) :
    Occupies ts (.part (.classMember m)) s.next t.next := by
  cases h with
  | override h =>
    have g := (h.occupies hs.tail.tail.tail).only.skip
    exact g.carried (Nat.le_succ _) (.inl rfl) rfl rfl hs.tail.getElem? trivial trivial
  | method h =>
    have g := (h.occupies hs.tail.tail).only
    exact g.carried (Nat.le_succ _) (.inl rfl) rfl rfl hs.tail.getElem? trivial trivial
  | property h h' =>
    have g := (h.occupies hs.tail.tail).only.skip
    have g' := h'.row (hs.tail.tail.rest h.isRest) Expression.occupies
    rw [← parts_map] at g'
    exact (g.both g').carried (Nat.le_refl _) (.inl rfl) rfl rfl hs.getElem? trivial trivial

theorem ProtocolMember.occupies {m : Syntax.ProtocolMember} (h : ProtocolMember s m t)
    (hs : s.In ts) : Occupies ts (.part (.protocolMember m)) s.next t.next := by
  cases h with
  | method h =>
    have g := (Signature.occupies h hs.tail.tail).only
    exact g.carried (Nat.le_succ _) (.inl rfl) rfl rfl hs.tail.getElem? trivial trivial
  | property h =>
    have g := (h.occupies hs.tail.tail).only.skip
    exact g.carried (Nat.le_refl _) (.inl rfl) rfl rfl hs.getElem? trivial trivial

theorem AssociatedType.occupies {a : Syntax.AssociatedType} (h : AssociatedType s a t)
    (hs : s.In ts) : Row ts (Node.parts [.root a.type]) s.next t.next := by
  cases h with
  | labelled h => exact (h.occupies hs.tail.tail).only.skip.skip
  | plain _ h => exact (h.occupies hs).only

theorem AssociatedTypes.row {as : List Syntax.AssociatedType} (h : AssociatedTypes s as t)
    (hs : s.In ts) : Row ts (Node.parts (as.map (.root ·.type))) s.next t.next := by
  induction h with
  | last h => exact (h.occupies hs).past
  | more h _ ih =>
    have hs' := hs.rest (associatedType_yields_iff.2 h).isRest
    exact (h.occupies hs).both (ih hs'.tail).skip

theorem Payload.row {as : List Syntax.AssociatedType} (h : Payload s as t) (hs : s.In ts) :
    Row ts (Node.parts (as.map (.root ·.type))) s.next t.next := by
  cases h with
  | empty => exact .nil (Nat.le_add_right _ 2)
  | list h => exact (h.row hs.tail).skip
  | none _ => exact .nil (Nat.le_refl _)

/-- The values that an enum case may stand for. -/
theorem Literal.occupies {l : Syntax.Literal} (h : Literal s l t) (_ : s.In ts) :
    Occupies ts (.literal l) s.next t.next := by
  cases h with
  | negative => exact (Row.nil (Nat.le_succ _)).headed rfl rfl rfl trivial
  | _ => exact (Row.nil (Nat.le_refl _)).headed rfl rfl rfl trivial

theorem rawValue_cases (l : Syntax.Literal) :
    (∃ i x, l = .number i x) ∨ (∃ i w, l = .string i w) ∨ ∃ i b, l = .bool i b := by
  cases l with
  | number i x => exact .inl ⟨i, x, rfl⟩
  | string i w => exact .inr (.inl ⟨i, w, rfl⟩)
  | bool i b => exact .inr (.inr ⟨i, b, rfl⟩)

theorem EnumCase.occupies {c : Syntax.EnumCase} (h : EnumCase s c t) (hs : s.In ts) :
    Occupies ts (.part (.enumCase c)) s.next t.next := by
  cases h with
  | intro h h' =>
    have g := h.row hs.tail
    have g' := h'.row (hs.tail.rest (payload_leaves_iff.2 h).isRest) Literal.occupies
    exact (g.append g').carried (Nat.le_refl _) (.inl rfl) rfl rfl hs.getElem?
      (fun l _ => rawValue_cases l) trivial

theorem EnumCases.row {cs : List Syntax.EnumCase} (h : EnumCases s cs t) (hs : s.In ts) :
    Row ts (Node.parts (cs.map .enumCase)) s.next t.next := by
  induction h with
  | none => exact .nil (Nat.le_succ _)
  | more h _ ih =>
    have hs' := hs.rest (enumCase_yields_iff.2 h).isRest
    exact .cons (Nat.le_refl _) (h.occupies hs) (ih hs'.tail).skip
  | last h => exact (h.occupies hs).only.past

/-- The children of a declaration stand behind its keyword and its name. -/
theorem declaration_occupies {d : Syntax.Declaration} {n m j : TokenIndex} {us : List Token}
    {u : Token} (hs : Stream.In ⟨n, u :: .name d.name :: us⟩ ts) (ha : d.anchor = n + 1)
    (hc : Row ts (d.conforms.map .conformance) (n + 1 + 1) m)
    (hm : Row ts (Node.parts (Part.declaration d).children) m j) :
    Occupies ts (.part (.item (.object d))) n j := by
  have hd : Occupies ts (.part (.declaration d)) n j := by
    refine (hc.append hm).carried (Nat.le_succ _) (.inl rfl) rfl ?_ hs.tail.getElem? trivial trivial
    exact congrArg (fun i => some (i, d.name)) ha
  exact hd.only.gathered rfl rfl rfl trivial

theorem Declaration.occupies {item : Item} (h : Declaration s item t) (hs : s.In ts) :
    Occupies ts (.part (.item item)) s.next t.next := by
  cases h with
  | ofClass h h' =>
    have hs' := hs.tail.tail.rest (conformances_leaves_iff.2 h).isRest
    have g := h'.row hs' (fun h => (classMember_yields_iff.2 h).isRest) ClassMember.occupies
    refine declaration_occupies hs rfl ?_ g
    exact h.conformances hs.tail.tail
  | ofProtocol h h' =>
    have hs' := hs.tail.tail.rest (conformances_leaves_iff.2 h).isRest
    have g := h'.row hs' (fun h => (protocolMember_yields_iff.2 h).isRest) ProtocolMember.occupies
    refine declaration_occupies hs rfl ?_ g
    exact h.conformances hs.tail.tail
  | ofEnum h h' =>
    have hs' := hs.tail.tail.rest (conformances_leaves_iff.2 h).isRest
    refine declaration_occupies hs rfl ?_ (h'.row hs')
    exact h.conformances hs.tail.tail
  | typeAlias h =>
    have g := (h.occupies hs.tail.tail.tail).only.skip
    exact g.carried (Nat.le_succ _) (.inl rfl) rfl rfl hs.tail.getElem? trivial trivial

theorem Items.row {returned : Bool} {c : Chunk} (h : Items returned s c) (hs : s.In ts) :
    Row ts (Node.parts (c.map .item)) s.next ts.length := by
  induction h with
  | done _ =>
    rw [← hs.next_add]
    exact .nil (Nat.le_add_right ..)
  | declaration h _ ih =>
    obtain ⟨read, -, hy⟩ := h.found
    exact .cons (Nat.le_refl _) (h.occupies hs) (ih (hs.rest hy.isRest))
  | statement h _ ih =>
    have hs' := hs.rest (semicolons _).rest_isRest
    refine .cons (semicolons_next_le _) ?_ (ih (hs'.rest h.yields.isRest))
    exact (h.occupies hs').only.gathered rfl rfl rfl trivial

theorem Items.nothing {c : Chunk} (h : Items true s c) : c = [] := by
  cases h
  rfl

theorem Declaration.not_isLast {item : Item} (h : Declaration s item t) : ¬ item.isLast := by
  cases h <;> exact Bool.false_ne_true

theorem Items.returnsLast {returned : Bool} {c : Chunk} (h : Items returned s c) :
    ∀ item ∈ c.dropLast, ¬ item.isLast := by
  induction h with
  | done _ => simp
  | declaration h _ ih => exact forall_dropLast_cons (fun _ => h.not_isLast) ih
  | statement _ h' ih =>
    refine forall_dropLast_cons (fun hc hl => hc ?_) ih
    have hl : Stmt.isLast _ = true := hl
    rw [hl] at h'
    exact h'.nothing

end

end Reading

theorem chunk_occupies {ts : List Token} {c : Chunk} (h : chunk ts = .ok c) :
    Occupies ts (.part (.chunk c)) 0 ts.length :=
  ((reads_items h).row (.whole ts)).gathered rfl rfl rfl (reads_items h).returnsLast

/-- Every node of the tree of a chunk has a range of tokens of its own. -/
theorem chunk_ranges {ts : List Token} {c : Chunk} (h : chunk ts = .ok c) :
    ∃ extent, extent [] = ⟨0, ts.length⟩ ∧ Lays ts (.part (.chunk c)) extent :=
  (chunk_occupies h).exists_lays

/-- `return a - b` -/
def differenceTokens : List Token :=
  [.keyword .return_, .name "a", .operator .minus, .name "b"]

def difference : Expr := .binary 1 (.arithmetic .subtract) (.name 1 "a") (.name 3 "b")

theorem chunk_difference :
    chunk differenceTokens = .ok [.statement (.returnValues 0 [difference])] := by
  have ha : Reading.Operand ⟨1, [.name "a", .operator .minus, .name "b"]⟩ (.name 1 "a")
      ⟨2, [.operator .minus, .name "b"]⟩ := .chain (.name (.done (stops_cons.2 (by decide))))
  have hb : Reading.Expression 4 ⟨3, [.name "b"]⟩ (.name 3 "b") ⟨4, []⟩ :=
    .intro (.chain (.name (.done stops_nil))) (.none stops_nil) (.done stops_nil)
  have he : Reading.Expression 0 ⟨1, [.name "a", .operator .minus, .name "b"]⟩ difference ⟨4, []⟩ :=
    .intro ha (.none (stops_cons.2 (by simp))) (.more rfl (by decide) hb (.done stops_nil))
  have h : Reading.Statement ⟨0, differenceTokens⟩ (.returnValues 0 [difference]) ⟨4, []⟩ :=
    .returnValues (.list he (.done stops_nil)) stops_nil
  refine accepts_items (.statement (h.semicolons_eq.symm ▸ h) (.done ?_))
  rw [semicolons_of_stops stops_nil]

theorem chunk_ranges_difference :
    chunk differenceTokens = .ok [.statement (.returnValues 0 [difference])] ∧
      ∃ extent, extent [] = ⟨0, 4⟩ ∧
        Lays differenceTokens (.part (.chunk [.statement (.returnValues 0 [difference])])) extent :=
  ⟨chunk_difference, chunk_ranges chunk_difference⟩

/-- Every node of the tree of a chunk, at whatever depth, is well formed. -/
theorem chunk_wellFormed {ts : List Token} {c : Chunk} (h : chunk ts = .ok c) (path : List Nat)
    {n : Node} (hn : (Node.part (.chunk c)).at? path = some n) : n.WellFormed := by
  obtain ⟨_, _, ho⟩ := (chunk_occupies h).at? hn
  exact ho.wellFormed

theorem chunk_wellFormed_difference :
    chunk differenceTokens = .ok [.statement (.returnValues 0 [difference])] ∧
      (Node.part (.chunk [.statement (.returnValues 0 [difference])])).at? [0, 0, 0] =
        some (.part (.expr difference)) ∧
      (Node.part (.expr difference)).WellFormed :=
  ⟨chunk_difference, rfl, chunk_wellFormed chunk_difference [0, 0, 0] rfl⟩

end Phrase
end ScriptFront
