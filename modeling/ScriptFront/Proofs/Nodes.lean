import ScriptFront.Proofs.Occurrence
import ScriptFront.Syntax.Dump
/-! All nodes of the tree of a chunk and the ranges of tokens that they take. A path of child numbers
leads to each node; the range of a node holds those of its children, which stand one behind the
other. -/
namespace ScriptFront.Syntax
open Text (Dump)

/-- A node of the tree: one that may hold annotations, or one of the others. The one child of the root
of an annotation is its type. -/
inductive Node where
  | part (part : Part)
  | type (type : TypeExpr)
  | conformance (conformance : Conformance)
  | literal (literal : Literal)

/-- The types that stand inside a type, one level down. -/
def TypeExpr.parts : TypeExpr → List TypeExpr
  | .name _ _ | .member _ _ _ => []
  | .optional _ t | .array _ t => [t]
  | .dictionary _ k v => [k, v]

/-- The label under which an operation is dumped, and whether it has a right operand. -/
def Expr.operation? : Expr → Option (String × Bool)
  | .unary _ op _ => some (op.label, false)
  | .binary _ op _ _ => some (op.label, true)
  | _ => none

/-- Operations are what is dumped under that name, with their right operand if they have one. -/
theorem Expr.dump_of_operation? {e : Expr} {label : String} {hasRight : Bool}
    (h : e.operation? = some (label, hasRight)) : ∃ i left right,
      e.dump = node "Operation" i [("operator", .word label), ("left", left), ("right", right)] ∧
        (hasRight ↔ right ≠ .none) := by
  cases e with
  | unary i op a =>
    cases h
    exact ⟨i, a.dump, .none, by rw [Expr.dump], by simp⟩
  | binary i op a b =>
    cases h
    exact ⟨i, a.dump, .some b.dump, by rw [Expr.dump], by simp [Dump.some, Dump.none]⟩
  | _ => cases h

/-- Nothing follows a return statement. -/
def Block.ReturnsLast (body : Block) : Prop := ∀ s ∈ body.dropLast, ¬ s.isLast

def Item.isLast : Item → Bool
  | statement s => s.isLast
  | _ => false

def Stmt.WellFormed : Stmt → Prop
  | scope _ body | whileLoop _ _ body | repeatLoop _ body _ | numericFor _ _ _ _ _ body =>
    Block.ReturnsLast body
  | assign _ targets values => targets ≠ [] ∧ values ≠ []
  | update _ target _ _ => ∀ n, target = .name n → n.type? = none
  | choice _ branches otherwise =>
    branches ≠ [] ∧ ∀ body, otherwise = some body → Block.ReturnsLast body
  | genericFor _ names iterators body => names ≠ [] ∧ iterators ≠ [] ∧ Block.ReturnsLast body
  | localNames _ names _ => names ≠ []
  | routine _ path isMethod _ => path ≠ [] ∧ (isMethod → 2 ≤ path.length)
  | _ => True

namespace Node

def parts (list : List Part) : List Node := list.map part

def children : Node → List Node
  | part (.root t) => [type t]
  | part (.enumCase c) => parts (c.associated.map (.root ·.type)) ++ c.rawValue?.toList.map literal
  | part (.declaration d) => d.conforms.map conformance ++ parts (Part.declaration d).children
  | part p => parts p.children
  | type t => t.parts.map type
  | conformance _ | literal _ => []

/-- The node at the end of a path. -/
def at? (n : Node) : List Nat → Option Node
  | [] => some n
  | k :: path => n.children[k]?.bind (·.at? path)

theorem at?_snoc {root m n : Node} {path : List Nat} {k : Nat} (h : root.at? path = some m)
    (hk : m.children[k]? = some n) : root.at? (path ++ [k]) = some n := by
  induction path generalizing root with
  | nil =>
    cases h
    simpa [at?] using hk
  | cons j path ih =>
    obtain ⟨r, hr, h⟩ := Option.bind_eq_some_iff.1 h
    exact Option.bind_eq_some_iff.2 ⟨r, hr, ih h⟩

/-- The anchor of a node that carries the index of its first token. -/
def leading? : Node → Option TokenIndex
  | part (.root t) | type t => some t.anchor
  | part (.name n) => some n.anchor
  | part (.expr e) => some e.anchor
  | part (.call c) => some c.anchor
  | part (.index x) => some x.anchor
  | part (.target t) => some t.anchor
  | part (.stmt s) => some s.anchor
  | conformance c => some c.anchor
  | literal l => some l.anchor
  | _ => none

/-- The anchor of the expression or type that a node begins with and goes on. -/
def leftmost? : Node → Option TokenIndex
  | part (.expr (.binary _ _ e _)) | part (.expr (.typeTest _ e _)) => some e.anchor
  | part (.call (.plain _ e _)) | part (.call (.method _ e _ _)) => some e.anchor
  | part (.index (.element _ e _)) | part (.index (.field _ e _)) => some e.anchor
  | type (.optional _ t) => some t.anchor
  | _ => none

/-- The anchor and the name of a node whose anchor is the index of its name. -/
def named? : Node → Option (TokenIndex × String)
  | part (.name n) => some (n.anchor, n.name)
  | part (.expr (.name i w)) => some (i, w)
  | part (.classMember (.property i w _ _)) | part (.classMember (.override i w _))
  | part (.classMember (.method i w _)) => some (i, w)
  | part (.protocolMember (.property i w _)) | part (.protocolMember (.method i w _)) => some (i, w)
  | part (.enumCase c) => some (c.anchor, c.name)
  | part (.declaration d) => some (d.anchor, d.name)
  | part (.item (.typeAlias a)) => some (a.anchor, a.name)
  | type (.name i w) | type (.member i w _) => some (i, w)
  | conformance c => some (c.anchor, c.name)
  | _ => none

/-- What holds of a node of every tree that is read. The clauses on the operators of operations and on
the raw values of enum cases hold of every node, by the types `UnaryOp`, `BinaryOp` and `Literal`; no
type says that a return statement comes last, what may be called or indexed, or that a list is not
empty. -/
def WellFormed : Node → Prop
  | part (.expr e) => ∀ label hasRight, e.operation? = some (label, hasRight) →
    if hasRight then label ∉ ["Not", "Length"] else label ∈ ["Minus", "Not", "Length"]
  | part (.call (.plain _ e _)) | part (.call (.method _ e _ _))
  | part (.index (.element _ e _)) | part (.index (.field _ e _)) => e.isPrefix
  | part (.routine r) => Block.ReturnsLast r.body
  | part (.branch b) => Block.ReturnsLast b.body
  | part (.stmt s) => s.WellFormed
  | part (.enumCase c) => ∀ l, c.rawValue? = some l →
    (∃ i x, l = .number i x) ∨ (∃ i w, l = .string i w) ∨ ∃ i b, l = .bool i b
  | part (.chunk c) => ∀ item ∈ c.dropLast, ¬ item.isLast
  | _ => True

/-- Of a member of a type, whose anchor is that of the type, the dot and the member's name come
next. -/
def Spelled (ts : List Token) : Node → Prop
  | type (.member i _ w) => ts[i + 1]? = some (.operator .dot) ∧ ts[i + 2]? = some (.name w)
  | _ => True

/-- A node in its tokens, from `i` up to `j`. -/
structure Placed (ts : List Token) (n : Node) (i j : TokenIndex) : Prop where
  le : i ≤ j
  leading : ∀ k, n.leading? = some k → k = i ∧ i < j
  leftmost : ∀ k, n.leftmost? = some k → k = i
  named : ∀ k w, n.named? = some (k, w) → i ≤ k ∧ k < j ∧ ts[k]? = some (.name w)

mutual

/-- The node takes the tokens from one index up to another. -/
inductive Occupies (ts : List Token) : Node → TokenIndex → TokenIndex → Prop
  | intro : n.Placed ts i j → n.WellFormed → n.Spelled ts → Row ts n.children i j →
    Occupies ts n i j

/-- The nodes take tokens between one index and another, one node behind the other. -/
inductive Row (ts : List Token) : List Node → TokenIndex → TokenIndex → Prop
  | nil : i ≤ j → Row ts [] i j
  | cons : i ≤ j → Occupies ts n j k → Row ts list k l → Row ts (n :: list) i l

end

section Rows
variable {ts : List Token} {n : Node} {list : List Node} {i j k : TokenIndex}

theorem Occupies.placed : Occupies ts n i j → n.Placed ts i j
  | .intro h _ _ _ => h

theorem Occupies.wellFormed : Occupies ts n i j → n.WellFormed
  | .intro _ h _ _ => h

theorem Occupies.spelled : Occupies ts n i j → n.Spelled ts
  | .intro _ _ h _ => h

theorem Occupies.row : Occupies ts n i j → Row ts n.children i j
  | .intro _ _ _ h => h

theorem Row.le {ts : List Token} {list : List Node} {i j : TokenIndex} : Row ts list i j → i ≤ j
  | .nil h => h
  | .cons h h' h'' => Nat.le_trans h (Nat.le_trans h'.placed.le h''.le)

theorem Row.after (h : Row ts list j k) (hi : i ≤ j) : Row ts list i k := by
  cases h with
  | nil h => exact .nil (Nat.le_trans hi h)
  | cons h h' h'' => exact .cons (Nat.le_trans hi h) h' h''

theorem Row.append {ts : List Token} {list others : List Node} {i j k : TokenIndex} :
    Row ts list i j → Row ts others j k → Row ts (list ++ others) i k
  | .nil h, h' => h'.after h
  | .cons h hn hl, h' => .cons h hn (hl.append h')

theorem Row.before (h : Row ts list i j) (hj : j ≤ k) : Row ts list i k := by
  have := h.append (.nil hj)
  rwa [List.append_nil] at this

theorem Row.skip (h : Row ts list (i + 1) j) : Row ts list i j := h.after (Nat.le_succ i)

theorem Row.past (h : Row ts list i j) : Row ts list i (j + 1) := h.before (Nat.le_succ j)

theorem Occupies.alone (h : Occupies ts n i j) : Row ts [n] i j :=
  .cons (Nat.le_refl _) h (.nil (Nat.le_refl _))

theorem Row.mem {ts : List Token} {list : List Node} {n : Node} {i j : TokenIndex} :
    Row ts list i j → n ∈ list → ∃ k l, Occupies ts n k l
  | .cons _ h h', hn => by
    rcases List.mem_cons.1 hn with rfl | hn
    · exact ⟨_, _, h⟩
    · exact h'.mem hn

theorem Occupies.at? {m : Node} {path : List Nat} (h : Occupies ts m i j)
    (hn : m.at? path = some n) : ∃ k l, Occupies ts n k l := by
  induction path generalizing m i j with
  | nil =>
    cases hn
    exact ⟨i, j, h⟩
  | cons k path ih =>
    obtain ⟨c, hc, hn⟩ := Option.bind_eq_some_iff.1 hn
    obtain ⟨_, _, hc⟩ := h.row.mem (List.mem_of_getElem? hc)
    exact ih hc hn

end Rows

/-- A range of tokens: from the index `first` up to `stop`, which is no longer in it. -/
structure Extent where
  first : TokenIndex
  stop : TokenIndex

/-- Ranges for all nodes of a tree by their paths. -/
structure Lays (ts : List Token) (root : Node) (extent : List Nat → Extent) : Prop where
  placed : ∀ path n, root.at? path = some n → n.Placed ts (extent path).first (extent path).stop
  inside : ∀ path k n, root.at? (path ++ [k]) = some n →
    (extent path).first ≤ (extent (path ++ [k])).first ∧
      (extent (path ++ [k])).stop ≤ (extent path).stop
  apart : ∀ path j k n, j < k → root.at? (path ++ [k]) = some n →
    (extent (path ++ [j])).stop ≤ (extent (path ++ [k])).first

/-- Ranges for the nodes of a list of trees, between one index and another. -/
structure LaysRow (ts : List Token) (list : List Node) (i j : TokenIndex)
    (extents : Nat → List Nat → Extent) : Prop where
  lays : ∀ k n, list[k]? = some n → Lays ts n (extents k)
  inside : ∀ k n, list[k]? = some n → i ≤ (extents k []).first ∧ (extents k []).stop ≤ j
  apart : ∀ k l n, k < l → list[l]? = some n → (extents k []).stop ≤ (extents l []).first

/-- The ranges of a node and of the nodes below it. -/
def extentFrom (whole : Extent) (extents : Nat → List Nat → Extent) : List Nat → Extent
  | [] => whole
  | k :: path => extents k path

/-- The ranges of a list of trees with one more in front. -/
def extentsFrom (extent : List Nat → Extent) (extents : Nat → List Nat → Extent) :
    Nat → List Nat → Extent
  | 0 => extent
  | k + 1 => extents k

section Extents
variable {ts : List Token} {n : Node} {list : List Node} {i j k l : TokenIndex}
  {extent : List Nat → Extent} {extents : Nat → List Nat → Extent}

theorem LaysRow.node (h : LaysRow ts n.children i j extents) (hn : n.Placed ts i j) :
    Lays ts n (extentFrom ⟨i, j⟩ extents) where
  placed
    | [], m, hm => by
      cases hm
      exact hn
    | k :: path, m, hm => by
      obtain ⟨c, hc, hm⟩ := Option.bind_eq_some_iff.1 hm
      exact (h.lays k c hc).placed path m hm
  inside
    | [], k, m, hm => by
      obtain ⟨c, hc, hm⟩ := Option.bind_eq_some_iff.1 hm
      exact h.inside k c hc
    | k' :: path, k, m, hm => by
      obtain ⟨c, hc, hm⟩ := Option.bind_eq_some_iff.1 hm
      exact (h.lays k' c hc).inside path k m hm
  apart
    | [], j, k, m, hjk, hm => by
      obtain ⟨c, hc, hm⟩ := Option.bind_eq_some_iff.1 hm
      exact h.apart j k c hjk hc
    | k' :: path, j, k, m, hjk, hm => by
      obtain ⟨c, hc, hm⟩ := Option.bind_eq_some_iff.1 hm
      exact (h.lays k' c hc).apart path j k m hjk hm

theorem LaysRow.cons (hi : i ≤ j) (hjk : j ≤ k) (hn : Lays ts n extent) (he : extent [] = ⟨j, k⟩)
    (hkl : k ≤ l) (h : LaysRow ts list k l extents) :
    LaysRow ts (n :: list) i l (extentsFrom extent extents) where
  lays
    | 0, m, hm => by
      cases hm
      exact hn
    | k + 1, m, hm => h.lays k m hm
  inside
    | 0, m, hm => by simp only [extentsFrom, he, hi, hkl, and_self]
    | k' + 1, m, hm => by
      obtain ⟨hf, hs⟩ := h.inside k' m hm
      exact ⟨Nat.le_trans (Nat.le_trans hi hjk) hf, hs⟩
  apart
    | 0, k' + 1, m, _, hm => by
      simp only [extentsFrom, he]
      exact (h.inside k' m hm).1
    | j + 1, k + 1, m, hjk, hm => h.apart j k m (Nat.lt_of_succ_lt_succ hjk) hm

mutual

theorem Occupies.exists_lays {ts : List Token} {n : Node} {i j : TokenIndex} :
    Occupies ts n i j → ∃ extent, extent [] = ⟨i, j⟩ ∧ Lays ts n extent
  | .intro h _ _ h' => by
    obtain ⟨extents, hrow⟩ := h'.exists_lays
    exact ⟨_, rfl, hrow.node h⟩

theorem Row.exists_lays {ts : List Token} {list : List Node} {i j : TokenIndex} :
    Row ts list i j → ∃ extents, LaysRow ts list i j extents
  | .nil h => ⟨fun _ _ => ⟨i, j⟩, by simp, by simp, by simp⟩
  | .cons h h' h'' => by
    obtain ⟨extent, he, hn⟩ := h'.exists_lays
    obtain ⟨extents, hrow⟩ := h''.exists_lays
    exact ⟨_, hrow.cons h h'.placed.le hn he h''.le⟩

end

end Extents
end Node
end ScriptFront.Syntax
