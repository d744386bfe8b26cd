import ScriptFront.Program.Annotation
/-! Where annotations stand in a chunk. Every node of the tree lists its children in source order, so
a path of child numbers leads to each annotation, and the walk over all annotations visits each
path once. -/
namespace ScriptFront.Syntax
open Program

/-- A node of the tree of a chunk. The root of an annotation has no children: the types inside it
are no annotations of their own. -/
inductive Part where
  | root (type : TypeExpr)
  | name (name : TypedName)
  | signature (signature : Signature)
  | expr (e : Expr)
  | call (call : Call)
  | index (index : Index)
  | tableItem (item : TableItem)
  | routine (routine : Routine)
  | stmt (statement : Stmt)
  | target (target : Target)
  | branch (branch : Branch)
  | classMember (member : ClassMember)
  | protocolMember (member : ProtocolMember)
  | enumCase (enumCase : EnumCase)
  | declaration (declaration : Declaration)
  | item (item : Item)
  | chunk (chunk : Chunk)

namespace Part

def ofExpr : Expr → List Part
  | .nil _ | .varArgs _ | .literal _ | .name _ _ => []
  | .routine _ r => [.routine r]
  | .unary _ _ e | .parenthesized _ e => [.expr e]
  | .binary _ _ a b => [.expr a, .expr b]
  | .table _ items => items.map .tableItem
  | .call c => [.call c]
  | .index x => [.index x]
  | .typeTest _ e t => [.expr e, .root t]

def ofStmt : Stmt → List Part
  | .scope _ body => body.map .stmt
  | .assign _ targets values => targets.map .target ++ values.map .expr
  | .update _ left _ value => [.target left, .expr value]
  | .whileLoop _ condition body => .expr condition :: body.map .stmt
  | .repeatLoop _ body condition => body.map .stmt ++ [.expr condition]
  | .choice _ branches otherwise => branches.map .branch ++ (otherwise.getD []).map .stmt
  | .numericFor _ counter start stop step body =>
    .name counter :: .expr start :: .expr stop :: (step.toList.map .expr ++ body.map .stmt)
  | .genericFor _ names iterators body =>
    names.map .name ++ iterators.map .expr ++ body.map .stmt
  | .localNames _ names values => names.map .name ++ values.map .expr
  | .localRoutine _ _ r | .routine _ _ _ r => [.routine r]
  | .goto _ _ | .label _ _ | .breakLoop _ => []
  | .returnValues _ values => values.map .expr
  | .call _ c => [.call c]

def children : Part → List Part
  | root _ => []
  | name n => n.type?.toList.map .root
  | signature s => s.parameters.map .name ++ s.returns.map .root
  | expr e => ofExpr e
  | call (.plain _ e args) | call (.method _ e _ args) => .expr e :: args.map .expr
  | index (.element _ e k) => [.expr e, .expr k]
  | index (.field _ e _) => [.expr e]
  | tableItem (.positional v) | tableItem (.named _ v) => [.expr v]
  | tableItem (.keyed k v) => [.expr k, .expr v]
  | routine r => .signature r.signature :: r.body.map .stmt
  | stmt s => ofStmt s
  | target (.name n) => [.name n]
  | target (.index x) => [.index x]
  | branch b => .expr b.condition :: b.body.map .stmt
  | classMember (.property _ _ t initial) => .root t :: initial.toList.map .expr
  | classMember (.override _ _ v) => [.expr v]
  | classMember (.method _ _ r) => [.routine r]
  | protocolMember (.property _ _ t) => [.root t]
  | protocolMember (.method _ _ s) => [.signature s]
  | enumCase c => c.associated.map (.root ·.type)
  | declaration (.ofClass d) => d.members.map .classMember
  | declaration (.ofProtocol d) => d.members.map .protocolMember
  | declaration (.ofEnum d) => d.cases.map .enumCase
  | item (.object d) => [.declaration d]
  | item (.typeAlias a) => [.root a.type]
  | item (.statement s) => [.stmt s]
  | chunk c => c.map .item

/-- An annotation stands at the end of a path from a node. -/
inductive Annotates : Part → List Nat → TypeExpr → Prop where
  | here {t : TypeExpr} : Annotates (.root t) [] t
  | inside {m n : Part} {k : Nat} {path : List Nat} {t : TypeExpr} :
    m.children[k]? = some n → Annotates n path t → Annotates m (k :: path) t

/-- All nodes of a list have less than a size. -/
def Smaller (k : Nat) (parts : List Part) : Prop := ∀ m ∈ parts, sizeOf m < k

theorem smaller_nil {k : Nat} : Smaller k [] := by simp [Smaller]

theorem smaller_cons {k : Nat} {m : Part} {parts : List Part} :
    Smaller k (m :: parts) ↔ sizeOf m < k ∧ Smaller k parts := by simp [Smaller]

theorem smaller_append {k : Nat} {parts others : List Part} :
    Smaller k (parts ++ others) ↔ Smaller k parts ∧ Smaller k others := by
  simp [Smaller, or_imp, forall_and]

theorem smaller_map {α : Type} [SizeOf α] {f : α → Part} {xs : List α} {k : Nat}
    (hf : ∀ x, sizeOf (f x) ≤ 1 + sizeOf x) (hk : sizeOf xs < k) : Smaller k (xs.map f) := by
  intro m h
  obtain ⟨x, hx, rfl⟩ := List.mem_map.1 h
  have := List.sizeOf_lt_of_mem hx
  have := hf x
  omega

theorem smaller_ofExpr (e : Expr) : Smaller (1 + sizeOf e) (ofExpr e) := by
  cases e with
  | table i items => exact smaller_map (fun _ => .refl) (by simp; omega)
  | _ => simp only [ofExpr, smaller_cons, smaller_nil] <;> simp <;> omega

theorem smaller_toList {α : Type} [SizeOf α] {f : α → Part} {x : Option α} {k : Nat}
    (hf : ∀ x, sizeOf (f x) ≤ 1 + sizeOf x) (hk : sizeOf x < k) : Smaller k (x.toList.map f) := by
  cases x with
  | none => exact smaller_nil
  | some x =>
    rw [Option.some.sizeOf_spec] at hk
    exact smaller_cons.2 ⟨Nat.lt_of_le_of_lt (hf x) hk, smaller_nil⟩

theorem smaller_ofStmt (s : Stmt) : Smaller (1 + sizeOf s) (ofStmt s) := by
  cases s with
  | choice i branches otherwise =>
    refine smaller_append.2 ⟨smaller_map (fun _ => .refl) (by simp; omega), ?_⟩
    cases otherwise with
    | none => exact smaller_nil
    | some body => exact smaller_map (fun _ => .refl) (by simp; omega)
  | _ =>
    simp only [ofStmt, smaller_cons, smaller_append, smaller_nil, and_true]
    repeat' apply And.intro
    all_goals first
      | exact smaller_map (fun _ => .refl) (by simp; omega)
      | exact smaller_toList (fun _ => .refl) (by simp; omega)
      | simp <;> omega

theorem smaller_children (n : Part) : Smaller (sizeOf n) n.children := by
  cases n with
  | root t => exact smaller_nil
  | expr e => exact smaller_ofExpr e
  | stmt s => exact smaller_ofStmt s
  | name n =>
    cases n
    exact smaller_toList (fun _ => .refl) (by simp; omega)
  | signature s =>
    cases s
    exact smaller_append.2
      ⟨smaller_map (fun _ => .refl) (by simp; omega), smaller_map (fun _ => .refl) (by simp; omega)⟩
  | routine r =>
    cases r
    exact smaller_cons.2 ⟨by simp; omega, smaller_map (fun _ => .refl) (by simp; omega)⟩
  | branch b =>
    cases b
    exact smaller_cons.2 ⟨by simp; omega, smaller_map (fun _ => .refl) (by simp; omega)⟩
  | enumCase c =>
    cases c
    refine smaller_map (fun a => ?_) (by simp; omega)
    cases a
    simp
  | chunk c => exact smaller_map (fun _ => .refl) (by simp)
  | call x =>
    cases x <;>
      exact smaller_cons.2 ⟨by simp; omega, smaller_map (fun _ => .refl) (by simp; omega)⟩
  | declaration d =>
    obtain ⟨⟨_, _, _, _⟩⟩ | ⟨⟨_, _, _, _⟩⟩ | ⟨⟨_, _, _, _⟩⟩ := d <;>
      exact smaller_map (fun _ => .refl) (by simp; omega)
  | item x =>
    cases x with
    | typeAlias a =>
      cases a
      simp [children, smaller_cons, smaller_nil]
      omega
    | _ => simp [children, smaller_cons, smaller_nil]
  | classMember x =>
    cases x with
    | property i w t initial =>
      exact smaller_cons.2 ⟨by simp; omega, smaller_toList (fun _ => .refl) (by simp; omega)⟩
    | _ => simp +arith [children, smaller_cons, smaller_nil]
  | index x | tableItem x | target x | protocolMember x =>
    cases x <;> simp [children, smaller_cons, smaller_nil] <;> omega

/-- What the walk over all annotations lists below a node. -/
def annotations : Part → List TypeExpr
  | root t => [t]
  | name n => annotationsOfNames [n]
  | signature s => annotationsOfSignature s
  | expr e => annotationsOfExpr e
  | call c => annotationsOfCall c
  | index x => annotationsOfIndex x
  | tableItem x => annotationsOfItem x
  | routine r => annotationsOfRoutine r
  | stmt s => annotationsOfStmt s
  | target t => annotationsOfTarget t
  | branch b => annotationsOfBranch b
  | classMember m => annotationsOfClassMember m
  | protocolMember m => annotationsOfProtocolMember m
  | enumCase c => c.associated.map (·.type)
  | declaration d => annotationsOfDeclaration d
  | item i => annotationsOfTopItem i
  | chunk c => annotationsOfChunk c

/-- A list that is walked item by item is walked as the nodes of its items. -/
theorem walk_eq {α : Type} {w : List α → List TypeExpr} {f : α → Part} (hn : w [] = [])
    (hc : ∀ x xs, w (x :: xs) = (f x).annotations ++ w xs) (xs : List α) :
    w xs = (xs.map f).flatMap annotations := by
  induction xs with
  | nil => exact hn
  | cons x xs ih => rw [hc, ih, List.map_cons, List.flatMap_cons]

theorem annotationsOfExprs_eq (es : List Expr) :
    annotationsOfExprs es = (es.map expr).flatMap annotations :=
  walk_eq rfl (fun _ _ => rfl) es

theorem annotationsOfItems_eq (xs : List TableItem) :
    annotationsOfItems xs = (xs.map tableItem).flatMap annotations :=
  walk_eq rfl (fun _ _ => rfl) xs

theorem annotationsOfBlock_eq (ss : List Stmt) :
    annotationsOfBlock ss = (ss.map stmt).flatMap annotations :=
  walk_eq rfl (fun _ _ => rfl) ss

theorem annotationsOfTargets_eq (ts : List Target) :
    annotationsOfTargets ts = (ts.map target).flatMap annotations :=
  walk_eq rfl (fun _ _ => rfl) ts

theorem annotationsOfBranches_eq (bs : List Branch) :
    annotationsOfBranches bs = (bs.map branch).flatMap annotations :=
  walk_eq rfl (fun _ _ => rfl) bs

theorem flatMap_root (ts : List TypeExpr) : (ts.map root).flatMap annotations = ts :=
  (walk_eq (w := id) rfl (fun _ _ => rfl) ts).symm

theorem annotationsOfNames_cons (n : TypedName) (ns : List TypedName) :
    annotationsOfNames (n :: ns) = annotationsOfNames [n] ++ annotationsOfNames ns :=
  List.filterMap_append (l := [n])

theorem annotationsOfNames_eq (ns : List TypedName) :
    annotationsOfNames ns = (ns.map name).flatMap annotations :=
  walk_eq rfl annotationsOfNames_cons ns

theorem annotations_ofExpr (e : Expr) :
    annotationsOfExpr e = (ofExpr e).flatMap annotations := by
  cases e <;> simp [ofExpr, annotationsOfExpr, annotations, annotationsOfItems_eq]

theorem annotationsOf_choice (i : TokenIndex) (branches : List Branch) (otherwise : Option Block) :
    annotationsOfStmt (.choice i branches otherwise) =
      annotationsOfBranches branches ++ annotationsOfBlock (otherwise.getD []) := by
  cases otherwise <;> rw [annotationsOfStmt] <;> rfl

theorem annotationsOf_numericFor (i : TokenIndex) (counter : TypedName) (start stop : Expr)
    (step : Option Expr) (body : Block) :
    annotationsOfStmt (.numericFor i counter start stop step body) =
      annotationsOfNames [counter] ++ annotationsOfExpr start ++ annotationsOfExpr stop ++
        annotationsOfExprs step.toList ++ annotationsOfBlock body := by
  cases step <;> simp [annotationsOfStmt, annotationsOfExprs]

theorem annotations_ofStmt (s : Stmt) :
    annotationsOfStmt s = (ofStmt s).flatMap annotations := by
  cases s with
  | choice i branches otherwise =>
    simp [ofStmt, annotationsOf_choice, annotationsOfBranches_eq, annotationsOfBlock_eq]
  | numericFor i counter start stop step body =>
    simp [ofStmt, annotationsOf_numericFor, annotations, annotationsOfExprs_eq,
      annotationsOfBlock_eq]
  | genericFor | localNames =>
    simp [ofStmt, annotationsOfStmt, annotationsOfBlock_eq, annotationsOfExprs_eq,
      annotationsOfNames_eq]
  | _ => simp [ofStmt, annotationsOfStmt, annotations, annotationsOfBlock_eq, annotationsOfExprs_eq,
      annotationsOfTargets_eq]

/-- The walk visits the children of a node one after the other. -/
theorem annotations_eq (n : Part) (h : ∀ t, n ≠ root t) :
    n.annotations = n.children.flatMap annotations := by
  cases n with
  | root t => exact absurd rfl (h t)
  | expr e => exact annotations_ofExpr e
  | stmt s => exact annotations_ofStmt s
  | name n =>
    cases hn : n.type? <;> simp [children, annotations, annotationsOfNames, hn]
  | signature s =>
    simp [children, annotations, annotationsOfSignature, annotationsOfNames_eq, flatMap_root]
  | routine r =>
    cases r
    simp [children, annotations, annotationsOfRoutine, annotationsOfBlock_eq]
  | branch b =>
    cases b
    simp [children, annotations, annotationsOfBranch, annotationsOfBlock_eq]
  | enumCase c =>
    rw [annotations, children, ← flatMap_root (c.associated.map _), List.map_map]
    rfl
  | chunk c => simp [children, annotations, annotationsOfChunk, List.flatMap_map]
  | call c => cases c <;> simp [children, annotations, annotationsOfCall, annotationsOfExprs_eq]
  | index x => cases x <;> simp [children, annotations, annotationsOfIndex]
  | tableItem x => cases x <;> simp [children, annotations, annotationsOfItem]
  | target x => cases x <;> simp [children, annotations, annotationsOfTarget]
  | classMember m =>
    cases m <;> simp [children, annotations, annotationsOfClassMember, annotationsOfExprs_eq]
  | protocolMember m => cases m <;> simp [children, annotations, annotationsOfProtocolMember]
  | declaration d =>
    cases d <;> simp [children, annotations, annotationsOfDeclaration, List.flatMap_map]
  | item x => cases x <;> simp [children, annotations, annotationsOfTopItem]

/-- The walk misses no annotation. -/
theorem Annotates.mem {n : Part} {path : List Nat} {t : TypeExpr} (h : Annotates n path t) :
    t ∈ n.annotations := by
  induction h with
  | here => exact List.mem_singleton_self _
  | @inside m n k path t hk _ ih =>
    have hm := List.mem_of_getElem? hk
    rw [annotations_eq m (by rintro t rfl; cases hm)]
    exact List.mem_flatMap.2 ⟨n, hm, ih⟩

/-- All that the walk lists stands somewhere. -/
theorem exists_annotates {n : Part} {t : TypeExpr} (h : t ∈ n.annotations) :
    ∃ path, Annotates n path t := by
  by_cases hn : ∃ u, n = root u
  · obtain ⟨u, rfl⟩ := hn
    obtain rfl := List.mem_singleton.1 h
    exact ⟨[], .here⟩
  · rw [annotations_eq n fun u hu => hn ⟨u, hu⟩, List.mem_flatMap] at h
    obtain ⟨m, hm, ht⟩ := h
    obtain ⟨path, hp⟩ := exists_annotates ht
    obtain ⟨k, hk⟩ := List.getElem?_of_mem hm
    exact ⟨k :: path, .inside hk hp⟩
termination_by sizeOf n
decreasing_by exact smaller_children n m hm

theorem mem_annotations_iff {n : Part} {t : TypeExpr} :
    t ∈ n.annotations ↔ ∃ path, Annotates n path t :=
  ⟨exists_annotates, fun ⟨_, h⟩ => h.mem⟩

/-- Where the walk meets greater and greater anchors, an anchor tells the path. -/
theorem Annotates.unique {n : Part} {path path' : List Nat} {t t' : TypeExpr}
    (hn : n.annotations.Pairwise fun t u => t.anchor < u.anchor) (h : Annotates n path t)
    (h' : Annotates n path' t') (ht : t.anchor = t'.anchor) : path = path' ∧ t = t' := by
  induction h generalizing path' t' with
  | here =>
    cases h' with
    | here => exact ⟨rfl, rfl⟩
    | inside hk _ => cases hk
  | @inside m n k path t hk h ih =>
    have hm := List.mem_of_getElem? hk
    rw [annotations_eq m (by rintro t rfl; cases hm), List.pairwise_flatMap] at hn
    obtain ⟨hin, hout⟩ := hn
    cases h' with
    | here => cases hm
    | @inside _ n' k' path' _ hk' h' =>
      obtain ⟨hlt, rfl⟩ := List.getElem?_eq_some_iff.1 hk
      obtain ⟨hlt', rfl⟩ := List.getElem?_eq_some_iff.1 hk'
      rw [List.pairwise_iff_getElem] at hout
      rcases Nat.lt_trichotomy k k' with hkk | rfl | hkk
      · exact absurd ht (Nat.ne_of_lt (hout k k' hlt hlt' hkk t h.mem t' h'.mem))
      · obtain ⟨rfl, rfl⟩ := ih (hin _ hm) h' ht
        exact ⟨rfl, rfl⟩
      · exact absurd ht.symm (Nat.ne_of_lt (hout k' k hlt' hlt hkk t' h'.mem t h.mem))

end Part
end ScriptFront.Syntax
