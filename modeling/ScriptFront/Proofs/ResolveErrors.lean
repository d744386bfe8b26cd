import ScriptFront.Proofs.AliasCache
import ScriptFront.Proofs.NameTables
import ScriptFront.Proofs.NodeRanges
import ScriptFront.Proofs.Visits
/-! The errors of a program point at nodes of its chunks: at what is declared, at a conformance or at
a type inside an annotation. Each of them carries the index of a name, so the index is that of a
token. -/
namespace ScriptFront.Program
open Syntax Phrase

/-- The error points at the node, and but for two causes it has the name of the node. -/
def ResolveError.PointsAt (e : ResolveError) (n : Syntax.Node) : Prop :=
  match e.cause with
  | .notAMember => ∃ parent, n = .type (.member e.index parent e.name)
  | .duplicateProtocol => ∃ name, n = .conformance ⟨e.index, name⟩
  | _ => n.named? = some (e.index, e.name)

/-- The nodes of the trees of chunks. -/
def HasNode (chunks : List Chunk) (n : Syntax.Node) : Prop :=
  ∃ c ∈ chunks, ∃ path, (Syntax.Node.part (.chunk c)).at? path = some n

/-- The error points into the chunks. -/
def ResolveError.PointsInto (chunks : List Chunk) (e : ResolveError) : Prop :=
  ∃ n, HasNode chunks n ∧ e.PointsAt n

/-- The error points at a type in the chunks. -/
def ResolveError.PointsAtType (chunks : List Chunk) (e : ResolveError) : Prop :=
  ∃ t, HasNode chunks (.type t) ∧ e.PointsAt (.type t)

theorem ResolveError.PointsAtType.pointsInto {chunks : List Chunk} {e : ResolveError}
    (h : e.PointsAtType chunks) : e.PointsInto chunks := by
  obtain ⟨t, ht, he⟩ := h
  exact ⟨_, ht, he⟩

section
variable {chunks : List Chunk} {c : Chunk} {m n : Syntax.Node} {d : Declared} {item : Item}
  {o : Declaration} {a : AliasDecl}

theorem HasNode.child (h : HasNode chunks m) (hn : n ∈ m.children) : HasNode chunks n := by
  obtain ⟨c, hc, path, hm⟩ := h
  obtain ⟨k, hk⟩ := List.getElem?_of_mem hn
  exact ⟨c, hc, path ++ [k], Syntax.Node.at?_snoc hm hk⟩

theorem hasNode_chunk (hc : c ∈ chunks) : HasNode chunks (.part (.chunk c)) := ⟨c, hc, [], rfl⟩

theorem part_mem_children {p q : Part} (h : q ∈ p.children) :
    Syntax.Node.part q ∈ (Syntax.Node.part p).children := by
  have hq := List.mem_map_of_mem (f := Syntax.Node.part) h
  cases p with
  | root t => cases h
  | enumCase c => exact List.mem_append_left _ hq
  | declaration d => exact List.mem_append_right _ hq
  | _ => exact hq

theorem HasNode.part {p q : Part} (h : HasNode chunks (.part p)) (hq : q ∈ p.children) :
    HasNode chunks (.part q) := h.child (part_mem_children hq)

theorem hasNode_item (h : item ∈ chunks.flatten) : HasNode chunks (.part (.item item)) := by
  obtain ⟨c, hc, hi⟩ := List.mem_flatten.1 h
  exact (hasNode_chunk hc).part (List.mem_map_of_mem hi)

theorem hasNode_annotation {p : Part} {path : List Nat} {t : TypeExpr}
    (h : Part.Annotates p path t) (hp : HasNode chunks (.part p)) : HasNode chunks (.type t) := by
  induction h with
  | here => exact hp.child List.mem_cons_self
  | inside hk _ ih => exact ih (hp.part (List.mem_of_getElem? hk))

theorem HasNode.declaration (h : Item.object o ∈ chunks.flatten) :
    HasNode chunks (.part (.declaration o)) := (hasNode_item h).part List.mem_cons_self

theorem HasNode.aliased (h : Item.typeAlias a ∈ chunks.flatten) : HasNode chunks (.type a.type) :=
  ((hasNode_item h).part List.mem_cons_self).child List.mem_cons_self

theorem HasNode.conformance {c : Conformance} (h : HasNode chunks (.part (.declaration o)))
    (hc : c ∈ o.conforms) : HasNode chunks (.conformance c) :=
  h.child (List.mem_append_left _ (List.mem_map_of_mem hc))

/-- An error with the name of a node. -/
theorem pointsAt_of_named? {cause : ResolveCause} {name : String} {index : TokenIndex}
    (hn : n.named? = some (index, name)) (hm : cause ≠ .notAMember)
    (hp : cause ≠ .duplicateProtocol) : ResolveError.PointsAt ⟨cause, name, index⟩ n := by
  unfold ResolveError.PointsAt
  split
  · exact absurd ‹_› hm
  · exact absurd ‹_› hp
  · exact hn

theorem HasNode.points {cause : ResolveCause} {name : String} {index : TokenIndex}
    (h : HasNode chunks n) (hn : n.named? = some (index, name)) (hm : cause ≠ .notAMember)
    (hp : cause ≠ .duplicateProtocol) :
    ResolveError.PointsInto chunks ⟨cause, name, index⟩ := ⟨n, h, pointsAt_of_named? hn hm hp⟩

theorem HasNode.declares {name : String} {index : TokenIndex} (h : item ∈ chunks.flatten)
    (hd : item.declares? = some (name, index)) :
    ∃ n, HasNode chunks n ∧ n.named? = some (index, name) := by
  cases item with
  | object o =>
    cases hd
    exact ⟨_, .declaration h, rfl⟩
  | typeAlias a =>
    cases hd
    exact ⟨_, hasNode_item h, rfl⟩
  | statement s => cases hd

theorem fails_addItem (h : item ∈ chunks.flatten) :
    Fails (ResolveError.PointsInto chunks) (d.addItem item) := by
  refine Declared.refuses_of_addItem.mono fun e he => ?_
  obtain ⟨n, hn, hname⟩ := HasNode.declares h he.declares
  rcases he.cause with hc | hc
  · exact hn.points hname (by simp [hc]) (by simp [hc])
  · exact hn.points hname (by simp [hc]) (by simp [hc])

theorem fails_ofChunks (chunks : List Chunk) :
    Fails (ResolveError.PointsInto chunks) (Declared.ofChunks chunks) :=
  .foldlM (fun _ _ h => fails_addItem h) Declared.empty

/-- The nodes of all that is declared are in the chunks. -/
structure Declared.From (d : Declared) (chunks : List Chunk) : Prop where
  objects : ∀ o ∈ d.objects, HasNode chunks (.part (.declaration o))
  aliases : ∀ a ∈ d.aliases, HasNode chunks (.type a.type)

theorem Declared.from_ofChunks (h : Declared.ofChunks chunks = .ok d) : d.From chunks := by
  obtain ⟨-, rfl⟩ := Declared.ofChunks_ok_iff.1 h
  exact ⟨fun o ho => .declaration (Declared.mem_objects_ofItems.1 ho),
    fun a ha => .aliased (Declared.mem_aliases_ofItems.1 ha)⟩

theorem Declared.From.conforms (hd : d.From chunks) {id : ObjectId} {c : Conformance}
    (hc : c ∈ d.conforms id) : HasNode chunks (.conformance c) := by
  unfold Declared.conforms at hc
  cases ho : d.objects[id]? with
  | none =>
    rw [ho] at hc
    cases hc
  | some o =>
    rw [ho] at hc
    exact (hd.objects o (List.mem_of_getElem? ho)).conformance hc

end

section
variable {chunks : List Chunk} {d : Declared} {id : ObjectId} {c : Conformance}

/-- The errors of an object point at the conformance that is read. -/
theorem blames_points (hd : d.From chunks) : Blames d (ResolveError.PointsInto chunks) where
  target h hr := by
    have hc := hd.conforms h.mem
    cases hr <;> exact hc.points rfl (by simp) (by simp)
  adopt h _ _ _ _ _ := ⟨_, hd.conforms h.mem, _, rfl⟩

theorem fails_plainType {i : TokenIndex} {w : String} {t : TypeExpr}
    (h : HasNode chunks (.type t)) (hn : (Syntax.Node.type t).named? = some (i, w)) :
    Fails (ResolveError.PointsAtType chunks) (d.plainType i w) := by
  unfold Declared.plainType
  split
  · exact .ok
  · split
    · exact .ok
    · exact .error ⟨_, h, pointsAt_of_named? hn (by simp) (by simp)⟩

theorem fails_metaType {i : TokenIndex} {w : String} {t : TypeExpr}
    (h : HasNode chunks (.type t)) (hn : (Syntax.Node.type t).named? = some (i, w)) (u : Ty) :
    Fails (ResolveError.PointsAtType chunks) (metaType i w u) := by
  unfold metaType
  split
  · exact .ok
  · exact .ok
  · exact .error ⟨_, h, pointsAt_of_named? hn (by simp) (by simp)⟩

mutual

theorem fails_expand (hd : d.From chunks) (expanding : List String) {t : TypeExpr}
    (ht : HasNode chunks (.type t)) :
    Fails (ResolveError.PointsAtType chunks) (expand d expanding t) := by
  cases t with
  | name i w =>
    rw [expand]
    exact fails_expandName hd expanding ht rfl
  | member i p w =>
    rw [expand]
    split
    · exact .bind (fails_expandName hd expanding ht rfl) fun u _ => fails_metaType ht rfl u
    · exact .error ⟨_, ht, p, rfl⟩
  | optional i t =>
    rw [expand]
    exact .bind (fails_expand hd expanding (ht.child List.mem_cons_self)) fun _ _ => .ok
  | array i t =>
    rw [expand]
    exact .bind (fails_expand hd expanding (ht.child List.mem_cons_self)) fun _ _ => .ok
  | dictionary i k v =>
    have hk := ht.child List.mem_cons_self
    have hv := ht.child (List.mem_cons_of_mem _ List.mem_cons_self)
    rw [expand]
    refine .bind (fails_expand hd expanding hk) fun _ _ => ?_
    exact .bind (fails_expand hd expanding hv) fun _ _ => .ok
termination_by (d.unexpanded expanding, sizeOf t)

theorem fails_expandName (hd : d.From chunks) (expanding : List String) {i : TokenIndex}
    {w : String} {t : TypeExpr} (h : HasNode chunks (.type t))
    (hn : (Syntax.Node.type t).named? = some (i, w)) :
    Fails (ResolveError.PointsAtType chunks) (expandName d expanding i w) := by
  rw [expandName]
  split
  · next a ha =>
    split
    · exact .error ⟨_, h, pointsAt_of_named? hn (by simp) (by simp)⟩
    · next hw => exact fails_expand hd (w :: expanding) (hd.aliases a (List.mem_of_find?_eq_some ha))
  · exact fails_plainType h hn
termination_by (d.unexpanded expanding, 0)
decreasing_by exact .left _ _ (Declared.unexpanded_lt ‹_› ‹_›)

end

theorem fails_expandAll (hd : d.From chunks) {annotations : List TypeExpr}
    (h : ∀ t ∈ annotations, HasNode chunks (.type t)) :
    Fails (ResolveError.PointsAtType chunks) (TypeTable.expandAll d annotations) :=
  .foldlM (fun _ t ht => .bind (fails_expand hd [] (h t ht)) fun _ _ => .ok) []

theorem fails_tables (hd : d.From chunks) : Fails (ResolveError.PointsAtType chunks)
    (chunks.mapM fun c => TypeTable.expandAll d (annotationsOfChunk c)) := by
  refine .mapM fun c hc => fails_expandAll hd fun t ht => ?_
  obtain ⟨path, ht⟩ := Part.mem_annotations_iff (n := .chunk c) |>.1 ht
  exact hasNode_annotation ht (hasNode_chunk hc)

end

/-- The errors of a program point into its chunks. -/
theorem ofChunks_error_points {chunks : List Chunk} {e : ResolveError}
    (h : Program.ofChunks chunks = .error e) : e.PointsInto chunks := by
  rcases phase_of_error h with h | ⟨d, hd, h | h⟩
  · exact fails_ofChunks chunks e h
  · exact (blames_points (Declared.from_ofChunks hd)).ofDeclared e h
  · exact (fails_tables (Declared.from_ofChunks hd) e h).pointsInto

theorem ResolveError.PointsAt.named {e : ResolveError} {n : Syntax.Node} (h : e.PointsAt n) :
    ∃ name, n.named? = some (e.index, name) := by
  unfold ResolveError.PointsAt at h
  split at h
  · obtain ⟨parent, rfl⟩ := h
    exact ⟨parent, rfl⟩
  · obtain ⟨name, rfl⟩ := h
    exact ⟨name, rfl⟩
  · exact ⟨_, h⟩

section
variable {ts : List Token} {c : Chunk} {n : Syntax.Node} {e : ResolveError}

theorem HasNode.occupies (h : HasNode [c] n) (hc : Phrase.chunk ts = .ok c) :
    ∃ i j, Node.Occupies ts n i j := by
  obtain ⟨c', hmem, path, hn⟩ := h
  obtain rfl := List.mem_singleton.1 hmem
  exact (chunk_occupies hc).at? hn

/-- The name of a node stands at the index that the node has for it. -/
theorem HasNode.getElem? {i : TokenIndex} {w : String} (h : HasNode [c] n)
    (hc : Phrase.chunk ts = .ok c) (hn : n.named? = some (i, w)) : ts[i]? = some (.name w) := by
  obtain ⟨_, _, ho⟩ := h.occupies hc
  exact (ho.placed.named i w hn).2.2

/-- The index of an error is that of a name in the tokens of the chunk. -/
theorem ofChunks_error_name (hc : Phrase.chunk ts = .ok c)
    (h : Program.ofChunks [c] = .error e) : ∃ name, ts[e.index]? = some (.name name) := by
  obtain ⟨n, hn, he⟩ := ofChunks_error_points h
  obtain ⟨name, hname⟩ := he.named
  exact ⟨name, hn.getElem? hc hname⟩

end
end ScriptFront.Program
