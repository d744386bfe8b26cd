import Mathlib.Data.List.FinRange
import Mathlib.Data.List.Pairwise
import ScriptFront.Proofs.AliasCache
import ScriptFront.Proofs.Correspondence
import ScriptFront.Proofs.Rearrangement
/-! The order of declarations does not matter. A program whose chunks, and the items inside each,
stand in another order resolves as well, to the same but for the numbers of its objects. -/
namespace ScriptFront.Program
open Syntax Phrase

variable {f : ObjectId → ObjectId}

namespace TypeTable
variable {d : Declared} {table table' : TypeTable} {annotations : List TypeExpr} {a b : TypeExpr}
  {i j : TokenIndex} {t u : Ty}

/-- Entries may change places unless they give different types to one token. -/
theorem insert_comm (h : i = j → t = u) (table : TypeTable) :
    insert i t (insert j u table) = insert j u (insert i t table) := by
  induction table with
  | nil => grind [insert]
  | cons e table ih => grind [insert]

/-- What an annotation adds to a table, if it stands for a type. -/
def put (d : Declared) (table : TypeTable) (a : TypeExpr) : TypeTable :=
  match expand d [] a with
  | .ok t => insert a.anchor t table
  | .error _ => table

/-- Annotations at one token stand for the same type. -/
def Alike (d : Declared) (a b : TypeExpr) : Prop :=
  a.anchor = b.anchor → ∀ t, expand d [] a = .ok t ↔ expand d [] b = .ok t

theorem put_comm (h : Alike d a b) (table : TypeTable) :
    put d (put d table a) b = put d (put d table b) a := by
  unfold put
  cases ha : expand d [] a with
  | error => rfl
  | ok t =>
    cases hb : expand d [] b with
    | error => rfl
    | ok u =>
      refine insert_comm (fun hba => ?_) table
      have hbt := (h hba.symm t).1 ha
      exact Except.ok.inj (hb.symm.trans hbt)

theorem foldl_put_comm {others : List TypeExpr}
    (h : ∀ a ∈ annotations, ∀ b ∈ others, Alike d a b) (table : TypeTable) :
    others.foldl (put d) (annotations.foldl (put d) table) =
      annotations.foldl (put d) (others.foldl (put d) table) := by
  have hone {a} {others : List TypeExpr} (h : ∀ b ∈ others, Alike d a b) (table) :
      others.foldl (put d) (put d table a) = put d (others.foldl (put d) table) a := by
    induction others generalizing table with
    | nil => rfl
    | cons b others ih =>
      obtain ⟨hb, h⟩ := List.forall_mem_cons.1 h
      rw [List.foldl_cons, put_comm hb, ih h, List.foldl_cons]
  induction annotations generalizing table with
  | nil => rfl
  | cons a annotations ih =>
    obtain ⟨ha, h⟩ := List.forall_mem_cons.1 h
    rw [List.foldl_cons, ih h, hone ha, List.foldl_cons]

theorem eq_foldl_put {start : TypeTable} (h : annotations.foldlM (fun table a => do
      return TypeTable.insert a.anchor (← expand d [] a) table) start = .ok table) :
    table = annotations.foldl (put d) start := by
  induction annotations generalizing start with
  | nil =>
    cases h
    rfl
  | cons a annotations ih =>
    simp only [List.foldlM_cons, bind_ok] at h
    obtain ⟨_, ⟨t, ht, h₁⟩, h⟩ := h
    cases h₁
    rw [List.foldl_cons, ih h, put, ht]

/-- The order of items does not show in their table, unless two of them give different types to one
token. -/
theorem expandAll_perm {c c' : Chunk} (hp : c.Perm c')
    (halike : ∀ x ∈ c, ∀ y ∈ c, x ≠ y →
      ∀ a ∈ annotationsOfTopItem x, ∀ b ∈ annotationsOfTopItem y, Alike d a b)
    (h : expandAll d (annotationsOfChunk c) = .ok table)
    (h' : expandAll d (annotationsOfChunk c') = .ok table') : table = table' := by
  rw [eq_foldl_put h, eq_foldl_put h', annotationsOfChunk, annotationsOfChunk, List.foldl_flatMap,
    List.foldl_flatMap]
  refine hp.foldl_eq' (fun x hx y hy table => ?_) []
  by_cases hxy : x = y
  · rw [hxy]
  · exact foldl_put_comm (halike x hx y hy hxy) table

theorem exists_expandAll_iff : (∃ table, expandAll d annotations = .ok table) ↔
    ∀ a ∈ annotations, ∃ t, expand d [] a = .ok t := by
  unfold expandAll
  generalize ([] : TypeTable) = start
  induction annotations generalizing start with
  | nil => exact ⟨fun _ _ h => (List.not_mem_nil h).elim, fun _ => ⟨start, rfl⟩⟩
  | cons a annotations ih =>
    simp only [List.foldlM_cons, bind_ok, List.forall_mem_cons]
    constructor
    · rintro ⟨table, _, ⟨u, hu, h₁⟩, h⟩
      exact ⟨⟨u, hu⟩, (ih _).1 ⟨table, h⟩⟩
    · rintro ⟨⟨u, hu⟩, h⟩
      obtain ⟨table, h⟩ := (ih (insert a.anchor u start)).2 h
      exact ⟨table, _, ⟨u, hu, rfl⟩, h⟩

end TypeTable

theorem exists_mapM_iff {α β ε : Type} {g : α → Except ε β} {xs : List α} :
    (∃ ys, xs.mapM g = .ok ys) ↔ ∀ x ∈ xs, ∃ y, g x = .ok y := by
  induction xs with
  | nil => exact ⟨fun _ _ h => (List.not_mem_nil h).elim, fun _ => ⟨[], rfl⟩⟩
  | cons x xs ih =>
    simp only [List.mapM_cons, bind_ok, List.forall_mem_cons, ← ih]
    constructor
    · rintro ⟨_, y, hy, ys, hys, -⟩
      exact ⟨⟨y, hy⟩, ys, hys⟩
    · rintro ⟨⟨y, hy⟩, ys, hys⟩
      exact ⟨y :: ys, y, hy, ys, hys, rfl⟩

theorem exists_ofDeclared_iff {d : Declared} :
    (∃ a, Arena.ofDeclared d = .ok a) ↔ d.Coherent :=
  ⟨fun ⟨_, h⟩ => (ofDeclared_ok h).1, fun h => visits_total h .ofFresh idle_fresh⟩

/-- A program resolves exactly if its names are all different, its declarations are coherent and its
annotations all stand for types. -/
theorem exists_ofChunks_iff {chunks : List Chunk} : (∃ p, Program.ofChunks chunks = .ok p) ↔
    (anyName :: chunks.flatten.flatMap Item.names).Nodup ∧
      (Declared.ofItems chunks.flatten).Coherent ∧
      ∀ a ∈ annotationsOfChunk chunks.flatten,
        ∃ t, expand (Declared.ofItems chunks.flatten) [] a = .ok t := by
  have huncached : (∃ p, Program.ofChunks chunks = .ok p) ↔ ∃ r, uncached chunks = .ok r := by
    rw [← ofChunks_uncached]
    constructor
    · rintro ⟨p, hp⟩
      exact ⟨_, map_ok.2 ⟨p, hp, rfl⟩⟩
    · rintro ⟨_, hr⟩
      obtain ⟨p, hp, -⟩ := map_ok.1 hr
      exact ⟨p, hp⟩
  have hflat : ∀ a, a ∈ annotationsOfChunk chunks.flatten ↔
      ∃ c ∈ chunks, a ∈ annotationsOfChunk c := by
    intro a
    simp only [annotationsOfChunk, List.mem_flatMap, List.mem_flatten]
    constructor
    · rintro ⟨i, ⟨c, hc, hi⟩, ha⟩
      exact ⟨c, hc, i, hi, ha⟩
    · rintro ⟨c, hc, i, hi, ha⟩
      exact ⟨i, ⟨c, hc, hi⟩, ha⟩
  have htables : (∃ tables, (chunks.mapM fun c => TypeTable.expandAll
        (Declared.ofItems chunks.flatten) (annotationsOfChunk c)) = .ok tables) ↔
      ∀ a ∈ annotationsOfChunk chunks.flatten,
        ∃ t, expand (Declared.ofItems chunks.flatten) [] a = .ok t := by
    simp only [exists_mapM_iff, TypeTable.exists_expandAll_iff, hflat]
    constructor
    · rintro h a ⟨c, hc, ha⟩
      exact h c hc a ha
    · exact fun h c hc a ha => h a ⟨c, hc, ha⟩
  rw [huncached, ← htables, ← exists_ofDeclared_iff]
  simp only [uncached, bind_ok, Declared.ofChunks_ok_iff]
  constructor
  · rintro ⟨_, _, ⟨hn, rfl⟩, a, ha, tables, ht, -⟩
    exact ⟨hn, ⟨a, ha⟩, tables, ht⟩
  · rintro ⟨hn, ⟨a, ha⟩, tables, ht⟩
    exact ⟨_, _, ⟨hn, rfl⟩, a, ha, tables, ht, rfl⟩

namespace Declared
variable {d e : Declared} {i k : ObjectId}

/-- The number that an object of `d` has in `e`, where it is found by its name. -/
def renumbering (d e : Declared) (i : ObjectId) : ObjectId := (e.find? (d.nameOf i)).getD 0

theorem renumbering_eq (he : e.Distinct) (hi : i < d.objects.length) (hk : k < e.objects.length)
    (h : e.objects[k].name = d.objects[i].name) : renumbering d e i = k := by
  have hn : d.nameOf i = e.nameOf k := by rw [nameOf_eq hi, nameOf_eq hk, h]
  rw [renumbering, hn, he.find?_nameOf hk, Option.getD_some]

theorem embeds_renumbering (hd : d.Distinct) (he : e.Distinct)
    (ho : ∀ o ∈ d.objects, ∃ o' ∈ e.objects, o'.mapAnchor forget = o.mapAnchor forget)
    (ha : ∀ a ∈ d.aliases, ∃ b ∈ e.aliases, b.mapAnchor forget = a.mapAnchor forget) :
    d.Embeds (renumbering d e) e where
  source := hd
  target := he
  object {i o} h := by
    obtain ⟨hi, rfl⟩ := List.getElem?_eq_some_iff.1 h
    obtain ⟨o', ho', hsame⟩ := ho _ (List.getElem_mem hi)
    obtain ⟨k, hk, rfl⟩ := List.mem_iff_getElem.1 ho'
    rw [renumbering_eq he hi hk (name_eq_of_mapAnchor hsame)]
    exact ⟨_, List.getElem?_eq_getElem hk, hsame⟩
  aliases := ha

theorem renumbering_onto (he : e.Distinct)
    (ho : ∀ o ∈ e.objects, ∃ o' ∈ d.objects, o'.mapAnchor forget = o.mapAnchor forget) :
    ∀ k < e.objects.length, ∃ i < d.objects.length, renumbering d e i = k := by
  intro k hk
  obtain ⟨o', ho', hsame⟩ := ho _ (List.getElem_mem hk)
  obtain ⟨i, hi, rfl⟩ := List.mem_iff_getElem.1 ho'
  exact ⟨i, hi, renumbering_eq he hi hk (name_eq_of_mapAnchor hsame.symm)⟩

end Declared

section Rearranged
variable {chunks chunks' : List Chunk} {p q : Program}

theorem embeds_of_rearranges {d e : Declared} (h : Rearranges chunks.flatten chunks'.flatten)
    (hd : Declared.ofChunks chunks = .ok d) (he : Declared.ofChunks chunks' = .ok e) :
    d.Embeds (d.renumbering e) e ∧
      ∀ k < e.objects.length, ∃ i < d.objects.length, d.renumbering e i = k := by
  have hdd := Declared.distinct_ofChunks hd
  have hed := Declared.distinct_ofChunks he
  obtain ⟨-, rfl⟩ := Declared.ofChunks_ok_iff.1 hd
  obtain ⟨-, rfl⟩ := Declared.ofChunks_ok_iff.1 he
  exact ⟨Declared.embeds_renumbering hdd hed h.exists_object h.exists_alias,
    Declared.renumbering_onto hed h.symm.exists_object⟩

theorem exists_ofChunks_of_rearranges (h : Rearranges chunks.flatten chunks'.flatten)
    (hp : ∃ p, Program.ofChunks chunks = .ok p) : ∃ q, Program.ofChunks chunks' = .ok q := by
  obtain ⟨hn, hc, ht⟩ := exists_ofChunks_iff.1 hp
  have hn' : (anyName :: chunks'.flatten.flatMap Item.names).Nodup :=
    (h.names_perm.cons _).nodup_iff.1 hn
  obtain ⟨hembeds, honto⟩ := embeds_of_rearranges h (Declared.ofChunks_ok_iff.2 ⟨hn, rfl⟩)
    (Declared.ofChunks_ok_iff.2 ⟨hn', rfl⟩)
  refine exists_ofChunks_iff.2 ⟨hn', hembeds.coherent hc honto, fun b hb => ?_⟩
  obtain ⟨a, ha, hsame⟩ := h.symm.exists_annotation hb
  obtain ⟨t, ht⟩ := ht a ha
  exact ⟨_, expand_of_mapAnchor hsame.symm (hembeds.expand ht)⟩

/-- The same program, but that the object `i` of `p` is the object `f i` of `q` and may be declared
at other tokens. -/
structure Renumbered (f : ObjectId → ObjectId) (p q : Program) : Prop where
  find? : ∀ n, q.declared.find? n = (p.declared.find? n).map f
  object : ∀ i < p.objectCount, ∃ o o', p.declared.objects[i]? = some o ∧
    q.declared.objects[f i]? = some o' ∧ o'.mapAnchor forget = o.mapAnchor forget
  superclassName? : ∀ i < p.objectCount, q.superclassName? (f i) = p.superclassName? i
  protocolNames : ∀ i < p.objectCount, q.protocolNames (f i) = p.protocolNames i
  finds : ∀ a b u, b.mapAnchor forget = a.mapAnchor forget →
    (q.Finds b u ↔ ∃ t, p.Finds a t ∧ u = t.renumber f)
  conforms : ∀ s t, p.Gives s → p.Gives t →
    (s.renumber f).conforms q.arena (t.renumber f) = s.conforms p.arena t
  identicalTo : ∀ s t, p.Gives s → p.Gives t →
    (s.renumber f).identicalTo (t.renumber f) = s.identicalTo t

theorem renumbered_of_rearranges (hre : Rearranges chunks.flatten chunks'.flatten)
    (hp : Program.ofChunks chunks = .ok p) (hq : Program.ofChunks chunks' = .ok q) :
    Renumbered (p.declared.renumbering q.declared) p q := by
  obtain ⟨hd, -, -, hs⟩ := ofChunks_ok hp
  obtain ⟨hd', -, -, hs'⟩ := ofChunks_ok hq
  obtain ⟨h, honto⟩ := embeds_of_rearranges hre hd hd'
  obtain ⟨hback, -⟩ := embeds_of_rearranges hre.symm hd' hd
  have hc := corresponds_of_embeds hp hq h
  have below {t} (ht : p.Gives t) := below_of_gives hp ht
  refine ⟨fun n => ?_, fun i => h.exists_object, fun i hi => ?_, fun i hi => ?_,
    fun a b u hsame => ?_, fun s t hs ht => hc.conforms (below hs) (below ht),
    fun s t hs ht => h.identicalTo (below hs) (below ht)⟩
  · cases hn : p.declared.find? n with
    | some i => exact h.find? hn
    | none =>
      cases hn' : q.declared.find? n with
      | none => rfl
      | some k => cases hn.symm.trans (hback.find? hn')
  · rw [superclassName?, hc.superclass? hi, superclassName?, Option.map_map]
    refine Option.map_congr fun j hj => h.nameOf ?_
    exact hc.resolves.superclass_lt i j hj
  · rw [protocolNames, hc.protocols hi, protocolNames, List.map_map]
    refine List.map_congr_left fun j hj => h.nameOf ?_
    exact hc.resolves.protocols_lt i j hj
  · simp only [finds_iff hs, finds_iff hs']
    constructor
    · intro hu
      have ht := expand_of_mapAnchor hsame.symm (hback.expand hu)
      have hu' := expand_of_mapAnchor hsame (h.expand ht)
      exact ⟨_, ht, Except.ok.inj (hu.symm.trans hu')⟩
    · rintro ⟨t, ht, rfl⟩
      exact expand_of_mapAnchor hsame (h.expand ht)

/-- The chunk `k` of the first list has become the chunk `σ k` of the second, where its items stand
in some other order, perhaps at other tokens. -/
def Reorders (σ : Fin chunks.length ≃ Fin chunks'.length) : Prop :=
  ∀ k : Fin chunks.length, Rearranges (chunks.get k) (chunks'.get (σ k))

theorem Reorders.flatten {σ : Fin chunks.length ≃ Fin chunks'.length} (h : Reorders σ) :
    Rearranges chunks.flatten chunks'.flatten := by
  have hflat (cs : List Chunk) : eraseChunk cs.flatten =
      (List.finRange cs.length).flatMap fun k => eraseChunk (cs.get k) := by
    have hcs : (List.finRange cs.length).map cs.get = cs := List.map_getElem_finRange cs
    rw [← List.flatMap_map, hcs, eraseChunk, List.map_flatten]
    rfl
  have hσ : ((List.finRange chunks.length).map σ).Perm (List.finRange chunks'.length) := by
    have hn := (List.nodup_finRange chunks.length).map σ.injective
    rw [List.perm_ext_iff_of_nodup hn (List.nodup_finRange _)]
    intro k
    simp only [List.mem_map, List.mem_finRange, true_and, iff_true]
    exact σ.surjective k
  let erased' (k : Fin chunks'.length) := eraseChunk (chunks'.get k)
  calc eraseChunk chunks.flatten
      = (List.finRange chunks.length).flatMap fun k => eraseChunk (chunks.get k) := hflat chunks
    _ |>.Perm ((List.finRange chunks.length).flatMap fun k => erased' (σ k)) :=
        List.Perm.flatMap_left _ fun k _ => h k
    _ = ((List.finRange chunks.length).map σ).flatMap erased' := (List.flatMap_map ..).symm
    _ |>.Perm ((List.finRange chunks'.length).flatMap erased') := hσ.flatMap_right _
    _ = eraseChunk chunks'.flatten := (hflat chunks').symm

/-- Where annotations of two items of a chunk begin at one token, they stand for the same type. -/
def Agrees (p : Program) (c : Chunk) : Prop :=
  ∀ x ∈ c, ∀ y ∈ c, x ≠ y → ∀ a ∈ annotationsOfTopItem x, ∀ b ∈ annotationsOfTopItem y,
    a.anchor = b.anchor → ∀ t, p.Finds a t ↔ p.Finds b t

/-- No two annotations of a chunk that is read begin at one token. -/
theorem agrees_of_read {ts : List Token} {c : Chunk} (hc : Phrase.chunk ts = .ok c) (p : Program) :
    p.Agrees c := by
  intro x hx y hy hxy a ha b hb hab
  have ho := (List.pairwise_flatMap.1 (chunk_annotations_ordered hc)).2
  have hne : c.Pairwise fun x y => ∀ a ∈ annotationsOfTopItem x, ∀ b ∈ annotationsOfTopItem y,
      a.anchor ≠ b.anchor := ho.imp fun h a ha b hb => Nat.ne_of_lt (h a ha b hb)
  have : Std.Symm fun x y => ∀ a ∈ annotationsOfTopItem x, ∀ b ∈ annotationsOfTopItem y,
      a.anchor ≠ b.anchor := ⟨fun x y h a ha b hb => (h b hb a ha).symm⟩
  exact absurd hab (hne.forall hx hy hxy a ha b hb)

/-- Items that change places but not their tokens keep their table. -/
theorem table_of_perm {p q : Program} {k : Fin chunks.length} {k' : Fin chunks'.length}
    (hp : Program.ofChunks chunks = .ok p) (hq : Program.ofChunks chunks' = .ok q)
    (h : p.declared.Embeds f q.declared) (hperm : (chunks.get k).Perm (chunks'.get k'))
    (hagrees : p.Agrees (chunks.get k)) : q.table k' = (p.table k).renumber f := by
  obtain ⟨-, -, -, hs⟩ := ofChunks_ok hp
  have halike : ∀ x ∈ chunks.get k, ∀ y ∈ chunks.get k, x ≠ y →
      ∀ a ∈ annotationsOfTopItem x, ∀ b ∈ annotationsOfTopItem y,
        TypeTable.Alike p.declared a b := by
    simpa only [Agrees, TypeTable.Alike, finds_iff hs] using hagrees
  -- The items in their new order have a table under the old numbers, too.
  have htable := expandAll_table hp k
  obtain ⟨table, ht⟩ : ∃ table, TypeTable.expandAll p.declared
      (annotationsOfChunk (chunks'.get k')) = .ok table :=
    TypeTable.exists_expandAll_iff.2 fun a ha =>
      TypeTable.exists_expandAll_iff.1 ⟨_, htable⟩ a ((hperm.flatMap_right _).mem_iff.2 ha)
  rw [TypeTable.expandAll_perm hperm halike htable ht]
  exact Except.ok.inj ((expandAll_table hq k').symm.trans (TypeTable.expandAll_renumber h ht))

/-- The table `table` of `c` has become the table `table'` of `c'`: where an annotation of `c'` begins
stands what stands in `table` where that annotation begins in `c`, and nothing stands elsewhere. -/
def TableMoves (f : ObjectId → ObjectId) (c c' : Chunk) (table table' : TypeTable) : Prop :=
  ∀ i u, table'.find? i = some u ↔ ∃ a ∈ annotationsOfChunk c, ∃ b ∈ annotationsOfChunk c',
    b.mapAnchor forget = a.mapAnchor forget ∧ b.anchor = i ∧
      ∃ t, table.find? a.anchor = some t ∧ u = t.renumber f

theorem tableMoves_of_read {p q : Program} {k : Fin chunks.length} {k' : Fin chunks'.length}
    {ts ts' : List Token} (hp : Program.ofChunks chunks = .ok p)
    (hq : Program.ofChunks chunks' = .ok q) (h : Renumbered f p q)
    (hre : Rearranges (chunks.get k) (chunks'.get k')) (hts : Phrase.chunk ts = .ok (chunks.get k))
    (hts' : Phrase.chunk ts' = .ok (chunks'.get k')) :
    TableMoves f (chunks.get k) (chunks'.get k') (p.table k) (q.table k') := by
  obtain ⟨-, -, -, hs⟩ := ofChunks_ok hp
  obtain ⟨-, -, -, hs'⟩ := ofChunks_ok hq
  have hfind {i t} := TypeTable.find?_iff (i := i) (t := t) (chunk_annotations_ordered hts)
    (expandAll_table hp k)
  have hfind' {i t} := TypeTable.find?_iff (i := i) (t := t) (chunk_annotations_ordered hts')
    (expandAll_table hq k')
  simp only [← finds_iff hs] at hfind
  simp only [← finds_iff hs'] at hfind'
  intro i u
  rw [hfind']
  constructor
  · rintro ⟨b, hb, hi, hu⟩
    obtain ⟨a, ha, hsame⟩ := hre.symm.exists_annotation hb
    obtain ⟨t, ht, htu⟩ := (h.finds a b u hsame.symm).1 hu
    exact ⟨a, ha, b, hb, hsame.symm, hi, t, hfind.2 ⟨a, ha, rfl, ht⟩, htu⟩
  · rintro ⟨a, ha, b, hb, hsame, hi, t, ht, htu⟩
    obtain ⟨t', ht'⟩ := TypeTable.exists_expandAll_iff.1 ⟨_, expandAll_table hp k⟩ a ha
    rw [← finds_iff hs] at ht'
    obtain rfl : t = t' := Option.some.inj (ht.symm.trans (hfind.2 ⟨a, ha, rfl, ht'⟩))
    exact ⟨b, hb, hi, (h.finds a b u hsame).2 ⟨t, ht', htu⟩⟩

/-- The order of declarations does not matter, neither that of chunks nor that of items inside a
chunk: a program resolves in both or in none, to the same objects and types but for the numbers of
its objects. Where the items of a chunk keep their tokens, its table is the same unless two of them
give different types to one token, which those of a chunk that is read never do. Where they are read
at other tokens, the entries of the table move with them. -/
theorem reordered_same (σ : Fin chunks.length ≃ Fin chunks'.length) (h : Reorders σ) :
    ((∃ p, Program.ofChunks chunks = .ok p) ↔ ∃ q, Program.ofChunks chunks' = .ok q) ∧
    (∀ p q, Program.ofChunks chunks = .ok p → Program.ofChunks chunks' = .ok q →
      ∃ f, Renumbered f p q ∧ ∀ k : Fin chunks.length,
        ((chunks.get k).Perm (chunks'.get (σ k)) → p.Agrees (chunks.get k) →
          q.table (σ k) = (p.table k).renumber f) ∧
        ∀ ts ts', Phrase.chunk ts = .ok (chunks.get k) →
          Phrase.chunk ts' = .ok (chunks'.get (σ k)) →
            TableMoves f (chunks.get k) (chunks'.get (σ k)) (p.table k) (q.table (σ k))) ∧
    ∀ ts c, Phrase.chunk ts = .ok c → ∀ p : Program, p.Agrees c := by
  refine ⟨⟨exists_ofChunks_of_rearranges h.flatten, exists_ofChunks_of_rearranges h.flatten.symm⟩,
    fun p q hp hq => ?_, fun ts c => agrees_of_read⟩
  have hsame := renumbered_of_rearranges h.flatten hp hq
  obtain ⟨hembeds, -⟩ := embeds_of_rearranges h.flatten (ofChunks_ok hp).1 (ofChunks_ok hq).1
  exact ⟨_, hsame, fun k => ⟨table_of_perm hp hq hembeds,
    fun ts ts' => tableMoves_of_read hp hq hsame (h k)⟩⟩

/-- `class B: A, Q end class A: P end protocol P end protocol Q: P end` and `local x: A` -/
def forwardChunks : List Chunk :=
  [forwardClasses.objects.map .object,
    [.statement (.localNames 0 [⟨1, "x", some (.name 3 "A")⟩] [])]]

def forwardChunksProgram : Program :=
  ⟨forwardClasses, forwardArena, [], [[], [(3, .ofClass 1)]]⟩

/-- The same from the last to the first. -/
def backwardChunks : List Chunk := (forwardChunks.map List.reverse).reverse

theorem annotations_forwardChunks : annotationsOfChunk forwardChunks[1] = [.name 3 "A"] := by
  simp [annotationsOfChunk, forwardChunks, annotationsOfTopItem, annotationsOfStmt,
    annotationsOfNames, annotationsOfExprs]

theorem ofChunks_forwardChunks : Program.ofChunks forwardChunks = .ok forwardChunksProgram := by
  have ht : typeOf forwardClasses [] (.name 3 "A") = liftM (forwardClasses.plainType 3 "A") := by
    rw [typeOf, typeOfName_plain (by rfl)]
  have hd : Declared.ofChunks forwardChunks = .ok forwardClasses := by rfl
  rw [Program.ofChunks, hd, ok_bind, ofDeclared_forwardClasses, ok_bind]
  rw [show forwardChunks = [forwardChunks[0], forwardChunks[1]] from rfl]
  simp only [List.mapM_cons, List.mapM_nil, annotations_forwardChunks, TypeTable.ofAnnotations,
    List.foldlM_cons, List.foldlM_nil, ht]
  rfl

def backwards : Fin forwardChunks.length ≃ Fin backwardChunks.length := Fin.revPerm (n := 2)

theorem perm_backwards : ∀ k, (forwardChunks.get k).Perm (backwardChunks.get (backwards k)) := by
  rintro ⟨k, hk⟩
  match k, hk with
  | 0, _ => exact (List.reverse_perm (forwardClasses.objects.map Item.object)).symm
  | 1, _ => exact .refl _

/-- The statement keeps its tokens, so both parts of the theorem tell of its table. -/
theorem reordered_same_backwards :
    Reorders backwards ∧ Program.ofChunks forwardChunks = .ok forwardChunksProgram ∧
      ∃ q f, Program.ofChunks backwardChunks = .ok q ∧ Renumbered f forwardChunksProgram q ∧
        q.table 0 = [(3, .ofClass (f 1))] ∧
        TableMoves f forwardChunks[1] backwardChunks[0] [(3, .ofClass 1)] (q.table 0) := by
  have hreorders : Reorders backwards := fun k => .of_perm (perm_backwards k)
  obtain ⟨hsame, hprograms, hagrees⟩ := reordered_same backwards hreorders
  obtain ⟨q, hq⟩ := hsame.1 ⟨_, ofChunks_forwardChunks⟩
  obtain ⟨f, hf, htables⟩ := hprograms _ q ofChunks_forwardChunks hq
  obtain ⟨hkept, hmoved⟩ := htables ⟨1, by decide⟩
  have hread := chunk_local "x" "A"
  exact ⟨hreorders, ofChunks_forwardChunks, q, f, hq, hf,
    hkept (perm_backwards _) (hagrees _ _ hread _), hmoved _ _ hread hread⟩

/-- `class A end class B end` -/
def twoClasses : Declared := ⟨[.ofClass ⟨1, "A", [], []⟩, .ofClass ⟨4, "B", [], []⟩], []⟩

/-- The statement `local n: t` at the token `k`. -/
def localAt (k : TokenIndex) (n t : String) : Item :=
  .statement (.localNames k [⟨k + 1, n, some (.name (k + 3) t)⟩] [])

/-- The classes and `local m: s local n: t`, each at its token. -/
def twoLocals (k l : TokenIndex) (m s n t : String) : Chunk :=
  twoClasses.objects.map .object ++ [localAt k m s, localAt l n t]

def twoLocalsTokens (m s n t : String) : List Token :=
  [.keyword .class_, .name "A", .keyword .end_, .keyword .class_, .name "B", .keyword .end_,
    .keyword .local_, .name m, .operator .colon, .name s,
    .keyword .local_, .name n, .operator .colon, .name t]

theorem chunk_twoLocals (m s n t : String) :
    Phrase.chunk (twoLocalsTokens m s n t) = .ok (twoLocals 6 10 m s n t) := by
  have hlocal : Stream.Stops (fun u => ∃ o, u = .operator o)
      ⟨10, [.keyword .local_, .name n, .operator .colon, .name t]⟩ := Stream.stops_cons.2 nofun
  have hfirst := reads_local 6 m s hlocal
  have hsecond := reads_local 10 n t Stream.stops_nil
  rw [← semicolons_of_stops (Stream.stops_cons.2 (by simp))] at hfirst hsecond
  refine accepts_items (.declaration (.ofClass (.none ?_) .none) ?_)
  · exact Stream.stops_cons.2 nofun
  refine .declaration (.ofClass (.none ?_) .none) (.statement hfirst (.statement hsecond (.done ?_)))
  · exact Stream.stops_cons.2 nofun
  · rw [semicolons_of_stops Stream.stops_nil]

def twoLocalsProgram (k l : TokenIndex) (i j : ObjectId) : Program :=
  ⟨twoClasses, [⟨.resolved, none, []⟩, ⟨.resolved, none, []⟩], [],
    [TypeTable.insert (l + 3) (.ofClass j) [(k + 3, .ofClass i)]]⟩

theorem ofChunks_twoLocals {k l : TokenIndex} {m n s t : String} {i j : ObjectId}
    (hs : twoClasses.plainType (k + 3) s = .ok (.ofClass i))
    (ht : twoClasses.plainType (l + 3) t = .ok (.ofClass j)) :
    Program.ofChunks [twoLocals k l m s n t] = .ok (twoLocalsProgram k l i j) := by
  have hd : Declared.ofChunks [twoLocals k l m s n t] = .ok twoClasses := by
    rfl
  have ha : Arena.ofDeclared twoClasses = .ok (twoLocalsProgram k l i j).arena := by
    rw [ofDeclared_eq_within]
    rfl
  have hx : annotationsOfChunk (twoLocals k l m s n t) = [.name (k + 3) s, .name (l + 3) t] := by
    simp [annotationsOfChunk, twoLocals, twoClasses, localAt, annotationsOfTopItem,
      annotationsOfDeclaration, annotationsOfStmt, annotationsOfNames, annotationsOfExprs]
  have hplain (k w) : typeOf twoClasses [] (.name k w) = liftM (twoClasses.plainType k w) := by
    rw [typeOf, typeOfName_plain (by rfl)]
  rw [Program.ofChunks, hd, ok_bind, ha, ok_bind]
  simp only [List.mapM_cons, List.mapM_nil, hx, TypeTable.ofAnnotations, List.foldlM_cons,
    List.foldlM_nil, hplain, hs, ht]
  rfl

/-- The statements of `twoLocals` change places. -/
theorem twoLocals_perm (k : TokenIndex) (m s n t : String) :
    (twoLocals k k m s n t).Perm (twoLocals k k n t m s) :=
  .append_left _ (.swap ..)

theorem rearranges_twoLocals (k l : TokenIndex) (m s n t : String) :
    Rearranges (twoLocals k l m s n t) (twoLocals k l n t m s) := by
  have herase (k n t) : (localAt k n t).mapAnchor forget = (localAt 0 n t).mapAnchor forget := by
    simp [localAt, Item.mapAnchor, Stmt.mapAnchor, TypedName.mapAnchor, TypeExpr.mapAnchor,
      mapAnchorExprs, forget]
  have herased (k l m s n t) : eraseChunk (twoLocals k l m s n t) =
      eraseChunk (twoClasses.objects.map .object) ++
        [(localAt 0 m s).mapAnchor forget, (localAt 0 n t).mapAnchor forget] := by
    rw [← herase k m, ← herase l n, twoLocals, eraseChunk, List.map_append]
    rfl
  rw [Rearranges, herased, herased]
  exact .append_left _ (.swap ..)

/-- Where two statements give different types to one token, their order shows in the table. In a
text it does as well, since they move to other tokens. -/
theorem reordered_clashing :
    ((twoLocals 6 6 "x" "A" "y" "B").Perm (twoLocals 6 6 "y" "B" "x" "A") ∧
      Program.ofChunks [twoLocals 6 6 "x" "A" "y" "B"] = .ok (twoLocalsProgram 6 6 0 1) ∧
      Program.ofChunks [twoLocals 6 6 "y" "B" "x" "A"] = .ok (twoLocalsProgram 6 6 1 0) ∧
      ∀ f, Renumbered f (twoLocalsProgram 6 6 0 1) (twoLocalsProgram 6 6 1 0) →
        (twoLocalsProgram 6 6 1 0).table 0 ≠ ((twoLocalsProgram 6 6 0 1).table 0).renumber f) ∧
    Phrase.chunk (twoLocalsTokens "x" "A" "y" "B") = .ok (twoLocals 6 10 "x" "A" "y" "B") ∧
    Phrase.chunk (twoLocalsTokens "y" "B" "x" "A") = .ok (twoLocals 6 10 "y" "B" "x" "A") ∧
    Rearranges (twoLocals 6 10 "x" "A" "y" "B") (twoLocals 6 10 "y" "B" "x" "A") ∧
    Program.ofChunks [twoLocals 6 10 "x" "A" "y" "B"] = .ok (twoLocalsProgram 6 10 0 1) ∧
    Program.ofChunks [twoLocals 6 10 "y" "B" "x" "A"] = .ok (twoLocalsProgram 6 10 1 0) ∧
    ∀ f, Renumbered f (twoLocalsProgram 6 10 0 1) (twoLocalsProgram 6 10 1 0) →
      (twoLocalsProgram 6 10 1 0).table 0 ≠ ((twoLocalsProgram 6 10 0 1).table 0).renumber f := by
  have ha (k) : twoClasses.plainType k "A" = .ok (.ofClass 0) := by rfl
  have hb (k) : twoClasses.plainType k "B" = .ok (.ofClass 1) := by rfl
  refine ⟨⟨twoLocals_perm .., ofChunks_twoLocals (ha _) (hb _),
      ofChunks_twoLocals (hb _) (ha _), fun f hf htable => ?_⟩,
    chunk_twoLocals .., chunk_twoLocals .., rearranges_twoLocals ..,
    ofChunks_twoLocals (ha _) (hb _), ofChunks_twoLocals (hb _) (ha _), fun f hf htable => ?_⟩
  · have hone : some 1 = some (f 1) := hf.find? "B"
    have htable : [(9, Ty.ofClass 0)] = [(9, Ty.ofClass (f 1))] := htable
    rw [← Option.some.inj hone] at htable
    exact absurd htable (by decide)
  · have hzero : some 0 = some (f 0) := hf.find? "A"
    have htable : [(9, Ty.ofClass 1), (13, Ty.ofClass 0)] =
      [(9, Ty.ofClass (f 0)), (13, Ty.ofClass (f 1))] := htable
    rw [← Option.some.inj hzero] at htable
    simp at htable

end Rearranged

end ScriptFront.Program
