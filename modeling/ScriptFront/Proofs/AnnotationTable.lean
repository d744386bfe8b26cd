import Mathlib.Data.List.Forall2
import ScriptFront.Proofs.Placement
import ScriptFront.Proofs.ResolvedTypes
/-! The table of a chunk holds the type of every annotation in the chunk, and nothing else. -/
namespace ScriptFront.Program
open Syntax Phrase

namespace TypeTable
variable {d : Declared} {table table' : TypeTable} {annotations : List TypeExpr} {i : TokenIndex}
  {t : Ty}

/-- The tokens of a table in its own order. -/
def anchors (table : TypeTable) : List TokenIndex := table.map Prod.fst

theorem insert_last (h : ∀ e ∈ table, e.1 < i) : insert i t table = table ++ [(i, t)] := by
  induction table with
  | nil => rfl
  | cons e table ih =>
    obtain ⟨he, h'⟩ := List.forall_mem_cons.1 h
    rw [insert, if_neg (Nat.lt_asymm he), if_neg (Nat.ne_of_gt he), ih h', List.cons_append]

theorem find?_iff_mem (h : table.anchors.Pairwise (· < ·)) :
    table.find? i = some t ↔ (i, t) ∈ table := by
  induction table with
  | nil => simp [find?]
  | cons e table ih =>
    obtain ⟨j, u⟩ := e
    obtain ⟨hj, h'⟩ := List.pairwise_cons.1 h
    rw [find?, List.lookup_cons, List.mem_cons]
    by_cases hij : i = j
    · subst hij
      have hni : (i, t) ∉ table := fun hm =>
        Nat.lt_irrefl i (hj i (List.mem_map.2 ⟨(i, t), hm, rfl⟩))
      simp [hni, eq_comm]
    · rw [beq_eq_false_iff_ne.2 hij]
      simp only [Prod.mk.injEq, hij, false_and, false_or]
      exact ih h'

/-- An entry holds the type of an annotation at its anchor. -/
def Types (d : Declared) (a : TypeExpr) (e : TokenIndex × Ty) : Prop :=
  e.1 = a.anchor ∧ expand d [] a = .ok e.2

/-- Where each annotation begins behind all before it, no entry takes the place of another. -/
theorem forall₂_of_foldlM (ho : annotations.Pairwise fun t u => t.anchor < u.anchor)
    (hb : ∀ e ∈ table, ∀ a ∈ annotations, e.1 < a.anchor)
    (h : annotations.foldlM (fun table a => do
      return TypeTable.insert a.anchor (← expand d [] a) table) table = .ok table') :
    ∃ added, table' = table ++ added ∧ List.Forall₂ (Types d) annotations added := by
  induction annotations generalizing table with
  | nil =>
    cases h
    exact ⟨[], (List.append_nil _).symm, .nil⟩
  | cons a annotations ih =>
    rw [List.foldlM_cons] at h
    simp only [bind_ok] at h
    obtain ⟨_, ⟨u, hu, h₁⟩, h₂⟩ := h
    cases h₁
    obtain ⟨ha, ho'⟩ := List.pairwise_cons.1 ho
    rw [insert_last fun e he => hb e he a List.mem_cons_self] at h₂
    obtain ⟨added, rfl, hadded⟩ := ih ho' (by
      intro e he b hbm
      rcases List.mem_append.1 he with he | he
      · exact hb e he b (List.mem_cons_of_mem _ hbm)
      · rw [List.mem_singleton.1 he]
        exact ha b hbm) h₂
    exact ⟨(a.anchor, u) :: added, List.append_assoc .., .cons ⟨rfl, hu⟩ hadded⟩

theorem forall₂_expandAll (ho : annotations.Pairwise fun t u => t.anchor < u.anchor)
    (h : expandAll d annotations = .ok table) : List.Forall₂ (Types d) annotations table := by
  obtain ⟨added, rfl, hadded⟩ := forall₂_of_foldlM ho (by simp) h
  exact hadded

theorem anchors_eq (h : List.Forall₂ (Types d) annotations table) :
    table.anchors = annotations.map (·.anchor) := by
  induction h with
  | nil => rfl
  | cons h _ ih =>
    rw [anchors, List.map_cons, List.map_cons, ← ih, h.1]
    rfl

theorem mem_iff (h : List.Forall₂ (Types d) annotations table) :
    (i, t) ∈ table ↔ ∃ a ∈ annotations, a.anchor = i ∧ expand d [] a = .ok t := by
  induction h with
  | nil => simp
  | @cons a e annotations table h _ ih =>
    obtain ⟨hanchor, hexpand⟩ := h
    obtain ⟨j, u⟩ := e
    simp only [List.mem_cons, exists_eq_or_imp, ih, Prod.mk.injEq]
    refine or_congr_left ?_
    constructor
    · rintro ⟨rfl, rfl⟩
      exact ⟨hanchor.symm, hexpand⟩
    · rintro ⟨hi, ht⟩
      exact ⟨hi ▸ hanchor.symm, by simpa [hexpand] using ht.symm⟩

theorem typed (h : List.Forall₂ (Types d) annotations table) {a : TypeExpr} (ha : a ∈ annotations) :
    ∃ t, expand d [] a = .ok t := by
  induction h with
  | nil => cases ha
  | @cons _ e _ _ h _ ih =>
    rcases List.mem_cons.1 ha with rfl | ha
    · exact ⟨e.2, h.2⟩
    · exact ih ha

/-- Where each annotation begins behind all before it, the type at a token is that of the annotation
that begins there. -/
theorem find?_iff (ho : annotations.Pairwise fun t u => t.anchor < u.anchor)
    (h : expandAll d annotations = .ok table) :
    table.find? i = some t ↔ ∃ a ∈ annotations, a.anchor = i ∧ expand d [] a = .ok t := by
  have hall := forall₂_expandAll ho h
  have hinc : table.anchors.Pairwise (· < ·) := by
    rw [anchors_eq hall, List.pairwise_map]
    exact ho
  rw [find?_iff_mem hinc, mem_iff hall]

end TypeTable

theorem getElem?_of_mapM {α β ε : Type} {f : α → Except ε β} {xs : List α} {ys : List β}
    (h : xs.mapM f = .ok ys) {k : Nat} {x : α} (hx : xs[k]? = some x) :
    ∃ y, ys[k]? = some y ∧ f x = .ok y := by
  induction xs generalizing ys k with
  | nil => cases hx
  | cons x' xs ih =>
    simp only [List.mapM_cons, bind_ok] at h
    obtain ⟨y, hy, ys', hys, h⟩ := h
    cases h
    cases k with
    | zero =>
      cases hx
      exact ⟨y, rfl, hy⟩
    | succ k => exact ih hys hx

/-- Whatever the program has been asked for before, it gives a type for an annotation. -/
def Finds (p : Program) (a : TypeExpr) (t : Ty) : Prop :=
  ∀ q, p.Reaches q → (q.resolveType a).1 = .ok t

/-- The table of a chunk is complete and loses nothing: it holds a type at a token exactly if an
annotation of the chunk begins there, which is the only one to do so. -/
structure Tabulates (p : Program) (k : Nat) (c : Chunk) : Prop where
  found : ∀ i t, (p.table k).find? i = some t ↔
    ∃ path a, Part.Annotates (.chunk c) path a ∧ a.anchor = i ∧ p.Finds a t
  typed : ∀ path a, Part.Annotates (.chunk c) path a → ∃ t, p.Finds a t
  unique : ∀ path path' a a', Part.Annotates (.chunk c) path a →
    Part.Annotates (.chunk c) path' a' → a.anchor = a'.anchor → path = path' ∧ a = a'
  increasing : (p.table k).anchors.Pairwise (· < ·)
  listed : ∀ i t, (i, t) ∈ p.table k ↔ (p.table k).find? i = some t

section Tables
variable {p : Program} {chunks : List Chunk}

theorem finds_iff (hp : p.expanded.Sound p.declared) {a : TypeExpr} {t : Ty} :
    p.Finds a t ↔ expand p.declared [] a = .ok t := by
  constructor
  · intro h
    rw [← (resolveType_eq hp a).1, h p .refl]
  · intro h q hq
    obtain ⟨hs, hd, -⟩ := hq.same hp
    rw [(resolveType_eq hs a).1, hd, h]

/-- The annotation tables of a program whose chunks have been read are complete and lossless. -/
theorem ofChunks_tabulates (hread : ∀ c ∈ chunks, ∃ ts, Phrase.chunk ts = .ok c)
    (h : Program.ofChunks chunks = .ok p) {k : Nat} {c : Chunk} (hc : chunks[k]? = some c) :
    p.Tabulates k c := by
  obtain ⟨-, -, htables, hs⟩ := ofChunks_ok h
  obtain ⟨ts, hts⟩ := hread c (List.mem_of_getElem? hc)
  have ho := chunk_annotations_ordered hts
  obtain ⟨table, htable, hexpand⟩ := getElem?_of_mapM htables hc
  have hk : p.table k = table := by rw [Program.table, htable]; rfl
  rw [← hk] at hexpand
  have hall := TypeTable.forall₂_expandAll ho hexpand
  have hinc : (p.table k).anchors.Pairwise (· < ·) := by
    rw [TypeTable.anchors_eq hall, List.pairwise_map]
    exact ho
  have hmem (a) : a ∈ annotationsOfChunk c ↔ ∃ path, Part.Annotates (.chunk c) path a :=
    Part.mem_annotations_iff (n := .chunk c)
  refine ⟨fun i t => ?_, fun path a ha => ?_, fun path path' a a' => ?_, hinc, fun i t => ?_⟩
  · rw [TypeTable.find?_iff_mem hinc, TypeTable.mem_iff hall]
    simp only [hmem, finds_iff hs]
    exact ⟨fun ⟨a, ⟨path, hp⟩, h⟩ => ⟨path, a, hp, h⟩, fun ⟨path, a, hp, h⟩ => ⟨a, ⟨path, hp⟩, h⟩⟩
  · obtain ⟨t, ht⟩ := TypeTable.typed hall ((hmem a).2 ⟨path, ha⟩)
    exact ⟨t, (finds_iff hs).2 ht⟩
  · exact Part.Annotates.unique (n := .chunk c) ho
  · exact (TypeTable.find?_iff_mem hinc).symm

/-- The statement `local n: t` ends where no operator follows. -/
theorem reads_local (k : TokenIndex) (n t : String) {rest : List Token}
    (h : Stream.Stops (fun u => ∃ o, u = .operator o) ⟨k + 4, rest⟩) :
    Reading.Statement ⟨k, .keyword .local_ :: .name n :: .operator .colon :: .name t :: rest⟩
      (.localNames k [⟨k + 1, n, some (.name (k + 3) t)⟩] []) ⟨k + 4, rest⟩ := by
  have hstops (o) : Stream.Stops (· = .operator o) ⟨k + 4, rest⟩ := fun u hu hp => h u hu ⟨o, hp⟩
  have ht : Reading.Annotation ⟨k + 3, .name t :: rest⟩ (.name (k + 3) t) ⟨k + 4, rest⟩ := by
    refine typeExpr_yields_iff.2 ⟨⟨rfl, rfl⟩, rfl, fun u hu hp => ?_⟩
    rcases hp with rfl | rfl
    · exact hstops .dot _ hu rfl
    · exact hstops .question _ hu rfl
  exact .localNames (.last (.typed ht) (hstops .comma)) (hstops .equal)

theorem chunk_local (n t : String) :
    chunk [.keyword .local_, .name n, .operator .colon, .name t] =
      .ok [.statement (.localNames 0 [⟨1, n, some (.name 3 t)⟩] [])] := by
  have h := reads_local 0 n t Stream.stops_nil
  rw [← semicolons_of_stops (Stream.stops_cons.2 (by simp))] at h
  refine accepts_items (.statement h (.done ?_))
  rw [semicolons_of_stops Stream.stops_nil]

/-- `local x: Any` -/
def localChunk : Chunk := [.statement (.localNames 0 [⟨1, "x", some (.name 3 "Any")⟩] [])]

def localProgram : Program := ⟨.empty, [], [], [[(3, .any)]]⟩

theorem ofChunks_local : Program.ofChunks [localChunk] = .ok localProgram := by
  have ht : typeOf .empty [] (.name 3 "Any") = liftM (Declared.empty.plainType 3 "Any") := by
    rw [typeOf, typeOfName_plain (by rfl)]
  have ha : Arena.ofDeclared .empty = .ok [] := by rfl
  have hx : annotationsOfChunk localChunk = [.name 3 "Any"] := by
    simp [annotationsOfChunk, localChunk, annotationsOfTopItem, annotationsOfStmt,
      annotationsOfNames, annotationsOfExprs]
  have hd : Declared.ofChunks [localChunk] = .ok .empty := by rfl
  rw [Program.ofChunks, hd, ok_bind, ha, ok_bind]
  simp only [List.mapM_cons, List.mapM_nil, hx, TypeTable.ofAnnotations, List.foldlM_cons,
    List.foldlM_nil, ht]
  rfl

theorem ofChunks_tabulates_local :
    (∀ c ∈ [localChunk], ∃ ts, Phrase.chunk ts = .ok c) ∧
      Program.ofChunks [localChunk] = .ok localProgram ∧ localProgram.Tabulates 0 localChunk := by
  have hread : ∀ c ∈ [localChunk], ∃ ts, Phrase.chunk ts = .ok c :=
    List.forall_mem_singleton.2 ⟨_, chunk_local "x" "Any"⟩
  exact ⟨hread, ofChunks_local, ofChunks_tabulates hread ofChunks_local rfl⟩

end Tables
end ScriptFront.Program
