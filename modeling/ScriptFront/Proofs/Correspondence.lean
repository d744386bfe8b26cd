import Mathlib.Data.List.Find
import ScriptFront.Proofs.AnnotationTable
import ScriptFront.Proofs.ConformanceOrder
import ScriptFront.Proofs.Renumbering
/-! Conformance where objects have other numbers. What an object conforms to depends on its own
declaration and on those that it reaches, and on no number. -/
namespace ScriptFront.Program
open Syntax Relation Phrase

variable {f : ObjectId → ObjectId} {d e : Declared} {a b : Arena} {i j k : ObjectId}

namespace Declared.Embeds

/-- Where all conformances name an object, the targets in `e` are those in `d`. -/
theorem targets (h : Embeds f d e) (hd : d.Coherent) (hi : i < d.objects.length) :
    e.targets (f i) = (d.targets i).map f := by
  have hnamed : ∀ n ∈ (d.conforms i).map (·.name), ∃ j, d.find? n = some j :=
    List.forall_mem_map.2 (hd.named i)
  have hmap (d : Declared) (i : ObjectId) :
      d.targets i = ((d.conforms i).map (·.name)).filterMap d.find? := by
    rw [Declared.targets, List.filterMap_map]
    rfl
  rw [hmap, h.conforms hi, hmap]
  generalize (d.conforms i).map (·.name) = names at hnamed
  induction names with
  | nil => rfl
  | cons n names ih =>
    obtain ⟨⟨j, hj⟩, hnames⟩ := List.forall_mem_cons.1 hnamed
    simp only [List.filterMap_cons, hj, h.find? hj, List.map_cons, ih hnames]

theorem names_iff (h : Embeds f d e) (hd : d.Coherent) (hi : i < d.objects.length) :
    e.Names (f i) k ↔ ∃ j, d.Names i j ∧ f j = k := by
  rw [Names, h.targets hd hi, List.mem_map]
  rfl

theorem flattens (h : Embeds f d e) (hd : d.Coherent) {js ps : List ObjectId}
    (hjs : ∀ j ∈ js, j < d.objects.length) (hps : d.Flattens js ps) :
    e.Flattens (js.map f) (ps.map f) := by
  induction hps with
  | nil => exact .nil
  | protocol hc _ ih =>
    obtain ⟨hj, hjs⟩ := List.forall_mem_cons.1 hjs
    exact .protocol ((h.isClass hj).trans hc) (ih hjs)
  | superclass hc _ _ ih₁ ih₂ =>
    obtain ⟨hj, hjs⟩ := List.forall_mem_cons.1 hjs
    rw [List.map_cons, List.map_append]
    refine .superclass ((h.isClass hj).trans hc) ?_ (ih₂ hjs)
    rw [h.targets hd hj]
    exact ih₁ fun k hk => lt_of_mem_targets hk

/-- No object is reached that `d` does not declare. -/
theorem of_transGen (h : Embeds f d e) (hd : d.Coherent) (hi : i < d.objects.length)
    (hk : TransGen e.Names (f i) k) : ∃ j, TransGen d.Names i j ∧ f j = k := by
  induction hk with
  | single hk =>
    obtain ⟨j, hj, rfl⟩ := (h.names_iff hd hi).1 hk
    exact ⟨j, .single hj, rfl⟩
  | tail _ hk ih =>
    obtain ⟨j, hj, rfl⟩ := ih
    obtain ⟨l, hl, rfl⟩ := (h.names_iff hd (lt_of_transGen hj)).1 hk
    exact ⟨l, hj.tail hl, rfl⟩

/-- What holds of the objects of `d` holds of all in `e`, if there are no others. -/
theorem all_of_onto {p : ObjectId → Prop}
    (onto : ∀ k < e.objects.length, ∃ i < d.objects.length, f i = k)
    (hp : ∀ i < d.objects.length, p (f i)) (hge : ∀ k, e.objects.length ≤ k → p k)
    (k : ObjectId) : p k := by
  rcases Nat.lt_or_ge k e.objects.length with hk | hk
  · obtain ⟨i, hi, rfl⟩ := onto k hk
    exact hp i hi
  · exact hge k hk

/-- Coherence is a matter of the declared objects alone, not of their numbers. -/
theorem coherent (h : Embeds f d e) (hd : d.Coherent)
    (onto : ∀ k < e.objects.length, ∃ i < d.objects.length, f i = k) : e.Coherent where
  named := by
    refine all_of_onto onto (fun i hi c hc => ?_) fun k hk => by simp [conforms_eq_nil hk]
    have hname : c.name ∈ (e.conforms (f i)).map (·.name) := List.mem_map_of_mem hc
    rw [h.conforms hi] at hname
    obtain ⟨c', hc', hsame⟩ := List.mem_map.1 hname
    obtain ⟨j, hj⟩ := hd.named i c' hc'
    exact ⟨f j, hsame ▸ h.find? hj⟩
  noEnum := by
    refine all_of_onto onto (fun i hi => ?_) fun k hk => by simp [targets_eq_nil hk]
    rw [h.targets hd hi, List.forall_mem_map]
    intro j hj
    rw [h.isEnum (lt_of_mem_targets hj), hd.noEnum i j hj]
  classOnly := by
    refine all_of_onto onto (fun i hi => ?_) fun k hk => by simp [targets_eq_nil hk]
    rw [h.targets hd hi, List.forall_mem_map]
    intro j hj
    rw [h.isClass (lt_of_mem_targets hj), h.isClass hi]
    exact hd.classOnly i j hj
  oneSuperclass := by
    refine all_of_onto onto (fun i hi => ?_) fun k hk => by simp [targets_eq_nil hk]
    rw [h.targets hd hi, List.countP_map, List.countP_congr fun j hj => by
      rw [Function.comp_apply, h.isClass (lt_of_mem_targets hj)]]
    exact hd.oneSuperclass i
  acyclic := by
    refine all_of_onto onto (fun i hi hii => ?_) fun k hk hkk => ?_
    · obtain ⟨j, hj, hij⟩ := h.of_transGen hd hi hii
      rw [h.injective (lt_of_transGen hj) hi hij] at hj
      exact hd.acyclic i hj
    · exact absurd (lt_of_transGen hkk) (Nat.not_lt.2 hk)
  noDuplicate := by
    refine all_of_onto onto (fun i hi qs hqs => ?_) fun k hk qs hqs => ?_
    · obtain ⟨ps, hps⟩ := exists_flattens hd.acyclic i
      rw [h.targets hd hi] at hqs
      rw [hqs.unique (h.flattens hd (fun j => lt_of_mem_targets) hps)]
      have hlt : ∀ j ∈ ps, j < d.objects.length :=
        hps.all (fun i j hj _ => lt_of_mem_targets hj) (fun j hj _ => lt_of_mem_targets hj)
      exact (hd.noDuplicate i ps hps).map_on fun j hj k hk => h.injective (hlt j hj) (hlt k hk)
    · rw [targets_eq_nil hk] at hqs
      cases hqs
      exact List.nodup_nil

end Declared.Embeds

/-- The arenas of two programs, where the second declares all that the first does. -/
structure Corresponds (f : ObjectId → ObjectId) (d e : Declared) (a b : Arena) : Prop where
  embeds : d.Embeds f e
  coherent : d.Coherent
  coherent' : e.Coherent
  resolves : a.Resolves d
  resolves' : b.Resolves e

namespace Corresponds

theorem superclass? (h : Corresponds f d e a b) (hi : i < d.objects.length) :
    b.superclass? (f i) = (a.superclass? i).map f := by
  rw [h.resolves'.superclass, h.embeds.targets h.coherent hi, h.resolves.superclass, List.find?_map]
  congr 1
  refine List.find?_congr fun j hj => ?_
  exact h.embeds.isClass (Declared.lt_of_mem_targets hj)

theorem protocols (h : Corresponds f d e a b) (hi : i < d.objects.length) :
    b.protocols (f i) = (a.protocols i).map f := by
  induction i using (Declared.wellFounded_of_acyclic h.coherent.acyclic).induction with
  | _ i ih =>
    rw [h.resolves'.protocols, h.embeds.targets h.coherent hi, h.resolves.protocols,
      List.map_flatMap, List.flatMap_map]
    refine List.flatMap_congr fun j hj => ?_
    have hlt := Declared.lt_of_mem_targets hj
    rw [h.embeds.isClass hlt]
    split
    · exact ih j hj hlt
    · rfl

theorem lists_iff (h : Corresponds f d e a b) (hi : i < d.objects.length) :
    b.Lists (f i) k ↔ ∃ j, a.Lists i j ∧ f j = k := by
  rw [Arena.Lists, h.protocols hi, List.mem_map]
  rfl

theorem extends_iff (h : Corresponds f d e a b) (hi : i < d.objects.length) :
    b.Extends (f i) k ↔ ∃ j, a.Extends i j ∧ f j = k := by
  rw [Arena.Extends, h.superclass? hi, Option.map_eq_some_iff]
  rfl

theorem adopts (h : Corresponds f d e a b) (hi : i < d.objects.length) (hj : j < d.objects.length) :
    b.adopts (f i) (f j) = a.adopts i j := by
  rw [Bool.eq_iff_iff, h.resolves'.adopts_iff h.coherent', h.resolves.adopts_iff h.coherent]
  constructor
  · intro hb
    have back {k} (hk : TransGen b.Lists (f i) k) :
        ∃ l < d.objects.length, TransGen a.Lists i l ∧ f l = k := by
      induction hk with
      | single hk =>
        obtain ⟨l, hl, rfl⟩ := (h.lists_iff hi).1 hk
        exact ⟨l, h.resolves.protocols_lt i l hl, .single hl, rfl⟩
      | tail _ hk ih =>
        obtain ⟨m, hm, him, rfl⟩ := ih
        obtain ⟨l, hl, rfl⟩ := (h.lists_iff hm).1 hk
        exact ⟨l, h.resolves.protocols_lt m l hl, him.tail hl, rfl⟩
    obtain ⟨l, hl, hil, hlj⟩ := back hb
    rwa [h.embeds.injective hl hj hlj] at hil
  · intro ha
    refine TransGen.lift f (fun k l hkl => ?_) i j ha
    have hk := h.resolves.lt_of_lists h.coherent hkl
    exact (h.lists_iff hk).2 ⟨l, hkl, rfl⟩

theorem isSubclass (h : Corresponds f d e a b) (hi : i < d.objects.length)
    (hj : j < d.objects.length) : b.isSubclass (f i) (f j) = a.isSubclass i j := by
  rw [Bool.eq_iff_iff, h.resolves'.isSubclass_iff h.coherent' (h.embeds.lt hi),
    h.resolves.isSubclass_iff h.coherent hi]
  constructor
  · intro hb
    have back {k} (hk : ReflTransGen b.Extends (f i) k) :
        ∃ l < d.objects.length, ReflTransGen a.Extends i l ∧ f l = k := by
      induction hk with
      | refl => exact ⟨i, hi, .refl, rfl⟩
      | tail _ hk ih =>
        obtain ⟨m, hm, him, rfl⟩ := ih
        obtain ⟨l, hl, rfl⟩ := (h.extends_iff hm).1 hk
        exact ⟨l, h.resolves.superclass_lt m l hl, him.tail hl, rfl⟩
    obtain ⟨l, hl, hil, hlj⟩ := back hb
    rwa [h.embeds.injective hl hj hlj] at hil
  · intro ha
    refine ReflTransGen.lift f (fun k l hkl => ?_) i j ha
    have hk := Declared.lt_of_names (h.resolves.names_of_extends hkl)
    exact (h.extends_iff hk).2 ⟨l, hkl, rfl⟩

variable {s t : Ty}

theorem conforms (h : Corresponds f d e a b) (hs : s.Below d.objects.length)
    (ht : t.Below d.objects.length) :
    (s.renumber f).conforms b (t.renumber f) = s.conforms a t := by
  induction t generalizing s with
  | any => cases s <;> rfl
  | optional t ih => cases s <;> first | rfl | exact ih hs ht
  | array t ih => cases s <;> first | rfl | exact ih hs ht
  | dictionary k v ihk ihv =>
    cases s <;> first | rfl | exact congrArg₂ (· && ·) (ihk hs.1 ht.1) (ihv hs.2 ht.2)
  | ofProtocol j =>
    cases s <;> first | rfl | exact h.adopts hs ht |
      exact congrArg₂ (· || ·) (h.embeds.beq_eq hs ht) (h.adopts hs ht)
  | ofClass j => cases s <;> first | rfl | exact h.isSubclass hs ht
  | ofEnum j => cases s <;> first | rfl | exact h.embeds.beq_eq hs ht
  | metaClass j => cases s <;> first | rfl | exact h.isSubclass hs ht
  | metaProtocol j =>
    cases s <;> first | rfl | exact h.adopts hs ht |
      exact congrArg₂ (· || ·) (h.embeds.beq_eq hs ht) (h.adopts hs ht)

end Corresponds

namespace Declared.Embeds
variable {s t : Ty}

theorem identicalTo (h : Embeds f d e) (hs : s.Below d.objects.length)
    (ht : t.Below d.objects.length) :
    (s.renumber f).identicalTo (t.renumber f) = s.identicalTo t := by
  induction s generalizing t with
  | any => cases t <;> rfl
  | optional s ih | array s ih => cases t <;> first | rfl | exact ih hs ht
  | dictionary k v ihk ihv =>
    cases t <;> first | rfl | exact congrArg₂ (· && ·) (ihk hs.1 ht.1) (ihv hs.2 ht.2)
  | ofProtocol i | ofClass i | ofEnum i | metaClass i | metaProtocol i =>
    cases t <;> first | rfl | exact h.beq_eq hs ht

end Declared.Embeds

section Programs
variable {chunks chunks' : List Chunk} {p q : Program}

theorem corresponds_of_embeds (hp : Program.ofChunks chunks = .ok p)
    (hq : Program.ofChunks chunks' = .ok q) (h : p.declared.Embeds f q.declared) :
    Corresponds f p.declared q.declared p.arena q.arena := by
  obtain ⟨-, hp, -, -⟩ := ofChunks_ok hp
  obtain ⟨-, hq, -, -⟩ := ofChunks_ok hq
  obtain ⟨hd, ha⟩ := ofDeclared_ok hp
  obtain ⟨he, hb⟩ := ofDeclared_ok hq
  exact ⟨h, hd, he, ha, hb⟩

theorem expandAll_table (hp : Program.ofChunks chunks = .ok p) (k : Fin chunks.length) :
    TypeTable.expandAll p.declared (annotationsOfChunk (chunks.get k)) = .ok (p.table k) := by
  obtain ⟨-, -, htables, -⟩ := ofChunks_ok hp
  obtain ⟨table, htable, hexpand⟩ := getElem?_of_mapM htables (List.getElem?_eq_getElem k.isLt)
  rw [Program.table, htable]
  exact hexpand

end Programs

end ScriptFront.Program
