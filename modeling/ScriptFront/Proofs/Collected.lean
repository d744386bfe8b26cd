import ScriptFront.Proofs.ChunkReading
import ScriptFront.Proofs.Coherence
/-! Collecting declarations succeeds exactly if the names are all different, and leaves what the
items of the chunks declare. Each name is a token of its chunk. -/
namespace ScriptFront.Syntax.Item

def objects : Item → List Declaration
  | object o => [o]
  | _ => []

def aliases : Item → List AliasDecl
  | typeAlias a => [a]
  | _ => []

/-- The name that an item declares, if it declares one. -/
def names (item : Item) : List String := item.objects.map (·.name) ++ item.aliases.map (·.name)

end ScriptFront.Syntax.Item

namespace ScriptFront.Program
open Syntax Phrase

namespace Declared

/-- The names that are taken. -/
def names (d : Declared) : List String := d.objects.map (·.name) ++ d.aliases.map (·.name)

def Distinct (d : Declared) : Prop := (anyName :: d.names).Nodup

section Collect
variable {d e : Declared} {o : Declaration} {a : AliasDecl} {item : Item} {list : List Item}
  {n : String}

theorem find?_none_iff : d.find? n = none ↔ n ∉ d.objects.map (·.name) := by
  simp [find?, List.findIdx?_eq_none_iff]

theorem typeAlias?_none_iff : d.typeAlias? n = none ↔ n ∉ d.aliases.map (·.name) := by
  simp [typeAlias?]

theorem not_mem_names_iff : n ∉ d.names ↔ d.find? n = none ∧ d.typeAlias? n = none := by
  rw [find?_none_iff, typeAlias?_none_iff, names, List.mem_append, not_or]

theorem addObject_ok (h : d.addObject o = .ok e) :
    o.name ∉ d.names ∧ o.name ≠ anyName ∧ e = ⟨d.objects ++ [o], d.aliases⟩ := by
  rw [not_mem_names_iff]
  unfold addObject at h
  split at h
  · cases h
  · split at h
    · cases h
    · cases h
      simp_all

theorem addAlias_ok (h : d.addAlias a = .ok e) :
    a.name ∉ d.names ∧ a.name ≠ anyName ∧ e = ⟨d.objects, d.aliases ++ [a]⟩ := by
  rw [not_mem_names_iff]
  unfold addAlias at h
  split at h
  · cases h
  · cases h
    simp_all

/-- One more declaration keeps the names different, since its own is not taken. -/
theorem Distinct.addItem (hd : d.Distinct) (h : d.addItem item = .ok e) : e.Distinct := by
  have hnew (n : String) (hn : n ∉ d.names) (hany : n ≠ anyName) :
      (n :: anyName :: d.names).Nodup := by
    refine List.nodup_cons.2 ⟨fun hmem => ?_, hd⟩
    rcases List.mem_cons.1 hmem with he | hmem
    · exact hany he
    · exact hn hmem
  cases item with
  | object o =>
    obtain ⟨hn, hany, rfl⟩ := addObject_ok h
    have hperm : (anyName :: d.objects.map (·.name) ++ o.name :: d.aliases.map (·.name)).Perm _ :=
      List.perm_middle
    exact (hnew o.name hn hany).perm (by simpa [names] using hperm.symm)
  | typeAlias a =>
    obtain ⟨hn, hany, rfl⟩ := addAlias_ok h
    have hperm := List.perm_append_singleton a.name (anyName :: d.names)
    exact (hnew a.name hn hany).perm (by simpa [names] using hperm.symm)
  | statement s =>
    cases h
    exact hd

theorem Distinct.addItems (hd : d.Distinct) (h : list.foldlM Declared.addItem d = .ok e) :
    e.Distinct := by
  induction list generalizing d with
  | nil =>
    cases h
    exact hd
  | cons item list ih =>
    obtain ⟨d', hd', h⟩ := bind_ok.1 h
    exact ih (hd.addItem hd') h

/-- The names that no further item may declare. -/
def taken (d : Declared) : List String := anyName :: d.names

/-- What the items of a list declare, in their order. -/
def ofItems (list : List Item) : Declared := ⟨list.flatMap Item.objects, list.flatMap Item.aliases⟩

theorem not_mem_taken_iff :
    n ∉ d.taken ↔ n ≠ anyName ∧ d.find? n = none ∧ d.typeAlias? n = none := by
  rw [taken, List.mem_cons, not_or, not_mem_names_iff]

theorem addItem_ok_iff : d.addItem item = .ok e ↔
    (∀ n ∈ item.names, n ∉ d.taken) ∧
      e = ⟨d.objects ++ item.objects, d.aliases ++ item.aliases⟩ := by
  cases item with
  | object o =>
    rw [show (Item.object o).names = [o.name] from rfl, List.forall_mem_singleton]
    constructor
    · intro h
      obtain ⟨hn, hany, rfl⟩ := addObject_ok h
      exact ⟨not_mem_taken_iff.2 ⟨hany, not_mem_names_iff.1 hn⟩,
        by simp [Item.objects, Item.aliases]⟩
    · rintro ⟨hn, rfl⟩
      obtain ⟨hany, hfind, halias⟩ := not_mem_taken_iff.1 hn
      simp [addItem, addObject, hany, hfind, halias, Item.objects, Item.aliases]
  | typeAlias a =>
    rw [show (Item.typeAlias a).names = [a.name] from rfl, List.forall_mem_singleton]
    constructor
    · intro h
      obtain ⟨hn, hany, rfl⟩ := addAlias_ok h
      exact ⟨not_mem_taken_iff.2 ⟨hany, not_mem_names_iff.1 hn⟩,
        by simp [Item.objects, Item.aliases]⟩
    · rintro ⟨hn, rfl⟩
      obtain ⟨hany, hfind, halias⟩ := not_mem_taken_iff.1 hn
      simp [addItem, addAlias, hany, hfind, halias, Item.objects, Item.aliases]
  | statement s =>
    simp only [addItem, Except.ok.injEq, Item.names, Item.objects, Item.aliases, List.append_nil,
      List.map_nil, List.not_mem_nil, false_implies, implies_true, true_and]
    exact eq_comm

/-- Items are collected exactly if they declare no name twice and none that is taken. -/
theorem addItems_ok_iff (hd : d.Distinct) : list.foldlM Declared.addItem d = .ok e ↔
    (d.taken ++ list.flatMap Item.names).Nodup ∧
      e = ⟨d.objects ++ (ofItems list).objects, d.aliases ++ (ofItems list).aliases⟩ := by
  induction list generalizing d with
  | nil =>
    simp only [List.foldlM_nil, pure, Except.pure, Except.ok.injEq, ofItems, List.flatMap_nil,
      List.append_nil, eq_comm (a := e)]
    exact (and_iff_right hd).symm
  | cons item list ih =>
    let d' : Declared := ⟨d.objects ++ item.objects, d.aliases ++ item.aliases⟩
    have hperm : (d'.taken ++ list.flatMap Item.names).Perm
        (d.taken ++ (item :: list).flatMap Item.names) := by
      refine List.perm_iff_count.2 fun n => ?_
      simp only [d', taken, names, Item.names, List.map_append, List.flatMap_cons,
        List.count_append, List.count_cons]
      omega
    rw [List.foldlM_cons, bind_ok]
    constructor
    · rintro ⟨_, hd', h⟩
      obtain ⟨hn, rfl⟩ := (ih (hd.addItem hd')).1 h
      obtain ⟨-, rfl⟩ := addItem_ok_iff.1 hd'
      exact ⟨hperm.nodup_iff.1 hn, by simp [ofItems]⟩
    · rintro ⟨hn, rfl⟩
      have hnew : ∀ n ∈ item.names, n ∉ d.taken := by
        intro n hmem hn'
        refine (List.nodup_append.1 hn).2.2 n hn' n ?_ rfl
        exact List.mem_flatMap.2 ⟨item, List.mem_cons_self, hmem⟩
      have hd' : d.addItem item = .ok d' := addItem_ok_iff.2 ⟨hnew, rfl⟩
      exact ⟨d', hd', (ih (hd.addItem hd')).2 ⟨hperm.nodup_iff.2 hn, by simp [d', ofItems]⟩⟩

theorem ofChunks_ok_iff {chunks : List Chunk} : ofChunks chunks = .ok d ↔
    (anyName :: chunks.flatten.flatMap Item.names).Nodup ∧ d = ofItems chunks.flatten := by
  have hempty : empty.Distinct := by simp [Distinct, names, empty]
  rw [ofChunks, addItems_ok_iff hempty]
  simp [taken, names, empty]

theorem mem_objects_ofItems : o ∈ (ofItems list).objects ↔ Item.object o ∈ list := by
  rw [ofItems, List.mem_flatMap]
  constructor
  · rintro ⟨item, hi, ho⟩
    cases item with
    | object o' =>
      obtain rfl := List.mem_singleton.1 ho
      exact hi
    | _ => cases ho
  · intro h
    exact ⟨.object o, h, List.mem_singleton_self o⟩

theorem mem_aliases_ofItems : a ∈ (ofItems list).aliases ↔ Item.typeAlias a ∈ list := by
  rw [ofItems, List.mem_flatMap]
  constructor
  · rintro ⟨item, hi, ha⟩
    cases item with
    | typeAlias a' =>
      obtain rfl := List.mem_singleton.1 ha
      exact hi
    | _ => cases ha
  · intro h
    exact ⟨.typeAlias a, h, List.mem_singleton_self a⟩

variable {chunks : List Chunk}

theorem distinct_ofChunks (h : ofChunks chunks = .ok d) : d.Distinct :=
  Distinct.addItems (by simp [Distinct, names, empty]) h

theorem object_of_ofChunks (h : ofChunks chunks = .ok d) (ho : o ∈ d.objects) :
    ∃ c ∈ chunks, Item.object o ∈ c := by
  obtain ⟨-, rfl⟩ := ofChunks_ok_iff.1 h
  exact List.mem_flatten.1 (mem_objects_ofItems.1 ho)

end Collect

section Names
variable {d : Declared} {i : ObjectId} {a : AliasDecl} {n : String}

theorem nameOf_eq (hi : i < d.objects.length) : d.nameOf i = d.objects[i].name := by
  simp [nameOf, hi]

theorem nameOf_mem (hi : i < d.objects.length) : d.nameOf i ∈ d.objects.map (·.name) := by
  rw [nameOf_eq hi]
  exact List.mem_map.2 ⟨_, List.getElem_mem hi, rfl⟩

theorem nameOf_of_find? (h : d.find? n = some i) : d.nameOf i = n := by
  obtain ⟨hi, hn, -⟩ := List.findIdx?_eq_some_iff_getElem.1 h
  simpa [nameOf_eq hi] using hn

/-- An object is found by its name. -/
theorem Distinct.find?_nameOf (h : d.Distinct) (hi : i < d.objects.length) :
    d.find? (d.nameOf i) = some i := by
  have hnodup : (d.objects.map (·.name)).Nodup :=
    (List.nodup_append.1 (List.nodup_cons.1 h).2).1
  refine List.findIdx?_eq_some_iff_getElem.2 ⟨hi, by simp [nameOf_eq hi], fun j hj => ?_⟩
  have hne := List.pairwise_iff_getElem.1 hnodup j i (by simpa using Nat.lt_trans hj hi)
    (by simpa using hi) hj
  simpa [nameOf_eq hi] using hne

theorem Distinct.typeAlias?_nameOf (h : d.Distinct) (hi : i < d.objects.length) :
    d.typeAlias? (d.nameOf i) = none := by
  have hapart := (List.nodup_append.1 (List.nodup_cons.1 h).2).2.2
  refine typeAlias?_none_iff.2 fun hmem => ?_
  exact hapart _ (nameOf_mem hi) _ hmem rfl

theorem Distinct.typeAlias?_iff (h : d.Distinct) :
    d.typeAlias? n = some a ↔ a ∈ d.aliases ∧ a.name = n := by
  have hnodup : (d.aliases.map (·.name)).Nodup :=
    (List.nodup_append.1 (List.nodup_cons.1 h).2).2.1
  constructor
  · intro ha
    exact ⟨List.mem_of_find?_eq_some ha, by simpa using List.find?_some ha⟩
  · rintro ⟨ha, rfl⟩
    obtain ⟨b, hb⟩ : ∃ b, d.typeAlias? a.name = some b :=
      Option.isSome_iff_exists.1 (List.find?_isSome.2 ⟨a, ha, by simp⟩)
    have hn : b.name = a.name := by simpa using List.find?_some hb
    rw [hb, List.inj_on_of_nodup_map hnodup (List.mem_of_find?_eq_some hb) ha hn]

theorem Distinct.any (h : d.Distinct) :
    d.find? anyName = none ∧ d.typeAlias? anyName = none :=
  not_mem_names_iff.1 (List.nodup_cons.1 h).1

end Names
end Declared
end ScriptFront.Program

namespace ScriptFront.Phrase
open Syntax

theorem Stream.IsRest.mem {s t : Stream} {u : Token} (h : t.IsRest s) (hu : u ∈ t.left) :
    u ∈ s.left := by
  obtain ⟨taken, hleft, -⟩ := h
  rw [hleft]
  exact List.mem_append_right _ hu

theorem Reading.Declaration.name_mem {s t : Stream} {o : Syntax.Declaration}
    (h : Reading.Declaration s (.object o) t) : Token.name o.name ∈ s.left := by
  cases h with
  | ofClass | ofProtocol | ofEnum => simp [Syntax.Declaration.name]

/-- The name of a declared object is a token of the chunk. -/
theorem name_mem_of_items {returned : Bool} {s : Stream} {c : Chunk} {o : Syntax.Declaration}
    (hr : items returned s = .ok c) (ho : Item.object o ∈ c) : Token.name o.name ∈ s.left := by
  rw [items] at hr
  split at hr
  · next read hd =>
    split at hr
    · cases hr
    · obtain ⟨⟨first, s₁, h₁⟩, hf, hr⟩ := bind_ok.1 hr
      obtain ⟨more, hm, hr⟩ := bind_ok.1 hr
      cases hr
      rcases List.mem_cons.1 ho with rfl | ho
      · exact (reads_declaration? hd hf).name_mem
      · exact h₁.isRest.mem (name_mem_of_items hm ho)
  · have h₁ := (semicolons s).rest_isRest
    dsimp only at hr
    split at hr
    · cases hr
      cases ho
    · split at hr
      · cases hr
      · obtain ⟨⟨first, s₂, h₂⟩, hf, hr⟩ := bind_ok.1 hr
        have h₂' := h₂.ofRest h₁
        obtain ⟨more, hm, hr⟩ := bind_ok.1 hr
        cases hr
        rcases List.mem_cons.1 ho with ho | ho
        · cases ho
        · exact h₂'.isRest.mem (name_mem_of_items hm ho)
termination_by s.left.length
decreasing_by all_goals exact Stream.Follows.length_lt ‹_›

end ScriptFront.Phrase
