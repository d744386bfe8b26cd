import ScriptFront.Proofs.Collected
/-! What collecting declarations comes to: it fails at the first declaration whose name is taken, and
otherwise numbers the objects in source order. With a table for the names of objects and another for
those of aliases it comes to the same. -/
namespace ScriptFront.Syntax.Item

/-- The name that an item declares, and its index. -/
def declares? : Item → Option (String × TokenIndex)
  | object o => some (o.name, o.anchor)
  | typeAlias a => some (a.name, a.anchor)
  | statement _ => none

theorem mem_names_iff {item : Item} {n : String} :
    n ∈ item.names ↔ ∃ k, item.declares? = some (n, k) := by
  cases item <;> simp [names, objects, aliases, declares?, eq_comm]

end ScriptFront.Syntax.Item

namespace ScriptFront.Program
open Syntax Phrase

/-- The item at a place declares a name that is taken: `Any`, or that of an earlier declaration. -/
structure ClashAt (items : List Item) (place : Nat) (item : Item) (name : String)
    (index : TokenIndex) : Prop where
  here : items[place]? = some item
  declares : item.declares? = some (name, index)
  taken : name = anyName ∨ ∃ earlier ∈ items.take place, name ∈ earlier.names

namespace Declared
section Clashes
variable {d : Declared} {item : Item} {items : List Item} {e : ResolveError}

theorem mem_taken_ofItems {n : String} :
    n ∈ (ofItems items).taken ↔ n = anyName ∨ ∃ item ∈ items, n ∈ item.names := by
  simp only [taken, names, ofItems, Item.names, List.mem_cons, List.mem_append, List.mem_map,
    List.mem_flatMap]
  grind

theorem isSome_find?_iff {n : String} : (d.find? n).isSome ↔ ∃ o ∈ d.objects, o.name = n := by
  rw [← Option.ne_none_iff_isSome, Ne, find?_none_iff, not_not, List.mem_map]

theorem mem_taken_iff {n : String} :
    n ∈ d.taken ↔ n = anyName ∨ (d.find? n).isSome ∨ (d.typeAlias? n).isSome := by
  rw [← not_iff_not, not_mem_taken_iff]
  simp

theorem find?_snoc (o : Declaration) (n : String) :
    find? ⟨d.objects ++ [o], d.aliases⟩ n =
      (d.find? n).or (if o.name = n then some d.objects.length else none) := by
  rw [find?, List.findIdx?_append, ← find?]
  by_cases hn : o.name = n <;> simp [hn]

theorem typeAlias?_snoc (a : AliasDecl) (n : String) :
    typeAlias? ⟨d.objects, d.aliases ++ [a]⟩ n =
      (d.typeAlias? n).or (if a.name = n then some a else none) := by
  rw [typeAlias?, List.find?_append, ← typeAlias?]
  by_cases hn : a.name = n <;> simp [hn]

/-- The error says which name is taken. Its cause depends on whether two objects have the name. -/
structure Refuses (d : Declared) (item : Item) (e : ResolveError) : Prop where
  declares : item.declares? = some (e.name, e.index)
  taken : e.name ∈ d.taken
  cause : e.cause = .duplicateName ∨ e.cause = .duplicateType
  objects : e.cause = .duplicateName ↔
    (∃ o, item = .object o) ∧ ∃ o ∈ d.objects, o.name = e.name

theorem refuses_of_addItem : Fails (Refuses d item) (d.addItem item) := by
  cases item with
  | object o =>
    rw [addItem, addObject]
    split
    · next hfind =>
      have ho := isSome_find?_iff.1 hfind
      exact .error ⟨rfl, mem_taken_iff.2 (.inr (.inl hfind)), .inl rfl, by simpa using ho⟩
    · next hfind =>
      split
      · next h =>
        have htaken : o.name ∈ d.taken := mem_taken_iff.2 (by simpa [hfind] using h)
        have ho := mt isSome_find?_iff.2 hfind
        exact .error ⟨rfl, htaken, .inr rfl, by simpa using ho⟩
      · exact .ok
  | typeAlias a =>
    rw [addItem, addAlias]
    split
    · next h =>
      have htaken : a.name ∈ d.taken := by
        rw [mem_taken_iff, or_comm (a := (d.find? a.name).isSome = true)]
        simpa [or_assoc] using h
      exact .error ⟨rfl, htaken, .inr rfl, by simp⟩
    · exact .ok
  | statement s => exact .ok

/-- A fold that fails fails at one of its steps. -/
theorem exists_of_foldlM_error {ε α β : Type} {f : β → α → Except ε β} {as : List α} {b : β} {e : ε}
    (h : as.foldlM f b = .error e) :
    ∃ i a b', as[i]? = some a ∧ (as.take i).foldlM f b = .ok b' ∧ f b' a = .error e := by
  induction as generalizing b with
  | nil => cases h
  | cons a as ih =>
    rw [List.foldlM_cons] at h
    rcases error_of_bind h with hb | ⟨b₁, hb, h⟩
    · exact ⟨0, a, b, rfl, rfl, hb⟩
    · obtain ⟨i, a', b', ha, htake, hf⟩ := ih h
      refine ⟨i + 1, a', b', ha, ?_, hf⟩
      rw [List.take_succ_cons, List.foldlM_cons, hb]
      exact htake

/-- Where the names are all different there is no clash. -/
theorem not_clashAt {i k : Nat} {n : String}
    (h : (anyName :: items.flatMap Item.names).Nodup) : ¬ ClashAt items i item n k := by
  intro hc
  have hn : n ∈ item.names := Item.mem_names_iff.2 ⟨k, hc.declares⟩
  have hsplit : items = items.take i ++ item :: items.drop (i + 1) := by
    obtain ⟨hi, rfl⟩ := List.getElem?_eq_some_iff.1 hc.here
    rw [List.getElem_cons_drop, List.take_append_drop]
  rw [hsplit, List.flatMap_append, List.flatMap_cons, ← List.cons_append] at h
  refine (List.nodup_append.1 h).2.2 n ?_ n (List.mem_append_left _ hn) rfl
  rcases hc.taken with rfl | ⟨earlier, he, hne⟩
  · exact List.mem_cons_self
  · exact List.mem_cons_of_mem _ (List.mem_flatMap.2 ⟨earlier, he, hne⟩)

theorem ofChunks_singleton : ofChunks [items] = items.foldlM addItem empty := by
  rw [ofChunks, List.flatten_singleton]

end Clashes

section Collecting
variable {d : Declared} {e : ResolveError} {chunks : List Chunk}

/-- The error is that of the first clash. -/
structure FirstClash (items : List Item) (e : ResolveError) (place : Nat) (item : Item) : Prop where
  here : ClashAt items place item e.name e.index
  first : ∀ i < place, ∀ item n k, ¬ ClashAt items i item n k
  cause : e.cause = .duplicateName ∨ e.cause = .duplicateType
  objects : e.cause = .duplicateName ↔
    (∃ o, item = .object o) ∧ ∃ o, .object o ∈ items.take place ∧ o.name = e.name

theorem firstClash_of_ofChunks (h : ofChunks chunks = .error e) :
    ∃ place item, FirstClash chunks.flatten e place item := by
  obtain ⟨place, item, d, hitem, hbefore, he⟩ := exists_of_foldlM_error h
  rw [← ofChunks_singleton, ofChunks_ok_iff, List.flatten_singleton] at hbefore
  obtain ⟨hnodup, rfl⟩ := hbefore
  obtain ⟨hdeclares, htaken, hcause, hobjects⟩ := refuses_of_addItem e he
  refine ⟨place, item, ⟨hitem, hdeclares, mem_taken_ofItems.1 htaken⟩, ?_, hcause, ?_⟩
  · intro i hi item' n k hc
    refine not_clashAt hnodup (i := i) ⟨?_, hc.declares, ?_⟩
    · rw [List.getElem?_take_of_lt hi]
      exact hc.here
    · rw [List.take_take, Nat.min_eq_left (Nat.le_of_lt hi)]
      exact hc.taken
  · simpa only [mem_objects_ofItems] using hobjects

theorem duplicate_of_ofChunks :
    Fails (fun e => e.cause = .duplicateName ∨ e.cause = .duplicateType) (ofChunks chunks) :=
  .foldlM (fun _ _ _ => refuses_of_addItem.mono fun _ he => he.cause) empty

theorem find?_ofChunks (h : ofChunks chunks = .ok d) {n : String} {id : ObjectId} :
    d.find? n = some id ↔ ∃ o, d.objects[id]? = some o ∧ o.name = n := by
  constructor
  · intro hf
    obtain ⟨hid, hn, -⟩ := List.findIdx?_eq_some_iff_getElem.1 hf
    exact ⟨_, List.getElem?_eq_getElem hid, by simpa using hn⟩
  · rintro ⟨o, ho, rfl⟩
    obtain ⟨hid, rfl⟩ := List.getElem?_eq_some_iff.1 ho
    rw [← nameOf_eq hid]
    exact (distinct_ofChunks h).find?_nameOf hid

end Collecting
end Declared

/-- The objects in their order, the numbers of objects by name, and the aliases by name. -/
structure Tables where
  objects : Array Declaration
  names : Std.HashMap String ObjectId
  aliases : Std.HashMap String AliasDecl

namespace Tables

def empty : Tables := ⟨#[], ∅, ∅⟩

def declare (t : Tables) (o : Declaration) : Except ResolveError Tables :=
  if t.names.contains o.name then .error ⟨.duplicateName, o.name, o.anchor⟩
  else if o.name = anyName || t.aliases.contains o.name then
    .error ⟨.duplicateType, o.name, o.anchor⟩
  else .ok { t with
    objects := t.objects.push o
    names := t.names.insert o.name t.objects.size }

def declareAlias (t : Tables) (a : AliasDecl) : Except ResolveError Tables :=
  if a.name = anyName || t.aliases.contains a.name || t.names.contains a.name then
    .error ⟨.duplicateType, a.name, a.anchor⟩
  else .ok { t with aliases := t.aliases.insert a.name a }

def collectItem (t : Tables) : Item → Except ResolveError Tables
  | .object o => t.declare o
  | .typeAlias a => t.declareAlias a
  | .statement _ => .ok t

def collect (t : Tables) (chunk : Chunk) : Except ResolveError Tables := chunk.foldlM collectItem t

def ofChunks (chunks : List Chunk) : Except ResolveError Tables := chunks.foldlM collect empty

/-- The tables find what the declarations are searched for. -/
structure Shows (t : Tables) (d : Declared) : Prop where
  objects : t.objects.toList = d.objects
  names : ∀ n, t.names[n]? = d.find? n
  aliases : ∀ n, t.aliases[n]? = d.typeAlias? n

/-- Both fail with one error, or the tables show what is declared. -/
inductive Agree : Except ResolveError Tables → Except ResolveError Declared → Prop
  | error (e : ResolveError) : Agree (.error e) (.error e)
  | ok {t : Tables} {d : Declared} : t.Shows d → Agree (.ok t) (.ok d)

section
variable {t : Tables} {d : Declared} {chunk : Chunk} {chunks : List Chunk}

theorem shows_empty : empty.Shows .empty := by
  constructor
  · rfl
  · exact fun n => Std.HashMap.getElem?_empty
  · exact fun n => Std.HashMap.getElem?_empty

theorem Shows.size (h : t.Shows d) : t.objects.size = d.objects.length := by
  rw [← h.objects, Array.length_toList]

theorem Shows.contains (h : t.Shows d) (n : String) : t.names.contains n = (d.find? n).isSome := by
  rw [Std.HashMap.contains_eq_isSome_getElem?, h.names]

theorem Shows.contains_alias (h : t.Shows d) (n : String) :
    t.aliases.contains n = (d.typeAlias? n).isSome := by
  rw [Std.HashMap.contains_eq_isSome_getElem?, h.aliases]

theorem Shows.declare (h : t.Shows d) (o : Declaration) : Agree (t.declare o) (d.addObject o) := by
  rw [Tables.declare, Declared.addObject, h.contains, h.contains_alias]
  split
  · exact .error _
  · next hfind =>
    split
    · exact .error _
    · refine .ok ⟨by simp [h.objects], fun n => ?_, h.aliases⟩
      have hnone : d.find? o.name = none := by simpa using hfind
      rw [Std.HashMap.getElem?_insert, h.names, h.size, Declared.find?_snoc]
      by_cases hn : o.name = n
      · subst hn
        simp [hnone]
      · simp [hn]

theorem Shows.declareAlias (h : t.Shows d) (a : AliasDecl) :
    Agree (t.declareAlias a) (d.addAlias a) := by
  rw [Tables.declareAlias, Declared.addAlias, h.contains, h.contains_alias]
  split
  · exact .error _
  · next hfree =>
    refine .ok ⟨h.objects, h.names, fun n => ?_⟩
    have hnone : d.typeAlias? a.name = none := by
      rw [Bool.or_eq_true, Bool.or_eq_true, not_or, not_or] at hfree
      simpa using hfree.1.2
    rw [Std.HashMap.getElem?_insert, h.aliases, Declared.typeAlias?_snoc]
    by_cases hn : a.name = n
    · subst hn
      simp [hnone]
    · simp [hn]

theorem Shows.collectItem (h : t.Shows d) (item : Item) :
    Agree (t.collectItem item) (d.addItem item) := by
  cases item with
  | object o => exact h.declare o
  | typeAlias a => exact h.declareAlias a
  | statement s => exact .ok h

theorem Agree.bind {x : Except ResolveError Tables} {y : Except ResolveError Declared}
    {f : Tables → Except ResolveError Tables} {g : Declared → Except ResolveError Declared}
    (h : Agree x y) (hf : ∀ t d, t.Shows d → Agree (f t) (g d)) : Agree (x >>= f) (y >>= g) := by
  cases h with
  | error e => exact .error e
  | ok h => exact hf _ _ h

theorem Shows.collect (h : t.Shows d) (chunk : Chunk) :
    Agree (t.collect chunk) (chunk.foldlM Declared.addItem d) := by
  rw [Tables.collect]
  induction chunk generalizing t d with
  | nil => exact .ok h
  | cons item chunk ih =>
    rw [List.foldlM_cons, List.foldlM_cons]
    exact (h.collectItem item).bind fun t d h => ih h

theorem Shows.collectAll (h : t.Shows d) (chunks : List Chunk) :
    Agree (chunks.foldlM Tables.collect t) (chunks.flatten.foldlM Declared.addItem d) := by
  induction chunks generalizing t d with
  | nil => exact .ok h
  | cons chunk chunks ih =>
    rw [List.foldlM_cons, List.flatten_cons, List.foldlM_append]
    exact (h.collect chunk).bind fun t d h => ih h

/-- Collecting with tables agrees with searching all that is declared so far. -/
theorem agree_ofChunks (chunks : List Chunk) : Agree (ofChunks chunks) (Declared.ofChunks chunks) :=
  shows_empty.collectAll chunks

end
end Tables

namespace Declared

/-- Collecting fails exactly if a declaration has a name that is taken, and then tells of the first
one; else the objects are numbered in source order and found by their names, which are all different.
Tables for the names come to the same. -/
theorem ofChunks_collects (chunks : List Chunk) :
    ((∃ e, ofChunks chunks = .error e) ↔
      ∃ place item n k, ClashAt chunks.flatten place item n k) ∧
    (∀ e, ofChunks chunks = .error e → ∃ place item, FirstClash chunks.flatten e place item) ∧
    (∀ d, ofChunks chunks = .ok d →
      d.objects = chunks.flatten.flatMap Item.objects ∧
      d.aliases = chunks.flatten.flatMap Item.aliases ∧
      (∀ n id, d.find? n = some id ↔ ∃ o, d.objects[id]? = some o ∧ o.name = n) ∧
      (anyName :: (d.objects.map (·.name) ++ d.aliases.map (·.name))).Nodup) ∧
    Tables.Agree (Tables.ofChunks chunks) (ofChunks chunks) := by
  refine ⟨⟨?_, ?_⟩, fun e => firstClash_of_ofChunks, fun d h => ⟨?_, ?_, ?_, ?_⟩, ?_⟩
  · rintro ⟨e, h⟩
    obtain ⟨place, item, hc⟩ := firstClash_of_ofChunks h
    exact ⟨place, item, _, _, hc.here⟩
  · rintro ⟨place, item, n, k, hc⟩
    cases h : ofChunks chunks with
    | error e => exact ⟨e, rfl⟩
    | ok d => exact absurd hc (not_clashAt (ofChunks_ok_iff.1 h).1)
  · rw [(ofChunks_ok_iff.1 h).2]
    rfl
  · rw [(ofChunks_ok_iff.1 h).2]
    rfl
  · exact fun n id => find?_ofChunks h
  · exact distinct_ofChunks h
  · exact Tables.agree_ofChunks chunks

/-- A protocol, and in a second chunk an alias for it and a class with the name of the protocol. -/
def twoFoos : List Chunk :=
  [[.object (.ofProtocol ⟨1, "Foo", [], []⟩)],
   [.typeAlias ⟨1, "Bar", .name 3 "Foo"⟩, .object (.ofClass ⟨5, "Foo", [], []⟩)]]

theorem ofChunks_collects_twoFoos :
    ofChunks twoFoos = .error ⟨.duplicateName, "Foo", 5⟩ ∧
      ∃ place item, FirstClash twoFoos.flatten ⟨.duplicateName, "Foo", 5⟩ place item := by
  have h : ofChunks twoFoos = .error ⟨.duplicateName, "Foo", 5⟩ := by rfl
  exact ⟨h, (ofChunks_collects twoFoos).2.1 _ h⟩

end Declared
end ScriptFront.Program
