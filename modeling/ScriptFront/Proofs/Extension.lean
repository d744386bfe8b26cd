import ScriptFront.Proofs.Correspondence
/-! More chunks change nothing. What a program says of its objects and types it still says once more
chunks follow, if it resolves with them. -/
namespace ScriptFront.Program
open Syntax Phrase

/-- What `p` says of its own objects and types, `q` says as well. -/
structure Conserves (p q : Program) : Prop where
  find? : ∀ n i, p.declared.find? n = some i → q.declared.find? n = some i
  object : ∀ i < p.objectCount, q.declared.objects[i]? = p.declared.objects[i]?
  superclass? : ∀ i < p.objectCount, q.arena.superclass? i = p.arena.superclass? i
  protocols : ∀ i < p.objectCount, q.arena.protocols i = p.arena.protocols i
  resolveType : ∀ p' a t, p.Reaches p' → (p'.resolveType a).1 = .ok t → q.Finds a t
  adopts : ∀ i < p.objectCount, ∀ j < p.objectCount, q.arena.adopts i j = p.arena.adopts i j
  isSubclass : ∀ i < p.objectCount, ∀ j < p.objectCount,
    q.arena.isSubclass i j = p.arena.isSubclass i j
  conforms : ∀ s t, p.Gives s → p.Gives t → s.conforms q.arena t = s.conforms p.arena t

section Extension
variable {chunks more : List Chunk} {p q : Program}

theorem getElem?_objects_append {d e : Declared} {i : ObjectId}
    (hd : Declared.ofChunks chunks = .ok d) (he : Declared.ofChunks (chunks ++ more) = .ok e)
    (hi : i < d.objects.length) : e.objects[i]? = d.objects[i]? := by
  obtain ⟨-, rfl⟩ := Declared.ofChunks_ok_iff.1 hd
  obtain ⟨-, rfl⟩ := Declared.ofChunks_ok_iff.1 he
  simp only [Declared.ofItems, List.flatten_append, List.flatMap_append] at hi ⊢
  exact List.getElem?_append_left hi

theorem embeds_append {d e : Declared} (hd : Declared.ofChunks chunks = .ok d)
    (he : Declared.ofChunks (chunks ++ more) = .ok e) : d.Embeds id e where
  source := Declared.distinct_ofChunks hd
  target := Declared.distinct_ofChunks he
  object {i o} h :=
    ⟨o, (getElem?_objects_append hd he (List.getElem?_eq_some_iff.1 h).1).trans h, rfl⟩
  aliases a ha := by
    obtain ⟨-, rfl⟩ := Declared.ofChunks_ok_iff.1 hd
    obtain ⟨-, rfl⟩ := Declared.ofChunks_ok_iff.1 he
    refine ⟨a, ?_, rfl⟩
    simpa only [Declared.ofItems, List.flatten_append, List.flatMap_append] using
      List.mem_append_left _ ha

/-- The aliases and objects that come with more chunks are in no name's way: each name that stood
for something is taken. -/
theorem append_conserves (hp : Program.ofChunks chunks = .ok p)
    (hq : Program.ofChunks (chunks ++ more) = .ok q) :
    p.Conserves q ∧ ∀ k < chunks.length, q.table k = p.table k := by
  obtain ⟨hd, -, -, hs⟩ := ofChunks_ok hp
  obtain ⟨he, -, -, hs'⟩ := ofChunks_ok hq
  have h := embeds_append hd he
  have hc := corresponds_of_embeds hp hq h
  refine ⟨⟨fun n i => h.find?, fun i => getElem?_objects_append hd he, fun i hi => ?_,
    fun i hi => ?_, fun p' a t hp' ht => ?_, fun i hi j => hc.adopts hi,
    fun i hi j => hc.isSubclass hi, fun s t hs ht => ?_⟩, fun k hk => ?_⟩
  · simpa using hc.superclass? hi
  · simpa using hc.protocols hi
  · obtain ⟨hs₁, hd₁, -⟩ := hp'.same hs
    rw [(resolveType_eq hs₁ a).1, hd₁] at ht
    simpa [finds_iff hs'] using h.expand ht
  · simpa using hc.conforms (below_of_gives hp hs) (below_of_gives hp ht)
  · have ht := TypeTable.expandAll_renumber h (expandAll_table hp ⟨k, hk⟩)
    have ht' := expandAll_table hq ⟨k, by simp; omega⟩
    simp only [List.get_eq_getElem, List.getElem_append_left hk, TypeTable.renumber_id] at ht ht'
    exact Except.ok.inj (ht'.symm.trans ht)

/-- `class C: B end typealias T = A` -/
def moreChunk : Chunk :=
  [.object (.ofClass ⟨1, "C", [⟨3, "B"⟩], []⟩), .typeAlias ⟨6, "T", .name 8 "A"⟩]

def moreDeclared : Declared :=
  ⟨forwardClasses.objects ++ [.ofClass ⟨1, "C", [⟨3, "B"⟩], []⟩], [⟨6, "T", .name 8 "A"⟩]⟩

def moreProgram : Program :=
  ⟨moreDeclared, forwardArena ++ [⟨.resolved, some 0, [2, 3]⟩], [], [[], [(8, .ofClass 1)]]⟩

theorem ofDeclared_moreDeclared : Arena.ofDeclared moreDeclared = .ok moreProgram.arena := by
  rw [ofDeclared_eq_within]
  rfl

theorem ofChunks_more :
    Program.ofChunks ([forwardClasses.objects.map .object] ++ [moreChunk]) = .ok moreProgram := by
  have ht : typeOf moreDeclared [] (.name 8 "A") = liftM (moreDeclared.plainType 8 "A") := by
    rw [typeOf, typeOfName_plain (by rfl)]
  have hx : annotationsOfChunk moreChunk = [.name 8 "A"] := by
    simp [annotationsOfChunk, moreChunk, annotationsOfTopItem, annotationsOfDeclaration]
  have hd : Declared.ofChunks ([forwardClasses.objects.map .object] ++ [moreChunk]) =
      .ok moreDeclared := by rfl
  rw [Program.ofChunks, hd, ok_bind, ofDeclared_moreDeclared, ok_bind]
  simp only [List.singleton_append, List.mapM_cons, List.mapM_nil, hx, TypeTable.ofAnnotations,
    List.foldlM_cons, List.foldlM_nil, ht]
  rfl

theorem append_conserves_more :
    Program.ofChunks [forwardClasses.objects.map .object] = .ok forwardProgram ∧
      Program.ofChunks ([forwardClasses.objects.map .object] ++ [moreChunk]) = .ok moreProgram ∧
      forwardProgram.Conserves moreProgram :=
  ⟨ofChunks_forward, ofChunks_more, (append_conserves ofChunks_forward ofChunks_more).1⟩

end Extension

end ScriptFront.Program
