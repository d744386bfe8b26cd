import ScriptFront.Proofs.ConformanceOrder
/-! The two searches of an arena with no bound on their steps and no record of what they have seen. In
a resolved program both end, and they find what the declared conformances reach. -/
namespace ScriptFront.Program
open Syntax Relation

namespace Declared

/-- The declared conformances of classes to classes. -/
def NamesClass (d : Declared) (i j : ObjectId) : Prop :=
  d.Names i j ∧ d.isClass i = true ∧ d.isClass j = true

theorem isClass_of_isProtocol {d : Declared} {i : ObjectId} (h : d.isProtocol i = true) :
    d.isClass i = false := by
  simp only [isProtocol, isClass, Option.any_eq_true] at *
  obtain ⟨o, ho, hp⟩ := h
  cases o <;> simp_all [Declaration.isClass, Declaration.isProtocol]

end Declared

namespace Arena
variable {a : Arena} {d : Declared} {i j k target ancestor : ObjectId} {ps : List ObjectId}
  {answer : Bool}

/-- The search for a protocol in a list: each object is compared, and then its own list searched, before
the next. -/
inductive Seeks (a : Arena) (target : ObjectId) : List ObjectId → Bool → Prop where
  | nothing : Seeks a target [] false
  | found {ps : List ObjectId} : Seeks a target (target :: ps) true
  | within {p : ObjectId} {ps : List ObjectId} {node : Node} :
    p ≠ target → a[p]? = some node → Seeks a target node.protocols true →
    Seeks a target (p :: ps) true
  | past {p : ObjectId} {ps : List ObjectId} {node : Node} {answer : Bool} :
    p ≠ target → a[p]? = some node → Seeks a target node.protocols false →
    Seeks a target ps answer → Seeks a target (p :: ps) answer

/-- The search that starts at an object, which is not itself compared. -/
def Searches (a : Arena) (i target : ObjectId) (answer : Bool) : Prop :=
  ∃ node, a[i]? = some node ∧ a.Seeks target node.protocols answer

/-- The way up through superclasses, until one is `ancestor` or has none. -/
inductive Climbs (a : Arena) (ancestor : ObjectId) : ObjectId → Bool → Prop where
  | here : Climbs a ancestor ancestor true
  | up {i j : ObjectId} {node : Node} {answer : Bool} :
    i ≠ ancestor → a[i]? = some node → node.superclass? = some j → Climbs a ancestor j answer →
    Climbs a ancestor i answer
  | top {i : ObjectId} {node : Node} :
    i ≠ ancestor → a[i]? = some node → node.superclass? = none → Climbs a ancestor i false

theorem protocols_of_getElem? {node : Node} (h : a[i]? = some node) :
    a.protocols i = node.protocols := by
  rw [protocols, h]
  rfl

theorem superclass?_of_getElem? {node : Node} (h : a[i]? = some node) :
    a.superclass? i = node.superclass? := by
  rw [superclass?, h]
  rfl

/-- What a search that ends has found out. -/
theorem Seeks.answer_iff (h : a.Seeks target ps answer) :
    answer = true ↔ ∃ p ∈ ps, ReflTransGen a.Lists p target := by
  induction h with
  | nothing => simp
  | found => exact iff_of_true rfl ⟨_, List.mem_cons_self, .refl⟩
  | within _ hp _ ih =>
    obtain ⟨q, hq, h⟩ := ih.1 rfl
    rw [← protocols_of_getElem? hp] at hq
    exact iff_of_true rfl ⟨_, List.mem_cons_self, .head hq h⟩
  | @past p ps node answer hne hp _ _ ih₁ ih₂ =>
    have hnot : ¬ ReflTransGen a.Lists p target := by
      intro h
      rcases h.cases_head with heq | ⟨q, hq, h⟩
      · exact hne heq
      · rw [Lists, protocols_of_getElem? hp] at hq
        cases ih₁.2 ⟨q, hq, h⟩
    rw [ih₂]
    simp only [List.mem_cons, exists_eq_or_imp, or_iff_right hnot]

theorem Searches.answer_iff (h : a.Searches i target answer) :
    answer = true ↔ TransGen a.Lists i target := by
  obtain ⟨node, hi, h⟩ := h
  rw [h.answer_iff, TransGen.head'_iff, ← protocols_of_getElem? hi]
  rfl

theorem Climbs.answer_iff (h : a.Climbs ancestor i answer) :
    answer = true ↔ ReflTransGen a.Extends i ancestor := by
  induction h with
  | here => exact iff_of_true rfl .refl
  | up hne hi hj _ ih =>
    rw [← superclass?_of_getElem? hi] at hj
    rw [ih]
    refine ⟨.head hj, fun h => ?_⟩
    rcases h.cases_head with heq | ⟨k, hk, h⟩
    · exact absurd heq hne
    · rw [Extends, hj, Option.some.injEq] at hk
      rwa [hk]
  | top hne hi hj =>
    rw [← superclass?_of_getElem? hi] at hj
    refine iff_of_false Bool.false_ne_true fun h => ?_
    rcases h.cases_head with heq | ⟨k, hk, -⟩
    · exact hne heq
    · rw [Extends, hj] at hk
      cases hk

/-- A list is searched to an end if each of its objects is. -/
theorem Seeks.exists_of_each (h : ∀ p ∈ ps, ∃ answer, a.Searches p target answer) :
    ∃ answer, a.Seeks target ps answer := by
  induction ps with
  | nil => exact ⟨_, .nothing⟩
  | cons p ps ih =>
    by_cases hp : p = target
    · subst hp
      exact ⟨_, .found⟩
    · obtain ⟨⟨answer, node, hnode, hs⟩, hps⟩ := List.forall_mem_cons.1 h
      cases answer with
      | true => exact ⟨_, .within hp hnode hs⟩
      | false =>
        obtain ⟨answer, hrest⟩ := ih hps
        exact ⟨_, .past hp hnode hs hrest⟩

namespace Resolves

theorem wellFounded_lists (h : a.Resolves d) (hd : d.Coherent) :
    WellFounded fun j i => a.Lists i j := by
  have hwf := (Declared.wellFounded_of_acyclic hd.acyclic).transGen
  refine Subrelation.wf (fun hij => ?_) hwf
  exact (transGen_swap (r := d.Names)).2 (h.transGen_of_lists hd hij)

theorem exists_searches (h : a.Resolves d) (hd : d.Coherent) (hi : i < d.objects.length) :
    ∃ answer, a.Searches i target answer := by
  induction i using (h.wellFounded_lists hd).induction with
  | _ i ih =>
    have hnode := List.getElem?_eq_getElem (h.length ▸ hi)
    rw [← h.length] at hi
    have heach : ∀ j ∈ a[i].protocols, ∃ answer, a.Searches j target answer := by
      intro j hj
      rw [← protocols_of_getElem? hnode] at hj
      exact ih j hj (h.protocols_lt i j hj)
    obtain ⟨answer, hs⟩ := Seeks.exists_of_each heach
    exact ⟨answer, a[i], hnode, hs⟩

theorem exists_climbs (h : a.Resolves d) (hd : d.Coherent) (hi : i < d.objects.length) :
    ∃ answer, a.Climbs ancestor i answer := by
  induction i using (Declared.wellFounded_of_acyclic hd.acyclic).induction with
  | _ i ih =>
    by_cases hne : i = ancestor
    · subst hne
      exact ⟨_, .here⟩
    · rw [← h.length] at hi
      have hnode := List.getElem?_eq_getElem hi
      cases hs : a[i].superclass? with
      | none => exact ⟨_, .top hne hnode hs⟩
      | some j =>
        have hij : a.Extends i j := (superclass?_of_getElem? hnode).trans hs
        obtain ⟨answer, hj⟩ := ih j (h.names_of_extends hij) (h.superclass_lt i j hij)
        exact ⟨answer, .up hne hnode hs hj⟩

/-- A search ends with one answer, which the arena also gives. -/
theorem searches_iff (h : a.Resolves d) (hd : d.Coherent) (hi : i < d.objects.length) :
    a.Searches i target answer ↔ answer = a.adopts i target := by
  obtain ⟨found, hs⟩ : ∃ found, a.Searches i target found := h.exists_searches hd hi
  have agrees {b} (hb : a.Searches i target b) : b = a.adopts i target :=
    Bool.eq_iff_iff.2 (hb.answer_iff.trans (h.adopts_iff hd).symm)
  refine ⟨agrees, ?_⟩
  rintro rfl
  rwa [← agrees hs]

theorem climbs_iff (h : a.Resolves d) (hd : d.Coherent) (hi : i < d.objects.length) :
    a.Climbs ancestor i answer ↔ answer = a.isSubclass i ancestor := by
  obtain ⟨found, hc⟩ : ∃ found, a.Climbs ancestor i found := h.exists_climbs hd hi
  have agrees {b} (hb : a.Climbs ancestor i b) : b = a.isSubclass i ancestor :=
    Bool.eq_iff_iff.2 (hb.answer_iff.trans (h.isSubclass_iff hd hi).symm)
  refine ⟨agrees, ?_⟩
  rintro rfl
  rwa [← agrees hc]

theorem lists_of_names (h : a.Resolves d) (hij : d.Names i j) (hj : d.isClass j = false) :
    a.Lists i j := by
  rw [Lists, h.protocols, List.mem_flatMap]
  exact ⟨j, hij, by simp [hj]⟩

/-- An object lists all that a class which it names lists. -/
theorem lists_of_names_class (h : a.Resolves d) (hij : d.Names i j) (hj : d.isClass j = true)
    (hjk : a.Lists j k) : a.Lists i k := by
  rw [Lists, h.protocols, List.mem_flatMap]
  exact ⟨j, hij, by rwa [if_pos hj]⟩

/-- The protocols reached through lists are those that the declarations reach. -/
theorem transGen_lists_iff (h : a.Resolves d) (hd : d.Coherent) :
    TransGen a.Lists i j ↔ d.isProtocol j = true ∧ TransGen d.Names i j := by
  constructor
  · intro hij
    obtain ⟨k, -, hkj⟩ := TransGen.tail'_iff.1 hij
    have hle : a.Lists ≤ TransGen d.Names := fun _ _ => h.transGen_of_lists hd
    exact ⟨h.protocols_isProtocol k j hkj, TransGen.closed hle i j hij⟩
  · rintro ⟨hj, hij⟩
    induction hij using TransGen.head_induction_on with
    | single hij => exact .single (h.lists_of_names hij (Declared.isClass_of_isProtocol hj))
    | @head i k hik _ ih =>
      cases hk : d.isClass k with
      | false => exact .head (h.lists_of_names hik hk) ih
      | true =>
        obtain ⟨l, hkl, hlj⟩ := TransGen.head'_iff.1 ih
        exact .head' (h.lists_of_names_class hik hk hkl) hlj

theorem extends_iff (h : a.Resolves d) (hd : d.Coherent) :
    a.Extends i j ↔ d.NamesClass i j := by
  constructor
  · intro hij
    obtain ⟨hi, hj⟩ := h.superclass_isClass i j hij
    exact ⟨h.names_of_extends hij, hi, hj⟩
  · rintro ⟨hij, -, hj⟩
    obtain ⟨js, ks, hl⟩ := List.append_of_mem hij
    rw [Extends, h.superclass, hl, List.find?_append, hd.find?_eq_none hl.symm hj]
    simp [hj]

end Resolves

end Arena

section Programs
variable {p : Program} {chunks : List Chunk}

/-- In a resolved program both searches end and find what the declared conformances reach. -/
theorem searches_exact (h : Program.ofChunks chunks = .ok p) {i : ObjectId}
    (hi : i < p.objectCount) (j : ObjectId) :
    (∀ answer, p.arena.Searches i j answer ↔ answer = p.arena.adopts i j) ∧
      (p.arena.adopts i j = true ↔
        p.declared.isProtocol j = true ∧ TransGen p.declared.Names i j) ∧
      (∀ answer, p.arena.Climbs j i answer ↔ answer = p.arena.isSubclass i j) ∧
      (p.arena.isSubclass i j = true ↔ ReflTransGen p.declared.NamesClass i j) ∧
      ∀ k, p.arena.isSubclass i j = true → p.arena.adopts j k = true →
        p.arena.adopts i k = true := by
  obtain ⟨-, harena, -, -⟩ := ofChunks_ok h
  obtain ⟨hd, hr⟩ := ofDeclared_ok harena
  have hext : p.arena.Extends = p.declared.NamesClass :=
    funext₂ fun _ _ => propext (hr.extends_iff hd)
  refine ⟨fun _ => hr.searches_iff hd hi, (hr.adopts_iff hd).trans (hr.transGen_lists_iff hd),
    fun _ => hr.climbs_iff hd hi, ?_, fun _ => hr.adopts_of_isSubclass hd hi⟩
  rw [hr.isSubclass_iff hd hi, hext]

/-- The first class of the program gets `P` from its superclass and, once more, from `Q`. -/
theorem searches_exact_forward :
    Program.ofChunks [forwardClasses.objects.map .object] = .ok forwardProgram ∧
      0 < forwardProgram.objectCount ∧ forwardArena.Searches 0 2 true ∧
      TransGen forwardClasses.Names 0 2 ∧ forwardArena.Climbs 1 0 true ∧
      forwardArena.Climbs 3 0 false := by
  have hi : 0 < forwardProgram.objectCount := by decide
  have hp := searches_exact ofChunks_forward hi 2
  have ha := searches_exact ofChunks_forward hi 1
  have hq := searches_exact ofChunks_forward hi 3
  exact ⟨ofChunks_forward, hi, (hp.1 true).2 (by decide), (hp.2.1.1 (by decide)).2,
    (ha.2.2.1 true).2 (by decide), (hq.2.2.1 false).2 (by decide)⟩

end Programs

end ScriptFront.Program
