import ScriptFront.Proofs.Anchor
import ScriptFront.Proofs.Collected
import ScriptFront.Proofs.ResolvedTypes
/-! Programs whose objects have other numbers and stand at other tokens. Where all that one program
declares is declared in another as well, a name stands for the same object or alias in both, and an
annotation for the same type, but for the numbers. -/
namespace ScriptFront.Program
open Syntax Phrase

variable {f : ObjectId → ObjectId}

/-- The type with other numbers for its objects. -/
def Ty.renumber (f : ObjectId → ObjectId) : Ty → Ty
  | any => .any
  | optional t => .optional (t.renumber f)
  | array t => .array (t.renumber f)
  | dictionary k v => .dictionary (k.renumber f) (v.renumber f)
  | ofProtocol i => .ofProtocol (f i)
  | ofClass i => .ofClass (f i)
  | ofEnum i => .ofEnum (f i)
  | metaClass i => .metaClass (f i)
  | metaProtocol i => .metaProtocol (f i)

@[simp] theorem Ty.renumber_id (t : Ty) : t.renumber id = t := by
  induction t with
  | any => rfl
  | optional t ih | array t ih => rw [renumber, ih]
  | dictionary k v ihk ihv => rw [renumber, ihk, ihv]
  | ofProtocol | ofClass | ofEnum | metaClass | metaProtocol => rfl

def TypeTable.renumber (f : ObjectId → ObjectId) (table : TypeTable) : TypeTable :=
  table.map fun e => (e.1, e.2.renumber f)

@[simp] theorem TypeTable.renumber_id (table : TypeTable) : table.renumber id = table := by
  simp [renumber]

section Anchors
variable {o o' : Declaration}

/-- What does not depend on the tokens is the same of two declarations that differ in them only. -/
theorem eq_of_mapAnchor {α : Type} (g : Declaration → α) (hg : ∀ o, g (o.mapAnchor forget) = g o)
    (h : o'.mapAnchor forget = o.mapAnchor forget) : g o' = g o := by
  rw [← hg o', h, hg o]

theorem name_eq_of_mapAnchor : o'.mapAnchor forget = o.mapAnchor forget → o'.name = o.name :=
  eq_of_mapAnchor _ fun o => by cases o <;> rfl

theorem isClass_eq_of_mapAnchor :
    o'.mapAnchor forget = o.mapAnchor forget → o'.isClass = o.isClass :=
  eq_of_mapAnchor _ fun o => by cases o <;> rfl

theorem isProtocol_eq_of_mapAnchor :
    o'.mapAnchor forget = o.mapAnchor forget → o'.isProtocol = o.isProtocol :=
  eq_of_mapAnchor _ fun o => by cases o <;> rfl

theorem isEnum_eq_of_mapAnchor :
    o'.mapAnchor forget = o.mapAnchor forget → o'.isEnum = o.isEnum :=
  eq_of_mapAnchor _ fun o => by cases o <;> rfl

theorem conforms_eq_of_mapAnchor :
    o'.mapAnchor forget = o.mapAnchor forget →
      o'.conforms.map (·.name) = o.conforms.map (·.name) := by
  refine eq_of_mapAnchor (fun o => o.conforms.map (·.name)) fun o => ?_
  cases o <;>
    simp [Declaration.mapAnchor, Declaration.conforms, ClassDecl.mapAnchor, ProtocolDecl.mapAnchor,
      EnumDecl.mapAnchor, Conformance.mapAnchor, Function.comp_def]

end Anchors

namespace Declared
variable {d e : Declared} {i j : ObjectId} {n : String} {a : AliasDecl}

/-- All that `d` declares is declared in `e`, perhaps at other tokens, the object `i` as the object
`f i`. -/
structure Embeds (f : ObjectId → ObjectId) (d e : Declared) : Prop where
  source : d.Distinct
  target : e.Distinct
  object : ∀ {i o}, d.objects[i]? = some o →
    ∃ o', e.objects[f i]? = some o' ∧ o'.mapAnchor forget = o.mapAnchor forget
  aliases : ∀ a ∈ d.aliases, ∃ b ∈ e.aliases, b.mapAnchor forget = a.mapAnchor forget

namespace Embeds

theorem exists_object (h : Embeds f d e) (hi : i < d.objects.length) :
    ∃ o o', d.objects[i]? = some o ∧ e.objects[f i]? = some o' ∧
      o'.mapAnchor forget = o.mapAnchor forget := by
  have ho := List.getElem?_eq_getElem hi
  obtain ⟨o', ho', hsame⟩ := h.object ho
  exact ⟨_, o', ho, ho', hsame⟩

theorem lt (h : Embeds f d e) (hi : i < d.objects.length) : f i < e.objects.length := by
  obtain ⟨o, o', -, ho', -⟩ := h.exists_object hi
  exact (List.getElem?_eq_some_iff.1 ho').1

theorem nameOf (h : Embeds f d e) (hi : i < d.objects.length) : e.nameOf (f i) = d.nameOf i := by
  obtain ⟨o, o', ho, ho', hsame⟩ := h.exists_object hi
  simp [Declared.nameOf, ho, ho', name_eq_of_mapAnchor hsame]

theorem isClass (h : Embeds f d e) (hi : i < d.objects.length) : e.isClass (f i) = d.isClass i := by
  obtain ⟨o, o', ho, ho', hsame⟩ := h.exists_object hi
  simp [Declared.isClass, ho, ho', isClass_eq_of_mapAnchor hsame]

theorem isProtocol (h : Embeds f d e) (hi : i < d.objects.length) :
    e.isProtocol (f i) = d.isProtocol i := by
  obtain ⟨o, o', ho, ho', hsame⟩ := h.exists_object hi
  simp [Declared.isProtocol, ho, ho', isProtocol_eq_of_mapAnchor hsame]

theorem isEnum (h : Embeds f d e) (hi : i < d.objects.length) : e.isEnum (f i) = d.isEnum i := by
  obtain ⟨o, o', ho, ho', hsame⟩ := h.exists_object hi
  simp [Declared.isEnum, ho, ho', isEnum_eq_of_mapAnchor hsame]

theorem conforms (h : Embeds f d e) (hi : i < d.objects.length) :
    (e.conforms (f i)).map (·.name) = (d.conforms i).map (·.name) := by
  obtain ⟨o, o', ho, ho', hsame⟩ := h.exists_object hi
  simpa [Declared.conforms, ho, ho'] using conforms_eq_of_mapAnchor hsame

theorem find? (h : Embeds f d e) (hn : d.find? n = some i) : e.find? n = some (f i) := by
  have hi := find?_lt hn
  rw [← nameOf_of_find? hn, ← h.nameOf hi]
  exact h.target.find?_nameOf (h.lt hi)

/-- Objects with one number have one name. -/
theorem injective (h : Embeds f d e) (hi : i < d.objects.length) (hj : j < d.objects.length)
    (hij : f i = f j) : i = j := by
  have hn : d.nameOf i = d.nameOf j := by rw [← h.nameOf hi, hij, h.nameOf hj]
  have hfi := h.source.find?_nameOf hi
  rw [hn, h.source.find?_nameOf hj] at hfi
  exact (Option.some.inj hfi).symm

theorem beq_eq (h : Embeds f d e) (hi : i < d.objects.length) (hj : j < d.objects.length) :
    (f i == f j) = (i == j) := by
  rw [Bool.eq_iff_iff, beq_iff_eq, beq_iff_eq]
  exact ⟨h.injective hi hj, congrArg f⟩

theorem typeAlias? (h : Embeds f d e) (ha : d.typeAlias? n = some a) :
    ∃ b, e.typeAlias? n = some b ∧ b.type.mapAnchor forget = a.type.mapAnchor forget := by
  obtain ⟨hmem, hn⟩ := h.source.typeAlias?_iff.1 ha
  obtain ⟨b, hb, hsame⟩ := h.aliases a hmem
  have hname : (b.mapAnchor forget).name = (a.mapAnchor forget).name := congrArg _ hsame
  exact ⟨b, h.target.typeAlias?_iff.2 ⟨hb, hname.trans hn⟩, congrArg AliasDecl.type hsame⟩

theorem objectType (h : Embeds f d e) (hi : i < d.objects.length) :
    e.objectType (f i) = (d.objectType i).renumber f := by
  rw [Declared.objectType, h.isClass hi, h.isProtocol hi, Declared.objectType]
  split
  · rfl
  · split <;> rfl

/-- An object or `Any` is no alias in `e` either. -/
theorem plainType (h : Embeds f d e) {k : TokenIndex} {t : Ty} (ht : d.plainType k n = .ok t) :
    e.typeAlias? n = none ∧ e.plainType k n = .ok (t.renumber f) := by
  rw [Declared.plainType] at ht
  split at ht
  · next i hn =>
    cases ht
    have hi := find?_lt hn
    have hnone := h.target.typeAlias?_nameOf (h.lt hi)
    rw [h.nameOf hi, nameOf_of_find? hn] at hnone
    rw [Declared.plainType, h.find? hn]
    exact ⟨hnone, congrArg Except.ok (h.objectType hi)⟩
  · split at ht
    · next hany =>
      cases ht
      subst hany
      rw [Declared.plainType, h.target.any.1]
      exact ⟨h.target.any.2, rfl⟩
    · cases ht

end Embeds
end Declared

section Anchors
variable {d : Declared} {expanding : List String} {k : TokenIndex} {n : String} {t u : Ty}

theorem plainType_of_ok (k' : TokenIndex) (h : d.plainType k n = .ok t) :
    d.plainType k' n = .ok t := by
  rw [Declared.plainType] at h ⊢
  split at h
  · exact h
  · split at h
    · next hn => rw [if_pos hn, h]
    · cases h

theorem metaType_of_ok (k' : TokenIndex) (h : metaType k n t = .ok u) :
    metaType k' n t = .ok u := by
  unfold metaType at h ⊢
  split at h
  · exact h
  · exact h
  · cases h

theorem expandName_of_ok (k' : TokenIndex) (h : expandName d expanding k n = .ok t) :
    expandName d expanding k' n = .ok t := by
  cases ha : d.typeAlias? n with
  | none =>
    rw [expandName_plain ha] at h ⊢
    exact plainType_of_ok k' h
  | some a =>
    by_cases hn : n ∈ expanding
    · rw [expandName_cycle ha hn] at h
      cases h
    · rwa [expandName_alias ha hn] at h ⊢

/-- The tokens of an annotation show in errors only. -/
theorem expand_of_mapAnchor {a b : TypeExpr} (hab : b.mapAnchor forget = a.mapAnchor forget)
    (h : expand d expanding a = .ok t) : expand d expanding b = .ok t := by
  induction a generalizing b t with
  | name k n =>
    cases b <;> cases hab
    rw [expand] at h ⊢
    exact expandName_of_ok _ h
  | member k p n =>
    cases b <;> cases hab
    rw [expand] at h ⊢
    split at h
    · next hn =>
      obtain ⟨u, hu, h⟩ := bind_ok.1 h
      rw [if_pos hn, expandName_of_ok _ hu]
      exact metaType_of_ok _ h
    · cases h
  | optional k a ih | array k a ih =>
    cases b <;> simp only [TypeExpr.mapAnchor, reduceCtorEq] at hab
    injection hab with _ hab
    rw [expand] at h ⊢
    obtain ⟨u, hu, h⟩ := bind_ok.1 h
    rw [ih hab hu]
    exact h
  | dictionary k a a' ih ih' =>
    cases b <;> simp only [TypeExpr.mapAnchor, reduceCtorEq] at hab
    injection hab with _ hab hab'
    rw [expand] at h ⊢
    obtain ⟨u, hu, h⟩ := bind_ok.1 h
    obtain ⟨v, hv, h⟩ := bind_ok.1 h
    rw [ih hab hu, ok_bind, ih' hab' hv]
    exact h

end Anchors

theorem metaType_renumber {k : TokenIndex} {n : String} {t u : Ty} (h : metaType k n t = .ok u) :
    metaType k n (t.renumber f) = .ok (u.renumber f) := by
  unfold metaType at h
  split at h
  · cases h
    rfl
  · cases h
    rfl
  · cases h

namespace Declared.Embeds
variable {d e : Declared}

mutual

theorem expand (h : Embeds f d e) {expanding : List String} {a : TypeExpr} {t : Ty}
    (ht : Program.expand d expanding a = .ok t) :
    Program.expand e expanding a = .ok (t.renumber f) := by
  cases a with
  | optional k a | array k a =>
    simp only [Program.expand, bind_ok] at ht
    obtain ⟨u, hu, ht⟩ := ht
    cases ht
    rw [Program.expand, h.expand hu]
    rfl
  | dictionary k a b =>
    simp only [Program.expand, bind_ok] at ht
    obtain ⟨u, hu, v, hv, ht⟩ := ht
    cases ht
    rw [Program.expand, h.expand hu, ok_bind, h.expand hv]
    rfl
  | name k n =>
    rw [Program.expand] at ht ⊢
    exact h.expandName ht
  | member k p n =>
    rw [Program.expand] at ht ⊢
    split at ht
    · next hn =>
      obtain ⟨u, hu, ht⟩ := bind_ok.1 ht
      rw [if_pos hn, h.expandName hu]
      exact metaType_renumber ht
    · cases ht
termination_by (d.unexpanded expanding, sizeOf a)

theorem expandName (h : Embeds f d e) {expanding : List String} {k : TokenIndex} {n : String}
    {t : Ty} (ht : Program.expandName d expanding k n = .ok t) :
    Program.expandName e expanding k n = .ok (t.renumber f) := by
  cases ha : d.typeAlias? n with
  | none =>
    rw [expandName_plain ha] at ht
    obtain ⟨hnone, ht⟩ := h.plainType ht
    rw [expandName_plain hnone, ht]
  | some a =>
    by_cases hn : n ∈ expanding
    · rw [expandName_cycle ha hn] at ht
      cases ht
    · rw [expandName_alias ha hn] at ht
      obtain ⟨b, hb, hsame⟩ := h.typeAlias? ha
      rw [expandName_alias hb hn]
      exact expand_of_mapAnchor hsame (h.expand ht)
termination_by (d.unexpanded expanding, 0)
decreasing_by exact .left _ _ (Declared.unexpanded_lt ha hn)

end

end Declared.Embeds

namespace TypeTable
variable {d e : Declared} {table : TypeTable} {annotations : List TypeExpr}

theorem insert_renumber (k : TokenIndex) (t : Ty) (table : TypeTable) :
    insert k (t.renumber f) (table.renumber f) = (insert k t table).renumber f := by
  induction table with
  | nil => rfl
  | cons entry table ih =>
    obtain ⟨j, u⟩ := entry
    simp only [renumber, List.map_cons, insert] at ih ⊢
    split
    · rfl
    · split
      · rfl
      · rw [ih, List.map_cons]

theorem expandAll_renumber (h : d.Embeds f e) (ht : expandAll d annotations = .ok table) :
    expandAll e annotations = .ok (table.renumber f) := by
  unfold expandAll at ht ⊢
  rw [show ([] : TypeTable) = TypeTable.renumber f [] from rfl]
  generalize ([] : TypeTable) = start at ht ⊢
  induction annotations generalizing start with
  | nil =>
    cases ht
    rfl
  | cons a annotations ih =>
    rw [List.foldlM_cons] at ht ⊢
    simp only [bind_ok] at ht
    obtain ⟨_, ⟨u, hu, h₁⟩, ht⟩ := ht
    cases h₁
    rw [h.expand hu, ok_bind]
    have := ih _ ht
    rw [← insert_renumber] at this
    exact this

end TypeTable

end ScriptFront.Program
