import Mathlib.Logic.Relation
import ScriptFront.Proofs.Memo
import ScriptFront.Proofs.Resolution
/-! The types that a resolved program gives: those of its own annotations, and those that it is asked
for later. -/
namespace ScriptFront.Program
open Syntax Relation Phrase

section Tables
variable {d : Declared} {expanding : List String}

/-- The types of annotations when nothing is kept. -/
def TypeTable.expandAll (d : Declared) (annotations : List TypeExpr) :
    Except ResolveError TypeTable :=
  annotations.foldlM (fun table t => do return TypeTable.insert t.anchor (← expand d [] t) table) []

theorem Memoizes.foldlM {α β : Type} {f : α → β → List String → Except ResolveError α}
    {x : α → β → Expanding α} (h : ∀ v b, Memoizes d expanding (f v b) (x v b)) (v : α)
    (bs : List β) :
    Memoizes d expanding (fun e => bs.foldlM (fun v b => f v b e) v) (bs.foldlM x v) := by
  induction bs generalizing v with
  | nil => exact .constant (.ok v)
  | cons b bs ih =>
    simp only [List.foldlM_cons]
    exact (h v b).bind ih

theorem Memoizes.mapM {α β : Type} {f : α → List String → Except ResolveError β}
    {x : α → Expanding β} (h : ∀ v, Memoizes d expanding (f v) (x v)) (vs : List α) :
    Memoizes d expanding (fun e => vs.mapM fun v => f v e) (vs.mapM x) := by
  induction vs with
  | nil => exact .constant (.ok [])
  | cons v vs ih =>
    simp only [List.mapM_cons]
    exact (h v).bind fun _ => ih.bind fun _ => .constant _

theorem Memoizes.atTop {α : Type} {f : List String → Except ResolveError α} {x : Expanding α}
    (h : Memoizes d [] f x) : Memoizes d [] (fun _ => f []) x := by
  intro s hs ha
  have hx := h s hs ha
  exact ⟨hx.result, hx.sound, hx.apart, hx.grows, fun _ hv _ _ => hv⟩

theorem memoizes_ofAnnotations (annotations : List TypeExpr) :
    Memoizes d [] (fun _ => TypeTable.expandAll d annotations)
      (TypeTable.ofAnnotations d annotations) :=
  .atTop (.foldlM (f := fun table t e => do return TypeTable.insert t.anchor (← expand d e t) table)
    (fun _ t => (memoizes_typeOf d [] t).map) [] annotations)

end Tables

/-- The same program once it has been asked for more types. -/
def Reaches (p q : Program) : Prop := ReflTransGen (fun p q => ∃ t, q = (p.resolveType t).2) p q

/-- A type that a program gives, whatever it has been asked for before. -/
def Gives (p : Program) (t : Ty) : Prop := ∃ q a, p.Reaches q ∧ (q.resolveType a).1 = .ok t

section Programs
variable {p q : Program} {chunks : List Chunk}

theorem ofChunks_ok (h : Program.ofChunks chunks = .ok p) :
    Declared.ofChunks chunks = .ok p.declared ∧ Arena.ofDeclared p.declared = .ok p.arena ∧
      (chunks.mapM fun c => TypeTable.expandAll p.declared (annotationsOfChunk c)) = .ok p.tables ∧
      p.expanded.Sound p.declared := by
  simp only [Program.ofChunks, bind_ok] at h
  obtain ⟨d, hd, a, ha, h⟩ := h
  have hm : Memoizes d [] _ _ :=
    .mapM (fun c => memoizes_ofAnnotations (d := d) (annotationsOfChunk c)) chunks
  have hr := hm [] Expanded.sound_nil Expanded.apart_nil
  split at h
  · rename_i tables expanded hx
    cases h
    have hres := hr.result
    have hsound := hr.sound
    rw [Expanding.result, hx] at hres
    rw [Expanding.after, hx] at hsound
    exact ⟨hd, ha, hres.symm, hsound⟩
  · cases h

theorem resolveType_eq (h : p.expanded.Sound p.declared) (t : TypeExpr) :
    (p.resolveType t).1 = expand p.declared [] t ∧
      (p.resolveType t).2.expanded.Sound p.declared ∧
      (p.resolveType t).2.declared = p.declared ∧ (p.resolveType t).2.arena = p.arena := by
  have hr := memoizes_typeOf p.declared [] t p.expanded h Expanded.apart_nil
  exact ⟨hr.result, hr.sound, rfl, rfl⟩

theorem Reaches.same (h : p.Reaches q) (hp : p.expanded.Sound p.declared) :
    q.expanded.Sound q.declared ∧ q.declared = p.declared ∧ q.arena = p.arena := by
  induction h with
  | refl => exact ⟨hp, rfl, rfl⟩
  | tail _ ht ih =>
    obtain ⟨t, rfl⟩ := ht
    obtain ⟨hs, hd, ha⟩ := ih
    obtain ⟨-, hs', hd', ha'⟩ := resolveType_eq hs t
    exact ⟨hd' ▸ hs', hd'.trans hd, ha'.trans ha⟩

theorem gives_iff (hp : p.expanded.Sound p.declared) {t : Ty} :
    p.Gives t ↔ ∃ a, expand p.declared [] a = .ok t := by
  constructor
  · rintro ⟨q, a, hq, ha⟩
    obtain ⟨hs, hd, -⟩ := hq.same hp
    exact ⟨a, by rw [← hd, ← (resolveType_eq hs a).1, ha]⟩
  · rintro ⟨a, ha⟩
    exact ⟨p, a, .refl, by rw [(resolveType_eq hp a).1, ha]⟩

end Programs

/-- What holds of the types of plain names, and of each type that is built of such. -/
structure Declared.Invariant (d : Declared) (P : Ty → Prop) : Prop where
  plain : ∀ {i n t}, d.plainType i n = .ok t → P t
  metaType : ∀ {i n t u}, P t → Program.metaType i n t = .ok u → P u
  optional : ∀ {t}, P t → P (.optional t)
  array : ∀ {t}, P t → P (.array t)
  dictionary : ∀ {k v}, P k → P v → P (.dictionary k v)

namespace Declared.Invariant
variable {d : Declared} {P : Ty → Prop}

mutual

/-- An invariant holds of the type of every annotation. -/
theorem expand (hP : d.Invariant P) {expanding : List String} {a : TypeExpr} {t : Ty}
    (h : Program.expand d expanding a = .ok t) : P t := by
  cases a with
  | optional j a =>
    simp only [Program.expand, bind_ok] at h
    obtain ⟨u, hu, h⟩ := h
    cases h
    exact hP.optional (hP.expand hu)
  | array j a =>
    simp only [Program.expand, bind_ok] at h
    obtain ⟨u, hu, h⟩ := h
    cases h
    exact hP.array (hP.expand hu)
  | dictionary j k v =>
    simp only [Program.expand, bind_ok] at h
    obtain ⟨u, hu, w, hw, h⟩ := h
    cases h
    exact hP.dictionary (hP.expand hu) (hP.expand hw)
  | name j n =>
    simp only [Program.expand] at h
    exact hP.expandName h
  | member j q n =>
    simp only [Program.expand] at h
    split at h
    · obtain ⟨u, hu, h⟩ := bind_ok.1 h
      exact hP.metaType (hP.expandName hu) h
    · cases h
termination_by (d.unexpanded expanding, sizeOf a)

theorem expandName (hP : d.Invariant P) {expanding : List String} {i : TokenIndex} {n : String}
    {t : Ty} (h : Program.expandName d expanding i n = .ok t) : P t := by
  cases ha : d.typeAlias? n with
  | none =>
    rw [expandName_plain ha] at h
    exact hP.plain h
  | some a =>
    by_cases hn : n ∈ expanding
    · rw [expandName_cycle ha hn] at h
      cases h
    · rw [expandName_alias ha hn] at h
      exact hP.expand h
termination_by (d.unexpanded expanding, 0)
decreasing_by exact .left _ _ (Declared.unexpanded_lt ha hn)

end

end Declared.Invariant

/-- All objects that a type names are below `n`. -/
def Ty.Below (n : Nat) : Ty → Prop
  | any => True
  | optional t | array t => t.Below n
  | dictionary k v => k.Below n ∧ v.Below n
  | ofProtocol i | ofClass i | ofEnum i | metaClass i | metaProtocol i => i < n

section Bounds
variable {d : Declared} {i : TokenIndex} {n : String} {t u : Ty}

theorem below_objectType {id : ObjectId} (h : id < d.objects.length) :
    (d.objectType id).Below d.objects.length := by
  unfold Declared.objectType
  split
  · exact h
  · split <;> exact h

theorem below_plainType (h : d.plainType i n = .ok t) : t.Below d.objects.length := by
  unfold Declared.plainType at h
  split at h
  · rename_i id hid
    cases h
    exact below_objectType (Declared.find?_lt hid)
  · split at h
    · cases h
      trivial
    · cases h

theorem below_metaType {k : Nat} (ht : t.Below k) (h : metaType i n t = .ok u) : u.Below k := by
  unfold metaType at h
  split at h
  · cases h
    exact ht
  · cases h
    exact ht
  · cases h

theorem invariant_below (d : Declared) : d.Invariant (·.Below d.objects.length) where
  plain h := below_plainType h
  metaType ht h := below_metaType ht h
  optional h := h
  array h := h
  dictionary hk hv := ⟨hk, hv⟩

theorem below_expand {expanding : List String} {a : TypeExpr} {t : Ty}
    (h : expand d expanding a = .ok t) :
    t.Below d.objects.length :=
  (invariant_below d).expand h

end Bounds

end ScriptFront.Program
