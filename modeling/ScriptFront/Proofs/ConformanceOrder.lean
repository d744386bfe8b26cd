import ScriptFront.Proofs.Reachability
import ScriptFront.Proofs.ResolvedTypes
/-! Conformance orders the types of a resolved program. -/
namespace ScriptFront.Program
open Syntax Relation Phrase

namespace Ty
variable {a : Arena} {s t u k v : Ty} {j : ObjectId}

/-- What conforms to a type, by the form of that type. -/
def Takes (a : Arena) : Ty → Ty → Prop
  | any, s => ∀ r, s ≠ optional r
  | optional t, s => ∃ r, s = optional r ∧ r.conforms a t = true
  | array t, s => ∃ r, s = array r ∧ r.conforms a t = true
  | dictionary k v, s =>
    ∃ l w, s = dictionary l w ∧ l.conforms a k = true ∧ w.conforms a v = true
  | ofProtocol j, s => s = ofProtocol j ∨
    ∃ i, (s = ofProtocol i ∨ s = ofClass i ∨ s = ofEnum i) ∧ a.adopts i j = true
  | ofClass j, s => ∃ i, s = ofClass i ∧ a.isSubclass i j = true
  | ofEnum j, s => s = ofEnum j
  | metaClass j, s => ∃ i, s = metaClass i ∧ a.isSubclass i j = true
  | metaProtocol j, s => s = metaProtocol j ∨
    ∃ i, (s = metaProtocol i ∨ s = metaClass i) ∧ a.adopts i j = true

theorem conforms_iff : s.conforms a t = true ↔ t.Takes a s := by
  cases t <;> cases s <;> simp [conforms, Takes]

theorem conforms_optional : s.conforms a (optional t) = true ↔
    ∃ r, s = optional r ∧ r.conforms a t = true := conforms_iff

theorem conforms_any : s.conforms a any = true ↔ ∀ r, s ≠ optional r := conforms_iff

theorem conforms_array : s.conforms a (array t) = true ↔
    ∃ r, s = array r ∧ r.conforms a t = true := conforms_iff

theorem conforms_dictionary : s.conforms a (dictionary k v) = true ↔
    ∃ l w, s = dictionary l w ∧ l.conforms a k = true ∧ w.conforms a v = true := conforms_iff

theorem conforms_ofEnum : s.conforms a (ofEnum j) = true ↔ s = ofEnum j := conforms_iff

theorem conforms_ofClass : s.conforms a (ofClass j) = true ↔
    ∃ i, s = ofClass i ∧ a.isSubclass i j = true := conforms_iff

theorem conforms_metaClass : s.conforms a (metaClass j) = true ↔
    ∃ i, s = metaClass i ∧ a.isSubclass i j = true := conforms_iff

theorem conforms_ofProtocol : s.conforms a (ofProtocol j) = true ↔ s = ofProtocol j ∨
    ∃ i, (s = ofProtocol i ∨ s = ofClass i ∨ s = ofEnum i) ∧ a.adopts i j = true := conforms_iff

theorem conforms_metaProtocol : s.conforms a (metaProtocol j) = true ↔ s = metaProtocol j ∨
    ∃ i, (s = metaProtocol i ∨ s = metaClass i) ∧ a.adopts i j = true := conforms_iff

theorem optional_conforms (h : (optional s).conforms a t = true) : ∃ r, t = optional r := by
  rw [conforms_iff] at h
  cases t <;> simp_all [Takes]

theorem any_conforms (h : any.conforms a t = true) : t = any := by
  rw [conforms_iff] at h
  cases t <;> simp_all [Takes]

end Ty

namespace Arena.Resolves
variable {a : Arena} {d : Declared} {s t u : Ty} {i j k : ObjectId}

theorem isSubclass_refl (h : a.Resolves d) (hd : d.Coherent) (hi : i < d.objects.length) :
    a.isSubclass i i = true :=
  (h.isSubclass_iff hd hi).2 .refl

theorem isSubclass_trans (h : a.Resolves d) (hd : d.Coherent) (hi : i < d.objects.length)
    (hj : j < d.objects.length) (hij : a.isSubclass i j = true) (hjk : a.isSubclass j k = true) :
    a.isSubclass i k = true :=
  (h.isSubclass_iff hd hi).2 (((h.isSubclass_iff hd hi).1 hij).trans ((h.isSubclass_iff hd hj).1 hjk))

theorem isSubclass_antisymm (h : a.Resolves d) (hd : d.Coherent) (hi : i < d.objects.length)
    (hj : j < d.objects.length) (hij : a.isSubclass i j = true) (hji : a.isSubclass j i = true) :
    i = j :=
  h.extends_antisymm hd ((h.isSubclass_iff hd hi).1 hij) ((h.isSubclass_iff hd hj).1 hji)

theorem adopts_trans (h : a.Resolves d) (hd : d.Coherent) (hij : a.adopts i j = true)
    (hjk : a.adopts j k = true) : a.adopts i k = true :=
  (h.adopts_iff hd).2 (((h.adopts_iff hd).1 hij).trans ((h.adopts_iff hd).1 hjk))

theorem adopts_of_isSubclass (h : a.Resolves d) (hd : d.Coherent) (hi : i < d.objects.length)
    (hij : a.isSubclass i j = true) (hjk : a.adopts j k = true) : a.adopts i k = true :=
  (h.adopts_iff hd).2
    (h.adopts_of_subclass ((h.isSubclass_iff hd hi).1 hij) ((h.adopts_iff hd).1 hjk))

theorem adopts_asymm (h : a.Resolves d) (hd : d.Coherent) (hij : a.adopts i j = true)
    (hji : a.adopts j i = true) : False :=
  h.not_adopts_self hd ((h.adopts_iff hd).1 (h.adopts_trans hd hij hji))

theorem conforms_refl (h : a.Resolves d) (hd : d.Coherent) (ht : t.Below d.objects.length) :
    t.conforms a t = true := by
  induction t with
  | any => exact Ty.conforms_any.2 fun _ => Ty.noConfusion
  | optional t ih => exact Ty.conforms_optional.2 ⟨t, rfl, ih ht⟩
  | array t ih => exact Ty.conforms_array.2 ⟨t, rfl, ih ht⟩
  | dictionary k v ihk ihv => exact Ty.conforms_dictionary.2 ⟨k, v, rfl, ihk ht.1, ihv ht.2⟩
  | ofProtocol i => exact Ty.conforms_ofProtocol.2 (.inl rfl)
  | ofClass i => exact Ty.conforms_ofClass.2 ⟨i, rfl, h.isSubclass_refl hd ht⟩
  | ofEnum i => exact Ty.conforms_ofEnum.2 rfl
  | metaClass i => exact Ty.conforms_metaClass.2 ⟨i, rfl, h.isSubclass_refl hd ht⟩
  | metaProtocol i => exact Ty.conforms_metaProtocol.2 (.inl rfl)

/-- What conforms to the type of an object that adopts a protocol adopts it as well. -/
theorem conforms_protocol_trans (h : a.Resolves d) (hd : d.Coherent)
    (hs : s.Below d.objects.length) (hst : s.conforms a t = true)
    (htj : t.conforms a (.ofProtocol j) = true) : s.conforms a (.ofProtocol j) = true := by
  rcases Ty.conforms_ofProtocol.1 htj with rfl | ⟨i, rfl | rfl | rfl, hij⟩
  · exact hst
  · rcases Ty.conforms_ofProtocol.1 hst with rfl | ⟨k, hk, hki⟩
    · exact htj
    · exact Ty.conforms_ofProtocol.2 (.inr ⟨k, hk, h.adopts_trans hd hki hij⟩)
  · obtain ⟨k, rfl, hki⟩ := Ty.conforms_ofClass.1 hst
    exact Ty.conforms_ofProtocol.2
      (.inr ⟨k, .inr (.inl rfl), h.adopts_of_isSubclass hd hs hki hij⟩)
  · rw [Ty.conforms_ofEnum.1 hst]
    exact htj

theorem conforms_metaProtocol_trans (h : a.Resolves d) (hd : d.Coherent)
    (hs : s.Below d.objects.length) (hst : s.conforms a t = true)
    (htj : t.conforms a (.metaProtocol j) = true) : s.conforms a (.metaProtocol j) = true := by
  rcases Ty.conforms_metaProtocol.1 htj with rfl | ⟨i, rfl | rfl, hij⟩
  · exact hst
  · rcases Ty.conforms_metaProtocol.1 hst with rfl | ⟨k, hk, hki⟩
    · exact htj
    · exact Ty.conforms_metaProtocol.2 (.inr ⟨k, hk, h.adopts_trans hd hki hij⟩)
  · obtain ⟨k, rfl, hki⟩ := Ty.conforms_metaClass.1 hst
    exact Ty.conforms_metaProtocol.2 (.inr ⟨k, .inr rfl, h.adopts_of_isSubclass hd hs hki hij⟩)

theorem conforms_trans (h : a.Resolves d) (hd : d.Coherent) (hs : s.Below d.objects.length)
    (ht : t.Below d.objects.length) (hst : s.conforms a t = true) (htu : t.conforms a u = true) :
    s.conforms a u = true := by
  induction u generalizing s t with
  | any =>
    refine Ty.conforms_any.2 fun r hr => ?_
    subst hr
    obtain ⟨q, rfl⟩ := Ty.optional_conforms hst
    exact Ty.conforms_any.1 htu q rfl
  | optional u ih =>
    obtain ⟨t, rfl, htu'⟩ := Ty.conforms_optional.1 htu
    obtain ⟨s, rfl, hst'⟩ := Ty.conforms_optional.1 hst
    exact Ty.conforms_optional.2 ⟨s, rfl, ih (s := s) (t := t) hs ht hst' htu'⟩
  | array u ih =>
    obtain ⟨t, rfl, htu'⟩ := Ty.conforms_array.1 htu
    obtain ⟨s, rfl, hst'⟩ := Ty.conforms_array.1 hst
    exact Ty.conforms_array.2 ⟨s, rfl, ih (s := s) (t := t) hs ht hst' htu'⟩
  | dictionary k v ihk ihv =>
    obtain ⟨k₁, v₁, rfl, hk, hv⟩ := Ty.conforms_dictionary.1 htu
    obtain ⟨k₂, v₂, rfl, hk', hv'⟩ := Ty.conforms_dictionary.1 hst
    exact Ty.conforms_dictionary.2
      ⟨k₂, v₂, rfl, ihk hs.1 ht.1 hk' hk, ihv hs.2 ht.2 hv' hv⟩
  | ofProtocol j => exact h.conforms_protocol_trans hd hs hst htu
  | ofClass j =>
    obtain ⟨i, rfl, hij⟩ := Ty.conforms_ofClass.1 htu
    obtain ⟨k, rfl, hki⟩ := Ty.conforms_ofClass.1 hst
    exact Ty.conforms_ofClass.2 ⟨k, rfl, h.isSubclass_trans hd hs ht hki hij⟩
  | ofEnum j =>
    obtain rfl := Ty.conforms_ofEnum.1 htu
    exact hst
  | metaClass j =>
    obtain ⟨i, rfl, hij⟩ := Ty.conforms_metaClass.1 htu
    obtain ⟨k, rfl, hki⟩ := Ty.conforms_metaClass.1 hst
    exact Ty.conforms_metaClass.2 ⟨k, rfl, h.isSubclass_trans hd hs ht hki hij⟩
  | metaProtocol j => exact h.conforms_metaProtocol_trans hd hs hst htu

theorem conforms_antisymm (h : a.Resolves d) (hd : d.Coherent) (hs : s.Below d.objects.length)
    (ht : t.Below d.objects.length) (hst : s.conforms a t = true) (hts : t.conforms a s = true) :
    s = t := by
  induction t generalizing s with
  | any => exact Ty.any_conforms hts
  | optional t ih =>
    obtain ⟨s, rfl, hst'⟩ := Ty.conforms_optional.1 hst
    obtain ⟨_, ⟨⟩, hts'⟩ := Ty.conforms_optional.1 hts
    rw [ih (s := s) hs ht hst' hts']
  | array t ih =>
    obtain ⟨s, rfl, hst'⟩ := Ty.conforms_array.1 hst
    obtain ⟨_, ⟨⟩, hts'⟩ := Ty.conforms_array.1 hts
    rw [ih (s := s) hs ht hst' hts']
  | dictionary k v ihk ihv =>
    obtain ⟨l, w, rfl, hlk, hwv⟩ := Ty.conforms_dictionary.1 hst
    obtain ⟨_, _, ⟨⟩, hkl, hvw⟩ := Ty.conforms_dictionary.1 hts
    rw [ihk hs.1 ht.1 hlk hkl, ihv hs.2 ht.2 hwv hvw]
  | ofProtocol j =>
    rcases Ty.conforms_ofProtocol.1 hst with rfl | ⟨i, rfl | rfl | rfl, hij⟩
    · rfl
    · rcases Ty.conforms_ofProtocol.1 hts with heq | ⟨k, heq | heq | heq, hki⟩
      · exact heq.symm
      · cases heq
        exact (h.adopts_asymm hd hij hki).elim
      · cases heq
      · cases heq
    · obtain ⟨_, ⟨⟩, -⟩ := Ty.conforms_ofClass.1 hts
    · cases Ty.conforms_ofEnum.1 hts
  | ofClass j =>
    obtain ⟨i, rfl, hij⟩ := Ty.conforms_ofClass.1 hst
    obtain ⟨_, ⟨⟩, hji⟩ := Ty.conforms_ofClass.1 hts
    rw [h.isSubclass_antisymm hd hs ht hij hji]
  | ofEnum j => exact Ty.conforms_ofEnum.1 hst
  | metaClass j =>
    obtain ⟨i, rfl, hij⟩ := Ty.conforms_metaClass.1 hst
    obtain ⟨_, ⟨⟩, hji⟩ := Ty.conforms_metaClass.1 hts
    rw [h.isSubclass_antisymm hd hs ht hij hji]
  | metaProtocol j =>
    rcases Ty.conforms_metaProtocol.1 hst with rfl | ⟨i, rfl | rfl, hij⟩
    · rfl
    · rcases Ty.conforms_metaProtocol.1 hts with heq | ⟨k, heq | heq, hki⟩
      · exact heq.symm
      · cases heq
        exact (h.adopts_asymm hd hij hki).elim
      · cases heq
    · obtain ⟨_, ⟨⟩, -⟩ := Ty.conforms_metaClass.1 hts

end Arena.Resolves

section Programs
variable {p : Program} {chunks : List Chunk}

theorem below_of_gives (h : Program.ofChunks chunks = .ok p) {t : Ty} (ht : p.Gives t) :
    t.Below p.declared.objects.length := by
  obtain ⟨-, -, -, hs⟩ := ofChunks_ok h
  obtain ⟨a, ha⟩ := (gives_iff hs).1 ht
  exact below_expand ha

/-- Conformance is a partial order on the types that a program gives. -/
theorem conforms_partialOrder (h : Program.ofChunks chunks = .ok p) :
    (∀ a, p.Gives a → a.conforms p.arena a = true) ∧
      (∀ a b c, p.Gives a → p.Gives b → p.Gives c → a.conforms p.arena b = true →
        b.conforms p.arena c = true → a.conforms p.arena c = true) ∧
      ∀ a b, p.Gives a → p.Gives b → a.conforms p.arena b = true →
        b.conforms p.arena a = true → a = b := by
  obtain ⟨-, harena, -, -⟩ := ofChunks_ok h
  obtain ⟨hd, hr⟩ := ofDeclared_ok harena
  have below {t} (ht : p.Gives t) := below_of_gives h ht
  exact ⟨fun a ha => hr.conforms_refl hd (below ha),
    fun a b c ha hb _ => hr.conforms_trans hd (below ha) (below hb),
    fun a b ha hb => hr.conforms_antisymm hd (below ha) (below hb)⟩

def forwardProgram : Program := ⟨forwardClasses, forwardArena, [], [[]]⟩

theorem ofChunks_forward :
    Program.ofChunks [forwardClasses.objects.map .object] = .ok forwardProgram := by
  have hd : Declared.ofChunks [forwardClasses.objects.map .object] = .ok forwardClasses := by
    rfl
  rw [Program.ofChunks, hd, ok_bind, ofDeclared_forwardClasses, ok_bind]
  rfl

theorem gives_forward {n : String} {t : Ty} (h : forwardClasses.plainType 0 n = .ok t) :
    forwardProgram.Gives t := by
  refine (gives_iff Expanded.sound_nil).2 ⟨.name 0 n, ?_⟩
  rw [expand, expandName_plain (by rfl)]
  exact h

theorem conforms_partialOrder_forward :
    Program.ofChunks [forwardClasses.objects.map .object] = .ok forwardProgram ∧
      forwardProgram.Gives (.ofClass 0) ∧ forwardProgram.Gives (.ofClass 1) ∧
      forwardProgram.Gives (.ofProtocol 2) ∧
      (Ty.ofClass 0).conforms forwardArena (.ofClass 0) = true ∧
      (Ty.ofClass 0).conforms forwardArena (.ofProtocol 2) = true := by
  have h := conforms_partialOrder ofChunks_forward
  have hb : forwardProgram.Gives (.ofClass 0) := gives_forward (n := "B") (by rfl)
  have ha : forwardProgram.Gives (.ofClass 1) := gives_forward (n := "A") (by rfl)
  have hp : forwardProgram.Gives (.ofProtocol 2) := gives_forward (n := "P") (by rfl)
  exact ⟨ofChunks_forward, hb, ha, hp, h.1 _ hb,
    h.2.1 _ _ _ hb ha hp (by decide) (by decide)⟩

end Programs
end ScriptFront.Program
