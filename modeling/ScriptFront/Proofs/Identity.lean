import ScriptFront.Proofs.ConformanceOrder
/-! When types are the same, where `any` stands for what is not known yet: one type matches another that
has types which are not optional in place of some of its `any`. Matching is finer than conformance the
other way round, and two types that match each other are equal. -/
namespace ScriptFront.Program

namespace Ty

/-- The second type is the first, with some of the parts that are `any` filled in. -/
inductive Matches : Ty → Ty → Prop
  | any : (∀ r, t ≠ optional r) → Matches any t
  | optional : Matches s t → Matches (optional s) (optional t)
  | array : Matches s t → Matches (array s) (array t)
  | dictionary : Matches k l → Matches v w → Matches (dictionary k v) (dictionary l w)
  | ofProtocol : Matches (ofProtocol i) (ofProtocol i)
  | ofClass : Matches (ofClass i) (ofClass i)
  | ofEnum : Matches (ofEnum i) (ofEnum i)
  | metaClass : Matches (metaClass i) (metaClass i)
  | metaProtocol : Matches (metaProtocol i) (metaProtocol i)

section
variable {s t u : Ty}

theorem matches_of_identicalTo (h : s.identicalTo t = true) : s.Matches t := by
  induction s generalizing t with
  | any =>
    refine .any fun r hr => ?_
    rw [hr] at h
    cases h
  | optional s ih =>
    cases t with
    | optional t => exact .optional (ih h)
    | _ => cases h
  | array s ih =>
    cases t with
    | array t => exact .array (ih h)
    | _ => cases h
  | dictionary k v ihk ihv =>
    cases t with
    | dictionary l w =>
      obtain ⟨hk, hv⟩ := (Bool.and_eq_true_iff).1 h
      exact .dictionary (ihk hk) (ihv hv)
    | _ => cases h
  | ofProtocol i =>
    cases t with
    | ofProtocol j =>
      obtain rfl : i = j := LawfulBEq.eq_of_beq h
      exact .ofProtocol
    | _ => cases h
  | ofClass i =>
    cases t with
    | ofClass j =>
      obtain rfl : i = j := LawfulBEq.eq_of_beq h
      exact .ofClass
    | _ => cases h
  | ofEnum i =>
    cases t with
    | ofEnum j =>
      obtain rfl : i = j := LawfulBEq.eq_of_beq h
      exact .ofEnum
    | _ => cases h
  | metaClass i =>
    cases t with
    | metaClass j =>
      obtain rfl : i = j := LawfulBEq.eq_of_beq h
      exact .metaClass
    | _ => cases h
  | metaProtocol i =>
    cases t with
    | metaProtocol j =>
      obtain rfl : i = j := LawfulBEq.eq_of_beq h
      exact .metaProtocol
    | _ => cases h

theorem Matches.identicalTo (h : s.Matches t) : s.identicalTo t = true := by
  induction h with
  | @any t ht =>
    cases t with
    | optional r => exact absurd rfl (ht r)
    | _ => rfl
  | optional _ ih | array _ ih => exact ih
  | dictionary _ _ ihk ihv => exact (Bool.and_eq_true_iff).2 ⟨ihk, ihv⟩
  | _ => exact beq_self_eq_true _

theorem identicalTo_iff : s.identicalTo t = true ↔ s.Matches t :=
  ⟨matches_of_identicalTo, Matches.identicalTo⟩

theorem matches_self (t : Ty) : t.Matches t := by
  induction t with
  | any => exact .any fun _ => Ty.noConfusion
  | optional t ih => exact .optional ih
  | array t ih => exact .array ih
  | dictionary k v ihk ihv => exact .dictionary ihk ihv
  | _ => constructor

/-- Filling in leaves a type optional or not optional. -/
theorem Matches.not_optional (h : s.Matches t) (hs : ∀ r, s ≠ Ty.optional r) (r : Ty) :
    t ≠ Ty.optional r := by
  cases h with
  | any ht => exact ht r
  | @optional s t h => exact absurd rfl (hs s)
  | _ => exact Ty.noConfusion

theorem Matches.trans (h : s.Matches t) (h' : t.Matches u) : s.Matches u := by
  induction h generalizing u with
  | any ht => exact .any (h'.not_optional ht)
  | optional _ ih =>
    cases h' with
    | optional h' => exact .optional (ih h')
  | array _ ih =>
    cases h' with
    | array h' => exact .array (ih h')
  | dictionary _ _ ihk ihv =>
    cases h' with
    | dictionary hk hv => exact .dictionary (ihk hk) (ihv hv)
  | _ => exact h'

/-- What is filled in by a type that fills it in as well is left as it is. -/
theorem Matches.antisymm (h : s.Matches t) (h' : t.Matches s) : s = t := by
  induction h with
  | any _ =>
    cases h' with
    | any _ => rfl
  | optional _ ih =>
    cases h' with
    | optional h' => rw [ih h']
  | array _ ih =>
    cases h' with
    | array h' => rw [ih h']
  | dictionary _ _ ihk ihv =>
    cases h' with
    | dictionary hk hv => rw [ihk hk, ihv hv]
  | _ => rfl

end
end Ty

/-- What fills in a type conforms to it. -/
theorem Arena.Resolves.conforms_of_matches {a : Arena} {d : Declared} (h : a.Resolves d)
    (hd : d.Coherent) {s t : Ty} (hm : s.Matches t) (hs : s.Below d.objects.length) :
    t.conforms a s = true := by
  induction hm with
  | any ht => exact Ty.conforms_any.2 ht
  | @optional s t _ ih => exact Ty.conforms_optional.2 ⟨t, rfl, ih hs⟩
  | @array s t _ ih => exact Ty.conforms_array.2 ⟨t, rfl, ih hs⟩
  | @dictionary k l v w _ _ ihk ihv =>
    exact Ty.conforms_dictionary.2 ⟨l, w, rfl, ihk hs.1, ihv hs.2⟩
  | _ => exact h.conforms_refl hd hs

section Programs
variable {p : Program} {chunks : List Syntax.Chunk}

/-- Two types that are the same conform to each other one way round, over a resolved program. Being the
same is reflexive and transitive, and it holds both ways of equal types only. -/
theorem identicalTo_refines (h : Program.ofChunks chunks = .ok p) :
    (∀ a b : Ty, a.Below p.objectCount → a.identicalTo b = true →
      b.conforms p.arena a = true) ∧
    (∀ a : Ty, a.identicalTo a = true) ∧
    (∀ a b c : Ty, a.identicalTo b = true → b.identicalTo c = true → a.identicalTo c = true) ∧
    ∀ a b : Ty, a.identicalTo b = true ∧ b.identicalTo a = true ↔ a = b := by
  obtain ⟨-, harena, -, -⟩ := ofChunks_ok h
  obtain ⟨hd, hr⟩ := ofDeclared_ok harena
  simp only [Ty.identicalTo_iff]
  refine ⟨fun a b ha hab => hr.conforms_of_matches hd hab ha, Ty.matches_self,
    fun a b c hab hbc => hab.trans hbc, fun a b => ⟨fun hab => hab.1.antisymm hab.2, ?_⟩⟩
  intro hab
  subst hab
  exact ⟨a.matches_self, a.matches_self⟩

/-- `[Any: B]` stands for the dictionary from protocols `P` to `B`, which therefore conforms to it; not
the other way round. -/
theorem identicalTo_refines_forward :
    Program.ofChunks [forwardClasses.objects.map .object] = .ok forwardProgram ∧
    (Ty.dictionary .any (.ofClass 0)).Below forwardProgram.objectCount ∧
    (Ty.dictionary .any (.ofClass 0)).identicalTo (.dictionary (.ofProtocol 2) (.ofClass 0)) =
      true ∧
    (Ty.dictionary (.ofProtocol 2) (.ofClass 0)).conforms forwardArena
      (.dictionary .any (.ofClass 0)) = true ∧
    (Ty.dictionary (.ofProtocol 2) (.ofClass 0)).identicalTo (.dictionary .any (.ofClass 0)) =
      false := by
  have hbelow : (Ty.dictionary .any (.ofClass 0)).Below forwardProgram.objectCount :=
    ⟨trivial, show 0 < 4 by decide⟩
  have hsame : (Ty.dictionary .any (.ofClass 0)).identicalTo
      (.dictionary (.ofProtocol 2) (.ofClass 0)) = true := by decide
  exact ⟨ofChunks_forward, hbelow, hsame,
    (identicalTo_refines ofChunks_forward).1 _ _ hbelow hsame, by decide⟩

end Programs
end ScriptFront.Program
