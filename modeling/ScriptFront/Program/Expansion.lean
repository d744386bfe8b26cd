import ScriptFront.Program.Ty
/-! From annotations to types. Aliases are replaced by what they stand for, so one that is met again
inside its own expansion stands for nothing. An alias is expanded once and its type is kept, so a
type that names one alias many times shares its parts. -/
namespace ScriptFront.Program
open Syntax

/-- The type of an object. -/
def Declared.objectType (d : Declared) (id : ObjectId) : Ty :=
  if d.isClass id then .ofClass id else if d.isProtocol id then .ofProtocol id else .ofEnum id

/-- The type of a name that is no alias. Objects come before `Any`. -/
def Declared.plainType (d : Declared) (index : TokenIndex) (name : String) :
    Except ResolveError Ty :=
  match d.find? name with
  | some id => .ok (d.objectType id)
  | none => if name = anyName then .ok .any else .error ⟨.undefinedType, name, index⟩

/-- The type of a class or protocol itself. -/
def metaType (index : TokenIndex) (name : String) : Ty → Except ResolveError Ty
  | .ofClass id => .ok (.metaClass id)
  | .ofProtocol id => .ok (.metaProtocol id)
  | _ => .error ⟨.noMetaType, name, index⟩

/-- The only member that a type has. -/
def metaName : String := "Type"

/-- The number of aliases that are not being expanded. -/
def Declared.unexpanded (d : Declared) (expanding : List String) : Nat :=
  d.aliases.countP (·.name ∉ expanding)

theorem Declared.unexpanded_lt {d : Declared} {name : String} {a : AliasDecl}
    {expanding : List String} (ha : d.typeAlias? name = some a) (hn : name ∉ expanding) :
    d.unexpanded (name :: expanding) < d.unexpanded expanding := by
  unfold Declared.typeAlias? at ha
  unfold Declared.unexpanded
  generalize d.aliases = aliases at ha ⊢
  induction aliases with
  | nil => simp at ha
  | cons b bs ih =>
    have mono : bs.countP (·.name ∉ name :: expanding) ≤ bs.countP (·.name ∉ expanding) :=
      List.countP_mono_left fun x _ h => by simp_all
    rw [List.countP_cons, List.countP_cons]
    by_cases hb : b.name = name
    · simp [hb, hn]
      simpa using Nat.lt_succ_of_le mono
    · have := ih (by simpa [List.find?_cons, hb] using ha)
      by_cases he : b.name ∈ expanding <;> simp_all

mutual

/-- The type of an annotation, without keeping anything. `expanding` holds the aliases whose
expansion has led here. -/
def expand (d : Declared) (expanding : List String) (t : TypeExpr) : Except ResolveError Ty :=
  match t with
  | .optional _ t => do return .optional (← expand d expanding t)
  | .array _ t => do return .array (← expand d expanding t)
  | .dictionary _ k v => do return .dictionary (← expand d expanding k) (← expand d expanding v)
  | .name i n => expandName d expanding i n
  | .member i p n =>
    if n = metaName then do metaType i p (← expandName d expanding i p)
    else .error ⟨.notAMember, n, i⟩
termination_by (d.unexpanded expanding, sizeOf t)

def expandName (d : Declared) (expanding : List String) (index : TokenIndex) (name : String) :
    Except ResolveError Ty :=
  match _ha : d.typeAlias? name with
  | some a =>
    if _hn : name ∈ expanding then .error ⟨.cyclicAlias, name, index⟩
    else expand d (name :: expanding) a.type
  | none => d.plainType index name
termination_by (d.unexpanded expanding, 0)
decreasing_by exact .left _ _ (Declared.unexpanded_lt _ha _hn)

end

/-- The types of aliases that have been expanded. -/
abbrev Expanded := List (String × Ty)

/-- A computation that keeps the types of aliases; those that it found stay known when it fails. -/
abbrev Expanding (α : Type) := ExceptT ResolveError (StateM Expanded) α

mutual

/-- The type of an annotation. -/
def typeOf (d : Declared) (expanding : List String) (t : TypeExpr) : Expanding Ty :=
  match t with
  | .optional _ t => do return .optional (← typeOf d expanding t)
  | .array _ t => do return .array (← typeOf d expanding t)
  | .dictionary _ k v => do return .dictionary (← typeOf d expanding k) (← typeOf d expanding v)
  | .name i n => typeOfName d expanding i n
  | .member i p n =>
    if n = metaName then do metaType i p (← typeOfName d expanding i p)
    else throw ⟨.notAMember, n, i⟩
termination_by (d.unexpanded expanding, sizeOf t)

def typeOfName (d : Declared) (expanding : List String) (index : TokenIndex) (name : String) :
    Expanding Ty :=
  match _ha : d.typeAlias? name with
  | some a => do
    match (← get).lookup name with
    | some t => return t
    | none =>
      if _hn : name ∈ expanding then throw ⟨.cyclicAlias, name, index⟩
      else do
        let t ← typeOf d (name :: expanding) a.type
        modify ((name, t) :: ·)
        return t
  | none => d.plainType index name
termination_by (d.unexpanded expanding, 0)
decreasing_by exact .left _ _ (Declared.unexpanded_lt _ha _hn)

end

end ScriptFront.Program
