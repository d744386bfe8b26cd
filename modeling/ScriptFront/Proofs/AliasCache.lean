import ScriptFront.Proofs.ResolvedTypes
/-! Expanding aliases with a stack that is pushed and popped. An error leaves the stack as it is, and
the aliases that are kept come first, but neither shows: the type or error is the one that is found
when nothing is kept. -/
namespace ScriptFront.Program
open Syntax Phrase

/-- What changes while a type is found: the aliases that are kept and those being expanded. -/
structure Expansion where
  expanded : Expanded
  stack : List String

namespace Expansion

def push (s : Expansion) (n : String) : Expansion := ⟨s.expanded, n :: s.stack⟩
def pop (s : Expansion) : Expansion := ⟨s.expanded, s.stack.tail⟩
def keep (s : Expansion) (n : String) (t : Ty) : Expansion := ⟨(n, t) :: s.expanded, s.stack⟩

end Expansion

/-- `Expands d t s r s'` says that the type of the annotation `t` is asked for in the state `s` and `r`
is found, and `s'` is left. -/
inductive Expands (d : Declared) :
    TypeExpr → Expansion → Except ResolveError Ty → Expansion → Prop
  | optional : Expands d t s r s' → Expands d (.optional i t) s (r.map .optional) s'
  | array : Expands d t s r s' → Expands d (.array i t) s (r.map .array) s'
  | dictionary : Expands d k s (.ok u) s₁ → Expands d v s₁ r s₂ →
    Expands d (.dictionary i k v) s (r.map (.dictionary u)) s₂
  | keyFails : Expands d k s (.error e) s' → Expands d (.dictionary i k v) s (.error e) s'
  | member : Expands d (.name i p) s r s' →
    Expands d (.member i p metaName) s (r.bind (metaType i p)) s'
  | notAMember : n ≠ metaName → Expands d (.member i p n) s (.error ⟨.notAMember, n, i⟩) s
  | plain : d.typeAlias? n = none → Expands d (.name i n) s (d.plainType i n) s
  | kept : d.typeAlias? n = some a → s.expanded.lookup n = some t →
    Expands d (.name i n) s (.ok t) s
  | cyclic : d.typeAlias? n = some a → s.expanded.lookup n = none → n ∈ s.stack →
    Expands d (.name i n) s (.error ⟨.cyclicAlias, n, i⟩) s
  | expanded : d.typeAlias? n = some a → s.expanded.lookup n = none → n ∉ s.stack →
    Expands d a.type (s.push n) (.ok t) s' → Expands d (.name i n) s (.ok t) (s'.pop.keep n t)
  | expansionFails : d.typeAlias? n = some a → s.expanded.lookup n = none → n ∉ s.stack →
    Expands d a.type (s.push n) (.error e) s' → Expands d (.name i n) s (.error e) s'

/-- `Asks d t s u s'` says that finding the type of `t` in `s` asks for the type of `u` in `s'`. -/
inductive Asks (d : Declared) : TypeExpr → Expansion → TypeExpr → Expansion → Prop
  | optional : Asks d (.optional i t) s t s
  | array : Asks d (.array i t) s t s
  | key : Asks d (.dictionary i k v) s k s
  | value : Expands d k s (.ok u) s' → Asks d (.dictionary i k v) s v s'
  | member : Asks d (.member i p metaName) s (.name i p) s
  | expanded : d.typeAlias? n = some a → s.expanded.lookup n = none → n ∉ s.stack →
    Asks d (.name i n) s a.type (s.push n)

/-- The states in which a type is asked for or has been found. Nothing is kept at first, and the
stack is empty whenever a type is asked for from outside, also after a failure. -/
inductive Arises (d : Declared) : Expansion → Prop
  | start : Arises d ⟨[], []⟩
  | asked : Arises d s → Asks d t s u s' → Arises d s'
  | found : Arises d s → Expands d t s r s' → Arises d s'
  | again : Arises d s → Arises d ⟨s.expanded, []⟩

section Expands
variable {d : Declared} {t u : TypeExpr} {s s' : Expansion} {r : Except ResolveError Ty}

/-- Only an error leaves something on the stack. -/
theorem Expands.stack (h : Expands d t s r s') : ∀ v, r = .ok v → s'.stack = s.stack := by
  induction h with
  | optional _ ih | array _ ih =>
    intro v hv
    obtain ⟨w, hw, -⟩ := map_ok.1 hv
    exact ih w hw
  | dictionary _ _ ihk ihv =>
    intro v hv
    obtain ⟨w, hw, -⟩ := map_ok.1 hv
    exact (ihv w hw).trans (ihk _ rfl)
  | member _ ih =>
    intro v hv
    obtain ⟨w, hw, -⟩ := bind_ok.1 hv
    exact ih w hw
  | expanded _ _ _ _ ih =>
    intro v hv
    exact congrArg List.tail (ih _ rfl)
  | plain | kept => exact fun _ _ => rfl
  | keyFails | notAMember | cyclic | expansionFails =>
    intro v hv
    cases hv

/-- What is found, and what is kept then, is what `typeOf` gives. -/
theorem Expands.run_typeOf (h : Expands d t s r s') :
    (typeOf d s.stack t).run.run s.expanded = (r, s'.expanded) := by
  have hget (y : Expanded → Expanding Ty) (s : Expanded) :
      (get >>= y).run.run s = (y s).run.run s := rfl
  induction h with
  | @optional t s r s' i _ ih | @array t s r s' i _ ih =>
    rw [typeOf, Expanding.run_bind, ih]
    cases r <;> rfl
  | @dictionary k s u s₁ v r s₂ i hk _ ihk ihv =>
    rw [hk.stack _ rfl] at ihv
    rw [typeOf, Expanding.run_bind, ihk]
    simp only []
    rw [Expanding.run_bind, ihv]
    cases r <;> rfl
  | keyFails _ ih => rw [typeOf, Expanding.run_bind, ih]
  | @member i p s r s' _ ih =>
    rw [typeOf] at ih
    rw [typeOf, if_pos rfl, Expanding.run_bind, ih]
    cases r with
    | ok u => exact Expanding.run_liftM _
    | error e => rfl
  | notAMember hn =>
    rw [typeOf, if_neg hn]
    rfl
  | plain ha =>
    rw [typeOf, typeOfName_plain ha]
    exact Expanding.run_liftM _
  | kept ha hl =>
    rw [typeOf, typeOfName_alias ha, hget, hl]
    rfl
  | cyclic ha hl hn =>
    rw [typeOf, typeOfName_alias ha, hget, hl]
    simp only [if_pos hn]
    rfl
  | expanded ha hl hn _ ih =>
    rw [typeOf, typeOfName_alias ha, hget, hl]
    simp only [if_neg hn]
    rw [Expanding.run_bind]
    simp only [Expansion.push] at ih
    rw [ih]
    rfl
  | expansionFails ha hl hn _ ih =>
    rw [typeOf, typeOfName_alias ha, hget, hl]
    simp only [if_neg hn]
    rw [Expanding.run_bind]
    simp only [Expansion.push] at ih
    rw [ih]

theorem Asks.lt (h : Asks d t s u s') : Prod.Lex (· < ·) (· < ·)
    (d.unexpanded s'.stack, sizeOf u) (d.unexpanded s.stack, sizeOf t) := by
  cases h with
  | optional | array | key =>
    refine .right _ ?_
    simp only [TypeExpr.optional.sizeOf_spec, TypeExpr.array.sizeOf_spec,
      TypeExpr.dictionary.sizeOf_spec]
    omega
  | value hk =>
    rw [hk.stack _ rfl]
    refine .right _ ?_
    simp only [TypeExpr.dictionary.sizeOf_spec]
    omega
  | member =>
    have : 0 < sizeOf metaName := by decide
    refine .right _ ?_
    simp only [TypeExpr.member.sizeOf_spec, TypeExpr.name.sizeOf_spec]
    omega
  | expanded ha _ hn => exact .left _ _ (Declared.unexpanded_lt ha hn)

/-- No annotation is asked for again and again, not even through aliases that are cyclic. -/
theorem wellFounded_asks (d : Declared) :
    WellFounded fun (x y : TypeExpr × Expansion) => Asks d y.1 y.2 x.1 x.2 := by
  let size (x : TypeExpr × Expansion) : Nat × Nat := (d.unexpanded x.2.stack, sizeOf x.1)
  have hlex := WellFounded.prod_lex Nat.lt_wfRel.wf Nat.lt_wfRel.wf
  exact Subrelation.wf (fun h => Asks.lt h) (InvImage.wf size hlex)

/-- Something is found for every annotation in every state. -/
theorem exists_expands (d : Declared) (t : TypeExpr) (s : Expansion) :
    ∃ r s', Expands d t s r s' := by
  refine (wellFounded_asks d).induction (C := fun x => ∃ r s', Expands d x.1 x.2 r s') (t, s) ?_
  rintro ⟨t, s⟩ ih
  have ask {u s'} (h : Asks d t s u s') : ∃ r s'', Expands d u s' r s'' := ih (u, s') h
  cases t with
  | optional i t =>
    obtain ⟨r, s', h⟩ := ask .optional
    exact ⟨_, _, .optional h⟩
  | array i t =>
    obtain ⟨r, s', h⟩ := ask .array
    exact ⟨_, _, .array h⟩
  | dictionary i k v =>
    obtain ⟨r, s', hk⟩ := ask .key
    cases r with
    | error e => exact ⟨_, _, .keyFails hk⟩
    | ok u =>
      obtain ⟨r, s'', hv⟩ := ask (.value hk)
      exact ⟨_, _, .dictionary hk hv⟩
  | member i p n =>
    by_cases hn : n = metaName
    · subst hn
      obtain ⟨r, s', h⟩ := ask .member
      exact ⟨_, _, .member h⟩
    · exact ⟨_, _, .notAMember hn⟩
  | name i n =>
    cases ha : d.typeAlias? n with
    | none => exact ⟨_, _, .plain ha⟩
    | some a =>
      cases hl : s.expanded.lookup n with
      | some u => exact ⟨_, _, .kept ha hl⟩
      | none =>
        by_cases hn : n ∈ s.stack
        · exact ⟨_, _, .cyclic ha hl hn⟩
        · obtain ⟨r, s', h⟩ := ask (.expanded ha hl hn)
          cases r with
          | ok u => exact ⟨_, _, .expanded ha hl hn h⟩
          | error e => exact ⟨_, _, .expansionFails ha hl hn h⟩

end Expands

/-- The kept types are those of aliases, one for each of them, found with nothing kept. -/
structure Expanded.Exact (d : Declared) (s : Expanded) : Prop where
  once : (s.map Prod.fst).Nodup
  isExpansion : ∀ n t, (n, t) ∈ s → ∃ a, d.typeAlias? n = some a ∧ expand d [n] a.type = .ok t

/-- What is kept may be used, and no alias is kept while it is being expanded. -/
structure Expansion.Valid (d : Declared) (s : Expansion) : Prop where
  kept : s.expanded.Exact d
  sound : s.expanded.Sound d
  apart : s.expanded.Apart s.stack

section Valid
variable {d : Declared} {t : TypeExpr} {s s' : Expansion} {r : Except ResolveError Ty} {n : String}

theorem Expanded.Exact.keep {s : Expanded} {a : AliasDecl} {v : Ty} (hs : s.Exact d)
    (ha : d.typeAlias? n = some a) (hl : s.lookup n = none) (hv : expand d [n] a.type = .ok v) :
    Expanded.Exact d ((n, v) :: s) where
  once := by
    refine List.nodup_cons.2 ⟨fun hn => ?_, hs.once⟩
    obtain ⟨p, hp, rfl⟩ := List.mem_map.1 hn
    exact bne_iff_ne.1 (List.lookup_eq_none_iff.1 hl p hp) rfl
  isExpansion := by
    intro m w hm
    rcases List.mem_cons.1 hm with h | h
    · cases h
      exact ⟨a, ha, hv⟩
    · exact hs.isExpansion m w h

/-- The cache-free type is found, wherever no alias that is kept by then is being expanded. -/
theorem Expands.runs (h : Expands d t s r s') (hs : s.Valid d) :
    r = expand d s.stack t ∧
      ∀ v, r = .ok v → ∀ others, s'.expanded.Apart others → expand d others t = .ok v := by
  have hm := memoizes_typeOf d s.stack t s.expanded hs.sound hs.apart
  have hr := hm.result
  have hf := hm.settled
  rw [Expanding.result, h.run_typeOf] at hr
  rw [Expanding.after, h.run_typeOf] at hf
  exact ⟨hr, fun v hv => hf v (hr.symm.trans hv)⟩

theorem Expansion.Valid.push (hs : s.Valid d) (h : s.expanded.lookup n = none) :
    (s.push n).Valid d :=
  ⟨hs.kept, hs.sound, Expanded.apart_cons.2 ⟨h, hs.apart⟩⟩

theorem Expands.valid (h : Expands d t s r s') (hs : s.Valid d) : s'.Valid d := by
  induction h with
  | optional _ ih | array _ ih | keyFails _ ih | member _ ih => exact ih hs
  | dictionary _ _ ihk ihv => exact ihv (ihk hs)
  | notAMember | plain | kept | cyclic => exact hs
  | expansionFails _ hl _ _ ih => exact ih (hs.push hl)
  | @expanded n a v s' i s ha hl hn h ih =>
    have hp := hs.push hl
    have hs' := ih hp
    have hst : s'.stack = n :: s.stack := h.stack v rfl
    have hf := (h.runs hp).2 v rfl
    -- The alias has been on the stack all the time, so its own expansion has not kept it.
    have hap : s'.expanded.Apart (n :: s.stack) := hst ▸ hs'.apart
    obtain ⟨hnone, hap⟩ := Expanded.apart_cons.1 hap
    have hone : s'.expanded.Apart [n] := Expanded.apart_cons.2 ⟨hnone, Expanded.apart_nil⟩
    refine ⟨hs'.kept.keep ha hnone (hf [n] hone), ?_, ?_⟩
    · exact hs'.sound.keep ha hnone fun others => hf (n :: others)
    · simp only [Expansion.keep, Expansion.pop, hst]
      exact hap.keep hn

theorem Arises.valid (h : Arises d s) : s.Valid d := by
  induction h with
  | start =>
    have hkept : Expanded.Exact d [] := ⟨List.nodup_nil, fun _ _ h => by cases h⟩
    exact ⟨hkept, Expanded.sound_nil, Expanded.apart_nil⟩
  | asked _ ha ih =>
    cases ha with
    | optional | array | key | member => exact ih
    | value hk => exact hk.valid ih
    | expanded _ hl _ => exact ih.push hl
  | found _ hx ih => exact hx.valid ih
  | again _ ih => exact ⟨ih.kept, ih.sound, Expanded.apart_nil⟩

end Valid

namespace Expanding
variable {α β : Type} {P : Expanded → Prop}

theorem run_pure (v : α) (s : Expanded) : (pure v : Expanding α).run.run s = (.ok v, s) := rfl

/-- Whatever it gives, a computation keeps `P`. -/
def Keeps (P : Expanded → Prop) (x : Expanding α) : Prop := ∀ s, P s → P (x.after s)

theorem Keeps.constant (r : Except ResolveError α) : Keeps P (liftM r : Expanding α) := by
  intro s hs
  rw [after, run_liftM]
  exact hs

theorem Keeps.bind {x : Expanding α} {f : α → Expanding β} (hx : Keeps P x)
    (hf : ∀ v, Keeps P (f v)) : Keeps P (x >>= f) := by
  intro s hs
  have h := hx s hs
  cases hr : x.result s with
  | error e =>
    rw [after, run_bind_error hr]
    exact h
  | ok v =>
    rw [after, run_bind_ok hr]
    exact hf v _ h

theorem Keeps.foldlM {f : α → β → Expanding α} (h : ∀ v b, Keeps P (f v b)) (v : α) (bs : List β) :
    Keeps P (bs.foldlM f v) := by
  induction bs generalizing v with
  | nil => exact .constant (.ok v)
  | cons b bs ih =>
    rw [List.foldlM_cons]
    exact (h v b).bind ih

theorem Keeps.mapM {f : α → Expanding β} (h : ∀ v, Keeps P (f v)) (vs : List α) :
    Keeps P (vs.mapM f) := by
  induction vs with
  | nil => exact .constant (.ok [])
  | cons v vs ih =>
    rw [List.mapM_cons]
    exact (h v).bind fun _ => ih.bind fun _ => .constant (.ok _)

end Expanding

/-- What chunks resolve to when nothing is kept. -/
def uncached (chunks : List Chunk) : Except ResolveError (Declared × Arena × List TypeTable) := do
  let d ← Declared.ofChunks chunks
  let arena ← Arena.ofDeclared d
  let tables ← chunks.mapM fun c => TypeTable.expandAll d (annotationsOfChunk c)
  return (d, arena, tables)

section Programs
variable {p q : Program} {chunks : List Chunk}

theorem keeps_arises (d : Declared) (t : TypeExpr) :
    Expanding.Keeps (fun s => Arises d ⟨s, []⟩) (typeOf d [] t) := by
  intro s hs
  obtain ⟨r, s', h⟩ := exists_expands d t ⟨s, []⟩
  rw [Expanding.after, h.run_typeOf]
  exact (hs.found h).again

theorem arises_ofChunks (h : Program.ofChunks chunks = .ok p) :
    Arises p.declared ⟨p.expanded, []⟩ := by
  simp only [Program.ofChunks, bind_ok] at h
  obtain ⟨d, -, a, -, h⟩ := h
  have hk : Expanding.Keeps (fun s => Arises d ⟨s, []⟩) (chunks.mapM fun c =>
      TypeTable.ofAnnotations d (annotationsOfChunk c)) :=
    .mapM (fun c => .foldlM (fun _ t => (keeps_arises d t).bind fun _ => .constant (.ok _)) [] _) _
  have hs := hk [] .start
  split at h
  · rename_i tables expanded hx
    cases h
    rw [Expanding.after, hx] at hs
    exact hs
  · cases h

theorem ofChunks_uncached (chunks : List Chunk) :
    (Program.ofChunks chunks).map (fun p => (p.declared, p.arena, p.tables)) = uncached chunks := by
  unfold Program.ofChunks uncached
  cases Declared.ofChunks chunks with
  | error e => rfl
  | ok d =>
    simp only [ok_bind]
    cases Arena.ofDeclared d with
    | error e => rfl
    | ok a =>
      have hm : Memoizes d [] _ _ :=
        .mapM (fun c => memoizes_ofAnnotations (d := d) (annotationsOfChunk c)) chunks
      have hr := (hm [] Expanded.sound_nil Expanded.apart_nil).result
      rw [Expanding.result] at hr
      simp only [ok_bind, ← hr]
      split <;> rename_i hx <;> rw [hx] <;> rfl

theorem uncached_error_iff {e : ResolveError} :
    uncached chunks = .error e ↔ Program.ofChunks chunks = .error e := by
  rw [← ofChunks_uncached]
  cases Program.ofChunks chunks <;> simp [Except.map]

/-- A program fails where declarations are collected, where conformances are resolved or at an
annotation. -/
theorem phase_of_error {e : ResolveError} (h : Program.ofChunks chunks = .error e) :
    Declared.ofChunks chunks = .error e ∨ ∃ d, Declared.ofChunks chunks = .ok d ∧
      (Arena.ofDeclared d = .error e ∨
        chunks.mapM (fun c => TypeTable.expandAll d (annotationsOfChunk c)) = .error e) := by
  rw [← uncached_error_iff, uncached] at h
  rcases error_of_bind h with hd | ⟨d, hd, h⟩
  · exact .inl hd
  rcases error_of_bind h with ha | ⟨a, ha, h⟩
  · exact .inr ⟨d, hd, .inl ha⟩
  rcases error_of_bind h with ht | ⟨tables, ht, h⟩
  · exact .inr ⟨d, hd, .inr ht⟩
  · cases h

theorem Reaches.arises (h : p.Reaches q) (hp : Arises p.declared ⟨p.expanded, []⟩) :
    Arises q.declared ⟨q.expanded, []⟩ := by
  induction h with
  | refl => exact hp
  | tail _ ht ih =>
    obtain ⟨t, rfl⟩ := ht
    exact keeps_arises _ t _ ih

/-- Keeping aliases does not show. Whatever is asked for comes to an end, and in each state that
arises in a program or while it is resolved, every type and every error is the one that is found
when nothing is kept; so are the types that are kept. -/
theorem expands_uncached (d : Declared) (chunks : List Chunk) :
    (WellFounded fun (x y : TypeExpr × Expansion) => Asks d y.1 y.2 x.1 x.2) ∧
    (∀ t s, ∃ r s', Expands d t s r s') ∧
    (∀ t s r s', Expands d t s r s' →
      (typeOf d s.stack t).run.run s.expanded = (r, s'.expanded)) ∧
    (∀ s, Arises d s → s.expanded.Exact d ∧
      ∀ t r s', Expands d t s r s' → r = expand d s.stack t) ∧
    (Program.ofChunks chunks).map (fun p => (p.declared, p.arena, p.tables)) = uncached chunks ∧
    ∀ p q, Program.ofChunks chunks = .ok p → p.Reaches q →
      q.expanded.Exact q.declared ∧ ∀ t, (q.resolveType t).1 = expand q.declared [] t := by
  refine ⟨wellFounded_asks d, exists_expands d, fun _ _ _ _ h => h.run_typeOf, fun s hs => ?_,
    ofChunks_uncached chunks, fun p q hp hq => ?_⟩
  · exact ⟨hs.valid.kept, fun t r s' h => (h.runs hs.valid).1⟩
  · have hv := (hq.arises (arises_ofChunks hp)).valid
    exact ⟨hv.kept, fun t => (resolveType_eq hv.sound t).1⟩

/-- `typealias A = [B: C] typealias B = Any typealias C = A?` -/
def cyclicAliases : Declared := ⟨[], [⟨1, "A", .dictionary 3 (.name 4 "B") (.name 6 "C")⟩,
  ⟨9, "B", .name 11 "Any"⟩, ⟨13, "C", .optional 15 (.name 15 "A")⟩]⟩

/-- What is left when `A` has failed: `B` is kept, and `C` and `A` are still on the stack. -/
def failedExpansion : Expansion := ⟨[("B", .any)], ["C", "A"]⟩

theorem expands_cyclicAliases : Expands cyclicAliases (.name 0 "A") ⟨[], []⟩
    (.error ⟨.cyclicAlias, "A", 15⟩) failedExpansion := by
  have hany : Expands cyclicAliases (.name 11 "Any") ⟨[], ["B", "A"]⟩ (.ok .any) ⟨[], ["B", "A"]⟩ :=
    .plain (by rfl)
  have hb : Expands cyclicAliases (.name 4 "B") ⟨[], ["A"]⟩ (.ok .any) _ :=
    .expanded (by rfl) (by rfl) (by decide) hany
  have hcycle : Expands cyclicAliases (.name 15 "A") ⟨[("B", .any)], ["C", "A"]⟩
      (.error ⟨.cyclicAlias, "A", 15⟩) failedExpansion := .cyclic (by rfl) (by rfl) (by decide)
  have hoptional : Expands cyclicAliases (.optional 15 (.name 15 "A")) ⟨[("B", .any)], ["C", "A"]⟩
      (.error ⟨.cyclicAlias, "A", 15⟩) failedExpansion := .optional hcycle
  have hc : Expands cyclicAliases (.name 6 "C") ⟨[("B", .any)], ["A"]⟩
      (.error ⟨.cyclicAlias, "A", 15⟩) failedExpansion :=
    .expansionFails (by rfl) (by rfl) (by decide) hoptional
  have hdictionary : Expands cyclicAliases (.dictionary 3 (.name 4 "B") (.name 6 "C")) ⟨[], ["A"]⟩
      (.error ⟨.cyclicAlias, "A", 15⟩) failedExpansion := .dictionary hb hc
  exact .expansionFails (by rfl) (by rfl) (by decide) hdictionary

/-- `typealias B = Any local x: B` -/
def keptChunk : Chunk := [.typeAlias ⟨1, "B", .name 3 "Any"⟩,
  .statement (.localNames 4 [⟨5, "x", some (.name 7 "B")⟩] [])]

def keptProgram : Program :=
  ⟨⟨[], [⟨1, "B", .name 3 "Any"⟩]⟩, [], [("B", .any)], [[(3, .any), (7, .any)]]⟩

theorem ofChunks_kept : Program.ofChunks [keptChunk] = .ok keptProgram := by
  have hany (s : Expansion) : Expands keptProgram.declared (.name 3 "Any") s (.ok .any) s :=
    .plain (by rfl)
  have hb : Expands keptProgram.declared (.name 7 "B") ⟨[], []⟩ (.ok .any) _ :=
    .expanded (by rfl) (by rfl) (by decide) (hany _)
  have hany' : (typeOf keptProgram.declared [] (.name 3 "Any")).run.run [] = (.ok .any, []) :=
    (hany ⟨[], []⟩).run_typeOf
  have hb' : (typeOf keptProgram.declared [] (.name 7 "B")).run.run [] =
      (.ok .any, [("B", .any)]) := hb.run_typeOf
  have hx : annotationsOfChunk keptChunk = [.name 3 "Any", .name 7 "B"] := by
    simp [annotationsOfChunk, keptChunk, annotationsOfTopItem, annotationsOfStmt,
      annotationsOfNames, annotationsOfExprs]
  have hd : Declared.ofChunks [keptChunk] = .ok keptProgram.declared := by rfl
  have ha : Arena.ofDeclared keptProgram.declared = .ok keptProgram.arena := by rfl
  rw [Program.ofChunks, hd, ok_bind, ha, ok_bind]
  simp only [List.mapM_cons, List.mapM_nil, hx, TypeTable.ofAnnotations, List.foldlM_cons,
    List.foldlM_nil, Expanding.run_bind, Expanding.run_pure, hany', hb']
  rfl

theorem expands_uncached_kept :
    Arises cyclicAliases ⟨failedExpansion.expanded, []⟩ ∧
    failedExpansion.expanded.Exact cyclicAliases ∧
    expand cyclicAliases [] (.name 0 "B") = .ok .any ∧
    Program.ofChunks [keptChunk] = .ok keptProgram ∧
    ((keptProgram.resolveType (.name 0 "B")).1 = expand keptProgram.declared [] (.name 0 "B")) := by
  obtain ⟨-, -, -, hstates, -, hprograms⟩ := expands_uncached cyclicAliases [keptChunk]
  have hs : Arises cyclicAliases ⟨failedExpansion.expanded, []⟩ :=
    (Arises.start.found expands_cyclicAliases).again
  obtain ⟨hexact, htypes⟩ := hstates _ hs
  have hb := htypes (.name 0 "B") _ _ (.kept (by rfl) (by rfl))
  exact ⟨hs, hexact, hb.symm, ofChunks_kept, (hprograms _ _ ofChunks_kept .refl).2 _⟩

end Programs
end ScriptFront.Program
