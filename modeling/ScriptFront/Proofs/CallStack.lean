import Mathlib.Data.List.Chain
import Mathlib.Logic.Relation
import ScriptFront.Proofs.Resolution
/-! Resolving conformances step by step, with the calls that are running. The objects in progress are
those of the calls on the stack, and each of these names the next. A call that succeeds changes no
object that was started before it, and resolves whatever it starts. -/
namespace ScriptFront.Program
open Syntax Relation Phrase

/-- A call that waits for the one that it has made to find out about a conformance. -/
structure Caller where
  id : ObjectId
  reads : Conformance
  left : List Conformance

/-- How far a call has come. What it adds are the protocols of a conformance, one after the other. A
call on an object that was started before ends at once. -/
inductive Stage where
  | starts
  | reads (left : List Conformance)
  | adds (index : TokenIndex) (protocols : List ObjectId) (left : List Conformance)
  | ends

/-- The conformances that a call has not come to. -/
def Stage.left : Stage → List Conformance
  | starts | ends => []
  | reads left | adds _ _ left => left

/-- A moment while the objects are resolved in turn: between two of them, or during a call, with the
calls that wait for it from the inside out. Some objects are left for later. -/
inductive Moment where
  | between (a : Arena) (left : List ObjectId)
  | during (a : Arena) (id : ObjectId) (stage : Stage) (callers : List Caller)
    (left : List ObjectId)

namespace Moment

def arena : Moment → Arena
  | between a _ | during a _ _ _ _ => a

def start (d : Declared) : Moment := between (Arena.fresh d) (List.range d.objects.length)

/-- The objects of all calls, from the inside out. -/
def calls : Moment → List ObjectId
  | between _ _ => []
  | during _ id _ callers _ => id :: callers.map (·.id)

/-- Those of the calls on the stack. Only the innermost call may be about to enter it, or may just
have left it. -/
def stack : Moment → List ObjectId
  | between _ _ => []
  | during _ _ .starts callers _ | during _ _ .ends callers _ => callers.map (·.id)
  | during _ id _ callers _ => id :: callers.map (·.id)

theorem stack_suffix_calls (m : Moment) : m.stack <:+ m.calls := by
  match m with
  | between _ _ | during _ _ (.reads _) _ _ | during _ _ (.adds _ _ _) _ _ => exact List.suffix_rfl
  | during _ _ .starts _ _ | during _ _ .ends _ _ => exact List.suffix_cons ..

/-- What comes next, if anything does: a call, a return, or one change of one object. -/
def next? (d : Declared) : Moment → Except ResolveError (Option Moment)
  | between _ [] => .ok none
  | between a (id :: ids) => .ok (during a id .starts [] ids)
  | during a id .starts callers ids =>
    if a.markOf? id = some .unresolved then
      .ok (during (a.setMark id .inProgress) id (.reads (d.conforms id)) callers ids)
    else .ok (during a id .ends callers ids)
  | during a id (.reads []) callers ids =>
    .ok (during (a.setMark id .resolved) id .ends callers ids)
  | during a id (.reads (c :: cs)) callers ids => do
    let target ← conformanceTarget d a id c
    return during a target .starts (⟨id, c, cs⟩ :: callers) ids
  | during a id (.adds _ [] cs) callers ids => .ok (during a id (.reads cs) callers ids)
  | during a id (.adds i (p :: ps) cs) callers ids =>
    if p ∈ a.protocols id then .error ⟨.duplicateProtocol, d.nameOf p, i⟩
    else .ok (during (a.setProtocols id (a.protocols id ++ [p])) id (.adds i ps cs) callers ids)
  | during a _ .ends [] ids => .ok (between a ids)
  | during a target .ends (⟨id, c, cs⟩ :: callers) ids =>
    if d.isClass target then
      .ok (during (a.setSuperclass id target) id (.adds c.anchor (a.protocols target) cs) callers ids)
    else .ok (during a id (.adds c.anchor [target] cs) callers ids)

/-- One moment after another. -/
def Steps (d : Declared) : Moment → Moment → Prop :=
  ReflTransGen fun m m' => m.next? d = .ok (some m')

/-- The moments of resolving all objects in declaration order, up to the end or an error. -/
def Arises (d : Declared) (m : Moment) : Prop := Steps d (start d) m

end Moment

namespace Arena
variable {a b c : Arena} {i j s : ObjectId} {m : Mark} {ps : List ObjectId}

theorem setSuperclass_eq_adopt : a.setSuperclass i s = a.adopt i (some s) (a.protocols i) := by
  refine List.ext_getElem? fun j => ?_
  by_cases h : j = i
  · subst h
    cases hj : a[j]? <;> simp [setSuperclass, adopt, protocols, hj]
  · rw [getElem?_adopt_ne h]
    exact List.getElem?_modify_ne _ a (Ne.symm h)

@[simp] theorem markOf?_setSuperclass : (a.setSuperclass i s).markOf? j = a.markOf? j := by
  rw [setSuperclass_eq_adopt, markOf?_adopt]

@[simp] theorem markOf?_setProtocols : (a.setProtocols i ps).markOf? j = a.markOf? j := by
  rw [setProtocols_eq_adopt, markOf?_adopt]

@[simp] theorem protocols_setSuperclass : (a.setSuperclass i s).protocols j = a.protocols j := by
  by_cases h : j = i
  · subst h
    cases hj : a[j]? <;> simp [protocols, setSuperclass, hj]
  · exact protocols_congr (List.getElem?_modify_ne _ a (Ne.symm h))

theorem protocols_setProtocols (h : i < a.length) : (a.setProtocols i ps).protocols i = ps := by
  rw [setProtocols_eq_adopt, protocols_adopt h]

theorem setProtocols_protocols : a.setProtocols i (a.protocols i) = a := by
  refine List.ext_getElem? fun j => ?_
  by_cases h : j = i
  · subst h
    cases hj : a[j]? <;> simp [setProtocols, protocols, hj]
  · exact List.getElem?_modify_ne _ a (Ne.symm h)

theorem setProtocols_setProtocols : (a.setProtocols i ps).setProtocols i = a.setProtocols i :=
  funext fun _ => List.modify_modify_eq ..

theorem markOf?_setMark_ne (h : j ≠ i) : (a.setMark i m).markOf? j = a.markOf? j :=
  markOf?_congr (getElem?_setMark_ne h)

/-- The object is left alone, or it is started and resolved. -/
def SettlesAt (a b : Arena) (i : ObjectId) : Prop :=
  b[i]? = a[i]? ∨ a.markOf? i = some .unresolved ∧ b.markOf? i = some .resolved

theorem SettlesAt.refl : SettlesAt a a i := .inl rfl

theorem SettlesAt.inProgress (h : SettlesAt a b i) (hi : a.markOf? i = some .inProgress) :
    b.markOf? i = some .inProgress := by
  rcases h with hkept | ⟨hu, -⟩
  · rw [markOf?_congr hkept, hi]
  · rw [hi] at hu
    cases hu

theorem SettlesAt.trans (h : SettlesAt a b i) (h' : SettlesAt b c i) : SettlesAt a c i := by
  rcases h with h | ⟨hu, hr⟩ <;> rcases h' with h' | ⟨hu', hr'⟩
  · exact .inl (h'.trans h)
  · exact .inr ⟨by rw [← markOf?_congr h, hu'], hr'⟩
  · exact .inr ⟨hu, by rw [markOf?_congr h', hr]⟩
  · rw [hr] at hu'
    cases hu'

variable {is : List ObjectId}

/-- An object that has not been started enters the stack. -/
theorem inProgress_start (h : ∀ j, a.markOf? j = some .inProgress ↔ j ∈ is)
    (hi : a.markOf? i = some .unresolved) (j : ObjectId) :
    (a.setMark i .inProgress).markOf? j = some .inProgress ↔ j ∈ i :: is := by
  rw [List.mem_cons]
  by_cases hj : j = i
  · subst hj
    simp [markOf?_setMark (markOf?_isSome.1 (Option.isSome_of_eq_some hi))]
  · rw [markOf?_setMark_ne hj, h j, or_iff_right hj]

/-- The object on top of the stack leaves it. -/
theorem inProgress_finish (h : ∀ j, a.markOf? j = some .inProgress ↔ j ∈ i :: is)
    (hn : (i :: is).Nodup) (j : ObjectId) :
    (a.setMark i .resolved).markOf? j = some .inProgress ↔ j ∈ is := by
  have hi : a.markOf? i = some .inProgress := (h i).2 List.mem_cons_self
  by_cases hj : j = i
  · subst hj
    simp [markOf?_setMark (markOf?_isSome.1 (Option.isSome_of_eq_some hi)), (List.nodup_cons.1 hn).1]
  · rw [markOf?_setMark_ne hj, h j, List.mem_cons, or_iff_right hj]

end Arena

section Frames
variable {d : Declared} {a : Arena} {id target : ObjectId} {c : Conformance}

/-- Less is left once the first of a list is resolved and adopted. -/
theorem rest_decreases {cs : List Conformance} (a₁ : { b : Arena // b.pending ≤ a.pending })
    (a₂ : { b : Arena // b.pending ≤ a₁.val.pending }) :
    Prod.Lex (· < ·) (· < ·) (a₂.val.pending, cs.length + 1) (a.pending, (c :: cs).length + 1) := by
  rcases Nat.lt_or_eq_of_le (Nat.le_trans a₂.property a₁.property) with hlt | heq
  · exact .left _ _ hlt
  · rw [heq]
    exact .right _ (by simp)

theorem adoptTarget_adopts {b : { b : Arena // b.pending ≤ a.pending }}
    (h : adoptTarget d a id target c = .ok b) : ∃ s? ps, b.val = a.adopt id s? ps := by
  unfold adoptTarget at h
  split at h
  · obtain ⟨ps, -, rfl⟩ := map_ok.1 h
    exact ⟨_, ps, Arena.setProtocols_setSuperclass_eq_adopt⟩
  · obtain ⟨ps, -, rfl⟩ := map_ok.1 h
    exact ⟨_, ps, Arena.setProtocols_eq_adopt⟩

mutual

/-- Whatever the arena, a call changes no object that was started before, and the objects that it
starts are resolved when it is over. -/
theorem resolveObject_settles {a : Arena} {id : ObjectId}
    {b : { b : Arena // b.pending ≤ a.pending }} (h : resolveObject d id a = .ok b) :
    (∀ i, a.SettlesAt b.val i) ∧
      (a.markOf? id = some .unresolved → b.val.markOf? id = some .resolved) := by
  by_cases hid : a.markOf? id = some .unresolved
  · obtain ⟨c, hc, hb⟩ := (resolveObject_ok_iff hid).1 h
    have hlt : id < a.length := Arena.markOf?_isSome.1 (by simp [hid])
    obtain ⟨hsettles, hrunning⟩ := resolveList_settles hc (Arena.markOf?_setMark hlt)
    have hlt' : id < c.val.length := Arena.markOf?_isSome.1 (by simp [hrunning])
    have hdone : b.val.markOf? id = some .resolved := by rw [hb, Arena.markOf?_setMark hlt']
    refine ⟨fun i => ?_, fun _ => hdone⟩
    by_cases hi : i = id
    · subst hi
      exact .inr ⟨hid, hdone⟩
    · have hstart : a.SettlesAt (a.setMark id .inProgress) i :=
        .inl (Arena.getElem?_setMark_ne hi)
      have hend : c.val.SettlesAt b.val i := .inl (hb ▸ Arena.getElem?_setMark_ne hi)
      exact hstart.trans ((hsettles i hi).trans hend)
  · rw [resolveObject_started hid, Except.ok.injEq] at h
    subst h
    exact ⟨fun _ => .refl, fun hu => absurd hu hid⟩
termination_by (a.pending, 0)
decreasing_by exact .left _ _ (Arena.pending_setMark_lt hid)

theorem resolveList_settles {a : Arena} {id : ObjectId} {cs : List Conformance}
    {b : { b : Arena // b.pending ≤ a.pending }} (h : resolveList d id cs a = .ok b)
    (hid : a.markOf? id = some .inProgress) :
    (∀ i, i ≠ id → a.SettlesAt b.val i) ∧ b.val.markOf? id = some .inProgress := by
  cases cs with
  | nil =>
    rw [resolveList_nil, Except.ok.injEq] at h
    subst h
    exact ⟨fun _ _ => .refl, hid⟩
  | cons c cs =>
    obtain ⟨j, a₁, a₂, a₃, -, h₁, h₂, h₃, hb⟩ := resolveList_cons_ok_iff.1 h
    have hvisit := (resolveObject_settles h₁).1
    obtain ⟨s?, ps, ha₂⟩ := adoptTarget_adopts h₂
    have hid₁ : a₁.val.markOf? id = some .inProgress := (hvisit id).inProgress hid
    have hid₂ : a₂.val.markOf? id = some .inProgress := by rw [ha₂, Arena.markOf?_adopt, hid₁]
    obtain ⟨hrest, hid₃⟩ := resolveList_settles h₃ hid₂
    rw [hb]
    refine ⟨fun i hi => ?_, hid₃⟩
    have hadopt : a₁.val.SettlesAt a₂.val i := .inl (ha₂ ▸ Arena.getElem?_adopt_ne hi)
    exact (hvisit i).trans (hadopt.trans (hrest i hi))
termination_by (a.pending, cs.length + 1)
decreasing_by
  · exact .right _ (by simp)
  · subst_vars
    exact rest_decreases a₁ a₂

end

end Frames

namespace Moment
variable {d : Declared} {m m' : Moment}

/-- All that the calls have not come to is in the lists of their objects. -/
def Listed (d : Declared) : Moment → Prop
  | between _ _ => True
  | during _ id stage callers _ =>
    stage.left ⊆ d.conforms id ∧ ∀ k ∈ callers, k.left ⊆ d.conforms k.id

/-- What every step keeps. -/
structure Held (d : Declared) (m : Moment) : Prop where
  inProgress : ∀ i, m.arena.markOf? i = some .inProgress ↔ i ∈ m.stack
  nodup : m.stack.Nodup
  named : m.calls.IsChain fun callee caller => d.Names caller callee
  listed : m.Listed d

theorem Held.ofStart : (start d).Held d where
  inProgress i := iff_of_false (idle_fresh i) List.not_mem_nil
  nodup := .nil
  named := .nil
  listed := trivial

theorem Held.next (h : m.Held d) (hn : m.next? d = .ok (some m')) : m'.Held d := by
  obtain ⟨hmarks, hnodup, hnamed, hlisted⟩ := h
  match m, hn with
  | between a (id :: ids), hn =>
    cases hn
    exact ⟨hmarks, hnodup, .singleton _, List.nil_subset _, by simp⟩
  | during a id .starts callers ids, hn =>
    simp only [next?] at hn
    split at hn
    case isTrue hid =>
      cases hn
      have hnew : id ∉ callers.map (·.id) := fun hmem => by
        have := (hmarks id).2 hmem
        simp [arena, hid] at this
      exact ⟨Arena.inProgress_start hmarks hid, List.nodup_cons.2 ⟨hnew, hnodup⟩, hnamed,
        List.Subset.refl _, hlisted.2⟩
    case isFalse =>
      cases hn
      exact ⟨hmarks, hnodup, hnamed, hlisted⟩
  | during a id (.reads []) callers ids, hn =>
    cases hn
    exact ⟨Arena.inProgress_finish hmarks hnodup, (List.nodup_cons.1 hnodup).2, hnamed, hlisted⟩
  | during a id (.reads (c :: cs)) callers ids, hn =>
    obtain ⟨target, htarget, hn⟩ := bind_ok.1 hn
    cases hn
    obtain ⟨hc, hcs⟩ := List.cons_subset.1 hlisted.1
    have hnames : d.Names id target :=
      List.mem_filterMap.2 ⟨c, hc, (conformanceTarget_ok_iff.1 htarget).1⟩
    exact ⟨hmarks, hnodup, .cons_cons hnames hnamed, List.nil_subset _,
      List.forall_mem_cons.2 ⟨hcs, hlisted.2⟩⟩
  | during a id (.adds i [] cs) callers ids, hn =>
    cases hn
    exact ⟨hmarks, hnodup, hnamed, hlisted⟩
  | during a id (.adds i (p :: ps) cs) callers ids, hn =>
    simp only [next?] at hn
    split at hn
    case isTrue => cases hn
    case isFalse =>
      cases hn
      exact ⟨by simpa [arena, stack] using hmarks, hnodup, hnamed, hlisted⟩
  | during a id .ends [] ids, hn =>
    cases hn
    exact ⟨hmarks, hnodup, .nil, trivial⟩
  | during a target .ends (⟨id, c, cs⟩ :: callers) ids, hn =>
    obtain ⟨hcs, hcallers⟩ := List.forall_mem_cons.1 hlisted.2
    simp only [next?] at hn
    split at hn
    case isTrue =>
      cases hn
      exact ⟨by simpa [arena, stack] using hmarks, hnodup, hnamed.tail, hcs, hcallers⟩
    case isFalse =>
      cases hn
      exact ⟨hmarks, hnodup, hnamed.tail, hcs, hcallers⟩

theorem Arises.held (h : m.Arises d) : m.Held d := by
  induction h with
  | refl => exact .ofStart
  | tail _ hn ih => exact ih.next hn

/-- The moments from `m` on are those of a computation: up to one that holds its result, or to its
error. -/
def Leads (d : Declared) (m : Moment) (r : Except ResolveError Arena) (k : Arena → Moment) : Prop :=
  match r with
  | .ok b => Steps d m (k b)
  | .error e => ∃ m', Steps d m m' ∧ m'.next? d = .error e

section Leads
variable {r : Except ResolveError Arena} {k k' : Arena → Moment} {f : Arena → Except ResolveError Arena}
  {a : Arena} {e : ResolveError}

theorem Leads.ok (h : m = k a) : Leads d m (.ok a) k := h ▸ ReflTransGen.refl

theorem Leads.error (h : m.next? d = .error e) : Leads d m (.error e) k := ⟨m, .refl, h⟩

theorem Leads.after (hs : Steps d m m') (h : Leads d m' r k) : Leads d m r k := by
  cases r with
  | ok => exact hs.trans h
  | error =>
    obtain ⟨m'', hs', he⟩ := h
    exact ⟨m'', hs.trans hs', he⟩

theorem Leads.step (hn : m.next? d = .ok (some m')) (h : Leads d m' r k) : Leads d m r k :=
  h.after (.single hn)

theorem Leads.bind (h : Leads d m r k) (hf : ∀ b, r = .ok b → Leads d (k b) (f b) k') :
    Leads d m (r >>= f) k' := by
  cases r with
  | ok b => exact (hf b rfl).after h
  | error => exact h

end Leads

end Moment

section Correspondence
variable {d : Declared} {a : Arena} {id target : ObjectId} {c : Conformance} {cs : List Conformance}
  {callers : List Caller} {ids : List ObjectId}
open Moment

theorem adoptTarget_val : (adoptTarget d a id target c).map (·.val) =
    if d.isClass target then
      (addProtocols d c.anchor (a.protocols id) (a.protocols target)).map
        ((a.setSuperclass id target).setProtocols id)
    else (addProtocols d c.anchor (a.protocols id) [target]).map (a.setProtocols id) := by
  unfold adoptTarget
  split
  · cases addProtocols d c.anchor (a.protocols id) (a.protocols target) <;> rfl
  · cases addProtocols d c.anchor (a.protocols id) [target] <;> rfl

/-- Protocols are added to the object one by one. -/
theorem leads_addProtocols {i : TokenIndex} {ps : List ObjectId} (hid : id < a.length) :
    Leads d (during a id (.adds i ps cs) callers ids)
      ((addProtocols d i (a.protocols id) ps).map (a.setProtocols id))
      (during · id (.reads cs) callers ids) := by
  induction ps generalizing a with
  | nil =>
    rw [addProtocols, Except.map, Arena.setProtocols_protocols]
    exact .step rfl (.ok rfl)
  | cons p ps ih =>
    rw [addProtocols]
    split
    case isTrue hp => exact .error (if_pos hp)
    case isFalse hp =>
      have ih := ih (a := a.setProtocols id (a.protocols id ++ [p])) (by simpa using hid)
      rw [Arena.protocols_setProtocols hid, Arena.setProtocols_setProtocols] at ih
      exact .step (if_neg hp) ih

theorem leads_adoptTarget (hid : id < a.length) :
    Leads d (during a target .ends (⟨id, c, cs⟩ :: callers) ids)
      ((adoptTarget d a id target c).map (·.val)) (during · id (.reads cs) callers ids) := by
  rw [adoptTarget_val]
  split
  case isTrue hc =>
    have hadds : Leads d
        (during (a.setSuperclass id target) id (.adds c.anchor (a.protocols target) cs) callers ids)
        _ (during · id (.reads cs) callers ids) := leads_addProtocols (by simpa using hid)
    rw [Arena.protocols_setSuperclass] at hadds
    exact .step (if_pos hc) hadds
  case isFalse hc => exact .step (if_neg hc) (leads_addProtocols hid)

mutual

theorem leads_resolveObject (d : Declared) (a : Arena) (id : ObjectId) (callers : List Caller)
    (ids : List ObjectId) :
    Leads d (during a id .starts callers ids) ((resolveObject d id a).map (·.val))
      (during · id .ends callers ids) := by
  by_cases hid : a.markOf? id = some .unresolved
  · rw [resolveObject_val hid]
    have hlt : id < a.length := Arena.markOf?_isSome.1 (by simp [hid])
    have hlist := leads_resolveList (d := d) (d.conforms id) callers ids
      (Arena.markOf?_setMark (m := .inProgress) hlt)
    exact .step (if_pos hid) (hlist.bind fun b _ => .step rfl (.ok rfl))
  · rw [resolveObject_started hid]
    exact .step (if_neg hid) (.ok rfl)
termination_by (a.pending, 0)
decreasing_by exact .left _ _ (Arena.pending_setMark_lt hid)

theorem leads_resolveList {d : Declared} {a : Arena} {id : ObjectId} (cs : List Conformance)
    (callers : List Caller) (ids : List ObjectId) (hid : a.markOf? id = some .inProgress) :
    Leads d (during a id (.reads cs) callers ids) ((resolveList d id cs a).map (·.val))
      (during · id (.reads []) callers ids) := by
  cases cs with
  | nil =>
    rw [resolveList_nil]
    exact .ok rfl
  | cons c cs =>
    rw [resolveList_cons_val]
    cases hc : conformanceTarget d a id c with
    | error e => exact .error (by simp [next?, hc, Bind.bind, Except.bind])
    | ok target =>
      have hcall : next? d (during a id (.reads (c :: cs)) callers ids) =
          .ok (some (during a target .starts (⟨id, c, cs⟩ :: callers) ids)) := by
        simp [next?, hc, Bind.bind, Except.bind, pure, Except.pure]
      refine .step hcall ?_
      refine (leads_resolveObject d a target (⟨id, c, cs⟩ :: callers) ids).bind fun b₁ hb₁ => ?_
      obtain ⟨a₁, h₁, rfl⟩ := map_ok.1 hb₁
      have hid₁ : a₁.val.markOf? id = some .inProgress :=
        ((resolveObject_settles h₁).1 id).inProgress hid
      refine (leads_adoptTarget (Arena.markOf?_isSome.1 (by simp [hid₁]))).bind fun b₂ hb₂ => ?_
      obtain ⟨a₂, h₂, rfl⟩ := map_ok.1 hb₂
      obtain ⟨s?, ps, ha₂⟩ := adoptTarget_adopts h₂
      exact leads_resolveList cs callers ids (by rw [ha₂, Arena.markOf?_adopt, hid₁])
termination_by (a.pending, cs.length + 1)
decreasing_by
  · exact .right _ (by simp)
  · subst_vars
    exact rest_decreases a₁ a₂

end

theorem leads_visits : Leads d (between a ids)
    (ids.foldlM (fun a id => (resolveObject d id a).map (·.val)) a) (between · []) := by
  induction ids generalizing a with
  | nil => exact .ok rfl
  | cons id ids ih =>
    rw [List.foldlM_cons]
    exact .step rfl ((leads_resolveObject d a id [] ids).bind fun b _ => .step rfl ih)

end Correspondence

/-- The objects in progress are those of the calls on the stack, each named by the next one out. A call
that succeeds leaves alone what was started before it, resolves its object and whatever else it
changes. The moments are those of resolving, as a whole and call by call. -/
theorem resolving_frames (d : Declared) :
    (∀ m : Moment, m.Arises d →
      (∀ i, m.arena.markOf? i = some .inProgress ↔ i ∈ m.stack) ∧ m.stack.Nodup ∧
      m.stack.IsChain (fun callee caller => d.Names caller callee) ∧
      ∀ id b, resolveObject d id m.arena = .ok b →
        (∀ i, m.arena.markOf? i ≠ some .unresolved → b.val[i]? = m.arena[i]?) ∧
        (m.arena.markOf? id = some .unresolved → b.val.markOf? id = some .resolved) ∧
        (∀ i, b.val.markOf? i = some .inProgress → m.arena.markOf? i = some .inProgress) ∧
        ∀ i, b.val[i]? ≠ m.arena[i]? →
          m.arena.markOf? i = some .unresolved ∧ b.val.markOf? i = some .resolved) ∧
    Moment.Leads d (.start d) (Arena.ofDeclared d) (.between · []) ∧
    ∀ a id callers left, Moment.Leads d (.during a id .starts callers left)
      ((resolveObject d id a).map (·.val)) (.during · id .ends callers left) := by
  refine ⟨fun m hm => ?_, leads_visits, leads_resolveObject d⟩
  obtain ⟨hmarks, hnodup, hnamed, -⟩ := hm.held
  refine ⟨hmarks, hnodup, hnamed.suffix m.stack_suffix_calls, fun id b hb => ?_⟩
  obtain ⟨hsettles, hresolved⟩ := resolveObject_settles hb
  refine ⟨fun i hi => ?_, hresolved, fun i hi => ?_, fun i hi => ?_⟩
  · exact (hsettles i).resolve_right fun h => hi h.1
  · rcases hsettles i with hkept | ⟨-, hr⟩
    · rw [← Arena.markOf?_congr hkept, hi]
    · rw [hr] at hi
      cases hi
  · exact (hsettles i).resolve_left hi

/-- The call that resolves the superclass of the first class, which waits in the middle of its list. -/
def superclassCall : Moment :=
  .during [⟨.inProgress, none, []⟩, .fresh, .fresh, .fresh] 1 .starts
    [⟨0, ⟨3, "A"⟩, [⟨5, "Q"⟩]⟩] [1, 2, 3]

theorem superclassCall_arises : superclassCall.Arises forwardClasses := by
  have hcall : (Moment.start forwardClasses).next? forwardClasses =
      .ok (some (.during (Arena.fresh forwardClasses) 0 .starts [] [1, 2, 3])) := rfl
  have hstart : Moment.next? forwardClasses
      (.during (Arena.fresh forwardClasses) 0 .starts [] [1, 2, 3]) =
      .ok (some (.during [⟨.inProgress, none, []⟩, .fresh, .fresh, .fresh] 0
        (.reads [⟨3, "A"⟩, ⟨5, "Q"⟩]) [] [1, 2, 3])) := rfl
  have hname : Moment.next? forwardClasses
      (.during [⟨.inProgress, none, []⟩, .fresh, .fresh, .fresh] 0
        (.reads [⟨3, "A"⟩, ⟨5, "Q"⟩]) [] [1, 2, 3]) = .ok (some superclassCall) := rfl
  exact .tail (.tail (.single hcall) hstart) hname

theorem resolveObject_superclassCall : ∃ b, resolveObject forwardClasses 1 superclassCall.arena =
    .ok b ∧ b.val =
      [⟨.inProgress, none, []⟩, ⟨.resolved, none, [2]⟩, ⟨.resolved, none, []⟩, .fresh] := by
  have hpending : superclassCall.arena.pending ≤ 3 := by decide
  refine map_ok.1 ?_
  rw [← resolveWithin_eq hpending]
  rfl

theorem resolving_frames_superclassCall :
    superclassCall.Arises forwardClasses ∧
      (∀ i, superclassCall.arena.markOf? i = some .inProgress ↔ i ∈ [0]) ∧
      ∃ b, resolveObject forwardClasses 1 superclassCall.arena = .ok b ∧
        b.val[0]? = superclassCall.arena[0]? ∧ b.val.markOf? 1 = some .resolved ∧
        b.val.markOf? 3 = some .unresolved := by
  obtain ⟨hmarks, -, -, hframe⟩ := (resolving_frames forwardClasses).1 _ superclassCall_arises
  obtain ⟨b, hb, hval⟩ := resolveObject_superclassCall
  obtain ⟨hkept, hresolved, -, -⟩ := hframe 1 b hb
  exact ⟨superclassCall_arises, hmarks, b, hb, hkept 0 (by simp [superclassCall, Moment.arena,
    Arena.markOf?]), hresolved rfl, by rw [hval]; rfl⟩

end ScriptFront.Program
