import ScriptFront.Program.Annotation
import ScriptFront.Proofs.Anchor
import ScriptFront.Proofs.Collected
/-! Items in another order and at other tokens. The annotations of a tree with other anchors are its
annotations with other anchors, so a rearrangement declares and annotates the same. -/
namespace ScriptFront.Program
open Syntax

variable (f : TokenIndex → TokenIndex)

theorem annotationsOfNames_mapAnchor (names : List TypedName) :
    annotationsOfNames (names.map (·.mapAnchor f)) =
      (annotationsOfNames names).map (·.mapAnchor f) := by
  rw [annotationsOfNames, List.filterMap_map, annotationsOfNames, List.map_filterMap]
  rfl

theorem annotationsOfSignature_mapAnchor (s : Signature) :
    annotationsOfSignature (s.mapAnchor f) = (annotationsOfSignature s).map (·.mapAnchor f) := by
  rw [annotationsOfSignature, annotationsOfSignature, List.map_append,
    ← annotationsOfNames_mapAnchor, Signature.mapAnchor]

mutual

theorem annotationsOfExpr_mapAnchor (e : Expr) :
    annotationsOfExpr (e.mapAnchor f) = (annotationsOfExpr e).map (·.mapAnchor f) := by
  cases e with
  | nil | varArgs | literal | name => simp only [Expr.mapAnchor, annotationsOfExpr, List.map_nil]
  | routine i r => simp only [Expr.mapAnchor, annotationsOfExpr, annotationsOfRoutine_mapAnchor r]
  | unary i op e | parenthesized i e =>
    simp only [Expr.mapAnchor, annotationsOfExpr, annotationsOfExpr_mapAnchor e]
  | binary i op a b =>
    simp only [Expr.mapAnchor, annotationsOfExpr, annotationsOfExpr_mapAnchor a,
      annotationsOfExpr_mapAnchor b, List.map_append]
  | table i items =>
    simp only [Expr.mapAnchor, annotationsOfExpr, annotationsOfItems_mapAnchor items]
  | call c => simp only [Expr.mapAnchor, annotationsOfExpr, annotationsOfCall_mapAnchor c]
  | index x => simp only [Expr.mapAnchor, annotationsOfExpr, annotationsOfIndex_mapAnchor x]
  | typeTest i e t =>
    simp only [Expr.mapAnchor, annotationsOfExpr, annotationsOfExpr_mapAnchor e, List.map_append,
      List.map_singleton]

theorem annotationsOfCall_mapAnchor (c : Call) :
    annotationsOfCall (c.mapAnchor f) = (annotationsOfCall c).map (·.mapAnchor f) := by
  cases c with
  | plain i e args | method i e m args =>
    simp only [Call.mapAnchor, annotationsOfCall, annotationsOfExpr_mapAnchor e,
      annotationsOfExprs_mapAnchor args, List.map_append]

theorem annotationsOfIndex_mapAnchor (x : Index) :
    annotationsOfIndex (x.mapAnchor f) = (annotationsOfIndex x).map (·.mapAnchor f) := by
  cases x with
  | element i e k =>
    simp only [Index.mapAnchor, annotationsOfIndex, annotationsOfExpr_mapAnchor e,
      annotationsOfExpr_mapAnchor k, List.map_append]
  | field i e n => simp only [Index.mapAnchor, annotationsOfIndex, annotationsOfExpr_mapAnchor e]

theorem annotationsOfItem_mapAnchor (x : TableItem) :
    annotationsOfItem (x.mapAnchor f) = (annotationsOfItem x).map (·.mapAnchor f) := by
  cases x with
  | positional v | named n v =>
    simp only [TableItem.mapAnchor, annotationsOfItem, annotationsOfExpr_mapAnchor v]
  | keyed k v =>
    simp only [TableItem.mapAnchor, annotationsOfItem, annotationsOfExpr_mapAnchor k,
      annotationsOfExpr_mapAnchor v, List.map_append]

theorem annotationsOfRoutine_mapAnchor (r : Routine) :
    annotationsOfRoutine (r.mapAnchor f) = (annotationsOfRoutine r).map (·.mapAnchor f) := by
  cases r with
  | mk sig body =>
    simp only [Routine.mapAnchor, annotationsOfRoutine, annotationsOfSignature_mapAnchor,
      annotationsOfBlock_mapAnchor body, List.map_append]

theorem annotationsOfStmt_mapAnchor (s : Stmt) :
    annotationsOfStmt (s.mapAnchor f) = (annotationsOfStmt s).map (·.mapAnchor f) := by
  cases s with
  | scope i body => simp only [Stmt.mapAnchor, annotationsOfStmt, annotationsOfBlock_mapAnchor body]
  | assign i targets values =>
    simp only [Stmt.mapAnchor, annotationsOfStmt, annotationsOfTargets_mapAnchor targets,
      annotationsOfExprs_mapAnchor values, List.map_append]
  | update i target op value =>
    simp only [Stmt.mapAnchor, annotationsOfStmt, annotationsOfTarget_mapAnchor target,
      annotationsOfExpr_mapAnchor value, List.map_append]
  | whileLoop i e body | repeatLoop i body e =>
    simp only [Stmt.mapAnchor, annotationsOfStmt, annotationsOfExpr_mapAnchor e,
      annotationsOfBlock_mapAnchor body, List.map_append]
  | choice i branches otherwise =>
    cases otherwise with
    | none =>
      simp only [Stmt.mapAnchor, annotationsOfStmt, annotationsOfBranches_mapAnchor branches,
        List.map_append, List.map_nil]
    | some body =>
      simp only [Stmt.mapAnchor, annotationsOfStmt, annotationsOfBranches_mapAnchor branches,
        annotationsOfBlock_mapAnchor body, List.map_append]
  | numericFor i counter start stop step body =>
    have hcounter := annotationsOfNames_mapAnchor f [counter]
    rw [List.map_singleton] at hcounter
    cases step with
    | none =>
      simp only [Stmt.mapAnchor, annotationsOfStmt, hcounter, annotationsOfExpr_mapAnchor start,
        annotationsOfExpr_mapAnchor stop, annotationsOfBlock_mapAnchor body, List.map_append,
        List.map_nil]
    | some e =>
      simp only [Stmt.mapAnchor, annotationsOfStmt, hcounter, annotationsOfExpr_mapAnchor start,
        annotationsOfExpr_mapAnchor stop, annotationsOfExpr_mapAnchor e,
        annotationsOfBlock_mapAnchor body, List.map_append]
  | genericFor i names iterators body =>
    simp only [Stmt.mapAnchor, annotationsOfStmt, annotationsOfNames_mapAnchor,
      annotationsOfExprs_mapAnchor iterators, annotationsOfBlock_mapAnchor body, List.map_append]
  | localNames i names values =>
    simp only [Stmt.mapAnchor, annotationsOfStmt, annotationsOfNames_mapAnchor,
      annotationsOfExprs_mapAnchor values, List.map_append]
  | localRoutine i n r | routine i path isMethod r =>
    simp only [Stmt.mapAnchor, annotationsOfStmt, annotationsOfRoutine_mapAnchor r]
  | returnValues i values =>
    simp only [Stmt.mapAnchor, annotationsOfStmt, annotationsOfExprs_mapAnchor values]
  | goto | label | breakLoop => simp only [Stmt.mapAnchor, annotationsOfStmt, List.map_nil]
  | call i c => simp only [Stmt.mapAnchor, annotationsOfStmt, annotationsOfCall_mapAnchor c]

theorem annotationsOfTarget_mapAnchor (t : Target) :
    annotationsOfTarget (t.mapAnchor f) = (annotationsOfTarget t).map (·.mapAnchor f) := by
  cases t with
  | name n =>
    simp only [Target.mapAnchor, annotationsOfTarget, ← annotationsOfNames_mapAnchor,
      List.map_singleton]
  | index x => simp only [Target.mapAnchor, annotationsOfTarget, annotationsOfIndex_mapAnchor x]

theorem annotationsOfBranch_mapAnchor (b : Branch) :
    annotationsOfBranch (b.mapAnchor f) = (annotationsOfBranch b).map (·.mapAnchor f) := by
  cases b with
  | mk e body =>
    simp only [Branch.mapAnchor, annotationsOfBranch, annotationsOfExpr_mapAnchor e,
      annotationsOfBlock_mapAnchor body, List.map_append]

theorem annotationsOfExprs_mapAnchor (es : List Expr) :
    annotationsOfExprs (mapAnchorExprs f es) = (annotationsOfExprs es).map (·.mapAnchor f) := by
  cases es with
  | nil => simp only [mapAnchorExprs, annotationsOfExprs, List.map_nil]
  | cons e es =>
    simp only [mapAnchorExprs, annotationsOfExprs, annotationsOfExpr_mapAnchor e,
      annotationsOfExprs_mapAnchor es, List.map_append]

theorem annotationsOfItems_mapAnchor (xs : List TableItem) :
    annotationsOfItems (mapAnchorItems f xs) = (annotationsOfItems xs).map (·.mapAnchor f) := by
  cases xs with
  | nil => simp only [mapAnchorItems, annotationsOfItems, List.map_nil]
  | cons x xs =>
    simp only [mapAnchorItems, annotationsOfItems, annotationsOfItem_mapAnchor x,
      annotationsOfItems_mapAnchor xs, List.map_append]

theorem annotationsOfBlock_mapAnchor (ss : List Stmt) :
    annotationsOfBlock (mapAnchorBlock f ss) = (annotationsOfBlock ss).map (·.mapAnchor f) := by
  cases ss with
  | nil => simp only [mapAnchorBlock, annotationsOfBlock, List.map_nil]
  | cons s ss =>
    simp only [mapAnchorBlock, annotationsOfBlock, annotationsOfStmt_mapAnchor s,
      annotationsOfBlock_mapAnchor ss, List.map_append]

theorem annotationsOfTargets_mapAnchor (ts : List Target) :
    annotationsOfTargets (mapAnchorTargets f ts) =
      (annotationsOfTargets ts).map (·.mapAnchor f) := by
  cases ts with
  | nil => simp only [mapAnchorTargets, annotationsOfTargets, List.map_nil]
  | cons t ts =>
    simp only [mapAnchorTargets, annotationsOfTargets, annotationsOfTarget_mapAnchor t,
      annotationsOfTargets_mapAnchor ts, List.map_append]

theorem annotationsOfBranches_mapAnchor (bs : List Branch) :
    annotationsOfBranches (mapAnchorBranches f bs) =
      (annotationsOfBranches bs).map (·.mapAnchor f) := by
  cases bs with
  | nil => simp only [mapAnchorBranches, annotationsOfBranches, List.map_nil]
  | cons b bs =>
    simp only [mapAnchorBranches, annotationsOfBranches, annotationsOfBranch_mapAnchor b,
      annotationsOfBranches_mapAnchor bs, List.map_append]

end

theorem annotationsOfClassMember_mapAnchor (m : ClassMember) :
    annotationsOfClassMember (m.mapAnchor f) =
      (annotationsOfClassMember m).map (·.mapAnchor f) := by
  cases m with
  | property i n t initial =>
    cases initial <;>
      simp [ClassMember.mapAnchor, annotationsOfClassMember, annotationsOfExprs,
        annotationsOfExpr_mapAnchor]
  | override i n v => exact annotationsOfExpr_mapAnchor f v
  | method i n r => exact annotationsOfRoutine_mapAnchor f r

theorem annotationsOfProtocolMember_mapAnchor (m : ProtocolMember) :
    annotationsOfProtocolMember (m.mapAnchor f) =
      (annotationsOfProtocolMember m).map (·.mapAnchor f) := by
  cases m with
  | property i n t => rfl
  | method i n s => exact annotationsOfSignature_mapAnchor f s

theorem annotationsOfTopItem_mapAnchor (x : Item) :
    annotationsOfTopItem (x.mapAnchor f) = (annotationsOfTopItem x).map (·.mapAnchor f) := by
  cases x with
  | object d =>
    cases d with
    | ofClass d =>
      simp only [Item.mapAnchor, Declaration.mapAnchor, ClassDecl.mapAnchor, annotationsOfTopItem,
        annotationsOfDeclaration, List.flatMap_map, List.map_flatMap,
        annotationsOfClassMember_mapAnchor]
    | ofProtocol d =>
      simp only [Item.mapAnchor, Declaration.mapAnchor, ProtocolDecl.mapAnchor,
        annotationsOfTopItem, annotationsOfDeclaration, List.flatMap_map, List.map_flatMap,
        annotationsOfProtocolMember_mapAnchor]
    | ofEnum d =>
      simp only [Item.mapAnchor, Declaration.mapAnchor, EnumDecl.mapAnchor, EnumCase.mapAnchor,
        annotationsOfTopItem, annotationsOfDeclaration, List.flatMap_map, List.map_flatMap,
        List.map_map]
      rfl
  | typeAlias a => rfl
  | statement s => exact annotationsOfStmt_mapAnchor f s

theorem names_mapAnchor (x : Item) : (x.mapAnchor f).names = x.names := by
  cases x with
  | object o => cases o <;> rfl
  | typeAlias a => rfl
  | statement s => rfl

/-! Items in some other order. -/

/-- The items of the first list stand in the second in some other order, perhaps at other tokens. -/
def Rearranges (items items' : List Item) : Prop := (eraseChunk items).Perm (eraseChunk items')

namespace Rearranges
variable {items items' : List Item}

theorem of_perm (h : items.Perm items') : Rearranges items items' := h.map _

theorem symm (h : Rearranges items items') : Rearranges items' items := List.Perm.symm h

theorem exists_item (h : Rearranges items items') {x : Item} (hx : x ∈ items) :
    ∃ y ∈ items', y.mapAnchor forget = x.mapAnchor forget :=
  List.mem_map.1 (h.subset (List.mem_map_of_mem hx))

theorem exists_object (h : Rearranges items items') :
    ∀ o ∈ (Declared.ofItems items).objects,
      ∃ o' ∈ (Declared.ofItems items').objects, o'.mapAnchor forget = o.mapAnchor forget := by
  intro o ho
  obtain ⟨y, hy, hsame⟩ := h.exists_item (Declared.mem_objects_ofItems.1 ho)
  cases y <;> simp only [Item.mapAnchor, reduceCtorEq] at hsame
  exact ⟨_, Declared.mem_objects_ofItems.2 hy, Item.object.inj hsame⟩

theorem exists_alias (h : Rearranges items items') :
    ∀ a ∈ (Declared.ofItems items).aliases,
      ∃ b ∈ (Declared.ofItems items').aliases, b.mapAnchor forget = a.mapAnchor forget := by
  intro a ha
  obtain ⟨y, hy, hsame⟩ := h.exists_item (Declared.mem_aliases_ofItems.1 ha)
  cases y <;> simp only [Item.mapAnchor, reduceCtorEq] at hsame
  exact ⟨_, Declared.mem_aliases_ofItems.2 hy, Item.typeAlias.inj hsame⟩

theorem exists_annotation (h : Rearranges items items') {a : TypeExpr}
    (ha : a ∈ annotationsOfChunk items) :
    ∃ b ∈ annotationsOfChunk items', b.mapAnchor forget = a.mapAnchor forget := by
  obtain ⟨x, hx, ha⟩ := List.mem_flatMap.1 ha
  obtain ⟨y, hy, hsame⟩ := h.exists_item hx
  have hmem : a.mapAnchor forget ∈ (annotationsOfTopItem y).map (·.mapAnchor forget) := by
    rw [← annotationsOfTopItem_mapAnchor, hsame, annotationsOfTopItem_mapAnchor]
    exact List.mem_map_of_mem ha
  obtain ⟨b, hb, hsame⟩ := List.mem_map.1 hmem
  exact ⟨b, List.mem_flatMap.2 ⟨y, hy, hb⟩, hsame⟩

theorem names_perm (h : Rearranges items items') :
    (items.flatMap Item.names).Perm (items'.flatMap Item.names) := by
  have herase (items : List Item) : (eraseChunk items).flatMap Item.names =
      items.flatMap Item.names := by
    rw [eraseChunk, List.flatMap_map]
    exact List.flatMap_congr fun x _ => names_mapAnchor forget x
  rw [← herase items, ← herase items']
  exact List.Perm.flatMap_right _ h

end Rearranges

end ScriptFront.Program
