import ScriptFront.Proofs.BodyRespelling
import ScriptFront.Proofs.DeclarationReading
import ScriptFront.Proofs.Nodes
/-! How operations are grouped. In all that is read the operands of an operation bind at least as
tightly as it does, and a tree of operations in which they do is what its tokens are read as. -/
namespace ScriptFront.Syntax

/-- Whether an operation may be the left operand of another. -/
def BinaryOp.TakesLeft (o p : BinaryOp) : Prop :=
  o.level < p.level ∨ p.level = o.level ∧ p.groupsRight = false

def BinaryOp.TakesRight (o p : BinaryOp) : Prop :=
  o.level < p.level ∨ p.level = o.level ∧ o.groupsRight = true

namespace Expr

def binaryOp? : Expr → Option BinaryOp
  | .binary _ o _ _ => some o
  | _ => none

/-- The operands of an operation are those that its operator may take. -/
def Grouped : Expr → Prop
  | .unary _ _ e => ∀ p ∈ e.binaryOp?, p = .arithmetic .power
  | .binary _ o l r => (∀ p ∈ l.binaryOp?, o.TakesLeft p) ∧ (∀ p ∈ r.binaryOp?, o.TakesRight p) ∧
    (o = .arithmetic .power → l.operation? = none)
  | _ => True

/-- All operations inside an expression are grouped, at any depth. -/
def WellGrouped (e : Expr) : Prop :=
  ∀ path e', (Node.part (.expr e)).at? path = some (.part (.expr e')) → e'.Grouped

/-- Operations on single tokens. -/
inductive IsOperationTree : Expr → Prop
  | nil : IsOperationTree (.nil i)
  | bool : IsOperationTree (.literal (.bool i v))
  | number : IsOperationTree (.literal (.number i v))
  | name : IsOperationTree (.name i w)
  | unary : IsOperationTree e → IsOperationTree (.unary i op e)
  | binary : IsOperationTree l → IsOperationTree r → IsOperationTree (.binary i o l r)

/-- An operator that binds tighter than this would have gone to the last operand. -/
def rightFloor : Expr → Nat
  | .unary _ _ _ => UnaryOp.floor
  | .binary _ o _ _ => o.rightFloor
  | _ => 6

end Expr

namespace BinaryOp
variable {o p : BinaryOp}

theorem level_pos (o : BinaryOp) : 0 < o.level := by
  cases o with
  | arithmetic a => cases a <;> decide
  | _ => decide

theorem level_le (o : BinaryOp) : o.level ≤ 6 := by
  cases o with
  | arithmetic a => cases a <;> decide
  | _ => decide

theorem eq_power_of_level (h : 5 < o.level) : o = .arithmetic .power := by
  cases o with
  | arithmetic a => cases a <;> simp_all [level]
  | _ => simp [level] at h

theorem takesLeft_iff : o.TakesLeft p ↔ o.level ≤ p.rightFloor := by
  have := p.level_pos
  unfold TakesLeft rightFloor
  cases p.groupsRight <;> simp <;> omega

theorem takesRight_iff : o.TakesRight p ↔ o.rightFloor < p.level := by
  have := o.level_pos
  unfold TakesRight rightFloor
  cases o.groupsRight <;> simp
  omega

theorem rightFloor_le (o : BinaryOp) : o.rightFloor ≤ 5 := by
  cases o with
  | arithmetic a => cases a <;> decide
  | _ => decide

end BinaryOp

namespace Node

/-- A property of a node and of all nodes below it. -/
inductive All (P : Node → Prop) : Node → Prop
  | intro {n : Node} : P n → (∀ m ∈ n.children, All P m) → All P n

/-- The operations among the nodes are grouped. -/
def Grouped : Node → Prop
  | part (.expr e) => e.Grouped
  | _ => True

/-- All operations of a list of trees are grouped. -/
def AllGrouped (list : List Node) : Prop := ∀ n ∈ list, All Grouped n

variable {P : Node → Prop} {m n : Node} {list others : List Node}

theorem All.here : All P n → P n
  | .intro h _ => h

theorem All.child : All P m → n ∈ m.children → All P n
  | .intro _ h, hn => h n hn

theorem All.at? {path : List Nat} (h : All P m) (hn : m.at? path = some n) : P n := by
  induction path generalizing m with
  | nil =>
    cases hn
    exact h.here
  | cons k path ih =>
    obtain ⟨c, hc, hn⟩ := Option.bind_eq_some_iff.1 hn
    exact ih (h.child (List.mem_of_getElem? hc)) hn

theorem AllGrouped.nil : AllGrouped [] := nofun

theorem AllGrouped.cons (h : All Grouped n) (hl : AllGrouped list) : AllGrouped (n :: list) :=
  List.forall_mem_cons.2 ⟨h, hl⟩

theorem All.only (h : All Grouped n) : AllGrouped [n] := .cons h .nil

theorem AllGrouped.append (h : AllGrouped list) (h' : AllGrouped others) :
    AllGrouped (list ++ others) := List.forall_mem_append.2 ⟨h, h'⟩

theorem AllGrouped.both {ps qs : List Part} (h : AllGrouped (parts ps))
    (h' : AllGrouped (parts qs)) : AllGrouped (parts (ps ++ qs)) := by
  rw [parts, List.map_append]
  exact h.append h'

theorem AllGrouped.map {α : Type} {f : α → Part} {as : List α}
    (h : ∀ a ∈ as, All Grouped (part (f a))) : AllGrouped (parts (as.map f)) := by
  rw [parts, List.map_map]
  exact List.forall_mem_map.2 h

theorem all_type (t : TypeExpr) : All Grouped (type t) := by
  induction t with
  | name | member => exact .intro trivial nofun
  | optional _ _ ih | array _ _ ih => exact .intro trivial (AllGrouped.cons ih .nil)
  | dictionary _ _ _ ihk ihv => exact .intro trivial (AllGrouped.cons ihk (.cons ihv .nil))

theorem all_root (t : TypeExpr) : All Grouped (part (.root t)) :=
  .intro trivial (AllGrouped.cons (all_type t) .nil)

theorem allGrouped_roots (ts : List TypeExpr) : AllGrouped (parts (ts.map .root)) :=
  .map fun t _ => all_root t

theorem all_name (n : TypedName) : All Grouped (part (.name n)) :=
  .intro trivial (allGrouped_roots _)

theorem allGrouped_names (ns : List TypedName) : AllGrouped (parts (ns.map .name)) :=
  .map fun n _ => all_name n

theorem all_signature (s : Signature) : All Grouped (part (.signature s)) :=
  .intro trivial ((allGrouped_names _).both (allGrouped_roots _))

end Node

namespace Expr.WellGrouped
variable {e e' : Expr}

theorem here (h : e.WellGrouped) : e.Grouped := h [] e rfl

theorem child (h : e.WellGrouped) {k : Nat}
    (hk : (Node.part (.expr e)).children[k]? = some (.part (.expr e'))) : e'.WellGrouped :=
  fun path d hd => h (k :: path) d (Option.bind_eq_some_iff.2 ⟨_, hk, hd⟩)

end Expr.WellGrouped

end ScriptFront.Syntax

namespace ScriptFront.Phrase
open Syntax Syntax.Node Phrase.Stream

section
variable {s t : Stream} {e left : Expr} {floor : Nat} {anchor : TokenIndex}

namespace Reading

theorem Operations.stops {floor : Nat} {anchor : TokenIndex} {left e : Expr} {s t : Stream} :
    Operations floor anchor left s e t → t.Stops (BindsAbove floor)
  | .done h => h
  | .more _ _ _ h => h.stops

theorem Expression.stops (h : Expression floor s e t) : t.Stops (BindsAbove floor) := by
  cases h with
  | intro _ _ h => exact h.stops

theorem Operations.above {floor : Nat} {anchor : TokenIndex} {left e : Expr} {s t : Stream} :
    Operations floor anchor left s e t → (∀ p ∈ left.binaryOp?, floor < p.level) →
    ∀ p ∈ e.binaryOp?, floor < p.level
  | .more _ ho _ h, _ => h.above fun p hp => by
    cases hp
    exact ho
  | .done _, hl => hl

theorem Suffixes.plain {anchor : TokenIndex} {e whole : Expr} {s t : Stream} :
    Suffixes anchor e s whole t → e.operation? = none → whole.operation? = none
  | .element _ h, _ | .field h, _ | .method _ h, _ | .call _ h, _ => h.plain rfl
  | .done _, he => he

theorem Chain.plain (h : Chain s e t) : e.operation? = none := by
  cases h with
  | name h | parenthesized _ h => exact h.plain rfl

end Reading
end

theorem rightFloor_of_plain {e : Expr} (h : e.operation? = none) : e.rightFloor = 6 := by
  cases e <;> first | rfl | cases h

theorem binaryOp?_of_plain {e : Expr} (h : e.operation? = none) : e.binaryOp? = none := by
  cases e <;> first | rfl | cases h

theorem plain_of_single {n : TokenIndex} {u : Token} {e : Expr} (h : singleToken? n u = some e) :
    e.operation? = none := by
  unfold singleToken? at h
  split at h <;> cases h <;> rfl

theorem all_single {n : TokenIndex} {u : Token} {e : Expr} (h : singleToken? n u = some e) :
    All Grouped (part (.expr e)) := by
  unfold singleToken? at h
  split at h <;> cases h <;> exact .intro trivial nofun

theorem stops_six {s : Stream} : s.Stops (BindsAbove 6) := by
  rintro u - ⟨o, -, ho⟩
  exact absurd o.level_le (Nat.not_le.2 ho)

namespace Reading
section
variable {s t : Stream} {e left : Expr} {floor : Nat}

theorem Operand.not_binary (h : Operand s e t) : e.binaryOp? = none := by
  cases h with
  | single hu => exact binaryOp?_of_plain (plain_of_single hu)
  | chain h => exact binaryOp?_of_plain h.plain
  | unary | table | routine => rfl

/-- No operator is next that the operand would have taken itself. -/
theorem Operand.stops (h : Operand s e t) : t.Stops (BindsAbove e.rightFloor) := by
  cases h with
  | unary _ h => exact h.stops
  | single hu =>
    rw [rightFloor_of_plain (plain_of_single hu)]
    exact stops_six
  | chain h =>
    rw [rightFloor_of_plain h.plain]
    exact stops_six
  | table | routine => exact stops_six

theorem TypeTest.not_binary {anchor : TokenIndex} {e e' : Expr} (h : TypeTest anchor e s e' t)
    (he : e.binaryOp? = .none) : e'.binaryOp? = .none := by
  cases h with
  | is => rfl
  | none => exact he

theorem TypeTest.stops {anchor : TokenIndex} {e e' : Expr} (h : TypeTest anchor e s e' t)
    (hs : s.Stops (BindsAbove e.rightFloor)) : t.Stops (BindsAbove e'.rightFloor) := by
  cases h with
  | is => exact stops_six
  | none => exact hs

theorem Expression.above (h : Expression floor s e t) : ∀ p ∈ e.binaryOp?, floor < p.level := by
  cases h with
  | intro h₁ h₂ h₃ =>
    refine h₃.above fun p hp => ?_
    rw [h₂.not_binary h₁.not_binary] at hp
    cases hp

/-- The next operation is grouped: the left operand has left the operator to it, and the right one
has only taken what binds tighter. -/
theorem grouped_binary {anchor n : TokenIndex} {u : Token} {ts : List Token} {o : BinaryOp}
    {l r : Expr} (hu : BinaryOp.ofToken? u = some o)
    (hl : Stops (BindsAbove l.rightFloor) ⟨n, u :: ts⟩)
    (hr : ∀ p ∈ r.binaryOp?, o.rightFloor < p.level) : (Expr.binary anchor o l r).Grouped := by
  have hle : o.level ≤ l.rightFloor := Nat.not_lt.1 fun hlt => stops_cons.1 hl ⟨o, hu, hlt⟩
  refine ⟨fun p hp => ?_, fun p hp => BinaryOp.takesRight_iff.2 (hr p hp), ?_⟩
  · cases l <;> cases hp
    exact BinaryOp.takesLeft_iff.2 hle
  · rintro rfl
    cases l with
    | unary => exact absurd hle (Nat.not_le.2 (by decide : UnaryOp.floor < 6))
    | binary _ p _ _ => exact absurd (Nat.le_trans hle p.rightFloor_le) (by decide)
    | _ => rfl

theorem TypeTest.all {anchor : TokenIndex} {e e' : Expr} (h : TypeTest anchor e s e' t)
    (he : All Grouped (part (.expr e))) : All Grouped (part (.expr e')) := by
  cases h with
  | is => exact .intro trivial (AllGrouped.cons he (all_root _).only)
  | none => exact he

/-- An indexing or a call, as an expression. -/
theorem all_index {x : Index} (h : AllGrouped (part (.index x)).children) :
    All Grouped (part (.expr (.index x))) := .intro trivial (All.only (.intro trivial h))

theorem all_call {c : Call} (h : AllGrouped (part (.call c)).children) :
    All Grouped (part (.expr (.call c))) := .intro trivial (All.only (.intro trivial h))

theorem all_target {target : Target} (he : All Grouped (part (.expr e)))
    (ht : e.target? = some target) : All Grouped (part (.target target)) := by
  cases e <;> cases ht
  · exact .intro trivial (all_name _).only
  · exact .intro trivial (he.child List.mem_cons_self).only

theorem TypedTarget.all {typed : Syntax.TypedName} : All Grouped (part (.target (.name typed))) :=
  .intro trivial (all_name _).only

end

mutual

theorem Expression.grouped {floor : Nat} {s t : Stream} {e : Expr} :
    Expression floor s e t → All Grouped (part (.expr e))
  | .intro h₁ h₂ h₃ => h₃.grouped (h₂.all h₁.grouped) (h₂.stops h₁.stops)

theorem Operand.grouped {s t : Stream} {e : Expr} : Operand s e t → All Grouped (part (.expr e))
  | .unary _ h =>
    .intro (fun p hp => BinaryOp.eq_power_of_level (h.above p hp)) h.grouped.only
  | .single hu => all_single hu
  | .table h => .intro trivial h.grouped
  | .routine h => .intro trivial h.grouped.only
  | .chain h => h.grouped

theorem Operations.grouped {floor : Nat} {anchor : TokenIndex} {left e : Expr} {s t : Stream} :
    Operations floor anchor left s e t → All Grouped (part (.expr left)) →
    s.Stops (BindsAbove left.rightFloor) → All Grouped (part (.expr e))
  | .more hu _ h h', hl, hs =>
    have hb : (Expr.binary anchor _ _ _).Grouped := grouped_binary hu hs h.above
    h'.grouped (.intro hb (AllGrouped.cons hl h.grouped.only)) h.stops
  | .done _, hl, _ => hl

theorem Chain.grouped {s t : Stream} {e : Expr} : Chain s e t → All Grouped (part (.expr e))
  | .name h => h.grouped (.intro trivial nofun)
  | .parenthesized h h' => h'.grouped (.intro trivial h.grouped.only)

theorem Suffixes.grouped {anchor : TokenIndex} {e whole : Expr} {s t : Stream} :
    Suffixes anchor e s whole t → All Grouped (part (.expr e)) → All Grouped (part (.expr whole))
  | .element h h', he => h'.grouped (all_index (.cons he h.grouped.only))
  | .field h, he => h.grouped (all_index he.only)
  | .method h h', he | .call h h', he => h'.grouped (all_call (.cons he h.grouped))
  | .done _, he => he

theorem Arguments.grouped {s t : Stream} {args : List Expr} :
    Arguments s args t → AllGrouped (parts (args.map .expr))
  | .none => .nil
  | .list h => h.grouped
  | .table h => All.only (.intro trivial h.grouped)
  | .string => All.only (.intro trivial nofun)

theorem Expressions.grouped {s t : Stream} {es : List Expr} :
    Expressions s es t → AllGrouped (parts (es.map .expr))
  | .intro h h' => .cons h.grouped h'.grouped

theorem MoreExpressions.grouped {s t : Stream} {es : List Expr} :
    MoreExpressions s es t → AllGrouped (parts (es.map .expr))
  | .more h => h.grouped
  | .done _ => .nil

theorem TableItems.grouped {s t : Stream} {xs : List Syntax.TableItem} :
    TableItems s xs t → AllGrouped (parts (xs.map .tableItem))
  | .none => .nil
  | .more h _ h' => .cons h.grouped h'.grouped
  | .last h => h.grouped.only

theorem TableItem.grouped {s t : Stream} {x : Syntax.TableItem} :
    TableItem s x t → All Grouped (part (.tableItem x))
  | .keyed h h' => .intro trivial (AllGrouped.cons h.grouped h'.grouped.only)
  | .named h | .positional _ h => .intro trivial h.grouped.only

theorem RoutineBody.grouped {s t : Stream} {r : Routine} :
    RoutineBody s r t → All Grouped (part (.routine r))
  | .intro _ h => .intro trivial (AllGrouped.cons (all_signature _) h.grouped)

theorem Block.grouped {closers : Closers} {returned : Bool} {s t : Stream} {body : Syntax.Block}
    {k : Keyword} : Block closers returned s body k t → AllGrouped (parts (body.map .stmt))
  | .close _ _ => .nil
  | .cons h h' => .cons h.grouped h'.grouped

theorem Statement.grouped {s t : Stream} {stmt : Stmt} :
    Statement s stmt t → All Grouped (part (.stmt stmt))
  | .scope h => .intro trivial h.grouped
  | .whileLoop h h' => .intro trivial (AllGrouped.cons h.grouped h'.grouped)
  | .repeatLoop h h' => .intro trivial (h.grouped.both h'.grouped.only)
  | .choice h => .intro trivial h.grouped
  | .forLoop h => h.grouped
  | .routine _ h | .localRoutine h => .intro trivial h.grouped.only
  | .localValues _ h => .intro trivial ((allGrouped_names _).both h.grouped)
  | .localNames _ _ => .intro trivial ((allGrouped_names _).both .nil)
  | .returnEnded h | .returnValues h _ => .intro trivial h.grouped
  | .breakLoop | .goto | .label => .intro trivial nofun
  | .assignmentOrCall h => h.grouped

theorem ReturnValues.grouped {s t : Stream} {es : List Expr} :
    ReturnValues s es t → AllGrouped (parts (es.map .expr))
  | .list h h' => .cons h.grouped h'.grouped
  | .none _ => .nil

theorem Branches.grouped {s t : Stream} {list : List Branch} {otherwise : Option Syntax.Block} :
    Branches s list otherwise t →
    AllGrouped (parts (list.map .branch ++ (otherwise.getD []).map .stmt))
  | .elseif h h' h'' => .cons (.intro trivial (AllGrouped.cons h.grouped h'.grouped)) h''.grouped
  | .otherwise h h' h'' =>
    .cons (.intro trivial (AllGrouped.cons h.grouped h'.grouped)) h''.grouped
  | .last h h' _ _ => All.only (.intro trivial (AllGrouped.cons h.grouped h'.grouped))

theorem ForLoop.grouped {anchor : TokenIndex} {s t : Stream} {loop : Stmt} :
    ForLoop anchor s loop t → All Grouped (part (.stmt loop))
  | .numeric _ h₁ h₂ h₃ h₄ => by
    have hvalues := AllGrouped.cons h₁.grouped (.cons h₂.grouped (h₃.grouped.both h₄.grouped))
    exact .intro trivial (AllGrouped.cons (all_name _) hvalues)
  | .generic _ h h' => .intro trivial (((allGrouped_names _).both h.grouped).both h'.grouped)

theorem StepValue.grouped {s t : Stream} {step : Option Expr} :
    StepValue s step t → AllGrouped (parts (step.toList.map .expr))
  | .step h => h.grouped.only
  | .none _ => .nil

theorem AssignmentOrCall.grouped {s t : Stream} {stmt : Stmt} :
    AssignmentOrCall s stmt t → All Grouped (part (.stmt stmt))
  | .typed _ h => h.grouped TypedTarget.all
  | .assign h htarget h' => h'.grouped (all_target h.grouped htarget)
  | .update h _ htarget h' =>
    .intro trivial (AllGrouped.cons (all_target h.grouped htarget) h'.grouped.only)
  | .call (e := e) h hc _ => by
    have he := h.grouped
    cases e <;> cases hc
    exact .intro trivial (he.child List.mem_cons_self).only

theorem Assignment.grouped {anchor : TokenIndex} {first : Target} {s t : Stream} {stmt : Stmt} :
    Assignment anchor first s stmt t → All Grouped (part (.target first)) →
    All Grouped (part (.stmt stmt))
  | .intro h h', hf => by
    have htargets : AllGrouped (parts (List.map .target (first :: _))) := .cons hf h.grouped
    exact .intro trivial (htargets.both h'.grouped)

theorem MoreTargets.grouped {s t : Stream} {targets : List Target} :
    MoreTargets s targets t → AllGrouped (parts (targets.map .target))
  | .more h h' => .cons h.grouped h'.grouped
  | .done _ => .nil

theorem OneTarget.grouped {s t : Stream} {target : Target} :
    OneTarget s target t → All Grouped (part (.target target))
  | .typed _ => TypedTarget.all
  | .chain h htarget => all_target h.grouped htarget

end

end Reading

/-- What may stand behind an expression that is read whole: the end, a closing bracket, or an operator
that its last operand leaves alone. -/
def MayEnd (floor : Nat) (s : Stream) : Prop :=
  ∀ u ∈ s.left.head?, u = .operator .roundRight ∨
    ∃ o, BinaryOp.ofToken? u = some o ∧ o.level ≤ floor

namespace MayEnd
variable {floor floor' n : Nat} {s : Stream} {ts : List Token} {o : BinaryOp}

theorem mono (h : MayEnd floor s) (hf : floor ≤ floor') : MayEnd floor' s := by
  intro u hu
  rcases h u hu with rfl | ⟨o, ho, hl⟩
  · exact .inl rfl
  · exact .inr ⟨o, ho, Nat.le_trans hl hf⟩

theorem stops (h : MayEnd floor s) : s.Stops (BindsAbove floor) := by
  rintro u hu ⟨p, hp, hlt⟩
  rcases h u hu with rfl | ⟨o, ho, hl⟩
  · cases hp
  · cases ho.symm.trans hp
    exact absurd hl (Nat.not_le.2 hlt)

theorem stops_is (h : MayEnd floor s) : s.Stops (· = .keyword .is_) := by
  rintro u hu rfl
  rcases h _ hu with h | ⟨o, ho, -⟩
  · cases h
  · cases ho

theorem stops_suffix (h : MayEnd floor s) : s.Stops (startsSuffix ·) := by
  intro u hu hs
  rcases h u hu with rfl | ⟨o, ho, -⟩
  · cases hs
  · obtain rfl := token_of_binary ho
    cases o with
    | arithmetic a => cases a <;> cases hs
    | _ => cases hs

end MayEnd

theorem ofToken?_token (o : BinaryOp) : BinaryOp.ofToken? o.token = some o := by
  cases o with
  | arithmetic a => cases a <;> rfl
  | _ => rfl

theorem unaryOfToken?_token (op : UnaryOp) : UnaryOp.ofToken? op.token = some op := by
  cases op <;> rfl

namespace Reading

/-- The reading of an expression begins at `s` such that at `m` all of `e` has been read: operations
that go on from it there go on from the first operand. -/
def Begins (floor : Nat) (e : Expr) (s m : Stream) : Prop :=
  ∃ e₁ s₁ e', Operand s e₁ s₁ ∧ s₁.Stops (· = .keyword .is_) ∧
    e'.mapAnchor forget = e.mapAnchor forget ∧
    ∀ whole t, Operations floor s.next e' m whole t → Operations floor s.next e₁ s₁ whole t

variable {floor : Nat} {e : Expr} {s m : Stream}

theorem Begins.expression (h : Begins floor e s m) (hm : m.Stops (BindsAbove floor)) :
    ∃ e', Expression floor s e' m ∧ e'.mapAnchor forget = e.mapAnchor forget := by
  obtain ⟨e₁, s₁, e', h₁, his, he, hops⟩ := h
  exact ⟨e', .intro h₁ (.none his) (hops e' m (.done hm)), he⟩

theorem Begins.operand {e' : Expr} (h : Operand s e' m) (hm : MayEnd (e'.rightFloor) m)
    (he : e'.mapAnchor forget = e.mapAnchor forget) : Begins floor e s m :=
  ⟨e', m, e', h, hm.stops_is, he, fun _ _ h => h⟩

theorem rightFloor_of_takes {o : BinaryOp} {l : Expr} (hl : ∀ p ∈ l.binaryOp?, o.TakesLeft p)
    (hp : o = .arithmetic .power → l.operation? = none) : o.level ≤ l.rightFloor := by
  cases l with
  | binary _ p _ _ => exact BinaryOp.takesLeft_iff.1 (hl p rfl)
  | unary =>
    refine Nat.not_lt.1 fun h => ?_
    cases hp (BinaryOp.eq_power_of_level h)
  | _ => exact o.level_le

theorem rightFloor_le_of_takes {o : BinaryOp} {r : Expr}
    (hr : ∀ p ∈ r.binaryOp?, o.TakesRight p) : o.rightFloor ≤ r.rightFloor := by
  cases r with
  | binary _ p _ _ =>
    have := BinaryOp.takesRight_iff.1 (hr p rfl)
    have : p.level - 1 ≤ p.rightFloor := by
      unfold BinaryOp.rightFloor
      split <;> omega
    simp only [Expr.rightFloor]
    omega
  | unary => exact o.rightFloor_le
  | _ => exact Nat.le_trans o.rightFloor_le (Nat.le_succ 5)

theorem floor_le_rightFloor (h : ∀ p ∈ e.binaryOp?, p = .arithmetic .power) :
    UnaryOp.floor ≤ e.rightFloor := by
  cases e with
  | binary _ p _ _ =>
    obtain rfl := h p rfl
    exact Nat.le_refl _
  | unary => exact Nat.le_refl _
  | _ => exact Nat.le_succ 5

theorem begins_single {u : Token} {e' : Expr} (hs : After [u] s m) (hm : MayEnd 6 m)
    (hu : singleToken? s.next u = some e') (he : e'.mapAnchor forget = e.mapAnchor forget) :
    Begins floor e s m := by
  obtain ⟨n, ts, rfl, h⟩ := after_cons_iff.1 hs
  obtain rfl := after_nil_iff.1 h
  rw [← rightFloor_of_plain (plain_of_single hu)] at hm
  exact .operand (.single hu) hm he

/-- A tree of operations that are grouped is read from its tokens. -/
theorem begins_of_grouped (ht : e.IsOperationTree) (hg : e.WellGrouped)
    (hs : After e.spelling s m) (hf : ∀ p ∈ e.binaryOp?, floor < p.level)
    (hm : MayEnd e.rightFloor m) : Begins floor e s m := by
  induction ht generalizing floor s m with
  | nil => exact begins_single hs hm rfl rfl
  | @bool i v => cases v <;> exact begins_single hs hm rfl rfl
  | number => exact begins_single hs hm rfl rfl
  | name =>
    obtain ⟨n, ts, rfl, h⟩ := after_cons_iff.1 hs
    obtain rfl := after_nil_iff.1 h
    exact .operand (.chain (.name (.done hm.stops_suffix))) hm rfl
  | @unary e i op _ ih =>
    obtain ⟨n, ts, rfl, hs'⟩ := after_cons_iff.1 hs
    have hop : ∀ p ∈ e.binaryOp?, p = .arithmetic .power := hg.here
    have hlevel : ∀ p ∈ e.binaryOp?, UnaryOp.floor < p.level := by
      intro p hp
      rw [hop p hp]
      decide
    have hbegins := ih (hg.child (k := 0) rfl) hs' hlevel (hm.mono (floor_le_rightFloor hop))
    obtain ⟨e', h, he⟩ := hbegins.expression hm.stops
    refine .operand (.unary (unaryOfToken?_token op) h) hm ?_
    rw [Expr.mapAnchor, Expr.mapAnchor, he]
    rfl
  | @binary l r i o _ _ ihl ihr =>
    obtain ⟨m₁, hsl, hs⟩ := after_append_iff.1 hs
    obtain ⟨n, ts, rfl, hsr⟩ := after_cons_iff.1 hs
    obtain ⟨hleft, hright, hpower⟩ := hg.here
    have ho : floor < o.level := hf o rfl
    have hl : Begins floor l s ⟨n, o.token :: ts⟩ := by
      refine ihl (hg.child (k := 0) rfl) hsl (fun p hp => ?_) fun u hu => ?_
      · rcases hleft p hp with h | ⟨h, -⟩ <;> omega
      · cases hu
        exact .inr ⟨o, ofToken?_token o, rightFloor_of_takes hleft hpower⟩
    have hr : Begins o.rightFloor r ⟨n + 1, ts⟩ m :=
      ihr (hg.child (k := 1) rfl) hsr
        (fun p hp => BinaryOp.takesRight_iff.1 (hright p hp))
        (hm.mono (rightFloor_le_of_takes hright))
    obtain ⟨r', hr, her⟩ := hr.expression hm.stops
    obtain ⟨e₁, s₁, l', h₁, his, hel, hops⟩ := hl
    refine ⟨e₁, s₁, .binary s.next o l' r', h₁, his, ?_, fun whole t h => ?_⟩
    · rw [Expr.mapAnchor, Expr.mapAnchor, hel, her]
      rfl
    · exact hops whole t (.more (ofToken?_token o) ho hr h)

end Reading

/-- Precedence climbing is sound and complete. All operations of an expression that is read are
grouped, and each tree of operations that are grouped is read from its tokens, as it stands. -/
theorem expression_groups :
    (∀ s e t h, expression 0 s = .ok ⟨e, t, h⟩ → e.WellGrouped) ∧
    ∀ e : Expr, e.IsOperationTree → e.WellGrouped → ∀ s t : Stream, After e.spelling s t →
      (t.left = [] ∨ ∃ rest, t.left = .operator .roundRight :: rest) →
      ∃ e' h, expression 0 s = .ok ⟨e', t, h⟩ ∧ e'.mapAnchor forget = e.mapAnchor forget := by
  constructor
  · intro s e t h hr path e' he
    exact (expression_yields_iff.1 ⟨h, hr⟩).grouped.at? he
  · intro e ht hg s t hs hend
    have hends (n : Nat) : MayEnd n t := by
      intro u hu
      rcases hend with h | ⟨rest, h⟩
      · rw [h] at hu
        cases hu
      · rw [h] at hu
        cases hu
        exact .inl rfl
    have hbegins := Reading.begins_of_grouped ht hg hs (fun p _ => p.level_pos) (hends _)
    obtain ⟨e', h, he⟩ := hbegins.expression (hends 0).stops
    obtain ⟨hf, hr⟩ := expression_yields_iff.2 h
    exact ⟨e', hf, hr, he⟩

/-- `-a ^ b .. c == nil` -/
def mixedOperations : Expr :=
  .binary 0 .concat
    (.unary 0 .negate (.binary 1 (.arithmetic .power) (.name 1 "a") (.name 3 "b")))
    (.binary 5 .equal (.name 5 "c") (.nil 7))

theorem isOperationTree_mixed : mixedOperations.IsOperationTree :=
  .binary (.unary (.binary .name .name)) (.binary .name .nil)

theorem wellGrouped_mixed : mixedOperations.WellGrouped := by
  have hname (i w) : All Grouped (part (.expr (.name i w))) := .intro trivial nofun
  have hnil : All Grouped (part (.expr (.nil 7))) := .intro trivial nofun
  have hpower : All Grouped (part (.expr
      (.binary 1 (.arithmetic .power) (.name 1 "a") (.name 3 "b")))) :=
    .intro ⟨nofun, nofun, fun _ => rfl⟩ (AllGrouped.cons (hname _ _) (hname _ _).only)
  have hequal : All Grouped (part (.expr (.binary 5 .equal (.name 5 "c") (.nil 7)))) :=
    .intro ⟨nofun, nofun, nofun⟩ (AllGrouped.cons (hname _ _) hnil.only)
  have hnegate : All Grouped (part (.expr (.unary 0 .negate
      (.binary 1 (.arithmetic .power) (.name 1 "a") (.name 3 "b"))))) :=
    .intro (fun p hp => by cases hp; rfl) hpower.only
  have hall : All Grouped (part (.expr mixedOperations)) := by
    refine .intro ⟨nofun, fun p hp => ?_, nofun⟩ (AllGrouped.cons hnegate hequal.only)
    cases hp
    exact .inr ⟨rfl, rfl⟩
  exact fun path e' => hall.at?

/-- The comparison goes to the right operand of `..`, which stands on its level but groups to the
right. -/
theorem expression_groups_mixed :
    mixedOperations.WellGrouped ∧ ∃ e h,
      expression 0 (.ofTokens mixedOperations.spelling) = .ok ⟨e, ⟨8, []⟩, h⟩ ∧
      e.mapAnchor forget = mixedOperations.mapAnchor forget ∧ e.WellGrouped := by
  obtain ⟨hsound, hcomplete⟩ := expression_groups
  obtain ⟨e, h, hr, he⟩ := hcomplete mixedOperations isOperationTree_mixed wellGrouped_mixed
    (.ofTokens mixedOperations.spelling) ⟨8, []⟩ ⟨rfl, rfl⟩ (.inl rfl)
  exact ⟨wellGrouped_mixed, e, h, hr, he, hsound _ _ _ _ hr⟩

end ScriptFront.Phrase
