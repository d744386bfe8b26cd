import ScriptFront.Syntax.Declaration
/-! Trees with other anchors. Two trees that are the same once all anchors are erased differ only in
where their tokens stand. -/
namespace ScriptFront.Syntax

def forget (_ : TokenIndex) : TokenIndex := 0

variable (f : TokenIndex → TokenIndex)

def Literal.mapAnchor : Literal → Literal
  | bool i v => .bool (f i) v
  | number i v => .number (f i) v
  | string i v => .string (f i) v

def TypeExpr.mapAnchor : TypeExpr → TypeExpr
  | name i n => .name (f i) n
  | member i p n => .member (f i) p n
  | optional i t => .optional (f i) t.mapAnchor
  | array i t => .array (f i) t.mapAnchor
  | dictionary i k v => .dictionary (f i) k.mapAnchor v.mapAnchor

def TypedName.mapAnchor (n : TypedName) : TypedName :=
  ⟨f n.anchor, n.name, n.type?.map (·.mapAnchor f)⟩

def Signature.mapAnchor (s : Signature) : Signature :=
  ⟨s.parameters.map (·.mapAnchor f), s.isVariadic, s.returns.map (·.mapAnchor f)⟩

mutual

def Expr.mapAnchor : Expr → Expr
  | .nil i => .nil (f i)
  | .varArgs i => .varArgs (f i)
  | .literal l => .literal (l.mapAnchor f)
  | .routine i r => .routine (f i) r.mapAnchor
  | .unary i op e => .unary (f i) op e.mapAnchor
  | .binary i op a b => .binary (f i) op a.mapAnchor b.mapAnchor
  | .table i items => .table (f i) (mapAnchorItems items)
  | .parenthesized i e => .parenthesized (f i) e.mapAnchor
  | .call c => .call c.mapAnchor
  | .name i n => .name (f i) n
  | .index x => .index x.mapAnchor
  | .typeTest i e t => .typeTest (f i) e.mapAnchor (t.mapAnchor f)

def Call.mapAnchor : Call → Call
  | .plain i e args => .plain (f i) e.mapAnchor (mapAnchorExprs args)
  | .method i e m args => .method (f i) e.mapAnchor m (mapAnchorExprs args)

def Index.mapAnchor : Index → Index
  | .element i e k => .element (f i) e.mapAnchor k.mapAnchor
  | .field i e n => .field (f i) e.mapAnchor n

def TableItem.mapAnchor : TableItem → TableItem
  | .positional v => .positional v.mapAnchor
  | .named n v => .named n v.mapAnchor
  | .keyed k v => .keyed k.mapAnchor v.mapAnchor

def Routine.mapAnchor : Routine → Routine
  | ⟨sig, body⟩ => ⟨sig.mapAnchor f, mapAnchorBlock body⟩

def Stmt.mapAnchor : Stmt → Stmt
  | .scope i body => .scope (f i) (mapAnchorBlock body)
  | .assign i targets values => .assign (f i) (mapAnchorTargets targets) (mapAnchorExprs values)
  | .update i target op value => .update (f i) target.mapAnchor op value.mapAnchor
  | .whileLoop i condition body => .whileLoop (f i) condition.mapAnchor (mapAnchorBlock body)
  | .repeatLoop i body condition => .repeatLoop (f i) (mapAnchorBlock body) condition.mapAnchor
  | .choice i branches otherwise =>
    .choice (f i) (mapAnchorBranches branches) (match otherwise with
      | some body => some (mapAnchorBlock body)
      | none => none)
  | .numericFor i counter start stop step body =>
    .numericFor (f i) (counter.mapAnchor f) start.mapAnchor stop.mapAnchor (match step with
      | some e => some e.mapAnchor
      | none => none) (mapAnchorBlock body)
  | .genericFor i names iterators body =>
    .genericFor (f i) (names.map (·.mapAnchor f)) (mapAnchorExprs iterators) (mapAnchorBlock body)
  | .localNames i names values =>
    .localNames (f i) (names.map (·.mapAnchor f)) (mapAnchorExprs values)
  | .localRoutine i n r => .localRoutine (f i) n r.mapAnchor
  | .routine i path isMethod r => .routine (f i) path isMethod r.mapAnchor
  | .goto i l => .goto (f i) l
  | .label i n => .label (f i) n
  | .returnValues i values => .returnValues (f i) (mapAnchorExprs values)
  | .breakLoop i => .breakLoop (f i)
  | .call i c => .call (f i) c.mapAnchor

def Target.mapAnchor : Target → Target
  | .name n => .name (n.mapAnchor f)
  | .index x => .index x.mapAnchor

def Branch.mapAnchor : Branch → Branch
  | ⟨condition, body⟩ => ⟨condition.mapAnchor, mapAnchorBlock body⟩

def mapAnchorExprs : List Expr → List Expr
  | [] => []
  | e :: es => e.mapAnchor :: mapAnchorExprs es

def mapAnchorItems : List TableItem → List TableItem
  | [] => []
  | x :: xs => x.mapAnchor :: mapAnchorItems xs

def mapAnchorBlock : List Stmt → List Stmt
  | [] => []
  | s :: ss => s.mapAnchor :: mapAnchorBlock ss

def mapAnchorTargets : List Target → List Target
  | [] => []
  | t :: ts => t.mapAnchor :: mapAnchorTargets ts

def mapAnchorBranches : List Branch → List Branch
  | [] => []
  | b :: bs => b.mapAnchor :: mapAnchorBranches bs

end

def Conformance.mapAnchor (c : Conformance) : Conformance := ⟨f c.anchor, c.name⟩

def ClassMember.mapAnchor : ClassMember → ClassMember
  | property i n t initial =>
    .property (f i) n (t.mapAnchor f) (initial.map (·.mapAnchor f))
  | override i n v => .override (f i) n (v.mapAnchor f)
  | method i n r => .method (f i) n (r.mapAnchor f)

def ProtocolMember.mapAnchor : ProtocolMember → ProtocolMember
  | property i n t => .property (f i) n (t.mapAnchor f)
  | method i n s => .method (f i) n (s.mapAnchor f)

def AssociatedType.mapAnchor (a : AssociatedType) : AssociatedType :=
  ⟨a.label?, a.type.mapAnchor f⟩

def EnumCase.mapAnchor (c : EnumCase) : EnumCase :=
  ⟨f c.anchor, c.name, c.associated.map (·.mapAnchor f), c.rawValue?.map (·.mapAnchor f)⟩

def ClassDecl.mapAnchor (d : ClassDecl) : ClassDecl :=
  ⟨f d.anchor, d.name, d.conforms.map (·.mapAnchor f), d.members.map (·.mapAnchor f)⟩

def ProtocolDecl.mapAnchor (d : ProtocolDecl) : ProtocolDecl :=
  ⟨f d.anchor, d.name, d.conforms.map (·.mapAnchor f), d.members.map (·.mapAnchor f)⟩

def EnumDecl.mapAnchor (d : EnumDecl) : EnumDecl :=
  ⟨f d.anchor, d.name, d.conforms.map (·.mapAnchor f), d.cases.map (·.mapAnchor f)⟩

def AliasDecl.mapAnchor (d : AliasDecl) : AliasDecl := ⟨f d.anchor, d.name, d.type.mapAnchor f⟩

def Declaration.mapAnchor : Declaration → Declaration
  | ofClass d => .ofClass (d.mapAnchor f)
  | ofProtocol d => .ofProtocol (d.mapAnchor f)
  | ofEnum d => .ofEnum (d.mapAnchor f)

def Item.mapAnchor : Item → Item
  | object d => .object (d.mapAnchor f)
  | typeAlias d => .typeAlias (d.mapAnchor f)
  | statement s => .statement (s.mapAnchor f)

def eraseChunk (c : Chunk) : Chunk := c.map (·.mapAnchor forget)

/-! The same anchors make the same tree. -/

section Same

@[simp] theorem Literal.mapAnchor_id (l : Literal) : l.mapAnchor id = l := by cases l <;> rfl

@[simp] theorem TypeExpr.mapAnchor_id (t : TypeExpr) : t.mapAnchor id = t := by
  induction t with
  | name | member => rfl
  | optional i t ih | array i t ih => rw [mapAnchor, ih, id]
  | dictionary i k v ihk ihv => rw [mapAnchor, ihk, ihv, id]

@[simp] theorem TypedName.mapAnchor_id (n : TypedName) : n.mapAnchor id = n := by
  cases n
  simp [mapAnchor]

@[simp] theorem Signature.mapAnchor_id (s : Signature) : s.mapAnchor id = s := by
  cases s
  simp [mapAnchor]

mutual

@[simp] theorem Expr.mapAnchor_id (e : Expr) : e.mapAnchor id = e := by
  cases e with
  | nil | varArgs | name => simp only [Expr.mapAnchor, id]
  | literal l => simp only [Expr.mapAnchor, Literal.mapAnchor_id]
  | routine i r => simp only [Expr.mapAnchor, r.mapAnchor_id, id]
  | unary i op e | parenthesized i e => simp only [Expr.mapAnchor, e.mapAnchor_id, id]
  | binary i op a b => simp only [Expr.mapAnchor, a.mapAnchor_id, b.mapAnchor_id, id]
  | table i items => simp only [Expr.mapAnchor, mapAnchorItems_id items, id]
  | call c => simp only [Expr.mapAnchor, c.mapAnchor_id]
  | index x => simp only [Expr.mapAnchor, x.mapAnchor_id]
  | typeTest i e t => simp only [Expr.mapAnchor, e.mapAnchor_id, TypeExpr.mapAnchor_id, id]

theorem Call.mapAnchor_id (c : Call) : c.mapAnchor id = c := by
  cases c with
  | plain i e args | method i e m args =>
    simp only [Call.mapAnchor, e.mapAnchor_id, mapAnchorExprs_id args, id]

theorem Index.mapAnchor_id (x : Index) : x.mapAnchor id = x := by
  cases x with
  | element i e k => simp only [Index.mapAnchor, e.mapAnchor_id, k.mapAnchor_id, id]
  | field i e n => simp only [Index.mapAnchor, e.mapAnchor_id, id]

theorem TableItem.mapAnchor_id (x : TableItem) : x.mapAnchor id = x := by
  cases x with
  | positional v | named n v => simp only [TableItem.mapAnchor, v.mapAnchor_id]
  | keyed k v => simp only [TableItem.mapAnchor, k.mapAnchor_id, v.mapAnchor_id]

@[simp] theorem Routine.mapAnchor_id (r : Routine) : r.mapAnchor id = r := by
  cases r with
  | mk sig body => simp only [Routine.mapAnchor, Signature.mapAnchor_id, mapAnchorBlock_id body]

@[simp] theorem Stmt.mapAnchor_id (s : Stmt) : s.mapAnchor id = s := by
  cases s with
  | scope i body => simp only [Stmt.mapAnchor, mapAnchorBlock_id body, id]
  | assign i targets values =>
    simp only [Stmt.mapAnchor, mapAnchorTargets_id targets, mapAnchorExprs_id values, id]
  | update i target op value =>
    simp only [Stmt.mapAnchor, target.mapAnchor_id, value.mapAnchor_id, id]
  | whileLoop i e body | repeatLoop i body e =>
    simp only [Stmt.mapAnchor, e.mapAnchor_id, mapAnchorBlock_id body, id]
  | choice i branches otherwise =>
    cases otherwise with
    | none => simp only [Stmt.mapAnchor, mapAnchorBranches_id branches, id]
    | some body =>
      simp only [Stmt.mapAnchor, mapAnchorBranches_id branches, mapAnchorBlock_id body, id]
  | numericFor i counter start stop step body =>
    cases step with
    | none =>
      simp only [Stmt.mapAnchor, TypedName.mapAnchor_id, start.mapAnchor_id, stop.mapAnchor_id,
        mapAnchorBlock_id body, id]
    | some e =>
      simp only [Stmt.mapAnchor, TypedName.mapAnchor_id, start.mapAnchor_id, stop.mapAnchor_id,
        e.mapAnchor_id, mapAnchorBlock_id body, id]
  | genericFor i names iterators body =>
    simp only [Stmt.mapAnchor, TypedName.mapAnchor_id, List.map_id', mapAnchorExprs_id iterators,
      mapAnchorBlock_id body, id]
  | localNames i names values =>
    simp only [Stmt.mapAnchor, TypedName.mapAnchor_id, List.map_id', mapAnchorExprs_id values, id]
  | localRoutine i n r | routine i path isMethod r => simp only [Stmt.mapAnchor, r.mapAnchor_id, id]
  | returnValues i values => simp only [Stmt.mapAnchor, mapAnchorExprs_id values, id]
  | goto | label | breakLoop => simp only [Stmt.mapAnchor, id]
  | call i c => simp only [Stmt.mapAnchor, c.mapAnchor_id, id]

theorem Target.mapAnchor_id (t : Target) : t.mapAnchor id = t := by
  cases t with
  | name n => simp only [Target.mapAnchor, TypedName.mapAnchor_id]
  | index x => simp only [Target.mapAnchor, x.mapAnchor_id]

theorem Branch.mapAnchor_id (b : Branch) : b.mapAnchor id = b := by
  cases b with
  | mk e body => simp only [Branch.mapAnchor, e.mapAnchor_id, mapAnchorBlock_id body]

theorem mapAnchorExprs_id (es : List Expr) : mapAnchorExprs id es = es := by
  cases es with
  | nil => simp only [mapAnchorExprs]
  | cons e es => simp only [mapAnchorExprs, e.mapAnchor_id, mapAnchorExprs_id es]

theorem mapAnchorItems_id (xs : List TableItem) : mapAnchorItems id xs = xs := by
  cases xs with
  | nil => simp only [mapAnchorItems]
  | cons x xs => simp only [mapAnchorItems, x.mapAnchor_id, mapAnchorItems_id xs]

theorem mapAnchorBlock_id (ss : List Stmt) : mapAnchorBlock id ss = ss := by
  cases ss with
  | nil => simp only [mapAnchorBlock]
  | cons s ss => simp only [mapAnchorBlock, s.mapAnchor_id, mapAnchorBlock_id ss]

theorem mapAnchorTargets_id (ts : List Target) : mapAnchorTargets id ts = ts := by
  cases ts with
  | nil => simp only [mapAnchorTargets]
  | cons t ts => simp only [mapAnchorTargets, t.mapAnchor_id, mapAnchorTargets_id ts]

theorem mapAnchorBranches_id (bs : List Branch) : mapAnchorBranches id bs = bs := by
  cases bs with
  | nil => simp only [mapAnchorBranches]
  | cons b bs => simp only [mapAnchorBranches, b.mapAnchor_id, mapAnchorBranches_id bs]

end

@[simp] theorem Conformance.mapAnchor_id (c : Conformance) : c.mapAnchor id = c := rfl

@[simp] theorem ClassMember.mapAnchor_id (m : ClassMember) : m.mapAnchor id = m := by
  cases m <;> simp [mapAnchor]

@[simp] theorem ProtocolMember.mapAnchor_id (m : ProtocolMember) : m.mapAnchor id = m := by
  cases m <;> simp [mapAnchor]

@[simp] theorem EnumCase.mapAnchor_id (c : EnumCase) : c.mapAnchor id = c := by
  cases c
  simp [mapAnchor, AssociatedType.mapAnchor]

@[simp] theorem Declaration.mapAnchor_id (d : Declaration) : d.mapAnchor id = d := by
  cases d <;>
    simp [mapAnchor, ClassDecl.mapAnchor, ProtocolDecl.mapAnchor, EnumDecl.mapAnchor]

@[simp] theorem Item.mapAnchor_id (item : Item) : item.mapAnchor id = item := by
  cases item <;> simp [mapAnchor, AliasDecl.mapAnchor]

end Same

end ScriptFront.Syntax
