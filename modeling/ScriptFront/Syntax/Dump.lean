import ScriptFront.Syntax.Declaration
import ScriptFront.Text.Dump
/-! How syntax trees are dumped: each node with its label, its anchor and its parts. -/
namespace ScriptFront.Syntax
open Text (Dump)

def dumpIndex (i : TokenIndex) : Dump := .tuple "TokenIndex" [.word (toString i)]
def node (label : String) (anchor : TokenIndex) (fields : List (String × Dump)) : Dump :=
  .record label (("at", dumpIndex anchor) :: fields)

def Arithmetic.label : Arithmetic → String
  | add => "Plus"
  | subtract => "Minus"
  | multiply => "Multiply"
  | divide => "Divide"
  | modulo => "Modulus"
  | power => "Exponent"

def BinaryOp.label : BinaryOp → String
  | or => "Or"
  | and => "And"
  | equal => "Equal"
  | notEqual => "NotEqual"
  | less => "LessThan"
  | lessEqual => "LessThanEqual"
  | greater => "GreaterThan"
  | greaterEqual => "GreaterThanEqual"
  | concat => "Concatenate"
  | arithmetic op => op.label

def UnaryOp.label : UnaryOp → String
  | negate => "Minus"
  | not => "Not"
  | length => "Length"

def TypeExpr.dump : TypeExpr → Dump
  | name i n => .record "Name" [("name", .ofString n), ("at", dumpIndex i)]
  | member i p n =>
    .record "Index" [("parent", .ofString p), ("name", .ofString n), ("at", dumpIndex i)]
  | optional i t => .record "Optional" [("inner", t.dump), ("at", dumpIndex i)]
  | array i t => .record "Array" [("element", t.dump), ("at", dumpIndex i)]
  | dictionary i k v =>
    .record "Dictionary" [("key", k.dump), ("value", v.dump), ("at", dumpIndex i)]

def TypedName.dump (n : TypedName) : Dump :=
  .record "TypedIdentifier"
    [("name", .ofString n.name), ("ty", .ofOption TypeExpr.dump n.type?), ("at", dumpIndex n.anchor)]

def Signature.dump (s : Signature) : Dump :=
  .record "FunctionSignature" [("parameters", .list (s.parameters.map TypedName.dump)),
    ("returns", .list (s.returns.map TypeExpr.dump)), ("is_vararg", .ofBool s.isVariadic)]

def Literal.dump : Literal → Dump
  | bool i b => node "Bool" i [("value", .ofBool b)]
  | number i x => node "Number" i [("value", .word (Number.Layout.full.write x))]
  | string i s => node "Str" i [("value", .ofString s)]

def Call.label : Call → String
  | plain _ _ _ => "Call"
  | method _ _ _ _ => "Invocation"

def Index.label : Index → String
  | element _ _ _ => "ExpressionIndex"
  | field _ _ _ => "IdentifierIndex"

mutual

def Expr.dump : Expr → Dump
  | .nil i => node "Nil" i []
  | .varArgs i => node "VarArgs" i []
  | .literal l => l.dump
  | .routine i r => node "Function" i [("function", r.dump)]
  | .unary i op e =>
    node "Operation" i [("operator", .word op.label), ("left", e.dump), ("right", .none)]
  | .binary i op a b =>
    node "Operation" i [("operator", .word op.label), ("left", a.dump), ("right", .some b.dump)]
  | .table i items => node "Table" i [("items", .list (dumpItems items))]
  | .parenthesized i e => node "Parenthesized" i [("expression", e.dump)]
  | .call c => c.dump
  | .name i n => node "Variable" i [("name", .ofString n)]
  | .index x => x.dump
  | .typeTest i e t => node "Is" i [("expression", e.dump), ("ty", t.dump)]

def Call.dump : Call → Dump
  | .plain i e args => node "Call" i [("callee", e.dump), ("arguments", .list (dumpExprs args))]
  | .method i e m args =>
    node "Invocation" i
      [("callee", e.dump), ("method", .ofString m), ("arguments", .list (dumpExprs args))]

def Index.dump : Index → Dump
  | .element i e k => node "ExpressionIndex" i [("indexed", e.dump), ("index", k.dump)]
  | .field i e n => node "IdentifierIndex" i [("indexed", e.dump), ("name", .ofString n)]

def TableItem.dump : TableItem → Dump
  | .positional v => .record "TableItem" [("key", .none), ("value", v.dump)]
  | .named n v =>
    .record "TableItem" [("key", .some (.tuple "Name" [.ofString n])), ("value", v.dump)]
  | .keyed k v =>
    .record "TableItem" [("key", .some (.tuple "Expression" [k.dump])), ("value", v.dump)]

def Routine.dump : Routine → Dump
  | ⟨sig, body⟩ => .record "FunctionBody" [("signature", sig.dump), ("body", .list (dumpBlock body))]

def Stmt.dump : Stmt → Dump
  | .scope i body => node "Do" i [("body", .list (dumpBlock body))]
  | .assign i targets values =>
    node "Assignment" i
      [("targets", .list (dumpTargets targets)), ("values", .list (dumpExprs values))]
  | .update i target op value =>
    node "CompoundAssignment" i
      [("target", target.dump), ("operator", .word op.label), ("value", value.dump)]
  | .whileLoop i condition body =>
    node "While" i [("condition", condition.dump), ("body", .list (dumpBlock body))]
  | .repeatLoop i body condition =>
    node "Repeat" i [("body", .list (dumpBlock body)), ("condition", condition.dump)]
  | .choice i branches otherwise =>
    node "If" i [("branches", .list (dumpBranches branches)),
      ("otherwise", match otherwise with
        | some body => .some (.list (dumpBlock body))
        | none => .none)]
  | .numericFor i counter start stop step body =>
    node "NumericFor" i [("variable", counter.dump), ("start", start.dump), ("stop", stop.dump),
      ("step", match step with
        | some e => .some e.dump
        | none => .none),
      ("body", .list (dumpBlock body))]
  | .genericFor i names iterators body =>
    node "GenericFor" i [("variables", .list (names.map TypedName.dump)),
      ("iterators", .list (dumpExprs iterators)), ("body", .list (dumpBlock body))]
  | .localNames i names values =>
    node "Local" i
      [("variables", .list (names.map TypedName.dump)), ("values", .list (dumpExprs values))]
  | .localRoutine i n r => node "LocalFunction" i [("name", .ofString n), ("function", r.dump)]
  | .routine i path isMethod r =>
    node "Function" i [("path", .list (path.map .ofString)), ("is_method", .ofBool isMethod),
      ("function", r.dump)]
  | .goto i l => node "Goto" i [("label", .ofString l)]
  | .label i n => node "Label" i [("name", .ofString n)]
  | .returnValues i values => node "Return" i [("values", .list (dumpExprs values))]
  | .breakLoop i => node "Break" i []
  | .call i c => node "Call" i [("call", .tuple c.label [c.dump])]

def Target.dump : Target → Dump
  | .name n => .tuple "Typed" [n.dump]
  | .index x => .tuple x.label [x.dump]

def Branch.dump : Branch → Dump
  | ⟨condition, body⟩ =>
    .record "Conditional" [("condition", condition.dump), ("body", .list (dumpBlock body))]

def dumpExprs : List Expr → List Dump
  | [] => []
  | e :: es => e.dump :: dumpExprs es

def dumpItems : List TableItem → List Dump
  | [] => []
  | x :: xs => x.dump :: dumpItems xs

def dumpBlock : List Stmt → List Dump
  | [] => []
  | s :: ss => s.dump :: dumpBlock ss

def dumpTargets : List Target → List Dump
  | [] => []
  | t :: ts => t.dump :: dumpTargets ts

def dumpBranches : List Branch → List Dump
  | [] => []
  | b :: bs => b.dump :: dumpBranches bs

end

def Conformance.dump (c : Conformance) : Dump :=
  .record "Conformance" [("name", .ofString c.name), ("at", dumpIndex c.anchor)]

def ClassMember.dump : ClassMember → Dump
  | property i n t initial =>
    .tuple "Property" [.record "Property" [("name", .ofString n), ("ty", t.dump),
      ("default", .ofOption Expr.dump initial), ("at", dumpIndex i)]]
  | override i n v =>
    .record "Default" [("name", .ofString n), ("value", v.dump), ("at", dumpIndex i)]
  | method i n r =>
    .record "Function" [("name", .ofString n), ("function", r.dump), ("at", dumpIndex i)]

def ProtocolMember.dump : ProtocolMember → Dump
  | property i n t => .record "Property" [("name", .ofString n), ("ty", t.dump), ("at", dumpIndex i)]
  | method i n s =>
    .record "Function" [("name", .ofString n), ("signature", s.dump), ("at", dumpIndex i)]

def AssociatedType.dump (a : AssociatedType) : Dump :=
  .record "AssociatedType" [("label", .ofOption .ofString a.label?), ("ty", a.type.dump)]

def EnumCase.dump (c : EnumCase) : Dump :=
  .record "EnumCase" [("name", .ofString c.name), ("at", dumpIndex c.anchor),
    ("associated", .list (c.associated.map AssociatedType.dump)),
    ("raw_value", .ofOption Literal.dump c.rawValue?)]

def declarationDump (label : String) (name : String) (anchor : TokenIndex)
    (conforms : List Conformance) (partsLabel : String) (parts : List Dump) : Dump :=
  .tuple label [.record label [("name", .ofString name), ("at", dumpIndex anchor),
    ("conforms", .list (conforms.map Conformance.dump)), (partsLabel, .list parts)]]

def Declaration.dump : Declaration → Dump
  | ofClass d =>
    declarationDump "Class" d.name d.anchor d.conforms "body" (d.members.map ClassMember.dump)
  | ofProtocol d =>
    declarationDump "Protocol" d.name d.anchor d.conforms "body" (d.members.map ProtocolMember.dump)
  | ofEnum d => declarationDump "Enum" d.name d.anchor d.conforms "cases" (d.cases.map EnumCase.dump)

def Item.dump : Item → Dump
  | object d => d.dump
  | typeAlias d =>
    .tuple "TypeAlias" [.record "TypeAlias"
      [("name", .ofString d.name), ("at", dumpIndex d.anchor), ("ty", d.type.dump)]]
  | statement s => .tuple "Statement" [s.dump]

def dumpChunk (c : Chunk) : Dump := .list (c.map Item.dump)

end ScriptFront.Syntax
