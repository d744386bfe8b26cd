import ScriptFront.Phrase.Chunk
import ScriptFront.Token.Cursor
/-! The parser as moves of one cursor. It looks at the tokens under the cursor, steps over them,
steps back over what it cannot use, and returns to a mark where a guess has failed. Nothing here
keeps the cursor within the tokens, and no call is given a measure: calls nest as deep as they may,
and `run` follows them to a given depth. That the walks end, and where, is proved of them. A list is
read from its first element on, with the moves of the loop that fills it. -/
namespace ScriptFront.Phrase
open Syntax Token

/-- The functions of the parser, with what they are called with and the values they come to. A loop
counts as a function that calls itself. -/
inductive Procedure : Type → Type
  | next : Procedure (TokenIndex × Token)
  | name : Procedure (TokenIndex × String)
  | keyword (k : Keyword) : Procedure TokenIndex
  | operator (o : Operator) : Procedure TokenIndex
  | keyword? (k : Keyword) : Procedure (Option TokenIndex)
  | operator? (o : Operator) : Procedure (Option TokenIndex)
  | sees (o : Operator) : Procedure Bool
  | optionals (anchor : TokenIndex) (type : TypeExpr) : Procedure TypeExpr
  | typeExpr : Procedure TypeExpr
  | typedName : Procedure TypedName
  | typedNames : Procedure (List TypedName)
  | typeExprs : Procedure (List TypeExpr)
  | parameters : Procedure (List TypedName × Bool)
  | signature : Procedure Signature
  | path : Procedure (List String × Bool)
  | typedTarget? : Procedure (Option TypedName)
  | semicolons : Procedure Unit
  | expression (floor : Nat) : Procedure Expr
  | expression? (floor : Nat) : Procedure (Option Expr)
  | operations (floor : Nat) (anchor : TokenIndex) (left : Expr) : Procedure Expr
  | atom? : Procedure (Option Expr)
  | chain : Procedure Expr
  | suffixes (anchor : TokenIndex) (e : Expr) : Procedure Expr
  | arguments : Procedure (List Expr)
  | expressions : Procedure (List Expr)
  | moreExpressions : Procedure (List Expr)
  | tableItems : Procedure (List TableItem)
  | tableItem : Procedure TableItem
  | routine : Procedure Routine
  | block (closers : Option Closers) (returned : Bool) : Procedure Block
  | statement? (closers : Option Closers) (returned : Bool) : Procedure (Option Stmt)
  | functionStatement (anchor : TokenIndex) : Procedure Stmt
  | localNames (anchor : TokenIndex) : Procedure Stmt
  | returnValues : Procedure (List Expr)
  | branches : Procedure (List Branch × Option Block)
  | forLoop (anchor : TokenIndex) : Procedure Stmt
  | forNames : Procedure (List TypedName × TokenIndex × Token)
  | numericFor (anchor : TokenIndex) (counter : TypedName) : Procedure Stmt
  | stepValue : Procedure (Option Expr)
  | assignmentOrCall (anchor : TokenIndex) : Procedure Stmt
  | assignment (anchor : TokenIndex) (first : Target) : Procedure Stmt
  | moreTargets : Procedure (List Target)
  | oneTarget : Procedure Target
  | conformanceList : Procedure (List Conformance)
  | conformances : Procedure (List Conformance)
  | classMembers : Procedure (List ClassMember)
  | classDecl : Procedure ClassDecl
  | protocolMembers : Procedure (List ProtocolMember)
  | protocolDecl : Procedure ProtocolDecl
  | associatedTypes : Procedure (List AssociatedType)
  | literal : Procedure Literal
  | enumCase : Procedure EnumCase
  | enumCases : Procedure (List EnumCase)
  | enumDecl : Procedure EnumDecl
  | aliasDecl : Procedure AliasDecl
  | items (returned : Bool) : Procedure Chunk
  | chunk : Procedure Chunk

/-- Moves of a cursor that end in a value or an error. A step back from before the first token has
no outcome. -/
abbrev Moves (α : Type) := ExceptT ParseError (StateT Cursor Option) α

/-- Moves among which procedures are called, where it is given what the calls do. -/
def Walk (α : Type) := (∀ β : Type, Procedure β → Moves β) → Moves α

namespace Walk

instance : Monad Walk where
  pure a _ := pure a
  bind x g calls := x calls >>= fun a => g a calls

instance : MonadExceptOf ParseError Walk where
  throw e _ := throw e
  tryCatch x g calls := tryCatch (x calls) fun e => g e calls

def call {α : Type} (f : Procedure α) : Walk α := fun calls => calls α f

def peek : Walk (Option (TokenIndex × Token)) := fun _ => return (← get).peek
def peekSecond : Walk (Option (TokenIndex × Token)) := fun _ => return (← get).peekSecond
def last : Walk (Option (TokenIndex × Token)) := fun _ => return (← get).last
def nextIndex : Walk TokenIndex := fun _ => return (← get).nextIndex
def endIndex : Walk TokenIndex := fun _ => return (← get).endIndex
def position : Walk Nat := fun _ => return (← get).next
def rewind (mark : Nat) : Walk Unit := fun _ => modify (·.rewind mark)
def skip : Walk Unit := fun _ => modify (·.skip)

/-- The next token, and a step over it. The step is made even where there is none. -/
def advance : Walk (Option (TokenIndex × Token)) := do
  let token ← peek
  skip
  return token

def undo : Walk Unit := fun _ c =>
  match c.next with
  | 0 => none
  | _ + 1 => some (.ok (), c.undo)

/-- The value, or nothing where there is an error. The cursor stays where the walk leaves it. -/
def attempt {α : Type} (x : Walk α) : Walk (Option α) :=
  tryCatch (some <$> x) fun _ => return none

def next : Walk (TokenIndex × Token) := do
  match ← advance with
  | some found => return found
  | none =>
    undo
    throw (.endOfInput (← endIndex))

def name : Walk (TokenIndex × String) := do
  let (i, u) ← next
  match u with
  | .name w => return (i, w)
  | _ => throw (.unexpectedToken i u)

/-- The next token, which has to be one of those told by `is?`. -/
def expect (is? : Token → Option Unit) : Walk TokenIndex := do
  let (i, u) ← next
  match is? u with
  | some _ => return i
  | none => throw (.unexpectedToken i u)

def keyword (k : Keyword) : Walk TokenIndex := expect (keywordOf? k)
def operator (o : Operator) : Walk TokenIndex := expect (operatorOf? o)

/-- A step over the next token if it is one of those told by `is?`. -/
def accept (is? : Token → Option Unit) : Walk (Option TokenIndex) := do
  match ← peek with
  | none => return none
  | some (i, u) =>
    match is? u with
    | some _ =>
      skip
      return some i
    | none => return none

def keyword? (k : Keyword) : Walk (Option TokenIndex) := accept (keywordOf? k)
def operator? (o : Operator) : Walk (Option TokenIndex) := accept (operatorOf? o)

/-- Whether the operator is next. -/
def sees (o : Operator) : Walk Bool := do
  match ← peek with
  | none => return false
  | some (_, u) => return (operatorOf? o u).isSome

def optionals (anchor : TokenIndex) (type : TypeExpr) : Walk TypeExpr := do
  match ← operator? .question with
  | some _ => call (.optionals anchor (.optional anchor type))
  | none => return type

def typeExpr : Walk TypeExpr := do
  let (i, u) ← next
  match u with
  | .name w =>
    match ← operator? .dot with
    | some _ => do
      let (_, member) ← name
      call (.optionals i (.member i w member))
    | none => call (.optionals i (.name i w))
  | .operator .squareLeft =>
    let first ← call .typeExpr
    match ← operator? .colon with
    | some _ => do
      let value ← call .typeExpr
      let _ ← operator .squareRight
      call (.optionals i (.dictionary i first value))
    | none => do
      let _ ← operator .squareRight
      call (.optionals i (.array i first))
  | _ => throw (.unexpectedToken i u)

def typedName : Walk TypedName := do
  let (i, w) ← name
  match ← operator? .colon with
  | some _ => do
    let type ← call .typeExpr
    return ⟨i, w, some type⟩
  | none => return ⟨i, w, none⟩

def typedNames : Walk (List TypedName) := do
  let first ← typedName
  match ← operator? .comma with
  | some _ => do
    let more ← call .typedNames
    return first :: more
  | none => return [first]

def typeExprs : Walk (List TypeExpr) := do
  let first ← call .typeExpr
  match ← operator? .comma with
  | some _ => do
    let more ← call .typeExprs
    return first :: more
  | none => return [first]

def parameters : Walk (List TypedName × Bool) := do
  match ← operator? .tripleDot with
  | some _ => do
    let _ ← operator .roundRight
    return ([], true)
  | none => do
    let first ← typedName
    match ← operator? .roundRight with
    | some _ => return ([first], false)
    | none => do
      let _ ← operator .comma
      let (more, isVariadic) ← call .parameters
      return (first :: more, isVariadic)

def returnTypes : Walk (List TypeExpr) := do
  match ← operator? .colon with
  | some _ => call .typeExprs
  | none => return []

def signature : Walk Signature := do
  let _ ← operator .roundLeft
  match ← operator? .roundRight with
  | some _ => do
    let returns ← returnTypes
    return ⟨[], false, returns⟩
  | none => do
    let (names, isVariadic) ← call .parameters
    let returns ← returnTypes
    return ⟨names, isVariadic, returns⟩

def path : Walk (List String × Bool) := do
  let (_, first) ← name
  match ← operator? .dot with
  | some _ => do
    let (more, isMethod) ← call .path
    return (first :: more, isMethod)
  | none =>
    match ← operator? .colon with
    | some _ => do
      let (_, method) ← name
      return ([first, method], true)
    | none => return ([first], false)

/-- The name under the cursor, if a colon is behind it. -/
def labelAhead? : Walk (Option String) := do
  match ← peek, ← peekSecond with
  | some (_, .name w), some (_, .operator .colon) => return some w
  | _, _ => return none

/-- The guess that an annotated target is next. Where it fails, the cursor goes back to the name. -/
def typedTarget? : Walk (Option TypedName) := do
  match ← labelAhead? with
  | some _ => do
    let mark ← position
    let (i, w) ← name
    skip
    match ← attempt (call .typeExpr) with
    | some type => do
      let ahead ← sees .comma <||> sees .equal
      match ahead with
      | true => return some ⟨i, w, some type⟩
      | false =>
        rewind mark
        return none
    | none =>
      rewind mark
      return none
  | none => return none

def typeTest (anchor : TokenIndex) (e : Expr) : Walk Expr := do
  match ← keyword? .is_ with
  | some _ => do
    let type ← call .typeExpr
    return .typeTest anchor e type
  | none => return e

def semicolons : Walk Unit := do
  match ← operator? .semicolon with
  | some _ => call .semicolons
  | none => return ()

def expression (floor : Nat) : Walk Expr := do
  let i ← nextIndex
  match ← call (.expression? floor) with
  | some e => return e
  | none => throw (.expectedExpression i)

/-- An operand, whose first token is given. -/
def operand? (i : TokenIndex) (u : Token) : Walk (Option Expr) := do
  match UnaryOp.ofToken? u with
  | some op => do
    skip
    let e ← call (.expression UnaryOp.floor)
    return some (.unary i op e)
  | none => call .atom?

def expression? (floor : Nat) : Walk (Option Expr) := do
  match ← peek with
  | none => return none
  | some (i, u) =>
    match ← operand? i u with
    | some e₁ => do
      let e₂ ← typeTest i e₁
      let e₃ ← call (.operations floor i e₂)
      return some e₃
    | none => return none

def operations (floor : Nat) (anchor : TokenIndex) (left : Expr) : Walk Expr := do
  match ← peek with
  | none => return left
  | some (_, u) =>
    match BinaryOp.ofToken? u with
    | none => return left
    | some op =>
      if op.level ≤ floor then return left
      else do
        skip
        let right ← call (.expression op.rightFloor)
        call (.operations floor anchor (.binary anchor op left right))

def atom? : Walk (Option Expr) := do
  match ← advance with
  | none =>
    undo
    return none
  | some (i, u) =>
    match singleToken? i u with
    | some e => return some e
    | none =>
      match u with
      | .operator .curlyLeft => do
        let items ← call .tableItems
        return some (.table i items)
      | .keyword .function_ => do
        let body ← call .routine
        return some (.routine i body)
      | .name _ | .operator .roundLeft => do
        undo
        let e ← call .chain
        return some e
      | _ =>
        undo
        return none

def chain : Walk Expr := do
  let (i, u) ← next
  match u with
  | .name w => call (.suffixes i (.name i w))
  | .operator .roundLeft => do
    let inner ← call (.expression 0)
    let _ ← operator .roundRight
    call (.suffixes i (.parenthesized i inner))
  | _ => throw (.unexpectedToken i u)

def suffixes (anchor : TokenIndex) (e : Expr) : Walk Expr := do
  match ← advance with
  | none =>
    undo
    return e
  | some (_, u) =>
    match u with
    | .operator .squareLeft => do
      let key ← call (.expression 0)
      let _ ← operator .squareRight
      call (.suffixes anchor (.index (.element anchor e key)))
    | .operator .dot => do
      let (_, field) ← name
      call (.suffixes anchor (.index (.field anchor e field)))
    | .operator .colon => do
      let (_, method) ← name
      let args ← call .arguments
      call (.suffixes anchor (.call (.method anchor e method args)))
    | .operator .roundLeft | .operator .curlyLeft | .string _ => do
      undo
      let args ← call .arguments
      call (.suffixes anchor (.call (.plain anchor e args)))
    | _ =>
      undo
      return e

def arguments : Walk (List Expr) := do
  let (i, u) ← next
  match u with
  | .operator .roundLeft =>
    match ← operator? .roundRight with
    | some _ => return []
    | none => do
      let args ← call .expressions
      let _ ← operator .roundRight
      return args
  | .operator .curlyLeft => do
    let items ← call .tableItems
    return [.table i items]
  | .string v => return [.literal (.string i v)]
  | _ => throw (.unexpectedToken i u)

def expressions : Walk (List Expr) := do
  let first ← call (.expression 0)
  let more ← call .moreExpressions
  return first :: more

def moreExpressions : Walk (List Expr) := do
  match ← operator? .comma with
  | some _ => call .expressions
  | none => return []

def tableItems : Walk (List TableItem) := do
  match ← operator? .curlyRight with
  | some _ => return []
  | none => do
    let first ← call .tableItem
    match ← operator? .comma with
    | some _ => do
      let more ← call .tableItems
      return first :: more
    | none =>
      match ← operator? .semicolon with
      | some _ => do
        let more ← call .tableItems
        return first :: more
      | none => do
        let _ ← operator .curlyRight
        return [first]

def tableItem : Walk TableItem := do
  match ← operator? .squareLeft with
  | some _ => do
    let key ← call (.expression 0)
    let _ ← operator .squareRight
    let _ ← operator .equal
    let value ← call (.expression 0)
    return .keyed key value
  | none =>
    match ← advance with
    | some (_, .name w) => do
      let ahead ← sees .equal
      match ahead with
      | true => do
        skip
        let value ← call (.expression 0)
        return .named w value
      | false => do
        undo
        let value ← call (.expression 0)
        return .positional value
    | _ => do
      undo
      let value ← call (.expression 0)
      return .positional value

def routine : Walk Routine := do
  let sig ← signature
  let body ← call (.block (some .atEnd) false)
  return ⟨sig, body⟩

def functionStatement (anchor : TokenIndex) : Walk Stmt := do
  let (names, isMethod) ← call .path
  let body ← call .routine
  return .routine anchor names isMethod body

def localNames (anchor : TokenIndex) : Walk Stmt := do
  let names ← call .typedNames
  match ← operator? .equal with
  | some _ => do
    let values ← call .expressions
    return .localNames anchor names values
  | none => return .localNames anchor names []

/-- A statement, whose first token is given. -/
def statement (i : TokenIndex) (u : Token) : Walk Stmt := do
  match u with
  | .keyword .do_ => do
    skip
    let body ← call (.block (some .atEnd) false)
    return .scope i body
  | .keyword .while_ => do
    skip
    let condition ← call (.expression 0)
    let _ ← keyword .do_
    let body ← call (.block (some .atEnd) false)
    return .whileLoop i condition body
  | .keyword .repeat_ => do
    skip
    let body ← call (.block (some .atUntil) false)
    let condition ← call (.expression 0)
    return .repeatLoop i body condition
  | .keyword .if_ => do
    skip
    let (list, otherwise) ← call .branches
    return .choice i list otherwise
  | .keyword .for_ => do
    skip
    call (.forLoop i)
  | .keyword .function_ => do
    skip
    functionStatement i
  | .keyword .local_ => do
    skip
    match ← keyword? .function_ with
    | some _ => do
      let (_, w) ← name
      let body ← call .routine
      return .localRoutine i w body
    | none => localNames i
  | .keyword .return_ => do
    skip
    let values ← call .returnValues
    let _ ← operator? .semicolon
    return .returnValues i values
  | .keyword .break_ => do
    skip
    return .breakLoop i
  | .keyword .goto_ => do
    skip
    let (_, label) ← name
    return .goto i label
  | .operator .doubleColon => do
    skip
    let (_, w) ← name
    let _ ← operator .doubleColon
    return .label i w
  | .name _ | .operator .roundLeft => call (.assignmentOrCall i)
  | _ => throw (.unexpectedToken i u)

/-- The statement after any semicolons, or nothing once a closing keyword is stepped over. -/
def statement? (closers : Option Closers) (returned : Bool) : Walk (Option Stmt) := do
  call .semicolons
  match ← peek with
  | none =>
    match closers with
    | some _ => throw (.endOfInput (← endIndex))
    | none => return none
  | some (i, u) =>
    match closers.bind (·.ofToken? u) with
    | some _ =>
      skip
      return none
    | none =>
      match returned with
      | true => throw (.alreadyReturned i)
      | false => do
        let stmt ← statement i u
        return some stmt

/-- The statements up to a keyword that closes the block, or up to the end where none does. -/
def block (closers : Option Closers) (returned : Bool) : Walk Block := do
  match ← statement? closers returned with
  | some first => do
    let more ← call (.block closers (returned || first.isLast))
    return first :: more
  | none => return []

def returnValues : Walk (List Expr) := do
  match ← call (.expression? 0) with
  | some first => do
    let more ← call .moreExpressions
    return first :: more
  | none => return []

/-- The branches of an `if`. The token last stepped over tells what closed the block of a branch. -/
def branches : Walk (List Branch × Option Block) := do
  let condition ← call (.expression 0)
  let _ ← keyword .then_
  let body ← call (.block (some .atBranch) false)
  match ← last with
  | some (_, .keyword .elseif_) => do
    let (more, otherwise) ← call .branches
    return (⟨condition, body⟩ :: more, otherwise)
  | some (_, .keyword .else_) => do
    let otherwise ← call (.block (some .atEnd) false)
    return ([⟨condition, body⟩], some otherwise)
  | _ => return ([⟨condition, body⟩], none)

def numericFor (anchor : TokenIndex) (counter : TypedName) : Walk Stmt := do
  let start ← call (.expression 0)
  let _ ← operator .comma
  let stop ← call (.expression 0)
  let step ← call .stepValue
  let _ ← keyword .do_
  let body ← call (.block (some .atEnd) false)
  return .numericFor anchor counter start stop step body

/-- The names of a `for`, and the token after them. Only that token tells the kind of the loop. -/
def forNames : Walk (List TypedName × TokenIndex × Token) := do
  let first ← typedName
  let (i, u) ← next
  match u with
  | .operator .comma => do
    let (more, i, u) ← call .forNames
    return (first :: more, i, u)
  | u => return ([first], i, u)

def forLoop (anchor : TokenIndex) : Walk Stmt := do
  let (names, i, u) ← call .forNames
  match u with
  | .operator .equal =>
    match names with
    | [counter] => numericFor anchor counter
    | _ => throw (.unexpectedToken i (.operator .equal))
  | .keyword .in_ => do
    let iterators ← call .expressions
    let _ ← keyword .do_
    let body ← call (.block (some .atEnd) false)
    return .genericFor anchor names iterators body
  | u => throw (.unexpectedToken i u)

def stepValue : Walk (Option Expr) := do
  match ← operator? .comma with
  | some _ => do
    let e ← call (.expression 0)
    return some e
  | none => return none

def assignmentOrCall (anchor : TokenIndex) : Walk Stmt := do
  match ← typedTarget? with
  | some typed => call (.assignment anchor (.name typed))
  | none => do
    let e ← call .chain
    match ← peek with
    | some (_, .operator .comma) | some (_, .operator .equal) => do
      let target ← ofExcept (readTarget e)
      call (.assignment anchor target)
    | some (_, .operator o) =>
      match Arithmetic.ofAssignment? o with
      | some op => do
        skip
        let target ← ofExcept (readTarget e)
        let value ← call (.expression 0)
        return .update anchor target op value
      | none => ofExcept (callStatement anchor e)
    | _ => ofExcept (callStatement anchor e)

/-- An assignment after its first target. -/
def assignment (anchor : TokenIndex) (first : Target) : Walk Stmt := do
  let more ← call .moreTargets
  let _ ← operator .equal
  let values ← call .expressions
  return .assign anchor (first :: more) values

def moreTargets : Walk (List Target) := do
  match ← operator? .comma with
  | some _ => do
    let target ← call .oneTarget
    let more ← call .moreTargets
    return target :: more
  | none => return []

def oneTarget : Walk Target := do
  match ← typedTarget? with
  | some typed => return .name typed
  | none => do
    let e ← call .chain
    ofExcept (readTarget e)

def conformanceList : Walk (List Conformance) := do
  let (i, w) ← name
  match ← operator? .comma with
  | some _ => do
    let more ← call .conformanceList
    return ⟨i, w⟩ :: more
  | none => return [⟨i, w⟩]

def conformances : Walk (List Conformance) := do
  match ← operator? .colon with
  | some _ => call .conformanceList
  | none => return []

def initialValue : Walk (Option Expr) := do
  match ← operator? .equal with
  | some _ => do
    let e ← call (.expression 0)
    return some e
  | none => return none

/-- A member of a class, whose first token is stepped over. -/
def classMember (i : TokenIndex) (u : Token) : Walk ClassMember := do
  match u with
  | .keyword .default_ => do
    let (i, w) ← name
    let _ ← operator .equal
    let value ← call (.expression 0)
    return .override i w value
  | .keyword .function_ => do
    let (i, w) ← name
    let body ← call .routine
    return .method i w body
  | .name w => do
    let _ ← operator .colon
    let type ← call .typeExpr
    let initial ← initialValue
    return .property i w type initial
  | _ => throw (.unexpectedToken i u)

def classMembers : Walk (List ClassMember) := do
  let (i, u) ← next
  match keywordOf? .end_ u with
  | some _ => return []
  | none => do
    let first ← classMember i u
    let more ← call .classMembers
    return first :: more

def classDecl : Walk ClassDecl := do
  let _ ← keyword .class_
  let (i, w) ← name
  let conforms ← conformances
  let members ← call .classMembers
  return ⟨i, w, conforms, members⟩

/-- A member of a protocol, whose first token is stepped over. -/
def protocolMember (i : TokenIndex) (u : Token) : Walk ProtocolMember := do
  match u with
  | .keyword .function_ => do
    let (i, w) ← name
    let sig ← signature
    return .method i w sig
  | .name w => do
    let _ ← operator .colon
    let type ← call .typeExpr
    return .property i w type
  | _ => throw (.unexpectedToken i u)

def protocolMembers : Walk (List ProtocolMember) := do
  let (i, u) ← next
  match keywordOf? .end_ u with
  | some _ => return []
  | none => do
    let first ← protocolMember i u
    let more ← call .protocolMembers
    return first :: more

def protocolDecl : Walk ProtocolDecl := do
  let _ ← keyword .protocol_
  let (i, w) ← name
  let conforms ← conformances
  let members ← call .protocolMembers
  return ⟨i, w, conforms, members⟩

def typeLabel? : Walk (Option String) := do
  match ← labelAhead? with
  | some label => do
    skip
    skip
    return some label
  | none => return none

def associatedType : Walk AssociatedType := do
  let label ← typeLabel?
  let type ← call .typeExpr
  return ⟨label, type⟩

def associatedTypes : Walk (List AssociatedType) := do
  let first ← associatedType
  match ← operator? .roundRight with
  | some _ => return [first]
  | none => do
    let _ ← operator .comma
    let more ← call .associatedTypes
    return first :: more

def payload : Walk (List AssociatedType) := do
  match ← operator? .roundLeft with
  | some _ =>
    match ← operator? .roundRight with
    | some _ => return []
    | none => call .associatedTypes
  | none => return []

def literal : Walk Literal := do
  let (i, u) ← next
  match u with
  | .number v => return .number i v
  | .operator .minus =>
    let (j, u) ← next
    match u with
    | .number v => return .number i (-v)
    | _ => throw (.unexpectedToken j u)
  | .string v => return .string i v
  | .keyword .true_ => return .bool i true
  | .keyword .false_ => return .bool i false
  | _ => throw (.unexpectedToken i u)

def rawValue : Walk (Option Literal) := do
  match ← operator? .equal with
  | some _ => do
    let l ← literal
    return some l
  | none => return none

def enumCase : Walk EnumCase := do
  let (i, w) ← name
  let associated ← payload
  let raw ← rawValue
  return ⟨i, w, associated, raw⟩

def enumCases : Walk (List EnumCase) := do
  match ← keyword? .end_ with
  | some _ => return []
  | none => do
    let first ← enumCase
    match ← operator? .comma with
    | some _ => do
      let more ← call .enumCases
      return first :: more
    | none => do
      let _ ← keyword .end_
      return [first]

def enumDecl : Walk EnumDecl := do
  let _ ← keyword .enum_
  let (i, w) ← name
  let conforms ← conformances
  let cases ← call .enumCases
  return ⟨i, w, conforms, cases⟩

def aliasDecl : Walk AliasDecl := do
  let _ ← keyword .typealias_
  let (i, w) ← name
  let _ ← operator .equal
  let type ← call .typeExpr
  return ⟨i, w, type⟩

/-- The declaration of the keyword under the cursor, or nothing where no keyword of one is. -/
def declaration? (u : Token) : Option (Walk Item) :=
  match u with
  | .keyword .class_ => some do
    let d ← classDecl
    return .object (.ofClass d)
  | .keyword .protocol_ => some do
    let d ← protocolDecl
    return .object (.ofProtocol d)
  | .keyword .enum_ => some do
    let d ← enumDecl
    return .object (.ofEnum d)
  | .keyword .typealias_ => some do
    let d ← aliasDecl
    return .typeAlias d
  | _ => none

/-- The items up to the end of the tokens, from any of them on. -/
def items (returned : Bool) : Walk Chunk := do
  match (← peek).bind fun (i, u) => (declaration? u).map (i, ·) with
  | some (i, declared) =>
    match returned with
    | true => throw (.alreadyReturned i)
    | false => do
      let first ← declared
      let more ← call (.items returned)
      return first :: more
  | none =>
    match ← statement? none returned with
    | some stmt => do
      let more ← call (.items (returned || stmt.isLast))
      return .statement stmt :: more
    | none => return []

def chunk : Walk Chunk := call (.items false)

end Walk

def Procedure.walk {α : Type} : Procedure α → Walk α
  | .next => Walk.next
  | .name => Walk.name
  | .keyword k => Walk.keyword k
  | .operator o => Walk.operator o
  | .keyword? k => Walk.keyword? k
  | .operator? o => Walk.operator? o
  | .sees o => Walk.sees o
  | .optionals anchor type => Walk.optionals anchor type
  | .typeExpr => Walk.typeExpr
  | .typedName => Walk.typedName
  | .typedNames => Walk.typedNames
  | .typeExprs => Walk.typeExprs
  | .parameters => Walk.parameters
  | .signature => Walk.signature
  | .path => Walk.path
  | .typedTarget? => Walk.typedTarget?
  | .semicolons => Walk.semicolons
  | .expression floor => Walk.expression floor
  | .expression? floor => Walk.expression? floor
  | .operations floor anchor left => Walk.operations floor anchor left
  | .atom? => Walk.atom?
  | .chain => Walk.chain
  | .suffixes anchor e => Walk.suffixes anchor e
  | .arguments => Walk.arguments
  | .expressions => Walk.expressions
  | .moreExpressions => Walk.moreExpressions
  | .tableItems => Walk.tableItems
  | .tableItem => Walk.tableItem
  | .routine => Walk.routine
  | .block closers returned => Walk.block closers returned
  | .statement? closers returned => Walk.statement? closers returned
  | .functionStatement anchor => Walk.functionStatement anchor
  | .localNames anchor => Walk.localNames anchor
  | .returnValues => Walk.returnValues
  | .branches => Walk.branches
  | .forLoop anchor => Walk.forLoop anchor
  | .forNames => Walk.forNames
  | .numericFor anchor counter => Walk.numericFor anchor counter
  | .stepValue => Walk.stepValue
  | .assignmentOrCall anchor => Walk.assignmentOrCall anchor
  | .assignment anchor first => Walk.assignment anchor first
  | .moreTargets => Walk.moreTargets
  | .oneTarget => Walk.oneTarget
  | .conformanceList => Walk.conformanceList
  | .conformances => Walk.conformances
  | .classMembers => Walk.classMembers
  | .classDecl => Walk.classDecl
  | .protocolMembers => Walk.protocolMembers
  | .protocolDecl => Walk.protocolDecl
  | .associatedTypes => Walk.associatedTypes
  | .literal => Walk.literal
  | .enumCase => Walk.enumCase
  | .enumCases => Walk.enumCases
  | .enumDecl => Walk.enumDecl
  | .aliasDecl => Walk.aliasDecl
  | .items returned => Walk.items returned
  | .chunk => Walk.chunk

/-- What a procedure does where calls nest `depth` deep at most. A call that would be deeper has no
outcome. -/
def Procedure.run (depth : Nat) (α : Type) (f : Procedure α) : Moves α :=
  match depth with
  | 0 => fun _ => none
  | n + 1 => f.walk (run n)

end ScriptFront.Phrase
