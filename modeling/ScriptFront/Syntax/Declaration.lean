import ScriptFront.Syntax.Tree
/-! Declarations, and the chunk that a source text holds. The anchor of a declaration, member or enum
case is the index of its name. -/
namespace ScriptFront.Syntax

/-- A name in the list after the colon of a declaration. -/
structure Conformance where
  anchor : TokenIndex
  name : String
deriving DecidableEq

inductive ClassMember where
  | property (anchor : TokenIndex) (name : String) (type : TypeExpr) (initial : Option Expr)
  | override (anchor : TokenIndex) (name : String) (value : Expr)
  | method (anchor : TokenIndex) (name : String) (routine : Routine)

structure ClassDecl where
  anchor : TokenIndex
  name : String
  conforms : List Conformance
  members : List ClassMember

inductive ProtocolMember where
  | property (anchor : TokenIndex) (name : String) (type : TypeExpr)
  | method (anchor : TokenIndex) (name : String) (signature : Signature)

structure ProtocolDecl where
  anchor : TokenIndex
  name : String
  conforms : List Conformance
  members : List ProtocolMember

structure AssociatedType where
  label? : Option String
  type : TypeExpr

structure EnumCase where
  anchor : TokenIndex
  name : String
  associated : List AssociatedType
  rawValue? : Option Literal

structure EnumDecl where
  anchor : TokenIndex
  name : String
  conforms : List Conformance
  cases : List EnumCase

structure AliasDecl where
  anchor : TokenIndex
  name : String
  type : TypeExpr

/-- A declaration of an object. -/
inductive Declaration where
  | ofClass (decl : ClassDecl)
  | ofProtocol (decl : ProtocolDecl)
  | ofEnum (decl : EnumDecl)

inductive Item where
  | object (declaration : Declaration)
  | typeAlias (decl : AliasDecl)
  | statement (statement : Stmt)

abbrev Chunk := List Item

namespace Declaration

def name : Declaration → String
  | ofClass d => d.name
  | ofProtocol d => d.name
  | ofEnum d => d.name

def anchor : Declaration → TokenIndex
  | ofClass d => d.anchor
  | ofProtocol d => d.anchor
  | ofEnum d => d.anchor

def conforms : Declaration → List Conformance
  | ofClass d => d.conforms
  | ofProtocol d => d.conforms
  | ofEnum d => d.conforms

def memberCount : Declaration → Nat
  | ofClass d => d.members.length
  | ofProtocol d => d.members.length
  | ofEnum d => d.cases.length

def isClass : Declaration → Bool
  | ofClass _ => true
  | _ => false

def isProtocol : Declaration → Bool
  | ofProtocol _ => true
  | _ => false

def isEnum : Declaration → Bool
  | ofEnum _ => true
  | _ => false

end Declaration

def Item.anchor : Item → TokenIndex
  | object d => d.anchor
  | typeAlias d => d.anchor
  | statement s => s.anchor

end ScriptFront.Syntax
