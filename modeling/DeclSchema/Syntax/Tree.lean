/-! # Declarations of a source file

The tree holds what a source file declares: interfaces, classes, type aliases, enums,
constants, namespaces and functions. Statements and expressions leave no trace in it
except for the declarations inside them. Every type keeps its text as it is written.
-/
namespace DeclSchema.Syntax

inductive Literal
  | string (value : String)
  /-- The number's text with its sign. -/
  | number (text : String)
  | boolean (value : Bool)
deriving Repr, DecidableEq

structure Field (τ : Type) where
  name : String
  optional : Bool
  /-- The annotation, if there is one. -/
  type? : Option τ
deriving Repr

/-- A type with its exact text. -/
inductive TypeNode
  /-- A name, possibly qualified, with type arguments. -/
  | reference (text : String) (name : String) (args : List TypeNode)
  | literal (text : String) (value : Literal)
  /-- An element type followed by a pair of brackets. -/
  | array (text : String) (element : TypeNode)
  | union (text : String) (operands : List TypeNode)
  | intersection (text : String) (operands : List TypeNode)
  | object (text : String) (members : List (Field TypeNode))
  | tuple (text : String) (elements : List TypeNode)
  | parenthesized (text : String) (inner : TypeNode)
  /-- Any other type: functions, conditions, operators, templates and the like. -/
  | other (text : String)

abbrev Member := Field TypeNode

def TypeNode.text : TypeNode → String
  | reference text _ _ | literal text _ | array text _ | union text _ | intersection text _
  | object text _ | tuple text _ | parenthesized text _ | other text => text

def TypeNode.unparenthesized : TypeNode → TypeNode
  | parenthesized _ inner => inner.unparenthesized
  | type => type

inductive Initializer
  /-- An object literal, with its own keys in order. -/
  | keys (names : List String)
  | expression
deriving Repr, DecidableEq

structure EnumMember where
  name : String
  /-- The value, when it is a plain literal. -/
  value? : Option Literal
deriving Repr, DecidableEq

inductive Item
  | interfaceDecl (name : String) (heritage : List String) (members : List Member)
  /-- A class with the declarations found inside its members. -/
  | classDecl (name : String) (heritage : List String) (members : List Member)
      (nested : List Item)
  | aliasDecl (name : String) (type : TypeNode)
  | enumDecl (name : String) (isConst : Bool) (members : List EnumMember)
  | constantDecl (name : String) (type? : Option TypeNode)
      (initializer : Option Initializer)
  | namespaceDecl (name : String) (items : List Item)
  | functionDecl (name : String) (body : List Item)

end DeclSchema.Syntax
