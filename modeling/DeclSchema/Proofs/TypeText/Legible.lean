import DeclSchema.Proofs.Syntax.TypeWeaving
import DeclSchema.Proofs.TypeText.Forms

/-! # Legible types

A type of the tree has a shape by its kind, and its text has one by the brackets and bars in it. A
type is legible if its parts do not mislead a reader who sees neither quotes nor comments and does
not know the operators of types.
-/
namespace DeclSchema.Syntax
open Text TypeText

namespace TypeNode

mutual

def shape : TypeNode → Shape
  | reference text name [] =>
    match Primitive.ofName? name with
    | some type => .primitive type
    | none => .reference text
  | reference text name [arg] =>
    if name ∈ Shape.arrayNames then .array (shape arg) else .reference text
  | array _ element => .array (shape element)
  | parenthesized _ inner => shape inner
  | union _ operands => shapeOfFirst operands
  | reference text _ _ | literal text _ | intersection text _ | object text _ | tuple text _ | other text =>
    .reference text

def shapeOfFirst : List TypeNode → Shape
  | [] => .reference "undefined"
  | type :: rest => if type.text = "undefined" then shapeOfFirst rest else shape type

end

/-- Beside these parts the text has nothing but white space and these marks. -/
def Bare (marks : String) (text : String) (parts : List String) : Prop :=
  ink marks.toList text.toList = (parts.map fun part => ink marks.toList part.toList).sum

instance (marks text : String) (parts : List String) : Decidable (Bare marks text parts) :=
  inferInstanceAs (Decidable (_ = _))

/-- A name without comments and arguments with balanced brackets, which nothing but commas stands between. -/
def PlainlyApplied (text name : String) (args : List TypeNode) : Prop :=
  '/' ∉ name.toList ∧ Bare "<>," text (name :: args.map TypeNode.text) ∧
    ∀ arg ∈ args, balanced arg.text.toList = true

instance (text name : String) (args : List TypeNode) : Decidable (PlainlyApplied text name args) :=
  inferInstanceAs (Decidable (_ ∧ _ ∧ _))

/-- Operands in one piece, each with balanced brackets, which nothing but ampersands stands between. -/
def PlainlyCrossed (text : String) (operands : List TypeNode) : Prop :=
  Bare "&" text (operands.map TypeNode.text) ∧
    ∀ operand ∈ operands, Whole '|' operand.text.toList ∧ balanced operand.text.toList = true

instance (text : String) (operands : List TypeNode) : Decidable (PlainlyCrossed text operands) :=
  inferInstanceAs (Decidable (_ ∧ _))

def formHeads : List String := ["(", "Array<", "ReadonlyArray<"]

/-- The bracket that the text begins with, such as that of the parameters of a function, is closed
before the end, and the result comes behind it. -/
def ClosedEarly (text : String) : Prop :=
  ∀ head ∈ formHeads, head.toList <+: text.toList →
    ∃ n < text.toList.length, head.toList.length ≤ n ∧ balanced (text.toList.take n) = true

instance (text : String) : Decidable (ClosedEarly text) :=
  inferInstanceAs (Decidable (∀ head ∈ formHeads, _))

mutual

/-- The text of the type shows its kind and its parts to a reader of brackets and bars. Parts on which
the shape does not depend may be as they are. -/
def Legible : TypeNode → Prop
  | array text element => "[]".toList <:+ text.toList ∧ Bare "[]" text [element.text] ∧ Legible element
  | parenthesized text inner =>
    Bare "()" text [inner.text] ∧ balanced inner.text.toList = true ∧ Legible inner
  | union text operands => Bare "|" text (operands.map TypeNode.text) ∧ LegibleFirst operands
  | reference text _ [] => '/' ∉ text.toList
  | reference text name [arg] =>
    if name ∈ Shape.arrayNames then
      name.toList ++ ['<'] <+: text.toList ∧ Bare "<>" text [name, arg.text] ∧
        balanced arg.text.toList = true ∧ Whole ',' arg.text.toList ∧ Legible arg
    else PlainlyApplied text name [arg]
  | reference text name args => PlainlyApplied text name args
  | literal text _ | object text _ => Whole '|' text.toList
  | tuple text _ => Whole '|' text.toList ∧ ¬ "[]".toList <:+ text.toList
  | intersection text operands => PlainlyCrossed text operands ∧ ¬ "[]".toList <:+ text.toList
  | other text => Whole '|' text.toList ∧ ClosedEarly text ∧ ¬ "[]".toList <:+ text.toList

/-- The first operand other than `undefined` is legible, and so is where it ends. -/
def LegibleFirst : List TypeNode → Prop
  | [] => True
  | type :: rest =>
    if type.text = "undefined" then LegibleFirst rest
    else type.text ≠ "" ∧ (rest = [] ∨ balanced type.text.toList = true) ∧ Legible type

end

mutual

def decideLegible : (node : TypeNode) → Decidable node.Legible
  | array text element =>
    have := decideLegible element
    inferInstanceAs (Decidable ("[]".toList <:+ text.toList ∧ Bare "[]" text [element.text] ∧ Legible element))
  | parenthesized text inner =>
    have := decideLegible inner
    inferInstanceAs (Decidable (Bare "()" text [inner.text] ∧ balanced inner.text.toList = true ∧ Legible inner))
  | union text operands =>
    have := decideLegibleFirst operands
    inferInstanceAs (Decidable (Bare "|" text (operands.map TypeNode.text) ∧ LegibleFirst operands))
  | reference text _ [] => inferInstanceAs (Decidable ('/' ∉ text.toList))
  | reference text name [arg] =>
    have := decideLegible arg
    inferInstanceAs (Decidable (if name ∈ Shape.arrayNames then
      name.toList ++ ['<'] <+: text.toList ∧ Bare "<>" text [name, arg.text] ∧
        balanced arg.text.toList = true ∧ Whole ',' arg.text.toList ∧ Legible arg
    else PlainlyApplied text name [arg]))
  | reference text name (arg :: next :: more) =>
    inferInstanceAs (Decidable (PlainlyApplied text name (arg :: next :: more)))
  | literal text _ | object text _ => inferInstanceAs (Decidable (Whole '|' text.toList))
  | tuple text _ => inferInstanceAs (Decidable (Whole '|' text.toList ∧ ¬ "[]".toList <:+ text.toList))
  | intersection text operands =>
    inferInstanceAs (Decidable (PlainlyCrossed text operands ∧ ¬ "[]".toList <:+ text.toList))
  | other text =>
    inferInstanceAs (Decidable (Whole '|' text.toList ∧ ClosedEarly text ∧ ¬ "[]".toList <:+ text.toList))

def decideLegibleFirst : (operands : List TypeNode) → Decidable (LegibleFirst operands)
  | [] => inferInstanceAs (Decidable True)
  | type :: rest =>
    have := decideLegible type
    have := decideLegibleFirst rest
    inferInstanceAs (Decidable (if type.text = "undefined" then LegibleFirst rest
      else type.text ≠ "" ∧ (rest = [] ∨ balanced type.text.toList = true) ∧ Legible type))

end

instance (node : TypeNode) : Decidable node.Legible := decideLegible node

end TypeNode

end DeclSchema.Syntax
