import DeclSchema.Primitive
import DeclSchema.TypeText.Brackets

/-! # Shapes of type text

A type's text is reduced to a shape: a primitive, a name, or an array of a shape. A union
counts as its first branch that is not `undefined`; text of any other form is a name.
-/
namespace DeclSchema
open Text TypeText

inductive Shape
  | primitive (type : Primitive)
  /-- A named type, or any text that is not understood, kept as it stands. -/
  | reference (name : String)
  | array (items : Shape)
deriving Repr, DecidableEq

namespace Shape

def referencedName? : Shape → Option String
  | primitive _ => none
  | reference name => some name
  | array items => items.referencedName?

def undefinedWord : List Char := "undefined".toList

/-- Reduces a union to its first branch that is neither empty nor `undefined`, and to
`undefined` if there is none. Other text is only trimmed. -/
def prune (s : List Char) : List Char :=
  let text := trim s
  let branches := splitTopLevel '|' text
  if branches.length == 1 then text
  else
    ((branches.map trim).find? fun branch => !branch.isEmpty && branch != undefinedWord).getD
      undefinedWord

def pruned (s : String) : String := String.ofList (prune s.toList)

/-- The element text of a one-argument `Array` or `ReadonlyArray`. -/
def genericElement? (s : List Char) : Option (List Char) :=
  ((afterHead? "Array<".toList s).orElse fun _ => afterHead? "ReadonlyArray<".toList s).bind
    fun rest => (beforeTail? ['>'] rest).bind fun args =>
      if (splitTopLevel ',' args).length == 1 && balanced args then some (trim args) else none

def parenthesized? (s : List Char) : Option (List Char) :=
  (afterHead? ['('] s).bind fun rest => (beforeTail? [')'] rest).bind fun inner =>
    if balanced inner then some inner else none

def bracketElement? (s : List Char) : Option (List Char) := beforeTail? ['[', ']'] s

theorem length_trim_le (s : List Char) : (trim s).length ≤ s.length := by
  unfold trim trimEnd trimStart
  have h₁ := (List.dropWhile_sublist isBlank (l := (s.dropWhile isBlank).reverse)).length_le
  have h₂ := (List.dropWhile_sublist isBlank (l := s)).length_le
  simp only [List.length_reverse] at *
  omega

/-- A pruned text is no longer than the text it comes from, or it is the skipped word. -/
theorem length_prune_le (s : List Char) :
    (prune s).length ≤ s.length ∨ prune s = undefinedWord := by
  unfold prune
  dsimp only
  split
  · exact Or.inl (length_trim_le s)
  · cases h : List.find? (fun branch => !branch.isEmpty && branch != undefinedWord)
        ((splitTopLevel '|' (trim s)).map trim) with
    | none => exact Or.inr rfl
    | some branch =>
      left
      obtain ⟨piece, hp, rfl⟩ := List.mem_map.mp (List.mem_of_find?_eq_some h)
      have h₁ := length_trim_le piece
      have h₂ := length_le_of_mem_splitFrom hp
      have h₃ := length_trim_le s
      simp only [Option.getD_some]
      omega

theorem length_lt_of_bracketElement? {s element : List Char}
    (h : bracketElement? (prune s) = some element) : element.length < s.length := by
  have he := beforeTail?_eq_some_iff.mp h
  rcases length_prune_le s with hl | hu
  · rw [he] at hl
    simp at hl
    omega
  · rw [hu, show bracketElement? undefinedWord = none by decide] at h
    cases h

theorem length_lt_of_genericElement? {s element : List Char}
    (h : genericElement? (prune s) = some element) : element.length < s.length := by
  rcases length_prune_le s with hl | hu
  · unfold genericElement? at h
    obtain ⟨rest, hr, h⟩ := Option.bind_eq_some_iff.mp h
    obtain ⟨args, ha, h⟩ := Option.bind_eq_some_iff.mp h
    have hargs := beforeTail?_eq_some_iff.mp ha
    have hlen : rest.length < (prune s).length := by
      cases h₁ : afterHead? "Array<".toList (prune s) with
      | some r =>
        rw [h₁] at hr
        cases hr
        rw [afterHead?_eq_some_iff.mp h₁]
        simp
        omega
      | none =>
        rw [h₁] at hr
        rw [afterHead?_eq_some_iff.mp hr]
        simp
        omega
    split at h
    · cases h
      have := length_trim_le args
      rw [hargs] at hlen
      simp at hlen
      omega
    · cases h
  · rw [hu, show genericElement? undefinedWord = none by decide] at h
    cases h

theorem length_lt_of_parenthesized? {s inner : List Char}
    (h : parenthesized? (prune s) = some inner) : inner.length < s.length := by
  rcases length_prune_le s with hl | hu
  · unfold parenthesized? at h
    obtain ⟨rest, hr, h⟩ := Option.bind_eq_some_iff.mp h
    obtain ⟨args, ha, h⟩ := Option.bind_eq_some_iff.mp h
    have hrest := afterHead?_eq_some_iff.mp hr
    have hargs := beforeTail?_eq_some_iff.mp ha
    split at h
    · cases h
      rw [hrest, hargs] at hl
      simp at hl
      omega
    · cases h
  · rw [hu, show parenthesized? undefinedWord = none by decide] at h
    cases h

def ofChars (s : List Char) : Shape :=
  let text := prune s
  match _ : bracketElement? text with
  | some element => array (ofChars element)
  | none =>
    match _ : genericElement? text with
    | some element => array (ofChars element)
    | none =>
      match Primitive.ofName? (String.ofList text) with
      | some type => primitive type
      | none =>
        match _ : parenthesized? text with
        | some inner => ofChars inner
        | none => reference (String.ofList text)
termination_by s.length
decreasing_by
  · exact length_lt_of_bracketElement? (by assumption)
  · exact length_lt_of_genericElement? (by assumption)
  · exact length_lt_of_parenthesized? (by assumption)

def ofText (s : String) : Shape := ofChars s.toList

end Shape
end DeclSchema
