import DeclSchema.Shape

/-! # The names of shapes

What a shape refers to is no longer an array: the markers at the end of a type's text have
become arrays of the shape.
-/
namespace DeclSchema.Shape
open Text

/-- No name that a shape refers to ends in an array marker. -/
theorem bracketElement?_referencedName {s : List Char} {name : String}
    (h : (ofChars s).referencedName? = some name) : bracketElement? name.toList = none := by
  fun_induction ofChars s with
  | case1 s text element _ ih => exact ih h
  | case2 s text _ element _ ih => exact ih h
  | case3 => cases h
  | case4 s text _ _ _ inner _ ih => exact ih h
  | case5 s text hbracket _ _ _ =>
    cases h
    rwa [String.toList_ofList]

end DeclSchema.Shape
