/-! # Primitive types

The three primitive types that a schema can name.
-/
namespace DeclSchema

inductive Primitive
  | string
  | number
  | boolean
deriving Repr, DecidableEq

namespace Primitive

def name : Primitive → String
  | string => "string"
  | number => "number"
  | boolean => "boolean"

def ofName? (s : String) : Option Primitive :=
  if s = "string" then some string
  else if s = "number" then some number
  else if s = "boolean" then some boolean
  else none

theorem ofName?_name (p : Primitive) : ofName? p.name = some p := by
  cases p <;> decide

theorem ofName?_eq_some {s : String} {p : Primitive} (h : ofName? s = some p) : s = p.name := by
  unfold ofName? at h
  split at h
  · cases h; assumption
  · split at h
    · cases h; assumption
    · split at h
      · cases h; assumption
      · cases h

end Primitive
end DeclSchema
