import DeclSchema.Schema.Dereference
import DeclSchema.Schema.Synthesis

/-! # The paths of references

The paths of a schema are those of all references in it, at any depth. Dereferencing takes
nothing but array markers off the end of a path.
-/
namespace DeclSchema
open Text

namespace Schema

mutual

def paths : Schema → List String
  | primitive _ => []
  | reference path => [path]
  | array items => paths items
  | object properties _ => pathsOfAll properties
  | enumeration _ _ => []

def pathsOfAll : List (String × Schema) → List String
  | [] => []
  | (_, schema) :: rest => paths schema ++ pathsOfAll rest

end

theorem mem_pathsOfAll_iff {path : String} {properties : List (String × Schema)} :
    path ∈ pathsOfAll properties ↔ ∃ entry ∈ properties, path ∈ entry.2.paths := by
  induction properties with
  | nil => simp [pathsOfAll]
  | cons entry rest ih => simp [pathsOfAll, ih]

def markers (count : Nat) : List Char := (List.replicate count ['[', ']']).flatten

theorem markers_succ (count : Nat) : markers (count + 1) = markers count ++ ['[', ']'] := by
  rw [markers, List.replicate_succ', List.flatten_append]
  rfl

theorem ofPath_of_not_marked {path : List Char} (h : beforeTail? ['[', ']'] path = none) :
    ofPath path = reference (String.ofList path) := by
  rw [ofPath]
  split
  · rename_i element he
    exact absurd (he.symm.trans h) (Option.some_ne_none element)
  · rfl

/-- The one path in what a path stands for is that path without the markers at its end. -/
theorem eq_append_markers_of_mem_paths_ofPath {path : List Char} {rest : String}
    (h : rest ∈ (ofPath path).paths) : ∃ count, path = rest.toList ++ markers count := by
  fun_induction ofPath path with
  | case1 path element he ih =>
    obtain ⟨count, hc⟩ := ih h
    refine ⟨count + 1, ?_⟩
    rw [beforeTail?_eq_some_iff.mp he, hc, markers_succ, List.append_assoc]
  | case2 path _ =>
    rw [paths, List.mem_singleton] at h
    exact ⟨0, by simp [h, markers]⟩

end Schema

/-- All references of a shape are made from its one name. -/
theorem Shape.mem_paths_dereference_toSchema {base path : String} {shape : Shape}
    (h : path ∈ (shape.toSchema base).dereference.paths) :
    ∃ name, shape.referencedName? = some name ∧
      path ∈ (Schema.ofPath (base ++ name).toList).paths := by
  induction shape with
  | primitive type => simp [toSchema, Schema.dereference, Schema.paths] at h
  | reference name => exact ⟨name, rfl, h⟩
  | array items ih =>
    rw [toSchema, Schema.dereference, Schema.paths] at h
    exact ih h

def Document.paths (document : Document) : List String := Schema.pathsOfAll document

end DeclSchema
