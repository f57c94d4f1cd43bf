import DeclSchema.Proofs.Generation.Dangling
import DeclSchema.Proofs.Schema.WrittenOut

/-! # The start of the paths

What a shape refers to never ends in an array marker, and behind a closed start it does not become
the end of one. So dereferencing has nothing to do in a document of definitions, and the start is
found in such a document at the front of every path and nowhere else.
-/
namespace DeclSchema
open Text

namespace Schema

mutual

def mapPaths (f : String → String) : Schema → Schema
  | primitive type => primitive type
  | reference path => reference (f path)
  | array items => array (mapPaths f items)
  | object properties required => object (mapAllPaths f properties) required
  | enumeration type values => enumeration type values

def mapAllPaths (f : String → String) : List (String × Schema) → List (String × Schema)
  | [] => []
  | (name, schema) :: rest => (name, mapPaths f schema) :: mapAllPaths f rest

end

theorem mapAllPaths_eq_mapValues (f : String → String) (properties : List (String × Schema)) :
    mapAllPaths f properties = Table.mapValues (mapPaths f) properties := by
  induction properties with
  | nil => rfl
  | cons entry rest ih =>
    obtain ⟨name, schema⟩ := entry
    rw [mapAllPaths, ih]
    rfl

end Schema

def Document.mapPaths (f : String → String) (document : Document) : Document :=
  Schema.mapAllPaths f document

def exchangeStart (base other path : String) : String :=
  match afterHead? base.toList path.toList with
  | some name => other ++ String.ofList name
  | none => path

theorem exchangeStart_append (base other name : String) :
    exchangeStart base other (base ++ name) = other ++ name := by
  have hname : afterHead? base.toList (base ++ name).toList = some name.toList :=
    afterHead?_eq_some_iff.mpr String.toList_append
  rw [exchangeStart, hname]
  exact congrArg (other ++ ·) String.ofList_toList

/-- The one path of a shape is the start followed by the name in it. -/
theorem Shape.paths_toSchema (base : String) (shape : Shape) :
    (shape.toSchema base).paths = shape.referencedName?.toList.map (base ++ ·) := by
  induction shape with
  | primitive type => rfl
  | reference name => rfl
  | array items ih => exact ih

theorem Shape.mapPaths_toSchema (base other : String) (shape : Shape) :
    (shape.toSchema base).mapPaths (exchangeStart base other) = shape.toSchema other := by
  induction shape with
  | primitive type => rfl
  | reference name => exact congrArg Schema.reference (exchangeStart_append base other name)
  | array items ih => exact congrArg Schema.array ih

namespace Definition

/-- A path in the schema of a definition is the start followed by a name without a marker. -/
theorem exists_name_of_mem_paths {base path : String} {d : Definition}
    (h : path ∈ (d.toSchema base).paths) :
    ∃ name, path = base ++ name ∧ beforeTail? ['[', ']'] name.toList = none := by
  cases d with
  | enumerated values => simp [toSchema, Schema.paths] at h
  | structural properties =>
    rw [toSchema, Schema.paths, Schema.mem_pathsOfAll_iff] at h
    obtain ⟨entry, hentry, hpath⟩ := h
    obtain ⟨⟨property, p⟩, -, rfl⟩ := List.mem_map.mp hentry
    dsimp only at hpath
    rw [Shape.paths_toSchema] at hpath
    obtain ⟨name, hname, rfl⟩ := List.mem_map.mp hpath
    exact ⟨name, rfl, Shape.bracketElement?_referencedName (Option.mem_toList.mp hname)⟩

theorem mapPaths_toSchema (base other : String) (d : Definition) :
    (d.toSchema base).mapPaths (exchangeStart base other) = d.toSchema other := by
  cases d with
  | enumerated values => rfl
  | structural properties =>
    rw [toSchema, Schema.mapPaths, Schema.mapAllPaths_eq_mapValues, toSchema]
    congr 1
    unfold Table.mapValues
    rw [List.map_map]
    refine List.map_congr_left fun entry _ => ?_
    exact congrArg (Prod.mk entry.1) (Shape.mapPaths_toSchema base other _)

end Definition

namespace Definitions

theorem exists_name_of_mem_paths {definitions : Definitions} {base path : String}
    (h : path ∈ Document.paths (definitions.mapValues (Definition.toSchema base))) :
    ∃ name, path = base ++ name ∧ beforeTail? ['[', ']'] name.toList = none := by
  obtain ⟨entry, hentry, hpath⟩ := Schema.mem_pathsOfAll_iff.mp h
  obtain ⟨⟨defined, d⟩, -, rfl⟩ := List.mem_map.mp hentry
  exact Definition.exists_name_of_mem_paths hpath

/-- Behind a closed start no array is left to dereferencing. -/
theorem toDocument_of_closedStart {base : String} (hbase : ClosedStart base) (definitions : Definitions) :
    definitions.toDocument base = definitions.mapValues (Definition.toSchema base) := by
  refine Schema.dereferenceAll_eq_self fun path hpath => ?_
  obtain ⟨name, rfl, hname⟩ := exists_name_of_mem_paths hpath
  exact Schema.not_marked_iff.mpr (Schema.not_marked_of_closedStart hbase hname)

theorem mapPaths_exchangeStart (base other : String) (definitions : Definitions) :
    Document.mapPaths (exchangeStart base other) (definitions.mapValues (Definition.toSchema base)) =
      definitions.mapValues (Definition.toSchema other) := by
  rw [Document.mapPaths, Schema.mapAllPaths_eq_mapValues]
  unfold Table.mapValues
  rw [List.map_map]
  refine List.map_congr_left fun entry _ => ?_
  exact congrArg (Prod.mk entry.1) (Definition.mapPaths_toSchema base other entry.2)

/-- Whatever type texts the definitions have, with a closed start their document is the one that
synthesis makes, every path in it begins with the start, and with another closed start the
document is the same but for the starts of its paths. -/
theorem toDocument_start (definitions : Definitions) {base : String} (hbase : ClosedStart base) :
    Document.dereference (definitions.mapValues (Definition.toSchema base)) =
        definitions.mapValues (Definition.toSchema base) ∧
      (∀ path ∈ (definitions.toDocument base).paths, ∃ name, path = base ++ name) ∧
      ∀ other, ClosedStart other → definitions.toDocument other =
        (definitions.toDocument base).mapPaths (exchangeStart base other) := by
  have hdocument := toDocument_of_closedStart hbase definitions
  refine ⟨hdocument, fun path hpath => ?_, fun other hother => ?_⟩
  · rw [hdocument] at hpath
    obtain ⟨name, hname, -⟩ := exists_name_of_mem_paths hpath
    exact ⟨name, hname⟩
  · rw [hdocument, mapPaths_exchangeStart, toDocument_of_closedStart hother]

def bracketDefinitions : Definitions :=
  [("A", .structural [("none", ⟨"[]", false⟩), ("stray", ⟨"]a[][]", true⟩), ("cut", ⟨"(A | B)[", false⟩),
      ("deep", ⟨"undefined | Array<B[]>", false⟩)]),
    ("B", .enumerated [.string "[]"])]

/-- Without any start they are all there is of the paths. -/
theorem toDocument_start_brackets :
    ClosedStart ({} : Settings).base ∧ ClosedStart "" ∧
      bracketDefinitions.toDocument "" =
        (bracketDefinitions.toDocument ({} : Settings).base).mapPaths
          (exchangeStart ({} : Settings).base "") ∧
      (bracketDefinitions.toDocument "").paths = ["", "]a", "(A | B)[", "B"] := by
  have hempty : ClosedStart "" := fun _ h => by cases h
  have hexchange := (toDocument_start bracketDefinitions Settings.closedStart_base).2.2 "" hempty
  exact ⟨Settings.closedStart_base, hempty, hexchange, by decide +kernel⟩

end Definitions
end DeclSchema
