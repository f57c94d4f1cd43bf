import DeclSchema.Proofs.Generation.Restriction
import DeclSchema.Proofs.Inheritance.Recursion
import DeclSchema.Proofs.Schema.Paths
import DeclSchema.Proofs.TypeText.Names

/-! # References within the document of one root

The schemas read the type texts once more after the closure has done so. Both see the same
names, but the closure passes over the reserved ones. A document of one root therefore holds
all that it refers to, except for definitions with reserved names.
-/
namespace DeclSchema
open Text

/-- A reference in the schema of a definition to a name comes from a property whose type
refers to that name. -/
theorem Definition.exists_property_of_mem_paths {d : Definition} {base name : String}
    (h : base ++ name ∈ (d.toSchema base).dereference.paths) :
    ∃ properties, d.properties? = some properties ∧ ∃ entry ∈ properties,
      (Shape.ofText entry.2.typeText).referencedName? = some name := by
  cases d with
  | enumerated values => simp [toSchema, Schema.dereference, Schema.paths] at h
  | structural properties =>
    rw [toSchema, Schema.dereference, Schema.paths, Schema.dereferenceAll_eq_mapValues,
      Schema.mem_pathsOfAll_iff] at h
    obtain ⟨schema, hs, h⟩ := h
    obtain ⟨shaped, hshaped, rfl⟩ := List.mem_map.mp hs
    obtain ⟨entry, hentry, rfl⟩ := List.mem_map.mp hshaped
    obtain ⟨other, hother, hpath⟩ := Shape.mem_paths_dereference_toSchema h
    obtain ⟨count, hcount⟩ := Schema.eq_append_markers_of_mem_paths_ofPath hpath
    rw [String.toList_append, String.toList_append, List.append_assoc,
      List.append_cancel_left_eq] at hcount
    -- a marker left at the end of the name would belong to the shape
    have hzero : count = 0 := by
      cases count with
      | zero => rfl
      | succ count =>
        rw [Schema.markers_succ, ← List.append_assoc] at hcount
        have hnone := Shape.bracketElement?_referencedName hother
        rw [Shape.bracketElement?, beforeTail?_eq_some_iff.mpr hcount] at hnone
        cases hnone
    subst hzero
    have hname : other = name := String.toList_injective (by simpa [Schema.markers] using hcount)
    exact ⟨properties, rfl, entry, hentry, hname ▸ hother⟩

namespace Definitions
variable {definitions : Definitions} {root name base : String} {d : Definition}

theorem nodup_names_ofSource {path source : String}
    (h : Definitions.ofSource path source = .ok definitions) : definitions.names.Nodup := by
  unfold ofSource at h
  split at h
  · cases h
    exact nodup_names_ofItems _
  · cases h

theorem mem_names_restrictedTo (h : definitions.value? root = some d)
    (hname : name ∈ definitions.names) :
    name ∈ (definitions.restrictedTo root d).names ↔
      Relation.ReflTransGen definitions.Links root name := by
  classical
  obtain ⟨e, he⟩ := Table.mem_names_iff.mp hname
  rw [restrictedTo_eq_keep h, Table.names, List.mem_map]
  constructor
  · rintro ⟨entry, hmem, rfl⟩
    simpa using (List.mem_filter.mp hmem).2
  · intro hreach
    obtain ⟨entry, hmem, hn⟩ := List.mem_map.mp hname
    exact ⟨entry, List.mem_filter.mpr ⟨hmem, by simpa [hn] using hreach⟩, hn⟩

/-- No chain of references leads to a reserved name, except for the empty one. -/
theorem eq_or_not_reserved_of_reach (h : Relation.ReflTransGen definitions.Links root name) :
    name = root ∨ name ∉ reservedNames := by
  cases h with
  | refl => exact .inl rfl
  | tail _ hlink =>
    obtain ⟨_, _, _, _, _, _, _, hfree⟩ := hlink
    exact .inr hfree

/-- What a definition of the restricted table refers to is reached as well. -/
theorem reach_of_mem_paths (hnodup : definitions.names.Nodup)
    (h : definitions.value? root = some d)
    (hpath : base ++ name ∈ ((definitions.restrictedTo root d).toDocument base).paths)
    (hfree : name ∉ reservedNames) : Relation.ReflTransGen definitions.Links root name := by
  classical
  rw [toDocument_eq_mapValues, Document.paths, Schema.mem_pathsOfAll_iff] at hpath
  obtain ⟨schema, hschema, hpath⟩ := hpath
  obtain ⟨⟨source, e⟩, hmem, rfl⟩ := List.mem_map.mp hschema
  rw [restrictedTo_eq_keep h] at hmem
  obtain ⟨hmem, hreach⟩ := List.mem_filter.mp hmem
  obtain ⟨properties, hproperties, entry, hentry, hname⟩ := e.exists_property_of_mem_paths hpath
  have hvalue : definitions.value? source = some e := Table.value?_of_mem hnodup hmem
  have hlink : definitions.Links source name :=
    ⟨e, hvalue, properties, hproperties, entry, hentry, hname, hfree⟩
  exact Relation.ReflTransGen.tail (by simpa using hreach) hlink

end Definitions

namespace Settings

/-- Every root of a source has a document. Of the definitions of the source that the document
refers to, it holds the root and all those whose names are not reserved, and no other. -/
theorem generateOne_selfContained {settings : Settings} {path source root : String}
    {definitions : Definitions} (h : Definitions.ofSource path source = .ok definitions)
    (hroot : root ∈ definitions.names) :
    ∃ one, settings.generateOne path source root = .ok one ∧
      ∀ name ∈ definitions.names, settings.base ++ name ∈ one.document.paths →
        (name ∈ one.document.names ↔ name = root ∨ name ∉ reservedNames) := by
  obtain ⟨d, hd⟩ := Table.mem_names_iff.mp hroot
  refine ⟨_, by rw [generateOne_of_ok h, hd], ?_⟩
  intro name hname hpath
  show name ∈ (Definitions.toDocument (definitions.restrictedTo root d) settings.base).names ↔ _
  rw [Definitions.names_toDocument, Definitions.mem_names_restrictedTo hd hname]
  refine ⟨Definitions.eq_or_not_reserved_of_reach, ?_⟩
  rintro (rfl | hfree)
  · exact .refl
  · exact Definitions.reach_of_mem_paths (Definitions.nodup_names_ofSource h) hd hpath hfree

def reservedNameSource : String :=
  "interface A { list: array; b: B[] }\ninterface array { x: string }\ninterface B { a: A }"

def reservedNameDefinitions : Definitions :=
  [("A", .structural [("list", ⟨"array", false⟩), ("b", ⟨"B[]", false⟩)]),
    ("array", .structural [("x", ⟨"string", false⟩)]), ("B", .structural [("a", ⟨"A", false⟩)])]

theorem ofSource_reservedNameSource :
    Definitions.ofSource "models.ts" reservedNameSource = .ok reservedNameDefinitions := by
  decide +kernel

theorem document_of_A_selfContained :
    Definitions.ofSource "models.ts" reservedNameSource = .ok reservedNameDefinitions ∧
      "A" ∈ reservedNameDefinitions.names ∧
      ∃ one, ({} : Settings).generateOne "models.ts" reservedNameSource "A" = .ok one ∧
        ∀ name ∈ reservedNameDefinitions.names,
          ({} : Settings).base ++ name ∈ one.document.paths →
            (name ∈ one.document.names ↔ name = "A" ∨ name ∉ reservedNames) :=
  ⟨ofSource_reservedNameSource, by decide,
    generateOne_selfContained ofSource_reservedNameSource (by decide)⟩

/-- The document of `A` refers to the definition `array` of the source and does not hold it. -/
theorem document_of_A_lacks_array :
    ∃ definitions one, Definitions.ofSource "models.ts" reservedNameSource = .ok definitions ∧
      "A" ∈ definitions.names ∧ "array" ∈ definitions.names ∧
      ({} : Settings).generateOne "models.ts" reservedNameSource "A" = .ok one ∧
      ({} : Settings).base ++ "array" ∈ one.document.paths ∧ "array" ∉ one.document.names := by
  refine ⟨_, _, ofSource_reservedNameSource, by decide, by decide,
    generateOne_of_ok ofSource_reservedNameSource, ?_, ?_⟩
  · decide +kernel
  · decide +kernel

end Settings
end DeclSchema
