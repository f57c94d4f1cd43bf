import DeclSchema.Proofs.Schema.Paths

/-! # Schemas with their array references written out

Dereferencing changes nothing in a schema but the references whose paths end in array markers,
and from such a path it takes all of them. A schema in which no path ends in a marker is what
every pass leads to and what no pass changes.
-/
namespace DeclSchema
open Text

namespace Schema

def Marked (path : String) : Prop := "[]".toList <:+ path.toList

def nested : Nat → Schema → Schema
  | 0, schema => schema
  | depth + 1, schema => array (nested depth schema)

mutual

/-- The second schema is the first one with nested arrays in the place of references: one array
for each of the markers at the end of a path, around the path without them. -/
inductive WritesOut : Schema → Schema → Prop
  | primitive (type : Primitive) : WritesOut (.primitive type) (.primitive type)
  | reference {path : String} (count : Nat) (h : ¬ Marked path) :
      WritesOut (.reference (path ++ String.ofList (markers count))) (nested count (.reference path))
  | array {items items' : Schema} (h : WritesOut items items') : WritesOut (.array items) (.array items')
  | object {properties properties' : List (String × Schema)} (required : List String)
      (h : WritesOutAll properties properties') :
      WritesOut (.object properties required) (.object properties' required)
  | enumeration (type : Primitive) (values : List Value) :
      WritesOut (.enumeration type values) (.enumeration type values)

inductive WritesOutAll : List (String × Schema) → List (String × Schema) → Prop
  | nil : WritesOutAll [] []
  | cons (name : String) {schema schema' : Schema} {rest rest' : List (String × Schema)}
      (h : WritesOut schema schema') (hrest : WritesOutAll rest rest') :
      WritesOutAll ((name, schema) :: rest) ((name, schema') :: rest')

end

theorem not_marked_iff {path : String} :
    ¬ Marked path ↔ beforeTail? ['[', ']'] path.toList = none := by
  rw [Option.eq_none_iff_forall_ne_some]
  constructor
  · intro h rest hrest
    exact h ⟨rest, (beforeTail?_eq_some_iff.mp hrest).symm⟩
  · rintro h ⟨rest, hrest⟩
    exact h rest (beforeTail?_eq_some_iff.mpr hrest.symm)

/-- Every path is one without a marker at its end, followed by some number of markers. -/
theorem exists_markers (path : List Char) :
    ∃ rest count, ¬ Marked (String.ofList rest) ∧ path = rest ++ markers count := by
  fun_induction ofPath path with
  | case1 path element he ih =>
    obtain ⟨rest, count, hrest, rfl⟩ := ih
    refine ⟨rest, count + 1, hrest, ?_⟩
    rw [beforeTail?_eq_some_iff.mp he, markers_succ, List.append_assoc]
  | case2 path hnone =>
    refine ⟨path, 0, not_marked_iff.mpr ?_, by simp [markers]⟩
    rwa [String.toList_ofList]

theorem ofPath_append_markers (path : List Char) (count : Nat) :
    ofPath (path ++ markers count) = nested count (ofPath path) := by
  induction count with
  | zero => simp [markers, nested]
  | succ count ih =>
    have htail : beforeTail? ['[', ']'] (path ++ markers (count + 1)) = some (path ++ markers count) := by
      rw [beforeTail?_eq_some_iff, markers_succ, List.append_assoc]
    rw [ofPath, htail, nested, ← ih]

theorem paths_nested (depth : Nat) (schema : Schema) : (nested depth schema).paths = schema.paths := by
  induction depth with
  | zero => rfl
  | succ depth ih => rw [nested, paths, ih]

theorem writesOut_ofPath (path : String) : WritesOut (reference path) (ofPath path.toList) := by
  obtain ⟨rest, count, hrest, hpath⟩ := exists_markers path.toList
  have hsplit : path = String.ofList rest ++ String.ofList (markers count) := by
    rw [← String.ofList_append, ← hpath, String.ofList_toList]
  have hnone : beforeTail? ['[', ']'] rest = none := by
    rw [← not_marked_iff.mp hrest, String.toList_ofList]
  have hout : ofPath path.toList = nested count (reference (String.ofList rest)) := by
    rw [hpath, ofPath_append_markers, ofPath_of_not_marked hnone]
  rw [hout, hsplit]
  exact .reference count hrest

mutual

theorem writesOut_dereference : ∀ schema : Schema, WritesOut schema schema.dereference
  | .primitive type => .primitive type
  | .reference path => writesOut_ofPath path
  | .array items => .array (writesOut_dereference items)
  | .object properties required => .object required (writesOutAll_dereferenceAll properties)
  | .enumeration type values => .enumeration type values

theorem writesOutAll_dereferenceAll :
    ∀ properties : List (String × Schema), WritesOutAll properties (dereferenceAll properties)
  | [] => .nil
  | (name, schema) :: rest => .cons name (writesOut_dereference schema) (writesOutAll_dereferenceAll rest)

end

mutual

/-- There is one way only to write a schema out. -/
theorem WritesOut.eq_dereference {schema result : Schema} :
    WritesOut schema result → result = schema.dereference
  | .primitive _ => rfl
  | .reference count h => by
    rw [dereference, String.toList_append, String.toList_ofList, ofPath_append_markers,
      ofPath_of_not_marked (not_marked_iff.mp h), String.ofList_toList]
  | .array h => by rw [dereference, h.eq_dereference]
  | .object _ h => by rw [dereference, h.eq_dereferenceAll]
  | .enumeration _ _ => rfl

theorem WritesOutAll.eq_dereferenceAll {properties results : List (String × Schema)} :
    WritesOutAll properties results → results = dereferenceAll properties
  | .nil => rfl
  | .cons _ h hrest => by rw [dereferenceAll, h.eq_dereference, hrest.eq_dereferenceAll]

end

mutual

/-- Nothing is left to write out. -/
theorem WritesOut.not_marked {schema result : Schema} :
    WritesOut schema result → ∀ path ∈ result.paths, ¬ Marked path
  | .primitive _ => by simp [paths]
  | .reference count h => by
    rw [paths_nested, paths]
    exact List.forall_mem_singleton.mpr h
  | .array h => by
    rw [paths]
    exact h.not_marked
  | .object _ h => by
    rw [paths]
    exact h.not_marked
  | .enumeration _ _ => by simp [paths]

theorem WritesOutAll.not_marked {properties results : List (String × Schema)} :
    WritesOutAll properties results → ∀ path ∈ pathsOfAll results, ¬ Marked path
  | .nil => by simp [pathsOfAll]
  | .cons _ h hrest => by
    rw [pathsOfAll]
    exact List.forall_mem_append.mpr ⟨h.not_marked, hrest.not_marked⟩

end

mutual

/-- A schema without marked paths is written out already. -/
theorem writesOut_self : ∀ {schema : Schema}, (∀ path ∈ schema.paths, ¬ Marked path) →
    WritesOut schema schema
  | .primitive type, _ => .primitive type
  | .reference path, h => by
    have hself := WritesOut.reference 0 (h path (by simp [paths]))
    rwa [show String.ofList (markers 0) = "" from rfl, String.append_empty] at hself
  | .array _, h => .array (writesOut_self (by rwa [paths] at h))
  | .object _ required, h => .object required (writesOutAll_self (by rwa [paths] at h))
  | .enumeration type values, _ => .enumeration type values

theorem writesOutAll_self : ∀ {properties : List (String × Schema)},
    (∀ path ∈ pathsOfAll properties, ¬ Marked path) → WritesOutAll properties properties
  | [], _ => .nil
  | (name, _) :: _, h => by
    rw [pathsOfAll, List.forall_mem_append] at h
    exact .cons name (writesOut_self h.1) (writesOutAll_self h.2)

end

theorem dereferenceAll_eq_self {properties : List (String × Schema)}
    (h : ∀ path ∈ pathsOfAll properties, ¬ Marked path) : dereferenceAll properties = properties :=
  (writesOutAll_self h).eq_dereferenceAll.symm

end Schema

/-- Dereferencing takes a document to its normal form: no path in it ends in a marker, it is the
one document in which all references are written out and nothing else is changed, a second pass
keeps it, and only what is in normal form is kept by the first. -/
theorem Document.dereference_normal (document : Document) :
    (∀ path ∈ document.dereference.paths, ¬ Schema.Marked path) ∧
      (∀ result, Schema.WritesOutAll document result ↔ result = document.dereference) ∧
      document.dereference.dereference = document.dereference ∧
      (document.dereference = document ↔ ∀ path ∈ document.paths, ¬ Schema.Marked path) := by
  have hout : Schema.WritesOutAll document document.dereference :=
    Schema.writesOutAll_dereferenceAll document
  have hnormal : ∀ path ∈ document.dereference.paths, ¬ Schema.Marked path := hout.not_marked
  refine ⟨hnormal, fun result => ⟨fun h => h.eq_dereferenceAll, ?_⟩,
    Schema.dereferenceAll_eq_self hnormal, ?_, Schema.dereferenceAll_eq_self⟩
  · rintro rfl
    exact hout
  · intro h
    rwa [h] at hnormal

end DeclSchema
