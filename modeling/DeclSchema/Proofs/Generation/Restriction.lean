import DeclSchema.Generation
import DeclSchema.Proofs.Reference.Closure

/-! # The document of one root

Every schema of a document comes from one definition alone. Synthesis and dereferencing
therefore commute with the restriction to a set of names, and the document of a root is the
part of the whole document that the root leads to.
-/
namespace DeclSchema

theorem Schema.dereferenceAll_eq_mapValues (properties : List (String × Schema)) :
    dereferenceAll properties = Table.mapValues dereference properties := by
  induction properties with
  | nil => rfl
  | cons entry rest ih =>
    obtain ⟨name, schema⟩ := entry
    rw [dereferenceAll, ih]
    rfl

namespace Definitions

theorem toDocument_eq_mapValues (definitions : Definitions) (base : String) :
    definitions.toDocument base =
      definitions.mapValues fun d => (d.toSchema base).dereference := by
  unfold toDocument Document.dereference
  rw [Schema.dereferenceAll_eq_mapValues]
  simp [Table.mapValues]

@[simp] theorem names_toDocument (definitions : Definitions) (base : String) :
    (definitions.toDocument base).names = definitions.names := by
  rw [toDocument_eq_mapValues, Table.names_mapValues]

theorem toDocument_keep (definitions : Definitions) (base : String) (test : String → Bool) :
    toDocument (Table.keep definitions test) base = (definitions.toDocument base).keep test := by
  rw [toDocument_eq_mapValues, toDocument_eq_mapValues, Table.mapValues_keep]

open Classical in
theorem restrictedTo_eq_keep {definitions : Definitions} {root : String} {d : Definition}
    (h : definitions.value? root = some d) :
    definitions.restrictedTo root d =
      definitions.keep fun name => decide (Relation.ReflTransGen definitions.Links root name) := by
  apply Table.keep_congr
  intro name _
  rw [Bool.eq_iff_iff, List.contains_iff_mem, mem_closure_root_iff h, decide_eq_true_iff]

end Definitions

namespace Settings

theorem generateAll_of_error {settings : Settings} {path source : String} {failure : Failure}
    (h : Definitions.ofSource path source = .error failure) :
    settings.generateAll path source = .error failure := by
  rw [generateAll, h]
  rfl

theorem generateAll_of_ok {settings : Settings} {path source : String} {definitions : Definitions}
    (h : Definitions.ofSource path source = .ok definitions) :
    settings.generateAll path source = .ok (definitions.report settings) := by
  rw [generateAll, h]
  rfl

theorem generateOne_of_ok {settings : Settings} {path source root : String}
    {definitions : Definitions} (h : Definitions.ofSource path source = .ok definitions) :
    settings.generateOne path source root =
      match definitions.value? root with
      | some d => .ok ((definitions.restrictedTo root d).report settings)
      | none => .error (.unknownName root path) := by
  rw [generateOne, h]
  rfl

open Classical in
/-- A source that has no document has none for any root, for the same reason. Otherwise a
name that is not in the document is unknown, and the document of any other root is what the
root leads to: the same schemas in the same order. -/
theorem generateOne_restricts_generateAll (settings : Settings) (path source root : String) :
    match settings.generateAll path source with
    | .error failure => settings.generateOne path source root = .error failure
    | .ok all => ∃ definitions, Definitions.ofSource path source = .ok definitions ∧
        if root ∈ all.document.names then
          ∃ one, settings.generateOne path source root = .ok one ∧
            one.document = all.document.keep fun name =>
              decide (Relation.ReflTransGen definitions.Links root name)
        else settings.generateOne path source root = .error (.unknownName root path) := by
  cases h : Definitions.ofSource path source with
  | error failure =>
    rw [generateAll_of_error h]
    show settings.generateOne path source root = .error failure
    rw [generateOne, h]
    rfl
  | ok definitions =>
    rw [generateAll_of_ok h]
    refine ⟨definitions, rfl, ?_⟩
    rw [generateOne_of_ok h]
    have hnames : (definitions.report settings).document.names = definitions.names :=
      definitions.names_toDocument settings.base
    rw [hnames]
    split
    · rename_i hroot
      obtain ⟨d, hd⟩ := Table.mem_names_iff.mp hroot
      rw [hd]
      refine ⟨_, rfl, ?_⟩
      show Definitions.toDocument (definitions.restrictedTo root d) settings.base = _
      rw [Definitions.restrictedTo_eq_keep hd, Definitions.toDocument_keep]
      rfl
    · rename_i hroot
      rw [Table.value?_eq_none_iff.mpr hroot]

end Settings
end DeclSchema
