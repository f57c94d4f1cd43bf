import DeclSchema.Proofs.Files.Writing
import DeclSchema.Proofs.Settings.Layers
import DeclSchema.Proofs.Toml.Document
import DeclSchema.Settings.Sources

/-! # The text of settings

The text that settings are written as is a document of three sections, which name every setting.
As the last layer it therefore makes these settings, whatever the layers below say.
-/
namespace DeclSchema
open Text Toml

namespace Toml

structure IsPlainName (name : String) : Prop where
  path : pathOf name = [.entry name]
  lower : Text.lower name = name

instance (name : String) : Decidable (IsPlainName name) :=
  decidable_of_iff (pathOf name = [.entry name] ∧ Text.lower name = name)
    ⟨fun h => ⟨h.1, h.2⟩, fun h => ⟨h.1, h.2⟩⟩

/-- A section that has entries, none of them a table, and plain names throughout. -/
structure Section.Plain (part : Section) : Prop where
  name : IsPlainName part.name
  nonempty : part.entries ≠ []
  entries : ∀ entry ∈ part.entries, IsPlainName entry.name ∧ entry.value.isTable = false

/-- The sections of a document are found in whatever it is laid over, with all their entries. -/
theorem section?_overlay {parts : List Section} (hnames : (parts.map Section.name).Nodup)
    (hplain : ∀ part ∈ parts, part.Plain) {part : Section} (hpart : part ∈ parts) (under : Toml) :
    ∃ v, Table.value? (under.overlay (parts.map Section.table)).entries part.name = some v ∧
      v.section? (part.entries.map Entry.name) =
        some (part.entries.map fun entry => some entry.value) := by
  let entries := part.entries.map fun entry => (entry.name, entry.value)
  have hentries : (entries.map Prod.fst) = part.entries.map Entry.name := List.map_map
  have hvalues : (entries.map fun entry => some entry.2) =
      part.entries.map fun entry => some entry.value := List.map_map
  have hpaths : ∀ entry ∈ parts.map Section.table, pathOf entry.1 = [.entry entry.1] :=
    List.forall_mem_map.mpr fun part hpart => (hplain part hpart).name.path
  refine ⟨stored under part.name (.table entries), ?_, ?_⟩
  · rw [overlay_eq_setAll hpaths]
    refine value?_setAll_of_mem
      (List.forall_mem_map.mpr fun part hpart => (hplain part hpart).name.lower) ?_
      (List.mem_map_of_mem hpart)
    rw [List.map_map]
    exact hnames
  · rw [← hentries, ← hvalues]
    have hentry := (hplain part hpart).entries
    refine section?_stored ?_ (List.forall_mem_map.mpr fun entry h => (hentry entry h).1.lower)
      (List.forall_mem_map.mpr fun entry h => (hentry entry h).2) (hentries ▸ part.distinct)
    exact fun h => (hplain part hpart).nonempty (List.map_eq_nil_iff.mp h)

end Toml

theorem Format.ofValue?_name (format : Format) :
    Format.ofValue? (.string format.name) = some format := by
  cases format <;> decide +kernel

theorem DocumentLayout.ofValue?_name (layout : DocumentLayout) :
    DocumentLayout.ofValue? (.string layout.name) = some layout := by
  cases layout <;> decide +kernel

namespace Settings

def names : List String :=
  ["schema", "ref_prefix", "output", "format", "layout", "analysis", "warn_dangling"]

theorem isPlainName_of_mem_names : ∀ name ∈ names, IsPlainName name := by decide +kernel

def schemaSection (settings : Settings) : Toml.Section where
  name := "schema"
  entries := [⟨"ref_prefix", _, .string settings.base, by decide +kernel, written_quote _⟩]
  bare := by decide +kernel
  distinct := by simp

def outputSection (settings : Settings) : Toml.Section where
  name := "output"
  entries := [⟨"format", _, .string settings.format.name, by decide +kernel, written_quote _⟩,
    ⟨"layout", _, .string settings.layout.name, by decide +kernel, written_quote _⟩]
  bare := by decide +kernel
  distinct := by simp

def analysisSection (settings : Settings) : Toml.Section where
  name := "analysis"
  entries :=
    [⟨"warn_dangling", _, .boolean settings.warnDangling, by decide +kernel, written_boolean _⟩]
  bare := by decide +kernel
  distinct := by simp

def sections (settings : Settings) : List Toml.Section :=
  [settings.schemaSection, settings.outputSection, settings.analysisSection]

theorem nodup_names_sections (settings : Settings) :
    (settings.sections.map Section.name).Nodup := by
  simp [sections, schemaSection, outputSection, analysisSection]

theorem plain_sections (settings : Settings) : ∀ part ∈ settings.sections, part.Plain := by
  have hname := isPlainName_of_mem_names
  simp only [names, List.forall_mem_cons] at hname
  obtain ⟨hschema, hbase, houtput, hformat, hlayout, hanalysis, hwarn, _⟩ := hname
  simp only [sections, List.forall_mem_cons]
  exact ⟨⟨hschema, List.cons_ne_nil _ _, List.forall_mem_singleton.mpr ⟨hbase, rfl⟩⟩,
    ⟨houtput, List.cons_ne_nil _ _,
      List.forall_mem_cons.mpr ⟨⟨hformat, rfl⟩, List.forall_mem_singleton.mpr ⟨hlayout, rfl⟩⟩⟩,
    ⟨hanalysis, List.cons_ne_nil _ _, List.forall_mem_singleton.mpr ⟨hwarn, rfl⟩⟩, nofun⟩

theorem toList_write (settings : Settings) :
    settings.write.toList = documentLines settings.sections := by
  refine String.toList_ofList.trans ?_
  simp [documentLines, sections, schemaSection, outputSection, analysisSection, Section.lines,
    Entry.line, joinWith]

theorem layerOfText?_toUTF8 (settings : Settings) :
    layerOfText? (lenientText settings.write.toUTF8) =
      some (settings.sections.map Section.table) := by
  rw [lenientText, strictText?_toUTF8, Option.getD_some, layerOfText?, toList_write]
  exact read?_document settings.nodup_names_sections

/-- Laid over anything, the text of settings makes these settings. -/
theorem ofValue?_overlay (settings : Settings) (under : Toml) :
    Settings.ofValue? (under.overlay (settings.sections.map Section.table)) = some settings := by
  have hfound (part : Toml.Section) (hpart : part ∈ settings.sections) := Toml.section?_overlay
    settings.nodup_names_sections settings.plain_sections hpart under
  obtain ⟨schema, hschema, hbase⟩ := hfound settings.schemaSection (by simp [sections])
  obtain ⟨output, houtput, hformat⟩ := hfound settings.outputSection (by simp [sections])
  obtain ⟨analysis, hanalysis, hwarn⟩ := hfound settings.analysisSection (by simp [sections])
  simp only [schemaSection, outputSection, analysisSection, List.map_cons, List.map_nil] at *
  simp only [Settings.ofValue?, hschema, houtput, hanalysis, hbase, hformat, hwarn, settingOr,
    Option.bind_eq_bind, Option.bind_some, Format.ofValue?_name, DocumentLayout.ofValue?_name]
  rfl

end Settings

end DeclSchema
