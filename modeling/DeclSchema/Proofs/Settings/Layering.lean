import DeclSchema.Proofs.Settings.Places

/-! # Settings from layers

Each setting has one place in a section. Seen from there, a layer that says something of the
setting decides it, whatever is below, and any other layer leaves it as it is or replaces its
section as a whole. So among several layers the last one that says something of a setting counts.
-/
namespace DeclSchema
open Text Toml

inductive Setting
  | base
  | format
  | layout
  | warnDangling
deriving Repr, DecidableEq

namespace Setting

def part : Setting → String
  | base => "schema"
  | format | layout => "output"
  | warnDangling => "analysis"

def name : Setting → String
  | base => "ref_prefix"
  | format => "format"
  | layout => "layout"
  | warnDangling => "warn_dangling"

def index : Setting → ℕ
  | base | format | warnDangling => 0
  | layout => 1

def Value : Setting → Type
  | base => String
  | format => Format
  | layout => DocumentLayout
  | warnDangling => Bool

def convert? : (setting : Setting) → Toml → Option setting.Value
  | base => Toml.text?
  | format => Format.ofValue?
  | layout => DocumentLayout.ofValue?
  | warnDangling => Toml.truth?

def sectionOf? (setting : Setting) (v : Toml) : Option Toml := Table.value? v.entries setting.part

def raw? (setting : Setting) (v : Toml) : Option Toml :=
  (setting.sectionOf? v).bind (part? setting.name setting.index)

def form? (setting : Setting) (v : Toml) : Option Form := (setting.sectionOf? v).bind Toml.form?

end Setting

def Settings.get (settings : Settings) : (setting : Setting) → setting.Value
  | .base => settings.base
  | .format => settings.format
  | .layout => settings.layout
  | .warnDangling => settings.warnDangling

def Setting.value? (setting : Setting) (v : Toml) : Option setting.Value :=
  settingOr (({} : Settings).get setting) setting.convert? (setting.raw? v)

def Toml.Readable (v : Toml) : Prop :=
  ∀ (setting : Setting) (part : Toml), setting.sectionOf? v = some part → part.form?.isSome = true

def Toml.values? (part : Option Toml) (names : List String) : Option (List (Option Toml)) :=
  match part with
  | none => some (names.map fun _ => none)
  | some part => part.section? names

theorem Toml.values?_of_form? {part : Option Toml}
    (h : ∀ v, part = some v → v.form?.isSome = true) (names : List String) :
    values? part names = some (names.mapIdx fun index name => part.bind (part? name index)) := by
  cases part with
  | none => exact congrArg some (List.ext_getElem (by simp) fun i _ _ => by simp)
  | some v =>
    cases v with
    | table entries => exact congrArg some (List.ext_getElem? fun i => by simp [part?])
    | array items => exact congrArg some (List.ext_getElem (by simp) fun i _ _ => by simp [part?])
    | _ => cases h _ rfl

theorem Toml.form?_isSome_of_values? {part : Option Toml} {names : List String}
    {values : List (Option Toml)} (h : values? part names = some values) :
    ∀ v, part = some v → v.form?.isSome = true := by
  rintro v rfl
  cases v <;> first | rfl | cases h

theorem Toml.readable_empty : (table []).Readable := fun _ _ h => nomatch h

theorem Settings.ofValue?_eq (v : Toml) : Settings.ofValue? v = (do
    let schema ← values? (Table.value? v.entries "schema") ["ref_prefix"]
    let output ← values? (Table.value? v.entries "output") ["format", "layout"]
    let analysis ← values? (Table.value? v.entries "analysis") ["warn_dangling"]
    match schema, output, analysis with
    | [base], [format, layout], [warnDangling] =>
      return {
        base := ← settingOr ({} : Settings).base Toml.text? base
        format := ← settingOr ({} : Settings).format Format.ofValue? format
        layout := ← settingOr ({} : Settings).layout DocumentLayout.ofValue? layout
        warnDangling := ← settingOr ({} : Settings).warnDangling Toml.truth? warnDangling }
    | _, _, _ => none) := rfl

theorem Setting.value?_of_none {setting : Setting} {v : Toml} (h : setting.raw? v = none) :
    setting.value? v = some (({} : Settings).get setting) := by
  rw [value?, h]
  rfl

theorem Setting.value?_of_some {setting : Setting} {v part : Toml} (h : setting.raw? v = some part) :
    setting.value? v = setting.convert? part := by
  rw [value?, h]
  rfl

/-- Values for the four settings make a record of them. -/
theorem Settings.exists_get {P : (setting : Setting) → setting.Value → Prop}
    (h : ∀ setting, ∃ a, P setting a) : ∃ settings : Settings, ∀ setting, P setting (settings.get setting) := by
  obtain ⟨base, hbase⟩ := h .base
  obtain ⟨format, hformat⟩ := h .format
  obtain ⟨layout, hlayout⟩ := h .layout
  obtain ⟨warnDangling, hwarn⟩ := h .warnDangling
  refine ⟨⟨base, format, layout, warnDangling⟩, fun setting => ?_⟩
  cases setting with
  | base => exact hbase
  | format => exact hformat
  | layout => exact hlayout
  | warnDangling => exact hwarn

theorem Settings.readable_of_ofValue? {v : Toml} {settings : Settings}
    (h : Settings.ofValue? v = some settings) : v.Readable := by
  rw [ofValue?_eq] at h
  obtain ⟨schema, hschema, h⟩ := Option.bind_eq_some_iff.mp h
  obtain ⟨output, houtput, h⟩ := Option.bind_eq_some_iff.mp h
  obtain ⟨analysis, hanalysis, -⟩ := Option.bind_eq_some_iff.mp h
  intro setting
  cases setting with
  | base => exact form?_isSome_of_values? hschema
  | format | layout => exact form?_isSome_of_values? houtput
  | warnDangling => exact form?_isSome_of_values? hanalysis

theorem Settings.ofValue?_of_readable {v : Toml} (h : v.Readable) : Settings.ofValue? v = (do
    return {
      base := ← settingOr ({} : Settings).base Toml.text? (Setting.base.raw? v)
      format := ← settingOr ({} : Settings).format Format.ofValue? (Setting.format.raw? v)
      layout := ← settingOr ({} : Settings).layout DocumentLayout.ofValue? (Setting.layout.raw? v)
      warnDangling := ←
        settingOr ({} : Settings).warnDangling Toml.truth? (Setting.warnDangling.raw? v) }) := by
  have hschema : values? (Table.value? v.entries "schema") ["ref_prefix"] =
      some [Setting.base.raw? v] := values?_of_form? (h .base) _
  have houtput : values? (Table.value? v.entries "output") ["format", "layout"] =
      some [Setting.format.raw? v, Setting.layout.raw? v] := values?_of_form? (h .format) _
  have hanalysis : values? (Table.value? v.entries "analysis") ["warn_dangling"] =
      some [Setting.warnDangling.raw? v] := values?_of_form? (h .warnDangling) _
  rw [ofValue?_eq, hschema, houtput, hanalysis]
  rfl

/-- Settings are made of a value one by one. -/
theorem Settings.ofValue?_eq_some_iff {v : Toml} {settings : Settings} :
    Settings.ofValue? v = some settings ↔
      v.Readable ∧ ∀ setting : Setting, setting.value? v = some (settings.get setting) := by
  constructor
  · intro h
    have hreadable := readable_of_ofValue? h
    refine ⟨hreadable, ?_⟩
    rw [ofValue?_of_readable hreadable] at h
    obtain ⟨base, hbase, h⟩ := Option.bind_eq_some_iff.mp h
    obtain ⟨format, hformat, h⟩ := Option.bind_eq_some_iff.mp h
    obtain ⟨layout, hlayout, h⟩ := Option.bind_eq_some_iff.mp h
    obtain ⟨warnDangling, hwarn, h⟩ := Option.bind_eq_some_iff.mp h
    cases h
    intro setting
    cases setting with
    | base => exact hbase
    | format => exact hformat
    | layout => exact hlayout
    | warnDangling => exact hwarn
  · rintro ⟨hreadable, h⟩
    rw [ofValue?_of_readable hreadable]
    exact Option.bind_eq_some_iff.mpr ⟨_, h .base, Option.bind_eq_some_iff.mpr ⟨_, h .format,
      Option.bind_eq_some_iff.mpr ⟨_, h .layout, Option.bind_eq_some_iff.mpr
        ⟨_, h .warnDangling, rfl⟩⟩⟩⟩

/-- A value that a setting takes has no parts, or selects a choice as the only key of a table. -/
theorem Setting.isScalar_or_isTable {setting : Setting} {v : Toml}
    (h : (setting.convert? v).isSome = true) :
    v.isScalar = true ∨ v.isTable = true ∧ v.isBlank = false := by
  have hchoice (v : Toml) (h : v.choice?.isSome = true) :
      v.isScalar = true ∨ v.isTable = true ∧ v.isBlank = false := by
    unfold choice? at h
    split at h
    · exact .inl rfl
    · exact .inr ⟨rfl, rfl⟩
    · cases h
  cases setting with
  | base => cases v <;> first | exact .inl rfl | cases h
  | warnDangling => cases v <;> first | exact .inl rfl | cases h
  | format => exact hchoice v (Option.isSome_of_isSome_bind h)
  | layout => exact hchoice v (Option.isSome_of_isSome_bind h)

namespace Layer

def alone (layer : Layer) : Toml := (table []).overlay layer

/-- Whether a layer goes on with the section of a setting in the form that it has. -/
def Continues (layer : Layer) (setting : Setting) (form : Form) : Prop :=
  ∀ write ∈ writesAt setting.part layer, continues form write = true

variable {under : Toml} {layer : Layer} {setting : Setting} {form : Form} {v : Toml}

instance : Decidable (layer.Continues setting form) := inferInstanceAs (Decidable (∀ _ ∈ _, _))

theorem sectionOf?_overlay (under : Toml) (layer : Layer) (setting : Setting) :
    setting.sectionOf? (under.overlay layer) =
      writeAll (setting.sectionOf? under) (writesAt setting.part layer) :=
  value?_overlay under layer setting.part

theorem sectionOf?_alone (layer : Layer) (setting : Setting) :
    setting.sectionOf? layer.alone = writeAll none (writesAt setting.part layer) :=
  sectionOf?_overlay (table []) layer setting

/-- A layer that does not go on with a section stands for itself. -/
theorem sectionOf?_overlay_of_not_continues (hunder : under.Readable)
    (h : ¬ ∃ form, setting.form? under = some form ∧ layer.Continues setting form) :
    setting.sectionOf? (under.overlay layer) = setting.sectionOf? layer.alone := by
  rw [sectionOf?_overlay, sectionOf?_alone]
  cases hpart : setting.sectionOf? under with
  | none => rfl
  | some part =>
    obtain ⟨form, hform⟩ := Option.isSome_iff_exists.mp (hunder setting part hpart)
    have hunderForm : setting.form? under = some form := by
      rw [Setting.form?, hpart]
      exact hform
    exact writeAll_of_not_continues (fun hall => h ⟨form, hunderForm, hall⟩) hform nofun

/-- A layer that goes on with a section changes its settings one by one. -/
theorem follows_of_continues (hform : setting.form? under = some form)
    (h : layer.Continues setting form) :
    setting.form? (under.overlay layer) = some form ∧
    Suits form (setting.sectionOf? layer.alone) ∧
    Follows (setting.raw? under) (setting.raw? layer.alone) (setting.raw? (under.overlay layer)) := by
  obtain ⟨part, hpart, hform⟩ := Option.bind_eq_some_iff.mp hform
  have hstart : Follows (part.part? setting.name setting.index)
      ((none : Option Toml).bind (part? setting.name setting.index)) (part.part? setting.name setting.index) :=
    .start _
  have hnone : Suits form none := nofun
  obtain ⟨part', hpart', hform', hsuits, hfollows⟩ := writeAll_of_continues h hform hnone hstart
  rw [Setting.form?, Setting.raw?, Setting.raw?, Setting.raw?, sectionOf?_overlay, sectionOf?_alone,
    hpart, hpart']
  exact ⟨hform', hsuits, hfollows⟩

theorem readable_overlay (hunder : under.Readable) (halone : layer.alone.Readable) :
    (under.overlay layer).Readable := by
  intro setting part hpart
  by_cases h : ∃ form, setting.form? under = some form ∧ layer.Continues setting form
  · obtain ⟨form, hform, hcontinues⟩ := h
    have hform' := (follows_of_continues hform hcontinues).1
    rw [Setting.form?, hpart] at hform'
    exact Option.isSome_iff_exists.mpr ⟨form, hform'⟩
  · rw [sectionOf?_overlay_of_not_continues hunder h] at hpart
    exact halone setting part hpart

/-- A layer that says something of a setting decides it, unless two tables meet. Its section has
the form then that this layer gives it. -/
theorem raw?_overlay_of_some (hunder : under.Readable) (h : setting.raw? layer.alone = some v)
    (hv : v.isScalar = true ∨
      v.isBlank = false ∧ ∀ u, setting.raw? under = some u → u.isScalar = true) :
    setting.raw? (under.overlay layer) = some v ∧
    setting.form? (under.overlay layer) = setting.form? layer.alone := by
  by_cases hcontinues : ∃ form, setting.form? under = some form ∧ layer.Continues setting form
  · obtain ⟨form, hform, hcontinues⟩ := hcontinues
    obtain ⟨hform', hsuits, hfollows⟩ := follows_of_continues hform hcontinues
    constructor
    · rcases hv with hscalar | ⟨hblank, hbare⟩
      · exact hfollows.scalar v h hscalar
      · refine (hfollows.bare hbare v h).resolve_right fun hkept => ?_
        rw [hblank] at hkept
        cases hkept.1
    · obtain ⟨part, hpart, hvalue⟩ := Option.bind_eq_some_iff.mp h
      rw [hform', Setting.form?, hpart]
      rcases hsuits part hpart with rfl | hpartForm
      · cases hvalue
      · exact hpartForm.symm
  · have hsection := sectionOf?_overlay_of_not_continues hunder hcontinues
    rw [Setting.raw?, Setting.form?, hsection]
    exact ⟨h, rfl⟩

/-- A layer that says nothing of a setting leaves it as it is, or replaces its section. -/
theorem raw?_overlay_of_none (hunder : under.Readable) (h : setting.raw? layer.alone = none)
    (hform : setting.form? under = some form) :
    (layer.Continues setting form → setting.raw? (under.overlay layer) = setting.raw? under ∧
      setting.form? (under.overlay layer) = some form) ∧
    (¬ layer.Continues setting form → setting.raw? (under.overlay layer) = none) := by
  constructor
  · intro hcontinues
    obtain ⟨hform', -, hfollows⟩ := follows_of_continues hform hcontinues
    exact ⟨hfollows.kept h, hform'⟩
  · intro hother
    have hsection : setting.sectionOf? (under.overlay layer) = setting.sectionOf? layer.alone :=
      sectionOf?_overlay_of_not_continues hunder fun ⟨form', hform', hcontinues⟩ =>
        hother (Option.some.inj (hform.symm.trans hform') ▸ hcontinues)
    rw [Setting.raw?, hsection]
    exact h

theorem raw?_overlay_eq_none (hunder : under.Readable) (h : setting.raw? layer.alone = none)
    (hnone : setting.raw? under = none) : setting.raw? (under.overlay layer) = none := by
  by_cases hcontinues : ∃ form, setting.form? under = some form ∧ layer.Continues setting form
  · obtain ⟨form, hform, hcontinues⟩ := hcontinues
    exact ((raw?_overlay_of_none hunder h hform).1 hcontinues).1.trans hnone
  · rw [Setting.raw?, sectionOf?_overlay_of_not_continues hunder hcontinues]
    exact h

variable {layers earlier later : List Layer}

theorem readable_foldl (hunder : under.Readable) (h : ∀ layer ∈ layers, layer.alone.Readable) :
    (layers.foldl Toml.overlay under).Readable := by
  induction layers generalizing under with
  | nil => exact hunder
  | cons layer layers ih =>
    obtain ⟨hfirst, hrest⟩ := List.forall_mem_cons.mp h
    exact ih (readable_overlay hunder hfirst) hrest

/-- Layers that say nothing of a setting do not bring it up. -/
theorem raw?_foldl_eq_none (hunder : under.Readable) (h : ∀ layer ∈ layers, layer.alone.Readable)
    (hunset : ∀ layer ∈ layers, setting.raw? layer.alone = none)
    (hnone : setting.raw? under = none) : setting.raw? (layers.foldl Toml.overlay under) = none := by
  induction layers generalizing under with
  | nil => exact hnone
  | cons layer layers ih =>
    obtain ⟨hfirst, hrest⟩ := List.forall_mem_cons.mp h
    obtain ⟨hnext, hlater⟩ := List.forall_mem_cons.mp hunset
    exact ih (readable_overlay hunder hfirst) hrest hlater (raw?_overlay_eq_none hunder hnext hnone)

/-- They keep it exactly if all of them go on with its section. -/
theorem raw?_foldl_of_unset (hunder : under.Readable) (h : ∀ layer ∈ layers, layer.alone.Readable)
    (hunset : ∀ layer ∈ layers, setting.raw? layer.alone = none)
    (hform : setting.form? under = some form) :
    ((∀ layer ∈ layers, layer.Continues setting form) →
      setting.raw? (layers.foldl Toml.overlay under) = setting.raw? under) ∧
    ((¬ ∀ layer ∈ layers, layer.Continues setting form) →
      setting.raw? (layers.foldl Toml.overlay under) = none) := by
  induction layers generalizing under with
  | nil => exact ⟨fun _ => rfl, fun hother => absurd nofun hother⟩
  | cons layer layers ih =>
    obtain ⟨hfirst, hrest⟩ := List.forall_mem_cons.mp h
    obtain ⟨hnext, hlater⟩ := List.forall_mem_cons.mp hunset
    have hreadable := readable_overlay hunder hfirst
    obtain ⟨hkeeps, hdrops⟩ := raw?_overlay_of_none hunder hnext hform
    rw [List.foldl_cons, List.forall_mem_cons]
    by_cases hcontinues : layer.Continues setting form
    · obtain ⟨hraw, hform'⟩ := hkeeps hcontinues
      obtain ⟨hkept, hdropped⟩ := ih hreadable hrest hlater hform'
      exact ⟨fun hall => (hkept hall.2).trans hraw,
        fun hother => hdropped fun hall => hother ⟨hcontinues, hall⟩⟩
    · exact ⟨fun hall => absurd hall.1 hcontinues,
        fun _ => raw?_foldl_eq_none hreadable hrest hlater (hdrops hcontinues)⟩

/-- Of several layers the last one that says something of a setting decides it, as far as the later
ones go on with its section. -/
theorem raw?_foldl_of_last (hunder : under.Readable)
    (h : ∀ other ∈ earlier ++ layer :: later, other.alone.Readable)
    (hset : setting.raw? layer.alone = some v)
    (hunset : ∀ other ∈ later, setting.raw? other.alone = none)
    (hv : v.isScalar = true ∨ v.isBlank = false ∧
      ∀ u, setting.raw? (earlier.foldl Toml.overlay under) = some u → u.isScalar = true)
    (hform : setting.form? layer.alone = some form) :
    ((∀ other ∈ later, other.Continues setting form) →
      setting.raw? ((earlier ++ layer :: later).foldl Toml.overlay under) = some v) ∧
    ((¬ ∀ other ∈ later, other.Continues setting form) →
      setting.raw? ((earlier ++ layer :: later).foldl Toml.overlay under) = none) := by
  obtain ⟨hearlier, hrest⟩ := List.forall_mem_append.mp h
  obtain ⟨hself, hlater⟩ := List.forall_mem_cons.mp hrest
  have hbelow := readable_foldl hunder hearlier
  obtain ⟨hraw, hform'⟩ := raw?_overlay_of_some hbelow hset hv
  obtain ⟨hkept, hdropped⟩ := raw?_foldl_of_unset (readable_overlay hbelow hself) hlater hunset
    (hform'.trans hform)
  rw [List.foldl_append, List.foldl_cons]
  exact ⟨fun hall => (hkept hall).trans hraw, hdropped⟩

end Layer

theorem exists_last {α : Type} {p : α → Prop} {items : List α} (h : ∃ a ∈ items, p a) :
    ∃ earlier a later, items = earlier ++ a :: later ∧ p a ∧ ∀ b ∈ later, ¬ p b := by
  classical
  induction items with
  | nil => simp at h
  | cons first items ih =>
    by_cases hrest : ∃ a ∈ items, p a
    · obtain ⟨earlier, a, later, hitems, ha, hlater⟩ := ih hrest
      exact ⟨first :: earlier, a, later, congrArg (first :: ·) hitems, ha, hlater⟩
    · obtain ⟨a, ha, hp⟩ := h
      rcases List.mem_cons.mp ha with rfl | ha
      · exact ⟨[], a, items, rfl, hp, fun b hb hpb => hrest ⟨b, hb, hpb⟩⟩
      · exact absurd ⟨a, ha, hp⟩ hrest

section
variable {ι : Type} {sources : List ι} {layer : ι → Layer} {own : ι → Settings}
  {setting : Setting}

def said (sources : List ι) (layer : ι → Layer) (setting : Setting) : List Toml :=
  sources.filterMap fun source => setting.raw? (layer source).alone

def endsInTables (values : List Toml) : Bool :=
  match values.reverse with
  | last :: before :: _ => before.isTable && last.isTable
  | _ => false

theorem said_append_cons {earlier later : List ι} {source : ι} {v : Toml}
    (hset : setting.raw? (layer source).alone = some v)
    (hunset : ∀ other ∈ later, setting.raw? (layer other).alone = none) :
    said (earlier ++ source :: later) layer setting = said earlier layer setting ++ [v] := by
  rw [said, List.filterMap_append, List.filterMap_cons, hset,
    List.filterMap_eq_nil_iff.mpr hunset]
  rfl

theorem exists_form? {v part : Toml} (h : setting.raw? v = some part) :
    ∃ form, setting.form? v = some form := by
  obtain ⟨whole, hwhole, hpart⟩ := Option.bind_eq_some_iff.mp h
  rw [Setting.form?, hwhole]
  cases whole with
  | table entries => exact ⟨.byName, rfl⟩
  | array items => exact ⟨.byPlace, rfl⟩
  | _ => cases hpart

-- From here on every layer makes settings by itself.
variable (hown : ∀ source, Settings.ofValue? (layer source).alone = some (own source))
include hown

theorem convert?_raw? {source : ι} {v : Toml} (h : setting.raw? (layer source).alone = some v) :
    setting.convert? v = some ((own source).get setting) := by
  rw [← Setting.value?_of_some h]
  exact (Settings.ofValue?_eq_some_iff.mp (hown source)).2 setting

theorem readable_alone (sources : List ι) : ∀ other ∈ sources.map layer, other.alone.Readable :=
  List.forall_mem_map.mpr fun source _ => Settings.readable_of_ofValue? (hown source)

/-- Where no source has the last word, the setting is missing. -/
theorem raw?_foldl_of_said_eq_nil
    (h : said sources layer setting = []) :
    setting.raw? ((sources.map layer).foldl Toml.overlay (table [])) = none :=
  Layer.raw?_foldl_eq_none readable_empty (readable_alone hown sources)
    (List.forall_mem_map.mpr (List.filterMap_eq_nil_iff.mp h)) rfl

/-- The last source that says something of a setting decides it, as long as no two tables meet. -/
theorem raw?_foldl_of_own
    {earlier later : List ι} {source : ι} {v : Toml}
    (hset : setting.raw? (layer source).alone = some v)
    (hunset : ∀ other ∈ later, setting.raw? (layer other).alone = none)
    (hv : v.isScalar = true ∨ v.isBlank = false ∧
      ∀ u, setting.raw? ((earlier.map layer).foldl Toml.overlay (table [])) = some u →
        u.isScalar = true) {form : Form}
    (hform : setting.form? (layer source).alone = some form) :
    ((∀ other ∈ later, (layer other).Continues setting form) →
      setting.raw? (((earlier ++ source :: later).map layer).foldl Toml.overlay (table [])) =
        some v) ∧
    ((¬ ∀ other ∈ later, (layer other).Continues setting form) →
      setting.raw? (((earlier ++ source :: later).map layer).foldl Toml.overlay (table [])) =
        none) := by
  have hreadable := readable_alone hown (earlier ++ source :: later)
  rw [List.map_append, List.map_cons] at hreadable ⊢
  have hlast := Layer.raw?_foldl_of_last readable_empty hreadable hset
    (List.forall_mem_map.mpr hunset) hv hform
  rwa [List.forall_mem_map] at hlast

/-- If the last word is no table, what stands for the setting is none. -/
theorem isScalar_of_raw?_foldl
    (hlast : ∀ v, (said sources layer setting).getLast? = some v → v.isScalar = true) {v : Toml}
    (h : setting.raw? ((sources.map layer).foldl Toml.overlay (table [])) = some v) :
    v.isScalar = true := by
  by_cases hsome : ∃ source ∈ sources, (setting.raw? (layer source).alone).isSome = true
  · obtain ⟨earlier, source, later, rfl, hset, hunset⟩ := exists_last hsome
    obtain ⟨w, hw⟩ := Option.isSome_iff_exists.mp hset
    obtain ⟨form, hform⟩ := exists_form? hw
    have hunset : ∀ other ∈ later, setting.raw? (layer other).alone = none :=
      fun other hother => Option.not_isSome_iff_eq_none.mp (hunset other hother)
    have hscalar : w.isScalar = true := by
      refine hlast w ?_
      rw [said_append_cons hw hunset, List.getLast?_concat]
    obtain ⟨hkept, hdropped⟩ := raw?_foldl_of_own hown hw hunset (.inl hscalar) hform
    by_cases hcontinues : ∀ other ∈ later, (layer other).Continues setting form
    · cases (hkept hcontinues).symm.trans h
      exact hscalar
    · cases (hdropped hcontinues).symm.trans h
  · have hnil : said sources layer setting = [] := List.filterMap_eq_nil_iff.mpr
      fun source hsource => Option.not_isSome_iff_eq_none.mp fun hset =>
        hsome ⟨source, hsource, hset⟩
    cases (raw?_foldl_of_said_eq_nil hown hnil).symm.trans h

/-- The last word on a setting has no parts, or selects a choice over a value without parts. -/
theorem isScalar_or_of_said {earlier later : List ι} {source : ι} {v : Toml}
    (hset : setting.raw? (layer source).alone = some v)
    (hunset : ∀ other ∈ later, setting.raw? (layer other).alone = none)
    (htables : endsInTables (said (earlier ++ source :: later) layer setting) = false) :
    v.isScalar = true ∨ v.isBlank = false ∧
      ∀ u, setting.raw? ((earlier.map layer).foldl Toml.overlay (table [])) = some u →
        u.isScalar = true := by
  have htype {w : Toml} {other : ι} (hw : setting.raw? (layer other).alone = some w) :
      w.isScalar = true ∨ w.isTable = true ∧ w.isBlank = false := by
    have hconvert : (setting.convert? w).isSome = true := by
      rw [convert?_raw? hown hw]
      rfl
    exact Setting.isScalar_or_isTable hconvert
  refine (htype hset).imp_right fun ⟨htable, hblank⟩ => ⟨hblank, fun u hu => ?_⟩
  refine isScalar_of_raw?_foldl hown (fun w hw => ?_) hu
  obtain ⟨before, hbefore⟩ := List.getLast?_eq_some_iff.mp hw
  obtain ⟨other, -, hother⟩ := List.mem_filterMap.mp
    (hbefore ▸ List.mem_append_right before (List.mem_singleton_self w))
  refine (htype hother).resolve_right fun hfirst => ?_
  rw [said_append_cons hset hunset, hbefore] at htables
  simp [endsInTables, hfirst.1, htable] at htables

/-- What the last source that says something of a setting makes of it. -/
theorem value?_foldl_of_own {earlier later : List ι} {source : ι}
    (hset : (setting.raw? (layer source).alone).isSome = true)
    (hunset : ∀ other ∈ later, setting.raw? (layer other).alone = none)
    (htables : endsInTables (said (earlier ++ source :: later) layer setting) = false) {form : Form}
    (hform : setting.form? (layer source).alone = some form) :
    ((∀ other ∈ later, (layer other).Continues setting form) →
      setting.value? (((earlier ++ source :: later).map layer).foldl Toml.overlay (table [])) =
        some ((own source).get setting)) ∧
    ((¬ ∀ other ∈ later, (layer other).Continues setting form) →
      setting.value? (((earlier ++ source :: later).map layer).foldl Toml.overlay (table [])) =
        some (({} : Settings).get setting)) := by
  obtain ⟨v, hv⟩ := Option.isSome_iff_exists.mp hset
  obtain ⟨hkept, hdropped⟩ := raw?_foldl_of_own hown hv hunset
    (isScalar_or_of_said hown hv hunset htables) hform
  constructor
  · intro hall
    rw [Setting.value?_of_some (hkept hall), convert?_raw? hown hv]
  · intro hother
    exact Setting.value?_of_none (hdropped hother)

theorem exists_value?_foldl (htables : endsInTables (said sources layer setting) = false) :
    ∃ a, setting.value? ((sources.map layer).foldl Toml.overlay (table [])) = some a := by
  by_cases hsome : ∃ source ∈ sources, (setting.raw? (layer source).alone).isSome = true
  · obtain ⟨earlier, source, later, rfl, hset, hunset⟩ := exists_last hsome
    obtain ⟨form, hform⟩ := exists_form? (Option.isSome_iff_exists.mp hset).choose_spec
    have hunset : ∀ other ∈ later, setting.raw? (layer other).alone = none :=
      fun other hother => Option.not_isSome_iff_eq_none.mp (hunset other hother)
    obtain ⟨hkept, hdropped⟩ := value?_foldl_of_own hown hset hunset htables hform
    by_cases hcontinues : ∀ other ∈ later, (layer other).Continues setting form
    · exact ⟨_, hkept hcontinues⟩
    · exact ⟨_, hdropped hcontinues⟩
  · have hnil : said sources layer setting = [] := List.filterMap_eq_nil_iff.mpr
      fun source hsource => Option.not_isSome_iff_eq_none.mp fun hset =>
        hsome ⟨source, hsource, hset⟩
    exact ⟨_, Setting.value?_of_none (raw?_foldl_of_said_eq_nil hown hnil)⟩

/-- Sources that make settings by themselves make settings together, unless two tables meet, and
each setting is as the last source that says something of it has it. -/
theorem exists_ofLayers? (htables : ∀ setting, endsInTables (said sources layer setting) = false) :
    ∃ settings, Settings.ofLayers? (sources.map layer) = some settings ∧ ∀ setting : Setting,
      (said sources layer setting = [] →
        settings.get setting = ({} : Settings).get setting) ∧
      ∀ earlier source later, sources = earlier ++ source :: later →
        (setting.raw? (layer source).alone).isSome = true →
        (∀ other ∈ later, setting.raw? (layer other).alone = none) →
        ∀ form, setting.form? (layer source).alone = some form →
          ((∀ other ∈ later, (layer other).Continues setting form) →
            settings.get setting = (own source).get setting) ∧
          ((¬ ∀ other ∈ later, (layer other).Continues setting form) →
            settings.get setting = ({} : Settings).get setting) := by
  obtain ⟨settings, hvalue⟩ := Settings.exists_get fun setting =>
    exists_value?_foldl hown (htables setting)
  have hget {setting : Setting} {a : setting.Value}
      (h : setting.value? ((sources.map layer).foldl Toml.overlay (table [])) = some a) :
      settings.get setting = a := Option.some.inj ((hvalue setting).symm.trans h)
  have hreadable := Layer.readable_foldl readable_empty (readable_alone hown sources)
  refine ⟨settings, Settings.ofValue?_eq_some_iff.mpr ⟨hreadable, hvalue⟩, fun setting =>
    ⟨fun hnil => hget (Setting.value?_of_none (raw?_foldl_of_said_eq_nil hown hnil)), ?_⟩⟩
  rintro earlier source later rfl hset hunset form hform
  obtain ⟨hkept, hdropped⟩ := value?_foldl_of_own hown hset hunset (htables setting) hform
  exact ⟨fun hall => hget (hkept hall), fun hother => hget (hdropped hother)⟩

end

end DeclSchema
