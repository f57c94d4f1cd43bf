import DeclSchema.Proofs.Settings.Layering
import DeclSchema.Settings.Sources

/-! # The last source counts

Settings come from six sources. Each may be missing, and each is compared with a load in which it
is the only one that says anything.
-/
namespace DeclSchema
open Text Toml

inductive Source
  | project
  | hidden
  | folder
  | user
  /-- The file that is named explicitly. -/
  | named
  | environment
deriving Repr, DecidableEq

namespace Source

def all : List Source := [project, hidden, folder, user, named, environment]

def later (source : Source) : List Source := (all.dropWhile (· != source)).tail

theorem exists_all_eq (source : Source) : ∃ earlier, all = earlier ++ source :: source.later := by
  refine ⟨all.takeWhile (· != source), ?_⟩
  cases source <;> decide

theorem mem_all (source : Source) : source ∈ all := by
  cases source <;> decide

end Source

namespace Surroundings

variable {around : Surroundings} {explicit : Option String}

def reading (around : Surroundings) (explicit : Option String) :
    Source → Except SettingsFault Layer
  | .project => optionalLayer around.files "tsoas.toml"
  | .hidden => optionalLayer around.files ".tsoas.toml"
  | .folder => optionalLayer around.files "config/tsoas.toml"
  | .user =>
    match around.userSettings with
    | some name => if around.files.holds name then optionalLayer around.files name else pure []
    | none => pure []
  | .named =>
    match explicit with
    | some name => requiredLayer around.files name
    | none => pure []
  | .environment => pure (environmentLayer around.environment)

/-- The layers of a load are what the sources say, one after another. -/
theorem layers_eq_mapM (around : Surroundings) (explicit : Option String) :
    around.layers explicit = Source.all.mapM (around.reading explicit) := by
  unfold layers
  simp only [usualPlaces, Source.all, List.mapM_cons, List.mapM_nil, reading, bind_assoc, pure_bind]
  cases around.userSettings with
  | none => cases explicit <;> simp only [pure_bind] <;> rfl
  | some user =>
    by_cases hthere : around.files.holds user = true
    · cases explicit <;> simp only [if_pos hthere, pure_bind] <;> rfl
    · cases explicit <;> simp only [if_neg hthere, pure_bind] <;> rfl

theorem exists_reading_of_mapM {ε : Type} {read : Source → Except ε Layer} {sources : List Source}
    {layers : List Layer} (h : sources.mapM read = .ok layers) :
    ∀ source ∈ sources, ∃ layer, read source = .ok layer := by
  induction sources generalizing layers with
  | nil => nofun
  | cons first sources ih =>
    rw [List.mapM_cons] at h
    cases hfirst : read first with
    | error fault => rw [hfirst] at h; cases h
    | ok layer =>
      rw [hfirst] at h
      cases hrest : sources.mapM read with
      | error fault => rw [hrest] at h; cases h
      | ok rest => exact List.forall_mem_cons.mpr ⟨⟨layer, hfirst⟩, ih hrest⟩

def layer (around : Surroundings) (explicit : Option String) (source : Source) : Layer :=
  match around.reading explicit source with
  | .ok layer => layer
  | .error _ => []

/-- In the second load this source says what it says in the first one, and no other source says
anything. -/
structure Only (source : Source) (around : Surroundings) (explicit : Option String)
    (alone : Surroundings) (named : Option String) : Prop where
  same : alone.reading named source = around.reading explicit source
  others : ∀ other ≠ source, alone.reading named other = .ok []

theorem Only.of_all {source : Source} {alone : Surroundings} {named : Option String}
    (h : ∀ other, alone.reading named other =
      if other = source then around.reading explicit source else .ok []) :
    Only source around explicit alone named :=
  ⟨by rw [h, if_pos rfl], fun other hother => by rw [h, if_neg hother]⟩

/-- Where every source can be read, the layers are what the sources say. -/
theorem layers_of_reading
    (h : ∀ source, around.reading explicit source = .ok (around.layer explicit source)) :
    around.layers explicit = .ok (Source.all.map (around.layer explicit)) := by
  have hread : around.reading explicit = fun source => pure (around.layer explicit source) := funext h
  rw [layers_eq_mapM, hread, List.mapM_pure]
  rfl

theorem settings_eq_ok_iff {settings : Settings} : around.settings explicit = .ok settings ↔
    (∀ source, around.reading explicit source = .ok (around.layer explicit source)) ∧
      Settings.ofLayers? (Source.all.map (around.layer explicit)) = some settings := by
  unfold Surroundings.settings
  constructor
  · intro h
    have hreading : ∀ source, around.reading explicit source =
        .ok (around.layer explicit source) := by
      intro source
      cases hlayers : around.layers explicit with
      | error fault => rw [hlayers] at h; cases h
      | ok layers =>
        rw [layers_eq_mapM] at hlayers
        obtain ⟨layer, hlayer⟩ := exists_reading_of_mapM hlayers source source.mem_all
        rw [Surroundings.layer, hlayer]
    refine ⟨hreading, ?_⟩
    rw [layers_of_reading hreading] at h
    cases hsettings : Settings.ofLayers? (Source.all.map (around.layer explicit)) with
    | none => simp only [bind, Except.bind, hsettings] at h; cases h
    | some s => simp only [bind, Except.bind, hsettings] at h; cases h; rfl
  · rintro ⟨hreading, hsettings⟩
    rw [layers_of_reading hreading]
    simp only [bind, Except.bind, hsettings]
    rfl

/-- Layers that say nothing do nothing. -/
theorem foldl_overlay_of_only {read : Source → Layer} {source : Source}
    (h : ∀ other ≠ source, read other = []) :
    (Source.all.map read).foldl Toml.overlay (table []) = (read source).alone := by
  have hread : read = fun other => if other = source then read source else [] := by
    funext other
    by_cases hother : other = source
    · rw [if_pos hother, hother]
    · rw [if_neg hother, h other hother]
  rw [hread]
  cases source <;> rfl

/-- A load with one source makes the settings that its layer makes. -/
theorem Only.ofValue?_alone {source : Source} {alone : Surroundings} {named : Option String}
    (h : Only source around explicit alone named) {settings : Settings}
    (hsettings : alone.settings named = .ok settings) :
    around.reading explicit source = .ok (around.layer explicit source) ∧
      Settings.ofValue? (around.layer explicit source).alone = some settings := by
  obtain ⟨hreading, hmerged⟩ := settings_eq_ok_iff.mp hsettings
  have hsame : around.layer explicit source = alone.layer named source := by
    rw [layer, layer, h.same]
  have hothers : ∀ other ≠ source, alone.layer named other = [] := by
    intro other hother
    rw [layer, h.others other hother]
  rw [← h.same, hsame]
  refine ⟨hreading source, ?_⟩
  rw [← foldl_overlay_of_only hothers]
  exact hmerged

structure Decides (around : Surroundings) (explicit : Option String) (source : Source)
    (setting : Setting) : Prop where
  speaks : (setting.raw? (around.layer explicit source).alone).isSome = true
  last : ∀ later ∈ source.later, setting.raw? (around.layer explicit later).alone = none

/-- The later sources go on with the section of a setting in the form that this source gives it. -/
def Upheld (around : Surroundings) (explicit : Option String) (source : Source)
    (setting : Setting) : Prop :=
  ∀ form, setting.form? (around.layer explicit source).alone = some form →
    ∀ later ∈ source.later, (around.layer explicit later).Continues setting form

instance (source : Source) (setting : Setting) :
    Decidable (around.Decides explicit source setting) :=
  decidable_of_iff ((setting.raw? (around.layer explicit source).alone).isSome = true ∧
    ∀ later ∈ source.later, setting.raw? (around.layer explicit later).alone = none)
    ⟨fun h => ⟨h.1, h.2⟩, fun h => ⟨h.speaks, h.last⟩⟩

instance (source : Source) (setting : Setting) :
    Decidable (around.Upheld explicit source setting) :=
  match h : setting.form? (around.layer explicit source).alone with
  | none => isTrue fun _ hform => nomatch h.symm.trans hform
  | some form =>
    decidable_of_iff (∀ later ∈ source.later, (around.layer explicit later).Continues setting form)
      ⟨fun hall _ hform => Option.some.inj (h.symm.trans hform) ▸ hall, fun hall => hall form h⟩

/-- All sources together make settings, each with the value that its last source gives it when it
is alone, and with its default if no source says anything of it. -/
def LastSourceWins (around : Surroundings) (explicit : Option String)
    (own : Source → Settings) : Prop :=
  ∃ settings, around.settings explicit = .ok settings ∧ ∀ setting : Setting,
    ((∀ source, setting.raw? (around.layer explicit source).alone = none) →
      settings.get setting = ({} : Settings).get setting) ∧
    ∀ source, around.Decides explicit source setting →
      settings.get setting = (own source).get setting

/-- Sources that load by themselves load together, unless the last two that say something of a
setting say it with a table. Each setting is as the last source that says something of it has it
alone, as long as later sources name the settings of its section in the same way. A source that
does not replaces the section. -/
theorem settings_of_sources {alone : Source → Surroundings} {named : Source → Option String}
    {own : Source → Settings}
    (honly : ∀ source, Only source around explicit (alone source) (named source))
    (hown : ∀ source, (alone source).settings (named source) = .ok (own source))
    (htables : ∀ setting, endsInTables (said Source.all (around.layer explicit) setting) = false) :
    ∃ settings, around.settings explicit = .ok settings ∧ ∀ setting : Setting,
      ((∀ source, setting.raw? (around.layer explicit source).alone = none) →
        settings.get setting = ({} : Settings).get setting) ∧
      ∀ source, around.Decides explicit source setting →
        (around.Upheld explicit source setting →
          settings.get setting = (own source).get setting) ∧
        (¬ around.Upheld explicit source setting →
          settings.get setting = ({} : Settings).get setting) := by
  have halone (source : Source) := (honly source).ofValue?_alone (hown source)
  obtain ⟨settings, hsettings, hget⟩ := exists_ofLayers? (fun source => (halone source).2) htables
  refine ⟨settings, settings_eq_ok_iff.mpr ⟨fun source => (halone source).1, hsettings⟩,
    fun setting => ?_⟩
  obtain ⟨hdefault, hdecided⟩ := hget setting
  refine ⟨fun hunset => hdefault (List.filterMap_eq_nil_iff.mpr fun source _ => hunset source), ?_⟩
  intro source hdecides
  obtain ⟨earlier, hall⟩ := source.exists_all_eq
  obtain ⟨form, hform⟩ := exists_form? (Option.isSome_iff_exists.mp hdecides.speaks).choose_spec
  have hupheld : around.Upheld explicit source setting ↔
      ∀ later ∈ source.later, (around.layer explicit later).Continues setting form := by
    refine ⟨fun h => h form hform, fun h form' hform' => ?_⟩
    cases hform.symm.trans hform'
    exact h
  rw [hupheld]
  exact hdecided earlier source source.later hall hdecides.speaks hdecides.last form hform

def userPlace : String := "xdg/ts-openapi/tsoas.toml"

def fullDirectory : Directory :=
  [(["tsoas.toml"], "[schema]\nref_prefix = \"x\"\n[output.format]\ncompact = 1\n".toUTF8),
    ([".tsoas.toml"], "[output]\nlayout = \"schemas\"\n".toUTF8),
    (["config", "tsoas.toml"], "analysis = [true]\n".toUTF8),
    (["xdg", "ts-openapi", "tsoas.toml"], "schema = []\n".toUTF8),
    (["mine.toml"], "\"OUTPUT.LAYOUT\" = \"Components\"\n".toUTF8)]

def full : Surroundings :=
  ⟨fullDirectory.files, [("TSOAS__ANALYSIS__WARN_DANGLING", "off")], some userPlace⟩

def path : Source → List String
  | .project => ["tsoas.toml"]
  | .hidden => [".tsoas.toml"]
  | .folder => ["config", "tsoas.toml"]
  | .user => ["xdg", "ts-openapi", "tsoas.toml"]
  | .named => ["mine.toml"]
  | .environment => []

def fileOf (d : Directory) (source : Source) : Directory := d.filter (·.1 == path source)

def fullAlone (source : Source) : Surroundings :=
  ⟨(fileOf fullDirectory source).files,
    if source = .environment then full.environment else [], some userPlace⟩

def fullNamed (source : Source) : Option String :=
  if source = .named then some "mine.toml" else none

def fullOwn : Source → Settings
  | .project => { base := "x", format := .compact }
  | .hidden | .folder | .user => {}
  | .named => { layout := .components }
  | .environment => { warnDangling := false }

/-- The format is kept by sources that choose a layout, and the base is lost to a list that leaves
it out. -/
theorem settings_of_full : ∃ settings, full.settings (some "mine.toml") = .ok settings ∧
    settings.get .base = ({} : Settings).get .base ∧
    settings.get .format = (fullOwn .project).get .format ∧
    settings.get .layout = (fullOwn .named).get .layout ∧
    settings.get .warnDangling = (fullOwn .environment).get .warnDangling := by
  have honly (source : Source) :
      Only source full (some "mine.toml") (fullAlone source) (fullNamed source) :=
    .of_all fun other => by cases source <;> cases other <;> rfl
  have hown (source : Source) : (fullAlone source).settings (fullNamed source) =
      .ok (fullOwn source) := by
    cases source <;> decide +kernel
  -- All of this is computed at once, so that the files are read once.
  have hsaid : (∀ setting ∈ [Setting.base, .format, .layout, .warnDangling],
        endsInTables (said Source.all (full.layer (some "mine.toml")) setting) = false) ∧
      (full.Decides (some "mine.toml") .project .base ∧
        ¬ full.Upheld (some "mine.toml") .project .base) ∧
      (full.Decides (some "mine.toml") .project .format ∧
        full.Upheld (some "mine.toml") .project .format) ∧
      (full.Decides (some "mine.toml") .named .layout ∧
        full.Upheld (some "mine.toml") .named .layout) ∧
      full.Decides (some "mine.toml") .environment .warnDangling ∧
        full.Upheld (some "mine.toml") .environment .warnDangling := by
    decide +kernel
  obtain ⟨htables, ⟨hbase, hlost⟩, ⟨hformat, hkept⟩, ⟨hlayout, hlater⟩, hwarn, hlast⟩ := hsaid
  obtain ⟨settings, hsettings, hget⟩ := settings_of_sources honly hown fun setting =>
    htables setting (by cases setting <;> decide)
  exact ⟨settings, hsettings, ((hget .base).2 .project hbase).2 hlost,
    ((hget .format).2 .project hformat).1 hkept, ((hget .layout).2 .named hlayout).1 hlater,
    ((hget .warnDangling).2 .environment hwarn).1 hlast⟩

def plain (d : Directory) : Surroundings := ⟨d.files, [], none⟩

def replacingDirectory : Directory :=
  [(["tsoas.toml"], "[schema]\nref_prefix = \"x\"\n".toUTF8),
    ([".tsoas.toml"], "schema = []\n".toUTF8)]

def replacingOwn : Source → Settings
  | .project => { base := "x" }
  | _ => {}

def meetingDirectory : Directory :=
  [(["tsoas.toml"], "[output.format]\npretty = 1\n".toUTF8),
    ([".tsoas.toml"], "[output.format]\ncompact = 1\n".toUTF8)]

def meetingOwn : Source → Settings
  | .hidden => { format := .compact }
  | _ => {}

theorem only_fileOf {d : Directory} (h : d ∈ [replacingDirectory, meetingDirectory]) (source : Source) :
    Only source (plain d) none (plain (fileOf d source)) none := by
  refine .of_all fun other => ?_
  rcases List.mem_pair.mp h with rfl | rfl <;> cases source <;> cases other <;> rfl

/-- A later list takes a setting away without saying anything of it, and two tables make a value
that is neither format. -/
theorem lastSourceWins_fails :
    ((∀ source, Only source (plain replacingDirectory) none
        (plain (fileOf replacingDirectory source)) none) ∧
      (∀ source, (plain (fileOf replacingDirectory source)).settings none =
        .ok (replacingOwn source)) ∧
      ¬ LastSourceWins (plain replacingDirectory) none replacingOwn) ∧
    (∀ source, Only source (plain meetingDirectory) none
        (plain (fileOf meetingDirectory source)) none) ∧
      (∀ source, (plain (fileOf meetingDirectory source)).settings none =
        .ok (meetingOwn source)) ∧
      ¬ LastSourceWins (plain meetingDirectory) none meetingOwn := by
  have hnothing : (plain []).settings none = .ok {} := by decide +kernel
  refine ⟨⟨only_fileOf (.head _), fun source => ?_, ?_⟩, only_fileOf (.tail _ (.head _)), fun source => ?_, ?_⟩
  · cases source with
    | project | hidden => decide +kernel
    | folder | user | named | environment => exact hnothing
  · rintro ⟨settings, hsettings, hget⟩
    have hload : (plain replacingDirectory).settings none = .ok {} := by decide +kernel
    cases hsettings.symm.trans hload
    have hbase := (hget .base).2 .project (by decide +kernel)
    exact absurd hbase (by decide : ("#/components/schemas/" : String) ≠ "x")
  · cases source with
    | project | hidden => decide +kernel
    | folder | user | named | environment => exact hnothing
  · rintro ⟨settings, hsettings, -⟩
    have hload : (plain meetingDirectory).settings none = .error .unsuitable := by decide +kernel
    cases hsettings.symm.trans hload

end Surroundings
end DeclSchema
