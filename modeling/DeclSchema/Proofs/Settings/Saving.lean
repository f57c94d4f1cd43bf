import DeclSchema.Command.Run
import DeclSchema.Proofs.Settings.Written

/-! # Saved settings are loaded again

Storing the text of settings spoils none of the other files that settings are looked for in, and
the file it is stored in comes after them. What was saved, or shown and stored, is therefore what
is loaded from that file.
-/
namespace DeclSchema
open Text Toml

section
variable {files : Files} {name found place : String} {bytes : ByteArray} {layer : Layer}

theorem findSettings_of_holds (h : files.holds name = true) :
    findSettings files name = if namesToml name then .ok name else .error (.unknownForm name) := by
  rw [findSettings, if_pos h]

theorem findSettings_of_not_holds (h : files.holds name = false) :
    findSettings files name = match withTomlEnding? name with
      | some longer => if files.holds longer then .ok longer else .error (.missingFile name)
      | none => .error (.missingFile name) := by
  rw [findSettings, h]
  rfl

/-- What is found is there, and no longer name is tried where the name itself is there. -/
theorem findSettings_eq_ok_iff : findSettings files name = .ok found ↔
    (namesToml name = true ∧ name = found ∨
      files.holds name = false ∧ withTomlEnding? name = some found) ∧ files.holds found = true := by
  cases hname : files.holds name with
  | true =>
    rw [findSettings_of_holds hname]
    cases namesToml name with
    | true =>
      constructor
      · rintro ⟨⟩
        exact ⟨.inl ⟨rfl, rfl⟩, hname⟩
      · rintro ⟨⟨_, rfl⟩ | ⟨h, _⟩, _⟩
        · rfl
        · cases h
    | false => simp
  | false =>
    have hself : name = found → files.holds found ≠ true := by
      rintro rfl
      simp [hname]
    rw [findSettings_of_not_holds hname]
    cases withTomlEnding? name with
    | none =>
      simp only [reduceCtorEq, and_false, or_false, false_iff]
      exact fun ⟨⟨_, h⟩, hfound⟩ => hself h hfound
    | some longer =>
      dsimp only
      by_cases hlonger : files.holds longer = true
      · rw [if_pos hlonger, Except.ok.injEq]
        constructor
        · rintro rfl
          exact ⟨.inr ⟨rfl, rfl⟩, hlonger⟩
        · rintro ⟨⟨_, h⟩ | ⟨_, h⟩, hfound⟩
          · exact absurd hfound (hself h)
          · exact Option.some.inj h
      · rw [if_neg hlonger]
        refine iff_of_false nofun ?_
        rintro ⟨⟨_, h⟩ | ⟨_, ⟨⟩⟩, hfound⟩
        · exact hself h hfound
        · exact hlonger hfound

theorem readLayer_of_read (h : files.read name = .ok bytes)
    (hlayer : layerOfText? (lenientText bytes) = some layer) :
    readLayer files name = .ok layer := by
  rw [readLayer, h]
  dsimp only
  rw [hlayer]

/-- A place has a layer unless the file that is found there is no TOML document. -/
theorem exists_optionalLayer_iff : (∃ layer, optionalLayer files place = .ok layer) ↔
    ∀ found bytes, findSettings files place = .ok found → files.read found = .ok bytes →
      ∃ layer, layerOfText? (lenientText bytes) = some layer := by
  unfold optionalLayer
  cases hfind : findSettings files place with
  | error fault => exact iff_of_true ⟨[], rfl⟩ nofun
  | ok found =>
    obtain ⟨bytes, hread⟩ := Files.holds_iff.mp (findSettings_eq_ok_iff.mp hfind).2
    dsimp only
    constructor
    · rintro ⟨layer, hlayer⟩ _ _ ⟨⟩ hread'
      cases hread.symm.trans hread'
      rw [readLayer, hread] at hlayer
      dsimp only at hlayer
      split at hlayer
      · exact ⟨_, ‹_›⟩
      · cases hlayer
    · intro h
      obtain ⟨layer, hlayer⟩ := h found bytes rfl hread
      exact ⟨layer, readLayer_of_read hread hlayer⟩

theorem requiredLayer_of_read (hname : namesToml name = true) (h : files.read name = .ok bytes)
    (hlayer : layerOfText? (lenientText bytes) = some layer) :
    requiredLayer files name = .ok layer := by
  have hfind : findSettings files name = .ok name :=
    findSettings_eq_ok_iff.mpr ⟨.inl ⟨hname, rfl⟩, Files.holds_iff.mpr ⟨bytes, h⟩⟩
  rw [requiredLayer, hfind]
  exact readLayer_of_read h hlayer

end

namespace Surroundings
open Command

variable {around : Surroundings} {before after : Files} {environment : List (String × String)}
  {userSettings : Option String} {path text : String} {layer : Layer}

def places (around : Surroundings) : List String :=
  usualPlaces ++ around.userSettings.toList.filter around.files.holds

/-- Every settings file that is found unasked is a TOML document. -/
def WellFormed (around : Surroundings) : Prop :=
  ∀ place ∈ around.places, ∀ found bytes, findSettings around.files place = .ok found →
    around.files.read found = .ok bytes → ∃ layer, layerOfText? (lenientText bytes) = some layer

theorem wellFormed_iff : around.WellFormed ↔
    ∀ place ∈ around.places, (optionalLayer around.files place).isOk = true := by
  refine forall₂_congr fun place _ => exists_optionalLayer_iff.symm.trans ?_
  cases optionalLayer around.files place with
  | error fault => exact iff_of_false nofun Bool.false_ne_true
  | ok layer => exact iff_of_true ⟨layer, rfl⟩ rfl

instance (around : Surroundings) : Decidable around.WellFormed :=
  decidable_of_iff _ wellFormed_iff.symm

theorem exists_mapM_eq_ok {α β ε : Type} {f : α → Except ε β} {items : List α}
    (h : ∀ a ∈ items, ∃ b, f a = .ok b) : ∃ results, items.mapM f = .ok results := by
  induction items with
  | nil => exact ⟨[], rfl⟩
  | cons a items ih =>
    obtain ⟨hfirst, hrest⟩ := List.forall_mem_cons.mp h
    obtain ⟨b, hb⟩ := hfirst
    obtain ⟨results, hresults⟩ := ih hrest
    rw [List.mapM_cons, hb, hresults]
    exact ⟨b :: results, rfl⟩

/-- Then the layers of the unasked files, whatever they are, come before the named one. -/
theorem WellFormed.exists_layers (h : around.WellFormed)
    (hnamed : requiredLayer around.files path = .ok layer) :
    ∃ lower, around.layers (some path) =
      .ok (lower ++ [layer, environmentLayer around.environment]) := by
  obtain ⟨usual, husual⟩ := exists_mapM_eq_ok fun place (hplace : place ∈ usualPlaces) =>
    exists_optionalLayer_iff.mpr (h place (List.mem_append_left _ hplace))
  have hnext (user : Layer) : (requiredLayer around.files path >>= fun named =>
      pure (usual ++ [user, named, environmentLayer around.environment])) =
        .ok (usual ++ [user] ++ [layer, environmentLayer around.environment]) := by
    rw [hnamed, List.append_assoc]
    rfl
  unfold layers
  rw [husual]
  cases hname : around.userSettings with
  | none => exact ⟨usual ++ [[]], hnext []⟩
  | some name =>
    dsimp only
    cases hholds : around.files.holds name with
    | false => exact ⟨usual ++ [[]], hnext []⟩
    | true =>
      have hplace : name ∈ around.places := by
        refine List.mem_append_right _ (List.mem_filter.mpr ⟨?_, hholds⟩)
        rw [hname]
        exact List.mem_singleton_self name
      obtain ⟨user, huser⟩ := exists_optionalLayer_iff.mpr (h name hplace)
      refine ⟨usual ++ [user], ?_⟩
      rw [huser]
      exact hnext user

theorem environmentLayer_eq_nil (h : ∀ entry ∈ environment, environmentKey? entry.1 = none) :
    environmentLayer environment = [] := by
  have hnone : environment.filterMap (fun entry =>
      (environmentKey? entry.1).map fun key => (key, environmentValue entry.2)) = [] := by
    refine List.filterMap_eq_nil_iff.mpr fun entry hentry => ?_
    rw [h entry hentry, Option.map_none]
  exact congrArg Table.ofEntries hnone

/-- A file with the text of settings decides all of them. -/
theorem WellFormed.settings_of_read (h : around.WellFormed) (hpath : namesToml path = true)
    (henvironment : ∀ entry ∈ around.environment, environmentKey? entry.1 = none)
    {settings : Settings} (hread : around.files.read path = .ok settings.write.toUTF8) :
    around.settings (some path) = .ok settings := by
  obtain ⟨lower, hlayers⟩ :=
    h.exists_layers (requiredLayer_of_read hpath hread settings.layerOfText?_toUTF8)
  rw [environmentLayer_eq_nil henvironment] at hlayers
  have hsettings : Settings.ofLayers? (lower ++ [settings.sections.map Section.table, []]) =
      some settings := by
    rw [Settings.ofLayers?, List.foldl_append]
    exact settings.ofValue?_overlay _
  unfold Surroundings.settings
  rw [hlayers]
  simp only [bind, Except.bind, hsettings]
  rfl

/-- Storing a TOML document keeps the files that are found unasked in order: what is found
afterwards was stored, or was found before. -/
theorem WellFormed.stored (h : WellFormed ⟨before, environment, userSettings⟩)
    (hstored : before.Stored path text after)
    (hlayer : layerOfText? (lenientText text.toUTF8) = some layer) :
    WellFormed ⟨after, environment, userSettings⟩ := by
  intro place hplace found bytes hfound hread
  rcases hstored.origin found bytes hread with rfl | hbefore
  · exact ⟨layer, hlayer⟩
  · have hthere : before.holds found = true := Files.holds_iff.mpr ⟨bytes, hbefore⟩
    obtain ⟨hway, -⟩ := findSettings_eq_ok_iff.mp hfound
    refine h place ?_ found bytes (findSettings_eq_ok_iff.mpr ⟨?_, hthere⟩) hbefore
    · rcases List.mem_append.mp hplace with husual | huser
      · exact List.mem_append_left _ husual
      -- The user's file is there now, so it is what was found, and it was there before.
      · obtain ⟨hname, hholds⟩ := List.mem_filter.mp huser
        refine List.mem_append_right _ (List.mem_filter.mpr ⟨hname, ?_⟩)
        rcases hway with ⟨_, rfl⟩ | ⟨hmissing, _⟩
        · exact hthere
        · rw [hmissing] at hholds
          cases hholds
    · refine hway.imp_right fun ⟨hmissing, hlonger⟩ => ⟨?_, hlonger⟩
      rw [← Bool.not_eq_true] at hmissing ⊢
      exact mt (hstored.kept place) hmissing

theorem WellFormed.settings_of_stored (h : WellFormed ⟨before, environment, userSettings⟩)
    (hpath : namesToml path = true)
    (henvironment : ∀ entry ∈ environment, environmentKey? entry.1 = none) {settings : Settings}
    (hstored : before.Stored path settings.write after) :
    Surroundings.settings ⟨after, environment, userSettings⟩ (some path) = .ok settings := by
  have hlater : WellFormed ⟨after, environment, userSettings⟩ :=
    h.stored hstored settings.layerOfText?_toUTF8
  exact hlater.settings_of_read hpath henvironment hstored.read

/-- Showing its settings, a run prints the text of what it loads. -/
theorem exists_settings_of_shown {arguments : List String} {file? : Option String}
    (hrequest : Request.ofArguments arguments = .run ⟨file?, .settings true none⟩)
    (hcode : (run around arguments).code = 0) :
    ∃ settings, around.settings file? = .ok settings ∧
      (run around arguments).output = settings.write := by
  rw [run, hrequest] at hcode ⊢
  dsimp only at hcode ⊢
  cases hsettings : around.settings file? with
  | error fault =>
    rw [hsettings] at hcode
    cases hcode
  | ok settings => exact ⟨settings, rfl, rfl⟩

/-- Settings whose text is stored in a file are loaded from it again, whatever texts are in them
and whatever other settings files there are, as long as those are TOML documents and the
environment says nothing. Saving settings stores them in this sense. The same holds for the
settings that a run shows: once its output is stored, every run with this file is a run with these
settings. -/
theorem settings_of_saved (hpath : namesToml path = true)
    (h : WellFormed ⟨before, environment, userSettings⟩)
    (henvironment : ∀ entry ∈ environment, environmentKey? entry.1 = none) :
    (∀ (settings : Settings) (after : Files), before.Stored path settings.write after →
      Surroundings.settings ⟨after, environment, userSettings⟩ (some path) = .ok settings) ∧
    (∀ (settings : Settings) (d : Directory), before = d.files → d.hindrance path = none →
      ∃ d', settings.save d path = .ok d' ∧
        Surroundings.settings ⟨d'.files, environment, userSettings⟩ (some path) = .ok settings) ∧
    ∀ (around : Surroundings) (arguments : List String) (file? : Option String),
      Request.ofArguments arguments = .run ⟨file?, .settings true none⟩ →
      (run around arguments).code = 0 →
      ∃ settings, around.settings file? = .ok settings ∧
        ∀ after : Files, before.Stored path (run around arguments).output after →
          Surroundings.settings ⟨after, environment, userSettings⟩ (some path) = .ok settings ∧
          ∀ later task, Request.ofArguments later = .run ⟨some path, task⟩ →
            run ⟨after, environment, userSettings⟩ later = perform after settings task := by
  refine ⟨fun _ _ => h.settings_of_stored hpath henvironment, ?_, ?_⟩
  · rintro settings d rfl hopen
    obtain ⟨d', hsave, hstored⟩ := Directory.exists_store hopen settings.write
    exact ⟨d', hsave, h.settings_of_stored hpath henvironment hstored⟩
  · intro around arguments file? hrequest hcode
    obtain ⟨settings, hsettings, houtput⟩ := exists_settings_of_shown hrequest hcode
    refine ⟨settings, hsettings, fun after hstored => ?_⟩
    rw [houtput] at hstored
    have hload := h.settings_of_stored hpath henvironment hstored
    refine ⟨hload, fun later task hlater => ?_⟩
    rw [run, hlater]
    dsimp only
    rw [hload]

def plainDirectory : Directory :=
  [(["tsoas.toml"], "[output]\nformat = \"compact\"\n".toUTF8)]

def userFile : String := "xdg/ts-openapi/tsoas.toml"

def crowdedDirectory : Directory :=
  plainDirectory ++ [(["xdg", "ts-openapi", "tsoas.toml"], "schema = 3\n".toUTF8)]

def oddSettings : Settings := { base := "a\\'\"\n\x07#", layout := .components }

/-- An odd base is saved and loaded next to files that say otherwise, and so are the settings
that a run shows elsewhere. -/
theorem settings_of_odd_saved :
    (∃ d', oddSettings.save crowdedDirectory "mine.toml" = .ok d' ∧
      Surroundings.settings ⟨d'.files, [("HOME", "/home")], some userFile⟩ (some "mine.toml") =
        .ok oddSettings) ∧
    ∃ settings d',
      Surroundings.settings ⟨plainDirectory.files, [], none⟩ none = .ok settings ∧
      crowdedDirectory.store "mine.toml"
        (run ⟨plainDirectory.files, [], none⟩ ["config", "--show"]).output = .ok d' ∧
      Surroundings.settings ⟨d'.files, [("HOME", "/home")], some userFile⟩ (some "mine.toml") =
        .ok settings := by
  have hopen : crowdedDirectory.hindrance "mine.toml" = none := by decide +kernel
  obtain ⟨_, hsaved, hshown⟩ :=
    @settings_of_saved crowdedDirectory.files [("HOME", "/home")] (some userFile) "mine.toml"
      (by decide +kernel) (by decide +kernel) (by decide +kernel)
  refine ⟨hsaved oddSettings crowdedDirectory rfl hopen, ?_⟩
  obtain ⟨settings, hsettings, hload⟩ :=
    hshown ⟨plainDirectory.files, [], none⟩ ["config", "--show"] none
      (by decide +kernel) (by decide +kernel)
  obtain ⟨d', hstore, hstored⟩ := Directory.exists_store hopen
    (run ⟨plainDirectory.files, [], none⟩ ["config", "--show"]).output
  exact ⟨settings, d', hsettings, hstore, (hload d'.files hstored).1⟩

def defaultDirectory (name : String) : Directory := [([name], (Settings.write {}).toUTF8)]

/-- A name that is nothing but the ending names no TOML document, and the names of variables in
lower case count as well. -/
theorem settings_of_saved_fails :
    WellFormed ⟨Directory.files [], [], none⟩ ∧
    (beforeTail? tomlEnding ".toml".toList = some [] ∧
      ({} : Settings).save [] ".toml" = .ok (defaultDirectory ".toml") ∧
      Surroundings.settings ⟨(defaultDirectory ".toml").files, [], none⟩ (some ".toml") =
        .error (.unknownForm ".toml")) ∧
    afterHead? "TSOAS__".toList "tsoas__output__format".toList = none ∧
      ({} : Settings).save [] "a.toml" = .ok (defaultDirectory "a.toml") ∧
      Surroundings.settings
          ⟨(defaultDirectory "a.toml").files, [("tsoas__output__format", "compact")], none⟩
          (some "a.toml") =
        .ok { format := .compact } := by
  refine ⟨?_, ⟨?_, rfl, ?_⟩, ?_, rfl, ?_⟩
  all_goals decide +kernel

end Surroundings
end DeclSchema
