import DeclSchema.Proofs.Decimal.Integers
import DeclSchema.Proofs.Settings.Saving
import DeclSchema.Proofs.Settings.Sources

/-! # A text from the environment

A variable of the environment is read as a truth value or as a number where it can be, and is
turned back into text where a text is wanted. The base is therefore the variable's text if this
is no such value or is the value's own text, and else the value's own text in place of it. A file
gives the text that it assigns.
-/
namespace DeclSchema
open Text Toml Decimal

/-- The text that a variable gives: a truth value in lower case, a whole number in decimal, a
double by its shortest digits, and any other text as it is. -/
def givenText (s : String) : String :=
  if lower s = "true" then "true"
  else if lower s = "false" then "false"
  else match integer? s.toList with
    | some n => toString n
    | none => match double? s.toList with
      | some x => x.plainText
      | none => s

def IsTruthWord (s : String) : Prop := lower s = "true" ∨ lower s = "false"

inductive GivenAsIs : String → Prop
  | truth (b : Bool) : GivenAsIs (if b then "true" else "false")
  | whole {t : IntegerText} (hcanonical : t.Canonical) (hfits : IntegerText.Fits t.value) : GivenAsIs t.text
  | double {s : String} {x : Double} (htruth : ¬ IsTruthWord s) (hwhole : integer? s.toList = none)
      (hread : double? s.toList = some x) (htext : x.plainText = s) : GivenAsIs s
  | other {s : String} (htruth : ¬ IsTruthWord s) (hwhole : integer? s.toList = none)
      (hdouble : double? s.toList = none) : GivenAsIs s

variable {s : String} {v part : Toml}

theorem environmentValue_eq (s : String) : environmentValue s =
    if lower s = "true" then .boolean true
    else if lower s = "false" then .boolean false
    else match integer? s.toList with
      | some n => .integer n
      | none => match double? s.toList with
        | some x => .float x
        | none => .string s := by
  unfold environmentValue
  split
  · rename_i h
    rw [if_pos h]
  · rename_i h
    rw [h, if_neg (by decide), if_pos rfl]
  · rename_i htrue hfalse
    exact ((if_neg htrue).trans (if_neg hfalse)).symm

theorem text?_environmentValue (s : String) : (environmentValue s).text? = some (givenText s) := by
  rw [environmentValue_eq, givenText]
  split_ifs
  · rfl
  · rfl
  · cases integer? s.toList with
    | some n => rfl
    | none => cases double? s.toList <;> rfl

theorem isTable_environmentValue (s : String) : (environmentValue s).isTable = false := by
  cases hv : environmentValue s with
  | table entries =>
    have htext := text?_environmentValue s
    rw [hv] at htext
    cases htext
  | _ => rfl

theorem lowerChar_of_isDigit {c : Char} (h : isDigit c = true) : lowerChar c = c := by
  obtain ⟨d, rfl⟩ := exists_digitChar h
  revert d
  decide

/-- A text with a digit is no truth value. -/
theorem not_isTruthWord {c : Char} (hc : isDigit c = true) (hmem : c ∈ s.toList) : ¬ IsTruthWord s := by
  have hlower : c ∈ (lower s).toList := by
    rw [lower, String.toList_ofList, ← lowerChar_of_isDigit hc]
    exact List.mem_map_of_mem hmem
  have hletters : ∀ word ∈ ["true", "false"], ∀ d ∈ word.toList, isDigit d = false := by decide
  rintro (h | h)
  · have hno := hletters "true" (by decide) c (h ▸ hlower)
    rw [hc] at hno
    cases hno
  · have hno := hletters "false" (by decide) c (h ▸ hlower)
    rw [hc] at hno
    cases hno

theorem givenText_of_not_isTruthWord (h : ¬ IsTruthWord s) : givenText s =
    match integer? s.toList with
    | some n => toString n
    | none => match double? s.toList with
      | some x => x.plainText
      | none => s := by
  obtain ⟨htrue, hfalse⟩ := not_or.mp h
  rw [givenText, if_neg htrue, if_neg hfalse]

theorem givenText_text {t : IntegerText} (h : IntegerText.Fits t.value) : givenText t.text = toString t.value := by
  obtain ⟨d, digits, hdigits⟩ := t.exists_chars_eq
  have hmem : digitChar d ∈ t.text.toList := by
    rw [IntegerText.text, String.toList_ofList, IntegerText.chars, hdigits]
    exact List.mem_append_right _ List.mem_cons_self
  rw [givenText_of_not_isTruthWord (not_isTruthWord (isDigit_digitChar d) hmem), IntegerText.text,
    String.toList_ofList, t.integer?_chars, if_pos h]

theorem GivenAsIs.givenText_eq (h : GivenAsIs s) : givenText s = s := by
  cases h with
  | truth b => cases b <;> decide
  | whole hcanonical hfits => rw [givenText_text hfits, hcanonical.text_eq]
  | double htruth hwhole hread htext =>
    rw [givenText_of_not_isTruthWord htruth, hwhole, hread]
    exact htext
  | other htruth hwhole hdouble => rw [givenText_of_not_isTruthWord htruth, hwhole, hdouble]

theorem givenText_eq_self_iff : givenText s = s ↔ GivenAsIs s := by
  refine ⟨fun h => ?_, GivenAsIs.givenText_eq⟩
  by_cases htruth : IsTruthWord s
  · rcases htruth with hword | hword
    · rw [givenText, if_pos hword] at h
      exact h ▸ .truth true
    · rw [givenText, if_neg (by rw [hword]; decide), if_pos hword] at h
      exact h ▸ .truth false
  · cases hwhole : integer? s.toList with
    | some n =>
      obtain ⟨t, hchars, rfl, hfits⟩ := IntegerText.exists_of_integer? hwhole
      have hs : t.text = s := by rw [IntegerText.text, hchars, String.ofList_toList]
      subst hs
      rw [givenText_text hfits] at h
      exact .whole (IntegerText.text_eq_iff.mp h.symm) hfits
    | none =>
      rw [givenText_of_not_isTruthWord htruth, hwhole] at h
      cases hread : double? s.toList with
      | some x =>
        rw [hread] at h
        exact .double htruth hwhole hread h
      | none => exact .other htruth hwhole hread

structure Layer.OnlyBase (layer : Layer) (v : Toml) : Prop where
  readable : layer.alone.Readable
  base : Setting.base.raw? layer.alone = some v
  others : ∀ setting : Setting, setting ≠ .base → setting.raw? layer.alone = none

theorem Layer.OnlyBase.of_alone {layer : Layer}
    (h : layer.alone = table [("schema", table [("ref_prefix", v)])]) : layer.OnlyBase v := by
  refine ⟨?_, ?_, ?_⟩
  all_goals rw [h]
  · intro setting part hpart
    cases setting <;> cases hpart
    rfl
  · rfl
  · intro setting hsetting
    cases setting <;> first | rfl | exact absurd rfl hsetting

theorem Toml.isScalar_of_text? {t : String} (h : v.text? = some t) : v.isScalar = true := by
  cases v <;> first | rfl | cases h

/-- Such a layer gives the base, also if it is read several times. -/
theorem Layer.OnlyBase.ofLayers? {layer : Layer} {earlier later : List Layer} {t : String}
    (h : layer.OnlyBase v) (ht : v.text? = some t)
    (hearlier : ∀ other ∈ earlier, other = [] ∨ other = layer) (hlater : ∀ other ∈ later, other = []) :
    Settings.ofLayers? (earlier ++ layer :: later) = some { base := t } := by
  have hall : ∀ other ∈ earlier ++ layer :: later, other = [] ∨ other = layer :=
    List.forall_mem_append.mpr ⟨hearlier, List.forall_mem_cons.mpr
      ⟨.inr rfl, fun other hother => .inl (hlater other hother)⟩⟩
  have hreadable : ∀ other ∈ earlier ++ layer :: later, other.alone.Readable := by
    intro other hother
    rcases hall other hother with rfl | rfl
    · exact readable_empty
    · exact h.readable
  refine Settings.ofValue?_eq_some_iff.mpr ⟨readable_foldl readable_empty hreadable, fun setting => ?_⟩
  by_cases hsetting : setting = .base
  · subst hsetting
    obtain ⟨form, hform⟩ := exists_form? h.base
    have hraw := (raw?_foldl_of_last readable_empty hreadable h.base
      (fun other hother => by rw [hlater other hother]; rfl) (.inl (isScalar_of_text? ht)) hform).1
      (fun other hother => by rw [hlater other hother]; exact nofun)
    rw [Setting.value?_of_some hraw]
    exact ht
  · have hraw : setting.raw? ((earlier ++ layer :: later).foldl Toml.overlay (table [])) = none := by
      refine raw?_foldl_eq_none readable_empty hreadable (fun other hother => ?_) rfl
      rcases hall other hother with rfl | rfl
      · rfl
      · exact h.others setting hsetting
    rw [Setting.value?_of_none hraw]
    cases setting <;> first | rfl | exact absurd rfl hsetting

def baseVariable : String := "TSOAS__SCHEMA__REF_PREFIX"

def SetsBase (environment : List (String × String)) (s : String) : Prop :=
  ∃ before after, environment = before ++ (baseVariable, s) :: after ∧
    ∀ entry ∈ before ++ after, environmentKey? entry.1 = none

theorem environmentLayer_of_setsBase {environment : List (String × String)} (h : SetsBase environment s) :
    environmentLayer environment = [("schema.ref_prefix", environmentValue s)] := by
  obtain ⟨before, after, rfl, hothers⟩ := h
  have hkey : environmentKey? baseVariable = some "schema.ref_prefix" := by decide +kernel
  have hnone (part : List (String × String)) (hpart : ∀ entry ∈ part, environmentKey? entry.1 = none) :
      part.filterMap (fun entry =>
        (environmentKey? entry.1).map fun key => (key, environmentValue entry.2)) = [] := by
    refine List.filterMap_eq_nil_iff.mpr fun entry hentry => ?_
    rw [hpart entry hentry, Option.map_none]
  obtain ⟨hbefore, hafter⟩ := List.forall_mem_append.mp hothers
  show Table.ofEntries ((before ++ (baseVariable, s) :: after).filterMap fun entry =>
    (environmentKey? entry.1).map fun key => (key, environmentValue entry.2)) = _
  rw [List.filterMap_append, List.filterMap_cons, hnone before hbefore, hnone after hafter, hkey]
  rfl

theorem onlyBase_environmentLayer {environment : List (String × String)} (h : SetsBase environment s) :
    (environmentLayer environment).OnlyBase (environmentValue s) := by
  have hpath : pathOf "schema.ref_prefix" = [.entry "schema", .entry "ref_prefix"] := by decide +kernel
  refine .of_alone ?_
  rw [environmentLayer_of_setsBase h]
  show (table []).setPath (environmentValue s) (pathOf "schema.ref_prefix") = _
  rw [hpath, setPath_entry]
  show table [(lower "schema", absent.setPath (environmentValue s) [.entry "ref_prefix"])] = _
  rw [setPath_entry, ← stored_eq_written, stored_of_not_isTable (isTable_environmentValue s)]
  rfl

def baseText (t : String) : String :=
  String.ofList (documentLines [Settings.schemaSection { base := t }])

def AssignsBase (files : Files) (path t : String) : Prop :=
  ∃ layer, requiredLayer files path = .ok layer ∧ layer.OnlyBase (.string t)

theorem assignsBase_of_read {files : Files} {path t : String} (hpath : namesToml path = true)
    (h : files.read path = .ok (baseText t).toUTF8) : AssignsBase files path t := by
  refine ⟨[("schema", table [("ref_prefix", .string t)])], requiredLayer_of_read hpath h ?_,
    .of_alone ?_⟩
  · rw [lenientText, strictText?_toUTF8, Option.getD_some, layerOfText?, baseText, String.toList_ofList]
    exact read?_document (List.nodup_singleton _)
  · have hpath : pathOf "schema" = [.entry "schema"] := by decide +kernel
    show (table []).setPath (.table [("ref_prefix", .string t)]) (pathOf "schema") = _
    rw [hpath]
    rfl

example : baseText "7" = "[schema]\nref_prefix = \"7\"\n" := by decide +kernel

namespace Surroundings

variable {around stored : Surroundings} {explicit : Option String} {path t : String}

def NoOtherFile (around : Surroundings) (explicit : Option String) : Prop :=
  ∀ place ∈ around.places, (findSettings around.files place).isOk = true →
    ∃ name ∈ explicit, findSettings around.files place = findSettings around.files name

instance (around : Surroundings) (explicit : Option String) :
    Decidable (around.NoOtherFile explicit) := inferInstanceAs (Decidable (∀ _ ∈ _, _))

/-- The unasked files say nothing, or what the named file says. -/
theorem NoOtherFile.optionalLayer_eq (h : around.NoOtherFile explicit) {place : String}
    (hplace : place ∈ around.places) : optionalLayer around.files place = .ok [] ∨
      ∃ name ∈ explicit, optionalLayer around.files place = requiredLayer around.files name := by
  cases hfind : findSettings around.files place with
  | error fault =>
    left
    rw [optionalLayer, hfind]
  | ok found =>
    obtain ⟨name, hname, hsame⟩ := h place hplace (by rw [hfind]; rfl)
    refine .inr ⟨name, hname, ?_⟩
    rw [optionalLayer, requiredLayer, ← hsame, hfind]
    rfl

theorem NoOtherFile.reading_eq (h : around.NoOtherFile explicit) {source : Source}
    (hsource : source ≠ .environment) : around.reading explicit source = .ok [] ∨
      ∃ name ∈ explicit, around.reading explicit source = requiredLayer around.files name := by
  have husual {place : String} (hplace : place ∈ usualPlaces) :=
    h.optionalLayer_eq (List.mem_append_left _ hplace)
  cases source with
  | project => exact husual (by decide)
  | hidden => exact husual (by decide)
  | folder => exact husual (by decide)
  | user =>
    rw [reading]
    cases huser : around.userSettings with
    | none => exact .inl rfl
    | some name =>
      dsimp only
      split_ifs with hthere
      · refine h.optionalLayer_eq (List.mem_append_right _ (List.mem_filter.mpr ⟨?_, hthere⟩))
        rw [huser]
        exact List.mem_singleton_self name
      · exact .inl rfl
  | named =>
    cases explicit with
    | none => exact .inl rfl
    | some name => exact .inr ⟨name, rfl, rfl⟩
  | environment => exact absurd rfl hsource

/-- One source gives the base, and the others say nothing, or the earlier ones the same. -/
theorem settings_of_onlyBase {source : Source} {layer : Layer} {v : Toml}
    (hread : around.reading explicit source = .ok layer)
    (hothers : ∀ other, around.reading explicit other = .ok [] ∨ around.reading explicit other = .ok layer)
    (hlater : ∀ other ∈ source.later, around.reading explicit other = .ok [])
    (h : layer.OnlyBase v) (ht : v.text? = some t) :
    around.settings explicit = .ok { base := t } := by
  have hlayer {other : Source} {l : Layer} (h : around.reading explicit other = .ok l) :
      around.layer explicit other = l := by
    rw [Surroundings.layer, h]
  refine settings_eq_ok_iff.mpr ⟨fun other => ?_, ?_⟩
  · rcases hothers other with h | h <;> rw [hlayer h, h]
  · obtain ⟨earlier, hall⟩ := source.exists_all_eq
    rw [hall, List.map_append, List.map_cons, hlayer hread]
    refine h.ofLayers? ht ?_ ?_
    · exact List.forall_mem_map.mpr fun other _ => (hothers other).imp hlayer hlayer
    · exact List.forall_mem_map.mpr fun other hother => hlayer (hlater other hother)

theorem settings_of_setsBase (hfiles : around.NoOtherFile none) (h : SetsBase around.environment s) :
    around.settings none = .ok { base := givenText s } := by
  have hread : around.reading none .environment = .ok (environmentLayer around.environment) := rfl
  refine settings_of_onlyBase hread (fun other => ?_) nofun (onlyBase_environmentLayer h)
    (text?_environmentValue s)
  by_cases hother : other = .environment
  · rw [hother]
    exact .inr hread
  · refine .inl ((hfiles.reading_eq hother).resolve_right ?_)
    rintro ⟨_, ⟨⟩, _⟩

theorem settings_of_assignsBase (hfiles : around.NoOtherFile (some path))
    (henvironment : ∀ entry ∈ around.environment, environmentKey? entry.1 = none)
    (h : AssignsBase around.files path t) : around.settings (some path) = .ok { base := t } := by
  obtain ⟨layer, hlayer, honly⟩ := h
  have hquiet : around.reading (some path) .environment = .ok [] :=
    congrArg Except.ok (environmentLayer_eq_nil henvironment)
  have hread : around.reading (some path) .named = .ok layer := hlayer
  refine settings_of_onlyBase hread (fun other => ?_) ?_ honly rfl
  · by_cases hother : other = .environment
    · rw [hother]
      exact .inl hquiet
    · refine (hfiles.reading_eq hother).imp_right ?_
      rintro ⟨_, ⟨⟩, hsame⟩
      exact hsame.trans hlayer
  · have hlater : Source.later .named = [.environment] := by decide
    rw [hlater]
    exact List.forall_mem_singleton.mpr hquiet

/-- Without settings files, the variable of the base gives its text, or the text of the truth
value or number that it reads as. A file with the base gives the text that it assigns, so the two
loads agree exactly if it assigns what the variable gives. That is the text of the variable itself
exactly if this is no truth value and no number, or is written as they are. -/
theorem settings_of_variable (hfiles : around.NoOtherFile none)
    (hset : SetsBase around.environment s) (hother : stored.NoOtherFile (some path))
    (henvironment : ∀ entry ∈ stored.environment, environmentKey? entry.1 = none)
    (hassigns : AssignsBase stored.files path t) :
    around.settings none = .ok { base := givenText s } ∧
    stored.settings (some path) = .ok { base := t } ∧
    (around.settings none = stored.settings (some path) ↔ t = givenText s) ∧
    (givenText s = s ↔ GivenAsIs s) := by
  have hvariable := settings_of_setsBase hfiles hset
  have hfile := settings_of_assignsBase hother henvironment hassigns
  refine ⟨hvariable, hfile, ?_, givenText_eq_self_iff⟩
  rw [hvariable, hfile]
  constructor
  · rintro ⟨⟩
    rfl
  · rintro rfl
    rfl

def zeros : Surroundings := ⟨Directory.files [], [(baseVariable, "007")], none⟩

def withFile (t : String) : Surroundings :=
  ⟨Directory.files [(["mine.toml"], (baseText t).toUTF8)], [], none⟩

/-- Zeros in front of a number are lost, so that a file with the number alone agrees. -/
theorem settings_of_zeros :
    zeros.settings none = .ok { base := "7" } ∧
    (withFile "7").settings (some "mine.toml") = .ok { base := "7" } ∧
    ¬ GivenAsIs "007" := by
  have hgiven : givenText "007" = "7" := by decide +kernel
  have hfiles : zeros.NoOtherFile none := by decide +kernel
  have hother : (withFile "7").NoOtherFile (some "mine.toml") := by decide +kernel
  obtain ⟨hvariable, hfile, -, hverbatim⟩ := settings_of_variable hfiles ⟨[], [], rfl, nofun⟩ hother nofun
    (assignsBase_of_read (by decide +kernel) rfl)
  rw [hgiven] at hvariable hverbatim
  exact ⟨hvariable, hfile, fun h => absurd (hverbatim.mpr h) (by decide)⟩

/-- The variable gives this text as it is, just like a file that assigns it. -/
def GivesVerbatim (s : String) : Prop :=
  ∀ (around stored : Surroundings) (path : String), around.NoOtherFile none →
    SetsBase around.environment s → stored.NoOtherFile (some path) →
    (∀ entry ∈ stored.environment, environmentKey? entry.1 = none) →
    AssignsBase stored.files path s →
    around.settings none = stored.settings (some path) ∧ around.settings none = .ok { base := s }

theorem givesVerbatim_fails : '\x00' ∉ "007".toList ∧ ¬ GivesVerbatim "007" := by
  refine ⟨by decide, fun h => ?_⟩
  have hload : zeros.settings none = .ok { base := "7" } := by decide +kernel
  have hverbatim := (h zeros (withFile "007") "mine.toml" (by decide +kernel) ⟨[], [], rfl, nofun⟩
    (by decide +kernel) nofun (assignsBase_of_read (by decide +kernel) rfl)).2
  rw [hload] at hverbatim
  exact absurd hverbatim (by decide)

end Surroundings
end DeclSchema
