import DeclSchema.Files
import Mathlib.Data.List.Infix

/-! # Writing into a directory

Where nothing hinders it, writing a file changes what is at the one path that its name leads
to. Every folder stays a folder and no new one arises, so the name leads to the same path
afterwards, and other names lead to where they led.
-/
namespace DeclSchema
open Text

theorem Text.strictText?_toUTF8 (s : String) : strictText? s.toUTF8 = some s :=
  dif_pos s.isValidUTF8

namespace Directory
variable {d : Directory} {path other start : List String} {parts : List String}
  {bytes : ByteArray} {name : String}

theorem file?_cons (entry : List String × ByteArray) (d : Directory) (path : List String) :
    file? (entry :: d) path = if entry.1 = path then some entry.2 else d.file? path := by
  unfold file?
  rw [List.find?_cons]
  cases h : entry.1 == path with
  | true =>
    rw [if_pos (beq_iff_eq.mp h)]
    rfl
  | false => rw [if_neg (by simpa using h)]

theorem file?_append (d : Directory) (path other : List String) (bytes : ByteArray) :
    file? (d ++ [(path, bytes)]) other =
      (d.file? other).or (if path = other then some bytes else none) := by
  induction d with
  | nil => exact file?_cons _ _ _
  | cons entry rest ih =>
    rw [List.cons_append, file?_cons, file?_cons, ih]
    split <;> rfl

theorem file?_replace (d : Directory) (path other : List String) (bytes : ByteArray) :
    file? (d.map fun entry => if entry.1 == path then (path, bytes) else entry) other =
      if path = other then (d.file? other).map fun _ => bytes else d.file? other := by
  induction d with
  | nil => simp [file?]
  | cons entry rest ih =>
    rw [List.map_cons, file?_cons, file?_cons, ih]
    by_cases hentry : entry.1 = path
    · by_cases ho : path = other <;> simp [hentry, ho]
    · by_cases ho : path = other
      · subst ho
        simp [hentry]
      · simp [hentry, ho]

theorem file?_put (d : Directory) (path other : List String) (bytes : ByteArray) :
    (d.put path bytes).file? other = if path = other then some bytes else d.file? other := by
  unfold put isFile
  split
  · rename_i hfile
    obtain ⟨old, hold⟩ := Option.isSome_iff_exists.mp hfile
    rw [file?_replace]
    split
    · rename_i ho
      rw [← ho, hold, Option.map_some]
    · rfl
  · rename_i hfile
    rw [Bool.not_eq_true, Option.isSome_eq_false_iff, Option.isNone_iff_eq_none] at hfile
    rw [file?_append]
    split
    · rename_i ho
      rw [← ho, hfile, Option.none_or]
    · rw [Option.or_none]

theorem isFile_put_of_ne (h : path ≠ other) : (d.put path bytes).isFile other = d.isFile other := by
  rw [isFile, file?_put, if_neg h]
  rfl

theorem isFolder_iff :
    d.isFolder path = true ↔ path = [] ∨ ∃ other ∈ d.map Prod.fst, path <+: other ∧ other ≠ path := by
  simp [isFolder, List.any_eq_true, List.isEmpty_iff]

/-- The paths of a directory after a file was put into it. -/
theorem mem_paths_put_iff :
    other ∈ (d.put path bytes).map Prod.fst ↔ other ∈ d.map Prod.fst ∨ other = path := by
  unfold put
  split
  · rename_i hfile
    have hpath : path ∈ d.map Prod.fst := by
      rw [isFile, file?, Option.isSome_map, List.find?_isSome] at hfile
      obtain ⟨entry, hentry, hname⟩ := hfile
      exact List.mem_map.mpr ⟨entry, hentry, beq_iff_eq.mp hname⟩
    have hsame : (fun entry : List String × ByteArray =>
        (if entry.1 == path then (path, bytes) else entry).1) = Prod.fst := by
      funext entry
      by_cases h : entry.1 = path <;> simp [h]
    rw [List.map_map]
    show other ∈ d.map (fun entry => (if entry.1 == path then (path, bytes) else entry).1) ↔ _
    rw [hsame]
    exact ⟨.inl, fun h => h.elim id fun h => h ▸ hpath⟩
  · simp

/-- A file in a folder that exists makes no new folder. -/
theorem isFolder_put (hfolders : ∀ folder, folder <+: path → folder ≠ path → d.isFolder folder = true)
    (other : List String) : (d.put path bytes).isFolder other = d.isFolder other := by
  rw [Bool.eq_iff_iff, isFolder_iff, isFolder_iff]
  constructor
  · rintro (h | ⟨below, hbelow, hprefix, hne⟩)
    · exact .inl h
    · rcases mem_paths_put_iff.mp hbelow with hbelow | rfl
      · exact .inr ⟨below, hbelow, hprefix, hne⟩
      · exact isFolder_iff.mp (hfolders other hprefix hne.symm)
  · rintro (h | ⟨below, hbelow, hprefix, hne⟩)
    · exact .inl h
    · exact .inr ⟨below, mem_paths_put_iff.mpr (.inl hbelow), hprefix, hne⟩

def Grounded (d : Directory) (path : List String) : Prop :=
  ∀ folder, folder <+: path → folder ≠ path → d.isFolder folder = true

theorem Grounded.nil : d.Grounded [] :=
  fun _ hprefix hne => absurd (List.prefix_nil.mp hprefix) hne

theorem Grounded.dropLast (h : d.Grounded path) : d.Grounded path.dropLast := by
  intro folder hbelow hne
  have hlonger := hbelow.trans (List.dropLast_prefix path)
  refine h folder hlonger ?_
  rintro rfl
  exact hne (hbelow.eq_of_length_le (List.dropLast_prefix _).length_le)

theorem Grounded.concat (h : d.Grounded path) (hfolder : d.isFolder path = true) (part : String) :
    d.Grounded (path ++ [part]) := by
  intro folder hprefix hne
  rcases List.prefix_concat_iff.mp hprefix with rfl | hprefix
  · exact absurd rfl hne
  · by_cases heq : folder = path
    · exact heq ▸ hfolder
    · exact h folder hprefix heq

theorem Grounded.of_follow (hstart : d.Grounded start) (h : d.follow start parts = .ok path) :
    d.Grounded path := by
  fun_induction follow d start parts with
  | case1 => exact Except.ok.inj h ▸ hstart
  | case2 => cases h
  | case3 => cases h
  | case4 _ _ _ _ _ _ ih => exact ih hstart h
  | case5 => cases h
  | case6 _ _ _ _ _ _ _ _ ih => exact ih hstart.dropLast h
  | case7 start part more hfile hfolder _ _ ih => exact ih (hstart.concat (by simpa using hfolder) part) h

/-- A file at a path that is no folder ends no way that was open: every name leads where it
led. -/
theorem follow_put_iff (hground : d.Grounded path) (hfree : d.isFolder path = false)
    {result : List String} :
    (d.put path bytes).follow start parts = .ok result ↔ d.follow start parts = .ok result := by
  induction parts generalizing start with
  | nil => rfl
  | cons part more ih =>
    rw [follow, follow, isFolder_put hground]
    by_cases hstart : path = start
    · subst hstart
      have hfile : (d.put path bytes).isFile path = true := by
        rw [isFile, file?_put, if_pos rfl]
        rfl
      rw [if_pos hfile, hfree]
      cases d.isFile path <;> simp
    · rw [isFile_put_of_ne hstart]
      split_ifs <;> first | exact ih | exact Iff.rfl

theorem locate_put_iff (hground : d.Grounded path) (hfree : d.isFolder path = false)
    {result : List String} :
    (d.put path bytes).locate name = .ok result ↔ d.locate name = .ok result := by
  unfold locate
  split
  · exact Iff.rfl
  · exact follow_put_iff hground hfree

/-- A name that nothing hinders leads to a path in a folder where no folder stands. -/
theorem exists_of_hindrance_eq_none (h : d.hindrance name = none) :
    ∃ path, d.locate name = .ok path ∧ d.isFolder path = false ∧ d.Grounded path := by
  unfold hindrance at h
  split at h
  · cases h
  · rename_i path hpath
    refine ⟨path, hpath, by simpa using h, ?_⟩
    unfold locate at hpath
    split at hpath
    · cases hpath
    · exact Grounded.nil.of_follow hpath

theorem write_eq_put (h : d.locate name = .ok path) : d.write name bytes = d.put path bytes := by
  rw [write, h]

theorem read_eq_ok_iff : d.read name = .ok bytes ↔
    ∃ path, d.locate name = .ok path ∧ d.file? path = some bytes := by
  unfold read
  cases d.locate name with
  | error fault => simp
  | ok path => cases h : d.file? path <;> simp [h]

/-- What was written is what is read. -/
theorem read_write (h : d.hindrance name = none) (bytes : ByteArray) :
    (d.write name bytes).read name = .ok bytes := by
  obtain ⟨path, hpath, hfree, hground⟩ := exists_of_hindrance_eq_none h
  rw [write_eq_put hpath, read_eq_ok_iff]
  exact ⟨path, (locate_put_iff hground hfree).mpr hpath, by rw [file?_put, if_pos rfl]⟩

/-- What is read under any name afterwards was written, or was there before. -/
theorem read_of_read_write (h : d.hindrance name = none) {other : String} {content : ByteArray}
    (hread : (d.write name bytes).read other = .ok content) :
    content = bytes ∨ d.read other = .ok content := by
  obtain ⟨path, hpath, hfree, hground⟩ := exists_of_hindrance_eq_none h
  rw [write_eq_put hpath, read_eq_ok_iff] at hread
  obtain ⟨result, hresult, hcontent⟩ := hread
  rw [file?_put] at hcontent
  split at hcontent
  · exact .inl (Option.some.inj hcontent).symm
  · exact .inr (read_eq_ok_iff.mpr ⟨result, (locate_put_iff hground hfree).mp hresult, hcontent⟩)

/-- A name under which something was read does not lose it. -/
theorem exists_read_write (h : d.hindrance name = none) {other : String} {content : ByteArray}
    (hread : d.read other = .ok content) : ∃ later, (d.write name bytes).read other = .ok later := by
  obtain ⟨path, hpath, hfree, hground⟩ := exists_of_hindrance_eq_none h
  obtain ⟨result, hresult, hcontent⟩ := read_eq_ok_iff.mp hread
  have hlater : ∃ later, (d.put path bytes).file? result = some later := by
    rw [file?_put]
    split
    · exact ⟨bytes, rfl⟩
    · exact ⟨content, hcontent⟩
  obtain ⟨later, hlater⟩ := hlater
  rw [write_eq_put hpath]
  exact ⟨later, read_eq_ok_iff.mpr ⟨result, (locate_put_iff hground hfree).mpr hresult, hlater⟩⟩

end Directory

namespace Files
variable {before after : Files} {name text : String}

theorem holds_iff : before.holds name = true ↔ ∃ bytes, before.read name = .ok bytes := by
  rw [holds]
  cases before.read name with
  | error fault => exact iff_of_false Bool.false_ne_true nofun
  | ok bytes => exact iff_of_true rfl ⟨bytes, rfl⟩

/-- What can be read once a text was written to a file: the text there, elsewhere only this text
or what was there before, and something wherever there was something. -/
structure Stored (before : Files) (name text : String) (after : Files) : Prop where
  read : after.read name = .ok text.toUTF8
  origin : ∀ other bytes, after.read other = .ok bytes →
    bytes = text.toUTF8 ∨ before.read other = .ok bytes
  kept : ∀ other, before.holds other = true → after.holds other = true

end Files

theorem Directory.exists_store {d : Directory} {name : String} (h : d.hindrance name = none)
    (text : String) :
    ∃ d', d.store name text = .ok d' ∧ d.files.Stored name text d'.files := by
  refine ⟨d.write name text.toUTF8, by rw [store, h], ?_, ?_, ?_⟩
  · exact read_write h _
  · exact fun other bytes => read_of_read_write h
  · intro other hother
    obtain ⟨bytes, hread⟩ := Files.holds_iff.mp hother
    exact Files.holds_iff.mpr (exists_read_write h hread)

end DeclSchema
