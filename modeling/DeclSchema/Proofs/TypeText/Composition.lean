import DeclSchema.Proofs.TypeText.Forms

/-! # Shapes of composed texts

The shape of a text that is put together from texts with balanced brackets is put together from
their shapes in the same way. What is inside of these texts does not matter.
-/
namespace DeclSchema
open Text TypeText

/-- Balanced texts without separators are the pieces of the text that joins them. -/
theorem TypeText.splitFrom_intercalate {separator : Char} (hseparator : Level separator)
    (hequals : separator ≠ '=') {parts : List (List Char)} (hne : parts ≠ [])
    (hparts : ∀ part ∈ parts, Whole separator part ∧ balanced part = true) :
    splitFrom separator none 0 ([separator].intercalate parts) = parts := by
  induction parts with
  | nil => exact absurd rfl hne
  | cons part rest ih =>
    obtain ⟨⟨hwhole, hbalanced⟩, hrest⟩ := List.forall_mem_cons.mp hparts
    cases rest with
    | nil => rwa [List.intercalate_singleton]
    | cons next more =>
      have hcut : Cuts separator (lastBefore none part) 0 separator :=
        ⟨hseparator.depthChange_eq _, rfl, rfl⟩
      rw [List.intercalate_cons_cons, List.append_assoc, splitFrom_append hwhole,
        balancedFrom_depthAfter hbalanced, List.singleton_append, splitFrom_cut hcut,
        splitFrom_of_ne (by simpa using hequals), ih (List.cons_ne_nil next more) hrest,
        List.modifyHead_cons, List.append_nil]

namespace Shape

variable {t : String}

/-- Brackets behind a text without bars make an array of it. -/
theorem ofText_append_brackets (h : Whole '|' t.toList) : ofText (t ++ "[]") = array (ofText t) := by
  have hsolid : trim (t.toList ++ ['[', ']']) = trimStart t.toList ++ ['[', ']'] :=
    trim_append_solid (c := '[') (d := ']') rfl rfl (by decide)
  have hwhole : Whole '|' (trimStart t.toList ++ ['[', ']']) :=
    hsolid ▸ (whole_append h (by decide)).trim (by decide)
  have htrim : trim (trimStart t.toList ++ ['[', ']']) = trimStart t.toList ++ ['[', ']'] := by
    rw [← hsolid, trim_trim]
  calc ofText (t ++ "[]") = ofChars (t.toList ++ ['[', ']']) := by rw [ofText, String.toList_append]; rfl
    _ = ofChars (trimStart t.toList ++ ['[', ']']) := ofChars_of_trim (hsolid.trans htrim.symm)
    _ = array (ofChars (trimStart t.toList)) := ofChars_array htrim hwhole
    _ = array (ofText t) := congrArg array (ofChars_of_trim (trim_trimStart t.toList))

/-- A generic array of a balanced text without commas is an array of it. -/
theorem ofText_generic {name : String} (hname : name ∈ arrayNames) (hbalanced : balanced t.toList = true)
    (hwhole : Whole ',' t.toList) : ofText (name ++ "<" ++ t ++ ">") = array (ofText t) := by
  have hchars : (name ++ "<" ++ t ++ ">").toList = name.toList ++ '<' :: (t.toList ++ ['>']) := by
    simp [String.toList_append]
  have htrim : trim (name.toList ++ '<' :: (t.toList ++ ['>'])) =
      name.toList ++ '<' :: (t.toList ++ ['>']) := by
    have hlast : (name.toList ++ '<' :: (t.toList ++ ['>'])).getLast? = some '>' := by
      rw [← List.cons_append, ← List.append_assoc, List.getLast?_concat]
    rcases List.mem_pair.mp hname with rfl | rfl
    · exact trim_solid (c := 'A') rfl hlast (by decide)
    · exact trim_solid (c := 'R') rfl hlast (by decide)
  rw [ofText, hchars, ofChars_generic hname htrim hbalanced hwhole, ofText]

theorem ofText_arrays (hbalanced : balanced t.toList = true) (hwhole : Whole ',' t.toList) :
    ofText ("Array<" ++ t ++ ">") = array (ofText t) ∧ ofText ("ReadonlyArray<" ++ t ++ ">") = array (ofText t) := by
  have hall : ∀ name ∈ arrayNames, ofText (name ++ "<" ++ t ++ ">") = array (ofText t) := fun _ hname =>
    ofText_generic hname hbalanced hwhole
  exact ⟨hall "Array" (by decide), hall "ReadonlyArray" (by decide)⟩

/-- Parentheses around a balanced text leave its shape as it is. -/
theorem ofText_parenthesized (hbalanced : balanced t.toList = true) :
    ofText ("(" ++ t ++ ")") = ofText t := by
  have hchars : ("(" ++ t ++ ")").toList = '(' :: (t.toList ++ [')']) := by
    simp [String.toList_append]
  have hlast : ('(' :: (t.toList ++ [')'])).getLast? = some ')' := by
    rw [← List.cons_append, List.getLast?_concat]
  rw [ofText, hchars, ofChars_parenthesized (trim_solid (c := '(') rfl hlast (by decide)) hbalanced,
    ofText]

structure IsBranch (part : String) : Prop where
  balanced : TypeText.balanced part.toList = true
  whole : Whole '|' part.toList

instance (part : String) : Decidable (IsBranch part) :=
  decidable_of_iff (TypeText.balanced part.toList = true ∧ Whole '|' part.toList)
    ⟨fun h => ⟨h.1, h.2⟩, fun h => ⟨h.balanced, h.whole⟩⟩

def counts (part : String) : Bool := trimmed part != "" && trimmed part != "undefined"

def ofBranches (parts : List String) : Shape :=
  match parts.find? counts with
  | some part => ofText part
  | none => reference "undefined"

variable {parts : List String}

theorem branches_intercalate (hne : parts ≠ []) (h : ∀ part ∈ parts, IsBranch part) :
    branches none ("|".intercalate parts).toList = parts.map fun part => trim part.toList := by
  have hparts : ∀ s ∈ parts.map String.toList, Whole '|' s ∧ TypeText.balanced s = true :=
    List.forall_mem_map.mpr fun part hpart => ⟨(h part hpart).whole, (h part hpart).balanced⟩
  have hpieces := splitFrom_intercalate (by decide) (by decide) (mt List.map_eq_nil_iff.mp hne) hparts
  rw [branches, String.toList_intercalate, show "|".toList = ['|'] from rfl, hpieces, List.map_map]
  rfl

theorem counts_eq (part : String) :
    (!(trim part.toList).isEmpty && trim part.toList != undefinedWord) = counts part := by
  have hword (word : String) : trimmed part = word ↔ trim part.toList = word.toList :=
    ⟨fun h => by rw [← h, trimmed, String.toList_ofList], fun h => by rw [trimmed, h, String.ofList_toList]⟩
  rw [counts, Bool.eq_iff_iff]
  simp only [Bool.and_eq_true, Bool.not_eq_true', List.isEmpty_eq_false_iff, bne_iff_ne, ne_eq, hword]
  rfl

theorem taken?_intercalate (hne : parts ≠ []) (h : ∀ part ∈ parts, IsBranch part) :
    taken? none ("|".intercalate parts).toList =
      (parts.find? counts).map fun part => trim part.toList := by
  rw [taken?, branches_intercalate hne h, List.find?_map]
  refine congrArg (Option.map _) (congrArg (List.find? · parts) (funext counts_eq))

/-- A union of several branches has the shape of the first one that counts. -/
theorem ofText_intercalate (hlength : 2 ≤ parts.length) (h : ∀ part ∈ parts, IsBranch part) :
    ofText ("|".intercalate parts) = ofBranches parts := by
  have hne : parts ≠ [] := by
    rintro rfl
    cases hlength
  have htaken := taken?_intercalate hne h
  rw [ofBranches, ofText]
  cases hfind : parts.find? counts with
  | some part =>
    rw [hfind] at htaken
    have hpart := h part (List.mem_of_find?_eq_some hfind)
    rw [ofChars_taken htaken (trim_trim _) (hpart.whole.trim (by decide))]
    exact ofChars_of_trim (trim_trim _)
  | none =>
    rw [hfind] at htaken
    refine ofChars_not_taken (fun hnil => ?_) htaken
    have hbar : '|' ∈ ("|".intercalate parts).toList := by
      match parts, hlength with
      | first :: next :: rest, _ =>
        rw [String.toList_intercalate, List.map_cons, List.map_cons, List.intercalate_cons_cons]
        simp
    exact absurd (mem_trim hbar (by decide)) (hnil ▸ List.not_mem_nil)

theorem isBranch_of_trimmed {skipped : String} (h : trimmed skipped = "undefined") : IsBranch skipped := by
  have htrim : trim skipped.toList = undefinedWord := by
    rw [← String.toList_ofList (l := trim skipped.toList), show String.ofList _ = _ from h]
    rfl
  obtain ⟨front, back, hfront, hback, hskipped⟩ := exists_blank_trim skipped.toList
  rw [htrim, List.append_assoc] at hskipped
  constructor
  · rw [hskipped]
    exact balanced_padded (by decide) hfront hback
  · rw [hskipped]
    exact whole_padded whole_undefinedWord (by decide) hfront hback

/-- An `undefined` branch may stand anywhere in a union. -/
theorem ofText_insert_undefined {before after : List String} (hlength : 2 ≤ (before ++ after).length)
    (h : ∀ part ∈ before ++ after, IsBranch part) {skipped : String} (hskipped : trimmed skipped = "undefined") :
    ofText ("|".intercalate (before ++ skipped :: after)) = ofText ("|".intercalate (before ++ after)) := by
  obtain ⟨hbefore, hafter⟩ := List.forall_mem_append.mp h
  have hcounts : counts skipped = false := by rw [counts, hskipped]; rfl
  have hlonger : 2 ≤ (before ++ skipped :: after).length := by
    simp only [List.length_append, List.length_cons] at hlength ⊢
    omega
  rw [ofText_intercalate hlonger, ofText_intercalate hlength h, ofBranches, ofBranches, List.find?_append,
    List.find?_append, List.find?_cons_of_neg (by simp [hcounts])]
  exact List.forall_mem_append.mpr
    ⟨hbefore, List.forall_mem_cons.mpr ⟨isBranch_of_trimmed hskipped, hafter⟩⟩

/-- The shape of a text is composed as the text is, whatever stands in the balanced texts that it is
composed of. -/
theorem ofText_compositional :
    (∀ t : String, balanced t.toList = true → Whole '|' t.toList → ofText (t ++ "[]") = array (ofText t)) ∧
    (∀ t : String, balanced t.toList = true → Whole ',' t.toList →
      ofText ("Array<" ++ t ++ ">") = array (ofText t) ∧
      ofText ("ReadonlyArray<" ++ t ++ ">") = array (ofText t)) ∧
    (∀ t : String, balanced t.toList = true → ofText ("(" ++ t ++ ")") = ofText t) ∧
    (∀ parts : List String, 2 ≤ parts.length → (∀ part ∈ parts, IsBranch part) →
      ofText ("|".intercalate parts) = ofBranches parts) ∧
    ∀ before after : List String, 2 ≤ (before ++ after).length → (∀ part ∈ before ++ after, IsBranch part) →
      ∀ skipped : String, trimmed skipped = "undefined" →
        ofText ("|".intercalate (before ++ skipped :: after)) = ofText ("|".intercalate (before ++ after)) :=
  ⟨fun _ _ => ofText_append_brackets,
    fun _ => ofText_arrays,
    fun _ => ofText_parenthesized,
    fun _ => ofText_intercalate,
    fun _ _ hlength h _ => ofText_insert_undefined hlength h⟩

def handlers : String := " { on: (x: A | B, y: Map<K, V>) => C[], off?: [A, B] | D }"

/-- None of them is seen from outside. -/
theorem ofText_compositional_handlers :
    ofText (handlers ++ "[]") = array (ofText handlers) ∧
    ofText ("Array<" ++ handlers ++ ">") = array (ofText handlers) ∧
    ofText ("ReadonlyArray<" ++ handlers ++ ">") = array (ofText handlers) ∧
    ofText ("(" ++ handlers ++ ")") = ofText handlers ∧
    ofText ("|".intercalate ["", " undefined", handlers, "A[]"]) = ofText handlers ∧
    ofText ("|".intercalate ["\tundefined", "", handlers, "A[]"]) = ofText ("|".intercalate ["", handlers, "A[]"]) := by
  obtain ⟨harray, hgeneric, hparentheses, hunion, hinsert⟩ := ofText_compositional
  have hbalanced : balanced handlers.toList = true := by decide +kernel
  have hbars : Whole '|' handlers.toList := by decide +kernel
  have hcommas : Whole ',' handlers.toList := by decide +kernel
  refine ⟨harray _ hbalanced hbars, (hgeneric _ hbalanced hcommas).1, (hgeneric _ hbalanced hcommas).2,
    hparentheses _ hbalanced, ?_, ?_⟩
  · exact (hunion _ (by decide) (by decide +kernel)).trans (by decide +kernel)
  · exact hinsert [] ["", handlers, "A[]"] (by decide) (by decide +kernel) "\tundefined" (by decide +kernel)

end Shape
end DeclSchema
