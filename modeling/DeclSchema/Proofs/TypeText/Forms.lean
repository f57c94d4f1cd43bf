import DeclSchema.Proofs.TypeText.Branches

/-! # Shapes of the forms of type text

Text of one of the forms that are understood has the shape that is made from the text inside of
it. A form is seen as such if the bars inside of it stand in brackets.
-/
namespace DeclSchema
open Text TypeText

namespace TypeText
open Syntax

variable {separator mark : Char} {s args inner word text : List Char} {parts : List (List Char)}
  {opening closing : Char}

/-- What stands in brackets is not cut, nor is a word before them. -/
theorem whole_enclosed (hword : balanced word = true) (hfree : separator ∉ word) (h : balanced inner = true)
    (hopening : ∀ before, depthChange before opening = 1) (hmarks : opening ≠ separator ∧ closing ≠ separator)
    (hequals : opening ≠ '=') : Whole separator (word ++ opening :: (inner ++ [closing])) := by
  have hfront : splitFrom separator none 0 word = [word] := splitFrom_of_not_mem hfree none 0
  have hcut : ∀ before, ¬ Cuts separator before 0 opening := fun before hcut => hmarks.1 hcut.2.1
  obtain ⟨hinner, hdepth⟩ := balancedFrom_raised h (Int.le_refl 0) Int.one_pos separator
  rw [← splitFrom_of_ne (show some opening ≠ some '=' by simpa using hequals), Int.zero_add] at hinner
  rw [Whole, splitTopLevel, splitFrom_append_eq hfront, balancedFrom_depthAfter hword,
    splitFrom_uncut (hcut _), hopening, Int.zero_add, splitFrom_append hinner,
    splitFrom_of_not_mem (by simpa using hmarks.2.symm)]
  rfl

theorem whole_append (h : Whole '|' s) (hafter : '|' ∉ args) : Whole '|' (s ++ args) :=
  (splitFrom_append_eq h).mpr (splitFrom_of_not_mem hafter _ _)

theorem level_of_bare (hmark : Level mark) (h : ∀ c ∈ s, isBlank c = true ∨ c = mark) : ∀ c ∈ s, Level c := by
  intro c hc
  rcases h c hc with hblank | rfl
  · exact level_of_isBlank hblank
  · exact hmark

theorem balanced_row (h : Row (BareBetween mark) parts text) (hmark : Level mark)
    (hparts : ∀ part ∈ parts, balanced part = true) : balanced text = true := by
  induction h with
  | last hafter => exact balanced_append (hparts _ List.mem_cons_self) (balanced_of_blank hafter)
  | more hfiller _ ih =>
    obtain ⟨hpart, hrest⟩ := List.forall_mem_cons.mp hparts
    exact balanced_append hpart (balanced_append (balanced_of_level (level_of_bare hmark hfiller.1)) (ih hrest))

/-- White space and marks before a text do not cut it elsewhere, if an arrow does not arise from them. -/
theorem splitFrom_bare_append (h : ∀ c ∈ s, isBlank c = true ∨ c = mark) (hmark : Level mark) (hne : separator ≠ mark)
    (hseparator : isBlank separator = false) {before : Option Char} (hbefore : lastBefore before s ≠ some '=')
    (t : List Char) : splitFrom separator before 0 (s ++ t) = [s ++ t] ↔ Whole separator t := by
  have hfree : separator ∉ s := fun hmem => by
    rcases h separator hmem with hblank | heq
    · rw [hblank] at hseparator
      cases hseparator
    · exact hne heq
  rw [splitFrom_append_eq (splitFrom_of_not_mem hfree _ _), depthAfter_of_level (level_of_bare hmark h),
    splitFrom_of_ne hbefore]
  rfl

theorem lastBefore_bare (h : ∀ c ∈ s, isBlank c = true ∨ c = mark) (hequals : mark ≠ '=') {before : Option Char}
    (hbefore : before ≠ some '=' ∨ s ≠ []) : lastBefore before s ≠ some '=' := by
  rw [lastBefore]
  cases hlast : s.getLast? with
  | none => exact hbefore.resolve_right (not_not_intro (List.getLast?_eq_none_iff.mp hlast))
  | some c =>
    rintro ⟨⟩
    rcases h '=' (List.mem_of_getLast? hlast) with hblank | heq
    · exact absurd hblank (by decide)
    · exact hequals heq.symm

/-- Balanced parts without cuts make a row without cuts, if other marks stand between them. -/
theorem whole_row (h : Row (BareBetween mark) parts text) (hmark : Level mark) (hne : separator ≠ mark)
    (hequals : mark ≠ '=') (hseparator : isBlank separator = false)
    (hparts : ∀ part ∈ parts, Whole separator part ∧ balanced part = true) : Whole separator text := by
  induction h with
  | last hafter =>
    exact (splitFrom_append_eq (hparts _ List.mem_cons_self).1).mpr (splitFrom_blank hafter hseparator _ _)
  | @more part filler text rest hfiller _ ih =>
    obtain ⟨⟨hwhole, hbalanced⟩, hrest⟩ := List.forall_mem_cons.mp hparts
    have hbefore : lastBefore (lastBefore none part) filler ≠ some '=' :=
      lastBefore_bare hfiller.1 hequals (.inr (List.ne_nil_of_mem hfiller.2))
    rw [Whole, splitTopLevel, splitFrom_append_eq hwhole, balancedFrom_depthAfter hbalanced,
      splitFrom_bare_append hfiller.1 hmark hne hseparator hbefore]
    exact ih hrest

/-- A row of several balanced parts is cut at the mark between them. -/
theorem not_whole_row (h : Row (BareBetween mark) parts text) (hmark : Level mark) (hlength : parts.length ≠ 1)
    (hparts : ∀ part ∈ parts, balanced part = true) (hs : balanced s = true) (t : List Char) :
    ¬ Whole mark (s ++ (text ++ t)) := by
  cases h with
  | last => exact absurd rfl hlength
  | @more part filler text rest hfiller hrest =>
    obtain ⟨blanks, more, rfl, -⟩ := List.eq_append_cons_of_mem hfiller.2
    have hblanks : ∀ c ∈ blanks, Level c := fun c hc =>
      level_of_bare hmark hfiller.1 c (List.mem_append_left _ hc)
    have hfront := balanced_append hs (balanced_append (hparts part List.mem_cons_self) (balanced_of_level hblanks))
    have hcut := not_whole_of_balanced hmark hfront (more ++ (text ++ t))
    simpa only [List.append_assoc, List.cons_append] using hcut

/-- If a bracket is closed before the end of a text, then not at its end. -/
theorem not_balanced_of_closed {n : Nat} (hword : ∀ c ∈ word, Level c)
    (hopening : ∀ before, depthChange before opening = 1) (hequals : opening ≠ '=') (hlow : word.length < n)
    (hhigh : n ≤ word.length + 1 + inner.length) (h : balanced ((word ++ opening :: (inner ++ args)).take n) = true) :
    balanced inner = false := by
  obtain ⟨k, rfl⟩ := Nat.exists_eq_add_of_le hlow
  have htake : (word ++ opening :: (inner ++ args)).take (word.length + 1 + k) = word ++ opening :: inner.take k := by
    rw [Nat.add_assoc, List.take_length_add_append, Nat.add_comm 1 k, List.take_succ_cons,
      List.take_append_of_le_length (by omega)]
  rw [htake, balanced, balancedFrom_level_append hword (Int.le_refl 0), balancedFrom, hopening, Int.zero_add,
    if_neg (by decide), balancedFrom_of_ne (by simpa using hequals)] at h
  rw [Bool.eq_false_iff]
  intro hbalanced
  rw [balanced, ← List.take_append_drop k inner] at hbalanced
  have hfront := balancedFrom_front hbalanced (Int.le_refl 0)
  rw [Int.zero_add, h] at hfront
  cases hfront

end TypeText

namespace Shape
variable {s t element inner args : List Char}

theorem ofChars_congr (h : prune s = prune t) : ofChars s = ofChars t := by
  rw [ofChars, ofChars, h]

theorem ofChars_of_trim (h : trim s = trim t) : ofChars s = ofChars t := by
  apply ofChars_congr
  rw [prune, prune, h]

theorem ofChars_padded {front back : List Char} (hfront : AllBlank front) (hback : AllBlank back)
    (s : List Char) : ofChars (front ++ (s ++ back)) = ofChars s :=
  ofChars_of_trim (by rw [trim_blank_append hfront, trim_append_blank hback])

theorem prune_of_whole (htrim : trim s = s) (h : Whole '|' s) : prune s = s := by
  rw [prune, htrim, show splitTopLevel '|' s = [s] from h]
  rfl

/-- Text that ends in a pair of brackets is an array of what stands before them. -/
theorem ofChars_array (htrim : trim (element ++ ['[', ']']) = element ++ ['[', ']'])
    (h : Whole '|' (element ++ ['[', ']'])) : ofChars (element ++ ['[', ']']) = array (ofChars element) := by
  rw [ofChars, prune_of_whole htrim h, show bracketElement? (element ++ ['[', ']']) = some element from
    beforeTail?_eq_some_iff.mpr rfl]

def arrayNames : List String := ["Array", "ReadonlyArray"]

theorem whole_generic {name : String} (hname : name ∈ arrayNames) (h : balanced args = true) :
    Whole '|' (name.toList ++ '<' :: (args ++ ['>'])) := by
  have hall : ∀ name ∈ arrayNames, balanced name.toList = true ∧ '|' ∉ name.toList := by decide
  obtain ⟨hbalanced, hbar⟩ := hall name hname
  exact whole_enclosed hbalanced hbar h (fun _ => rfl) (by decide) (by decide)

theorem whole_parenthesized (h : balanced inner = true) : Whole '|' ('(' :: (inner ++ [')'])) := by
  have hwhole : Whole '|' ([] ++ '(' :: (inner ++ [')'])) :=
    whole_enclosed rfl List.not_mem_nil h (fun _ => rfl) (by decide) (by decide)
  exact hwhole

theorem bracketElement?_concat {c : Char} (hc : c ≠ ']') (s : List Char) :
    bracketElement? (s ++ [c]) = none := by
  rw [bracketElement?, ← Option.not_isSome_iff_eq_none]
  intro hsome
  obtain ⟨element, helement⟩ := Option.isSome_iff_exists.mp hsome
  have hlast := congrArg List.getLast? (beforeTail?_eq_some_iff.mp helement)
  rw [List.getLast?_concat, List.getLast?_append] at hlast
  cases hlast
  exact hc rfl

/-- A generic array of one argument is an array of that argument. -/
theorem ofChars_generic {name : String} (hname : name ∈ arrayNames)
    (htrim : trim (name.toList ++ '<' :: (args ++ ['>'])) = name.toList ++ '<' :: (args ++ ['>']))
    (hbalanced : balanced args = true) (hwhole : Whole ',' args) :
    ofChars (name.toList ++ '<' :: (args ++ ['>'])) = array (ofChars args) := by
  have hbars : Whole '|' (name.toList ++ '<' :: (args ++ ['>'])) :=
    whole_generic hname hbalanced
  have hbracket : bracketElement? (name.toList ++ '<' :: (args ++ ['>'])) = none := by
    rw [← List.cons_append, ← List.append_assoc]
    exact bracketElement?_concat (by decide) _
  have hargs : beforeTail? ['>'] (args ++ ['>']) = some args := beforeTail?_eq_some_iff.mpr rfl
  have hcondition : ((splitTopLevel ',' args).length == 1 && balanced args) = true := by
    rw [show splitTopLevel ',' args = [args] from hwhole, hbalanced]
    rfl
  have hgeneric : genericElement? (name.toList ++ '<' :: (args ++ ['>'])) = some (trim args) := by
    have hhead : ((afterHead? "Array<".toList (name.toList ++ '<' :: (args ++ ['>']))).orElse fun _ =>
        afterHead? "ReadonlyArray<".toList (name.toList ++ '<' :: (args ++ ['>']))) = some (args ++ ['>']) := by
      rcases List.mem_pair.mp hname with rfl | rfl <;> rfl
    rw [genericElement?, hhead, Option.bind_some, hargs, Option.bind_some, if_pos hcondition]
  rw [ofChars, prune_of_whole htrim hbars, hbracket, hgeneric]
  exact congrArg array (ofChars_of_trim (trim_trim args))

/-- A pair of parentheses leaves the shape as it is. -/
theorem ofChars_parenthesized (htrim : trim ('(' :: (inner ++ [')'])) = '(' :: (inner ++ [')']))
    (hbalanced : balanced inner = true) : ofChars ('(' :: (inner ++ [')'])) = ofChars inner := by
  have hbars := whole_parenthesized hbalanced
  have hbracket : bracketElement? ('(' :: (inner ++ [')'])) = none := by
    rw [← List.cons_append]
    exact bracketElement?_concat (by decide) _
  have hgeneric : genericElement? ('(' :: (inner ++ [')'])) = none := rfl
  have hname : Primitive.ofName? (String.ofList ('(' :: (inner ++ [')']))) = none := by
    cases hp : Primitive.ofName? (String.ofList ('(' :: (inner ++ [')']))) with
    | none => rfl
    | some p =>
      have hhead := congrArg (fun name : String => name.toList.head?) (Primitive.ofName?_eq_some hp)
      rw [String.toList_ofList] at hhead
      cases p <;> cases hhead
  have hinner : parenthesized? ('(' :: (inner ++ [')'])) = some inner := by
    have hrest : beforeTail? [')'] (inner ++ [')']) = some inner := beforeTail?_eq_some_iff.mpr rfl
    rw [parenthesized?, show afterHead? ['('] ('(' :: (inner ++ [')'])) = some (inner ++ [')']) from rfl,
      Option.bind_some, hrest, Option.bind_some, if_pos hbalanced]
  rw [ofChars, prune_of_whole htrim hbars, hbracket, hgeneric, hname, hinner]

theorem ofChars_primitive (p : Primitive) : ofChars p.name.toList = primitive p := by
  have hforms : prune p.name.toList = p.name.toList ∧ bracketElement? p.name.toList = none ∧
      genericElement? p.name.toList = none := by
    cases p <;> decide
  rw [ofChars, hforms.1, hforms.2.1, hforms.2.2, String.ofList_toList, Primitive.ofName?_name]

theorem genericElement?_eq_some (h : genericElement? s = some element) : ∃ name ∈ arrayNames, ∃ args,
    s = name.toList ++ '<' :: (args ++ ['>']) ∧ balanced args = true ∧ Whole ',' args := by
  obtain ⟨rest, hrest, h⟩ := Option.bind_eq_some_iff.mp h
  obtain ⟨args, hargs, hgiven⟩ := Option.bind_eq_some_iff.mp h
  obtain rfl := beforeTail?_eq_some_iff.mp hargs
  split at hgiven
  · rename_i hcondition
    obtain ⟨hlength, hbalanced⟩ := (Bool.and_eq_true _ _).mp hcondition
    have hwhole : Whole ',' args := by
      obtain ⟨piece, hpiece⟩ := List.length_eq_one_iff.mp (eq_of_beq hlength)
      rw [Whole, hpiece, eq_of_splitFrom_eq_singleton hpiece]
    cases hfirst : afterHead? "Array<".toList s with
    | some more =>
      rw [hfirst] at hrest
      cases hrest
      exact ⟨"Array", by decide, args, (afterHead?_eq_some_iff.mp hfirst).trans rfl, hbalanced, hwhole⟩
    | none =>
      rw [hfirst] at hrest
      exact ⟨"ReadonlyArray", by decide, args, (afterHead?_eq_some_iff.mp hrest).trans rfl, hbalanced, hwhole⟩
  · cases hgiven

theorem parenthesized?_eq_some (h : parenthesized? s = some inner) :
    s = '(' :: (inner ++ [')']) ∧ balanced inner = true := by
  obtain ⟨rest, hrest, h⟩ := Option.bind_eq_some_iff.mp h
  obtain ⟨inside, hinside, hgiven⟩ := Option.bind_eq_some_iff.mp h
  obtain rfl := beforeTail?_eq_some_iff.mp hinside
  split at hgiven
  · rename_i hbalanced
    cases hgiven
    exact ⟨afterHead?_eq_some_iff.mp hrest, hbalanced⟩
  · cases hgiven

/-- Text in which there is nothing to take apart. -/
structure Verbatim (s : List Char) : Prop where
  whole : Whole '|' s
  bracket : bracketElement? s = none
  generic : genericElement? s = none
  parenthesis : parenthesized? s = none

instance (s : List Char) : Decidable (Verbatim s) :=
  decidable_of_iff (Whole '|' s ∧ bracketElement? s = none ∧ genericElement? s = none ∧ parenthesized? s = none)
    ⟨fun h => ⟨h.1, h.2.1, h.2.2.1, h.2.2.2⟩, fun h => ⟨h.whole, h.bracket, h.generic, h.parenthesis⟩⟩

theorem ofChars_verbatim (htrim : trim s = s) (h : Verbatim s) (hname : Primitive.ofName? (String.ofList s) = none) :
    ofChars s = reference (String.ofList s) := by
  rw [ofChars, prune_of_whole htrim h.whole, h.bracket, h.generic, hname, h.parenthesis]

/-- A union has the shape of the branch taken. -/
theorem ofChars_taken (h : taken? none s = some t) (htrim : trim t = t) (hwhole : Whole '|' t) :
    ofChars s = ofChars t := by
  have hne : trim s ≠ [] := by
    intro hnil
    rw [taken?, ← branches_trim, hnil] at h
    cases h
  apply ofChars_congr
  rw [prune_eq_taken? hne, h, prune_of_whole htrim hwhole]
  rfl

/-- A union of nothing but `undefined` is `undefined`. -/
theorem ofChars_not_taken (hne : trim s ≠ []) (h : taken? none s = none) :
    ofChars s = reference "undefined" := by
  have hprune : prune s = prune undefinedWord := by
    rw [prune_eq_taken? hne, h]
    decide
  rw [ofChars_congr hprune]
  exact ofChars_verbatim (by decide) (by decide) (by decide)

end Shape
end DeclSchema
