import DeclSchema.Proofs.TypeText.Forms
import DeclSchema.Reference.Graph

/-! # Normal forms of type text

Every text is reduced in finitely many steps, whether or not its brackets match, and what it is
reduced to is reduced no further. A cut falls where the depth is zero, behind a separator, so the
scan of a piece by itself sees the depths and the character before that the scan of the whole saw.
-/
namespace DeclSchema
open Text TypeText

namespace TypeText
variable {separator : Char} {before : Option Char} {depth : Int} {s first piece : List Char}
  {rest : List (List Char)}

/-- The first piece is scanned from where the text is, and the others from behind a separator. -/
theorem splitFrom_piece (h : splitFrom separator before depth s = first :: rest) :
    splitFrom separator before depth first = [first] ∧
      ∀ piece ∈ rest, splitFrom separator (some separator) 0 piece = [piece] := by
  induction s generalizing before depth first rest with
  | nil =>
    cases h
    exact ⟨rfl, nofun⟩
  | cons c s ih =>
    by_cases hcut : Cuts separator before depth c
    · rw [splitFrom_cut hcut] at h
      obtain ⟨-, rfl, -⟩ := hcut
      cases h
      obtain ⟨next, more, hpieces⟩ := List.exists_cons_of_ne_nil (splitFrom_ne_nil c (some c) 0 s)
      obtain ⟨hnext, hmore⟩ := ih hpieces
      rw [hpieces]
      exact ⟨rfl, List.forall_mem_cons.mpr ⟨hnext, hmore⟩⟩
    · rw [splitFrom_uncut hcut] at h
      obtain ⟨next, more, hpieces⟩ := List.exists_cons_of_ne_nil
        (splitFrom_ne_nil separator (some c) (depth + depthChange before c) s)
      obtain ⟨hnext, hmore⟩ := ih hpieces
      rw [hpieces, List.modifyHead_cons] at h
      cases h
      rw [splitFrom_uncut hcut, hnext]
      exact ⟨rfl, hmore⟩

/-- A piece of a text is in one piece. -/
theorem whole_of_mem (hseparator : separator ≠ '=') (h : piece ∈ splitTopLevel separator s) :
    Whole separator piece := by
  obtain ⟨first, rest, hpieces⟩ := List.exists_cons_of_ne_nil (splitFrom_ne_nil separator none 0 s)
  obtain ⟨hfirst, hrest⟩ := splitFrom_piece hpieces
  rw [splitTopLevel, hpieces] at h
  rcases List.mem_cons.mp h with rfl | h
  · exact hfirst
  · have hpiece := hrest piece h
    rwa [splitFrom_of_ne (by simpa using hseparator)] at hpiece

end TypeText

namespace Shape
variable {s t : List Char}

/-- A pruned text is trimmed and has no bar left. -/
theorem prune_normal (s : List Char) : trim (prune s) = prune s ∧ Whole '|' (prune s) := by
  unfold prune
  dsimp only
  split
  · rename_i hlength
    obtain ⟨piece, hpiece⟩ := List.length_eq_one_iff.mp (eq_of_beq hlength)
    refine ⟨trim_trim s, ?_⟩
    rw [Whole, hpiece, eq_of_splitFrom_eq_singleton hpiece]
  · cases hfind : ((splitTopLevel '|' (trim s)).map trim).find?
        fun branch => !branch.isEmpty && branch != undefinedWord with
    | none => exact ⟨by decide, whole_undefinedWord⟩
    | some branch =>
      obtain ⟨piece, hpiece, rfl⟩ := List.mem_map.mp (List.mem_of_find?_eq_some hfind)
      exact ⟨trim_trim piece, (whole_of_mem (by decide) hpiece).trim (by decide)⟩

theorem prune_prune (s : List Char) : prune (prune s) = prune s :=
  prune_of_whole (prune_normal s).1 (prune_normal s).2

/-- To find the shape of one text, the shape of another is asked for. -/
inductive Asks (s : List Char) : List Char → Prop
  | element {t : List Char} (h : bracketElement? (prune s) = some t) : Asks s t
  | argument {t : List Char} (hbracket : bracketElement? (prune s) = none)
      (h : genericElement? (prune s) = some t) : Asks s t
  | inner {t : List Char} (hbracket : bracketElement? (prune s) = none)
      (hgeneric : genericElement? (prune s) = none)
      (hname : Primitive.ofName? (String.ofList (prune s)) = none)
      (h : parenthesized? (prune s) = some t) : Asks s t

theorem Asks.length_lt (h : Asks s t) : t.length < s.length := by
  cases h with
  | element h => exact length_lt_of_bracketElement? h
  | argument _ h => exact length_lt_of_genericElement? h
  | inner _ _ _ h => exact length_lt_of_parenthesized? h

/-- However the brackets of a text match, there are no more steps than characters. -/
theorem length_le_of_isChain {steps : List (List Char)} (h : List.IsChain Asks (s :: steps)) :
    steps.length ≤ s.length := by
  induction steps generalizing s with
  | nil => exact Nat.zero_le _
  | cons t steps ih =>
    obtain ⟨hfirst, hrest⟩ := List.isChain_cons_cons.mp h
    have hshorter := hfirst.length_lt
    have hsteps := ih hrest
    rw [List.length_cons]
    omega

/-- The shape is found from one other shape, or it is there already. -/
theorem ofChars_cases (s : List Char) :
    (∃ t, Asks s t ∧ (∀ u, Asks s u → u = t) ∧
      (ofChars s = array (ofChars t) ∨ ofChars s = ofChars t)) ∨
    (∀ t, ¬ Asks s t) ∧ ((∃ p, ofChars s = primitive p) ∨
      ofChars s = reference (String.ofList (prune s)) ∧ Verbatim (prune s) ∧
        Primitive.ofName? (String.ofList (prune s)) = none) := by
  cases hbracket : bracketElement? (prune s) with
  | some t =>
    refine .inl ⟨t, .element hbracket, fun u hu => ?_, .inl (by rw [ofChars, hbracket])⟩
    cases hu <;> simp_all
  | none =>
    cases hgeneric : genericElement? (prune s) with
    | some t =>
      refine .inl ⟨t, .argument hbracket hgeneric, fun u hu => ?_,
        .inl (by rw [ofChars, hbracket, hgeneric])⟩
      cases hu <;> simp_all
    | none =>
      cases hname : Primitive.ofName? (String.ofList (prune s)) with
      | some p =>
        refine .inr ⟨fun t ht => ?_, .inl ⟨p, by rw [ofChars, hbracket, hgeneric, hname]⟩⟩
        cases ht <;> simp_all
      | none =>
        cases hparenthesis : parenthesized? (prune s) with
        | some t =>
          refine .inl ⟨t, .inner hbracket hgeneric hname hparenthesis, fun u hu => ?_,
            .inr (by rw [ofChars, hbracket, hgeneric, hname, hparenthesis])⟩
          cases hu <;> simp_all
        | none =>
          refine .inr ⟨fun t ht => ?_, .inr ⟨by rw [ofChars, hbracket, hgeneric, hname, hparenthesis],
            ⟨(prune_normal s).2, hbracket, hgeneric, hparenthesis⟩, rfl⟩⟩
          cases ht <;> simp_all

/-- The name that is left in the end is a text in which there is nothing to take apart. -/
theorem verbatim_referencedName {s : List Char} {name : String}
    (h : (ofChars s).referencedName? = some name) :
    trim name.toList = name.toList ∧ Verbatim name.toList ∧ Primitive.ofName? name = none := by
  rcases ofChars_cases s with ⟨t, hasks, -, hshape⟩ | ⟨-, ⟨p, hshape⟩ | ⟨hshape, hverbatim, hname⟩⟩
  · have hnext : (ofChars t).referencedName? = some name := by
      rcases hshape with hshape | hshape
      · rwa [hshape] at h
      · rwa [hshape] at h
    exact verbatim_referencedName hnext
  · rw [hshape] at h
    cases h
  · rw [hshape] at h
    cases h
    rw [String.toList_ofList]
    exact ⟨(prune_normal s).1, hverbatim, hname⟩
termination_by s.length
decreasing_by exact hasks.length_lt

/-- Whatever a text is, pruning it twice prunes it once, its shape is found in no more steps than it
has characters, and the name it refers to is a normal form, which refers to itself unless it is reserved. -/
theorem normal_forms (t : String) :
    pruned (pruned t) = pruned t ∧
    (∀ steps, List.IsChain Asks (t.toList :: steps) → steps.length ≤ t.length) ∧
    ∀ name, (ofText t).referencedName? = some name →
      trimmed name = name ∧ ¬ "[]".toList <:+ name.toList ∧
      name ≠ "string" ∧ name ≠ "number" ∧ name ≠ "boolean" ∧
      ofText name = reference name ∧
      targetOf? name = if isReserved name then none else some name := by
  refine ⟨?_, fun steps hsteps => ?_, fun name hname => ?_⟩
  · rw [pruned, pruned, String.toList_ofList, prune_prune]
  · rw [← String.length_toList]
    exact length_le_of_isChain hsteps
  · obtain ⟨htrim, hverbatim, hprimitive⟩ := verbatim_referencedName hname
    have hself : ofText name = reference name := by
      rw [ofText, ofChars_verbatim htrim hverbatim (by rwa [String.ofList_toList]), String.ofList_toList]
    have hne (p : Primitive) : name ≠ p.name := by
      rintro rfl
      rw [Primitive.ofName?_name] at hprimitive
      cases hprimitive
    refine ⟨by rw [trimmed, htrim, String.ofList_toList], ?_, hne .string, hne .number, hne .boolean, hself, ?_⟩
    · rintro ⟨element, helement⟩
      have hsome : bracketElement? name.toList = some element :=
        beforeTail?_eq_some_iff.mpr helement.symm
      cases hverbatim.bracket.symm.trans hsome
    · rw [targetOf?, hself, referencedName?, Option.filter_some]
      cases isReserved name <;> rfl

def unbalancedText : String := "undefined | )a[] "

theorem referencedName_unbalancedText : (ofText unbalancedText).referencedName? = some ")a" := by
  have hpruned : prune unbalancedText.toList = ")a[]".toList := by decide +kernel
  have helement : bracketElement? ")a[]".toList = some ")a".toList := by decide +kernel
  have hname : ofChars ")a".toList = reference ")a" :=
    ofChars_verbatim (by decide) (by decide) (by decide)
  rw [ofText, ofChars, hpruned, helement]
  exact congrArg referencedName? hname

/-- They are kept in the name. -/
theorem normal_forms_unbalanced :
    pruned (pruned unbalancedText) = pruned unbalancedText ∧
    (∀ steps, List.IsChain Asks (unbalancedText.toList :: steps) → steps.length ≤ unbalancedText.length) ∧
    ofText ")a" = reference ")a" ∧ targetOf? ")a" = some ")a" := by
  obtain ⟨hpruned, hsteps, hnames⟩ := normal_forms unbalancedText
  obtain ⟨-, -, -, -, -, hself, htarget⟩ := hnames ")a" referencedName_unbalancedText
  exact ⟨hpruned, hsteps, hself, htarget⟩

end Shape
end DeclSchema
