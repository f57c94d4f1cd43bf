import DeclSchema.Proofs.TypeText.Kept

/-! # The shapes of types

The text of a legible type is read as the shape that the type has by its kind. Arrays, parentheses and
unions take over the shape of what stands in them, by induction over the tree.
-/
namespace DeclSchema.Syntax
open Text TypeText

namespace TypeNode

variable {text name : String} {element inner arg : TypeNode} {operands : List TypeNode} {s : List Char}

/-- An array is one of what its element's text is read as. -/
theorem ofChars_array (h : (array text element).Spelled) (hbrackets : "[]".toList <:+ text.toList)
    (hbare : Bare "[]" text [element.text]) (hwhole : Whole '|' element.text.toList) :
    Shape.ofChars text.toList = .array (Shape.ofChars element.text.toList) ∧ Whole '|' text.toList := by
  have htrim := h.trimmed
  obtain ⟨-, before, gap, inside, hbefore, hgap, hinside, htext⟩ := h.woven
  rw [Bare, htext, ink_trim, show '[' :: (inside ++ [']']) = ['['] ++ (inside ++ [']']) from rfl] at hbare
  simp only [ink_append, List.map_cons, List.map_nil, List.sum_cons, List.sum_nil] at hbare
  have hmarks := isPlainMark_marks "[]" (by decide)
  have hgap := hgap.blank_of_ink hmarks (by omega)
  have hinside := hinside.blank_of_ink hmarks (by omega)
  have hback : text.toList = trimStart (before ++ (element.text.toList ++ gap)) ++ '[' :: (inside ++ [']']) := by
    rw [htext, ← trim_append_solid (c := '[') (d := ']') rfl (by simp [List.getLast?_cons]) (by decide)]
    simp only [List.append_assoc]
  -- Between the brackets there could be white space only, and the text has none there.
  have hnil : inside = [] := by
    obtain ⟨front, hfront⟩ := hbrackets
    rcases List.eq_nil_or_concat inside with hnil | ⟨init, c, rfl⟩
    · exact hnil
    · rw [hback, show front ++ "[]".toList = front ++ ['['] ++ [']'] by simp,
        show trimStart (before ++ (element.text.toList ++ gap)) ++ '[' :: (init.concat c ++ [']']) =
          trimStart (before ++ (element.text.toList ++ gap)) ++ '[' :: init ++ [c] ++ [']'] by simp] at hfront
      have hc := (List.append_inj' (List.append_inj' hfront rfl).1 rfl).2
      rw [List.cons.injEq] at hc
      have hblank := hinside c (by simp)
      rw [← hc.1] at hblank
      exact absurd hblank (by decide)
  subst hnil
  have hfront : Whole '|' (before ++ (element.text.toList ++ gap)) :=
    whole_padded hwhole (by decide) hbefore hgap
  have hwholeText : Whole '|' text.toList := by
    rw [htext]
    refine Whole.trim ?_ (by decide)
    rw [← List.append_assoc element.text.toList, ← List.append_assoc]
    exact whole_append hfront (by decide)
  refine ⟨?_, hwholeText⟩
  rw [hback] at hwholeText
  rw [show (array text element).text = text from rfl, hback] at htrim
  rw [hback, List.nil_append, Shape.ofChars_array htrim hwholeText,
    ← Shape.ofChars_padded hbefore hgap element.text.toList]
  exact congrArg Shape.array (Shape.ofChars_of_trim (trim_trimStart _))

/-- Parentheses leave the shape of what stands in them. -/
theorem ofChars_parenthesized (h : (parenthesized text inner).Spelled) (hbare : Bare "()" text [inner.text])
    (hbalanced : balanced inner.text.toList = true) :
    Shape.ofChars text.toList = Shape.ofChars inner.text.toList ∧ Whole '|' text.toList := by
  have htrim := h.trimmed
  obtain ⟨front, back, hfront, hback, htext⟩ := h.woven
  rw [Bare, htext, show '(' :: (front ++ (inner.text.toList ++ (back ++ [')']))) =
    ['('] ++ (front ++ (inner.text.toList ++ (back ++ [')']))) from rfl] at hbare
  simp only [ink_append, List.map_cons, List.map_nil, List.sum_cons, List.sum_nil] at hbare
  have hmarks := isPlainMark_marks "()" (by decide)
  have hfront := hfront.blank_of_ink hmarks (by omega)
  have hback := hback.blank_of_ink hmarks (by omega)
  have hinner := balanced_padded hbalanced hfront hback
  have hform : text.toList = '(' :: ((front ++ (inner.text.toList ++ back)) ++ [')']) := by
    rw [htext]
    simp only [List.append_assoc]
  rw [show (parenthesized text inner).text = text from rfl, hform] at htrim
  constructor
  · rw [hform, Shape.ofChars_parenthesized htrim hinner, Shape.ofChars_padded hfront hback]
  · rw [hform]
    exact Shape.whole_parenthesized hinner

/-- A generic array is one of what its argument's text is read as. -/
theorem ofChars_generic (h : (reference text name [arg]).Spelled) (hname : name ∈ Shape.arrayNames)
    (hangle : name.toList ++ ['<'] <+: text.toList) (hbare : Bare "<>" text [name, arg.text])
    (hbalanced : balanced arg.text.toList = true) (hcommas : Whole ',' arg.text.toList) :
    Shape.ofChars text.toList = .array (Shape.ofChars arg.text.toList) ∧ Whole '|' text.toList := by
  have htrim := h.trimmed
  obtain ⟨-, -, before, gap, front, row, behind, hbefore, hgap, hfront, hrow, hback, htext⟩ := h.woven
  obtain ⟨after, hafter, rfl⟩ : ∃ after, AllBlank after ∧ row = arg.text.toList ++ after := by
    cases hrow with
    | last hafter => exact ⟨_, hafter, rfl⟩
    | more _ hrest => cases hrest
  obtain ⟨back, hback, hbehind⟩ : ∃ back, Filler [','] back ∧ after ++ (behind ++ ['>']) = back ++ ['>'] :=
    ⟨_, (Filler.of_blank hafter).append hback, (List.append_assoc _ _ _).symm⟩
  rw [List.append_assoc, hbehind] at htext
  rw [Bare, htext, ink_trim, show '<' :: (front ++ (arg.text.toList ++ (back ++ ['>']))) =
    ['<'] ++ (front ++ (arg.text.toList ++ (back ++ ['>']))) from rfl] at hbare
  simp only [ink_append, List.map_cons, List.map_nil, List.sum_cons, List.sum_nil] at hbare
  have hmarks := isPlainMark_marks "<>" (by decide)
  have hgap := hgap.blank_of_ink hmarks (by omega)
  -- A comma beside the argument would be ink.
  have hblank {s : List Char} (hs : Filler [','] s) (hink : ink "<>".toList s = 0) : AllBlank s := by
    intro c hc
    rcases hs.of_ink hmarks hink c hc with hblank | hcomma
    · exact hblank
    · rcases ink_eq_zero_iff.mp hink c hc with hblank | hmark
      · exact hblank
      · rw [List.mem_singleton.mp hcomma] at hmark
        exact absurd hmark (by decide)
  have hfront := hblank hfront (by omega)
  have hback := hblank hback (by omega)
  have hform : text.toList = name.toList ++ (gap ++ '<' :: (front ++ (arg.text.toList ++ back) ++ ['>'])) := by
    obtain ⟨c, hhead, hblank⟩ : ∃ c ∈ name.toList.head?, isBlank c = false := by
      have hall : ∀ name ∈ Shape.arrayNames, ∃ c ∈ name.toList.head?, isBlank c = false := by decide
      exact hall name hname
    have hsolid := trim_solid (s := name.toList ++ (gap ++ '<' :: (front ++ (arg.text.toList ++ (back ++ ['>'])))))
      (c := c) (d := '>') (by rw [List.head?_append, hhead]; rfl) (by simp [List.getLast?_cons]) ⟨hblank, by decide⟩
    rw [htext, trim_blank_append hbefore, hsolid]
    simp
  -- White space behind the name would stand where the text has the bracket.
  have hnil : gap = [] := by
    rw [hform, List.prefix_append_right_inj] at hangle
    cases gap with
    | nil => rfl
    | cons c gap =>
      obtain ⟨more, hmore⟩ := hangle
      rw [List.cons_append, List.cons_append, List.cons.injEq] at hmore
      have hblank := hgap c (by simp)
      rw [← hmore.1] at hblank
      exact absurd hblank (by decide)
  subst hnil
  have hargs := balanced_padded hbalanced hfront hback
  rw [List.nil_append] at hform
  rw [show (reference text name [arg]).text = text from rfl, hform] at htrim
  constructor
  · rw [hform, Shape.ofChars_generic hname htrim hargs (whole_padded hcommas (by decide) hfront hback),
      Shape.ofChars_padded hfront hback]
  · rw [hform]
    exact Shape.whole_generic hname hargs

def firstOf (operands : List TypeNode) : Option TypeNode :=
  operands.find? fun type => type.text != "undefined"

theorem shapeOfFirst_eq (operands : List TypeNode) : shapeOfFirst operands =
    (firstOf operands).elim (.reference "undefined") shape := by
  induction operands with
  | nil => rfl
  | cons type rest ih =>
    rw [shapeOfFirst, firstOf]
    by_cases hword : type.text = "undefined"
    · rw [if_pos hword, List.find?_cons_of_neg (by simpa using hword), ih, firstOf]
    · rw [if_neg hword, List.find?_cons_of_pos (by simpa using hword)]
      rfl

/-- Where the first operand other than `undefined` is in one piece, the scan reads it. -/
theorem firstReads_of_legible (h : LegibleFirst operands)
    (hwhole : ∀ type ∈ operands, type.Legible → Whole '|' type.text.toList) :
    FirstReads (operands.map (·.text.toList)) := by
  induction operands with
  | nil => trivial
  | cons type rest ih =>
    obtain ⟨htype, hrest⟩ := List.forall_mem_cons.mp hwhole
    rw [LegibleFirst] at h
    rw [List.map_cons, FirstReads]
    have hword : type.text.toList = Shape.undefinedWord ↔ type.text = "undefined" := String.toList_inj
    split at h
    · rename_i hundefined
      rw [if_pos (hword.mpr hundefined)]
      exact ih h hrest
    · rename_i hundefined
      obtain ⟨hne, hbalanced, hlegible⟩ := h
      rw [if_neg (mt hword.mp hundefined)]
      refine ⟨mt String.toList_eq_nil_iff.mp hne, htype hlegible, hbalanced.imp_left ?_⟩
      rintro rfl
      rfl

theorem find?_text (operands : List TypeNode) :
    (operands.map (·.text.toList)).find? (fun part => part != Shape.undefinedWord) =
      (firstOf operands).map (·.text.toList) := by
  have hword : ((fun part : List Char => part != Shape.undefinedWord) ∘ fun type : TypeNode => type.text.toList) =
      fun type => type.text != "undefined" := by
    funext type
    have hiff : type.text.toList = Shape.undefinedWord ↔ type.text = "undefined" := String.toList_inj
    simp [bne, hiff]
  rw [List.find?_map, hword, firstOf]

theorem legible_of_firstOf (h : LegibleFirst operands) {type : TypeNode} (htype : firstOf operands = some type) :
    type ∈ operands ∧ type.Legible := by
  refine ⟨List.mem_of_find?_eq_some htype, ?_⟩
  induction operands with
  | nil => cases htype
  | cons first rest ih =>
    rw [LegibleFirst] at h
    rw [firstOf] at htype
    split at h
    · rename_i hundefined
      rw [List.find?_cons_of_neg (by simpa using hundefined)] at htype
      exact ih h htype
    · rename_i hundefined
      rw [List.find?_cons_of_pos (by simpa using hundefined)] at htype
      cases htype
      exact h.2.2

/-- A union has the shape of the first operand other than `undefined`, if that one is legible. -/
theorem ofChars_union (h : (union text operands).Spelled) (hbare : Bare "|" text (operands.map TypeNode.text))
    (hlegible : LegibleFirst operands) (htrim : ∀ type ∈ operands, trim type.text.toList = type.text.toList)
    (hwhole : ∀ type ∈ operands, type.Legible → Whole '|' type.text.toList)
    (hshape : ∀ type, firstOf operands = some type → Shape.ofChars type.text.toList = type.shape) :
    Shape.ofChars text.toList = shapeOfFirst operands := by
  have htrimText := h.trimmed
  obtain ⟨-, front, row, hfront, hrow, htext⟩ := h.woven
  obtain ⟨hbareFront, hbareRow⟩ := bare_row (isPlainMark_marks "|" (by decide)) hfront hrow htext hbare
  have htaken : taken? none text.toList = (firstOf operands).map (·.text.toList) := by
    have hparts : ∀ part ∈ operands.map (·.text.toList), trim part = part := by simpa using htrim
    rw [htext, taken?, branches_trim, ← taken?, taken?_bare_append hbareFront (by decide),
      taken?_row hbareRow hparts (firstReads_of_legible hlegible hwhole), find?_text]
  rw [shapeOfFirst_eq]
  cases hfirst : firstOf operands with
  | some type =>
    obtain ⟨hmem, htype⟩ := legible_of_firstOf hlegible hfirst
    rw [hfirst] at htaken
    rw [Shape.ofChars_taken htaken (htrim type hmem) (hwhole type hmem htype), hshape type hfirst]
    rfl
  | none =>
    rw [hfirst] at htaken
    refine Shape.ofChars_not_taken (fun hnil => ?_) htaken
    -- The first operand is `undefined` and has ink.
    rw [show (union text operands).text = text from rfl, hnil] at htrimText
    rw [Bare, ← htrimText] at hbare
    cases operands with
    | nil => cases hrow
    | cons type rest =>
      have hword : type.text = "undefined" := by
        simpa using List.find?_eq_none.mp hfirst type List.mem_cons_self
      have hink : ink "|".toList "undefined".toList = 9 := by decide
      rw [List.map_cons, List.map_cons, List.sum_cons, hword, hink, ink, List.countP_nil] at hbare
      omega

theorem AllSpelled.self {node : TypeNode} (h : node.AllSpelled) : node.Spelled := h node (self_mem_nodes node)

theorem AllSpelled.of_array (h : (TypeNode.array text element).AllSpelled) : element.AllSpelled :=
  h.of_mem_parts (List.mem_singleton_self _)

theorem AllSpelled.of_parenthesized (h : (TypeNode.parenthesized text inner).AllSpelled) : inner.AllSpelled :=
  h.of_mem_parts (List.mem_singleton_self _)

theorem AllSpelled.of_union (h : (TypeNode.union text operands).AllSpelled) {type : TypeNode}
    (htype : type ∈ operands) : type.AllSpelled := h.of_mem_parts htype

theorem AllSpelled.of_generic (h : (reference text name [arg]).AllSpelled) : arg.AllSpelled :=
  h.of_mem_parts List.mem_cons_self

/-- What is no union is in one piece. -/
theorem whole_of_legible : ∀ node : TypeNode, node.AllSpelled → node.Legible → node.isUnion = false →
    Whole '|' node.text.toList
  | array _ element, h, hl, _ => by
    rw [Legible] at hl
    have hwhole := whole_of_legible element h.of_array hl.2.2 h.self.woven.1
    exact (ofChars_array h.self hl.1 hl.2.1 hwhole).2
  | parenthesized _ _, h, hl, _ => by
    rw [Legible] at hl
    exact (ofChars_parenthesized h.self hl.1 hl.2.1).2
  | reference _ _ [], h, hl, _ => by
    rw [Legible] at hl
    obtain ⟨rfl, hnamed⟩ := h.self.woven
    exact (verbatim_name hnamed hl).whole
  | reference _ name [arg], h, hl, _ => by
    rw [Legible] at hl
    split at hl
    · rename_i hname
      obtain ⟨hangle, hbare, hbalanced, hcommas, -⟩ := hl
      exact (ofChars_generic h.self hname hangle hbare hbalanced hcommas).2
    · rename_i hname
      exact (verbatim_applied h.self.woven hl (.inl hname)).1.whole
  | reference _ _ (arg :: next :: more), h, hl, _ => by
    rw [Legible] at hl
    · exact (verbatim_applied h.self.woven hl (.inr (by simp))).1.whole
    all_goals simp
  | intersection _ _, h, hl, _ => by
    rw [Legible] at hl
    exact (verbatim_intersection h.self hl.1 hl.2).1.whole
  | literal _ _, _, hl, _ | object _ _, _, hl, _ => by
    simp only [Legible] at hl
    exact hl
  | tuple _ _, _, hl, _ | other _, _, hl, _ => by
    rw [Legible] at hl
    exact hl.1

mutual

/-- The text of a legible type is read as the shape of its kind. -/
theorem ofChars_eq_shape : ∀ node : TypeNode, node.AllSpelled → node.Legible →
    Shape.ofChars node.text.toList = node.shape
  | array text element, h, hl => by
    rw [Legible] at hl
    have hwhole := whole_of_legible element h.of_array hl.2.2 h.self.woven.1
    have helement := ofChars_eq_shape element h.of_array hl.2.2
    rw [shape, ← helement]
    exact (ofChars_array h.self hl.1 hl.2.1 hwhole).1
  | parenthesized text inner, h, hl => by
    rw [Legible] at hl
    have hinner := ofChars_eq_shape inner h.of_parenthesized hl.2.2
    rw [shape, ← hinner]
    exact (ofChars_parenthesized h.self hl.1 hl.2.1).1
  | union text operands, h, hl => by
    rw [Legible] at hl
    have hwhole : ∀ type ∈ operands, type.Legible → Whole '|' type.text.toList := fun type htype hlegible =>
      whole_of_legible type (h.of_union htype) hlegible (h.self.woven.1 type htype)
    have hshape := ofChars_eq_shape_of_first operands (fun type htype => h.of_union htype) hl.2
    rw [shape]
    exact ofChars_union h.self hl.1 hl.2 (fun type htype => (h.of_union htype).self.trimmed) hwhole hshape
  | reference text name [], h, hl => by
    rw [Legible] at hl
    obtain ⟨rfl, hnamed⟩ := h.self.woven
    rw [shape]
    cases hname : Primitive.ofName? text with
    | none => exact ofChars_kept h.self (verbatim_name hnamed hl) hname
    | some p =>
      rw [show (reference text text []).text = p.name from Primitive.ofName?_eq_some hname]
      exact Shape.ofChars_primitive p
  | reference text name [arg], h, hl => by
    rw [Legible] at hl
    rw [shape]
    split
    · rename_i hname
      rw [if_pos hname] at hl
      obtain ⟨hangle, hbare, hbalanced, hcommas, hlegible⟩ := hl
      have harg := ofChars_eq_shape arg h.of_generic hlegible
      rw [← harg]
      exact (ofChars_generic h.self hname hangle hbare hbalanced hcommas).1
    · rename_i hname
      rw [if_neg hname] at hl
      obtain ⟨hverbatim, hend⟩ := verbatim_applied h.self.woven hl (.inl hname)
      exact ofChars_kept h.self hverbatim (ofName?_eq_none_of_endsWith hend (by decide))
  | reference text name (arg :: next :: more), h, hl => by
    rw [Legible] at hl
    · simp only [shape]
      obtain ⟨hverbatim, hend⟩ := verbatim_applied h.self.woven hl (.inr (by simp))
      exact ofChars_kept h.self hverbatim (ofName?_eq_none_of_endsWith hend (by decide))
    all_goals simp
  | literal text value, h, hl => by
    simp only [Legible] at hl
    simp only [shape]
    exact ofChars_kept h.self (verbatim_literal h.self hl) h.self.woven.1
  | object text members, h, hl => by
    simp only [Legible] at hl
    simp only [shape]
    have hend : EndsWith text '}' := h.self.woven
    have hbracket := not_brackets_suffix (s := text.toList) (by rw [hend]; decide)
    exact ofChars_kept h.self (verbatim_of_endsWith hend (by decide) hl hbracket)
      (ofName?_eq_none_of_endsWith hend (by decide))
  | tuple text elements, h, hl => by
    simp only [Legible] at hl
    simp only [shape]
    have hend : EndsWith text ']' := h.self.woven
    exact ofChars_kept h.self (verbatim_of_endsWith hend (by decide) hl.1 hl.2)
      (ofName?_eq_none_of_endsWith hend (by decide))
  | intersection text operands, h, hl => by
    simp only [Legible] at hl
    simp only [shape]
    obtain ⟨hverbatim, hname⟩ := verbatim_intersection h.self hl.1 hl.2
    exact ofChars_kept h.self hverbatim hname
  | other text, h, hl => by
    simp only [Legible] at hl
    simp only [shape]
    exact ofChars_kept h.self (verbatim_other hl.1 hl.2.1 hl.2.2) h.self.woven

theorem ofChars_eq_shape_of_first : ∀ operands : List TypeNode, (∀ type ∈ operands, type.AllSpelled) →
    LegibleFirst operands → ∀ type, firstOf operands = some type → Shape.ofChars type.text.toList = type.shape
  | [], _, _, _, htype => by cases htype
  | first :: rest, h, hl, type, htype => by
    obtain ⟨hfirst, hrest⟩ := List.forall_mem_cons.mp h
    rw [LegibleFirst] at hl
    rw [firstOf] at htype
    split at hl
    · rename_i hundefined
      rw [List.find?_cons_of_neg (by simpa using hundefined)] at htype
      exact ofChars_eq_shape_of_first rest hrest hl type htype
    · rename_i hundefined
      rw [List.find?_cons_of_pos (by simpa using hundefined)] at htype
      cases htype
      exact ofChars_eq_shape first hfirst hl.2.2

end

end TypeNode

end DeclSchema.Syntax
