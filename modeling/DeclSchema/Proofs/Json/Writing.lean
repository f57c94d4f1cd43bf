import DeclSchema.Proofs.Json.Numbers

/-! # Reading what was written

Both formats are one way of writing with different white space between the parts. Whatever
that white space is, a reader finds the value again, and without it the compact text is left.
-/
namespace DeclSchema.Json
open Text DeclSchema.Json.Tree

/-- The white space of a format: what stands before an element at a depth, and what stands
before the value of a member. -/
structure Spacing where
  line : ℕ → List Char
  colon : List Char
  isSpacing_line : ∀ depth, ∀ c ∈ line depth, isSpacing c = true
  isSpacing_colon : ∀ c ∈ colon, isSpacing c = true

def Spacing.none : Spacing where
  line _ := []
  colon := []
  isSpacing_line _ _ h := by cases h
  isSpacing_colon _ h := by cases h

theorem isSpacing_newLine (depth : ℕ) : ∀ c ∈ newLine depth, isSpacing c = true := by
  intro c hc
  rcases List.mem_cons.mp hc with rfl | hc
  · decide
  · rw [List.eq_of_mem_replicate hc]
    decide

def Spacing.indented : Spacing where
  line := newLine
  colon := [' ']
  isSpacing_line := isSpacing_newLine
  isSpacing_colon := by decide

def Spacing.block (sp : Spacing) (before : Char) (depth : ℕ) (parts : List (List Char))
    (after : Char) : List Char :=
  if parts.isEmpty then [before, after]
  else
    before :: (sp.line (depth + 1) ++ joinWith (',' :: sp.line (depth + 1)) parts
      ++ sp.line depth ++ [after])

mutual

def written (sp : Spacing) (depth : ℕ) : Json → List Char
  | null => "null".toList
  | boolean b => boolText b
  | number n => n.text.toList
  | string s => quoted s
  | array items => sp.block '[' depth (writtenItems sp (depth + 1) items) ']'
  | object members => sp.block '{' depth (writtenMembers sp (depth + 1) members) '}'

def writtenItems (sp : Spacing) (depth : ℕ) : List Json → List (List Char)
  | [] => []
  | item :: rest => written sp depth item :: writtenItems sp depth rest

def writtenMembers (sp : Spacing) (depth : ℕ) : List (String × Json) → List (List Char)
  | [] => []
  | (name, value) :: rest =>
    (quoted name ++ ':' :: (sp.colon ++ written sp depth value)) :: writtenMembers sp depth rest

end

theorem block_none (before : Char) (depth : ℕ) (parts : List (List Char)) (after : Char) :
    Spacing.none.block before depth parts after = enclosed before parts after := by
  unfold Spacing.block enclosed
  cases parts with
  | nil => rfl
  | cons part rest => simp [Spacing.none]

mutual

theorem written_none (depth : ℕ) : ∀ j : Json, written .none depth j = j.compactChars
  | null | boolean _ | number _ | string _ => rfl
  | array items => by rw [written, compactChars, block_none, writtenItems_none]
  | object members => by rw [written, compactChars, block_none, writtenMembers_none]

theorem writtenItems_none (depth : ℕ) :
    ∀ items : List Json, writtenItems .none depth items = compactItems items
  | [] => rfl
  | item :: rest => by rw [writtenItems, compactItems, written_none, writtenItems_none]

theorem writtenMembers_none (depth : ℕ) :
    ∀ members : List (String × Json), writtenMembers .none depth members = compactMembers members
  | [] => rfl
  | (name, value) :: rest => by
    rw [writtenMembers, compactMembers, written_none, writtenMembers_none]
    rfl

end

mutual

theorem written_indented (depth : ℕ) : ∀ j : Json, written .indented depth j = j.indentedChars depth
  | null | boolean _ | number _ | string _ => rfl
  | array items => by
    rw [written, indentedChars, writtenItems_indented]
    rfl
  | object members => by
    rw [written, indentedChars, writtenMembers_indented]
    rfl

theorem writtenItems_indented (depth : ℕ) :
    ∀ items : List Json, writtenItems .indented depth items = indentedItems depth items
  | [] => rfl
  | item :: rest => by rw [writtenItems, indentedItems, written_indented, writtenItems_indented]

theorem writtenMembers_indented (depth : ℕ) :
    ∀ members : List (String × Json), writtenMembers .indented depth members = indentedMembers depth members
  | [] => rfl
  | (name, value) :: rest => by
    rw [writtenMembers, indentedMembers, written_indented, writtenMembers_indented]
    rfl

end

mutual

def tree : Json → Tree
  | null => .null
  | boolean b => .boolean b
  | number n => .number n.text
  | string s => .string s
  | array items => .array (treeItems items)
  | object members => .object (treeMembers members)

def treeItems : List Json → List Tree
  | [] => []
  | item :: rest => tree item :: treeItems rest

def treeMembers : List (String × Json) → List (String × Tree)
  | [] => []
  | (name, value) :: rest => (name, tree value) :: treeMembers rest

end

theorem digitsValue_control : ∀ n < 32,
    unit? ['0', '0', hexDigit (n / 16), hexDigit n] = some n := by decide

theorem readString_control {n : ℕ} (hn : n < 32) (c : Char) (hc : c.toNat = n) (rest : List Char) :
    readString (['\\', 'u', '0', '0', hexDigit (n / 16), hexDigit n] ++ rest) =
      (readString rest).map fun (s, after) => (c :: s, after) := by
  subst hc
  show readString ('\\' :: 'u' :: '0' :: '0' :: hexDigit (c.toNat / 16) :: hexDigit c.toNat :: rest) = _
  rw [readString, digitsValue_control c.toNat hn, Option.bind_some, Escape.scalar?_toNat]

theorem readString_plain {c : Char} (hquote : c ≠ '"') (hslash : c ≠ '\\') (hc : ¬ c.toNat < 0x20)
    (rest : List Char) :
    readString (c :: rest) = (readString rest).map fun (s, after) => (c :: s, after) := by
  rw [readString.eq_4 _ _ (by intros; simp_all) (by intros; simp_all)]
  simp [hquote, hslash, hc]

/-- A character in a string is read as it was spelled. -/
theorem readString_spell (c : Char) (rest : List Char) :
    readString (spell c ++ rest) = (readString rest).map fun (s, after) => (c :: s, after) := by
  unfold spell
  split
  any_goals rfl
  rename_i hquote hslash _ _ _ _ _
  split
  · rename_i hc
    exact readString_control hc c rfl rest
  · rename_i hc
    exact readString_plain (fun h => hquote h) (fun h => hslash h) hc rest

theorem readString_quoted (s : String) (rest : List Char) :
    readString (s.toList.flatMap spell ++ '"' :: rest) = some (s.toList, rest) := by
  induction s.toList with
  | nil => rfl
  | cons c more ih =>
    rw [List.flatMap_cons, List.append_assoc, readString_spell, ih]
    rfl

def EndsValue (rest : List Char) : Prop :=
  ∀ c, rest.head? = some c → c = ',' ∨ c = ']' ∨ c = '}' ∨ isSpacing c = true

theorem EndsValue.endsNumber {rest : List Char} (h : EndsValue rest) : EndsNumber rest := by
  intro c hc
  have hspacing : ∀ d ∈ [' ', '\t', '\n', '\r'], isDigit d = false ∧ d ≠ '.' ∧ d ≠ 'e' ∧ d ≠ 'E' := by
    decide
  rcases h c hc with rfl | rfl | rfl | h
  any_goals decide
  exact hspacing c (by simpa [isSpacing, or_assoc] using h)

theorem endsValue_append {ws : List Char} (hws : ∀ c ∈ ws, isSpacing c = true) {mark : Char}
    (hmark : mark = ',' ∨ mark = ']' ∨ mark = '}') (rest : List Char) :
    EndsValue (ws ++ mark :: rest) := by
  intro c hc
  cases ws with
  | cons d ws =>
    obtain rfl : d = c := by simpa using hc
    exact .inr (.inr (.inr (hws d List.mem_cons_self)))
  | nil =>
    obtain rfl : mark = c := by simpa using hc
    rcases hmark with h | h | h <;> simp [h]

theorem endsValue_comma (rest : List Char) : EndsValue (',' :: rest) :=
  endsValue_append (List.forall_mem_nil _) (.inl rfl) rest

theorem skip_append {ws : List Char} (hws : ∀ c ∈ ws, isSpacing c = true) (s : List Char) :
    skip (ws ++ s) = skip s :=
  List.dropWhile_append_of_pos hws

theorem skip_cons {c : Char} (hc : isSpacing c = false) (s : List Char) : skip (c :: s) = c :: s := by
  rw [skip, List.dropWhile_cons_of_neg (by simp [hc])]

theorem skip_append_cons {ws : List Char} (hws : ∀ c ∈ ws, isSpacing c = true) {c : Char}
    (hc : isSpacing c = false) (s : List Char) : skip (ws ++ c :: s) = c :: s := by
  rw [skip_append hws, skip_cons hc]

def BeginsValue (c : Char) : Prop := c ∈ ['n', 't', 'f', '-', '"', '[', '{'] ∨ isDigit c = true

theorem BeginsValue.ne {c : Char} (h : BeginsValue c) :
    isSpacing c = false ∧ c ≠ ']' ∧ c ≠ '}' := by
  have hmarks : ∀ d ∈ ['n', 't', 'f', '-', '"', '[', '{'], isSpacing d = false ∧ d ≠ ']' ∧ d ≠ '}' := by
    decide
  rcases h with h | h
  · exact hmarks c h
  · refine ⟨?_, ne_of_test h (by decide), ne_of_test h (by decide)⟩
    simp only [isSpacing, Bool.or_eq_false_iff, beq_eq_false_iff_ne]
    exact ⟨⟨⟨ne_of_test h (by decide), ne_of_test h (by decide)⟩,
      ne_of_test h (by decide)⟩, ne_of_test h (by decide)⟩

theorem exists_block (sp : Spacing) (before : Char) (depth : ℕ) (parts : List (List Char))
    (after : Char) : ∃ more, sp.block before depth parts after = before :: more := by
  unfold Spacing.block
  split <;> exact ⟨_, rfl⟩

theorem exists_head_written (sp : Spacing) (depth : ℕ) (j : Json) :
    ∃ c more, written sp depth j = c :: more ∧ BeginsValue c := by
  cases j with
  | null => exact ⟨'n', _, rfl, .inl (by decide)⟩
  | boolean b =>
    cases b with
    | true => exact ⟨'t', _, rfl, .inl (by decide)⟩
    | false => exact ⟨'f', _, rfl, .inl (by decide)⟩
  | number n =>
    obtain ⟨c, more, htext, hc⟩ := exists_head_of_isNumber n.isNumber_text
    refine ⟨c, more, htext, ?_⟩
    rcases hc with hc | rfl
    · exact .inr hc
    · exact .inl (by decide)
  | string s => exact ⟨'"', _, rfl, .inl (by decide)⟩
  | array items =>
    obtain ⟨more, hmore⟩ := exists_block sp '[' depth (writtenItems sp (depth + 1) items) ']'
    exact ⟨'[', more, hmore, .inl (by decide)⟩
  | object members =>
    obtain ⟨more, hmore⟩ := exists_block sp '{' depth (writtenMembers sp (depth + 1) members) '}'
    exact ⟨'{', more, hmore, .inl (by decide)⟩

theorem readWord_number {c : Char} (hc : isDigit c = true ∨ c = '-') (s : List Char) :
    readWord (c :: s) = none := by
  have hne : c ≠ 'n' ∧ c ≠ 't' ∧ c ≠ 'f' := by
    rcases hc with hc | rfl
    · exact ⟨ne_of_test hc (by decide), ne_of_test hc (by decide), ne_of_test hc (by decide)⟩
    · decide
  simp [readWord, words, afterHead?, hne.1.symm, hne.2.1.symm, hne.2.2.symm]

theorem readValue_number {s rest : List Char} (hs : IsNumber s) (hr : EndsNumber rest) (steps : ℕ) :
    readValue (steps + 1) (s ++ rest) = some (.number (String.ofList s), rest) := by
  obtain ⟨c, more, rfl, hc⟩ := exists_head_of_isNumber hs
  have hbegins : BeginsValue c := by
    rcases hc with hc | rfl
    · exact .inr hc
    · exact .inl (by decide)
  have hmarks : c ≠ '[' ∧ c ≠ '{' ∧ c ≠ '"' := by
    rcases hc with hc | rfl
    · exact ⟨ne_of_test hc (by decide), ne_of_test hc (by decide), ne_of_test hc (by decide)⟩
    · decide
  rw [readValue, List.cons_append, skip_cons hbegins.ne.1]
  split
  · rename_i h
    cases h
    exact absurd rfl hmarks.1
  · rename_i h
    cases h
    exact absurd rfl hmarks.2.1
  · rename_i h
    cases h
    exact absurd rfl hmarks.2.2
  · rw [readWord_number hc, ← List.cons_append, readNumber_append hs hr]
    rfl

theorem readValue_string (s : String) (steps : ℕ) (rest : List Char) :
    readValue (steps + 1) (quoted s ++ rest) = some (.string s, rest) := by
  have hread : readString (s.toList.flatMap spell ++ ['"'] ++ rest) = some (s.toList, rest) := by
    rw [List.append_assoc]
    exact readString_quoted s rest
  rw [quoted, List.cons_append, readValue, skip_cons (by decide)]
  show (readString (s.toList.flatMap spell ++ ['"'] ++ rest)).map _ = _
  rw [hread, Option.map_some]
  show some (Tree.string (String.ofList s.toList), rest) = _
  rw [String.ofList_toList]

theorem joinWith_cons_cons (mark a b : List Char) (parts : List (List Char)) :
    joinWith mark (a :: b :: parts) = a ++ (mark ++ joinWith mark (b :: parts)) := by
  rw [joinWith.eq_3 _ _ _ (by simp), List.append_assoc]

/-- Where the parts begin, neither white space nor a closing mark stands. -/
theorem skip_parts {ws : List Char} {c : Char} {more : List Char}
    (hws : ∀ c ∈ ws, isSpacing c = true) (part : List Char) (hpart : part = c :: more) (hc : BeginsValue c)
    (mark : List Char) (parts : List (List Char)) (rest : List Char) :
    ∃ tail, skip (ws ++ (joinWith mark (part :: parts) ++ rest)) = c :: tail := by
  subst hpart
  rw [skip_append hws]
  cases parts with
  | nil => exact ⟨_, skip_cons hc.ne.1 _⟩
  | cons b parts =>
    rw [joinWith_cons_cons]
    exact ⟨_, skip_cons hc.ne.1 _⟩

theorem readValue_items {steps : ℕ} {s tail : List Char} {c : Char} (hs : skip s = c :: tail)
    (hc : BeginsValue c) : readValue (steps + 1) ('[' :: s) =
      (readItems steps s).map fun (items, after) => (.array items, after) := by
  rw [readValue, skip_cons (by decide)]
  simp only [hs]
  split
  · rename_i h
    cases h
    exact absurd rfl hc.ne.2.1
  · rfl

theorem readValue_members {steps : ℕ} {s tail : List Char} {c : Char} (hs : skip s = c :: tail)
    (hc : BeginsValue c) : readValue (steps + 1) ('{' :: s) =
      (readMembers steps s).map fun (members, after) => (.object members, after) := by
  rw [readValue, skip_cons (by decide)]
  simp only [hs]
  split
  · rename_i h
    cases h
    exact absurd rfl hc.ne.2.2
  · rfl

section Steps
variable {steps : ℕ} {s rest more : List Char} {item value : Tree} {name : String}

theorem readItems_last (hitem : readValue steps s = some (item, rest))
    (hrest : skip rest = ']' :: more) : readItems (steps + 1) s = some ([item], more) := by
  simp [readItems, hitem, hrest]

theorem readItems_comma (hitem : readValue steps s = some (item, rest))
    (hrest : skip rest = ',' :: more) : readItems (steps + 1) s =
      (readItems steps more).map fun (items, after) => (item :: items, after) := by
  simp [readItems, hitem, hrest]

theorem readMembers_last {after : List Char} (hname : readString s = some (name.toList, ':' :: after))
    (hitem : readValue steps after = some (item, rest)) (hrest : skip rest = '}' :: more) :
    readMembers (steps + 1) ('"' :: s) = some ([(name, item)], more) := by
  simp [readMembers, skip_cons (show isSpacing '"' = false by decide), hname,
    skip_cons (show isSpacing ':' = false by decide), hitem, hrest]

theorem readMembers_comma {after : List Char} (hname : readString s = some (name.toList, ':' :: after))
    (hitem : readValue steps after = some (item, rest)) (hrest : skip rest = ',' :: more) :
    readMembers (steps + 1) ('"' :: s) =
      (readMembers steps more).map fun (members, after) => ((name, item) :: members, after) := by
  simp [readMembers, skip_cons (show isSpacing '"' = false by decide), hname,
    skip_cons (show isSpacing ':' = false by decide), hitem, hrest]

end Steps

theorem readItems_skip (steps : ℕ) {ws : List Char} (hws : ∀ c ∈ ws, isSpacing c = true)
    (s : List Char) : readItems steps (ws ++ s) = readItems steps s := by
  cases steps with
  | zero => rfl
  | succ steps =>
    cases steps with
    | zero => rfl
    | succ steps => rw [readItems, readItems, readValue, readValue, skip_append hws]

theorem readMembers_skip (steps : ℕ) {ws : List Char} (hws : ∀ c ∈ ws, isSpacing c = true)
    (s : List Char) : readMembers steps (ws ++ s) = readMembers steps s := by
  cases steps with
  | zero => rfl
  | succ steps => rw [readMembers, readMembers, skip_append hws]

theorem readValue_skip (steps : ℕ) {ws : List Char} (hws : ∀ c ∈ ws, isSpacing c = true)
    (s : List Char) : readValue steps (ws ++ s) = readValue steps s := by
  cases steps with
  | zero => rfl
  | succ steps => rw [readValue, readValue, skip_append hws]

variable {sp : Spacing}

theorem block_cons (before : Char) (depth : ℕ) (part : List Char) (parts : List (List Char))
    (after : Char) (rest : List Char) :
    sp.block before depth (part :: parts) after ++ rest =
      before :: (sp.line (depth + 1) ++ (joinWith (',' :: sp.line (depth + 1)) (part :: parts)
        ++ (sp.line depth ++ after :: rest))) := by
  simp [Spacing.block]

theorem length_block_cons (sp : Spacing) (before : Char) (depth : ℕ) (part : List Char)
    (parts : List (List Char)) (after : Char) :
    (joinWith (',' :: sp.line (depth + 1)) (part :: parts)).length + 2 ≤
      (sp.block before depth (part :: parts) after).length := by
  simp only [Spacing.block, List.isEmpty_cons, Bool.false_eq_true, if_false, List.length_cons,
    List.length_append]
  omega

mutual

/-- A reader finds a written value again and stops right behind it. -/
theorem readValue_written (depth : ℕ) : ∀ (j : Json) (steps : ℕ) (rest : List Char),
    (written sp depth j).length ≤ steps → EndsValue rest →
    readValue (steps + 1) (written sp depth j ++ rest) = some (j.tree, rest)
  | null, _, _, _, _ => rfl
  | boolean true, _, _, _, _ => rfl
  | boolean false, _, _, _, _ => rfl
  | number n, _, _, _, hrest => by
    rw [written, readValue_number n.isNumber_text hrest.endsNumber, String.ofList_toList]
    rfl
  | string s, _, _, _, _ => readValue_string s _ _
  | array [], _, _, _, _ => rfl
  | object [], _, _, _, _ => rfl
  | array (item :: items), steps, rest, hsteps, _ => by
    obtain ⟨c, more, hpart, hc⟩ := exists_head_written sp (depth + 1) item
    have hlength := length_block_cons sp '[' depth (written sp (depth + 1) item)
      (writtenItems sp (depth + 1) items) ']'
    rw [written, writtenItems] at hsteps ⊢
    obtain ⟨steps, rfl⟩ : ∃ k, steps = k + 1 := ⟨steps - 1, by omega⟩
    obtain ⟨tail, htail⟩ := skip_parts (sp.isSpacing_line (depth + 1)) _ hpart hc
      (',' :: sp.line (depth + 1)) (writtenItems sp (depth + 1) items) (sp.line depth ++ ']' :: rest)
    rw [block_cons, readValue_items htail hc, readItems_skip _ (sp.isSpacing_line _)]
    have hitems := readItems_written (depth + 1) (item :: items) steps rest
      (by simp) (sp.isSpacing_line (depth + 1)) (sp.isSpacing_line depth) (by rw [writtenItems]; omega)
    rw [writtenItems] at hitems
    rw [hitems]
    rfl
  | object ((name, value) :: members), steps, rest, hsteps, _ => by
    have hlength := length_block_cons sp '{' depth
      (quoted name ++ ':' :: (sp.colon ++ written sp (depth + 1) value))
      (writtenMembers sp (depth + 1) members) '}'
    rw [written, writtenMembers] at hsteps ⊢
    obtain ⟨steps, rfl⟩ : ∃ k, steps = k + 1 := ⟨steps - 1, by omega⟩
    have hc : BeginsValue '"' := .inl (by decide)
    obtain ⟨tail, htail⟩ := skip_parts (sp.isSpacing_line (depth + 1))
      (quoted name ++ ':' :: (sp.colon ++ written sp (depth + 1) value)) rfl hc
      (',' :: sp.line (depth + 1)) (writtenMembers sp (depth + 1) members)
      (sp.line depth ++ '}' :: rest)
    rw [block_cons, readValue_members htail hc, readMembers_skip _ (sp.isSpacing_line _)]
    have hmembers := readMembers_written (depth + 1) ((name, value) :: members) steps
      rest (by simp) (sp.isSpacing_line (depth + 1)) (sp.isSpacing_line depth)
      (by rw [writtenMembers]; omega)
    rw [writtenMembers] at hmembers
    rw [hmembers]
    rfl

theorem readItems_written (depth : ℕ) : ∀ (items : List Json) (steps : ℕ)
    (rest : List Char) {ws before : List Char}, items ≠ [] →
    (∀ c ∈ ws, isSpacing c = true) → (∀ c ∈ before, isSpacing c = true) →
    (joinWith (',' :: ws) (writtenItems sp depth items)).length < steps →
    readItems (steps + 1) (joinWith (',' :: ws) (writtenItems sp depth items)
      ++ (before ++ ']' :: rest)) = some (treeItems items, rest)
  | [], _, _, _, _, hne, _, _, _ => absurd rfl hne
  | [item], steps, rest, ws, before, _, hws, hbefore, hsteps => by
    obtain ⟨steps, rfl⟩ : ∃ k, steps = k + 1 := ⟨steps - 1, by omega⟩
    have hvalue := readValue_written depth item steps (before ++ ']' :: rest)
      (by simpa [writtenItems, joinWith, Nat.lt_succ_iff] using hsteps)
      (endsValue_append hbefore (.inr (.inl rfl)) rest)
    rw [writtenItems, writtenItems, joinWith]
    rw [readItems_last hvalue (skip_append_cons hbefore (by decide) rest)]
    rfl
  | item :: next :: items, steps, rest, ws, before, _, hws, hbefore, hsteps => by
    obtain ⟨steps, rfl⟩ : ∃ k, steps = k + 1 := ⟨steps - 1, by omega⟩
    rw [writtenItems, writtenItems, joinWith_cons_cons] at hsteps ⊢
    rw [← writtenItems] at hsteps ⊢
    simp only [List.length_append, List.length_cons] at hsteps
    have hvalue := readValue_written depth item steps
      (',' :: (ws ++ (joinWith (',' :: ws) (writtenItems sp depth (next :: items))
        ++ (before ++ ']' :: rest)))) (by omega) (endsValue_comma _)
    have hitems := readItems_written depth (next :: items) steps rest (by simp)
      hws hbefore (by omega)
    rw [List.append_assoc, List.append_assoc, List.cons_append,
      readItems_comma hvalue (skip_cons (by decide) _), readItems_skip _ hws, hitems]
    rfl

theorem readMembers_written (depth : ℕ) : ∀ (members : List (String × Json)) (steps : ℕ)
    (rest : List Char) {ws before : List Char}, members ≠ [] →
    (∀ c ∈ ws, isSpacing c = true) → (∀ c ∈ before, isSpacing c = true) →
    (joinWith (',' :: ws) (writtenMembers sp depth members)).length < steps →
    readMembers (steps + 1) (joinWith (',' :: ws) (writtenMembers sp depth members)
      ++ (before ++ '}' :: rest)) = some (treeMembers members, rest)
  | [], _, _, _, _, hne, _, _, _ => absurd rfl hne
  | [(name, value)], steps, rest, ws, before, _, hws, hbefore, hsteps => by
    obtain ⟨steps, rfl⟩ : ∃ k, steps = k + 1 := ⟨steps - 1, by omega⟩
    rw [writtenMembers, writtenMembers, joinWith] at hsteps ⊢
    simp only [quoted, List.length_append, List.length_cons] at hsteps
    have hvalue := readValue_written depth value steps (before ++ '}' :: rest)
      (by omega) (endsValue_append hbefore (.inr (.inr rfl)) rest)
    simp only [quoted, List.cons_append, List.append_assoc, List.nil_append]
    rw [← readValue_skip _ sp.isSpacing_colon] at hvalue
    rw [readMembers_last (readString_quoted name _) hvalue (skip_append_cons hbefore (by decide) rest)]
    rfl
  | (name, value) :: (next, inner) :: members, steps, rest, ws, before, _, hws, hbefore, hsteps => by
    obtain ⟨steps, rfl⟩ : ∃ k, steps = k + 1 := ⟨steps - 1, by omega⟩
    rw [writtenMembers, writtenMembers, joinWith_cons_cons] at hsteps ⊢
    rw [← writtenMembers] at hsteps ⊢
    simp only [quoted, List.length_append, List.length_cons] at hsteps
    have hvalue := readValue_written depth value steps
      (',' :: (ws ++ (joinWith (',' :: ws) (writtenMembers sp depth ((next, inner) :: members))
        ++ (before ++ '}' :: rest)))) (by omega) (endsValue_comma _)
    have hmembers := readMembers_written depth ((next, inner) :: members) steps rest
      (by simp) hws hbefore (by omega)
    simp only [quoted, List.cons_append, List.append_assoc, List.nil_append]
    rw [← readValue_skip _ sp.isSpacing_colon] at hvalue
    rw [readMembers_comma (readString_quoted name _) hvalue (skip_cons (by decide) _),
      readMembers_skip _ hws, hmembers]
    rfl

end

theorem read?_written (j : Json) : read? (String.ofList (written sp 0 j)) = some j.tree := by
  have hend : EndsValue [] := by
    intro c hc
    cases hc
  have hread := readValue_written 0 j (written sp 0 j).length [] (le_refl _) hend
  rw [List.append_nil] at hread
  rw [read?, String.toList_ofList, hread]
  rfl

theorem read?_compact (j : Json) : read? j.compact = some j.tree := by
  rw [compact, ← written_none 0, read?_written]

theorem read?_indented (j : Json) : read? j.indented = some j.tree := by
  rw [indented, ← written_indented, read?_written]

end DeclSchema.Json
