import DeclSchema.Proofs.Json.Writing

/-! # White space between the parts

The two formats differ in white space only, and only outside of strings.
-/
namespace DeclSchema.Json
open Text DeclSchema.Json.Tree

/-- A text without the white space outside of its strings. The flag says whether the text
begins inside a string. -/
def deleteBlanks : Bool → List Char → List Char
  | _, [] => []
  | true, '\\' :: c :: rest => '\\' :: c :: deleteBlanks true rest
  | true, c :: rest => c :: deleteBlanks (c != '"') rest
  | false, c :: rest =>
    if isSpacing c then deleteBlanks false rest else c :: deleteBlanks (c == '"') rest

theorem deleteBlanks_inside {c : Char} (hquote : c ≠ '"') (hslash : c ≠ '\\') (rest : List Char) :
    deleteBlanks true (c :: rest) = c :: deleteBlanks true rest := by
  rw [deleteBlanks.eq_3 _ _ (by rintro d more rfl; exact absurd rfl hslash),
    bne_iff_ne.mpr hquote]

theorem deleteBlanks_spell (c : Char) (rest : List Char) :
    deleteBlanks true (spell c ++ rest) = spell c ++ deleteBlanks true rest := by
  have hdigit : ∀ n, hexDigit n ≠ '"' ∧ hexDigit n ≠ '\\' := by
    intro n
    have hall : ∀ m < 16, Nat.digitChar m ≠ '"' ∧ Nat.digitChar m ≠ '\\' := by decide
    exact hall (n % 16) (Nat.mod_lt n (by decide))
  unfold spell
  split
  any_goals rfl
  rename_i hquote hslash _ _ _ _ _
  split
  · show '\\' :: 'u' :: deleteBlanks true ('0' :: '0' :: hexDigit (c.toNat / 16) :: hexDigit c.toNat :: rest) = _
    rw [deleteBlanks_inside (by decide) (by decide), deleteBlanks_inside (by decide) (by decide),
      deleteBlanks_inside (hdigit _).1 (hdigit _).2, deleteBlanks_inside (hdigit _).1 (hdigit _).2]
    rfl
  · exact deleteBlanks_inside (fun h => hquote h) (fun h => hslash h) rest

theorem deleteBlanks_quoted (s : String) (rest : List Char) :
    deleteBlanks false (quoted s ++ rest) = quoted s ++ deleteBlanks false rest := by
  have hbody : ∀ cs : List Char, deleteBlanks true (cs.flatMap spell ++ ('"' :: rest)) =
      cs.flatMap spell ++ ('"' :: deleteBlanks false rest) := by
    intro cs
    induction cs with
    | nil => rfl
    | cons c cs ih => rw [List.flatMap_cons, List.append_assoc, deleteBlanks_spell, ih, List.append_assoc]
  have hopen := hbody s.toList
  rw [quoted, List.cons_append, List.append_assoc]
  show '"' :: deleteBlanks true _ = _
  rw [List.singleton_append, hopen]
  simp

theorem deleteBlanks_blank {ws : List Char} (hws : ∀ c ∈ ws, isSpacing c = true) (rest : List Char) :
    deleteBlanks false (ws ++ rest) = deleteBlanks false rest := by
  induction ws with
  | nil => rfl
  | cons c ws ih =>
    rw [List.cons_append, deleteBlanks, if_pos (hws c List.mem_cons_self)]
    exact ih fun d hd => hws d (List.mem_cons_of_mem c hd)

theorem deleteBlanks_plain {s : List Char} (hs : ∀ c ∈ s, isSpacing c = false ∧ c ≠ '"')
    (rest : List Char) : deleteBlanks false (s ++ rest) = s ++ deleteBlanks false rest := by
  induction s with
  | nil => rfl
  | cons c s ih =>
    obtain ⟨hspacing, hquote⟩ := hs c List.mem_cons_self
    rw [List.cons_append, deleteBlanks, if_neg (by simp [hspacing]), beq_false_of_ne hquote,
      ih fun d hd => hs d (List.mem_cons_of_mem c hd)]
    rfl

theorem deleteBlanks_mark {c : Char} (hspacing : isSpacing c = false) (hquote : c ≠ '"')
    (rest : List Char) : deleteBlanks false (c :: rest) = c :: deleteBlanks false rest :=
  deleteBlanks_plain (s := [c]) (by simpa using ⟨hspacing, hquote⟩) rest

theorem isSpacing_of_isDigit {c : Char} (h : isDigit c = true) : isSpacing c = false :=
  (BeginsValue.ne (.inr h)).1

variable {sp : Spacing}

/-- Between two marks, without the white space. -/
theorem deleteBlanks_block {before after : Char} (hbefore : isSpacing before = false ∧ before ≠ '"')
    (hafter : isSpacing after = false ∧ after ≠ '"') (depth : ℕ) (parts bare : List (List Char))
    (hempty : parts.isEmpty = bare.isEmpty)
    (hparts : ∀ rest, deleteBlanks false (joinWith (',' :: sp.line (depth + 1)) parts ++ rest) =
      joinWith [','] bare ++ deleteBlanks false rest) (rest : List Char) :
    deleteBlanks false (sp.block before depth parts after ++ rest) =
      enclosed before bare after ++ deleteBlanks false rest := by
  unfold Spacing.block enclosed
  split
  · rename_i h
    obtain rfl : bare = [] := by simpa [h] using hempty
    rw [List.cons_append, deleteBlanks_mark hbefore.1 hbefore.2, List.singleton_append,
      deleteBlanks_mark hafter.1 hafter.2]
    simp [joinWith]
  · simp only [List.cons_append, List.append_assoc, List.nil_append]
    rw [deleteBlanks_mark hbefore.1 hbefore.2, deleteBlanks_blank (sp.isSpacing_line _), hparts,
      deleteBlanks_blank (sp.isSpacing_line _), deleteBlanks_mark hafter.1 hafter.2]

theorem isEmpty_writtenItems (depth : ℕ) (items : List Json) :
    (writtenItems sp depth items).isEmpty = (compactItems items).isEmpty := by
  cases items <;> simp [writtenItems, compactItems]

theorem isEmpty_writtenMembers (depth : ℕ) (members : List (String × Json)) :
    (writtenMembers sp depth members).isEmpty = (compactMembers members).isEmpty := by
  cases members <;> simp [writtenMembers, compactMembers]

theorem deleteBlanks_member (name : String) {text bare rest : List Char}
    (hvalue : deleteBlanks false (text ++ rest) = bare ++ deleteBlanks false rest) :
    deleteBlanks false (quoted name ++ ':' :: (sp.colon ++ text) ++ rest) =
      quoted name ++ ':' :: bare ++ deleteBlanks false rest := by
  simp only [List.append_assoc, List.cons_append]
  rw [deleteBlanks_quoted, deleteBlanks_mark (by decide) (by decide),
    deleteBlanks_blank sp.isSpacing_colon, hvalue]

mutual

/-- Without its white space a written value is the compact text. -/
theorem deleteBlanks_written (depth : ℕ) : ∀ (j : Json) (rest : List Char),
    deleteBlanks false (written sp depth j ++ rest) = j.compactChars ++ deleteBlanks false rest
  | null, rest => rfl
  | boolean true, rest => rfl
  | boolean false, rest => rfl
  | number n, rest => by
    refine deleteBlanks_plain ?_ rest
    intro c hc
    rcases mem_of_isNumber n.isNumber_text c hc with h | h
    · exact ⟨isSpacing_of_isDigit h, ne_of_test h (by decide)⟩
    · have hmarks : ∀ d ∈ ['.', 'e', '+', '-'], isSpacing d = false ∧ d ≠ '"' := by decide
      exact hmarks c h
  | string s, rest => deleteBlanks_quoted s rest
  | array items, rest =>
    deleteBlanks_block (by decide) (by decide) depth _ _ (isEmpty_writtenItems _ items)
      (fun rest => deleteBlanks_items (depth + 1) items (depth + 1) rest) rest
  | object members, rest =>
    deleteBlanks_block (by decide) (by decide) depth _ _ (isEmpty_writtenMembers _ members)
      (fun rest => deleteBlanks_members (depth + 1) members (depth + 1) rest) rest

theorem deleteBlanks_items (depth : ℕ) : ∀ (items : List Json) (line : ℕ) (rest : List Char),
    deleteBlanks false (joinWith (',' :: sp.line line) (writtenItems sp depth items) ++ rest) =
      joinWith [','] (compactItems items) ++ deleteBlanks false rest
  | [], _, _ => rfl
  | [item], _, rest => deleteBlanks_written depth item rest
  | item :: next :: items, line, rest => by
    rw [writtenItems, writtenItems, joinWith_cons_cons, ← writtenItems, compactItems, compactItems,
      joinWith_cons_cons, ← compactItems]
    simp only [List.append_assoc, List.cons_append, List.nil_append]
    rw [deleteBlanks_written depth item _, deleteBlanks_mark (by decide) (by decide),
      deleteBlanks_blank (sp.isSpacing_line line),
      deleteBlanks_items depth (next :: items) line rest]

theorem deleteBlanks_members (depth : ℕ) : ∀ (members : List (String × Json)) (line : ℕ)
    (rest : List Char),
    deleteBlanks false (joinWith (',' :: sp.line line) (writtenMembers sp depth members) ++ rest) =
      joinWith [','] (compactMembers members) ++ deleteBlanks false rest
  | [], _, _ => rfl
  | [(name, value)], _, rest =>
    deleteBlanks_member name (deleteBlanks_written depth value rest)
  | (name, value) :: (next, inner) :: members, line, rest => by
    rw [writtenMembers, writtenMembers, joinWith_cons_cons, ← writtenMembers, compactMembers,
      compactMembers, joinWith_cons_cons, ← compactMembers, List.append_assoc,
      deleteBlanks_member name (deleteBlanks_written depth value _)]
    simp only [List.append_assoc, List.cons_append, List.nil_append]
    rw [deleteBlanks_mark (by decide) (by decide), deleteBlanks_blank (sp.isSpacing_line line),
      deleteBlanks_members depth ((next, inner) :: members) line rest]

end

theorem deleteBlanks_indented (j : Json) : deleteBlanks false j.indented.toList = j.compact.toList := by
  have hwritten : deleteBlanks false (written .indented 0 j ++ []) = j.compactChars ++ [] :=
    deleteBlanks_written 0 j []
  rw [List.append_nil, written_indented, List.append_nil] at hwritten
  rw [indented, compact, String.toList_ofList, String.toList_ofList, hwritten]

end DeclSchema.Json
