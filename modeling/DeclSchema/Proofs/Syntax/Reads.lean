import DeclSchema.Proofs.Syntax.SteadyStatements
import DeclSchema.Proofs.Syntax.WrittenTexts

/-! # Readers of a known text

In front of a text that was written out a reader takes exactly this text, if what follows does
not go on with it. Such readers are put together along the text: names, strings, and entries that
a mark separates.
-/
namespace DeclSchema.Syntax
open Text

theorem isSpace_nil : IsSpace [] := by simp [IsSpace]

theorem isSpace_single : IsSpace [' '] := by simp [IsSpace]

theorem isClear_of_isSpace {gap : List Char} (h : IsSpace gap) : ∀ c ∈ gap, isClear c = true := by
  intro c hc
  rcases h c hc with rfl | rfl <;> decide

theorem noGap_mark {m : Char} (hm : m ∈ loneMarks) (rest : List Char) : NoGap (m :: rest) := by
  have hall : ∀ m ∈ loneMarks, isGapChar m = false ∧ m ≠ '/' := by decide
  rintro c hc
  cases hc
  exact hall m hm

structure FollowedBy (marks rest : List Char) : Prop where
  clear : Clear rest
  mark : ∃ gap m more, rest = gap ++ m :: more ∧ IsSpace gap ∧ m ∈ marks

def typeEnds : List Char := [';', ',', '>', ')']

def operandEnds : List Char := '|' :: typeEnds

def primaryEnds : List Char := '[' :: operandEnds

namespace FollowedBy
variable {marks marks' rest : List Char} {finish : Nat} {found : List Item}

theorem mono (h : FollowedBy marks rest) (hsub : marks ⊆ marks') : FollowedBy marks' rest := by
  obtain ⟨gap, m, more, hrest, hgap, hm⟩ := h.mark
  exact ⟨h.clear, gap, m, more, hrest, hgap, hsub hm⟩

theorem of_gap {gap : List Char} {m : Char} (hgap : IsSpace gap) (hm : m ∈ marks) (h : Clear rest)
    (hclear : isClear m = true) : FollowedBy marks (gap ++ m :: rest) :=
  ⟨(Clear.char hclear h).prepend (isClear_of_isSpace hgap), gap, m, rest, rfl, hgap, hm⟩

theorem of_mark {m : Char} (hm : m ∈ marks) (h : Clear rest) (hclear : isClear m = true) :
    FollowedBy marks (m :: rest) :=
  of_gap isSpace_nil hm h hclear

theorem endsName (h : FollowedBy marks rest) (hmarks : marks ⊆ loneMarks) : EndsName rest := by
  obtain ⟨gap, m, more, rfl, hgap, hm⟩ := h.mark
  cases gap with
  | nil =>
    have hsub : loneMarks ⊆
        [' ', '\n', ';', ',', '{', '}', '(', ')', '[', ']', ':', '<', '>', '|', '?'] := by decide
    exact endsName_of_mem (hsub (hmarks hm)) more
  | cons c gap =>
    refine endsName_of_mem ?_ _
    rcases hgap c (by simp) with rfl | rfl <;> decide

theorem token (h : FollowedBy marks rest) (hmarks : marks ⊆ loneMarks) (hle : rest.length ≤ finish) :
    ∃ m ∈ marks, (State.facing finish found rest).token = ⟨.mark, [m]⟩ := by
  obtain ⟨gap, m, more, rfl, hgap, hm⟩ := h.mark
  have hat := at_facing found hgap (noGap_mark (hmarks hm) more) hle
  exact ⟨m, hm, by rw [hat.token_eq, readToken_mark (hmarks hm)]⟩

theorem not_isMark (h : FollowedBy marks rest) (hmarks : marks ⊆ loneMarks)
    (hle : rest.length ≤ finish) {mark : String} (hnot : ∀ m ∈ marks, [m] ≠ mark.toList) :
    (State.facing finish found rest).token.isMark mark = false := by
  obtain ⟨m, hm, htoken⟩ := h.token hmarks hle
  rw [htoken]
  simpa [Token.isMark] using hnot m hm

theorem not_isWord (h : FollowedBy marks rest) (hmarks : marks ⊆ loneMarks)
    (hle : rest.length ≤ finish) (word : String) :
    (State.facing finish found rest).token.isWord word = false := by
  obtain ⟨m, hm, htoken⟩ := h.token hmarks hle
  rw [htoken]
  rfl

end FollowedBy

/-- In front of this text the reader takes exactly the text and gives this value. -/
def Reads {α : Type} (p : Parser α) (text : List Char) (Follows : List Char → Prop) (a : α) : Prop :=
  ∀ ⦃scope s finish found rest⦄, Follows rest → s.At finish found (text ++ rest) →
    p scope s = .ok (a, .facing finish found rest)

section Marks
variable {s : State} {finish : Nat} {found : List Item} {rest gap word : List Char}

theorem State.At.token_mark {m : Char} (h : s.At finish found (m :: rest)) (hm : m ∈ loneMarks) :
    s.token = ⟨.mark, [m]⟩ := by rw [h.token_eq, readToken_mark hm]

theorem State.At.next_mark {m : Char} (h : s.At finish found (m :: rest)) (hm : m ∈ loneMarks) :
    s.next = .facing finish found rest :=
  have hat : s.At finish found ([m] ++ rest) := h
  hat.next_eq (by rw [h.token_mark hm])

theorem State.At.isMark {m : Char} (h : s.At finish found (m :: rest)) (hm : m ∈ loneMarks)
    {mark : String} (hmark : mark.toList = [m]) : s.token.isMark mark = true := by
  rw [h.token_mark hm, Token.isMark, hmark]
  simp

theorem State.At.not_isMark {m : Char} (h : s.At finish found (m :: rest)) (hm : m ∈ loneMarks)
    {mark : String} (hmark : [m] ≠ mark.toList) : s.token.isMark mark = false := by
  rw [h.token_mark hm]
  simpa [Token.isMark] using hmark

theorem accept_at {m : Char} {scope : Scope} (h : s.At finish found (m :: rest)) (hm : m ∈ loneMarks)
    {mark : String} (hmark : mark.toList = [m]) :
    accept mark scope s = .ok (true, .facing finish found rest) := by
  rw [accept_of_isMark (h.isMark hm hmark), h.next_mark hm]

theorem expect_at {m : Char} {scope : Scope} (h : s.At finish found (m :: rest)) (hm : m ∈ loneMarks)
    {mark : String} (hmark : mark.toList = [m]) :
    expect mark scope s = .ok ((), .facing finish found rest) := by
  rw [expect_of_isMark (h.isMark hm hmark), h.next_mark hm]

theorem State.At.token_word (h : s.At finish found (word ++ rest)) (hword : isWord word = true)
    (hrest : EndsName rest) : s.token = ⟨.word, word⟩ := by
  rw [h.token_eq, readToken_word hword hrest]

theorem State.At.next_word (h : s.At finish found (word ++ rest)) (hword : isWord word = true)
    (hrest : EndsName rest) : s.next = .facing finish found rest :=
  h.next_eq (by rw [h.token_word hword hrest])

theorem State.At.isWhole_word (h : s.At finish found (word ++ rest)) (hword : isWord word = true)
    (hrest : EndsName rest) : s.token.isWhole = true :=
  Token.isWhole_of_kind (show s.token.kind = .word by rw [h.token_word hword hrest])

/-- Behind a part of the text the reader stands in front of what follows the gap. -/
theorem State.At.behind {text : List Char} (h : s.At finish found (text ++ (gap ++ rest)))
    (hgap : IsSpace gap) (hrest : NoGap rest) (found' : List Item) :
    (State.facing finish found' (gap ++ rest)).At finish found' rest := by
  refine at_facing _ hgap hrest ?_
  have hle := h.le
  rw [List.length_append] at hle
  omega

end Marks

theorem State.At.behind_mark {s : State} {finish : Nat} {found : List Item} {m : Char}
    {gap rest : List Char} (h : s.At finish found (m :: (gap ++ rest))) (hgap : IsSpace gap)
    (hrest : NoGap rest) (found' : List Item) :
    (State.facing finish found' (gap ++ rest)).At finish found' rest :=
  have hat : s.At finish found ([m] ++ (gap ++ rest)) := h
  hat.behind hgap hrest found'

/-- Behind a part of the text without a gap. -/
theorem State.At.after {s : State} {finish : Nat} {found : List Item} {text rest : List Char}
    (h : s.At finish found (text ++ rest)) (hrest : NoGap rest) (found' : List Item) :
    (State.facing finish found' rest).At finish found' rest :=
  have hat : s.At finish found (text ++ ([] ++ rest)) := h
  hat.behind isSpace_nil hrest found'

theorem State.At.after_mark {s : State} {finish : Nat} {found : List Item} {m : Char}
    {rest : List Char} (h : s.At finish found (m :: rest)) (hrest : NoGap rest) (found' : List Item) :
    (State.facing finish found' rest).At finish found' rest :=
  have hat : s.At finish found ([m] ++ rest) := h
  hat.after hrest found'

/-- In front of a mark nothing lies in between. -/
theorem at_facing_mark {finish : Nat} (found : List Item) {m : Char} {rest : List Char}
    (hm : m ∈ loneMarks) (hle : (m :: rest).length ≤ finish) :
    (State.facing finish found (m :: rest)).At finish found (m :: rest) :=
  have hle : ([] ++ m :: rest).length ≤ finish := hle
  at_facing _ isSpace_nil (noGap_mark hm rest) hle

theorem facing_here_le (finish : Nat) (found : List Item) (rest : List Char) :
    (State.facing finish found rest).here.length ≤ rest.length := by
  obtain ⟨gap, hgap, -⟩ := exists_gap 0 false rest
  have hlength := congrArg List.length hgap
  rw [List.length_append] at hlength
  show (readGap 0 false rest).rest.length ≤ rest.length
  omega

section Names
variable {s : State} {scope : Scope} {finish : Nat} {found : List Item} {rest word : List Char}
  {g : Grammar}

theorem qualifiedName_run (h : s.At finish found (word ++ rest)) (hword : isWord word = true)
    (hrest : EndsName rest) (hpoint : (State.facing finish found rest).token.isMark "." = false) :
    qualifiedName scope s = .ok ((), .facing finish found rest) := by
  have hkind : s.token.kind = .word := by rw [h.token_word hword hrest]
  have hnone : Repeats (do
      if (← atMark ".") && (← following).kind == .word then
        discard take
        discard take
        return some ()
      else return none) scope (.facing finish found rest) [] (.facing finish found rest) := by
    refine .done ?_
    simp only [atMark_bind, following_bind, hpoint, Bool.false_and, Bool.false_eq_true, if_false]
    rfl
  unfold qualifiedName
  rw [bind_of_ok (discard_of_ok (anyWord_of_word hkind)), h.next_word hword hrest]
  exact discard_of_ok hnone.many

theorem expectWord_at {word : String} (h : s.At finish found (word.toList ++ rest))
    (hword : isWord word.toList = true) (hrest : EndsName rest) :
    expectWord word scope s = .ok ((), .facing finish found rest) := by
  have hat : s.token.isWord word = true := by
    rw [h.token_word hword hrest]
    simp [Token.isWord]
  rw [expectWord_of_isWord hat, h.next_word hword hrest]

theorem anyWord_at {name : String} (h : s.At finish found (name.toList ++ rest))
    (hword : isWord name.toList = true) (hrest : EndsName rest) :
    anyWord scope s = .ok (name, .facing finish found rest) := by
  have htoken := h.token_word hword hrest
  rw [anyWord_of_word (by rw [htoken]), h.next_word hword hrest, htoken, String.ofList_toList]

/-- The text of a name taken from here. -/
theorem textTo_word (h : s.At finish found (word ++ rest)) (hword : isWord word = true) :
    s.textTo (.facing finish found rest) = String.ofList word := by
  rw [h.textTo_facing, (Solid.word hword).trimmed.trim_eq]

/-- The text of a type taken from here. -/
theorem textTo_solid (h : s.At finish found (text.toList ++ rest)) (hsolid : Solid text.toList) :
    s.textTo (.facing finish found rest) = text := by
  rw [h.textTo_facing, hsolid.trimmed.trim_eq, String.ofList_toList]

end Names

theorem decode_plain {s : List Char} (h : ∀ c ∈ s, c ≠ '\\') : Escape.decode s = s := by
  induction s with
  | nil => rw [Escape.decode]
  | cons c s ih =>
    obtain ⟨hc, hs⟩ := List.forall_mem_cons.mp h
    rw [Escape.decode.eq_3 _ _ (by simpa using hc), ih hs]

theorem between?_of_marks (mark : Char) (s : List Char) :
    between? mark (mark :: (s ++ [mark])) = some s := by
  have hhead : afterHead? [mark] (mark :: (s ++ [mark])) = some (s ++ [mark]) :=
    afterHead?_eq_some_iff.mpr rfl
  rw [between?, hhead]
  exact beforeTail?_eq_some_iff.mpr rfl

/-- The value of a literal is what stands between its quotes with the escapes resolved. -/
theorem stringValue_marks (quote : Quote) (body : List Char) :
    Escape.stringValue (String.ofList (quote.mark :: (body ++ [quote.mark]))) =
      String.ofList (Escape.decode body) := by
  have hbody : (between? '"' (quote.mark :: (body ++ [quote.mark]))).orElse
      (fun _ => between? '\'' (quote.mark :: (body ++ [quote.mark]))) = some body := by
    cases quote with
    | double =>
      rw [Quote.mark, between?_of_marks]
      rfl
    | single =>
      have hnone : between? '"' ('\'' :: (body ++ ['\''])) = none := rfl
      rw [Quote.mark, hnone, between?_of_marks]
      rfl
  rw [Escape.stringValue, String.toList_ofList, hbody, Option.getD_some]

theorem stringValue_quoted (quote : Quote) {value : String} (h : isPlain value = true) :
    Escape.stringValue (String.ofList (quoted quote value)) = value := by
  have hdecode : Escape.decode value.toList = value.toList := by
    refine decode_plain fun c hc => ?_
    have hnot := (isPlain_chars h quote c hc).2
    rintro rfl
    exact absurd (by decide) hnot
  rw [quoted, stringValue_marks, hdecode, String.ofList_toList]

theorem length_le_flatMap {α : Type} {entries : List α} (text : α → List Char) {entry : α}
    (h : entry ∈ entries) : (text entry).length ≤ (entries.flatMap text).length := by
  rw [List.flatMap_def]
  exact (List.sublist_flatten_of_mem (List.mem_map_of_mem h)).length_le

section Entries
variable {α β : Type} {p : Parser (Option β)} {gap last : List Char} {mark : Char}
  {entries : List α} {values : List β} {scope : Scope} {t : State} {finish : Nat} {found : List Item}
  {rest : List Char}

/-- Entries that begin with a mark are read one after another. -/
theorem repeats_marked {text : α → List Char} (body : α → List Char) (value : α → β)
    (Follows : List Char → Prop) (htext : ∀ entry, text entry = gap ++ mark :: body entry)
    (hgap : IsSpace gap) (hmark : mark ∈ loneMarks) (hlast : Follows rest)
    (hfollows : ∀ entry ∈ entries, ∀ tail, Follows tail → Follows (text entry ++ tail))
    (hstep : ∀ entry ∈ entries, ∀ s tail, Follows tail → s.At finish found (mark :: (body entry ++ tail)) →
      p scope s = .ok (some (value entry), .facing finish found tail))
    (hdone : p scope (.facing finish found rest) = .ok (none, t)) (hvalues : entries.map value = values)
    (hle : (entries.flatMap text ++ rest).length ≤ finish) :
    Repeats p scope (.facing finish found (entries.flatMap text ++ rest)) values t := by
  subst hvalues
  induction entries with
  | nil => exact .done hdone
  | cons entry entries ih =>
    obtain ⟨-, hfollows⟩ := List.forall_mem_cons.mp hfollows
    obtain ⟨hstepFirst, hstep⟩ := List.forall_mem_cons.mp hstep
    have htail : Follows (entries.flatMap text ++ rest) := follows_flatMap hlast hfollows
    generalize htailText : entries.flatMap text ++ rest = tail at ih htail
    have hshape : (entry :: entries).flatMap text ++ rest = gap ++ mark :: (body entry ++ tail) := by
      rw [← htailText, List.flatMap_cons, htext]
      simp
    rw [hshape] at hle ⊢
    have hat := at_facing found hgap (noGap_mark hmark _) hle
    simp only [List.length_append, List.length_cons] at hle
    refine .more (hstepFirst _ tail htail hat) ?_ (ih hfollows hstep (by omega))
    have hshorter := facing_here_le finish found tail
    rw [hat.here]
    simp only [List.length_append, List.length_cons]
    omega

def bracedTail (gap last : List Char) (entries : List (List Char)) (rest : List Char) : List Char :=
  entries.flatMap (gap ++ ·) ++ (last ++ '}' :: rest)

theorem braced_append (entries : List (List Char)) :
    braced gap last entries ++ rest = '{' :: bracedTail gap last entries rest := by
  simp [braced, bracedTail]

theorem bracedTail_cons (entry : List Char) (entries : List (List Char)) :
    bracedTail gap last (entry :: entries) rest = gap ++ (entry ++ bracedTail gap last entries rest) := by
  simp [bracedTail]

theorem bracedTail_clear {entries : List (List Char)} (hgap : IsSpace gap) (hlast : IsSpace last)
    (hentries : ∀ entry ∈ entries, ∀ rest, Clear rest → Clear (entry ++ rest)) (hrest : Clear rest) :
    Clear (bracedTail gap last entries rest) := by
  have hclose : Clear (last ++ '}' :: rest) :=
    (Clear.char (by decide) hrest).prepend (isClear_of_isSpace hlast)
  refine follows_flatMap hclose fun entry hentry rest hrest => ?_
  rw [List.append_assoc]
  exact (hentries entry hentry rest hrest).prepend (isClear_of_isSpace hgap)

/-- A mark behind each entry is a mark in front of each entry and one behind the last. -/
theorem bracedTail_marked (mark : Char) (body : α → List Char) :
    mark :: bracedTail gap last (entries.map fun entry => body entry ++ [mark]) rest =
      entries.flatMap (fun entry => mark :: (gap ++ body entry)) ++ mark :: (last ++ '}' :: rest) := by
  induction entries with
  | nil => rfl
  | cons entry entries ih =>
    rw [List.map_cons, bracedTail_cons, List.flatMap_cons, List.append_assoc (mark :: _), ← ih]
    simp

end Entries

end DeclSchema.Syntax
