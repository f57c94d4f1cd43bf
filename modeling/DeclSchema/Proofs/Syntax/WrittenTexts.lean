import DeclSchema.Proofs.Syntax.Clear

/-! # The texts of ordinary types

Such a text begins and ends with a character of its own, it is clear, and its first token can
only begin a type that is no operator.
-/
namespace DeclSchema.Syntax
open Text

/-- A text with a first and a last character, neither of them white space, that does not begin
with a comment. -/
structure Solid (s : List Char) : Prop where
  head : ∃ c rest, s = c :: rest ∧ isBlank c = false ∧ isGapChar c = false ∧ c ≠ '/'
  last : ∃ front d, s = front ++ [d] ∧ isBlank d = false

section Solid
variable {s t rest : List Char}

theorem Solid.noGap (h : Solid s) (rest : List Char) : NoGap (s ++ rest) := by
  obtain ⟨c, more, rfl, -, hgap, hslash⟩ := h.head
  rintro d hd
  cases hd
  exact ⟨hgap, hslash⟩

theorem Solid.trimmed (h : Solid s) : Trimmed s where
  head d hd := by
    obtain ⟨c, more, rfl, hblank, -⟩ := h.head
    cases hd
    exact hblank
  last d hd := by
    obtain ⟨front, e, rfl, hblank⟩ := h.last
    rw [List.getLast?_concat] at hd
    cases hd
    exact hblank

theorem Solid.append (hs : Solid s) (mid : List Char) (ht : Solid t) : Solid (s ++ (mid ++ t)) where
  head := by
    obtain ⟨c, more, rfl, h⟩ := hs.head
    exact ⟨c, more ++ (mid ++ t), rfl, h⟩
  last := by
    obtain ⟨front, d, rfl, h⟩ := ht.last
    exact ⟨s ++ (mid ++ front), d, by simp, h⟩

theorem Solid.single {c : Char} (hblank : isBlank c = false) (hgap : isGapChar c = false)
    (hslash : c ≠ '/') : Solid [c] where
  head := ⟨c, [], rfl, hblank, hgap, hslash⟩
  last := ⟨[], c, rfl, hblank⟩

theorem isBlank_of_isLetter {c : Char} (h : (isLetter c || isDigit c) = true) :
    isBlank c = false ∧ isGapChar c = false ∧ c ≠ '/' := by
  have hall : ∀ n : Fin 128, (!(isLetter (Char.ofNat n) || isDigit (Char.ofNat n)) ||
      (!isBlank (Char.ofNat n) && !isGapChar (Char.ofNat n) && Char.ofNat n != '/')) = true := by decide
  have hc := of_isLetter (P := fun c => !(isLetter c || isDigit c) ||
    (!isBlank c && !isGapChar c && c != '/')) hall h
  simpa [h, and_assoc] using hc

theorem isWord_chars (h : isWord s = true) : s ≠ [] ∧ ∀ c ∈ s, (isLetter c || isDigit c) = true := by
  cases s with
  | nil => cases h
  | cons c rest =>
    obtain ⟨hc, hrest⟩ := (Bool.and_eq_true _ _).mp h
    refine ⟨List.cons_ne_nil _ _, List.forall_mem_cons.mpr ⟨by simp [hc], ?_⟩⟩
    exact List.all_eq_true.mp hrest

theorem Solid.of_letters (hne : s ≠ []) (h : ∀ c ∈ s, (isLetter c || isDigit c) = true) : Solid s := by
  constructor
  · obtain ⟨c, rest, rfl⟩ := List.exists_cons_of_ne_nil hne
    exact ⟨c, rest, rfl, isBlank_of_isLetter (h c (by simp))⟩
  · refine ⟨s.dropLast, s.getLast hne, (List.dropLast_append_getLast hne).symm, ?_⟩
    exact (isBlank_of_isLetter (h _ (List.getLast_mem hne))).1

theorem Solid.word (h : isWord s = true) : Solid s :=
  .of_letters (isWord_chars h).1 (isWord_chars h).2

theorem Solid.quote (quote : Quote) : Solid [quote.mark] := by
  cases quote <;> exact .single (by decide) (by decide) (by decide)

end Solid

theorem isName_word {name : String} (h : isName name = true) : isWord name.toList = true :=
  ((Bool.and_eq_true _ _).mp h).1

theorem isName_ne {name word : String} (h : isName name = true) (hword : word ∈ keywords) :
    name ≠ word := by
  rintro rfl
  have hnot := ((Bool.and_eq_true _ _).mp h).2
  simp only [List.contains_eq_mem, Bool.not_eq_true', decide_eq_false_iff_not] at hnot
  exact hnot hword

theorem isWord_primitive (p : Primitive) : isWord p.name.toList = true := by
  cases p <;> decide

theorem joinWith_cons (mark first : List Char) (rest : List (List Char)) :
    joinWith mark (first :: rest) = first ++ rest.flatMap (mark ++ ·) := by
  induction rest generalizing first with
  | nil => simp [joinWith]
  | cons second rest ih =>
    rw [joinWith.eq_3 _ _ _ (by simp), ih, List.flatMap_cons]
    simp

theorem TypeNode.texts_cons (mark : List Char) (first : TypeNode) (rest : List TypeNode) :
    TypeNode.texts mark (first :: rest) =
      first.text.toList ++ rest.flatMap fun type => mark ++ type.text.toList := by
  rw [TypeNode.texts, List.map_cons, joinWith_cons, List.flatMap_map]

theorem Solid.joinWith {mark : List Char} {parts : List (List Char)} (hne : parts ≠ [])
    (h : ∀ part ∈ parts, Solid part) : Solid (joinWith mark parts) := by
  induction parts with
  | nil => exact absurd rfl hne
  | cons first rest ih =>
    obtain ⟨hfirst, hrest⟩ := List.forall_mem_cons.mp h
    cases rest with
    | nil => exact hfirst
    | cons second rest =>
      rw [Text.joinWith.eq_3 _ _ _ (by simp), List.append_assoc]
      exact hfirst.append mark (ih (List.cons_ne_nil _ _) hrest)

section Clear
variable {s rest : List Char}

theorem Clear.prepend (h : Clear rest) (hs : ∀ c ∈ s, isClear c = true) : Clear (s ++ rest) := by
  induction s with
  | nil => exact h
  | cons c s ih =>
    obtain ⟨hc, hs⟩ := List.forall_mem_cons.mp hs
    exact .char hc (ih hs)

theorem Clear.word (h : Clear rest) (hs : isWord s = true) : Clear (s ++ rest) := by
  refine h.prepend fun c hc => ?_
  rw [isClear, (isWord_chars hs).2 c hc]
  rfl

theorem follows_flatMap {α : Type} {Follows : List Char → Prop} {entries : List α}
    {text : α → List Char} (h : Follows rest)
    (hentries : ∀ entry ∈ entries, ∀ rest, Follows rest → Follows (text entry ++ rest)) :
    Follows (entries.flatMap text ++ rest) := by
  induction entries with
  | nil => exact h
  | cons entry entries ih =>
    obtain ⟨hentry, hentries⟩ := List.forall_mem_cons.mp hentries
    rw [List.flatMap_cons, List.append_assoc]
    exact hentry _ (ih hentries)

theorem Clear.braced {gap last : List Char} {entries : List (List Char)} (h : Clear rest)
    (hgap : ∀ c ∈ gap, isClear c = true) (hlast : ∀ c ∈ last, isClear c = true)
    (hentries : ∀ entry ∈ entries, ∀ rest, Clear rest → Clear (entry ++ rest)) :
    Clear (braced gap last entries ++ rest) := by
  have hclose : Clear (last ++ '}' :: rest) := (Clear.char (by decide) h).prepend hlast
  have hall : Clear (entries.flatMap (gap ++ ·) ++ (last ++ '}' :: rest)) := by
    refine follows_flatMap hclose fun entry hentry rest hrest => ?_
    rw [List.append_assoc]
    exact (hentries entry hentry rest hrest).prepend hgap
  have hshape : Syntax.braced gap last entries ++ rest =
      '{' :: (entries.flatMap (gap ++ ·) ++ (last ++ '}' :: rest)) := by simp [Syntax.braced]
  rw [hshape]
  exact .char (by decide) hall

end Clear

namespace TypeNode.Ordinary
variable {type : TypeNode}

theorem solid (h : type.Ordinary) : Solid type.text.toList := by
  induction h with
  | name h => exact .word (isName_word h)
  | primitive p => exact .word (isWord_primitive p)
  | quoted quote _ htext =>
    rw [TypeNode.text, htext]
    exact (Solid.quote quote).append _ (.quote quote)
  | array _ _ htext ih =>
    rw [TypeNode.text, htext]
    exact ih.append ['['] (.single (by decide) (by decide) (by decide))
  | @generic text name args hname _ _ htext =>
    rw [TypeNode.text, htext]
    exact (Solid.word (isName_word hname)).append ('<' :: texts _ args)
      (.single (by decide) (by decide) (by decide))
  | union htwo _ _ htext ih =>
    rw [TypeNode.text, htext, texts]
    refine .joinWith ?_ ?_
    · intro hnil
      rw [List.map_eq_nil_iff.mp hnil] at htwo
      cases htwo
    · intro part hpart
      obtain ⟨operand, hoperand, rfl⟩ := List.mem_map.mp hpart
      exact ih operand hoperand
  | @parenthesized text inner _ htext =>
    rw [TypeNode.text, htext]
    exact (Solid.single (by decide) (by decide) (by decide)).append inner.text.toList
      (.single (by decide) (by decide) (by decide))
  | object _ _ htext =>
    rw [TypeNode.text, htext, braced, ← List.append_assoc]
    exact (Solid.single (by decide) (by decide) (by decide)).append _
      (.single (by decide) (by decide) (by decide))

end TypeNode.Ordinary

theorem Field.written_clear {m : Member} {rest : List Char} (hname : isName m.name = true)
    (htype : ∀ type, m.type? = some type → ∀ rest, Clear rest → Clear (type.text.toList ++ rest))
    (h : Clear rest) : Clear (m.written ++ rest) := by
  obtain ⟨name, optional, type?⟩ := m
  have hstated : Clear (stated type? ++ rest) := by
    cases type? with
    | some type => exact .char (by decide) (.char (by decide) (htype type rfl _ h))
    | none => exact h
  have hoptional : ∀ more, Clear more → Clear ((if optional then ['?'] else []) ++ more) := by
    intro more hmore
    cases optional
    · exact hmore
    · exact .char (by decide) hmore
  have hall := (hoptional _ hstated).word (isName_word hname)
  rw [Field.written]
  simpa using hall

theorem memberEntries_clear {members : List Member} (hnames : ∀ m ∈ members, isName m.name = true)
    (htypes : ∀ m ∈ members, ∀ type, m.type? = some type →
      ∀ rest, Clear rest → Clear (type.text.toList ++ rest)) :
    ∀ entry ∈ memberEntries members, ∀ rest, Clear rest → Clear (entry ++ rest) := by
  intro entry hentry rest hrest
  obtain ⟨m, hm, rfl⟩ := List.mem_map.mp hentry
  rw [List.append_assoc]
  exact Field.written_clear (hnames m hm) (htypes m hm) (.char (by decide) hrest)

namespace TypeNode.Ordinary
variable {type : TypeNode}

theorem clear (h : type.Ordinary) : ∀ rest, Clear rest → Clear (type.text.toList ++ rest) := by
  induction h with
  | name h => exact fun rest hrest => hrest.word (isName_word h)
  | primitive p => exact fun rest hrest => hrest.word (isWord_primitive p)
  | quoted quote hvalue htext =>
    intro rest hrest
    rw [TypeNode.text, htext]
    exact .string quote hvalue hrest
  | array _ _ htext ih =>
    intro rest hrest
    rw [TypeNode.text, htext, List.append_assoc]
    exact ih _ (.char (by decide) (.char (by decide) hrest))
  | @generic text name args hname hne _ htext ih =>
    intro rest hrest
    obtain ⟨first, more, rfl⟩ := List.exists_cons_of_ne_nil hne
    obtain ⟨ihfirst, ihmore⟩ := List.forall_mem_cons.mp ih
    have hclose : Clear ('>' :: rest) := .char (by decide) hrest
    have hmore : Clear ((more.flatMap fun type => [',', ' '] ++ type.text.toList) ++ '>' :: rest) := by
      refine follows_flatMap hclose fun arg harg rest hrest => ?_
      exact .char (by decide) (.char (by decide) (ihmore arg harg rest hrest))
    have hall := (Clear.char (c := '<') (by decide) (ihfirst _ hmore)).word (isName_word hname)
    rw [TypeNode.text, htext, texts_cons]
    simpa using hall
  | @union text operands htwo _ _ htext ih =>
    intro rest hrest
    obtain ⟨first, more, rfl⟩ : ∃ first more, operands = first :: more := by
      cases operands with
      | nil => cases htwo
      | cons first more => exact ⟨first, more, rfl⟩
    obtain ⟨ihfirst, ihmore⟩ := List.forall_mem_cons.mp ih
    have hmore : Clear ((more.flatMap fun type => [' ', '|', ' '] ++ type.text.toList) ++ rest) := by
      refine follows_flatMap hrest fun operand hoperand rest hrest => ?_
      exact .char (by decide) (.char (by decide) (.char (by decide) (ihmore operand hoperand rest hrest)))
    rw [TypeNode.text, htext, texts_cons, List.append_assoc]
    exact ihfirst _ hmore
  | parenthesized _ htext ih =>
    intro rest hrest
    have hall := Clear.char (c := '(') (by decide) (ih _ (.char (c := ')') (by decide) hrest))
    rw [TypeNode.text, htext]
    simpa using hall
  | object hnames _ htext ih =>
    intro rest hrest
    rw [TypeNode.text, htext]
    exact hrest.braced (by decide) (by decide) (memberEntries_clear hnames ih)

end TypeNode.Ordinary

inductive Opening : Token → Prop
  | name {name : String} (h : isName name = true) : Opening ⟨.word, name.toList⟩
  | primitive (p : Primitive) : Opening ⟨.word, p.name.toList⟩
  | string (text : List Char) : Opening ⟨.string, text⟩
  | mark {m : Char} (h : m = '(' ∨ m = '{') : Opening ⟨.mark, [m]⟩

namespace Opening
variable {token : Token}

theorem not_isMark (h : Opening token) {mark : String} (hopen : mark.toList ≠ ['('])
    (hbrace : mark.toList ≠ ['{']) : token.isMark mark = false := by
  cases h with
  | name _ => rfl
  | primitive _ => rfl
  | string _ => rfl
  | mark h =>
    rcases h with rfl | rfl
    · simpa [Token.isMark] using hopen.symm
    · simpa [Token.isMark] using hbrace.symm

theorem not_isWord (h : Opening token) {word : String} (hword : word ∈ keywords)
    (hprimitive : Primitive.ofName? word = none) : token.isWord word = false := by
  cases h with
  | name h =>
    have hne := isName_ne h hword
    simpa [Token.isWord, String.toList_inj] using hne
  | primitive p =>
    have hne : p.name ≠ word := by
      rintro rfl
      rw [Primitive.ofName?_name] at hprimitive
      cases hprimitive
    simpa [Token.isWord, String.toList_inj] using hne
  | string _ => rfl
  | mark _ => rfl

theorem startsType (h : Opening token) : token.startsType = true := by
  cases h with
  | name _ => rfl
  | primitive _ => rfl
  | string _ => rfl
  | mark h => rcases h with rfl | rfl <;> rfl

end Opening

theorem endsName_of_mem {m : Char} (h : m ∈ [' ', '\n', ';', ',', '{', '}', '(', ')', '[', ']', ':', '<', '>', '|', '?'])
    (rest : List Char) : EndsName (m :: rest) := by
  have hall : ∀ m ∈ [' ', '\n', ';', ',', '{', '}', '(', ')', '[', ']', ':', '<', '>', '|', '?'],
      isNamePart m = false ∧ m ≠ '\\' := by decide
  rintro c hc
  cases hc
  exact hall m h

theorem exists_first_two {operands : List TypeNode} (h : 2 ≤ operands.length) :
    ∃ first second more, operands = first :: second :: more := by
  obtain ⟨first, rest, rfl⟩ := List.exists_cons_of_length_pos (Nat.lt_of_lt_of_le Nat.two_pos h)
  obtain ⟨second, more, rfl⟩ := List.exists_cons_of_length_pos (Nat.le_of_succ_le_succ h)
  exact ⟨first, second, more, rfl⟩

theorem TypeNode.Ordinary.opening {type : TypeNode} (h : type.Ordinary) :
    ∀ rest, EndsName rest → Opening (readToken (type.text.toList ++ rest)).1 := by
  induction h with
  | name h =>
    intro rest hrest
    rw [TypeNode.text, readToken_word (isName_word h) hrest]
    exact .name h
  | primitive p =>
    intro rest hrest
    rw [TypeNode.text, readToken_word (isWord_primitive p) hrest]
    exact .primitive p
  | quoted quote hvalue htext =>
    intro rest _
    rw [TypeNode.text, htext, readToken_quoted quote hvalue]
    exact .string _
  | array _ _ htext ih =>
    intro rest _
    rw [TypeNode.text, htext, List.append_assoc]
    exact ih _ (endsName_of_mem (by decide) _)
  | @generic text name args hname _ _ htext =>
    intro rest _
    rw [TypeNode.text, htext, List.append_assoc, List.cons_append,
      readToken_word (isName_word hname) (endsName_of_mem (by decide) _)]
    exact .name hname
  | @union text operands htwo _ _ htext ih =>
    intro rest _
    obtain ⟨first, second, more, rfl⟩ := exists_first_two htwo
    rw [TypeNode.text, htext, texts_cons, List.flatMap_cons, List.append_assoc]
    exact ih first (by simp) _ (endsName_of_mem (by decide) _)
  | parenthesized _ htext =>
    intro rest _
    rw [TypeNode.text, htext, List.cons_append, readToken_mark (by decide)]
    exact .mark (.inl rfl)
  | object _ _ htext =>
    intro rest _
    rw [TypeNode.text, htext, braced, List.cons_append, readToken_mark (by decide)]
    exact .mark (.inr rfl)

end DeclSchema.Syntax
