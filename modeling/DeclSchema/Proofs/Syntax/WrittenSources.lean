import DeclSchema.Proofs.Syntax.WrittenEnums

/-! # Written sources are read back

The word in front of a declaration decides which reader takes it. What is declared in the body of
a namespace or a function is read one level further down in the grammar; each declaration is met in
order, and so is each one of the source itself.
-/
namespace DeclSchema.Syntax
open Text

section Statement
variable {g : Grammar} {s t : State} {scope : Scope} {finish : Nat} {found : List Item}
  {word rest : List Char}

/-- A word that is no label begins no comment and no block. -/
theorem anyStatement_eq_word (h : s.At finish found (word ++ rest)) (hword : isWord word = true)
    (hrest : EndsName rest) (hcolon : s.next.token.isMark ":" = false) :
    anyStatement g scope s =
      (do if ← wordStatement? g then return else valueStatement g : Parser Unit) scope s := by
  have htoken := h.token_word hword hrest
  have hmark : ∀ mark : String, s.token.isMark mark = false := by
    intro mark
    rw [htoken]
    rfl
  have hkind : (s.token.kind == .word) = true := by
    rw [htoken]
    rfl
  have hcomment : commentMarks.any (·.isPrefixOf s.here) = false := by
    rw [h.here]
    cases word with
    | nil => cases hword
    | cons c word =>
      have hletter := (isWord_chars hword).2 c (by simp)
      have hall : ∀ mark ∈ commentMarks, ∃ d ∈ mark.head?, isLetter d = false ∧ isDigit d = false := by
        decide
      refine List.any_eq_false.mpr fun mark hmark hprefix => ?_
      obtain ⟨d, hd, hnot⟩ := hall mark hmark
      obtain ⟨more, hmore⟩ := List.head?_eq_some_iff.mp hd
      rw [hmore, List.cons_append, List.isPrefixOf_cons_cons, Bool.and_eq_true, beq_iff_eq] at hprefix
      rw [← hprefix.1, hnot.1, hnot.2] at hletter
      cases hletter
  unfold anyStatement
  rw [get_bind, accept_bind, hmark, if_neg Bool.false_ne_true, hcomment, if_neg Bool.false_ne_true,
    if_neg Bool.false_ne_true, atMark_bind, hmark, if_neg Bool.false_ne_true, atMark_bind, hmark,
    if_neg Bool.false_ne_true, atKind_bind, hkind, Bool.not_true, if_neg Bool.false_ne_true,
    following_bind, hcolon, current_bind, Bool.false_and, if_neg Bool.false_ne_true]

/-- A word in front of another word begins the statement that it names. -/
theorem anyStatement_word (h : s.At finish found (word ++ rest)) (hword : isWord word = true)
    (hrest : EndsName rest) (hnext : s.next.token.kind = .word)
    (hrun : wordStatement? g scope s = .ok (true, t)) : anyStatement g scope s = .ok ((), t) := by
  have hcolon : s.next.token.isMark ":" = false := by
    rw [Token.isMark, hnext]
    rfl
  rw [anyStatement_eq_word h hword hrest hcolon, bind_of_ok hrun, if_pos rfl, pure_run]

variable {name : List Char}

/-- What stands behind the first word of a declaration. -/
theorem behind_word (h : s.At finish found (word ++ ([' '] ++ (name ++ rest)))) (hword : isWord word = true)
    (hname : isWord name = true) (hrest : EndsName rest) :
    s.token = ⟨.word, word⟩ ∧ s.next.token = ⟨.word, name⟩ ∧
      ∀ lineEnd, s.next.endsBefore lineEnd = false := by
  have hends : EndsName ([' '] ++ (name ++ rest)) := endsName_of_mem (by decide) _
  have hat := h.behind isSpace_single ((Solid.word hname).noGap rest) found
  have hnext := h.next_word hword hends
  refine ⟨h.token_word hword hends, ?_, fun lineEnd => ?_⟩
  · rw [hnext]
    exact hat.token_word hname hrest
  · rw [hnext]
    cases name with
    | nil => cases hname
    | cons c name =>
      have hletter := (isWord_chars hname).2 c (by simp)
      refine not_endsBefore_space finish found ((Solid.word hname).noGap rest) ?_ lineEnd
      rintro rfl
      cases hletter

theorem namesFollowing_word (hname : s.next.token = ⟨.word, name⟩)
    (hends : ∀ lineEnd, s.next.endsBefore lineEnd = false) : namesFollowing scope s = .ok (true, s) := by
  unfold namesFollowing
  rw [get_bind]
  simp only [hname, hends]
  rfl

def declaringWords : List String :=
  ["interface", "type", "enum", "const", "namespace", "function", "class"]

theorem wordStatement?_declaring {word : String} (hword : word ∈ declaringWords)
    (htoken : s.token = ⟨.word, word.toList⟩) : wordStatement? g scope s = declaration? g scope s := by
  unfold wordStatement?
  simp only [get_bind, htoken, String.ofList_toList]
  simp only [declaringWords, List.mem_cons, List.not_mem_nil, or_false] at hword
  rcases hword with rfl | rfl | rfl | rfl | rfl | rfl | rfl <;> rfl

theorem declaration?_interface (htoken : s.token = ⟨.word, "interface".toList⟩)
    (hrun : interfaceDeclaration g scope s = .ok ((), t)) : declaration? g scope s = .ok (true, t) := by
  unfold declaration?
  simp only [get_bind, htoken, String.ofList_toList]
  rw [if_neg (by decide), bind_of_ok hrun, pure_run]

theorem declaration?_type (htoken : s.token = ⟨.word, "type".toList⟩)
    (hnames : namesFollowing scope s = .ok (true, s)) (hrun : aliasDeclaration g scope s = .ok ((), t)) :
    declaration? g scope s = .ok (true, t) := by
  unfold declaration?
  simp only [get_bind, htoken, String.ofList_toList]
  rw [if_neg (by decide), bind_of_ok hnames, if_pos rfl, bind_of_ok hrun, pure_run]

theorem declaration?_enum (htoken : s.token = ⟨.word, "enum".toList⟩)
    (hrun : enumDeclaration g scope s = .ok ((), t)) : declaration? g scope s = .ok (true, t) := by
  unfold declaration?
  simp only [get_bind, htoken, String.ofList_toList]
  rw [if_neg (by decide), bind_of_ok hrun, pure_run]

theorem declaration?_const (htoken : s.token = ⟨.word, "const".toList⟩)
    (hname : s.next.token = ⟨.word, "enum".toList⟩) (hrun : enumDeclaration g scope s = .ok ((), t)) :
    declaration? g scope s = .ok (true, t) := by
  unfold declaration?
  simp only [get_bind, htoken, hname, String.ofList_toList]
  rw [if_neg (by decide), if_pos (by decide), bind_of_ok hrun, pure_run]

theorem declaration?_namespace (htoken : s.token = ⟨.word, "namespace".toList⟩)
    (hnames : namesFollowing scope s = .ok (true, s))
    (hrun : (do discard take; namespaceFrom g : Parser Unit) scope s = .ok ((), t)) :
    declaration? g scope s = .ok (true, t) := by
  obtain ⟨string, hstring⟩ : ∃ string, stringFollowing scope s = .ok (string, s) := ⟨_, rfl⟩
  unfold declaration?
  simp only [get_bind, htoken, String.ofList_toList]
  rw [if_neg (by decide), bind_of_ok hnames, bind_of_ok hstring, Bool.true_or, if_pos rfl,
    bind_of_ok hrun, pure_run]

theorem declaration?_function (htoken : s.token = ⟨.word, "function".toList⟩)
    (hname : s.next.token = ⟨.word, name⟩) (hrun : functionDeclaration g scope s = .ok ((), t)) :
    declaration? g scope s = .ok (true, t) := by
  unfold declaration?
  simp only [get_bind, htoken, hname, String.ofList_toList]
  rw [if_neg (by decide), beq_self_eq_true, Bool.true_or, if_pos rfl, bind_of_ok hrun, pure_run]

end Statement

/-- A reader of declarations that begin with this word is chosen by the word. -/
theorem statement_declares {g : Grammar} {p : Parser Unit} {word : String} {name more : List Char}
    {item : Item} (hword : word ∈ declaringWords) (hname : isWord name = true)
    (hends : ∀ rest, EndsName (more ++ rest))
    (hp : Declares p (word.toList ++ ([' '] ++ (name ++ more))) item)
    (hchoice : ∀ scope s t, s.token = ⟨.word, word.toList⟩ → s.next.token = ⟨.word, name⟩ →
      namesFollowing scope s = .ok (true, s) → p scope s = .ok ((), t) →
        declaration? g scope s = .ok (true, t)) :
    Declares (anyStatement g) (word.toList ++ ([' '] ++ (name ++ more))) item := by
  intro scope s finish found rest hrest h
  have hdeclaring : ∀ word ∈ declaringWords, isWord word.toList = true := by decide
  have hrun : p scope s = .ok ((), .facing finish (item :: found) rest) := hp hrest h
  simp only [List.append_assoc] at h
  obtain ⟨htoken, hnext, hline⟩ := behind_word h (hdeclaring word hword) hname (hends rest)
  refine anyStatement_word h (hdeclaring word hword) (endsName_of_mem (by decide) _) (by rw [hnext]) ?_
  rw [wordStatement?_declaring hword htoken]
  exact hchoice scope s _ htoken hnext (namesFollowing_word hnext hline) hrun

/-- A text that declares this item, whatever follows it, and begins with a word. -/
structure Written (p : Parser Unit) (text : List Char) (item : Item) : Prop where
  declares : Declares p text item
  clear : ∀ rest, Clear rest → Clear (text ++ rest)
  word : ∃ word more, text = word ++ ' ' :: more ∧ isWord word = true

namespace Written
variable {p : Parser Unit} {text : List Char} {item : Item}

theorem noGap (h : Written p text item) (rest : List Char) : NoGap (text ++ rest) := by
  obtain ⟨word, more, rfl, hword⟩ := h.word
  rw [List.append_assoc]
  exact (Solid.word hword).noGap _

theorem nonempty (h : Written p text item) : 0 < text.length := by
  obtain ⟨word, more, rfl, -⟩ := h.word
  simp

theorem token {s : State} {finish : Nat} {found : List Item} {rest : List Char} (h : Written p text item)
    (hat : s.At finish found (text ++ rest)) : ∃ word, s.token = ⟨.word, word⟩ := by
  obtain ⟨word, more, rfl, hword⟩ := h.word
  rw [List.append_assoc] at hat
  exact ⟨word, hat.token_word hword (endsName_of_mem (by decide) _)⟩

end Written

section Bodies
variable {g : Grammar} {q : Parser Unit} {text : Item → List Char} {items : List Item} {s : State}
  {gap last : List Char} {scope : Scope} {finish : Nat} {found : List Item} {rest : List Char}

/-- Each declaration is met, the last one at the end. -/
theorem repeats_items {p : Parser (Option Unit)} (hitems : ∀ item ∈ items, Written q (text item) item)
    (hgap : IsSpace gap) (hlast : Clear rest)
    (hstep : ∀ item ∈ items, ∀ s found tail, Clear tail → s.At finish found (text item ++ tail) →
      p scope s = .ok (some (), .facing finish (item :: found) tail))
    (hdone : ∀ found, p scope (.facing finish found rest) = .ok (none, .facing finish found rest))
    (hle : (items.flatMap (gap ++ text ·) ++ rest).length ≤ finish) :
    Repeats p scope (.facing finish found (items.flatMap (gap ++ text ·) ++ rest))
      (items.map fun _ => ()) (.facing finish (items.reverse ++ found) rest) := by
  induction items generalizing found with
  | nil => exact .done (hdone found)
  | cons item items ih =>
    obtain ⟨hfirst, hitems⟩ := List.forall_mem_cons.mp hitems
    obtain ⟨hstepFirst, hstep⟩ := List.forall_mem_cons.mp hstep
    have htail : Clear (items.flatMap (gap ++ text ·) ++ rest) := by
      refine follows_flatMap hlast fun item hitem tail htail => ?_
      rw [List.append_assoc]
      exact ((hitems item hitem).clear tail htail).prepend (isClear_of_isSpace hgap)
    rw [List.flatMap_cons, List.append_assoc, List.append_assoc] at hle ⊢
    generalize htailText : items.flatMap (gap ++ text ·) ++ rest = tail at hle htail ih ⊢
    have hat := at_facing found hgap (hfirst.noGap tail) hle
    have hnonempty := hfirst.nonempty
    rw [List.reverse_cons, List.append_assoc, List.singleton_append]
    simp only [List.length_append] at hle
    refine .more (hstepFirst _ found tail htail hat) ?_ (ih hitems hstep (by omega))
    have hshorter := facing_here_le finish (item :: found) tail
    rw [hat.here, List.length_append]
    omega

theorem soundly_of_ok {t : State} (h : q scope s = .ok ((), t)) : soundly q scope s = .ok ((), t) := by
  rw [soundly, h]

/-- The declarations in braces. -/
theorem block_written (hitems : ∀ item ∈ items, Written g.statement (text item) item)
    (hgap : IsSpace gap) (hlast : IsSpace last) (hrest : Clear rest)
    (h : s.At finish found ('{' :: bracedTail gap last (items.map text) rest)) :
    block g scope s = .ok ((), .facing finish (items.reverse ++ found) rest) := by
  have hle := h.le
  rw [bracedTail, List.flatMap_map] at h
  rw [bracedTail, List.flatMap_map, List.length_cons] at hle
  have hclose : (last ++ '}' :: rest).length ≤ finish := by
    rw [List.length_append] at hle
    omega
  have hend : ∀ found, (State.facing finish found (last ++ '}' :: rest)).At finish found ('}' :: rest) :=
    fun found => at_facing found hlast (noGap_mark (by decide) rest) hclose
  have hclear : Clear (last ++ '}' :: rest) :=
    (Clear.char (by decide) hrest).prepend (isClear_of_isSpace hlast)
  have hrun : enclosed (statements g) scope
      (.facing finish found (items.flatMap (gap ++ text ·) ++ (last ++ '}' :: rest))) =
        .ok ((), .facing finish (items.reverse ++ found) (last ++ '}' :: rest)) := by
    refine discard_of_ok (repeats_items hitems hgap hclear ?_ ?_ (by omega)).many
    · intro item hitem s found tail htail hat
      obtain ⟨word, htoken⟩ := (hitems item hitem).token hat
      have hsound : soundly g.statement {} s = .ok ((), .facing finish (item :: found) tail) :=
        soundly_of_ok ((hitems item hitem).declares htail hat)
      have hnot : (s.token.isMark "\x7d" || s.token.kind == .finish) = false := by
        rw [htoken]
        rfl
      rw [atEnd_bind, hnot, if_neg Bool.false_ne_true, bind_of_ok hsound]
      rfl
    · intro found
      rw [atEnd_bind, (hend found).isMark (by decide) rfl, Bool.true_or, if_pos rfl, pure_run]
  rw [block, bind_of_ok (expect_at h (by decide) rfl), bind_of_ok hrun, expect_at (hend _) (by decide) rfl]

end Bodies

theorem between?_of_word {word : List Char} (hword : isWord word = true) {mark : Char}
    (hmark : (isLetter mark || isDigit mark) = false) : between? mark word = none := by
  have hhead : afterHead? [mark] word = none := by
    cases hafter : afterHead? [mark] word with
    | none => rfl
    | some rest =>
      have htext := afterHead?_eq_some_iff.mp hafter
      rw [(isWord_chars hword).2 mark (by simp [htext])] at hmark
      cases hmark
  rw [between?, hhead, Option.bind_none]

theorem unquote_name {name : String} (hname : isName name = true) : unquote name = name := by
  rw [unquote, between?_of_word (isName_word hname) (by decide),
    between?_of_word (isName_word hname) (by decide)]

section Containers
variable {g : Grammar} {text : Item → List Char} {items : List Item} {name : String}
  {gap last : List Char}

theorem bracedTail_items_clear {q : Parser Unit} {rest : List Char}
    (hitems : ∀ item ∈ items, Written q (text item) item) (hgap : IsSpace gap) (hlast : IsSpace last)
    (hrest : Clear rest) : Clear (bracedTail gap last (items.map text) rest) := by
  refine bracedTail_clear hgap hlast (fun entry hentry => ?_) hrest
  obtain ⟨item, hitem, rfl⟩ := List.mem_map.mp hentry
  exact (hitems item hitem).clear

theorem namespaceFrom_declares (hname : isName name = true)
    (hitems : ∀ item ∈ items, Written g.statement (text item) item) (hgap : IsSpace gap)
    (hlast : IsSpace last) :
    Declares (do discard take; namespaceFrom g) ("namespace".toList ++ ([' '] ++ (name.toList ++
      ([' '] ++ braced gap last (items.map text))))) (.namespaceDecl name items) := by
  intro scope s finish found rest hrest h
  simp only [List.append_assoc, braced_append] at h
  have hword := isName_word hname
  have hnameAt := h.behind isSpace_single ((Solid.word hword).noGap _) found
  have hends := endsName_of_mem (m := ' ') (by decide) ('{' :: bracedTail gap last (items.map text) rest)
  have hle := hnameAt.le
  rw [List.length_append] at hle
  have hbrace : ∀ found, (State.facing finish found
      ([' '] ++ '{' :: bracedTail gap last (items.map text) rest)).At finish found
        ('{' :: bracedTail gap last (items.map text) rest) :=
    fun found => at_facing found isSpace_single (noGap_mark (by decide) _) (by omega)
  have hpoint : (State.facing finish found ([' '] ++
      '{' :: bracedTail gap last (items.map text) rest)).token.isMark "." = false :=
    (hbrace found).not_isMark (by decide) (by decide)
  have hstring : ((State.facing finish found ([' '] ++ (name.toList ++ ([' '] ++
      '{' :: bracedTail gap last (items.map text) rest)))).token.kind == .string) = false := by
    rw [hnameAt.token_word hword hends]
    rfl
  have hbody : (do if ← atMark "\x7b" then block g : Parser Unit) scope
      (.facing finish [] ([' '] ++ '{' :: bracedTail gap last (items.map text) rest)) =
        .ok ((), .facing finish items.reverse rest) := by
    rw [atMark_bind, (hbrace []).isMark (by decide) rfl, if_pos rfl,
      block_written hitems hgap hlast hrest (hbrace []), List.append_nil]
  have htextTo := textTo_solid hnameAt (.word hword)
  rw [discard_take_bind (h.isWhole_word (by decide) (endsName_of_mem (by decide) _)),
    h.next_word (by decide) (endsName_of_mem (by decide) _)]
  unfold namespaceFrom
  rw [get_bind, atKind_bind, hstring, if_neg Bool.false_ne_true,
    bind_of_ok (qualifiedName_run hnameAt hword hends hpoint)]
  dsimp only
  rw [get_bind, htextTo, unquote_name hname, bind_of_ok (gather_facing hbody), List.reverse_reverse]
  rfl

section Heads
variable {s : State} {scope : Scope} {finish : Nat} {found : List Item} {rest : List Char}

theorem parameters_empty (h : s.At finish found ('(' :: ')' :: rest)) :
    parameters g scope s = .ok ((), .facing finish found rest) := by
  have hclose := h.after_mark (noGap_mark (by decide) rest) found
  rw [parameters, bind_of_ok (expect_at h (by decide) rfl),
    bind_of_ok (accept_at hclose (by decide) rfl), if_pos rfl, pure_run]

theorem resultType?_none (hcolon : s.token.isMark ":" = false) :
    resultType? g scope s = .ok ((), s) := by
  rw [resultType?, get_bind, accept_bind, hcolon]
  rfl

/-- No parameters. -/
theorem signature_empty (h : s.At finish found ('(' :: ')' :: rest))
    (hcolon : (State.facing finish found rest).token.isMark ":" = false) :
    signature g scope s = .ok ((), .facing finish found rest) := by
  rw [signature, bind_of_ok (typeParameters?_none (h.not_isMark (by decide) (by decide))),
    bind_of_ok (parameters_empty h), resultType?_none hcolon]

end Heads

theorem functionDeclaration_declares (hname : isName name = true)
    (hitems : ∀ item ∈ items, Written g.statement (text item) item) (hgap : IsSpace gap)
    (hlast : IsSpace last) :
    Declares (functionDeclaration g) ("function".toList ++ ([' '] ++ (name.toList ++
      ('(' :: ')' :: ([' '] ++ braced gap last (items.map text)))))) (.functionDecl name items) := by
  intro scope s finish found rest hrest h
  have h : s.At finish found ("function".toList ++ ([' '] ++ (name.toList ++ '(' :: ')' :: ([' '] ++
      '{' :: bracedTail gap last (items.map text) rest)))) := by
    rw [← braced_append]
    simpa only [List.append_assoc, List.cons_append] using h
  have hword := isName_word hname
  have hnameAt := h.behind isSpace_single ((Solid.word hword).noGap _) found
  have hends := endsName_of_mem (m := '(') (by decide) (')' :: ([' '] ++
    '{' :: bracedTail gap last (items.map text) rest))
  have hopen := hnameAt.after (noGap_mark (by decide) _) []
  have hclose := hopen.after_mark (noGap_mark (by decide) _) []
  have hbrace := hclose.behind_mark isSpace_single (noGap_mark (by decide) _) []
  have hasync : s.token.isWord "async" = false := by
    rw [h.token_word (by decide) (endsName_of_mem (by decide) _)]
    rfl
  have hstar : (State.facing finish found ([' '] ++ (name.toList ++ '(' :: ')' :: ([' '] ++
      '{' :: bracedTail gap last (items.map text) rest)))).token.isMark "*" = false := by
    rw [hnameAt.token_word hword hends]
    rfl
  have hsignature : inScope (fun _ => { lineEnd := .afterHead }) (signature g) scope
      (.facing finish [] ('(' :: ')' :: ([' '] ++ '{' :: bracedTail gap last (items.map text) rest))) =
        .ok ((), .facing finish [] ([' '] ++ '{' :: bracedTail gap last (items.map text) rest)) :=
    signature_empty hopen (hbrace.not_isMark (by decide) (by decide))
  have hbody : (do
      inScope (fun _ => { lineEnd := .afterHead }) (signature g)
      if ← atMark "\x7b" then
        block g
        return true
      else
        terminator .afterHead
        return false) scope (.facing finish [] ('(' :: ')' :: ([' '] ++
          '{' :: bracedTail gap last (items.map text) rest))) =
        .ok (true, .facing finish items.reverse rest) := by
    rw [bind_of_ok hsignature, atMark_bind, hbrace.isMark (by decide) rfl, if_pos rfl,
      bind_of_ok (block_written hitems hgap hlast hrest hbrace), List.append_nil, pure_run]
  unfold functionDeclaration
  rw [bind_of_ok (discard_of_ok (acceptWord_of_not_isWord hasync)),
    bind_of_ok (expectWord_at h (by decide) (endsName_of_mem (by decide) _)),
    bind_of_ok (discard_of_ok (accept_of_not_isMark hstar)), bind_of_ok (anyWord_at hnameAt hword hends),
    bind_of_ok (gather_facing hbody), List.reverse_reverse]
  rfl

end Containers

theorem Written.of_word {g : Grammar} {p : Parser Unit} {word : String} {name more : List Char}
    {item : Item} (hword : word ∈ declaringWords) (hname : isWord name = true)
    (hends : ∀ rest, EndsName (more ++ rest)) (hclear : ∀ rest, Clear rest → Clear (more ++ rest))
    (hp : Declares p (word.toList ++ ([' '] ++ (name ++ more))) item)
    (hchoice : ∀ scope s t, s.token = ⟨.word, word.toList⟩ → s.next.token = ⟨.word, name⟩ →
      namesFollowing scope s = .ok (true, s) → p scope s = .ok ((), t) →
        declaration? g scope s = .ok (true, t)) :
    Written (anyStatement g) (word.toList ++ ([' '] ++ (name ++ more))) item := by
  have hdeclaring : ∀ word ∈ declaringWords, isWord word.toList = true := by decide
  refine ⟨statement_declares hword hname hends hp hchoice, fun rest hrest => ?_, ?_⟩
  · have hspaced : Clear (' ' :: (name ++ (more ++ rest))) := .char (by decide) ((hclear rest hrest).word hname)
    simp only [List.append_assoc]
    exact hspaced.word (hdeclaring word hword)
  · exact ⟨word.toList, name ++ more, rfl, hdeclaring word hword⟩

theorem isSpace_line {indent : List Char} (h : IsSpace indent) : IsSpace (line indent) := by
  exact List.forall_mem_cons.mpr ⟨.inr rfl, h⟩

theorem isSpace_deeper {indent : List Char} (h : IsSpace indent) : IsSpace (deeper indent) :=
  List.forall_mem_cons.mpr ⟨.inl rfl, List.forall_mem_cons.mpr ⟨.inl rfl, h⟩⟩

namespace Item
variable {quote : Quote} {indent : List Char}

theorem writtenAll_eq_map (items : List Item) :
    writtenAll quote indent items = items.map (·.written quote indent) := by
  induction items with
  | nil => rfl
  | cons item items ih => rw [writtenAll, ih, List.map_cons]

theorem written_interface (name : String) (heritage : List String) (members : List Member) :
    (interfaceDecl name heritage members).written quote indent = "interface".toList ++ ([' '] ++
      (name.toList ++ (heritageWritten heritage ++ ([' '] ++
        braced (line (deeper indent)) (line indent) (memberEntries members))))) := by
  rw [written]
  rfl

theorem written_alias (name : String) (type : TypeNode) :
    (aliasDecl name type).written quote indent = "type".toList ++ ([' '] ++ (name.toList ++
      ([' '] ++ '=' :: ([' '] ++ (type.text.toList ++ [';']))))) := by
  rw [written]
  rfl

theorem written_enum (name : String) (members : List EnumMember) :
    (enumDecl name false members).written quote indent = "enum".toList ++ ([' '] ++ (name.toList ++
      ([' '] ++ braced (line (deeper indent)) (line indent) (EnumMember.entries quote members)))) := by
  rw [written]
  rfl

theorem written_const (name : String) (members : List EnumMember) :
    (enumDecl name true members).written quote indent = "const".toList ++ ([' '] ++ ("enum".toList ++
      ([' '] ++ (name.toList ++ ([' '] ++
        braced (line (deeper indent)) (line indent) (EnumMember.entries quote members)))))) := by
  rw [written]
  rfl

theorem written_enumDecl_pos (name : String) (isConst : Bool) (members : List EnumMember) :
    0 < ((enumDecl name isConst members).written quote indent).length := by
  cases isConst
  · rw [written_enum, List.length_append]
    exact Nat.add_pos_left (by decide) _
  · rw [written_const, List.length_append]
    exact Nat.add_pos_left (by decide) _

theorem written_namespace (name : String) (items : List Item) :
    (namespaceDecl name items).written quote indent = "namespace".toList ++ ([' '] ++ (name.toList ++
      ([' '] ++ braced (line (deeper indent)) (line indent)
        (items.map (·.written quote (deeper indent)))))) := by
  rw [written, writtenAll_eq_map]
  rfl

theorem written_function (name : String) (body : List Item) :
    (functionDecl name body).written quote indent = "function".toList ++ ([' '] ++ (name.toList ++
      ('(' :: ')' :: ([' '] ++ braced (line (deeper indent)) (line indent)
        (body.map (·.written quote (deeper indent))))))) := by
  rw [written, writtenAll_eq_map]
  rfl

end Item

section Depth
variable {quote : Quote} {indent : List Char} {depth : Nat}

theorem length_lt_braced_of_mem (gap last : List Char) {entry : List Char} {entries : List (List Char)}
    (h : entry ∈ entries) : entry.length < (braced gap last entries).length := by
  have hle := length_le_flatMap (gap ++ ·) h
  rw [List.length_append] at hle
  simp only [braced, List.length_cons, List.length_append]
  omega

theorem written_interfaceDecl {name : String} {heritage : List String} {members : List Member}
    (hname : isName name = true) (hheritage : ∀ base ∈ heritage, isName base = true)
    (hdistinct : heritage.Nodup) (hmembers : ∀ m ∈ members, Field.Ordinary m) (hindent : IsSpace indent)
    (hle : ((Item.interfaceDecl name heritage members).written quote indent).length ≤ depth) :
    Written (anyStatement (.ofDepth depth)) ((Item.interfaceDecl name heritage members).written quote indent)
      (.interfaceDecl name heritage members) := by
  rw [Item.written_interface] at hle ⊢
  simp only [List.length_append, List.length_singleton] at hle
  obtain ⟨depth, rfl⟩ : ∃ d, depth = d + 1 := ⟨depth - 1, by omega⟩
  have hgap := isSpace_line (isSpace_deeper hindent)
  have hlast := isSpace_line hindent
  have hnames : ∀ m ∈ members, isName m.name = true := fun m hm => (hmembers m hm).1
  have hordinary : ∀ m ∈ members, ∀ type, m.type? = some type → type.Ordinary :=
    fun m hm => (hmembers m hm).2
  have hread : ∀ m ∈ members, ∀ type, m.type? = some type →
      Reads (Grammar.ofDepth (depth + 1)).type type.text.toList (FollowedBy typeEnds) type := by
    intro m hm type htype
    have hlength := length_lt_braced (line (deeper indent)) (line indent) hm htype
    exact ((hordinary m hm type htype).readsIn depth (by omega)).2
  refine .of_word (by decide) (isName_word hname) (fun rest => ?_) (fun rest hrest => ?_)
    (interfaceDeclaration_declares hgap hlast hname hheritage hdistinct hnames hread hordinary)
    fun scope s t htoken _ _ hrun => declaration?_interface htoken hrun
  · rw [List.append_assoc]
    exact heritageWritten_endsName heritage _
  · have hbody : Clear (bracedTail (line (deeper indent)) (line indent) (memberEntries members) rest) :=
      bracedTail_clear hgap hlast (memberEntries_clear hnames fun m hm type htype =>
        (hordinary m hm type htype).clear) hrest
    rw [List.append_assoc, List.append_assoc, braced_append]
    exact heritageWritten_clear hheritage (.char (by decide) (.char (by decide) hbody))

theorem written_aliasDecl {name : String} {type : TypeNode} (hname : isName name = true)
    (htype : type.Ordinary) (hle : ((Item.aliasDecl name type).written quote indent).length ≤ depth) :
    Written (anyStatement (.ofDepth depth)) ((Item.aliasDecl name type).written quote indent)
      (.aliasDecl name type) := by
  rw [Item.written_alias] at hle ⊢
  simp only [List.length_append, List.length_cons] at hle
  obtain ⟨depth, rfl⟩ : ∃ d, depth = d + 1 := ⟨depth - 1, by omega⟩
  refine .of_word (by decide) (isName_word hname) (fun rest => endsName_of_mem (by decide) _)
    (fun rest hrest => ?_)
    (aliasDeclaration_declares hname htype (htype.readsIn depth (by omega)).2)
    fun scope s t htoken _ hnames hrun => declaration?_type htoken hnames hrun
  have htypeClear : Clear (type.text.toList ++ ([';'] ++ rest)) :=
    htype.clear _ (.char (by decide) hrest)
  rw [← List.append_assoc] at htypeClear
  exact .char (by decide) (.equals htypeClear)

theorem written_enumDecl {name : String} {isConst : Bool} {members : List EnumMember}
    (hname : isName name = true) (hmembers : ∀ m ∈ members, m.Ordinary) (hindent : IsSpace indent)
    (hpositive : 0 < depth) :
    Written (anyStatement (.ofDepth depth)) ((Item.enumDecl name isConst members).written quote indent)
      (.enumDecl name isConst members) := by
  obtain ⟨depth, rfl⟩ : ∃ d, depth = d + 1 := ⟨depth - 1, by omega⟩
  have hgap := isSpace_line (isSpace_deeper hindent)
  have hlast := isSpace_line hindent
  have hbraced : ∀ rest, Clear rest → Clear ([' '] ++ braced (line (deeper indent)) (line indent)
      (EnumMember.entries quote members) ++ rest) := by
    intro rest hrest
    have hbody : Clear (bracedTail (line (deeper indent)) (line indent)
        (EnumMember.entries quote members) rest) := by
      refine bracedTail_clear hgap hlast (fun entry hentry rest hrest => ?_) hrest
      obtain ⟨m, hm, rfl⟩ := List.mem_map.mp hentry
      rw [List.append_assoc]
      exact (hmembers m hm).clear quote (.char (by decide) hrest)
    rw [List.append_assoc, braced_append]
    exact .char (by decide) (.char (by decide) hbody)
  have hdeclares : Declares (enumDeclaration (.ofDepth (depth + 1)))
      ((if isConst then "const".toList ++ [' '] else []) ++ ("enum".toList ++ ([' '] ++ (name.toList ++
        ([' '] ++ braced (line (deeper indent)) (line indent) (EnumMember.entries quote members))))))
      (.enumDecl name isConst members) :=
    enumDeclaration_declares (.ofDepth depth) rfl hgap hlast hname hmembers
  cases isConst with
  | false =>
    rw [Item.written_enum]
    exact .of_word (by decide) (isName_word hname) (fun rest => endsName_of_mem (by decide) _) hbraced
      hdeclares fun scope s t htoken _ _ hrun => declaration?_enum htoken hrun
  | true =>
    rw [if_pos rfl, List.append_assoc] at hdeclares
    rw [Item.written_const]
    refine .of_word (by decide) (by decide) (fun rest => endsName_of_mem (by decide) _)
      (fun rest hrest => ?_) hdeclares
      fun scope s t htoken hname _ hrun => declaration?_const htoken hname hrun
    have hnamed := (hbraced rest hrest).word (isName_word hname)
    rw [← List.append_assoc] at hnamed
    exact .char (by decide) hnamed

/-- A declaration is written and read back at every depth of indentation. -/
def Item.ReadBack (quote : Quote) (item : Item) : Prop :=
  ∀ depth indent, IsSpace indent → (item.written quote indent).length ≤ depth →
    Written (anyStatement (.ofDepth depth)) (item.written quote indent) item

/-- Declarations in a body are read one level further down. -/
theorem Item.ReadBack.inside {items : List Item} (gap last : List Char)
    (hitems : ∀ item ∈ items, item.ReadBack quote) (hindent : IsSpace indent)
    (hle : (braced gap last (items.map (·.written quote (deeper indent)))).length ≤ depth + 1) :
    ∀ item ∈ items, Written (Grammar.ofDepth (depth + 1)).statement
      (item.written quote (deeper indent)) item := by
  intro item hitem
  have hentry := List.mem_map_of_mem (f := fun item : Item => item.written quote (deeper indent)) hitem
  have hlength := length_lt_braced_of_mem gap last hentry
  exact hitems item hitem depth _ (isSpace_deeper hindent) (by omega)

theorem written_namespaceDecl {name : String} {items : List Item} (hname : isName name = true)
    (hitems : ∀ item ∈ items, item.ReadBack quote) (hindent : IsSpace indent)
    (hle : ((Item.namespaceDecl name items).written quote indent).length ≤ depth) :
    Written (anyStatement (.ofDepth depth)) ((Item.namespaceDecl name items).written quote indent)
      (.namespaceDecl name items) := by
  rw [Item.written_namespace] at hle ⊢
  simp only [List.length_append, List.length_singleton] at hle
  obtain ⟨depth, rfl⟩ : ∃ d, depth = d + 1 := ⟨depth - 1, by omega⟩
  have hgap := isSpace_line (isSpace_deeper hindent)
  have hlast := isSpace_line hindent
  have hinside := Item.ReadBack.inside (line (deeper indent)) (line indent) hitems hindent
    (show _ ≤ depth + 1 by omega)
  refine .of_word (by decide) (isName_word hname) (fun rest => endsName_of_mem (by decide) _)
    (fun rest hrest => ?_) (namespaceFrom_declares hname hinside hgap hlast)
    fun scope s t htoken _ hnames hrun => declaration?_namespace htoken hnames hrun
  rw [List.append_assoc, braced_append]
  exact .char (by decide) (.char (by decide) (bracedTail_items_clear hinside hgap hlast hrest))

theorem written_functionDecl {name : String} {body : List Item} (hname : isName name = true)
    (hbody : ∀ item ∈ body, item.ReadBack quote) (hindent : IsSpace indent)
    (hle : ((Item.functionDecl name body).written quote indent).length ≤ depth) :
    Written (anyStatement (.ofDepth depth)) ((Item.functionDecl name body).written quote indent)
      (.functionDecl name body) := by
  rw [Item.written_function] at hle ⊢
  simp only [List.length_append, List.length_cons] at hle
  obtain ⟨depth, rfl⟩ : ∃ d, depth = d + 1 := ⟨depth - 1, by omega⟩
  have hgap := isSpace_line (isSpace_deeper hindent)
  have hlast := isSpace_line hindent
  have hinside := Item.ReadBack.inside (line (deeper indent)) (line indent) hbody hindent
    (show _ ≤ depth + 1 by omega)
  refine .of_word (by decide) (isName_word hname) (fun rest => endsName_of_mem (by decide) _)
    (fun rest hrest => ?_) (functionDeclaration_declares hname hinside hgap hlast)
    fun scope s t htoken hname _ hrun => declaration?_function htoken hname hrun
  have hclear := bracedTail_items_clear hinside hgap hlast hrest
  rw [List.cons_append, List.cons_append, List.append_assoc, braced_append]
  exact .char (by decide) (.char (by decide) (.char (by decide) (.char (by decide) hclear)))

end Depth

/-- In a grammar that is as deep as its text is long, every ordinary declaration is read back. -/
theorem Item.Ordinary.readBack {item : Item} (quote : Quote) (h : item.Ordinary) :
    item.ReadBack quote := by
  induction h with
  | interfaceDecl hname hheritage hdistinct hmembers =>
    exact fun depth indent hindent hle =>
      written_interfaceDecl hname hheritage hdistinct hmembers hindent hle
  | aliasDecl hname htype => exact fun depth indent _ hle => written_aliasDecl hname htype hle
  | enumDecl hname hmembers =>
    intro depth indent hindent hle
    exact written_enumDecl hname hmembers hindent (Nat.lt_of_lt_of_le (Item.written_enumDecl_pos _ _ _) hle)
  | namespaceDecl hname _ ih =>
    exact fun depth indent hindent hle => written_namespaceDecl hname ih hindent hle
  | functionDecl hname _ ih =>
    exact fun depth indent hindent hle => written_functionDecl hname ih hindent hle

section Sources
variable {g : Grammar} {items : List Item} {text : Item → List Char} {scope : Scope} {s t : State}

theorem outerStatement_of_ok (h : g.statement scope s = .ok ((), t)) :
    outerStatement g scope s = .ok ((), t) := by
  rw [outerStatement, soundly_of_ok h]

/-- Behind each declaration of a source a line ends. -/
theorem lines_cons (item : Item) (items : List Item) :
    (item :: items).flatMap (text · ++ ['\n']) =
      text item ++ (items.flatMap (['\n'] ++ text ·) ++ ['\n']) := by
  induction items generalizing item with
  | nil => simp
  | cons second items ih =>
    rw [List.flatMap_cons, ih, List.flatMap_cons]
    simp

/-- Without a line for the interpreter a source begins with its first token. -/
theorem first_at {source : List Char} (hline : interpreterLine source = []) (hsource : NoGap source) :
    (State.first source).At source.length [] source := by
  have hgap := readGap_of_noGap hsource 0 false
  simp only [State.first, State.start, hline, List.length_nil, List.drop_zero, hgap]
  exact ⟨rfl, Nat.zero_add _, rfl, rfl⟩

def anotherStatement (g : Grammar) : Parser (Option Unit) := do
  if ← atKind .finish then return none else return some (← outerStatement g)

theorem anotherStatement_written {item : Item} {finish : Nat} {found : List Item} {tail : List Char}
    (hitem : Written g.statement (text item) item) (htail : Clear tail)
    (hat : s.At finish found (text item ++ tail)) :
    anotherStatement g scope s = .ok (some (), .facing finish (item :: found) tail) := by
  obtain ⟨word, htoken⟩ := hitem.token hat
  have hkind : (s.token.kind == .finish) = false := by
    rw [htoken]
    rfl
  have hrun : outerStatement g scope s = .ok ((), .facing finish (item :: found) tail) :=
    outerStatement_of_ok (hitem.declares htail hat)
  rw [anotherStatement, atKind_bind, hkind, if_neg Bool.false_ne_true, bind_of_ok hrun]
  rfl

theorem anotherStatement_finish (h : s.token.kind = .finish) :
    anotherStatement g scope s = .ok (none, s) := by
  rw [anotherStatement, atKind_bind, h]
  rfl

theorem wholeSource_written (hitems : ∀ item ∈ items, Written g.statement (text item) item) {finish : Nat}
    (hs : s.At finish [] (items.flatMap (text · ++ ['\n']))) :
    ∃ t, wholeSource g scope s = .ok ((), t) ∧ t.found = items.reverse := by
  suffices hrepeats : ∃ t, Repeats (anotherStatement g) scope s (items.map fun _ => ()) t ∧
      t.found = items.reverse by
    obtain ⟨t, hrepeats, hfound⟩ := hrepeats
    exact ⟨t, discard_of_ok hrepeats.many, hfound⟩
  cases items with
  | nil =>
    have hkind : s.token.kind = .finish := by
      rw [hs.token_eq]
      rfl
    exact ⟨s, .done (anotherStatement_finish hkind), hs.found_eq⟩
  | cons item items =>
    obtain ⟨hfirst, hitems⟩ := List.forall_mem_cons.mp hitems
    have hline : Clear ['\n'] := .char (by decide) .nil
    have hgap : IsSpace ['\n'] := by simp [IsSpace]
    have htail : Clear (items.flatMap (['\n'] ++ text ·) ++ ['\n']) :=
      follows_flatMap hline fun item hitem tail htail =>
        .char (by decide) ((hitems item hitem).clear tail htail)
    rw [lines_cons] at hs
    generalize hrest : items.flatMap (['\n'] ++ text ·) ++ ['\n'] = rest at htail hs
    have hlength := hs.le
    rw [List.length_append] at hlength
    have hmore : Repeats (anotherStatement g) scope (.facing finish [item] rest) (items.map fun _ => ())
        (.facing finish (items.reverse ++ [item]) ['\n']) := by
      have hpositive := congrArg List.length hrest
      rw [List.length_append, List.length_singleton] at hpositive
      rw [← hrest]
      refine repeats_items hitems hgap hline (fun item hitem s found tail htail hat =>
        anotherStatement_written (hitems item hitem) htail hat) (fun found => ?_) (by rw [hrest]; omega)
      have hend : (State.facing finish found ['\n']).At finish found [] :=
        at_facing found hgap (by simp [NoGap]) (by simp; omega)
      exact anotherStatement_finish (by rw [hend.token_eq]; rfl)
    refine ⟨_, .more (anotherStatement_written hfirst htail hs) ?_ hmore, ?_⟩
    · have hshorter := facing_here_le finish [item] rest
      have hnonempty := hfirst.nonempty
      rw [hs.here, List.length_append]
      omega
    · exact (List.reverse_cons).symm

theorem noGap_written (hitems : ∀ item ∈ items, Written g.statement (text item) item) :
    NoGap (items.flatMap (text · ++ ['\n'])) := by
  cases items with
  | nil => simp [NoGap]
  | cons item items =>
    rw [lines_cons]
    exact (hitems item (by simp)).noGap _

end Sources

theorem interpreterLine_written {items : List Item} {g : Grammar} {text : Item → List Char}
    (hitems : ∀ item ∈ items, Written g.statement (text item) item) :
    interpreterLine (items.flatMap (text · ++ ['\n'])) = [] := by
  cases items with
  | nil => rfl
  | cons item items =>
    obtain ⟨word, more, htext, hword⟩ := (hitems item (by simp)).word
    obtain ⟨c, word, rfl⟩ := List.exists_cons_of_ne_nil (isWord_chars hword).1
    have hletter := (isWord_chars hword).2 c (by simp)
    rw [lines_cons, htext, List.cons_append, List.cons_append, interpreterLine]
    intro _ hmark
    rw [(List.cons.inj hmark).1] at hletter
    cases hletter

/-- Ordinary declarations are read back from their text, each one as it was. -/
theorem parseSource_sourceText (quote : Quote) {items : List Item}
    (hitems : ∀ item ∈ items, item.Ordinary) : parseSource (sourceText quote items) = .ok items := by
  have htext : (sourceText quote items).toList =
      items.flatMap (fun item => item.written quote [] ++ ['\n']) := by
    rw [sourceText, String.toList_ofList, Item.writtenAll_eq_map, List.flatMap_map]
  generalize hsource : items.flatMap (fun item => item.written quote [] ++ ['\n']) = source at htext
  have hwritten : ∀ item ∈ items,
      Written (Grammar.ofDepth (depthFor source.length)).statement (item.written quote []) item := by
    intro item hitem
    have hlength := length_le_flatMap (fun item : Item => item.written quote [] ++ ['\n']) hitem
    rw [hsource, List.length_append] at hlength
    exact (hitems item hitem).readBack quote (2 * source.length + 7) [] isSpace_nil (by omega)
  have hline := interpreterLine_written hwritten
  have hnoGap := noGap_written hwritten
  rw [hsource] at hline hnoGap
  have hat := first_at hline hnoGap
  obtain ⟨t, hrun, hfound⟩ : ∃ t, wholeSource (.ofDepth (depthFor source.length)) {} (State.first source) =
      .ok ((), t) ∧ t.found = items.reverse := wholeSource_written hwritten (by rwa [hsource])
  have hparse : parse source = .ok items := by
    simp only [parse, hrun, hfound, List.reverse_reverse]
  rw [parseSource, htext, hparse]
  rfl

namespace Shop

def names : TypeNode := .array "Name[]" (.reference "Name" "Name" [])

def label : TypeNode := .union "\"none\" | Name[]" [.literal "\"none\"" (.string "none"), names]

def labels : TypeNode := .reference "List<\"none\" | Name[]>" "List" [label]

def price : TypeNode :=
  .parenthesized "({ amount?: number; })"
    (.object "{ amount?: number; }" [⟨"amount", true, some (.reference "number" "number" [])⟩])

def items : List Item :=
  [.namespaceDecl "Shop"
    [.interfaceDecl "Cart" ["Base", "Dated"] [⟨"labels", true, some labels⟩, ⟨"owner", false, none⟩],
      .enumDecl "Size" true [⟨"Small", some (.string "s")⟩, ⟨"Large", some (.number "12")⟩, ⟨"Any", none⟩],
      .functionDecl "total" [.aliasDecl "Price" price]]]

example : sourceText .double items =
    "namespace Shop \x7b
  interface Cart extends Base, Dated \x7b
    labels?: List<\"none\" | Name[]>;
    owner;
  \x7d
  const enum Size \x7b
    Small = \"s\",
    Large = 12,
    Any,
  \x7d
  function total() \x7b
    type Price = (\x7b amount?: number; \x7d);
  \x7d
\x7d
" := by decide +kernel

theorem labels_ordinary : labels.Ordinary := by
  have hnames : names.Ordinary := .array (.name (by decide)) rfl (by decide)
  have hlabel : label.Ordinary := by
    refine .union (by decide) ?_ ?_ (by decide)
    · exact List.forall_mem_cons.mpr ⟨.quoted .double (by decide) (by decide),
        List.forall_mem_singleton.mpr hnames⟩
    · simp [TypeNode.isUnion, names]
  exact .generic (by decide) (by decide) (List.forall_mem_singleton.mpr hlabel) (by decide)

theorem price_ordinary : price.Ordinary := by
  refine .parenthesized (.object (by decide) ?_ (by decide)) (by decide)
  rintro m hm type htype
  obtain rfl := List.mem_singleton.mp hm
  cases htype
  exact .primitive .number

theorem items_ordinary : ∀ item ∈ items, item.Ordinary := by
  have hcart : ∀ m ∈ [(⟨"labels", true, some labels⟩ : Member), ⟨"owner", false, none⟩],
      Field.Ordinary m := by
    refine List.forall_mem_cons.mpr ⟨⟨by decide, ?_⟩, List.forall_mem_singleton.mpr ⟨by decide, ?_⟩⟩
    · rintro type htype
      cases htype
      exact labels_ordinary
    · rintro type htype
      cases htype
  have hsize : ∀ m ∈ [(⟨"Small", some (.string "s")⟩ : EnumMember), ⟨"Large", some (.number "12")⟩,
      ⟨"Any", none⟩], m.Ordinary :=
    List.forall_mem_cons.mpr ⟨.string (by decide) (by decide), List.forall_mem_cons.mpr
      ⟨.number (by decide) 12, List.forall_mem_singleton.mpr (.plain (by decide))⟩⟩
  have hprice : (Item.aliasDecl "Price" price).Ordinary := .aliasDecl (by decide) price_ordinary
  refine List.forall_mem_singleton.mpr (.namespaceDecl (by decide) ?_)
  exact List.forall_mem_cons.mpr ⟨.interfaceDecl (by decide) (by decide) (by decide) hcart,
    List.forall_mem_cons.mpr ⟨.enumDecl (by decide) hsize, List.forall_mem_singleton.mpr
      (.functionDecl (by decide) (List.forall_mem_singleton.mpr hprice))⟩⟩

/-- The text of the shop is read back. -/
theorem parseSource_sourceText_items : (∀ item ∈ items, item.Ordinary) ∧
    parseSource (sourceText .double items) = .ok items :=
  ⟨items_ordinary, parseSource_sourceText .double items_ordinary⟩

end Shop

end DeclSchema.Syntax
