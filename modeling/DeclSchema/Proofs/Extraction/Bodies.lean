import DeclSchema.Proofs.Extraction.Meets

/-! # Bodies inside of other constructs

Whatever is defined in a body is met by the reader of the construct that the body belongs to. The
text in front of the body is known; of what follows it nothing is assumed but that it is read.
-/
namespace DeclSchema.Syntax
open Text

def bodyText (body rest : List Char) : List Char := '{' :: '\n' :: (body ++ '\n' :: '}' :: rest)

def arrowText (body rest : List Char) : List Char :=
  '(' :: ')' :: ([' '] ++ '=' :: '>' :: ([' '] ++ bodyText body rest))

/-- In front of this rest, whoever reads the body as a block meets the name. -/
def MeetsBody (g : Grammar) (name : String) (body rest : List Char) : Prop :=
  ∀ ⦃scope s finish found⦄, s.At finish found (bodyText body rest) → Meets name found (block g scope s)

def MeetsArrow (g : Grammar) (name : String) (body rest : List Char) : Prop :=
  ∀ ⦃scope s finish found⦄, s.At finish found (arrowText body rest) → Meets name found (g.value scope s)

section Places
variable {s : State} {finish : Nat} {found : List Item} {rest : List Char}

theorem noGap_bodyText (body rest : List Char) : NoGap (bodyText body rest) := noGap_mark (by decide) _

theorem noGap_arrowText (body rest : List Char) : NoGap (arrowText body rest) := noGap_mark (by decide) _

theorem noGap_equals (rest : List Char) : NoGap ('=' :: rest) := by
  rintro c hc
  cases hc
  decide

theorem State.At.token_arrow (h : s.At finish found ('=' :: '>' :: rest)) : s.token = ⟨.mark, ['=', '>']⟩ := by
  rw [h.token_eq]
  rfl

theorem State.At.next_arrow (h : s.At finish found ('=' :: '>' :: rest)) :
    s.next = .facing finish found rest :=
  have hat : s.At finish found (['=', '>'] ++ rest) := h
  hat.next_eq (by rw [h.token_arrow])

theorem State.At.behind_arrow (h : s.At finish found ('=' :: '>' :: ([' '] ++ rest))) (hrest : NoGap rest)
    (found' : List Item) : (State.facing finish found' ([' '] ++ rest)).At finish found' rest :=
  have hat : s.At finish found (['=', '>'] ++ ([' '] ++ rest)) := h
  hat.behind isSpace_single hrest found'

theorem unseen_of_ok {α : Type} {p : Parser α} {a : α} {scope : Scope} {items : List Item} {text : List Char}
    (h : s.At finish found text) (hp : p scope { s with found := [] } = .ok (a, .facing finish items rest)) :
    unseen p scope s = .ok (a, .facing finish found rest) := by
  refine map_of_ok (f := Prod.fst) (a := (a, items.reverse)) ?_
  rw [gather, hp, ← h.found_eq]
  rfl

theorem State.At.forgetful {text : List Char} (h : s.At finish found text) :
    ({ s with found := [] } : State).At finish [] text :=
  ⟨h.here, h.offset, rfl, h.placed⟩

end Places

section Arrows
variable {g : Grammar} {key : String} {body : List Char} {scope : Scope} {s : State}
  {finish : Nat} {found : List Item} {rest : List Char}

theorem arrowHead_run (h : s.At finish found ('(' :: ')' :: ([' '] ++ '=' :: '>' :: ([' '] ++ rest)))) :
    arrowHead g scope s = .ok ((), .facing finish found ([' '] ++ rest)) := by
  have hkind : (s.token.kind == .word) = false := by
    rw [h.token_mark (by decide)]
    rfl
  have hangle : s.token.isMark "<" = false := h.not_isMark (by decide) (by decide)
  have hclose := h.after_mark (noGap_mark (by decide) _) found
  have harrow := hclose.behind_mark isSpace_single (noGap_equals _) found
  have hcolon : (State.facing finish found ([' '] ++ '=' :: '>' :: ([' '] ++ rest))).token.isMark ":" = false := by
    rw [harrow.token_arrow]
    rfl
  have hmark : (State.facing finish found ([' '] ++ '=' :: '>' :: ([' '] ++ rest))).token.isMark "=>" = true := by
    rw [harrow.token_arrow]
    rfl
  unfold arrowHead
  rw [atKind_bind, hkind, if_neg Bool.false_ne_true, bind_of_ok (typeParameters?_none hangle),
    bind_of_ok (parameters_empty h), read_bind]
  cases scope.arrowTypes with
  | false =>
    rw [if_neg Bool.false_ne_true]
    show expect "=>" scope _ = _
    rw [expect_of_isMark hmark, harrow.next_arrow]
  | true =>
    rw [if_pos rfl, bind_of_ok (resultType?_none hcolon)]
    show expect "=>" scope _ = _
    rw [expect_of_isMark hmark, harrow.next_arrow]

variable [g.Steady]

/-- A function without parameters is read as such, with its body. -/
theorem arrow?_meets (hbody : MeetsBody g key body rest) (h : s.At finish found (arrowText body rest)) :
    Meets key found (arrow? g scope s) := by
  have hclose := h.after_mark (noGap_mark (by decide) _) found
  have harrow := hclose.behind_mark isSpace_single (noGap_equals _) found
  have hbrace := harrow.behind_arrow (noGap_bodyText body rest) found
  have harrowBody : Meets key found (arrowBody g scope (.facing finish found ([' '] ++ bodyText body rest))) := by
    rw [arrowBody, atMark_bind, hbrace.isMark (by decide) rfl, if_pos rfl]
    exact hbody hbrace
  rw [arrow?, bind_of_ok (optionally_of_ok (arrowHead_run h))]
  exact harrowBody.bind hbrace.placed

theorem anyValue_arrow (hbody : MeetsBody g key body rest) (h : s.At finish found (arrowText body rest)) :
    Meets key found (anyValue g scope s) := by
  have htoken : s.token = ⟨.mark, ['(']⟩ := h.token_mark (by decide)
  have hmark : ∀ mark : String, ['('] ≠ mark.toList → s.token.isMark mark = false := fun mark =>
    h.not_isMark (by decide)
  have hprimary : Meets key found (primaryValue g scope s) := by
    unfold primaryValue
    simp only [get_bind, htoken]
    rw [atMark_bind, h.isMark (by decide) rfl, if_pos rfl]
    exact (arrow?_meets hbody h).bind h.placed
  have hoperand : Meets key found (operand g scope s) := by
    unfold operand
    rw [get_bind, accept_bind, hmark _ (by decide), if_neg Bool.false_ne_true]
    simp only [List.any_cons, List.any_nil, hmark "+" (by decide), hmark "!" (by decide),
      hmark "~" (by decide), hmark "++" (by decide), hmark "--" (by decide), Bool.or_self,
      Bool.false_eq_true, if_false]
    exact hprimary.bind h.placed
  exact hoperand.bind h.placed

theorem MeetsBody.arrow (hbody : MeetsBody g key body rest) : MeetsArrow g.around key body rest :=
  fun _ _ _ _ h => anyValue_arrow hbody h

end Arrows

section Statements
variable {g : Grammar} [g.Steady] {key : String} {body : List Char} {scope : Scope} {s : State}
  {finish : Nat} {found : List Item} {rest : List Char}

omit [g.Steady] in
theorem anyStatement_block (hbody : MeetsBody g key body rest) (h : s.At finish found (bodyText body rest)) :
    Meets key found (anyStatement g scope s) := by
  have hcomment : commentMarks.any (·.isPrefixOf s.here) = false := by
    rw [h.here]
    rfl
  unfold anyStatement
  rw [get_bind, accept_bind, h.not_isMark (by decide) (by decide), if_neg Bool.false_ne_true, hcomment,
    if_neg Bool.false_ne_true, if_neg Bool.false_ne_true, atMark_bind, h.isMark (by decide) rfl, if_pos rfl]
  exact hbody h

/-- The first word of a declaration decides on its reader. -/
theorem anyStatement_declaration {word : String} {name : List Char} (hword : word ∈ declaringWords)
    (hname : isWord name = true) (hrest : EndsName rest)
    (h : s.At finish found (word.toList ++ ([' '] ++ (name ++ rest))))
    (hp : Meets key found (declaration? g scope s)) : Meets key found (anyStatement g scope s) := by
  have hdeclaring : ∀ word ∈ declaringWords, isWord word.toList = true := by decide
  obtain ⟨htoken, hnext, -⟩ := behind_word h (hdeclaring word hword) hname hrest
  have hcolon : s.next.token.isMark ":" = false := by
    rw [hnext]
    rfl
  rw [anyStatement_eq_word h (hdeclaring word hword) (endsName_of_mem (by decide) _) hcolon]
  rw [← wordStatement?_declaring hword htoken] at hp
  exact hp.bind h.placed

theorem namespaceFrom_meets {name : String} (hname : isName name = true) (hbody : MeetsBody g key body rest)
    (h : s.At finish found (name.toList ++ ([' '] ++ bodyText body rest))) :
    Meets key found (namespaceFrom g scope s) := by
  have hword := isName_word hname
  have hends := endsName_of_mem (m := ' ') (by decide) (bodyText body rest)
  have hbrace := fun found => h.behind isSpace_single (noGap_bodyText body rest) found
  have hstring : (s.token.kind == .string) = false := by
    rw [h.token_word hword hends]
    rfl
  have hpoint : (State.facing finish found ([' '] ++ bodyText body rest)).token.isMark "." = false :=
    (hbrace found).not_isMark (by decide) (by decide)
  have hinside : Meets key [] ((do if ← atMark "\x7b" then block g : Parser Unit) scope
      (.facing finish [] ([' '] ++ bodyText body rest))) := by
    rw [atMark_bind, (hbrace []).isMark (by decide) rfl, if_pos rfl]
    exact hbody (hbrace [])
  unfold namespaceFrom
  rw [get_bind, atKind_bind, hstring, if_neg Bool.false_ne_true, bind_of_ok (qualifiedName_run h hword hends hpoint)]
  dsimp only
  rw [get_bind]
  refine Meets.gather_bind (hbrace found).placed hinside fun a items u hitems _ hfound => ?_
  exact .emit (by rw [hfound]; exact List.suffix_refl _) (hitems.namespaceDecl _)

/-- What is met in the head of a function or in its body is met by the function. -/
theorem functionDeclaration_meets {name : String} (hname : isName name = true)
    (h : s.At finish found ("function".toList ++ ([' '] ++ (name.toList ++ '(' :: rest))))
    (hp : Meets key [] ((do
      inScope (fun _ => { lineEnd := .afterHead }) (signature g)
      if ← atMark "\x7b" then
        block g
        return true
      else
        terminator .afterHead
        return false : Parser Bool) scope (.facing finish [] ('(' :: rest)))) :
    Meets key found (functionDeclaration g scope s) := by
  have hword := isName_word hname
  have hnameAt := h.behind isSpace_single ((Solid.word hword).noGap _) found
  have hends := endsName_of_mem (m := '(') (by decide) rest
  have hopen := hnameAt.after (noGap_mark (by decide) _) found
  have hasync : s.token.isWord "async" = false := by
    rw [h.token_word (by decide) (endsName_of_mem (by decide) _)]
    rfl
  have hstar : (State.facing finish found ([' '] ++ (name.toList ++ '(' :: rest))).token.isMark "*" = false := by
    rw [hnameAt.token_word hword hends]
    rfl
  unfold functionDeclaration
  rw [bind_of_ok (discard_of_ok (acceptWord_of_not_isWord hasync)),
    bind_of_ok (expectWord_at h (by decide) (endsName_of_mem (by decide) _)),
    bind_of_ok (discard_of_ok (accept_of_not_isMark hstar)), bind_of_ok (anyWord_at hnameAt hword hends)]
  refine Meets.gather_bind hopen.placed hp fun hasBody items u hitems _ hfound => ?_
  have hkeeps : found <:+ u.found := by
    rw [hfound]
    exact List.suffix_refl _
  cases hasBody with
  | true => exact .emit hkeeps (hitems.functionDecl _)
  | false => exact .emitAll hkeeps hitems

theorem functionDeclaration_body {name : String} (hname : isName name = true) (hbody : MeetsBody g key body rest)
    (h : s.At finish found ("function".toList ++ ([' '] ++ (name.toList ++ '(' :: ')' :: ([' '] ++
      bodyText body rest))))) : Meets key found (functionDeclaration g scope s) := by
  refine functionDeclaration_meets hname h ?_
  have hnameAt := h.behind isSpace_single ((Solid.word (isName_word hname)).noGap _) []
  have hopen := hnameAt.after (noGap_mark (by decide) _) []
  have hbrace := (hopen.after_mark (noGap_mark (by decide) _) []).behind_mark isSpace_single
    (noGap_bodyText body rest) []
  have hsignature : inScope (fun _ => { lineEnd := .afterHead }) (signature g) scope
      (.facing finish [] ('(' :: ')' :: ([' '] ++ bodyText body rest))) =
        .ok ((), .facing finish [] ([' '] ++ bodyText body rest)) :=
    signature_empty hopen (hbrace.not_isMark (by decide) (by decide))
  rw [bind_of_ok hsignature, atMark_bind, hbrace.isMark (by decide) rfl, if_pos rfl]
  exact (hbody hbrace).bind hbrace.placed

theorem initializer?_meets (hvalue : MeetsArrow g key body rest)
    (h : s.At finish found ('=' :: ([' '] ++ arrowText body rest))) :
    Meets key found (initializer? g scope s) := by
  have harrow := h.behind_mark isSpace_single (noGap_arrowText body rest) found
  rw [initializer?, bind_of_ok (accept_equals h), if_pos rfl]
  exact (hvalue harrow).bind harrow.placed

omit [g.Steady] in
theorem bindingPattern_name {name : String} (hname : isName name = true) (hrest : EndsName rest)
    (h : s.At finish found (name.toList ++ rest)) :
    bindingPattern g scope s = .ok ((), .facing finish found rest) := by
  have hmark : ∀ mark : String, s.token.isMark mark = false := by
    intro mark
    rw [h.token_word (isName_word hname) hrest]
    rfl
  rw [bindingPattern, accept_bind, hmark, if_neg Bool.false_ne_true, if_neg Bool.false_ne_true, accept_bind,
    hmark, if_neg Bool.false_ne_true, if_neg Bool.false_ne_true,
    discard_of_ok (anyWord_at h (isName_word hname) hrest)]

omit [g.Steady] in
theorem statedType?_none (hcolon : s.token.isMark ":" = false) : statedType? g scope s = .ok (none, s) := by
  rw [statedType?, atMark_bind, hcolon]
  rfl

/-- The value of a constant is searched. -/
theorem declarator_meets {name : String} (hname : isName name = true) (hvalue : MeetsArrow g.around key body rest)
    (h : s.At finish found (name.toList ++ ([' '] ++ '=' :: ([' '] ++ arrowText body rest)))) :
    Meets key found (declarator g.around true scope s) := by
  have hword := isName_word hname
  have hends := endsName_of_mem (m := ' ') (by decide) ('=' :: ([' '] ++ arrowText body rest))
  have hequals := fun found => h.behind isSpace_single (noGap_equals _) found
  have hnamed : (s.token.kind == .word) = true := by
    rw [h.token_word hword hends]
    rfl
  have hpattern : unseen g.around.pattern scope s =
      .ok ((), .facing finish found ([' '] ++ '=' :: ([' '] ++ arrowText body rest))) :=
    unseen_of_ok h (bindingPattern_name hname hends h.forgetful)
  have hmark := fun found => (hequals found).not_isMark_equals
  have htype : ∀ change : Scope → Scope, inScope change (unseen (statedType? g.around)) scope
      (.facing finish found ([' '] ++ '=' :: ([' '] ++ arrowText body rest))) =
        .ok (none, .facing finish found ([' '] ++ '=' :: ([' '] ++ arrowText body rest))) :=
    fun change => unseen_of_ok (hequals found) (statedType?_none (hmark [] ":" (by decide)))
  unfold declarator
  rw [atKind_bind, hnamed, current_bind, bind_of_ok hpattern, if_pos rfl,
    bind_of_ok (discard_of_ok (accept_of_not_isMark (hmark found "!" (by decide))))]
  dsimp only
  rw [bind_of_ok (htype _)]
  refine Meets.gather_bind (hequals found).placed (initializer?_meets hvalue (hequals found).forgetful)
    fun value items u hitems hplaced hfound => ?_
  have hkeeps : found <:+ u.found := by
    rw [hfound, (hequals found).found_eq]
  dsimp only
  rw [Bool.and_self, if_pos rfl, emit_bind, bind_of_ok (emitAll_run _ _ _)]
  exact .pure _ (hitems.met (hkeeps.trans (List.suffix_cons _ _)))

theorem variableDeclaration_meets {name : String} (hname : isName name = true)
    (hvalue : MeetsArrow g.around key body rest) (h : s.At finish found ("const".toList ++ ([' '] ++ (name.toList ++
      ([' '] ++ '=' :: ([' '] ++ arrowText body rest)))))) :
    Meets key found (variableDeclaration g.around scope s) := by
  have hnameAt := h.behind isSpace_single ((Solid.word (isName_word hname)).noGap _) found
  have hdeclarators : Meets key found (inScope (fun _ => { lineEnd := .afterValue }) (declarators g.around) scope
      (.facing finish found ([' '] ++ (name.toList ++ ([' '] ++ '=' :: ([' '] ++ arrowText body rest)))))) :=
    (declarator_meets hname hvalue hnameAt).bind hnameAt.placed
  rw [variableDeclaration, discard_take_bind (h.isWhole_word (by decide) (endsName_of_mem (by decide) _)),
    h.next_word (by decide) (endsName_of_mem (by decide) _)]
  exact hdeclarators.bind hnameAt.placed

theorem anyStatement_namespace {name : String} (hname : isName name = true) (hbody : MeetsBody g key body rest)
    (h : s.At finish found ("namespace".toList ++ ([' '] ++ (name.toList ++ ([' '] ++ bodyText body rest))))) :
    Meets key found (anyStatement g scope s) := by
  have hword := isName_word hname
  obtain ⟨htoken, hnext, hends⟩ := behind_word h (by decide) hword (endsName_of_mem (by decide) _)
  have hnameAt := h.behind isSpace_single ((Solid.word hword).noGap _) found
  obtain ⟨string, hstring⟩ : ∃ string, stringFollowing scope s = .ok (string, s) := ⟨_, rfl⟩
  refine anyStatement_declaration (by decide) hword (endsName_of_mem (by decide) _) h ?_
  unfold declaration?
  simp only [get_bind, htoken, String.ofList_toList]
  rw [if_neg (by decide), bind_of_ok (namesFollowing_word hnext hends), bind_of_ok hstring, Bool.true_or,
    if_pos rfl]
  have hnamespace : Meets key found ((do discard take; namespaceFrom g : Parser Unit) scope s) := by
    rw [discard_take_bind (h.isWhole_word (by decide) (endsName_of_mem (by decide) _)),
      h.next_word (by decide) (endsName_of_mem (by decide) _)]
    exact namespaceFrom_meets hname hbody hnameAt
  exact hnamespace.bind h.placed

theorem anyStatement_function {name : String} (hname : isName name = true)
    (h : s.At finish found ("function".toList ++ ([' '] ++ (name.toList ++ '(' :: rest))))
    (hp : Meets key found (functionDeclaration g scope s)) : Meets key found (anyStatement g scope s) := by
  obtain ⟨htoken, hnext, -⟩ := behind_word h (by decide) (isName_word hname) (endsName_of_mem (by decide) _)
  refine anyStatement_declaration (by decide) (isName_word hname) (endsName_of_mem (by decide) _) h ?_
  unfold declaration?
  simp only [get_bind, htoken, hnext, String.ofList_toList]
  rw [if_neg (by decide), beq_self_eq_true, Bool.true_or, if_pos rfl]
  exact hp.bind h.placed

theorem anyStatement_const {name : String} (hname : isName name = true) (hrest : EndsName rest)
    (h : s.At finish found ("const".toList ++ ([' '] ++ (name.toList ++ rest))))
    (hp : Meets key found (variableDeclaration g scope s)) : Meets key found (anyStatement g scope s) := by
  obtain ⟨htoken, hnext, -⟩ := behind_word h (by decide) (isName_word hname) hrest
  have henum : s.next.token.isWord "enum" = false := by
    have hne : name.toList ≠ "enum".toList := fun heq =>
      isName_ne hname (by decide) (String.toList_inj.mp heq)
    rw [hnext]
    simpa [Token.isWord] using hne
  refine anyStatement_declaration (by decide) (isName_word hname) hrest h ?_
  unfold declaration?
  simp only [get_bind, htoken, String.ofList_toList]
  rw [if_neg (by decide), henum, if_neg Bool.false_ne_true]
  exact hp.bind h.placed

end Statements

end DeclSchema.Syntax
