import DeclSchema.Proofs.Extraction.Calls

/-! # Bodies in classes and parameters

What is met in a method, in the value of a field or in a decorator of a class belongs to the class;
what is met in the value that a parameter falls back to belongs to the function.
-/
namespace DeclSchema.Syntax
open Text

variable {g : Grammar} [g.Steady] {key : String} {body : List Char} {scope : Scope} {s : State}
  {finish : Nat} {found : List Item} {rest : List Char}

theorem State.At.token_at (h : s.At finish found ('@' :: rest)) : s.token = ⟨.mark, ['@']⟩ := by
  rw [h.token_eq]
  rfl

/-- A decorator with a function as its first argument. -/
theorem decorator_meets {name : String} (hname : isName name = true) (hvalue : MeetsArrow g key body rest)
    (h : s.At finish found ('@' :: (name.toList ++ '(' :: arrowText body rest))) :
    Meets key found (decorator g scope s) := by
  have hword := isName_word hname
  have hends := endsName_of_mem (m := '(') (by decide) (arrowText body rest)
  have hsplit : s.At finish found (['@'] ++ (name.toList ++ '(' :: arrowText body rest)) := h
  have hnext := hsplit.next_eq (by rw [h.token_at])
  have hnameAt := hsplit.after ((Solid.word hword).noGap _) found
  have hopen := hnameAt.after (noGap_mark (by decide) _) found
  have hmark : s.token.isMark "@" = true := by
    rw [h.token_at]
    rfl
  have hparen : (State.facing finish found (name.toList ++ '(' :: arrowText body rest)).token.isMark "(" = false := by
    rw [hnameAt.token_word hword hends]
    rfl
  have hparts : Repeats (do
      if ← accept "." then
        if ← atKind .privateName then discard take else discard anyWord
        return some ()
      else return none) scope (.facing finish found ('(' :: arrowText body rest)) []
        (.facing finish found ('(' :: arrowText body rest)) := by
    refine .done ?_
    rw [accept_bind, hopen.not_isMark (by decide) (by decide)]
    rfl
  dsimp only [decorator]
  rw [bind_of_ok (expect_of_isMark hmark), hnext, accept_bind, hparen, if_neg Bool.false_ne_true,
    if_neg Bool.false_ne_true, bind_of_ok (discard_of_ok (anyWord_at hnameAt hword hends)),
    bind_of_ok (discard_of_ok hparts.many), atMark_bind, hopen.not_isMark (by decide) (by decide),
    if_neg Bool.false_ne_true]
  show Meets key found ((do if ← atMark "(" then discard <| arguments g : Parser Unit) scope _)
  rw [atMark_bind, hopen.isMark (by decide) rfl, if_pos rfl]
  exact (arguments_meets hvalue hopen).discard hopen.placed

theorem decorators_meets {name : String} (hname : isName name = true) (hvalue : MeetsArrow g key body rest)
    (h : s.At finish found ('@' :: (name.toList ++ '(' :: arrowText body rest))) :
    Meets key found (decorators g scope s) := by
  have hmark : s.token.isMark "@" = true := by
    rw [h.token_at]
    rfl
  refine Meets.discard h.placed (.many h.placed ?_)
  rw [atMark_bind, hmark, if_pos rfl]
  exact (decorator_meets hname hvalue h).bind h.placed

omit [g.Steady] in
theorem decorators_none (h : s.token.isMark "@" = false) : decorators g scope s = .ok ((), s) := by
  have hnone : Repeats (do
      if ← atMark "@" then
        decorator g
        return some ()
      else return none) scope s [] s := by
    refine .done ?_
    rw [atMark_bind, h]
    rfl
  exact discard_of_ok hnone.many

/-- What a decorator of a class declares belongs to the class or stands before it. -/
theorem classFrom_decorated {decoration : List Item} (hs : s.Placed) (hkeeps : found <:+ s.found)
    (hdecoration : Defines key decoration) : Meets key found (classFrom g decoration scope s) := by
  have hrest : Steady (do
      typeParameters? g
      discard <| classHeritage g
      discard <| classBody g false : Parser Unit) := inferInstance
  unfold classFrom
  refine .after hs hkeeps fun _ u hu hkeeps => ?_
  rw [atKind_bind, current_bind]
  split
  · refine .after hu hkeeps fun name v hv hkeeps => ?_
    refine .after hv hkeeps fun heritage w hw hkeeps => ?_
    refine .after hw hkeeps fun r t _ hkeeps => ?_
    exact .emit hkeeps ((hdecoration.mono (List.subset_append_left _ _)).classDecl _ _ _)
  · rw [bind_of_ok (emitAll_run _ _ _)]
    exact .of_met hu (hdecoration.met hkeeps)

theorem classDeclaration_decorated {decoration : List Item} (hs : s.Placed) (hkeeps : found <:+ s.found)
    (hdecoration : Defines key decoration) : Meets key found (classDeclaration g decoration scope s) := by
  unfold classDeclaration
  refine .after hs hkeeps fun isAbstract u hu hkeeps => ?_
  split
  · rw [following_bind]
    split
    · exact .after hu hkeeps fun _ v hv hkeeps => classFrom_decorated hv hkeeps hdecoration
    · exact classFrom_decorated hu hkeeps hdecoration
  · exact classFrom_decorated hu hkeeps hdecoration

theorem decoratedStatement_meets {name : String} (hname : isName name = true) (hvalue : MeetsArrow g key body rest)
    (h : s.At finish found ('@' :: (name.toList ++ '(' :: arrowText body rest))) :
    Meets key found (decoratedStatement g scope s) := by
  unfold decoratedStatement
  refine .gather_bind h.placed (decorators_meets hname hvalue h.forgetful) fun _ items u hitems hu hfound => ?_
  have hkeeps : found <:+ u.found := by
    rw [hfound, h.found_eq]
  refine .after hu hkeeps fun exported v hv hkeeps => ?_
  split
  · rw [bind_of_ok (emitAll_run _ _ _)]
    exact .of_met hv (hitems.met hkeeps)
  · exact classDeclaration_decorated hv hkeeps hitems

theorem anyStatement_decorated {name : String} (hname : isName name = true) (hvalue : MeetsArrow g key body rest)
    (h : s.At finish found ('@' :: (name.toList ++ '(' :: arrowText body rest))) :
    Meets key found (anyStatement g scope s) := by
  have hmark : ∀ mark : String, ['@'] ≠ mark.toList → s.token.isMark mark = false := by
    intro mark hmark
    rw [h.token_at]
    simpa [Token.isMark] using hmark
  have hat : s.token.isMark "@" = true := by
    rw [h.token_at]
    rfl
  have hcomment : commentMarks.any (·.isPrefixOf s.here) = false := by
    rw [h.here]
    rfl
  unfold anyStatement
  rw [get_bind, accept_bind, hmark ";" (by decide), if_neg Bool.false_ne_true, hcomment,
    if_neg Bool.false_ne_true, if_neg Bool.false_ne_true, atMark_bind, hmark "\x7b" (by decide),
    if_neg Bool.false_ne_true, atMark_bind, hat, if_pos rfl]
  exact decoratedStatement_meets hname hvalue h

omit [g.Steady] in
/-- In front of its name a member has neither decorators nor modifiers. -/
theorem classMember_name {name : String} (hname : isName name = true) (hrest : EndsName rest)
    (h : s.At finish found (name.toList ++ rest)) :
    classMember g true scope s = (do
      let isMethod := (← atSignature) || ((← atMark "?") && ["(", "<"].any (← following).isMark)
      if isMethod then
        method g []
        return none
      else return some (← field g true name) : Parser (Option Member)) scope (.facing finish found rest) := by
  have htoken := h.token_word (isName_word hname) hrest
  have hmark : ∀ mark : String, s.token.isMark mark = false := by
    intro mark
    rw [htoken]
    rfl
  have hstatic : s.token.isWord "static" = false := by
    have hne : name.toList ≠ "static".toList := fun heq =>
      isName_ne hname (by decide) (String.toList_inj.mp heq)
    rw [htoken]
    simpa [Token.isWord] using hne
  have hstarts : s.token.startsName = true := by
    rw [htoken]
    rfl
  have hdecorators : gather (decorators g) scope s = .ok (((), []), s) := by
    rw [gather, decorators_none (s := { s with found := [] }) (hmark "@")]
    rfl
  have hnaming : gather (propertyName g) scope s = .ok ((name, []), .facing finish found rest) := by
    rw [gather, propertyName_name (s := { s with found := [] }) htoken,
      h.forgetful.next_word (isName_word hname) hrest, ← h.found_eq]
    rfl
  dsimp only [classMember]
  rw [accept_bind, hmark, if_neg Bool.false_ne_true, if_neg Bool.false_ne_true, atWord_bind, hstatic,
    following_bind, Bool.false_and, if_neg Bool.false_ne_true, bind_of_ok hdecorators,
    bind_of_ok (modifiers_name (by decide) hname htoken),
    bind_of_ok (atIndexSignature_of_not_isMark (hmark "[")), if_neg Bool.false_ne_true]
  dsimp only [declaredMember]
  rw [current_bind, hstarts,
    Bool.not_true, if_neg Bool.false_ne_true, bind_of_ok hnaming]
  simp only [atSignature_bind, atMark_bind, following_bind]
  generalize ((State.facing finish found rest).token.isMark "(" || (State.facing finish found rest).token.isMark "<"
    || (State.facing finish found rest).token.isMark "?" && ["(", "<"].any _) = isMethod
  cases isMethod with
  | true => rfl
  | false => rfl

theorem classMember_method {name : String} (hname : isName name = true) (hbody : MeetsBody g key body rest)
    (h : s.At finish found (name.toList ++ '(' :: ')' :: ([' '] ++ bodyText body rest))) :
    Meets key found (classMember g true scope s) := by
  have hopen := h.after (noGap_mark (by decide) _) found
  have hbrace := (hopen.after_mark (noGap_mark (by decide) _) found).behind_mark isSpace_single
    (noGap_bodyText body rest) found
  have hmethod : Meets key found (method g [] scope
      (.facing finish found ('(' :: ')' :: ([' '] ++ bodyText body rest)))) := by
    unfold method
    rw [discard_accept_bind, hopen.not_isMark (by decide) (by decide), if_neg Bool.false_ne_true,
      bind_of_ok (signature_empty hopen (hbrace.not_isMark (by decide) (by decide)))]
    rw [if_neg (by decide), if_neg (by decide), atMark_bind, hbrace.isMark (by decide) rfl]
    exact hbody hbrace
  rw [classMember_name hname (endsName_of_mem (by decide) _) h, atSignature_bind,
    hopen.isMark (by decide) rfl, atMark_bind, following_bind]
  exact hmethod.bind hopen.placed

theorem classMember_field {name : String} (hname : isName name = true) (hvalue : MeetsArrow g key body rest)
    (h : s.At finish found (name.toList ++ ([' '] ++ '=' :: ([' '] ++ arrowText body rest)))) :
    Meets key found (classMember g true scope s) := by
  have hequals := fun found => h.behind isSpace_single (noGap_equals _) found
  have harrow := (hequals found).behind_mark isSpace_single (noGap_arrowText body rest) found
  have hmark := fun found => (hequals found).not_isMark_equals
  have htype : unseen (statedType? g) scope (.facing finish found ([' '] ++ '=' :: ([' '] ++ arrowText body rest))) =
      .ok (none, .facing finish found ([' '] ++ '=' :: ([' '] ++ arrowText body rest))) :=
    unseen_of_ok (hequals found) (statedType?_none (hmark [] ":" (by decide)))
  have hfield : Meets key found (field g true name scope
      (.facing finish found ([' '] ++ '=' :: ([' '] ++ arrowText body rest)))) := by
    have hinner : Meets key found (inScope (fun _ => { lineEnd := .afterValue }) g.value scope
        (.facing finish found ([' '] ++ arrowText body rest))) := hvalue harrow
    dsimp only [field]
    rw [accept_bind, hmark found "?" (by decide), if_neg Bool.false_ne_true, Bool.not_false, if_pos rfl,
      discard_accept_bind, hmark found "!" (by decide), if_neg Bool.false_ne_true, if_pos rfl, bind_of_ok htype,
      bind_of_ok (accept_equals (hequals found)), if_pos rfl]
    exact (hinner.discard harrow.placed).bind harrow.placed
  have hends : EndsName ([' '] ++ '=' :: ([' '] ++ arrowText body rest)) := endsName_of_mem (by decide) _
  rw [classMember_name hname hends h, atSignature_bind, hmark found "(" (by decide),
    hmark found "<" (by decide), atMark_bind, hmark found "?" (by decide), following_bind]
  exact hfield.bind (hequals found).placed

/-- What the first member of a class declares belongs to the class. -/
theorem classBody_meets {name : String} (hname : isName name = true) (hrest : EndsName rest)
    (h : s.At finish found ('{' :: ([' '] ++ (name.toList ++ rest))))
    (hmember : ∀ u, u.At finish found (name.toList ++ rest) →
      Meets key found (classMember g true { lineEnd := .afterType } u)) :
    Meets key found (classBody g true scope s) := by
  have hat := h.behind_mark isSpace_single ((Solid.word (isName_word hname)).noGap _) found
  have hmembers : Meets key found (inScope (fun _ => { lineEnd := .afterType }) (many do
      if ← atEnd then return none else return some (← classMember g true)) scope (.facing finish found ([' '] ++ (name.toList ++ rest)))) := by
    refine Meets.many hat.placed ?_
    rw [atEnd_bind, hat.token_word (isName_word hname) hrest]
    exact (hmember _ hat).bind hat.placed
  rw [classBody, bind_of_ok (expect_at h (by decide) rfl)]
  exact hmembers.bind hat.placed

theorem classFrom_meets {name : String} {text : List Char} (hname : isName name = true)
    (h : s.At finish found ("class".toList ++ ([' '] ++ (name.toList ++ ([' '] ++ '{' :: ([' '] ++ text))))))
    (hbody : ∀ u, u.At finish [] ('{' :: ([' '] ++ text)) → Meets key [] (classBody g true scope u)) :
    Meets key found (classFrom g [] scope s) := by
  have hword := isName_word hname
  have hends : EndsName ([' '] ++ '{' :: ([' '] ++ text)) := endsName_of_mem (by decide) _
  have hnameAt := h.behind isSpace_single ((Solid.word hword).noGap _) found
  have hbrace := fun found => hnameAt.behind isSpace_single (noGap_mark (by decide) _) found
  have hnamed : ((State.facing finish found ([' '] ++ (name.toList ++ ([' '] ++ '{' :: ([' '] ++ text))))).token.kind
        == .word && !(State.facing finish found ([' '] ++ (name.toList ++
          ([' '] ++ '{' :: ([' '] ++ text))))).token.isOneOf ["extends", "implements"]) = true := by
    have hne : ∀ word ∈ keywords, name.toList ≠ word.toList := fun word hword heq =>
      isName_ne hname hword (String.toList_inj.mp heq)
    rw [hnameAt.token_word hword hends]
    simpa [Token.isOneOf] using And.intro (hne "extends" (by decide)) (hne "implements" (by decide))
  have hheritage : unseen (do
      typeParameters? g
      classHeritage g) scope (.facing finish found ([' '] ++ '{' :: ([' '] ++ text))) =
        .ok ([], .facing finish found ([' '] ++ '{' :: ([' '] ++ text))) := by
    have hangle : (State.facing finish [] ([' '] ++ '{' :: ([' '] ++ text))).token.isMark "<" = false :=
      (hbrace []).not_isMark (by decide) (by decide)
    have hclause : ∀ word : String,
        (State.facing finish [] ([' '] ++ '{' :: ([' '] ++ text))).token.isWord word = false := by
      intro word
      rw [(hbrace []).token_mark (by decide)]
      rfl
    have hclauses : classHeritage g scope (.facing finish [] ([' '] ++ '{' :: ([' '] ++ text))) =
        .ok ([], .facing finish [] ([' '] ++ '{' :: ([' '] ++ text))) := by
      dsimp only [classHeritage, enclosed, inScope]
      rw [bind_of_ok (acceptWord_of_not_isWord (hclause "extends")), if_neg Bool.false_ne_true, pure_bind,
        bind_of_ok (acceptWord_of_not_isWord (hclause "implements")), if_neg Bool.false_ne_true, pure_bind,
        pure_run]
      rfl
    have hinside : (do
        typeParameters? g
        classHeritage g) scope (.facing finish [] ([' '] ++ '{' :: ([' '] ++ text))) =
          .ok ([], .facing finish [] ([' '] ++ '{' :: ([' '] ++ text))) := by
      rw [bind_of_ok (typeParameters?_none hangle), hclauses]
    exact unseen_of_ok (hbrace found) hinside
  rw [classFrom, bind_of_ok (expectWord_at h (by decide) (endsName_of_mem (by decide) _)), atKind_bind,
    current_bind, hnamed, if_pos rfl, bind_of_ok (anyWord_at hnameAt hword hends), bind_of_ok hheritage]
  refine .gather_bind (hbrace found).placed (hbody _ (hbrace [])) fun members nested u hnested _ hfound => ?_
  exact .emit (by rw [hfound]; exact List.suffix_refl _) (hnested.classDecl _ _ _)

theorem anyStatement_class {name : String} {text : List Char} (hname : isName name = true)
    (h : s.At finish found ("class".toList ++ ([' '] ++ (name.toList ++ ([' '] ++ '{' :: ([' '] ++ text))))))
    (hbody : ∀ u, u.At finish [] ('{' :: ([' '] ++ text)) → Meets key [] (classBody g true scope u)) :
    Meets key found (anyStatement g scope s) := by
  have hends : EndsName ([' '] ++ '{' :: ([' '] ++ text)) := endsName_of_mem (by decide) _
  obtain ⟨htoken, hnext, -⟩ := behind_word h (by decide) (isName_word hname) hends
  have hclass : Meets key found (classDeclaration g [] scope s) := by
    have habstract : s.token.isWord "abstract" = false := by
      rw [htoken]
      rfl
    rw [classDeclaration, bind_of_ok (acceptWord_of_not_isWord habstract), if_neg Bool.false_ne_true]
    exact classFrom_meets hname h hbody
  have hne : ∀ word ∈ keywords, name.toList ≠ word.toList := fun word hword heq =>
    isName_ne hname hword (String.toList_inj.mp heq)
  have hnamed : (s.next.token.kind == .word && !s.next.token.isOneOf ["extends", "implements"]) = true := by
    rw [hnext]
    simpa [Token.isOneOf] using And.intro (hne "extends" (by decide)) (hne "implements" (by decide))
  refine anyStatement_declaration (by decide) (isName_word hname) hends h ?_
  unfold declaration?
  simp only [get_bind, htoken, String.ofList_toList]
  rw [if_neg (by decide), if_pos hnamed]
  exact hclass.bind h.placed

/-- The value that a part of a parameter falls back to is searched. -/
theorem patternEntry_meets {name : String} (hname : isName name = true) (hvalue : MeetsArrow g key body rest)
    (h : s.At finish found (name.toList ++ ([' '] ++ '=' :: ([' '] ++ arrowText body rest)))) :
    Meets key found (patternEntry g scope s) := by
  have hword := isName_word hname
  have hends : EndsName ([' '] ++ '=' :: ([' '] ++ arrowText body rest)) := endsName_of_mem (by decide) _
  have hequals := h.behind isSpace_single (noGap_equals _) found
  have htoken := h.token_word hword hends
  have hspread : s.token.isMark "..." = false := by
    rw [htoken]
    rfl
  have hfallback : ((s.token.kind == .word) && [",", "\x7d", "="].any s.next.token.isMark) = true := by
    rw [htoken, h.next_word hword hends, hequals.token_equals]
    rfl
  rw [patternEntry, atMark_bind, hspread, if_neg Bool.false_ne_true, following_bind, atKind_bind, hfallback, if_pos rfl,
    discard_take_bind (h.isWhole_word hword hends), h.next_word hword hends]
  exact (initializer?_meets hvalue hequals).discard hequals.placed

theorem bindingPattern_meets {name : String} (hname : isName name = true) (hvalue : MeetsArrow g key body rest)
    (h : s.At finish found ('{' :: ([' '] ++ (name.toList ++ ([' '] ++ '=' :: ([' '] ++ arrowText body rest)))))) :
    Meets key found (bindingPattern g scope s) := by
  have hword := isName_word hname
  have hends : EndsName ([' '] ++ '=' :: ([' '] ++ arrowText body rest)) := endsName_of_mem (by decide) _
  have hat := h.behind_mark isSpace_single ((Solid.word hword).noGap _) found
  have htoken := hat.token_word hword hends
  have hslots : Meets key found (enclosed (slots "\x7d" (patternEntry g)) scope (.facing finish found
      ([' '] ++ (name.toList ++ ([' '] ++ '=' :: ([' '] ++ arrowText body rest)))))) :=
    slots_meets hat.placed (by rw [htoken]; rfl) (by rw [htoken]; rfl) (by rw [htoken]; rfl)
      (patternEntry_meets hname hvalue hat)
  rw [bindingPattern, bind_of_ok (accept_at h (by decide) rfl), if_pos rfl]
  exact (hslots.discard hat.placed).bind hat.placed

theorem parameter_meets {name : String} (hname : isName name = true) (hvalue : MeetsArrow g key body rest)
    (h : s.At finish found ('{' :: ([' '] ++ (name.toList ++ ([' '] ++ '=' :: ([' '] ++ arrowText body rest)))))) :
    Meets key found (parameter g.around scope s) := by
  have hmodifiers : Repeats (do
      let second ← following
      if (← current).isOneOf parameterModifiers
          && (second.kind == .word || ["\x7b", "[", "..."].any second.isMark) then
        discard take
        return some ()
      else return none) scope s [] s := by
    refine .done ?_
    rw [following_bind, current_bind, h.token_mark (by decide)]
    rfl
  have hpattern : Meets key found (g.around.pattern scope s) := bindingPattern_meets hname hvalue h
  unfold parameter
  rw [bind_of_ok (decorators_none (h.not_isMark (by decide) (by decide))),
    bind_of_ok (discard_of_ok hmodifiers.many), discard_accept_bind, h.not_isMark (by decide) (by decide),
    if_neg Bool.false_ne_true]
  exact hpattern.bind h.placed

theorem functionDeclaration_parameter {name part : String} (hname : isName name = true) (hpart : isName part = true)
    (hvalue : MeetsArrow g key body rest) (h : s.At finish found ("function".toList ++ ([' '] ++ (name.toList ++
      '(' :: '{' :: ([' '] ++ (part.toList ++ ([' '] ++ '=' :: ([' '] ++ arrowText body rest)))))))) :
    Meets key found (functionDeclaration g.around scope s) := by
  refine functionDeclaration_meets hname h ?_
  have hnameAt := h.behind isSpace_single ((Solid.word (isName_word hname)).noGap _) []
  have hopen := hnameAt.after (noGap_mark (by decide) _) []
  have hbrace := hopen.after_mark (noGap_mark (by decide) _) []
  have hlist : ∀ scope, Meets key [] (enclosed (commaList ")" (parameter g.around)) scope (.facing finish []
      ('{' :: ([' '] ++ (part.toList ++ ([' '] ++ '=' :: ([' '] ++ arrowText body rest))))))) := fun _ =>
    (parameter_meets hpart hvalue hbrace).bind hbrace.placed
  have hparameters : ∀ scope, Meets key [] (parameters g.around scope (.facing finish []
      ('(' :: '{' :: ([' '] ++ (part.toList ++ ([' '] ++ '=' :: ([' '] ++ arrowText body rest))))))) := by
    intro scope
    rw [parameters, bind_of_ok (expect_at hopen (by decide) rfl), accept_bind,
      hbrace.not_isMark (by decide) (by decide), if_neg Bool.false_ne_true, if_neg Bool.false_ne_true]
    exact ((hlist scope).discard hbrace.placed).bind hbrace.placed
  have hsignature : Meets key [] (inScope (fun _ => { lineEnd := .afterHead }) (signature g.around) scope
      (.facing finish [] ('(' :: '{' :: ([' '] ++ (part.toList ++ ([' '] ++ '=' :: ([' '] ++
        arrowText body rest))))))) := by
    unfold inScope
    rw [signature, bind_of_ok (typeParameters?_none (hopen.not_isMark (by decide) (by decide)))]
    exact (hparameters _).bind hopen.placed
  exact hsignature.bind hopen.placed

end DeclSchema.Syntax
