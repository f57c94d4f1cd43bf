import DeclSchema.Proofs.Extraction.Bodies

/-! # Bodies in statements, calls and patterns

A body belongs to a branch or a loop, to a function that is an argument of a call, or to a function
that a parameter falls back to.
-/
namespace DeclSchema.Syntax
open Text

section Names
variable {g : Grammar} {name : String} {scope : Scope} {s : State} {finish : Nat} {found : List Item}
  {rest : List Char}

theorem wordValue_name (hname : isName name = true) (hrest : EndsName rest)
    (h : s.At finish found (name.toList ++ rest)) (harrow : s.next.token.isMark "=>" = false) :
    wordValue g scope s = .ok ({ assignable := true }, .facing finish found rest) := by
  have htoken := h.token_word (isName_word hname) hrest
  have hnext := h.next_word (isName_word hname) hrest
  have hwhole := h.isWhole_word (isName_word hname) hrest
  unfold wordValue
  simp only [get_bind, read_bind, harrow, Bool.false_eq_true, if_false, current_bind, htoken,
    String.ofList_toList]
  split
  all_goals first
    | exact absurd rfl (isName_ne hname (by decide))
    | rw [discard_take_bind hwhole, hnext, pure_run]

theorem primaryValue_name (hname : isName name = true) (hrest : EndsName rest)
    (h : s.At finish found (name.toList ++ rest)) (harrow : s.next.token.isMark "=>" = false) :
    primaryValue g scope s = .ok ({ assignable := true }, .facing finish found rest) := by
  have htoken := h.token_word (isName_word hname) hrest
  unfold primaryValue
  simp only [get_bind, htoken]
  exact wordValue_name hname hrest h harrow

/-- A name alone in parentheses. -/
theorem anyValues_name (hname : isName name = true) (h : s.At finish found (name.toList ++ ')' :: rest)) :
    ∃ value, anyValues g.around scope s = .ok (value, .facing finish found (')' :: rest)) := by
  have hrest := endsName_of_mem (m := ')') (by decide) rest
  have hat := h.after (noGap_mark (by decide) rest) found
  have hkind : s.token.kind ≠ .mark := by
    simp [h.token_word (isName_word hname) hrest]
  have harrow : s.next.token.isMark "=>" = false := by
    rw [h.next_word (isName_word hname) hrest]
    exact hat.not_isMark (by decide) (by decide)
  have hvalue : g.around.value scope s =
      .ok ({ assignable := true }, .facing finish found (')' :: rest)) :=
    anyValue_whole (by decide) h hkind (primaryValue_name hname hrest h harrow)
  have hmore : Repeats (do if ← accept "," then return some (← g.around.value) else return none) scope
      (.facing finish found (')' :: rest)) [] (.facing finish found (')' :: rest)) := by
    refine .done ?_
    rw [accept_bind, hat.not_isMark (by decide) (by decide)]
    rfl
  exact ⟨_, by rw [anyValues, bind_of_ok hvalue, bind_of_ok hmore.many, pure_run]⟩

end Names

section Statements
variable {g : Grammar} [g.Steady] {key : String} {body : List Char} {scope : Scope} {s : State}
  {finish : Nat} {found : List Item} {rest : List Char}

/-- A word in front of a mark that opens something. -/
theorem anyStatement_opening {word : List Char} {m : Char} (hword : isWord word = true)
    (hm : m = '(' ∨ m = '{') (h : s.At finish found (word ++ ([' '] ++ m :: rest)))
    (hp : Meets key found (wordStatement? g scope s)) : Meets key found (anyStatement g scope s) := by
  have hends := endsName_of_mem (m := ' ') (by decide) (m :: rest)
  have hlone : m ∈ loneMarks ∧ [m] ≠ ":".toList := by
    rcases hm with rfl | rfl <;> decide
  have hcolon : s.next.token.isMark ":" = false := by
    rw [h.next_word hword hends]
    exact (h.behind isSpace_single (noGap_mark hlone.1 rest) found).not_isMark hlone.1 hlone.2
  rw [anyStatement_eq_word h hword hends hcolon]
  exact hp.bind h.placed

theorem ifStatement_meets {condition : String} (hname : isName condition = true)
    (hbody : MeetsBody g.around key body rest) (h : s.At finish found ("if".toList ++ ([' '] ++ '(' ::
      (condition.toList ++ ')' :: ([' '] ++ bodyText body rest))))) :
    Meets key found (ifStatement g.around.around scope s) := by
  have hopen := h.behind isSpace_single (noGap_mark (by decide) _) found
  have hcondition := hopen.after_mark ((Solid.word (isName_word hname)).noGap _) found
  have hclose := hcondition.after (noGap_mark (by decide) _) found
  have hbrace := hclose.behind_mark isSpace_single (noGap_bodyText body rest) found
  obtain ⟨value, hvalue⟩ : ∃ value, enclosed g.around.around.values scope (.facing finish found
      (condition.toList ++ ')' :: ([' '] ++ bodyText body rest))) =
        .ok (value, .facing finish found (')' :: ([' '] ++ bodyText body rest))) :=
    anyValues_name hname hcondition
  have hparenthesized : parenthesized g.around.around scope (.facing finish found ([' '] ++ '(' ::
      (condition.toList ++ ')' :: ([' '] ++ bodyText body rest)))) =
        .ok ((), .facing finish found ([' '] ++ bodyText body rest)) := by
    rw [parenthesized, bind_of_ok (expect_at hopen (by decide) rfl), bind_of_ok (discard_of_ok hvalue),
      expect_at hclose (by decide) rfl]
  have hstatement : Meets key found (g.around.around.statement scope
      (.facing finish found ([' '] ++ bodyText body rest))) := anyStatement_block hbody hbrace
  rw [ifStatement, bind_of_ok (expectWord_at h (by decide) (endsName_of_mem (by decide) _)),
    bind_of_ok hparenthesized]
  exact hstatement.bind hbrace.placed

theorem anyStatement_if {condition : String} (hname : isName condition = true)
    (hbody : MeetsBody g.around key body rest) (h : s.At finish found ("if".toList ++ ([' '] ++ '(' ::
      (condition.toList ++ ')' :: ([' '] ++ bodyText body rest))))) :
    Meets key found (anyStatement g.around.around scope s) := by
  have htoken := h.token_word (by decide) (endsName_of_mem (by decide) _)
  refine anyStatement_opening (by decide) (.inl rfl) h ?_
  unfold wordStatement?
  simp only [get_bind, htoken, String.ofList_toList]
  exact (ifStatement_meets hname hbody h).bind h.placed

omit [g.Steady] in
/-- No value begins with a semicolon. -/
theorem operand_semicolon (h : s.At finish found (';' :: rest)) :
    ∃ fault, operand g scope s = .error fault ∧ fault.isExhausted = false := by
  have hkind : s.token.kind = .mark := by rw [h.token_mark (by decide)]
  have hregex : regexAt? s.here = none := by
    rw [h.here]
    rfl
  have hmark : ∀ mark : String, [';'] ≠ mark.toList → s.token.isMark mark = false := fun mark =>
    h.not_isMark (by decide)
  obtain ⟨fault, hfault, hnormal⟩ : ∃ fault, (missing "identifier" : Parser Operand) scope s = .error fault ∧ _ :=
    missing_eq_error "identifier"
  have hprimary : primaryValue g scope s = .error fault := by
    unfold primaryValue
    simp only [get_bind, hkind, atMark_bind, hmark "(" (by decide), hmark "<" (by decide),
      hmark "[" (by decide), hmark "\x7b" (by decide), hmark "@" (by decide), hmark "/" (by decide), hregex,
      Bool.false_eq_true, if_false]
    exact hfault
  refine ⟨fault, ?_, hnormal⟩
  unfold operand
  rw [get_bind, accept_bind, hmark "-" (by decide), if_neg Bool.false_ne_true]
  simp only [List.any_cons, List.any_nil, hmark "+" (by decide), hmark "!" (by decide),
    hmark "~" (by decide), hmark "++" (by decide), hmark "--" (by decide), Bool.or_self,
    Bool.false_eq_true, if_false]
  exact bind_of_error hprimary

omit [g.Steady] in
/-- A loop with an empty head. -/
theorem forStatement_meets (hbody : MeetsBody g.around key body rest) (h : s.At finish found ("for".toList ++ ([' '] ++
      '(' :: ';' :: ';' :: ')' :: ([' '] ++ bodyText body rest)))) :
    Meets key found (forStatement g.around.around scope s) := by
  have hopen := h.behind isSpace_single (noGap_mark (by decide) _) found
  have hfirst := hopen.after_mark (noGap_mark (by decide) _) found
  have hsecond := hfirst.after_mark (noGap_mark (by decide) _) found
  have hclose := hsecond.after_mark (noGap_mark (by decide) _) found
  have hbrace := hclose.behind_mark isSpace_single (noGap_bodyText body rest) found
  obtain ⟨fault, hfault, hnormal⟩ : ∃ fault, g.around.around.operand {} (.facing finish found
      (';' :: ';' :: ')' :: ([' '] ++ bodyText body rest))) = .error fault ∧ _ := operand_semicolon hfirst
  have hword : (State.facing finish found (';' :: ';' :: ')' :: ([' '] ++ bodyText body rest))).token.isOneOf
      ["const", "let", "var"] = false := by
    rw [hfirst.token_mark (by decide)]
    rfl
  have heach : eachHead g.around.around {} (.facing finish found
      (';' :: ';' :: ')' :: ([' '] ++ bodyText body rest))) = .error fault := by
    unfold eachHead
    rw [current_bind, hword, if_neg Bool.false_ne_true, atMark_bind, hfirst.not_isMark (by decide) (by decide),
      atMark_bind, hfirst.not_isMark (by decide) (by decide), Bool.or_self, if_neg Bool.false_ne_true]
    exact bind_of_error (discard_of_error hfault)
  have hhead : loopHead g.around.around scope (.facing finish found
      (';' :: ';' :: ')' :: ([' '] ++ bodyText body rest))) =
        .ok ((), .facing finish found (')' :: ([' '] ++ bodyText body rest))) := by
    have hcount : countHead g.around.around {} (.facing finish found
        (';' :: ';' :: ')' :: ([' '] ++ bodyText body rest))) =
          .ok ((), .facing finish found (';' :: ')' :: ([' '] ++ bodyText body rest))) := by
      unfold countHead inScope
      rw [current_bind, hword, if_neg Bool.false_ne_true, atMark_bind, hfirst.isMark (by decide) rfl,
        Bool.not_true, if_neg Bool.false_ne_true]
      exact expect_at hfirst (by decide) rfl
    unfold loopHead enclosed inScope
    rw [bind_of_ok (optionally_of_error heach hnormal)]
    dsimp only
    rw [bind_of_ok hcount, atMark_bind, hsecond.isMark (by decide) rfl, Bool.not_true,
      if_neg Bool.false_ne_true, bind_of_ok (expect_at hsecond (by decide) rfl), atMark_bind,
      hclose.isMark (by decide) rfl, Bool.not_true, if_neg Bool.false_ne_true, pure_run]
  have hstatement : Meets key found (g.around.around.statement scope
      (.facing finish found ([' '] ++ bodyText body rest))) := anyStatement_block hbody hbrace
  have hawait : acceptWord "await" scope (.facing finish found ([' '] ++
      '(' :: ';' :: ';' :: ')' :: ([' '] ++ bodyText body rest))) = .ok (false, .facing finish found ([' '] ++
      '(' :: ';' :: ';' :: ')' :: ([' '] ++ bodyText body rest))) := by
    refine acceptWord_of_not_isWord ?_
    rw [hopen.token_mark (by decide)]
    rfl
  rw [forStatement, bind_of_ok (expectWord_at h (by decide) (endsName_of_mem (by decide) _)),
    bind_of_ok (discard_of_ok hawait), bind_of_ok (expect_at hopen (by decide) rfl), bind_of_ok hhead,
    bind_of_ok (expect_at hclose (by decide) rfl)]
  exact hstatement

theorem anyStatement_for (hbody : MeetsBody g.around key body rest) (h : s.At finish found ("for".toList ++ ([' '] ++
      '(' :: ';' :: ';' :: ')' :: ([' '] ++ bodyText body rest)))) :
    Meets key found (anyStatement g.around.around scope s) := by
  have htoken := h.token_word (by decide) (endsName_of_mem (by decide) _)
  refine anyStatement_opening (by decide) (.inl rfl) h ?_
  unfold wordStatement?
  simp only [get_bind, htoken, String.ofList_toList]
  exact (forStatement_meets hbody h).bind h.placed

theorem anyStatement_try (hbody : MeetsBody g key body rest)
    (h : s.At finish found ("try".toList ++ ([' '] ++ bodyText body rest))) :
    Meets key found (anyStatement g scope s) := by
  have htoken := h.token_word (by decide) (endsName_of_mem (by decide) _)
  have hbrace := h.behind isSpace_single (noGap_bodyText body rest) found
  have htry : Meets key found (tryStatement g scope s) := by
    dsimp only [tryStatement]
    rw [bind_of_ok (expectWord_at h (by decide) (endsName_of_mem (by decide) _))]
    exact (hbody hbrace).bind hbrace.placed
  refine anyStatement_opening (by decide) (.inr rfl) h ?_
  unfold wordStatement?
  simp only [get_bind, htoken, String.ofList_toList]
  exact htry.bind h.placed

end Statements

section Calls
variable {g : Grammar} [g.Steady] {key : String} {body : List Char} {scope : Scope} {s : State}
  {finish : Nat} {found : List Item} {rest : List Char}

/-- Where the first of some items begins, neither a comma nor the end of the list stands. -/
theorem slots_meets {α : Type} {p : Parser α} [Steady p] {close : String} (hs : s.Placed)
    (hcomma : s.token.isMark "," = false) (hclose : s.token.isMark close = false)
    (hfinish : (s.token.kind == .finish) = false) (hp : Meets key found (p scope s)) :
    Meets key found (slots close p scope s) := by
  have hcommas : Repeats (do if ← accept "," then return some () else return none) scope s [] s := by
    refine .done ?_
    rw [accept_bind, hcomma]
    rfl
  dsimp only [slots]
  refine Meets.many hs ?_
  rw [bind_of_ok (discard_of_ok hcommas.many), atMark_bind, hclose, if_neg Bool.false_ne_true, atKind_bind,
    hfinish, if_neg Bool.false_ne_true]
  exact hp.bind hs

theorem arguments_meets (hvalue : MeetsArrow g key body rest) (h : s.At finish found ('(' :: arrowText body rest)) :
    Meets key found (arguments g scope s) := by
  have harrow := h.after_mark (noGap_arrowText body rest) found
  have hitem : Meets key found ((do
      if ← accept "..." then
        discard g.value
        return {}
      else g.value : Parser Operand) {} (.facing finish found (arrowText body rest))) := by
    rw [accept_bind, harrow.not_isMark (by decide) (by decide)]
    exact hvalue harrow
  have hslots : Meets key found (enclosed (slots ")" do
      if ← accept "..." then
        discard g.value
        return {}
      else g.value) scope (.facing finish found (arrowText body rest))) := by
    refine slots_meets harrow.placed (harrow.not_isMark (by decide) (by decide))
      (harrow.not_isMark (by decide) (by decide)) ?_ hitem
    rw [harrow.token_mark (by decide)]
    rfl
  rw [arguments, bind_of_ok (expect_at h (by decide) rfl)]
  exact hslots.bind harrow.placed

/-- The arguments of a call are searched. -/
theorem link?_call {start : State} {value : Operand} (hvalue : MeetsArrow g key body rest)
    (hle : ('(' :: arrowText body rest).length ≤ finish) :
    Meets key found (link? g start value scope (.facing finish found ('(' :: arrowText body rest))) := by
  have hat := at_facing_mark found (show '(' ∈ loneMarks by decide) hle
  have hends : ∀ lineEnd, (State.facing finish found ('(' :: arrowText body rest)).endsBefore lineEnd = false :=
    not_endsBefore finish found (noGap_mark (by decide) _) (by decide)
  have hmark : ∀ mark : String, ['('] ≠ mark.toList →
      (State.facing finish found ('(' :: arrowText body rest)).token.isMark mark = false := fun mark =>
    hat.not_isMark (by decide)
  have hcall : ∀ frozen, Meets key found (callLink g frozen scope
      (.facing finish found ('(' :: arrowText body rest))) := fun frozen =>
    (arguments_meets hvalue hat).bind hat.placed
  unfold link?
  rw [endsHere_bind, hends, Bool.and_false, if_neg Bool.false_ne_true, get_bind]
  simp only [accept_bind, atMark_bind, hmark "." (by decide), hmark "?." (by decide), hmark "[" (by decide),
    hat.isMark (show '(' ∈ loneMarks by decide) (show "(".toList = ['('] from rfl), Bool.false_eq_true,
    if_false, if_true]
  exact (hcall _).bind hat.placed

theorem anyValues_call {callee : String} (hname : isName callee = true) (hvalue : MeetsArrow g key body rest)
    (h : s.At finish found (callee.toList ++ '(' :: arrowText body rest)) :
    Meets key found (anyValues g.around scope s) := by
  have hword := isName_word hname
  have hends := endsName_of_mem (m := '(') (by decide) (arrowText body rest)
  have hopen := h.after (noGap_mark (by decide) _) found
  have harrow : s.next.token.isMark "=>" = false := by
    rw [h.next_word hword hends]
    exact hopen.not_isMark (by decide) (by decide)
  have hmark : ∀ mark : String, s.token.isMark mark = false := by
    intro mark
    rw [h.token_word hword hends]
    rfl
  have hoperand : Meets key found (operand g scope s) := by
    unfold operand
    rw [get_bind, accept_bind, hmark, if_neg Bool.false_ne_true]
    simp only [List.any_cons, List.any_nil, hmark, Bool.or_self, Bool.false_eq_true, if_false]
    rw [bind_of_ok (primaryValue_name hname hends h harrow)]
    exact .extend hopen.placed (link?_call hvalue hopen.le)
  have hfirst : Meets key found (g.around.value scope s) := hoperand.bind h.placed
  exact hfirst.bind h.placed

omit [g.Steady] in
theorem declaration?_name {name : String} (hname : isName name = true)
    (htoken : s.token = ⟨.word, name.toList⟩) : declaration? g scope s = .ok (false, s) := by
  unfold declaration?
  simp only [get_bind, htoken, String.ofList_toList]
  rw [if_neg (by decide)]
  split
  all_goals first
    | exact absurd rfl (isName_ne hname (by decide))
    | rfl

omit [g.Steady] in
/-- A name begins neither a declaration nor any other statement with a word of its own. -/
theorem wordStatement?_name {name : String} (hname : isName name = true)
    (htoken : s.token = ⟨.word, name.toList⟩) : wordStatement? g scope s = .ok (false, s) := by
  unfold wordStatement?
  simp only [get_bind, htoken, String.ofList_toList]
  split
  all_goals first
    | exact absurd rfl (isName_ne hname (by decide))
    | exact declaration?_name hname htoken

theorem anyStatement_call {callee : String} (hname : isName callee = true) (hvalue : MeetsArrow g key body rest)
    (h : s.At finish found (callee.toList ++ '(' :: arrowText body rest)) :
    Meets key found (anyStatement g.around scope s) := by
  have hword := isName_word hname
  have hends := endsName_of_mem (m := '(') (by decide) (arrowText body rest)
  have hopen := h.after (noGap_mark (by decide) _) found
  have hcolon : s.next.token.isMark ":" = false := by
    rw [h.next_word hword hends]
    exact hopen.not_isMark (by decide) (by decide)
  have hvalues : Meets key found (inScope (fun _ => { lineEnd := .afterValue }) (anyValues g.around) scope s) :=
    anyValues_call hname hvalue h
  rw [anyStatement_eq_word h hword hends hcolon,
    bind_of_ok (wordStatement?_name hname (h.token_word hword hends)), if_neg Bool.false_ne_true]
  exact (hvalues.discard h.placed).bind h.placed

end Calls

end DeclSchema.Syntax
