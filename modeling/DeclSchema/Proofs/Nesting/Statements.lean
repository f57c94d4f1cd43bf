import DeclSchema.Proofs.Nesting.Values

/-! # Statements of a source alone and as a body -/
namespace DeclSchema.Syntax
open Text

variable {α : Type} {b : Body} {g g' : Grammar} [g'.Steady] [Grammar.Alike b g g']

instance : Alike b (extendedInterface g) (extendedInterface g') := by
  dsimp only [extendedInterface]
  infer_instance

instance : Alike b (interfaceDeclaration g) (interfaceDeclaration g') := by
  dsimp only [interfaceDeclaration]
  infer_instance

instance : Alike b (aliasDeclaration g) (aliasDeclaration g') := by
  dsimp only [aliasDeclaration]
  infer_instance

instance : Alike b (enumMember g) (enumMember g') := by
  dsimp only [enumMember]
  infer_instance

instance : Alike b enumSeparator enumSeparator := by
  dsimp only [enumSeparator]
  infer_instance

instance : Alike b (enumMembers g) (enumMembers g') := by
  unfold enumMembers
  infer_instance

instance : Alike b (enumDeclaration g) (enumDeclaration g') := by
  dsimp only [enumDeclaration]
  infer_instance

instance : Alike b (functionDeclaration g) (functionDeclaration g') := by
  dsimp only [functionDeclaration]
  infer_instance

instance : Alike b (namespaceFrom g) (namespaceFrom g') := by
  refine .of_at fun x => ?_
  dsimp only [namespaceFrom]
  refine .get_bind (.bind .of_alike fun quoted => ?_)
  infer_instance

/-- Without the word `class` there is no class, whatever was looked at before. -/
theorem classFrom_throws {g : Grammar} {decoration : List Item} {s : State} (h : s.token.isWord "class" = false) {c : Bool}
    (scope : Scope) : ∃ fault, (if c then do
        stuck
        classFrom g decoration
      else classFrom g decoration) scope s = .error fault := by
  cases c with
  | true =>
    rw [if_pos rfl]
    exact Throws.throws scope s
  | false =>
    obtain ⟨fault, hfault⟩ : ∃ fault, expectWord "class" scope s = .error fault := expectWord_of_not_isWord h
    rw [if_neg Bool.false_ne_true, classFrom, bind_of_error hfault]
    exact ⟨_, rfl⟩

instance (decoration : List Item) : Alike b (classDeclaration g decoration) (classDeclaration g' decoration) := by
  have hquietly : Quietly (classFrom g' decoration) := (inferInstance : Alike b (classFrom g decoration) _).quietly
  dsimp only [classDeclaration]
  refine .then fun abstract => .cond (.of_at fun x => .following_bind ?_) inferInstance
  by_cases hwhole : x.alone.token.isWhole = true
  · have hnext := x.next_token hwhole
    exact .of_alike
  · have hword := Token.not_isWord_of_not_isWhole hwhole "class"
    exact .of_throws (classFrom_throws hword) (classFrom_throws (by rw [x.token.isWord, hword]))

instance (first : Bool) : Alike b (declarator g first) (declarator g' first) := by
  refine .of_at fun x => ?_
  dsimp only [declarator]
  refine .atKind_bind (by decide) (by decide) (.current_bind ?_)
  by_cases hwhole : x.alone.token.isWhole = true
  · rw [x.token.isWhole hwhole]
    exact .of_alike
  · rw [Token.kind_ne_of_not_isWhole hwhole (show TokenKind.word ≠ .finish ∧ _ by decide)]
    simp only [Bool.and_false, Bool.false_eq_true, if_false]
    exact .of_alike

instance : Alike b (declarators g) (declarators g') := by
  dsimp only [declarators]
  infer_instance

instance : Alike b (variableDeclaration g) (variableDeclaration g') := by
  dsimp only [variableDeclaration]
  infer_instance

section Following
variable {x : b.Places} {f f' : Bool → Parser α}

theorem AlikeAt.namesFollowing_bind (hwhole : x.alone.token.isWhole = true) (h : ∀ c, AlikeAt x (f c) (f' c)) :
    AlikeAt x (namesFollowing >>= f) (namesFollowing >>= f') := by
  have hnext := x.next_token hwhole
  have hends := x.next_endsBefore hwhole
  have hsame : Same (x.alone.next.token.kind == .word && !x.alone.next.endsBefore .afterType)
      (x.nested.next.token.kind == .word && !x.nested.next.endsBefore .afterType) := inferInstance
  refine ⟨fun scope before hfound => ?_⟩
  show Outcome b before (f _ scope x.alone) (f' _ scope x.nested)
  rw [hsame.eq]
  exact (h _).run scope before hfound

theorem AlikeAt.stringFollowing_bind (hwhole : x.alone.token.isWhole = true) (h : ∀ c, AlikeAt x (f c) (f' c)) :
    AlikeAt x (stringFollowing >>= f) (stringFollowing >>= f') := by
  have hnext := x.next_token hwhole
  have hends := x.next_endsBefore hwhole
  have hsame : Same (x.alone.next.token.kind == .string && !x.alone.next.endsBefore .afterType)
      (x.nested.next.token.kind == .string && !x.nested.next.endsBefore .afterType) := inferInstance
  refine ⟨fun scope before hfound => ?_⟩
  show Outcome b before (f _ scope x.alone) (f' _ scope x.nested)
  rw [hsame.eq]
  exact (h _).run scope before hfound

end Following

instance : Alike b (declaration? g) (declaration? g') := by
  refine .of_at fun x => ?_
  dsimp only [declaration?]
  have hkind : (x.nested.token.kind != .word) = (x.alone.token.kind != .word) := Same.eq
  refine .get_bind ?_
  rw [hkind]
  refine .ite (fun _ => .of_alike (h := .pure false)) fun hne => ?_
  have hword : x.alone.token.kind = .word := by simpa using hne
  have hwhole := Token.isWhole_of_kind hword
  have hnext := x.next_token hwhole
  have hends := x.next_endsBefore hwhole
  have hasync : Same
      (x.alone.next.token.isWord "function" && !x.alone.next.endsBefore .afterValue
        && (x.alone.next.next.token.kind == .word || (x.alone.next.next.token.isMark "*"
          && x.alone.next.next.next.token.kind == .word)))
      (x.nested.next.token.isWord "function" && !x.nested.next.endsBefore .afterValue
        && (x.nested.next.next.token.kind == .word || (x.nested.next.next.token.isMark "*"
          && x.nested.next.next.next.token.kind == .word))) := by
    refine ⟨Same.and Same.eq fun hfunction => ?_⟩
    have hsecond := Token.isWhole_of_kind (Token.kind_of_isWord ((Bool.and_eq_true _ _).mp hfunction).1)
    have hthird := x.next_next_token hwhole hsecond
    rw [hthird.kind (show TokenKind.word ≠ .mark by decide) (by decide)]
    refine congrArg _ (Same.and Same.eq fun hstar => ?_)
    exact (((x.next hwhole).next hsecond).next_token
      (Token.isWhole_of_kind (Token.kind_of_isMark hstar))).kind (by decide) (by decide)
  have hfunction : Same (x.alone.next.token.isMark "*" && x.alone.next.next.token.kind == .word)
      (x.nested.next.token.isMark "*" && x.nested.next.next.token.kind == .word) := by
    refine ⟨Same.and Same.eq fun hstar => ?_⟩
    exact (x.next_next_token hwhole (Token.isWhole_of_kind (Token.kind_of_isMark hstar))).kind (by decide) (by decide)
  rw [x.token.isWhole hwhole]
  split
  case h_2 => exact .namesFollowing_bind hwhole fun names => .of_alike
  case h_6 => exact .namesFollowing_bind hwhole fun names => .of_alike
  case h_11 => exact .namesFollowing_bind hwhole fun _ => .stringFollowing_bind hwhole fun _ => .of_alike
  case h_12 => exact .namesFollowing_bind hwhole fun _ => .stringFollowing_bind hwhole fun _ => .of_alike
  all_goals exact .of_alike

instance : Alike b moduleName moduleName := by
  unfold moduleName
  infer_instance

instance : Alike b specifier specifier := by
  dsimp only [specifier]
  infer_instance

theorem specifier_throws {scope : Scope} {s : State} (h : s.token.kind ≠ .word) (hstring : s.token.kind ≠ .string) :
    ∃ fault, specifier scope s = .error fault := by
  have hname : ∃ fault, moduleName scope s = .error fault := by
    obtain ⟨fault, hfault⟩ : ∃ fault, anyWord scope s = .error fault := by
      rw [anyWord, atKind_bind, beq_eq_false_iff_ne.mpr h]
      exact Throws.throws (p := (stuck : Parser String)) scope s
    rw [moduleName, atKind_bind, beq_eq_false_iff_ne.mpr hstring]
    exact ⟨fault, discard_of_error hfault⟩
  obtain ⟨fault, hfault⟩ := hname
  dsimp only [specifier]
  rw [following_bind, current_bind, Token.not_isOneOf_of_kind h, Bool.false_and, if_neg Bool.false_ne_true,
    bind_of_error hfault]
  exact ⟨_, rfl⟩

/-- Where a list may end in a comma, another item has to fail at the end of the source. -/
theorem Alike.commaList_close {close : String} {p q : Parser α} [hp : Alike b p q]
    (hfails : ∀ {scope s}, s.token.kind = .finish → ∃ fault, p scope s = .error fault) :
    Alike b (commaList close p) (commaList close q) := by
  have hq := hp.quietly
  have hitem : Alike b (do if ← atMark close then return none else return some (← p))
      (do if ← atMark close then return none else return some (← q)) := by
    refine .of_at fun x => ?_
    by_cases hfinish : x.alone.token.kind = .finish
    · refine .of_finish hfinish fun scope => ?_
      obtain ⟨fault, hfault⟩ : ∃ fault, p scope x.alone = .error fault := hfails hfinish
      rw [atMark_bind, Token.not_isMark_of_kind (by simp [hfinish]), if_neg Bool.false_ne_true, bind_of_error hfault]
      exact ⟨_, rfl⟩
    · exact .atMark_bind_of_ne hfinish .of_alike
  unfold commaList
  infer_instance

theorem specifiers_throws {s : State} (h : s.token.kind ≠ .word) (hstring : s.token.kind ≠ .string) (scope : Scope) :
    ∃ fault, (do
      discard <| enclosed (commaList "\x7d" specifier)
      expect "\x7d" : Parser Unit) scope s = .error fault := by
  obtain ⟨fault, hfault⟩ : ∃ fault, specifier {} s = .error fault := specifier_throws h hstring
  have hlist : (enclosed (commaList "\x7d" specifier)) scope s = .error fault := by
    show (commaList "\x7d" specifier) {} s = .error fault
    rw [commaList, bind_of_error hfault]
  rw [bind_of_error (discard_of_error hlist)]
  exact ⟨_, rfl⟩

instance : Alike b specifiers specifiers := by
  have hlist : Alike b (commaList "\x7d" specifier) (commaList "\x7d" specifier) :=
    .commaList_close fun h => specifier_throws (by simp [h]) (by simp [h])
  dsimp only [specifiers]
  refine .then fun _ => .of_at fun x => ?_
  by_cases hfinish : x.alone.token.kind = .finish
  · refine .of_finish hfinish fun scope => ?_
    have hmark : ∀ mark, x.alone.token.isMark mark = false := Token.not_isMark_of_kind (by simp [hfinish])
    rw [accept_bind, hmark, if_neg Bool.false_ne_true, if_neg Bool.false_ne_true, atMark_bind, hmark, following_bind,
      Bool.false_and, if_neg Bool.false_ne_true]
    exact specifiers_throws (by simp [hfinish]) (by simp [hfinish]) scope
  · have haccept : AlikeAt x (accept "\x7d") (accept "\x7d") := by
      unfold accept
      exact .atMark_bind_of_ne hfinish .of_alike
    refine haccept.bind fun closed => .cond inferInstance (.of_at fun y => .atMark_bind (by decide) (.following_bind ?_))
    cases hcomma : y.alone.token.isMark "," with
    | false =>
      simp only [Bool.false_and]
      exact .of_alike
    | true =>
      have hkind := Token.kind_of_isMark hcomma
      have hwhole := Token.isWhole_of_kind hkind
      by_cases hlast : y.alone.next.token.kind = .finish
      · have hend : (y.next hwhole).alone.here = [] := readToken_finish hlast
        have hquiet : Quiet y.nested.next.here := (y.next hwhole).beside.quiet_of_atEnd hend
        rw [Token.not_isMark_of_kind (by simp [hlast]), (y.next_token hwhole).eq_close hlast]
        refine .of_past (specifiers_throws (by simp [hkind]) (by simp [hkind])) fun hrun => ?_
        exact Quietly.quiet hquiet rfl (of_discard_take_bind hrun)
      · rw [(y.next_token hwhole).isMark_of_ne hlast]
        exact .of_alike

instance : Alike b (moduleSource g) (moduleSource g') := by
  dsimp only [moduleSource]
  refine .then fun _ => .of_at fun x => .atWord_bind (.atWord_bind (.ite (fun hword => .following_bind ?_) fun _ => .of_alike))
  have hwhole : x.alone.token.isWhole = true := by
    rcases (Bool.or_eq_true _ _).mp hword with h | h
    · exact Token.isWhole_of_kind (Token.kind_of_isWord h)
    · exact Token.isWhole_of_kind (Token.kind_of_isWord h)
  have hnext := x.next_token hwhole
  exact .of_alike

instance : Alike b (fromClause g) (fromClause g') := by
  unfold fromClause
  infer_instance

instance : Alike b importedNames importedNames := by
  dsimp only [importedNames]
  infer_instance

instance : Alike b importTarget importTarget := by
  unfold importTarget
  infer_instance

instance : Alike b (importStatement g) (importStatement g') := by
  dsimp only [importStatement]
  simp only [Bool.and_assoc]
  infer_instance

instance : Alike b atAmbient atAmbient := by
  refine .of_at fun x => ?_
  unfold atAmbient
  refine .atWord_bind ?_
  by_cases hwhole : x.alone.token.isWhole = true
  · exact .namesFollowing_bind hwhole fun names => .of_alike
  · simp only [Token.not_isWord_of_not_isWhole hwhole, Bool.false_and]
    exact ⟨fun _ _ hfound => .both false x.beside hfound⟩

instance : Alike b (ambientFrom g) (ambientFrom g') := by
  dsimp only [ambientFrom]
  infer_instance

instance : Alike b (exportDefault g) (exportDefault g') := by
  dsimp only [exportDefault]
  infer_instance

instance : Alike b (exportFrom g) (exportFrom g') := by
  refine .of_at fun x => ?_
  dsimp only [exportFrom]
  refine .following_bind ?_
  by_cases hwhole : x.alone.token.isWhole = true
  · have hnext := x.next_token hwhole
    refine .accept_ite inferInstance (.atMark_bind (by decide) (.atWord_bind ?_))
    refine .cond inferInstance .of_alike (.accept_ite inferInstance (.atWord_bind ?_))
    exact .of_alike
  · refine .accept_ite inferInstance (.atMark_bind (by decide) (.atWord_bind ?_))
    simp only [Token.not_isWord_of_not_isWhole hwhole, Bool.false_and, Bool.or_false]
    refine .cond inferInstance .of_alike (.accept_ite inferInstance (.atWord_bind ?_))
    simp only [Token.not_isWord_of_not_isWhole hwhole, Bool.false_and]
    exact .of_alike

instance : Alike b (valueStatement g) (valueStatement g') := by
  unfold valueStatement
  infer_instance

instance : Alike b (parenthesized g) (parenthesized g') := by
  unfold parenthesized
  infer_instance

/-- Behind the head of a loop over parts stands a word that no quiet text has. -/
instance : Sure b (do if !(← acceptWord "of") then expectWord "in") (do if !(← acceptWord "of") then expectWord "in") where
  alike := inferInstance
  sure x scope before fault hfound hrun _ := by
    have hof := x.token.isWord "of"
    have hin := x.token.isWord "in"
    rw [acceptWord_bind] at hrun ⊢
    rw [hof]
    cases hword : x.alone.token.isWord "of" with
    | true =>
      rw [hword] at hrun
      cases hrun
    | false =>
      rw [hword] at hrun
      have hnot : x.alone.token.isWord "in" = false := by
        refine Bool.eq_false_iff.mpr fun hword => ?_
        have hexpect : expectWord "in" scope x.alone = .ok ((), x.alone.next) := expectWord_of_isWord hword
        simp only [Bool.not_false, if_true, Bool.false_eq_true, if_false, hexpect] at hrun
        cases hrun
      exact expectWord_of_not_isWord (hin.trans hnot)

instance : Fails (do if !(← acceptWord "of") then expectWord "in") where
  fails {scope s} hs hquiet := by
    have hof := (hquiet.token hs).not_of
    rw [acceptWord_bind, hof]
    exact expectWord_of_not_isWord (hquiet.token hs).not_in

instance : Sure b (eachHead g) (eachHead g') := by
  dsimp only [eachHead]
  exact .current_bind fun x => inferInstance

instance : Alike b (countHead g) (countHead g') := by
  dsimp only [countHead]
  infer_instance

instance : Alike b (loopHead g) (loopHead g') := by
  have hhead : Alike b
      (do
        match ← optionally (eachHead g) with
        | some () => discard g.values
        | none =>
          countHead g
          if !(← atMark ";") then discard g.values
          expect ";"
          if !(← atMark ")") then discard g.values)
      (do
        match ← optionally (eachHead g') with
        | some () => discard g'.values
        | none =>
          countHead g'
          if !(← atMark ";") then discard g'.values
          expect ";"
          if !(← atMark ")") then discard g'.values) := by
    refine .then fun head => ?_
    cases head <;> dsimp only <;> infer_instance
  exact Alike.enclosed

instance : Alike b (forStatement g) (forStatement g') := by
  unfold forStatement
  infer_instance

instance : Alike b (ifStatement g) (ifStatement g') := by
  dsimp only [ifStatement]
  infer_instance

instance : Alike b (switchCase g) (switchCase g') := by
  have hstatement : Alike b
      (do
        if (← atEnd) || (← atWord "case") || ((← atWord "default") && (← following).isMark ":") then
          return none
        else return some (← soundly g.statement))
      (do
        if (← atEnd) || (← atWord "case") || ((← atWord "default") && (← following).isMark ":") then
          return none
        else return some (← soundly g'.statement)) := by
    refine .of_at fun x => .atEnd_bind fun ends => .atWord_bind (.atWord_bind (.following_bind ?_))
    by_cases hwhole : x.alone.token.isWhole = true
    · have hnext := x.next_token hwhole
      exact .of_alike
    · simp only [Token.not_isWord_of_not_isWhole hwhole, Bool.false_and]
      exact .of_alike
  dsimp only [switchCase]
  infer_instance

instance : Alike b (switchStatement g) (switchStatement g') := by
  unfold switchStatement
  infer_instance

instance : Alike b (tryStatement g) (tryStatement g') := by
  dsimp only [tryStatement]
  infer_instance

instance : Alike b (doStatement g) (doStatement g') := by
  unfold doStatement
  infer_instance

instance {p q : Parser Unit} [Alike b p q] : Alike b (jumpStatement p) (jumpStatement q) := by
  have hq : Quietly q := (inferInstance : Alike b p q).quietly
  dsimp only [jumpStatement]
  infer_instance

instance : Alike b (decoratedStatement g) (decoratedStatement g') := by
  dsimp only [decoratedStatement]
  infer_instance

theorem wordStatement?_at {x : b.Places} (h : x.alone.token.kind = .word) :
    AlikeAt x (wordStatement? g) (wordStatement? g') := by
  have hwhole := Token.isWhole_of_kind h
  have hnext := x.next_token hwhole
  have hends := x.next_endsBefore hwhole
  dsimp only [wordStatement?]
  refine .get_bind ?_
  rw [x.token.isWhole hwhole]
  split <;> exact .of_alike

instance : Alike b (anyStatement g) (anyStatement g') := by
  refine .of_at fun x => ?_
  dsimp only [anyStatement]
  refine .get_bind (.accept_ite inferInstance ?_)
  have hcomment : commentMarks.any (·.isPrefixOf x.nested.here) = commentMarks.any (·.isPrefixOf x.alone.here) := by
    cases x.beside.place with
    | inside _ here => rw [here, Body.rest, commentMarks_append]
    | atEnd none here =>
      rw [none, here]
      rfl
  rw [hcomment]
  refine .ite (fun hmarks => ?_) fun _ => ?_
  · have hne : x.alone.here ≠ [] := by
      intro hnil
      rw [hnil] at hmarks
      cases hmarks
    have hline : (x.nested.here.takeWhile (!isLineEnd ·)).length = (x.alone.here.takeWhile (!isLineEnd ·)).length := by
      rw [x.nested_here hne, Body.rest, takeWhile_append (by decide)]
    rw [hline]
    exact .of_takeChars hne (List.takeWhile_sublist _).length_le
  · refine .atMark_bind (by decide) (.ite (fun _ => .of_alike) fun _ => ?_)
    refine .atMark_bind (by decide) (.ite (fun _ => .of_alike) fun _ => ?_)
    refine .atKind_bind (by decide) (by decide) ?_
    cases hword : x.alone.token.kind == .word with
    | false =>
      rw [Bool.not_false, if_pos rfl, if_pos rfl]
      exact .of_alike
    | true =>
      have hkind := eq_of_beq hword
      have hwhole := Token.isWhole_of_kind hkind
      have hnext := x.next_token hwhole
      refine .following_bind (.current_bind (.cond inferInstance .of_alike ?_))
      exact (wordStatement?_at hkind).bind fun read => inferInstance

end DeclSchema.Syntax
