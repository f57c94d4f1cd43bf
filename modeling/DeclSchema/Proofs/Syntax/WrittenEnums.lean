import DeclSchema.Proofs.Syntax.WrittenDeclarations

/-! # Enums are read back

The value of a member stands between an equality sign and a comma. Whatever could go on with a
value begins neither with a comma nor with a closing parenthesis.
-/
namespace DeclSchema.Syntax
open Text

section Values
variable {g : Grammar} {start s : State} {value : Operand} {text : List Char} {scope : Scope}
  {finish : Nat} {found : List Item} {m : Char} {rest : List Char}

def valueEnds : List Char := [',', ')']

theorem valueEnds_lone (hm : m ∈ valueEnds) : m ∈ loneMarks :=
  (show valueEnds ⊆ loneMarks by decide) hm

theorem valueEnd_not_isMark (hm : m ∈ valueEnds) (hle : (m :: rest).length ≤ finish) (mark : String)
    (hmark : ∀ m ∈ valueEnds, [m] ≠ mark.toList) :
    (State.facing finish found (m :: rest)).token.isMark mark = false :=
  (at_facing_mark found (valueEnds_lone hm) hle).not_isMark (valueEnds_lone hm) (hmark m hm)

theorem valueEnd_not_ends (hm : m ∈ valueEnds) (lineEnd : LineEnd) :
    (State.facing finish found (m :: rest)).endsBefore lineEnd = false := by
  have hne : ∀ m ∈ valueEnds, m ≠ '\x7d' := by decide
  exact not_endsBefore finish found (noGap_mark (valueEnds_lone hm) rest) (hne m hm) lineEnd

/-- No call and no part of a value begins with such a mark. -/
theorem link?_valueEnd (hm : m ∈ valueEnds) (hle : (m :: rest).length ≤ finish) :
    link? g start value scope (.facing finish found (m :: rest)) =
      .ok (none, .facing finish found (m :: rest)) := by
  have hkind : ((State.facing finish found (m :: rest)).token.kind == .template) = false := by
    rw [(at_facing_mark found (valueEnds_lone hm) hle).token_mark (valueEnds_lone hm)]
    rfl
  unfold link?
  rw [endsHere_bind, valueEnd_not_ends hm, Bool.and_false, if_neg Bool.false_ne_true, get_bind]
  have hmark : ∀ mark : String, (∀ m ∈ valueEnds, [m] ≠ mark.toList) →
      (State.facing finish found (m :: rest)).token.isMark mark = false := valueEnd_not_isMark hm hle
  simp only [accept_bind, atMark_bind, atKind_bind, hmark "." (by decide), hmark "?." (by decide),
    hmark "[" (by decide), hmark "(" (by decide), hmark "!" (by decide), hmark "<" (by decide), hkind,
    Bool.false_eq_true, if_false, pure_run]

theorem operatorAt?_valueEnd (hm : m ∈ valueEnds) (rest : List Char) : operatorAt? (m :: rest) = none := by
  have hall : ∀ entry ∈ operators, ∃ c ∈ entry.1.head?, c ∉ valueEnds := by decide
  have hnone : operators.find? (fun entry => entry.1.isPrefixOf (m :: rest)) = none := by
    refine List.find?_eq_none.mpr fun entry hentry hbegins => ?_
    obtain ⟨c, hc, hne⟩ := hall entry hentry
    obtain ⟨more, hmore⟩ := List.head?_eq_some_iff.mp hc
    rw [hmore, List.isPrefixOf_cons_cons, Bool.and_eq_true, beq_iff_eq] at hbegins
    exact hne (hbegins.1 ▸ hm)
  rw [operatorAt?, hnone, Option.bind_none]

/-- No operator begins with such a mark. -/
theorem rowStep?_valueEnd (hm : m ∈ valueEnds) (hle : (m :: rest).length ≤ finish) :
    rowStep? g value scope (.facing finish found (m :: rest)) =
      .ok (none, .facing finish found (m :: rest)) := by
  have hat := at_facing_mark found (valueEnds_lone hm) hle
  have hmark : ∀ mark : String, (∀ m ∈ valueEnds, [m] ≠ mark.toList) →
      (State.facing finish found (m :: rest)).token.isMark mark = false := valueEnd_not_isMark hm hle
  have htoken : (State.facing finish found (m :: rest)).token = ⟨.mark, [m]⟩ :=
    hat.token_mark (valueEnds_lone hm)
  have hword : ∀ word : String, (State.facing finish found (m :: rest)).token.isWord word = false := by
    intro word
    rw [htoken]
    rfl
  have hkind : ((State.facing finish found (m :: rest)).token.kind != .mark) = false := by
    rw [htoken]
    rfl
  have hcondition : atCondition scope (.facing finish found (m :: rest)) =
      .ok (false, .facing finish found (m :: rest)) := by
    rw [atCondition, following_bind, atMark_bind, hmark "?" (by decide), Bool.false_and, pure_run]
  unfold rowStep?
  rw [endsHere_bind, valueEnd_not_ends hm, Bool.and_false, if_neg Bool.false_ne_true, get_bind, read_bind]
  simp only [hword, hmark "++" (by decide), hmark "--" (by decide), Bool.or_self, Bool.false_and,
    Bool.false_eq_true, if_false, bind_of_ok hcondition, hkind, hat.here, operatorAt?_valueEnd hm, pure_run]

/-- What is read in front of such a mark is the whole value. -/
theorem anyValue_whole (hm : m ∈ valueEnds) (h : s.At finish found (text ++ m :: rest))
    (hkind : s.token.kind ≠ .mark)
    (hprimary : primaryValue g scope s = .ok (value, .facing finish found (m :: rest))) :
    anyValue g scope s = .ok (value, .facing finish found (m :: rest)) := by
  have hle := h.le
  rw [List.length_append] at hle
  have hmark : ∀ mark : String, s.token.isMark mark = false := by
    intro mark
    rw [Token.isMark, beq_eq_false_iff_ne.mpr hkind, Bool.false_and]
  have hlinks : extend (link? g s) value scope (.facing finish found (m :: rest)) =
      .ok (value, .facing finish found (m :: rest)) :=
    (Extends.refl _ _).extend (link?_valueEnd hm (by omega))
  have hoperand : operand g scope s = .ok (value, .facing finish found (m :: rest)) := by
    unfold operand
    rw [get_bind, accept_bind, hmark, if_neg Bool.false_ne_true]
    simp only [List.any_cons, List.any_nil, hmark, Bool.or_self, Bool.false_eq_true, if_false]
    rw [bind_of_ok hprimary, hlinks]
  rw [anyValue, bind_of_ok hoperand]
  exact (Extends.refl _ _).extend (rowStep?_valueEnd hm (by omega))

theorem anyValue_string (quote : Quote) {content : String} (hcontent : isPlain content = true)
    (h : s.At finish found (quoted quote content ++ ',' :: rest)) :
    anyValue g scope s = .ok ({ literal? := some (.string content) }, .facing finish found (',' :: rest)) := by
  have htoken : s.token = ⟨.string, quoted quote content⟩ := by
    rw [h.token_eq, readToken_quoted quote hcontent]
  have hnext : s.next = .facing finish found (',' :: rest) := h.next_eq (by rw [htoken])
  refine anyValue_whole (by decide) h (by simp [htoken]) ?_
  have hwhole : s.token.isWhole = true := Token.isWhole_of_kind (show s.token.kind = .string by rw [htoken])
  unfold primaryValue
  simp only [get_bind, take_bind hwhole, htoken, hnext, pure_run, stringValue_quoted quote hcontent]

theorem anyValue_number (n : Nat) (h : s.At finish found ((toString n).toList ++ ',' :: rest)) :
    anyValue g scope s =
      .ok ({ literal? := some (.number (toString n)) }, .facing finish found (',' :: rest)) := by
  have htoken : s.token = ⟨.number, (toString n).toList⟩ := by rw [h.token_eq, readToken_number]
  have hnext : s.next = .facing finish found (',' :: rest) := h.next_eq (by rw [htoken])
  refine anyValue_whole (by decide) h (by simp [htoken]) ?_
  have hwhole : s.token.isWhole = true := Token.isWhole_of_kind (show s.token.kind = .number by rw [htoken])
  unfold primaryValue
  simp only [get_bind, take_bind hwhole, htoken, hnext, pure_run, String.ofList_toList]

end Values

section Members
variable {g inner : Grammar} {m : EnumMember} {quote : Quote} {scope : Scope} {s : State}
  {finish : Nat} {found : List Item} {rest : List Char}

theorem EnumMember.Ordinary.name (h : m.Ordinary) : isName m.name = true := by
  cases h with
  | plain h => exact h
  | string h _ => exact h
  | number h _ => exact h

theorem letters_toString (n : Nat) : ∀ c ∈ (toString n).toList, (isLetter c || isDigit c) = true := by
  intro c hc
  rw [(isDigits_toString n).digits c hc, Bool.or_true]

theorem valueWritten_string (value : String) (rest : List Char) :
    EnumMember.valueWritten quote (some (.string value)) ++ rest =
      [' '] ++ '=' :: ([' '] ++ (quoted quote value ++ rest)) := rfl

theorem valueWritten_number (text : String) (rest : List Char) :
    EnumMember.valueWritten quote (some (.number text)) ++ rest =
      [' '] ++ '=' :: ([' '] ++ (text.toList ++ rest)) := rfl

theorem EnumMember.Ordinary.clear (h : m.Ordinary) (quote : Quote) (hrest : Clear rest) :
    Clear (m.written quote ++ rest) := by
  have hequals : ∀ text : List Char, Clear text → Clear ([' '] ++ '=' :: ([' '] ++ text)) :=
    fun text htext => .char (by decide) (.equals htext)
  have hvalue : Clear (valueWritten quote m.value? ++ rest) := by
    cases h with
    | plain _ => exact hrest
    | string _ hvalue =>
      rw [valueWritten_string]
      exact hequals _ (.string quote hvalue hrest)
    | number _ n =>
      rw [valueWritten_number]
      refine hequals _ (hrest.prepend fun c hc => ?_)
      rw [isClear, letters_toString n c hc, Bool.true_or]
  rw [written, List.append_assoc]
  exact hvalue.word (isName_word h.name)

theorem EnumMember.Ordinary.endsName (h : m.Ordinary) (quote : Quote) (rest : List Char) :
    EndsName (valueWritten quote m.value? ++ ',' :: rest) := by
  cases h with
  | plain _ => exact endsName_of_mem (by decide) _
  | string _ _ =>
    rw [valueWritten_string]
    exact endsName_of_mem (by decide) _
  | number _ _ =>
    rw [valueWritten_number]
    exact endsName_of_mem (by decide) _

theorem initializer?_equals {text : List Char} {value : Operand} (hg : g.value = anyValue inner)
    (htext : NoGap (text ++ ',' :: rest))
    (hle : ([' '] ++ '=' :: ([' '] ++ (text ++ ',' :: rest))).length ≤ finish)
    (hread : ∀ s : State, s.At finish found (text ++ ',' :: rest) →
      anyValue inner scope s = .ok (value, .facing finish found (',' :: rest))) :
    initializer? g scope (.facing finish found ([' '] ++ '=' :: ([' '] ++ (text ++ ',' :: rest)))) =
      .ok (some value, .facing finish found (',' :: rest)) := by
  have hat : (State.facing finish found ([' '] ++ '=' :: ([' '] ++ (text ++ ',' :: rest)))).At finish
      found ('=' :: ([' '] ++ (text ++ ',' :: rest))) := at_equals hle
  have hvalueAt := hat.behind_mark isSpace_single htext found
  rw [initializer?, bind_of_ok (accept_equals hat), if_pos rfl, hg, bind_of_ok (hread _ hvalueAt), pure_run]

/-- The value of a member, where it has one. -/
theorem initializer?_written (hg : g.value = anyValue inner) (hm : m.Ordinary)
    (hle : (EnumMember.valueWritten quote m.value? ++ ',' :: rest).length ≤ finish) :
    ∃ value?, initializer? g scope (.facing finish found
      (EnumMember.valueWritten quote m.value? ++ ',' :: rest)) =
        .ok (value?, .facing finish found (',' :: rest)) ∧ value?.bind (·.literal?) = m.value? := by
  cases hm with
  | plain _ =>
    have hmark : (State.facing finish found (',' :: rest)).token.isMark "=" = false :=
      (at_facing_mark found (by decide) hle).not_isMark (by decide) (by decide)
    refine ⟨none, ?_, rfl⟩
    show initializer? g scope (.facing finish found (',' :: rest)) = _
    rw [initializer?, accept_bind, hmark]
    rfl
  | @string _ value _ hvalue =>
    rw [valueWritten_string] at hle ⊢
    have hsolid : Solid (quoted quote value) := (Solid.quote quote).append _ (.quote quote)
    exact ⟨_, initializer?_equals hg (hsolid.noGap _) hle fun s hat => anyValue_string quote hvalue hat, rfl⟩
  | number _ n =>
    rw [valueWritten_number] at hle ⊢
    have hsolid : Solid (toString n).toList :=
      .of_letters (isDigits_toString n).nonempty (letters_toString n)
    exact ⟨_, initializer?_equals hg (hsolid.noGap _) hle fun s hat => anyValue_number n hat, rfl⟩

theorem EnumMember.Ordinary.noGap (h : m.Ordinary) (quote : Quote) (rest : List Char) :
    NoGap (m.written quote ++ rest) := by
  rw [written, List.append_assoc]
  exact (Solid.word (isName_word h.name)).noGap _

theorem enumMember_token (hm : m.Ordinary) (h : s.At finish found (m.written quote ++ ',' :: rest)) :
    s.token = ⟨.word, m.name.toList⟩ := by
  rw [EnumMember.written, List.append_assoc] at h
  exact h.token_word (isName_word hm.name) (hm.endsName quote rest)

theorem enumMember_written (hg : g.value = anyValue inner) (hm : m.Ordinary)
    (h : s.At finish found (m.written quote ++ ',' :: rest)) :
    enumMember g scope s = .ok (m, .facing finish found (',' :: rest)) := by
  have htoken := enumMember_token hm h
  have hstarts : s.token.startsName = true := by
    rw [htoken]
    rfl
  have hat := h
  rw [EnumMember.written, List.append_assoc] at hat
  have hnext := hat.next_word (isName_word hm.name) (hm.endsName quote rest)
  have hle := hat.le
  rw [List.length_append] at hle
  obtain ⟨value?, hvalue, hliteral⟩ : ∃ value?, initializer? g scope (.facing finish found
      (EnumMember.valueWritten quote m.value? ++ ',' :: rest)) =
        .ok (value?, .facing finish found (',' :: rest)) ∧ value?.bind (·.literal?) = m.value? :=
    initializer?_written hg hm (by omega)
  have hname : propertyName g scope s = .ok (m.name, s.next) := propertyName_name htoken
  unfold enumMember
  rw [current_bind, hstarts]
  show (propertyName g >>= _) scope s = _
  rw [bind_of_ok hname, hnext, bind_of_ok hvalue, hliteral, pure_run]

/-- A comma separates two members, or it is the last one. -/
theorem enumSeparator_comma (h : s.At finish found (',' :: rest))
    (hcomma : (State.facing finish found rest).token.isMark "," = false) :
    enumSeparator scope s = .ok (!((State.facing finish found rest).token.isMark "\x7d" ||
      (State.facing finish found rest).token.kind == .finish), .facing finish found rest) := by
  have hbrace : s.token.isMark "\x7d" = false := h.not_isMark (by decide) (by decide)
  have hmark : s.token.isMark "," = true := h.isMark (by decide) rfl
  have hfinish : (s.token.kind == .finish) = false := by
    rw [Token.kind_of_isMark hmark]
    rfl
  unfold enumSeparator
  rw [atEnd_bind, hbrace, hfinish, Bool.or_self, if_neg Bool.false_ne_true, atMark_bind, hmark, if_pos rfl, get_bind,
    discard_take_bind (Token.isWhole_of_kind (Token.kind_of_isMark hmark)), h.next_mark (by decide), atMark_bind, hcomma,
    if_neg Bool.false_ne_true]
  rfl

end Members

def EnumMember.entries (quote : Quote) (members : List EnumMember) : List (List Char) :=
  members.map (·.written quote ++ [','])

section Separated
variable {g inner : Grammar} {quote : Quote} {members : List EnumMember} {gap last : List Char}
  {scope : Scope} {s : State} {finish : Nat} {found : List Item} {rest : List Char}
  (hgap : IsSpace gap) (hlast : IsSpace last) (hmembers : ∀ m ∈ members, m.Ordinary)
include hgap hlast hmembers

theorem repeats_enumMembers (hg : g.value = anyValue inner)
    (hle : (',' :: bracedTail gap last (EnumMember.entries quote members) rest).length ≤ finish) :
    Repeats (do if ← enumSeparator then return some (← enumMember g) else return none) scope
      (.facing finish found (',' :: bracedTail gap last (EnumMember.entries quote members) rest)) members
      (.facing finish found (last ++ '}' :: rest)) := by
  rw [EnumMember.entries, bracedTail_marked] at hle ⊢
  refine repeats_marked (gap ++ EnumMember.written quote ·) id (fun tail => ∃ more, tail = ',' :: more)
    (fun _ => rfl) isSpace_nil (by decide) ⟨_, rfl⟩ ?_ ?_ ?_ (List.map_id members) hle
  · rintro m hm _ ⟨more, rfl⟩
    exact ⟨_, rfl⟩
  · rintro m hm s _ ⟨more, rfl⟩ hat
    rw [List.append_assoc] at hat
    have hmember := hat.behind_mark hgap ((hmembers m hm).noGap quote _) found
    have htoken := enumMember_token (hmembers m hm) hmember
    have hmark : ∀ mark : String, (State.facing finish found (gap ++ (m.written quote ++
        ',' :: more))).token.isMark mark = false := by
      intro mark
      rw [htoken]
      rfl
    have hfinish : ((State.facing finish found (gap ++ (m.written quote ++ ',' :: more))).token.kind ==
        .finish) = false := by
      rw [htoken]
      rfl
    rw [bind_of_ok (enumSeparator_comma hat (hmark _)), hmark, hfinish, Bool.or_self, Bool.not_false, if_pos rfl,
      bind_of_ok (enumMember_written hg (hmembers m hm) hmember)]
    rfl
  · have hle : (',' :: (last ++ '}' :: rest)).length ≤ finish := by
      rw [List.length_append] at hle
      omega
    have hat := at_facing_mark found (by decide) hle
    have hend := hat.behind_mark hlast (noGap_mark (by decide) rest) found
    rw [bind_of_ok (enumSeparator_comma hat (hend.not_isMark (by decide) (by decide))),
      hend.isMark (by decide) rfl]
    rfl

theorem enumMembers_written (hg : g.value = anyValue inner)
    (h : s.At finish found ('{' :: bracedTail gap last (EnumMember.entries quote members) rest)) :
    enumMembers g scope s = .ok (members, .facing finish found rest) := by
  unfold enumMembers
  rw [bind_of_ok (expect_at h (by decide) rfl)]
  cases members with
  | nil =>
    have hat : s.At finish found ('{' :: (last ++ '}' :: rest)) := h
    have hend : (State.facing finish found (bracedTail gap last (EnumMember.entries quote []) rest)).At
        finish found ('}' :: rest) := hat.behind_mark hlast (noGap_mark (by decide) rest) found
    have hnone : enclosed (do
        if ← atEnd then return []
        let first ← enumMember g
        let more ← many do
          if ← enumSeparator then return some (← enumMember g) else return none
        return first :: more) scope (.facing finish found (bracedTail gap last (EnumMember.entries quote []) rest)) =
        .ok ([], .facing finish found (bracedTail gap last (EnumMember.entries quote []) rest)) := by
      dsimp only [enclosed, inScope]
      rw [atEnd_bind, hend.isMark (by decide) rfl, Bool.true_or, if_pos rfl, pure_run]
    rw [bind_of_ok hnone, bind_of_ok (expect_at hend (by decide) rfl), pure_run]
  | cons m members =>
    obtain ⟨hfirst, hmembers⟩ := List.forall_mem_cons.mp hmembers
    rw [EnumMember.entries, List.map_cons, bracedTail_cons, List.append_assoc, List.singleton_append,
      ← EnumMember.entries] at h ⊢
    have hmember := h.behind_mark hgap (hfirst.noGap quote _) found
    have hle := hmember.le
    rw [List.length_append] at hle
    have hbrace : (State.facing finish found (gap ++ (m.written quote ++
        ',' :: bracedTail gap last (EnumMember.entries quote members) rest))).token.isMark "\x7d" = false := by
      rw [enumMember_token hfirst hmember]
      rfl
    have hclose : (last ++ '}' :: rest).length ≤ finish := by
      simp only [bracedTail, List.length_append, List.length_cons] at hle ⊢
      omega
    have hend := at_facing found hlast (noGap_mark (by decide) rest) hclose
    have hfinish : ((State.facing finish found (gap ++ (m.written quote ++
        ',' :: bracedTail gap last (EnumMember.entries quote members) rest))).token.kind == .finish) = false := by
      rw [enumMember_token hfirst hmember]
      rfl
    have hlist : enclosed (do
        if ← atEnd then return []
        let first ← enumMember g
        let more ← many do
          if ← enumSeparator then return some (← enumMember g) else return none
        return first :: more) scope (.facing finish found (gap ++ (m.written quote ++
          ',' :: bracedTail gap last (EnumMember.entries quote members) rest))) =
        .ok (m :: members, .facing finish found (last ++ '}' :: rest)) := by
      dsimp only [enclosed, inScope]
      rw [atEnd_bind, hbrace, hfinish, Bool.or_self, if_neg Bool.false_ne_true,
        bind_of_ok (enumMember_written hg hfirst hmember),
        bind_of_ok (repeats_enumMembers hgap hlast hmembers hg (by omega)).many, pure_run]
    rw [bind_of_ok hlist,
      bind_of_ok (expect_at hend (by decide) rfl), pure_run]

end Separated

theorem enumDeclaration_declares {g : Grammar} (inner : Grammar) {quote : Quote} {name : String} {isConst : Bool}
    {members : List EnumMember} {gap last : List Char} (hg : g.value = anyValue inner)
    (hgap : IsSpace gap) (hlast : IsSpace last) (hname : isName name = true)
    (hmembers : ∀ m ∈ members, m.Ordinary) :
    Declares (enumDeclaration g) ((if isConst then "const".toList ++ [' '] else []) ++ ("enum".toList ++
      ([' '] ++ (name.toList ++ ([' '] ++ braced gap last (EnumMember.entries quote members))))))
      (.enumDecl name isConst members) := by
  intro scope s finish found rest _ h
  simp only [List.append_assoc, braced_append] at h
  have henum : ∀ t : State, t.At finish found ("enum".toList ++ ([' '] ++ (name.toList ++ ([' '] ++
      '{' :: bracedTail gap last (EnumMember.entries quote members) rest)))) →
      (do
        expectWord "enum"
        let name ← anyWord
        emit (.enumDecl name isConst (← unseen (enumMembers g))) : Parser Unit) scope t =
        .ok ((), .facing finish (.enumDecl name isConst members :: found) rest) := by
    intro t hat
    have hnameAt := hat.behind isSpace_single ((Solid.word (isName_word hname)).noGap _) found
    have hle := hnameAt.le
    rw [List.length_append] at hle
    have hmembersAt : (State.facing finish []
        ([' '] ++ '{' :: bracedTail gap last (EnumMember.entries quote members) rest)).At finish []
          ('{' :: bracedTail gap last (EnumMember.entries quote members) rest) :=
      at_facing [] isSpace_single (noGap_mark (by decide) _) (by omega)
    rw [bind_of_ok (expectWord_at hat (by decide) (endsName_of_mem (by decide) _)),
      bind_of_ok (anyWord_at hnameAt (isName_word hname) (endsName_of_mem (by decide) _)),
      bind_of_ok (unseen_facing (enumMembers_written hgap hlast hmembers hg hmembersAt))]
    rfl
  unfold enumDeclaration
  cases isConst with
  | true =>
    have hat : s.At finish found ("const".toList ++ ([' '] ++ ("enum".toList ++ ([' '] ++ (name.toList ++
        ([' '] ++ '{' :: bracedTail gap last (EnumMember.entries quote members) rest)))))) := by
      simpa only [if_true, List.append_assoc] using h
    have hends := endsName_of_mem (m := ' ') (by decide) ("enum".toList ++ ([' '] ++ (name.toList ++
        ([' '] ++ '{' :: bracedTail gap last (EnumMember.entries quote members) rest))))
    have henumAt := hat.behind isSpace_single ((Solid.word (by decide)).noGap _) found
    have hconst : acceptWord "const" scope s = .ok (true, .facing finish found ([' '] ++ ("enum".toList ++
        ([' '] ++ (name.toList ++ ([' '] ++ '{' :: bracedTail gap last (EnumMember.entries quote members)
          rest)))))) := by
      have hword : s.token.isWord "const" = true := by
        rw [hat.token_word (by decide) hends]
        rfl
      rw [acceptWord_run, hword, if_pos rfl, hat.next_word (by decide) hends]
    rw [bind_of_ok hconst]
    exact henum _ henumAt
  | false =>
    have hat : s.At finish found ("enum".toList ++ ([' '] ++ (name.toList ++
        ([' '] ++ '{' :: bracedTail gap last (EnumMember.entries quote members) rest)))) := h
    have hword : s.token.isWord "const" = false := by
      rw [hat.token_word (by decide) (endsName_of_mem (by decide) _)]
      rfl
    rw [bind_of_ok (acceptWord_of_not_isWord hword)]
    exact henum _ hat

end DeclSchema.Syntax
