import DeclSchema.Proofs.Syntax.Reads

/-! # Written members are read back

The members of an interface and those of an object type are written alike, each with a semicolon
behind it. They are read back if their types are.
-/
namespace DeclSchema.Syntax
open Text

section Members
variable {g : Grammar} {name : String} {s : State} {scope : Scope} {finish : Nat} {found : List Item}
  {rest : List Char}

theorem admits_name {order : ModifierOrder} (h : ∀ group ∈ order, name ∉ group) :
    order.admits [name] = false := by
  induction order with
  | nil => rfl
  | cons group order ih =>
    obtain ⟨hgroup, horder⟩ := List.forall_mem_cons.mp h
    rw [ModifierOrder.admits, if_neg (by simpa using hgroup), ih horder]

/-- The words that count as modifiers are no names. -/
theorem name_not_mem_order {order : ModifierOrder}
    (hwords : ∀ group ∈ order, ∀ word ∈ group, word ∈ keywords ∨ word = "*") (h : isName name = true) :
    ∀ group ∈ order, name ∉ group := by
  intro group hgroup hmem
  rcases hwords group hgroup name hmem with hword | rfl
  · exact isName_ne h hword rfl
  · cases h

theorem atIndexSignature_of_not_isMark (h : s.token.isMark "[" = false) :
    atIndexSignature scope s = .ok (false, s) := by
  unfold atIndexSignature
  dsimp only
  rw [get_bind, atMark_bind, h]
  rfl

/-- In front of a name stand no modifiers. -/
theorem modifiers_name {orders : List ModifierOrder}
    (hwords : ∀ order ∈ orders, ∀ group ∈ order, ∀ word ∈ group, word ∈ keywords ∨ word = "*")
    (h : isName name = true) (htoken : s.token = ⟨.word, name.toList⟩) :
    modifiers orders scope s = .ok ([], s) := by
  have hfits : orders.any (·.admits ([] ++ [String.ofList name.toList])) = false := by
    refine List.any_eq_false.mpr fun order horder => ?_
    simp [admits_name (name_not_mem_order (hwords order horder) h)]
  have hstar : s.token.isMark "*" = false := by
    rw [htoken]
    rfl
  have hextend : ∀ p : List String → Parser (Option (List String)),
      p [] scope s = .ok (none, s) → extend p [] scope s = .ok ([], s) := fun p hp =>
    (Extends.refl [] s).extend hp
  unfold modifiers
  dsimp only
  rw [bind_of_ok (hextend _ ?_)]
  · rw [accept_bind]
    simp only [hstar, Bool.and_false, Bool.false_eq_true, if_false, pure_run]
  · obtain ⟨modified, hmodified⟩ : ∃ b, modifies scope s = .ok (b, s) := ⟨_, rfl⟩
    rw [get_bind, bind_of_ok hmodified]
    simp only [htoken, hfits, Bool.and_false, Bool.false_and, Bool.false_eq_true, if_false, pure_run]

theorem propertyName_name (htoken : s.token = ⟨.word, name.toList⟩) :
    propertyName g scope s = .ok (name, s.next) := by
  have hwhole : s.token.isWhole = true := Token.isWhole_of_kind (show s.token.kind = .word by rw [htoken])
  unfold propertyName
  simp only [get_bind, take_bind hwhole, htoken, pure_run, String.ofList_toList]

section Member
variable {m : Member} (hname : isName m.name = true)
  (hread : ∀ type, m.type? = some type → Reads g.type type.text.toList (FollowedBy typeEnds) type)
  (hordinary : ∀ type, m.type? = some type → type.Ordinary)
include hread hordinary

theorem statedType?_stated (hrest : Clear rest)
    (hle : (stated m.type? ++ ';' :: rest).length ≤ finish) :
    statedType? g scope (.facing finish found (stated m.type? ++ ';' :: rest)) =
      .ok (m.type?, .facing finish found (';' :: rest)) := by
  cases htype? : m.type? with
  | none =>
    rw [htype?] at hle
    have hcolon : (State.facing finish found (stated none ++ ';' :: rest)).token.isMark ":" = false :=
      (at_facing_mark _ (by decide) hle).not_isMark (by decide) (by decide)
    rw [statedType?, atMark_bind, hcolon]
    rfl
  | some type =>
    rw [htype?] at hle
    have hat : (State.facing finish found (stated (some type) ++ ';' :: rest)).At finish found
        (':' :: ([' '] ++ (type.text.toList ++ ';' :: rest))) := at_facing_mark _ (by decide) hle
    have htype := hat.behind_mark isSpace_single ((hordinary type htype?).solid.noGap _) found
    have hfollowed : FollowedBy typeEnds (';' :: rest) := .of_mark (by decide) hrest (by decide)
    have hopening := (hordinary type htype?).opening _ (hfollowed.endsName (by decide))
    rw [← htype.token_eq] at hopening
    have hrun : g.type scope (.facing finish found ([' '] ++ (type.text.toList ++ ';' :: rest))) =
        .ok (type, .facing finish found (';' :: rest)) := hread type htype? hfollowed htype
    have hstated : statedType g scope (.facing finish found (stated (some type) ++ ';' :: rest)) =
        .ok (type, .facing finish found (';' :: rest)) := by
      rw [statedType, get_bind, bind_of_ok (expect_at hat (by decide) rfl), current_bind,
        if_pos hopening.startsType, hrun]
    rw [statedType?, atMark_bind, if_pos (hat.isMark (by decide) rfl), bind_of_ok hstated, pure_run]

include hname

omit hread hordinary hname in
theorem stated_head (type? : Option TypeNode) (rest : List Char) :
    ∃ c more, stated type? ++ ';' :: rest = c :: more ∧ (c = ':' ∨ c = ';') := by
  cases type? with
  | none => exact ⟨';', rest, rfl, .inr rfl⟩
  | some type => exact ⟨':', _, rfl, .inl rfl⟩

omit hread hordinary hname in
/-- The question mark of an optional property is taken, and nothing else. -/
theorem accept_optional (scope : Scope) (found : List Item) (optional : Bool) {c : Char} (hc : c = ':' ∨ c = ';')
    (hle : ((if optional then ['?'] else []) ++ c :: rest).length ≤ finish) :
    accept "?" scope (.facing finish found ((if optional then ['?'] else []) ++ c :: rest)) =
        .ok (optional, .facing finish found (c :: rest)) ∧
      (State.facing finish found ((if optional then ['?'] else []) ++ c :: rest)).token.isMark "??" =
        false := by
  cases optional with
  | true =>
    have hle : ([] ++ '?' :: c :: rest).length ≤ finish := hle
    have hgap : NoGap ('?' :: c :: rest) := by
      rintro d hd
      cases hd
      decide
    have hat : (State.facing finish found ('?' :: c :: rest)).At finish found (['?'] ++ c :: rest) :=
      at_facing _ isSpace_nil hgap hle
    have htoken : (State.facing finish found ('?' :: c :: rest)).token = ⟨.mark, ['?']⟩ := by
      rw [hat.token_eq, List.singleton_append, readToken_question hc]
    have hnext := hat.next_eq (by rw [htoken])
    have hmark : (State.facing finish found ('?' :: c :: rest)).token.isMark "?" = true := by
      rw [htoken]
      rfl
    refine ⟨?_, ?_⟩
    · show accept "?" scope (.facing finish found ('?' :: c :: rest)) = _
      rw [accept_of_isMark hmark, hnext]
    · show (State.facing finish found ('?' :: c :: rest)).token.isMark "??" = false
      rw [htoken]
      rfl
  | false =>
    have hat : (State.facing finish found (c :: rest)).At finish found (c :: rest) := by
      refine at_facing_mark _ ?_ hle
      rcases hc with rfl | rfl <;> decide
    have htoken : (State.facing finish found (c :: rest)).token = ⟨.mark, [c]⟩ := by
      refine hat.token_mark ?_
      rcases hc with rfl | rfl <;> decide
    have hmark : ∀ mark : String, mark = "?" ∨ mark = "??" →
        (State.facing finish found (c :: rest)).token.isMark mark = false := by
      rw [htoken]
      rintro mark (rfl | rfl) <;> rcases hc with rfl | rfl <;> rfl
    exact ⟨accept_of_not_isMark (hmark _ (.inl rfl)), hmark _ (.inr rfl)⟩

omit hread hordinary hname in
theorem written_endsName (optional : Bool) (type? : Option TypeNode) (rest : List Char) :
    EndsName ((if optional then ['?'] else []) ++ (stated type? ++ ';' :: rest)) := by
  obtain ⟨c, more, hmore, hc⟩ := stated_head type? rest
  rw [hmore]
  cases optional with
  | true => exact endsName_of_mem (by decide) _
  | false => rcases hc with rfl | rfl <;> exact endsName_of_mem (by decide) _

omit hread hordinary in
theorem written_token (h : s.At finish found (m.written ++ ';' :: rest)) :
    s.token = ⟨.word, m.name.toList⟩ := by
  have hat : s.At finish found (m.name.toList ++ ((if m.optional then ['?'] else []) ++
      (stated m.type? ++ ';' :: rest))) := by
    rw [Field.written] at h
    simpa using h
  exact hat.token_word (isName_word hname) (written_endsName m.optional m.type? rest)

omit hread hordinary in
theorem Field.written_noGap (rest : List Char) : NoGap (m.written ++ rest) := by
  rw [Field.written, List.append_assoc]
  exact (Solid.word (isName_word hname)).noGap _

theorem typeMember_written (hrest : Clear rest) (h : s.At finish found (m.written ++ ';' :: rest)) :
    typeMember g scope s = .ok (some m, .facing finish found (';' :: rest)) := by
  obtain ⟨name, optional, type?⟩ := m
  have hat : s.At finish found (name.toList ++ ((if optional then ['?'] else []) ++
      (stated type? ++ ';' :: rest))) := by
    rw [Field.written] at h
    simpa using h
  have hword := isName_word hname
  have hends := written_endsName optional type? rest
  have htoken := hat.token_word hword hends
  have hnext := hat.next_word hword hends
  have hle := hat.le
  rw [List.length_append] at hle
  have hlonger : ((if optional then ['?'] else []) ++ (stated type? ++ ';' :: rest)).length ≤
      finish := Nat.le_trans (Nat.le_add_left _ _) hle
  have hshorter : (stated type? ++ ';' :: rest).length ≤ finish := by
    rw [List.length_append] at hlonger
    exact Nat.le_trans (Nat.le_add_left _ _) hlonger
  have hstated : statedType? g scope (.facing finish found (stated type? ++ ';' :: rest)) =
      .ok (type?, .facing finish found (';' :: rest)) :=
    statedType?_stated (m := ⟨name, optional, type?⟩) hread hordinary hrest hshorter
  obtain ⟨c, more, hmore, hc⟩ := stated_head type? rest
  rw [hmore] at hnext hlonger hshorter hstated
  obtain ⟨hoptional, hquestions⟩ := accept_optional scope found optional hc hlonger
  have hmark : ∀ mark : String, [c] ≠ mark.toList →
      (State.facing finish found (c :: more)).token.isMark mark = false := by
    have hmem : c ∈ loneMarks := by rcases hc with rfl | rfl <;> decide
    exact fun mark hne => (at_facing_mark _ hmem hshorter).not_isMark hmem hne
  have hparenthesis := hmark "(" (by rcases hc with rfl | rfl <;> decide)
  have hangle := hmark "<" (by rcases hc with rfl | rfl <;> decide)
  have hnotMark : ∀ mark : String, s.token.isMark mark = false := by
    intro mark
    rw [htoken]
    rfl
  have hnotWord : ∀ word ∈ keywords, s.token.isWord word = false := by
    intro word hmem
    have hne := isName_ne hname hmem
    rw [htoken]
    simpa [Token.isWord, String.toList_inj] using hne
  have hstarts : s.token.startsName = true := by
    rw [htoken]
    rfl
  have hindex : atIndexSignature scope s = .ok (false, s) := atIndexSignature_of_not_isMark (hnotMark _)
  have hmodifiers : modifiers [methodOrder] scope s = .ok ([], s) := modifiers_name (by decide) hname htoken
  have hproperty : propertyName g scope s = .ok (name, s.next) := propertyName_name htoken
  unfold typeMember modifiedMember namedMember
  simp only [following_bind, atSignature_bind, atWord_bind, atMark_bind, current_bind, hnotMark,
    hnotWord "abstract" (by decide), hnotWord "new" (by decide), Bool.or_self, Bool.false_and,
    Bool.and_false, Bool.false_eq_true, if_false, bind_of_ok hmodifiers, bind_of_ok hindex, hstarts,
    Bool.not_true, bind_of_ok hproperty, hnext, hquestions, bind_of_ok hoptional, hparenthesis, hangle]
  rw [if_neg (by decide), bind_of_ok hstated, pure_run]

end Member

/-- A semicolon separates two members, or it is the last one. -/
theorem memberSeparator_semicolon {more : List Char} (h : s.At finish found (';' :: more))
    (hsemicolon : (State.facing finish found more).token.isMark ";" = false)
    (hcomma : (State.facing finish found more).token.isMark "," = false) :
    memberSeparator scope s = .ok (!((State.facing finish found more).token.isMark "\x7d" ||
      (State.facing finish found more).token.kind == .finish), .facing finish found more) := by
  have hbrace : s.token.isMark "\x7d" = false := h.not_isMark (by decide) (by decide)
  have hmark : s.token.isMark ";" = true := h.isMark (by decide) rfl
  have hwhole := Token.isWhole_of_kind (Token.kind_of_isMark hmark)
  have hfinish : (s.token.kind == .finish) = false := by
    rw [Token.kind_of_isMark hmark]
    rfl
  unfold memberSeparator
  simp only [atEnd_bind, atMark_bind, get_bind, discard_take_bind hwhole, hbrace, hfinish, hmark,
    h.next_mark (m := ';') (by decide), hsemicolon, hcomma, Bool.true_or, Bool.or_self,
    Bool.false_eq_true, if_true, if_false]
  rfl

section Separated
variable {gap last : List Char} {members : List Member} (hgap : IsSpace gap) (hlast : IsSpace last)
  (hnames : ∀ m ∈ members, isName m.name = true)
  (hread : ∀ m ∈ members, ∀ type, m.type? = some type →
    Reads g.type type.text.toList (FollowedBy typeEnds) type)
  (hordinary : ∀ m ∈ members, ∀ type, m.type? = some type → type.Ordinary)
include hgap hlast hnames hread hordinary

theorem repeats_members (hrest : Clear rest)
    (hle : (';' :: bracedTail gap last (memberEntries members) rest).length ≤ finish) :
    Repeats (do if ← memberSeparator then return some (← typeMember g) else return none) scope
      (.facing finish found (';' :: bracedTail gap last (memberEntries members) rest)) (members.map some)
      (.facing finish found (last ++ '}' :: rest)) := by
  have hclose : Clear (last ++ '}' :: rest) :=
    (Clear.char (by decide) hrest).prepend (isClear_of_isSpace hlast)
  rw [memberEntries, bracedTail_marked] at hle ⊢
  refine repeats_marked (gap ++ Field.written ·) some (fun tail => ∃ more, tail = ';' :: more ∧ Clear more)
    (fun _ => rfl) isSpace_nil (by decide) ⟨_, rfl, hclose⟩ ?_ ?_ ?_ rfl hle
  · rintro m hm _ ⟨more, rfl, hmore⟩
    have hclear := Field.written_clear (hnames m hm) (fun type htype => (hordinary m hm type htype).clear)
      (Clear.char (c := ';') (by decide) hmore)
    refine ⟨gap ++ (m.written ++ ';' :: more), ?_, hclear.prepend (isClear_of_isSpace hgap)⟩
    rw [← List.append_assoc]
    rfl
  · rintro m hm s _ ⟨more, rfl, hmore⟩ hat
    rw [List.append_assoc] at hat
    have hmember := hat.behind_mark hgap (Field.written_noGap (hnames m hm) _) found
    have htoken := written_token (hnames m hm) hmember
    have hmark : ∀ mark : String, (State.facing finish found (gap ++ (m.written ++
        ';' :: more))).token.isMark mark = false := by
      intro mark
      rw [htoken]
      rfl
    have hfinish : ((State.facing finish found (gap ++ (m.written ++ ';' :: more))).token.kind == .finish) =
        false := by
      rw [htoken]
      rfl
    rw [bind_of_ok (memberSeparator_semicolon hat (hmark _) (hmark _)), hmark, hfinish, Bool.or_self,
      Bool.not_false, if_pos rfl,
      bind_of_ok (typeMember_written (hnames m hm) (hread m hm) (hordinary m hm) hmore hmember)]
    rfl
  · have hle : (';' :: (last ++ '}' :: rest)).length ≤ finish := by
      rw [List.length_append] at hle
      omega
    have hat := at_facing_mark found (by decide) hle
    have hend := hat.behind_mark hlast (noGap_mark (by decide) rest) found
    rw [bind_of_ok (memberSeparator_semicolon hat (hend.not_isMark (by decide) (by decide))
      (hend.not_isMark (by decide) (by decide))), hend.isMark (by decide) rfl]
    rfl

theorem typeMembers_written (hrest : Clear rest)
    (h : s.At finish found ('{' :: bracedTail gap last (memberEntries members) rest)) :
    typeMembers g scope s = .ok (members, .facing finish found rest) := by
  have hle := h.le
  have hlength : (last ++ '}' :: rest).length ≤ finish := by
    simp only [bracedTail, List.length_cons, List.length_append] at hle ⊢
    omega
  have hend := at_facing found hlast (noGap_mark (by decide) rest) hlength
  unfold typeMembers
  rw [bind_of_ok (accept_at h (by decide) rfl), Bool.not_true, if_neg Bool.false_ne_true]
  refine (bind_of_ok (a := members) (t := .facing finish found (last ++ '}' :: rest)) ?_).trans ?_
  · -- the members, or none of them
    dsimp only [inScope]
    cases members with
    | nil =>
      show (atEnd >>= _) _ (State.facing finish found (last ++ '}' :: rest)) = _
      rw [atEnd_bind, hend.isMark (by decide) rfl, Bool.true_or, if_pos rfl, pure_run]
    | cons m members =>
      obtain ⟨hname, hnames⟩ := List.forall_mem_cons.mp hnames
      obtain ⟨hreadFirst, hread⟩ := List.forall_mem_cons.mp hread
      obtain ⟨hordinaryFirst, hordinary⟩ := List.forall_mem_cons.mp hordinary
      have hclear : Clear (bracedTail gap last (memberEntries members) rest) :=
        bracedTail_clear hgap hlast (memberEntries_clear hnames fun m hm type htype =>
          (hordinary m hm type htype).clear) hrest
      rw [memberEntries, List.map_cons, bracedTail_cons, List.append_assoc, List.singleton_append,
        ← memberEntries] at h ⊢
      have hmember := h.behind_mark hgap (Field.written_noGap hname _) found
      have htoken := written_token hname hmember
      have hmark : ∀ mark : String, (State.facing finish found (gap ++ (m.written ++
          ';' :: bracedTail gap last (memberEntries members) rest))).token.isMark mark = false := by
        intro mark
        rw [htoken]
        rfl
      have hmore : (';' :: bracedTail gap last (memberEntries members) rest).length ≤ finish := by
        have hle := h.le
        simp only [List.length_cons, List.length_append] at hle ⊢
        omega
      have hfinish : ((State.facing finish found (gap ++ (m.written ++
          ';' :: bracedTail gap last (memberEntries members) rest))).token.kind == .finish) = false := by
        rw [htoken]
        rfl
      rw [atEnd_bind, hmark, hfinish, Bool.or_self, if_neg Bool.false_ne_true, get_bind,
        bind_of_ok (accept_or_accept (hmark _) (hmark _)), atMark_bind, Bool.false_and,
        if_neg Bool.false_ne_true,
        bind_of_ok (typeMember_written hname hreadFirst hordinaryFirst hclear hmember),
        bind_of_ok (repeats_members hgap hlast hnames hread hordinary hrest hmore).many, pure_run]
      simp
  · rw [bind_of_ok (expect_at hend (by decide) rfl), pure_run]

end Separated

end Members

end DeclSchema.Syntax
