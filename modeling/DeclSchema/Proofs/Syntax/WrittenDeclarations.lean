import DeclSchema.Proofs.Syntax.WrittenTypes

/-! # Interfaces, aliases and enums are read back

A reader of such a declaration takes the written text and records the declaration. The types in
it are read one level further down in the grammar.
-/
namespace DeclSchema.Syntax
open Text

section Gathering
variable {α : Type} {p : Parser α} {a : α} {scope : Scope} {finish : Nat} {found items : List Item}
  {rest rest' : List Char}

theorem gather_facing (h : p scope (.facing finish [] rest) = .ok (a, .facing finish items rest')) :
    gather p scope (.facing finish found rest) = .ok ((a, items.reverse), .facing finish found rest') := by
  have hempty : { State.facing finish found rest with found := [] } = State.facing finish [] rest := rfl
  rw [gather, hempty, h]
  rfl

theorem unseen_facing (h : p scope (.facing finish [] rest) = .ok (a, .facing finish items rest')) :
    unseen p scope (.facing finish found rest) = .ok (a, .facing finish found rest') :=
  map_of_ok (f := Prod.fst) (gather_facing h)

theorem emit_facing (item : Item) : emit item scope (.facing finish found rest) =
    .ok ((), .facing finish (item :: found) rest) := rfl

end Gathering

/-- In front of this text the reader takes it and records this declaration. -/
def Declares (p : Parser Unit) (text : List Char) (item : Item) : Prop :=
  ∀ ⦃scope s finish found rest⦄, Clear rest → s.At finish found (text ++ rest) →
    p scope s = .ok ((), .facing finish (item :: found) rest)

def nameEnds : List Char := [',', '{']

theorem heritageName?_name {name : String} (h : isName name = true) : heritageName? name = some name := by
  have hword := isName_word h
  have hwhole : name.toList.takeWhile (· != '<') = name.toList := by
    refine List.takeWhile_eq_self_iff.mpr fun c hc => ?_
    have hletter := (isWord_chars hword).2 c hc
    rw [bne_iff_ne]
    rintro rfl
    cases hletter
  have hne : name.toList.isEmpty = false := by
    cases hname : name.toList with
    | nil => exact absurd hname (isWord_chars hword).1
    | cons c rest => rfl
  rw [heritageName?, hwhole, (Solid.word hword).trimmed.trim_eq]
  simp [hne]

theorem foldl_distinct {names before : List String} (h : (before ++ names).Nodup) :
    names.foldl (fun names name => if names.contains name then names else names ++ [name]) before =
      before ++ names := by
  induction names generalizing before with
  | nil => simp
  | cons name names ih =>
    have hnot : name ∉ before := by
      intro hmem
      exact (List.nodup_append.mp h).2.2 name hmem name (by simp) rfl
    have hcontains : before.contains name = false := by simpa using hnot
    rw [List.foldl_cons, hcontains, if_neg Bool.false_ne_true, ih (by simpa using h)]
    simp

theorem heritageNames_names {names : List String} (hnames : ∀ name ∈ names, isName name = true)
    (hdistinct : names.Nodup) : heritageNames names = names := by
  have hsome : names.filterMap heritageName? = names := by
    have hall : names.filterMap heritageName? = names.filterMap some :=
      List.filterMap_congr fun name hname => heritageName?_name (hnames name hname)
    rw [hall, List.filterMap_some]
  rw [heritageNames, hsome]
  exact foldl_distinct hdistinct

section Heritage
variable {g : Grammar} {entry : Parser String} {names : List String} {scope : Scope} {finish : Nat}
  {found : List Item} {rest : List Char}

/-- The name of a base and nothing behind it. -/
theorem extendedInterface_name {name : String} (hname : isName name = true) :
    Reads (extendedInterface g) name.toList (FollowedBy nameEnds) name := by
  intro scope s finish found rest hrest h
  have hword := isName_word hname
  have hends := hrest.endsName (by decide)
  have hle := h.le
  rw [List.length_append] at hle
  have hkind : (s.token.kind == .word) = true := by
    rw [h.token_word hword hends]
    rfl
  have hmark : ∀ mark : String, mark = "." ∨ mark = "<" →
      (State.facing finish found rest).token.isMark mark = false := by
    rintro mark (rfl | rfl) <;> exact hrest.not_isMark (by decide) (by omega) (by decide)
  have htextTo := textTo_solid h (.word hword)
  dsimp only [extendedInterface]
  rw [atKind_bind, hkind, if_neg (by decide), get_bind, bind_of_ok (qualifiedName_run h hword hends (hmark _ (.inl rfl))), get_bind, htextTo, atMark_bind, hmark _ (.inr rfl)]
  rfl

theorem heritageEntries_names (hne : names ≠ [])
    (hread : ∀ name ∈ names, Reads entry name.toList (FollowedBy nameEnds) name)
    (hnames : ∀ name ∈ names, isName name = true) :
    Reads (heritageEntries entry) (joinWith [',', ' '] (names.map String.toList)) (FollowedBy ['{']) names := by
  intro scope s finish found rest hrest h
  obtain ⟨first, more, rfl⟩ := List.exists_cons_of_ne_nil hne
  obtain ⟨hfirst, hmore⟩ := List.forall_mem_cons.mp hread
  obtain ⟨-, hmoreNames⟩ := List.forall_mem_cons.mp hnames
  rw [List.map_cons, joinWith_cons, List.flatMap_map, List.append_assoc] at h
  have hle := h.le
  rw [List.length_append] at hle
  have hfollows : ∀ name ∈ more, ∀ tail, FollowedBy nameEnds tail →
      FollowedBy nameEnds (',' :: (' ' :: name.toList ++ tail)) := by
    intro name hname tail htail
    have hclear := htail.clear.word (isName_word (hmoreNames name hname))
    exact .of_mark (by decide) (.char (by decide) hclear) (by decide)
  have hfollowed : FollowedBy nameEnds ((more.flatMap fun name => [',', ' '] ++ name.toList) ++ rest) :=
    follows_flatMap (hrest.mono (by decide)) hfollows
  have hrepeats : Repeats (do
      if ← accept "," then return some (← entry) else return none) scope
      (.facing finish found ((more.flatMap fun name => [',', ' '] ++ name.toList) ++ rest))
      more (.facing finish found rest) := by
    refine repeats_marked (fun name => ' ' :: name.toList) id (FollowedBy nameEnds) (fun _ => rfl)
      isSpace_nil (by decide) (hrest.mono (by decide)) hfollows ?_ ?_ (List.map_id more)
      (Nat.le_trans (Nat.le_add_left _ _) hle)
    · intro name hname s tail htail hat
      have hat : s.At finish found (',' :: ([' '] ++ (name.toList ++ tail))) := hat
      have hnameAt := hat.behind_mark isSpace_single
        ((Solid.word (isName_word (hmoreNames name hname))).noGap tail) found
      rw [bind_of_ok (accept_at hat (by decide) rfl), if_pos rfl, bind_of_ok (hmore name hname htail hnameAt)]
      rfl
    · have hcomma : (State.facing finish found rest).token.isMark "," = false := by
        rw [List.length_append] at hle
        exact hrest.not_isMark (by decide) (by omega) (by decide)
      simp only [accept_bind, hcomma, Bool.false_eq_true, if_false]
      rfl
  unfold heritageEntries
  rw [bind_of_ok (hfirst hfollowed h), bind_of_ok hrepeats.many, pure_run]

theorem heritageWritten_cons (name : String) (names : List String) (rest : List Char) :
    heritageWritten (name :: names) ++ rest = [' '] ++ ("extends".toList ++ ([' '] ++
      (joinWith [',', ' '] ((name :: names).map String.toList) ++ rest))) := rfl

/-- The heritage clause, where there is one. -/
theorem heritage_written (hnames : ∀ name ∈ names, isName name = true) (hdistinct : names.Nodup)
    (hrest : FollowedBy ['{'] rest) (hle : (heritageWritten names ++ rest).length ≤ finish) :
    (enclosed do
      if ← acceptWord "extends" then heritageEntries (extendedInterface g) else return []) scope (.facing finish found (heritageWritten names ++ rest)) =
        .ok (names, .facing finish found rest) := by
  dsimp only [enclosed, inScope]
  cases names with
  | nil =>
    have hword : (State.facing finish found (heritageWritten [] ++ rest)).token.isWord "extends" = false :=
      hrest.not_isWord (by decide) hle _
    rw [acceptWord_bind, hword]
    rfl
  | cons first more =>
    have hsolid : Solid (joinWith [',', ' '] ((first :: more).map String.toList)) := by
      refine .joinWith (by simp) fun part hpart => ?_
      obtain ⟨name, hname, rfl⟩ := List.mem_map.mp hpart
      exact .word (isName_word (hnames name hname))
    rw [heritageWritten_cons] at hle ⊢
    have hword := at_facing found isSpace_single ((Solid.word (by decide)).noGap _) hle
    have hends : EndsName ([' '] ++ (joinWith [',', ' '] ((first :: more).map String.toList) ++ rest)) :=
      endsName_of_mem (by decide) _
    have hlist := hword.behind isSpace_single (hsolid.noGap rest) found
    have hextends : (State.facing finish found ([' '] ++ ("extends".toList ++ ([' '] ++
        (joinWith [',', ' '] ((first :: more).map String.toList) ++ rest))))).token.isWord "extends" =
          true := by
      rw [hword.token_word (by decide) hends]
      rfl
    rw [acceptWord_bind, hextends, if_pos rfl, if_pos rfl, hword.next_word (by decide) hends]
    exact heritageEntries_names (by simp) (fun name hname => extendedInterface_name (hnames name hname)) hnames
      hrest hlist

end Heritage

section Interface
variable {g : Grammar} {name : String} {names : List String} {scope : Scope} {s : State}
  {finish : Nat} {found : List Item} {rest : List Char}

theorem typeParameters?_none (h : s.token.isMark "<" = false) :
    typeParameters? g scope s = .ok ((), s) := by
  rw [typeParameters?, accept_bind, h]
  rfl

theorem heritageWritten_endsName (names : List String) (rest : List Char) :
    EndsName (heritageWritten names ++ ' ' :: rest) := by
  cases names with
  | nil => exact endsName_of_mem (by decide) _
  | cons first more => exact endsName_of_mem (by decide) _

theorem heritageWritten_clear (hnames : ∀ name ∈ names, isName name = true) (hrest : Clear rest) :
    Clear (heritageWritten names ++ rest) := by
  cases names with
  | nil => exact hrest
  | cons first more =>
    obtain ⟨hfirst, hmore⟩ := List.forall_mem_cons.mp hnames
    have hbases : Clear ((more.flatMap fun name => [',', ' '] ++ name.toList) ++ rest) := by
      refine follows_flatMap hrest fun name hname rest hrest => ?_
      rw [List.append_assoc]
      exact .char (by decide) (.char (by decide) (hrest.word (isName_word (hmore name hname))))
    have hall : Clear (' ' :: (first.toList ++ ((more.flatMap fun name => [',', ' '] ++ name.toList) ++
        rest))) := .char (by decide) (hbases.word (isName_word hfirst))
    have hextends : isWord "extends".toList = true := by decide
    rw [heritageWritten_cons, List.map_cons, joinWith_cons, List.flatMap_map, List.append_assoc]
    exact .char (by decide) (hall.word hextends)

/-- No type parameters stand in front of a heritage clause. -/
theorem heritageWritten_not_angle (names : List String) (hrest : FollowedBy ['{'] rest)
    (hle : (heritageWritten names ++ rest).length ≤ finish) :
    (State.facing finish found (heritageWritten names ++ rest)).token.isMark "<" = false := by
  cases names with
  | nil => exact hrest.not_isMark (by decide) hle (by decide)
  | cons first more =>
    rw [heritageWritten_cons] at hle ⊢
    have hword := at_facing found isSpace_single ((Solid.word (by decide)).noGap _) hle
    rw [hword.token_word (by decide) (endsName_of_mem (by decide) _)]
    rfl

variable {indent : List Char} {members : List Member}

theorem interfaceDeclaration_declares {gap last : List Char} (hgap : IsSpace gap) (hlast : IsSpace last)
    (hname : isName name = true) (hheritage : ∀ base ∈ names, isName base = true)
    (hdistinct : names.Nodup) (hnames : ∀ m ∈ members, isName m.name = true)
    (hread : ∀ m ∈ members, ∀ type, m.type? = some type →
      Reads g.type type.text.toList (FollowedBy typeEnds) type)
    (hordinary : ∀ m ∈ members, ∀ type, m.type? = some type → type.Ordinary) :
    Declares (interfaceDeclaration g) ("interface".toList ++ ([' '] ++ (name.toList ++
      (heritageWritten names ++ ([' '] ++ braced gap last (memberEntries members))))))
      (.interfaceDecl name names members) := by
  intro scope s finish found rest hrest h
  have hclear : Clear (bracedTail gap last (memberEntries members) rest) :=
    bracedTail_clear hgap hlast (memberEntries_clear hnames fun m hm type htype =>
      (hordinary m hm type htype).clear) hrest
  have hbrace : FollowedBy ['{'] ([' '] ++ '{' :: bracedTail gap last (memberEntries members) rest) :=
    .of_gap isSpace_single (by decide) hclear (by decide)
  simp only [List.append_assoc, braced_append] at h
  have hnameAt := h.behind isSpace_single ((Solid.word (isName_word hname)).noGap _) found
  have hle := hnameAt.le
  rw [List.length_append] at hle
  have hbraceLe := hle
  rw [List.length_append] at hbraceLe
  have hmembersAt : (State.facing finish []
      ([' '] ++ '{' :: bracedTail gap last (memberEntries members) rest)).At finish []
        ('{' :: bracedTail gap last (memberEntries members) rest) :=
    at_facing [] isSpace_single (noGap_mark (by decide) _) (by omega)
  have hbody : (do
      typeParameters? g
      let heritage ← enclosed do
        if ← acceptWord "extends" then heritageEntries (extendedInterface g) else return []
      return (heritageNames heritage, ← typeMembers g)) scope (.facing finish []
        (heritageWritten names ++ ([' '] ++ '{' :: bracedTail gap last (memberEntries members) rest))) =
      .ok ((names, members), .facing finish [] rest) := by
    rw [bind_of_ok (typeParameters?_none (heritageWritten_not_angle names hbrace (by omega))),
      bind_of_ok (heritage_written hheritage hdistinct hbrace (by omega)),
      heritageNames_names hheritage hdistinct,
      bind_of_ok (typeMembers_written hgap hlast hnames hread hordinary hrest hmembersAt), pure_run]
  unfold interfaceDeclaration
  rw [bind_of_ok (expectWord_at h (by decide) (endsName_of_mem (by decide) _)),
    bind_of_ok (anyWord_at hnameAt (isName_word hname) (heritageWritten_endsName names _)),
    bind_of_ok (unseen_facing hbody)]
  rfl

end Interface

section Alias
variable {g : Grammar} {name : String} {type : TypeNode} {scope : Scope} {s : State}
  {finish : Nat} {found : List Item} {rest : List Char}

theorem State.At.token_equals (h : s.At finish found ('=' :: ([' '] ++ rest))) :
    s.token = ⟨.mark, ['=']⟩ := by
  rw [h.token_eq]
  exact congrArg Prod.fst (readToken_equals rest)

theorem State.At.not_isMark_equals (h : s.At finish found ('=' :: ([' '] ++ rest))) (mark : String)
    (hmark : ['='] ≠ mark.toList) : s.token.isMark mark = false := by
  rw [h.token_equals]
  simpa [Token.isMark] using hmark

theorem accept_equals (h : s.At finish found ('=' :: ([' '] ++ rest))) :
    accept "=" scope s = .ok (true, .facing finish found ([' '] ++ rest)) := by
  have hat : s.At finish found (['='] ++ ([' '] ++ rest)) := h
  have hmark : s.token.isMark "=" = true := by
    rw [h.token_equals]
    rfl
  rw [accept_of_isMark hmark, hat.next_eq (by rw [h.token_equals])]

theorem expect_equals (h : s.At finish found ('=' :: ([' '] ++ rest))) :
    expect "=" scope s = .ok ((), .facing finish found ([' '] ++ rest)) := by
  rw [expect, bind_of_ok (accept_equals h)]
  rfl

/-- In front of an equality sign after a space. -/
theorem at_equals (hle : ([' '] ++ '=' :: ([' '] ++ rest)).length ≤ finish) :
    (State.facing finish found ([' '] ++ '=' :: ([' '] ++ rest))).At finish found
      ('=' :: ([' '] ++ rest)) := by
  refine at_facing found isSpace_single ?_ hle
  rintro c hc
  cases hc
  decide

theorem aliasDeclaration_declares (hname : isName name = true) (htype : type.Ordinary)
    (hread : Reads g.type type.text.toList (FollowedBy typeEnds) type) :
    Declares (aliasDeclaration g) ("type".toList ++ ([' '] ++ (name.toList ++
      ([' '] ++ '=' :: ([' '] ++ (type.text.toList ++ [';'])))))) (.aliasDecl name type) := by
  intro scope s finish found rest hrest h
  have hsemicolon : FollowedBy typeEnds (';' :: rest) := .of_mark (by decide) hrest (by decide)
  have hat : s.At finish found ("type".toList ++ ([' '] ++ (name.toList ++
      ([' '] ++ '=' :: ([' '] ++ (type.text.toList ++ ';' :: rest)))))) := by simpa using h
  have hnameAt := hat.behind isSpace_single ((Solid.word (isName_word hname)).noGap _) found
  have hle := hnameAt.le
  rw [List.length_append] at hle
  have hequals : (State.facing finish [] ([' '] ++ '=' :: ([' '] ++ (type.text.toList ++
      ';' :: rest)))).At finish [] ('=' :: ([' '] ++ (type.text.toList ++ ';' :: rest))) :=
    at_equals (by omega)
  have hangle : (State.facing finish [] ([' '] ++ '=' :: ([' '] ++ (type.text.toList ++
      ';' :: rest)))).token.isMark "<" = false :=
    hequals.not_isMark_equals "<" (by decide)
  have htypeAt := hequals.behind_mark isSpace_single (htype.solid.noGap _) []
  have hopening := htype.opening _ (hsemicolon.endsName (by decide))
  rw [← htypeAt.token_eq] at hopening
  have hrun : inScope (fun _ => { lineEnd := .afterType }) g.type scope
      (.facing finish [] ([' '] ++ (type.text.toList ++ ';' :: rest))) =
        .ok (type, .facing finish [] (';' :: rest)) := hread hsemicolon htypeAt
  have hbody : (do
      typeParameters? g
      expect "="
      if !(← current).startsType then missing "type_identifier"
      inScope (fun _ => { lineEnd := .afterType }) g.type) scope (.facing finish [] ([' '] ++
        '=' :: ([' '] ++ (type.text.toList ++ ';' :: rest)))) =
      .ok (type, .facing finish [] (';' :: rest)) := by
    rw [bind_of_ok (typeParameters?_none hangle), bind_of_ok (expect_equals hequals), current_bind,
      hopening.startsType]
    exact hrun
  have hend := htypeAt.after (noGap_mark (by decide) rest) (.aliasDecl name type :: found)
  unfold aliasDeclaration
  rw [bind_of_ok (expectWord_at hat (by decide) (endsName_of_mem (by decide) _)),
    bind_of_ok (anyWord_at hnameAt (isName_word hname) (endsName_of_mem (by decide) _)),
    bind_of_ok (unseen_facing hbody), bind_of_ok (emit_facing _), terminator,
    bind_of_ok (accept_at hend (by decide) rfl)]
  rfl

end Alias

end DeclSchema.Syntax
