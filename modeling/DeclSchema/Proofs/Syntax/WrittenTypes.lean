import DeclSchema.Proofs.Syntax.WrittenMembers

/-! # Ordinary types are read back

A reader in front of the text of an ordinary type gives that type, if what follows the text does
not go on with it. The induction is on the type; one level of the grammar is enough for one
character of the text.
-/
namespace DeclSchema.Syntax
open Text

section Names
variable {g : Grammar} {s : State} {scope : Scope} {finish : Nat} {found : List Item} {rest : List Char}

theorem wordType_name {name : String} (hname : isName name = true)
    (h : s.At finish found (name.toList ++ rest)) (hrest : EndsName rest) :
    wordType g scope s = (do
      qualifiedName
      let name := s.textTo (← get)
      if ← atMark "<" then
        let args ← typeArguments g
        return .reference (s.textTo (← get)) name args
      else return .reference (s.textTo (← get)) name [] : Parser TypeNode) scope s := by
  have htoken := h.token_word (isName_word hname) hrest
  unfold wordType
  simp only [get_bind, following_bind, htoken, String.ofList_toList]
  split
  all_goals first
    | exact absurd rfl (isName_ne hname (by decide))
    | rfl

theorem primaryType_word (hkind : s.token.kind = .word) : primaryType g scope s = wordType g scope s := by
  unfold primaryType
  simp only [get_bind, hkind]

theorem primaryEnds_lone : primaryEnds ⊆ loneMarks := by decide

theorem primaryType_name {name : String} (hname : isName name = true) :
    Reads (primaryType g) name.toList (FollowedBy primaryEnds) (.reference name name []) := by
  intro scope s finish found rest hrest h
  have hword := isName_word hname
  have hends := hrest.endsName primaryEnds_lone
  have hle : rest.length ≤ finish := by
    have hle := h.le
    rw [List.length_append] at hle
    omega
  have hangle : (State.facing finish found rest).token.isMark "<" = false :=
    hrest.not_isMark primaryEnds_lone hle (by decide)
  have hpoint : (State.facing finish found rest).token.isMark "." = false :=
    hrest.not_isMark primaryEnds_lone hle (by decide)
  have htext := textTo_word h hword
  rw [String.ofList_toList] at htext
  rw [primaryType_word (by rw [h.token_word hword hends]), wordType_name hname h hends,
    bind_of_ok (qualifiedName_run h hword hends hpoint)]
  simp only [get_bind, atMark_bind, hangle, Bool.false_eq_true, if_false, pure_run, htext]

theorem primaryType_primitive (p : Primitive) :
    Reads (primaryType g) p.name.toList (FollowedBy primaryEnds) (.reference p.name p.name []) := by
  intro scope s finish found rest hrest h
  have hword := isWord_primitive p
  have hends := hrest.endsName primaryEnds_lone
  have htoken := h.token_word hword hends
  have hnext := h.next_word hword hends
  have htext := textTo_word h hword
  rw [String.ofList_toList] at htext
  have hwhole : s.token.isWhole = true := Token.isWhole_of_kind (show s.token.kind = .word by rw [htoken])
  rw [primaryType_word (by rw [htoken])]
  unfold wordType
  simp only [get_bind, following_bind, htoken, String.ofList_toList]
  cases p <;> simp only [Primitive.name] at hnext htext ⊢ <;>
    simp only [discard_take_bind hwhole, hnext, textTo_bind, pure_run, htext]

end Names
theorem primaryType_quoted {g : Grammar} {text value : String} (quote : Quote)
    (hvalue : isPlain value = true) (htext : text.toList = quoted quote value) :
    Reads (primaryType g) text.toList (FollowedBy primaryEnds) (.literal text (.string value)) := by
  intro scope s finish found rest _ h
  have hsolid : Solid text.toList := by
    rw [htext]
    exact (Solid.quote quote).append _ (.quote quote)
  have htextTo : s.textTo (.facing finish found rest) = text := by
    rw [h.textTo_facing, hsolid.trimmed.trim_eq, String.ofList_toList]
  have htoken : s.token = ⟨.string, quoted quote value⟩ := by
    rw [h.token_eq, htext, readToken_quoted quote hvalue]
  have hnext : s.next = .facing finish found rest := h.next_eq (by rw [htoken, htext])
  have hwhole : s.token.isWhole = true := Token.isWhole_of_kind (show s.token.kind = .string by rw [htoken])
  unfold primaryType
  simp only [get_bind, take_bind hwhole, htoken, hnext, textTo_bind, pure_run, htextTo,
    stringValue_quoted quote hvalue]

section Arguments
variable {p : Parser TypeNode} {scope : Scope} {finish : Nat} {found : List Item} {rest : List Char}
  {types : List TypeNode}

theorem followedBy_comma (hordinary : ∀ type ∈ types, type.Ordinary) :
    ∀ type ∈ types, ∀ tail, FollowedBy typeEnds tail →
      FollowedBy typeEnds (',' :: (' ' :: type.text.toList ++ tail)) := by
  intro type htype tail htail
  exact .of_mark (by decide) (.char (by decide) ((hordinary type htype).clear tail htail.clear)) (by decide)

theorem repeats_comma (hread : ∀ type ∈ types, Reads p type.text.toList (FollowedBy typeEnds) type)
    (hordinary : ∀ type ∈ types, type.Ordinary) (hrest : FollowedBy ['>'] rest)
    (hle : ((types.flatMap fun type => [',', ' '] ++ type.text.toList) ++ rest).length ≤ finish) :
    Repeats (do
      if ← accept "," then
        if ← atMark ">" then return none else return some (← p)
      else return none) scope
      (.facing finish found ((types.flatMap fun type => [',', ' '] ++ type.text.toList) ++ rest))
      types (.facing finish found rest) := by
  refine repeats_marked (fun type => ' ' :: type.text.toList) id (FollowedBy typeEnds) (fun _ => rfl)
    isSpace_nil (by decide) (hrest.mono (by decide)) (followedBy_comma hordinary) ?_ ?_
    (List.map_id types) hle
  · intro type htype s tail htail hat
    have hat : s.At finish found (',' :: ([' '] ++ (type.text.toList ++ tail))) := hat
    have htypeAt := hat.behind_mark isSpace_single ((hordinary type htype).solid.noGap tail) found
    have hopening := (hordinary type htype).opening tail (htail.endsName (by decide))
    rw [← htypeAt.token_eq] at hopening
    have hclose : (State.facing finish found ([' '] ++ (type.text.toList ++ tail))).token.isMark ">" =
        false := hopening.not_isMark (by decide) (by decide)
    have hrun : p scope (.facing finish found ([' '] ++ (type.text.toList ++ tail))) =
        .ok (type, .facing finish found tail) := hread type htype htail htypeAt
    rw [bind_of_ok (accept_at hat (by decide) rfl), if_pos rfl, atMark_bind, hclose,
      if_neg Bool.false_ne_true, bind_of_ok hrun]
    rfl
  · have hcomma : (State.facing finish found rest).token.isMark "," = false := by
      rw [List.length_append] at hle
      exact hrest.not_isMark (by decide) (by omega) (by decide)
    simp only [accept_bind, hcomma, Bool.false_eq_true, if_false]
    rfl

theorem commaList_types (hne : types ≠ [])
    (hread : ∀ type ∈ types, Reads p type.text.toList (FollowedBy typeEnds) type)
    (hordinary : ∀ type ∈ types, type.Ordinary) :
    Reads (commaList ">" p) (TypeNode.texts [',', ' '] types) (FollowedBy ['>']) types := by
  intro scope s finish found rest hrest h
  obtain ⟨first, more, rfl⟩ := List.exists_cons_of_ne_nil hne
  obtain ⟨hfirst, hmore⟩ := List.forall_mem_cons.mp hread
  obtain ⟨hfirstOrdinary, hmoreOrdinary⟩ := List.forall_mem_cons.mp hordinary
  rw [TypeNode.texts_cons, List.append_assoc] at h
  have hle := h.le
  rw [List.length_append] at hle
  have hshorter := Nat.le_trans (Nat.le_add_left _ _) hle
  have hfollowed : FollowedBy typeEnds ((more.flatMap fun type => [',', ' '] ++ type.text.toList) ++ rest) :=
    follows_flatMap (hrest.mono (by decide)) (followedBy_comma hmoreOrdinary)
  rw [commaList, bind_of_ok (hfirst hfollowed h),
    bind_of_ok (repeats_comma hmore hmoreOrdinary hrest hshorter).many, pure_run]

theorem typeArguments_types {g : Grammar} (hne : types ≠ [])
    (hread : ∀ type ∈ types, Reads g.type type.text.toList (FollowedBy typeEnds) type)
    (hordinary : ∀ type ∈ types, type.Ordinary) :
    Reads (typeArguments g) ('<' :: (TypeNode.texts [',', ' '] types ++ ['>'])) Clear types := by
  intro scope s finish found rest hrest h
  have hclose : FollowedBy ['>'] ('>' :: rest) := .of_mark (by decide) hrest (by decide)
  have htext : '<' :: (TypeNode.texts [',', ' '] types ++ ['>']) ++ rest =
      '<' :: (TypeNode.texts [',', ' '] types ++ '>' :: rest) := by simp
  rw [htext] at h
  have hsolid : Solid (TypeNode.texts [',', ' '] types) := by
    refine .joinWith (by simpa using hne) fun part hpart => ?_
    obtain ⟨type, htype, rfl⟩ := List.mem_map.mp hpart
    exact (hordinary type htype).solid
  have hlist := h.after_mark (hsolid.noGap _) found
  have hend := hlist.after (noGap_mark (by decide) rest) found
  have hrun : enclosed (commaList ">" g.type) scope
      (.facing finish found (TypeNode.texts [',', ' '] types ++ '>' :: rest)) =
        .ok (types, .facing finish found ('>' :: rest)) :=
    commaList_types hne hread hordinary hclose hlist
  rw [typeArguments, bind_of_ok (expect_at h (by decide) rfl), bind_of_ok hrun,
    bind_of_ok (expect_at hend (by decide) rfl), pure_run]

end Arguments

section Primary
variable {g : Grammar} {text name : String} {s : State} {scope : Scope} {finish : Nat}
  {found : List Item} {rest : List Char}
theorem primaryType_generic {args : List TypeNode} (hname : isName name = true) (hne : args ≠ [])
    (hread : ∀ arg ∈ args, Reads g.type arg.text.toList (FollowedBy typeEnds) arg)
    (hordinary : ∀ arg ∈ args, arg.Ordinary)
    (htext : text.toList = name.toList ++ '<' :: (TypeNode.texts [',', ' '] args ++ ['>'])) :
    Reads (primaryType g) text.toList (FollowedBy primaryEnds) (.reference text name args) := by
  intro scope s finish found rest hrest h
  have hsolid : Solid text.toList :=
    (TypeNode.Ordinary.generic hname hne hordinary htext).solid
  have htextTo := textTo_solid h hsolid
  have hat := h
  rw [htext, List.append_assoc] at hat
  have hword := isName_word hname
  have hends : EndsName ('<' :: (TypeNode.texts [',', ' '] args ++ ['>']) ++ rest) :=
    endsName_of_mem (by decide) _
  have hangle := hat.after (noGap_mark (by decide) _) found
  have hargs : typeArguments g scope (.facing finish found
      ('<' :: (TypeNode.texts [',', ' '] args ++ ['>']) ++ rest)) =
        .ok (args, .facing finish found rest) :=
    typeArguments_types hne hread hordinary hrest.clear hangle
  have hnameText := textTo_word hat hword
  rw [String.ofList_toList] at hnameText
  rw [primaryType_word (by rw [hat.token_word hword hends]), wordType_name hname hat hends,
    bind_of_ok (qualifiedName_run hat hword hends (hangle.not_isMark (by decide) (by decide)))]
  simp only [get_bind]
  rw [atMark_bind, hangle.isMark (by decide) rfl, if_pos rfl, bind_of_ok hargs, get_bind, hnameText,
    htextTo, pure_run]

/-- A parenthesis begins a type in parentheses or a function type. -/
theorem primaryType_parenthesis (h : s.At finish found ('(' :: rest)) :
    primaryType g scope s = parenthesizedType g scope s := by
  have htoken := h.token_mark (by decide)
  have hbrace : s.token.isMark "\x7b" = false := h.not_isMark (by decide) (by decide)
  have hbracket : s.token.isMark "[" = false := h.not_isMark (by decide) (by decide)
  have hminus : s.token.isMark "-" = false := h.not_isMark (by decide) (by decide)
  have hplus : s.token.isMark "+" = false := h.not_isMark (by decide) (by decide)
  have hstar : s.token.isMark "*" = false := h.not_isMark (by decide) (by decide)
  have hopen : s.token.isMark "(" = true := h.isMark (by decide) rfl
  unfold primaryType
  simp only [get_bind, htoken]
  simp only [atMark_bind, following_bind, accept_bind, atSignature_bind, hbrace, hbracket, hminus,
    hplus, hstar, hopen, Bool.false_and, Bool.true_or, Bool.false_eq_true, if_false, if_true]

theorem primaryType_parenthesized [g.Steady] {inner : TypeNode} (hinner : inner.Ordinary)
    (hread : Reads g.type inner.text.toList (FollowedBy typeEnds) inner)
    (htext : text.toList = '(' :: (inner.text.toList ++ [')'])) :
    Reads (primaryType g) text.toList (FollowedBy primaryEnds) (.parenthesized text inner) := by
  intro scope s finish found rest hrest h
  have hordinary := TypeNode.Ordinary.parenthesized hinner htext
  have htextTo := textTo_solid h hordinary.solid
  have hclear : Clear s.here := by
    rw [h.here]
    exact hordinary.clear rest hrest.clear
  have hat : s.At finish found ('(' :: (inner.text.toList ++ ')' :: rest)) := by
    rw [htext] at h
    simpa using h
  have hclose : FollowedBy typeEnds (')' :: rest) := .of_mark (by decide) hrest.clear (by decide)
  have hinnerAt := hat.after_mark (hinner.solid.noGap _) found
  have hend := hinnerAt.after (noGap_mark (by decide) rest) found
  have hrun : enclosed g.type scope (.facing finish found (inner.text.toList ++ ')' :: rest)) =
      .ok (inner, .facing finish found (')' :: rest)) := hread hclose hinnerAt
  have hinside : innerType g scope s = .ok (inner, .facing finish found rest) := by
    rw [innerType, bind_of_ok (expect_at hat (by decide) rfl), bind_of_ok hrun,
      bind_of_ok (expect_at hend (by decide) rfl), pure_run]
  have hhead : functionHeadOr g scope s = .ok (some inner, .facing finish found rest) := by
    rw [functionHeadOr, get_bind, hclear.not_arrowMayFollow h.placed, if_neg Bool.false_ne_true]
    exact blaming_of_ok (map_of_ok hinside)
  rw [primaryType_parenthesis hat]
  unfold parenthesizedType
  rw [get_bind, bind_of_ok hhead]
  simp only [get_bind, pure_run, htextTo]

end Primary

section Object
variable {g : Grammar}

theorem primaryType_object {text : String} {members : List Member}
    (hnames : ∀ m ∈ members, isName m.name = true)
    (hread : ∀ m ∈ members, ∀ type, m.type? = some type →
      Reads g.type type.text.toList (FollowedBy typeEnds) type)
    (hordinary : ∀ m ∈ members, ∀ type, m.type? = some type → type.Ordinary)
    (htext : text.toList = braced [' '] [' '] (memberEntries members)) :
    Reads (primaryType g) text.toList (FollowedBy primaryEnds) (.object text members) := by
  intro scope s finish found rest hrest h
  have htextTo := textTo_solid h (TypeNode.Ordinary.object hnames hordinary htext).solid
  have hat : s.At finish found ('{' :: bracedTail [' '] [' '] (memberEntries members) rest) := by
    rwa [htext, braced_append] at h
  have hmembers : typeMembers g scope s = .ok (members, .facing finish found rest) :=
    typeMembers_written isSpace_single isSpace_single hnames hread hordinary hrest.clear hat
  have hbrace : s.token.isMark "\x7b" = true := hat.isMark (by decide) rfl
  unfold primaryType
  simp only [get_bind, hat.token_mark (m := '{') (by decide)]
  rw [atMark_bind, hbrace, if_pos rfl, bind_of_ok hmembers, textTo_bind, htextTo, pure_run]

end Object

section Operands
variable {g : Grammar} {scope : Scope} {s : State} {finish : Nat} {found : List Item}
  {rest : List Char} {type : TypeNode}

def ReadsOperand (g : Grammar) (type : TypeNode) : Prop :=
  ∀ ⦃scope s finish found rest⦄, FollowedBy primaryEnds rest →
    s.At finish found (type.text.toList ++ rest) →
      ∃ base u, primaryType g scope s = .ok (base, u) ∧
        Extends (typeSuffix? g s) scope base u type (.facing finish found rest)

theorem Reads.operand (h : Reads (primaryType g) type.text.toList (FollowedBy primaryEnds) type) :
    ReadsOperand g type := by
  intro scope s finish found rest hrest hat
  exact ⟨type, .facing finish found rest, h hrest hat, .refl _ _⟩

theorem readsOperand_array {text : String} {element : TypeNode} (helement : element.Ordinary)
    (hread : ReadsOperand g element) (htext : text.toList = element.text.toList ++ ['[', ']']) :
    ReadsOperand g (.array text element) := by
  intro scope s finish found rest hrest h
  have hsolid : Solid text.toList := by
    rw [htext]
    exact helement.solid.append ['['] (.single (by decide) (by decide) (by decide))
  have htextTo : s.textTo (.facing finish found rest) = text := textTo_solid h hsolid
  have hat : s.At finish found (element.text.toList ++ '[' :: ']' :: rest) := by
    rw [TypeNode.text, htext] at h
    simpa using h
  have hfollowed : FollowedBy primaryEnds ('[' :: ']' :: rest) :=
    .of_mark (by decide) (.char (by decide) hrest.clear) (by decide)
  obtain ⟨base, u, hprimary, hextends⟩ : ∃ base u, primaryType g scope s = .ok (base, u) ∧
      Extends (typeSuffix? g s) scope base u element (.facing finish found ('[' :: ']' :: rest)) :=
    hread hfollowed hat
  have hopen := hat.after (noGap_mark (by decide) _) found
  have hclose := hopen.after_mark (noGap_mark (by decide) rest) found
  refine ⟨base, u, hprimary, .step hextends ?_ ?_⟩
  · have hends := not_endsBefore finish found
      (noGap_mark (m := '[') (by decide) (']' :: rest)) (by decide)
    have hbracket := hopen.isMark (by decide) (show "[".toList = ['['] from rfl)
    unfold typeSuffix?
    rw [atMark_bind, endsHere_bind, hends, Bool.and_false, hbracket, Bool.not_false,
      Bool.and_self, if_pos rfl, discard_take_bind (Token.isWhole_of_kind (Token.kind_of_isMark hbracket)),
      hopen.next_mark (by decide),
      bind_of_ok (accept_at hclose (by decide) rfl), if_pos rfl, get_bind, htextTo, pure_run]
  · rw [hopen.here]
    have hlength := facing_here_le finish found rest
    simp only [List.length_cons]
    omega

theorem ReadsOperand.reads (hordinary : type.Ordinary) (hread : ReadsOperand g type) :
    Reads (typeOperand g) type.text.toList (FollowedBy operandEnds) type := by
  intro scope s finish found rest hrest h
  have hle := h.le
  rw [List.length_append] at hle
  have hopening := hordinary.opening rest (hrest.endsName (by decide))
  rw [← h.token_eq] at hopening
  have hword : ∀ word ∈ ["keyof", "readonly", "infer", "new", "abstract"],
      s.token.isWord word = false := by
    have hall : ∀ word ∈ ["keyof", "readonly", "infer", "new", "abstract"],
        word ∈ keywords ∧ Primitive.ofName? word = none := by decide
    exact fun word hmem => hopening.not_isWord (hall word hmem).1 (hall word hmem).2
  have hquestion : s.token.isMark "?" = false := hopening.not_isMark (by decide) (by decide)
  obtain ⟨base, u, hprimary, hextends⟩ := hread (hrest.mono (by decide)) h
  have hbracket : (State.facing finish found rest).token.isMark "[" = false :=
    hrest.not_isMark (by decide) (by omega) (by decide)
  have hdone : typeSuffix? g s type scope (.facing finish found rest) =
      .ok (none, .facing finish found rest) := by
    unfold typeSuffix?
    rw [atMark_bind, endsHere_bind, hbracket, Bool.false_and, if_neg Bool.false_ne_true, pure_run]
  unfold typeOperand
  simp only [get_bind, acceptWord_bind, accept_bind, atWord_bind, hquestion,
    hword "keyof" (by decide), hword "readonly" (by decide), hword "infer" (by decide),
    hword "new" (by decide), hword "abstract" (by decide), Bool.or_self, Bool.false_eq_true, if_false]
  rw [bind_of_ok hprimary]
  exact hextends.extend hdone

end Operands

section Rows
variable {p : Parser TypeNode} {mark : String} {scope : Scope} {s t : State} {type : TypeNode}

/-- The marks in front of an operand. -/
theorem marks_of_not_isMark (h : s.token.isMark mark = false) :
    many (do if ← accept mark then return some () else return none) scope s = .ok ([], s) := by
  refine (Repeats.done ?_).many
  simp only [accept_bind, h, Bool.false_eq_true, if_false]
  rfl

theorem marks_of_isMark (scope : Scope) (h : s.token.isMark mark = true) (hnext : s.next.token.isMark mark = false)
    (hshorter : s.next.here.length < s.here.length) :
    many (do if ← accept mark then return some () else return none) scope s = .ok ([()], s.next) := by
  refine (Repeats.more ?_ hshorter (.done ?_)).many
  · simp only [accept_bind, h, if_true]
    rfl
  · simp only [accept_bind, hnext, Bool.false_eq_true, if_false]
    rfl

theorem typeRow_single (hmark : s.token.isMark mark = false) (hp : p scope s = .ok (type, t))
    (hend : t.token.isMark mark = false) : typeRow mark p scope s = .ok (([type], false), t) := by
  have hnone : Repeats (do
      if (← many do if ← accept mark then return some () else return none).isEmpty then return none
      else return some (← p)) scope t [] t := by
    refine .done ?_
    rw [bind_of_ok (marks_of_not_isMark hend)]
    rfl
  unfold typeRow
  rw [bind_of_ok (marks_of_not_isMark hmark), bind_of_ok hp, bind_of_ok hnone.many]
  rfl

section Union
variable {finish : Nat} {found : List Item} {rest : List Char} {types : List TypeNode}

theorem followedBy_bar (hordinary : ∀ type ∈ types, type.Ordinary) :
    ∀ type ∈ types, ∀ tail, FollowedBy operandEnds tail →
      FollowedBy operandEnds ([' '] ++ '|' :: (' ' :: type.text.toList ++ tail)) := by
  intro type htype tail htail
  exact .of_gap isSpace_single (by decide)
    (.char (by decide) ((hordinary type htype).clear tail htail.clear)) (by decide)

theorem repeats_bar (hread : ∀ type ∈ types, Reads p type.text.toList (FollowedBy operandEnds) type)
    (hordinary : ∀ type ∈ types, type.Ordinary) (hrest : FollowedBy typeEnds rest)
    (hle : ((types.flatMap fun type => [' ', '|', ' '] ++ type.text.toList) ++ rest).length ≤ finish) :
    Repeats (do
      if (← many do if ← accept "|" then return some () else return none).isEmpty then return none
      else return some (← p)) scope
      (.facing finish found ((types.flatMap fun type => [' ', '|', ' '] ++ type.text.toList) ++ rest))
      types (.facing finish found rest) := by
  refine repeats_marked (fun type => ' ' :: type.text.toList) id (FollowedBy operandEnds) (fun _ => rfl)
    isSpace_single (by decide) (hrest.mono (by decide)) (followedBy_bar hordinary) ?_ ?_
    (List.map_id types) hle
  · intro type htype s tail htail hat
    have hat : s.At finish found ('|' :: ([' '] ++ (type.text.toList ++ tail))) := hat
    have htypeAt := hat.behind_mark isSpace_single ((hordinary type htype).solid.noGap tail) found
    have hopening := (hordinary type htype).opening tail (htail.endsName (by decide))
    rw [← htypeAt.token_eq, ← hat.next_mark (by decide)] at hopening
    have hshorter : s.next.here.length < s.here.length := by
      rw [hat.next_mark (by decide), htypeAt.here, hat.here]
      simp only [List.length_cons, List.length_append]
      omega
    have hnext : s.next.token.isMark "|" = false := hopening.not_isMark (by decide) (by decide)
    have hmarks := marks_of_isMark scope (hat.isMark (by decide) rfl) hnext hshorter
    rw [hat.next_mark (by decide)] at hmarks
    have hrun : p scope (.facing finish found ([' '] ++ (type.text.toList ++ tail))) =
        .ok (type, .facing finish found tail) := hread type htype htail htypeAt
    rw [bind_of_ok hmarks, List.isEmpty_cons, if_neg Bool.false_ne_true, bind_of_ok hrun]
    rfl
  · have hbar : (State.facing finish found rest).token.isMark "|" = false := by
      rw [List.length_append] at hle
      exact hrest.not_isMark (by decide) (by omega) (by decide)
    rw [bind_of_ok (marks_of_not_isMark hbar)]
    rfl

end Union

end Rows

section All
variable {g : Grammar} {type : TypeNode}

theorem not_isMark_of_ordinary {s : State} {finish : Nat} {found : List Item} {marks rest : List Char}
    (h : type.Ordinary) (hrest : FollowedBy marks rest) (hmarks : marks ⊆ loneMarks)
    (hat : s.At finish found (type.text.toList ++ rest)) {mark : String} (hopen : mark.toList ≠ ['('])
    (hbrace : mark.toList ≠ ['{']) : s.token.isMark mark = false := by
  have hopening := h.opening rest (hrest.endsName hmarks)
  rw [← hat.token_eq] at hopening
  exact hopening.not_isMark hopen hbrace

theorem intersectionType_operand (hordinary : type.Ordinary) (hread : ReadsOperand g type) :
    Reads (intersectionType g) type.text.toList (FollowedBy operandEnds) type := by
  intro scope s finish found rest hrest h
  have hle := h.le
  rw [List.length_append] at hle
  have hrow : typeRow "&" (typeOperand g) scope s =
      .ok (([type], false), .facing finish found rest) :=
    typeRow_single (not_isMark_of_ordinary hordinary hrest (by decide) h (by decide) (by decide))
      (hread.reads hordinary hrest h) (hrest.not_isMark (by decide) (by omega) (by decide))
  unfold intersectionType
  rw [get_bind, bind_of_ok hrow]
  rfl

theorem unionType_operand (hordinary : type.Ordinary) (hread : ReadsOperand g type) :
    Reads (unionType g) type.text.toList (FollowedBy typeEnds) type := by
  intro scope s finish found rest hrest h
  have hle := h.le
  rw [List.length_append] at hle
  have hrow : typeRow "|" (intersectionType g) scope s =
      .ok (([type], false), .facing finish found rest) :=
    typeRow_single (not_isMark_of_ordinary hordinary hrest (by decide) h (by decide) (by decide))
      (intersectionType_operand hordinary hread (hrest.mono (by decide)) h)
      (hrest.not_isMark (by decide) (by omega) (by decide))
  unfold unionType
  rw [get_bind, bind_of_ok hrow]
  rfl

theorem unionType_union {text : String} {operands : List TypeNode} (htwo : 2 ≤ operands.length)
    (hordinary : ∀ operand ∈ operands, operand.Ordinary)
    (hunion : ∀ operand ∈ operands, operand.isUnion = false)
    (hread : ∀ operand ∈ operands, ReadsOperand g operand)
    (htext : text.toList = TypeNode.texts [' ', '|', ' '] operands) :
    Reads (unionType g) text.toList (FollowedBy typeEnds) (.union text operands) := by
  intro scope s finish found rest hrest h
  have htextTo := textTo_solid h (TypeNode.Ordinary.union htwo hordinary hunion htext).solid
  obtain ⟨first, second, more, rfl⟩ := exists_first_two htwo
  obtain ⟨hfirst, hmore⟩ := List.forall_mem_cons.mp hread
  obtain ⟨hfirstOrdinary, hmoreOrdinary⟩ := List.forall_mem_cons.mp hordinary
  rw [htext, TypeNode.texts_cons, List.append_assoc] at h
  have hle := h.le
  rw [List.length_append] at hle
  have hfollowed : FollowedBy operandEnds
      (((second :: more).flatMap fun type => [' ', '|', ' '] ++ type.text.toList) ++ rest) :=
    follows_flatMap (hrest.mono (by decide)) (followedBy_bar hmoreOrdinary)
  have hbar : s.token.isMark "|" = false :=
    not_isMark_of_ordinary hfirstOrdinary hfollowed (by decide) h (by decide) (by decide)
  have hintersection : ∀ operand ∈ second :: more,
      Reads (intersectionType g) operand.text.toList (FollowedBy operandEnds) operand :=
    fun operand hmem => intersectionType_operand (hmoreOrdinary operand hmem) (hmore operand hmem)
  have hrow : typeRow "|" (intersectionType g) scope s =
      .ok ((first :: second :: more, true), .facing finish found rest) := by
    unfold typeRow
    rw [bind_of_ok (marks_of_not_isMark hbar),
      bind_of_ok (intersectionType_operand hfirstOrdinary hfirst hfollowed h),
      bind_of_ok (repeats_bar hintersection hmoreOrdinary hrest (by omega)).many, pure_run]
    rfl
  unfold unionType
  rw [get_bind, bind_of_ok hrow]
  simp only [get_bind, pure_run, htextTo]

theorem anyType_union (hread : Reads (unionType g) type.text.toList (FollowedBy typeEnds) type) :
    Reads (anyType g) type.text.toList (FollowedBy typeEnds) type := by
  intro scope s finish found rest hrest h
  have hle := h.le
  rw [List.length_append] at hle
  have hword : (State.facing finish found rest).token.isWord "extends" = false :=
    hrest.not_isWord (by decide) (by omega) _
  unfold anyType
  rw [get_bind, bind_of_ok (hread hrest h), atWord_bind, endsHere_bind, hword, Bool.false_and,
    if_neg Bool.false_ne_true, pure_run]

/-- A type is read in a grammar that is as deep as the type is long: as an operand, unless it is
a union, and as a whole. -/
def ReadsIn (depth : Nat) (type : TypeNode) : Prop :=
  (type.isUnion = false → ReadsOperand (.ofDepth depth) type) ∧
    Reads (anyType (.ofDepth depth)) type.text.toList (FollowedBy typeEnds) type

theorem ReadsIn.of_operand {depth : Nat} (hordinary : type.Ordinary)
    (h : ReadsOperand (.ofDepth depth) type) : ReadsIn depth type :=
  ⟨fun _ => h, anyType_union (unionType_operand hordinary h)⟩

theorem ReadsIn.of_primary {depth : Nat} (hordinary : type.Ordinary)
    (h : Reads (primaryType (.ofDepth depth)) type.text.toList (FollowedBy primaryEnds) type) :
    ReadsIn depth type :=
  .of_operand hordinary (Reads.operand h)
theorem length_le_texts (mark : List Char) {types : List TypeNode} (h : type ∈ types) :
    type.text.toList.length ≤ (TypeNode.texts mark types).length := by
  cases types with
  | nil => cases h
  | cons first more =>
    rw [TypeNode.texts_cons, List.length_append]
    rcases List.mem_cons.mp h with rfl | h
    · omega
    · have hle := length_le_flatMap (fun type : TypeNode => mark ++ type.text.toList) h
      rw [List.length_append] at hle
      omega

theorem length_lt_braced (gap last : List Char) {members : List Member} {m : Member}
    (hm : m ∈ members) (htype : m.type? = some type) :
    type.text.toList.length < (braced gap last (memberEntries members)).length := by
  have hle := length_le_flatMap (gap ++ ·) (List.mem_map_of_mem (f := fun m : Member => m.written ++ [';']) hm)
  have hwritten : type.text.toList.length < m.written.length := by
    simp only [Field.written, htype, stated, List.length_append, List.length_cons]
    omega
  simp only [List.length_append] at hle
  simp only [braced, memberEntries, List.length_append, List.length_cons]
  omega

/-- Every ordinary type is read back. -/
theorem TypeNode.Ordinary.readsIn (h : type.Ordinary) :
    ∀ depth, type.text.toList.length ≤ depth → ReadsIn depth type := by
  induction h with
  | name h => exact fun depth _ => .of_primary (.name h) (primaryType_name h)
  | primitive p => exact fun depth _ => .of_primary (.primitive p) (primaryType_primitive p)
  | quoted quote hvalue htext =>
    exact fun depth _ => .of_primary (.quoted quote hvalue htext) (primaryType_quoted quote hvalue htext)
  | array helement hunion htext ih =>
    intro depth hle
    rw [TypeNode.text, htext, List.length_append] at hle
    exact .of_operand (.array helement hunion htext)
      (readsOperand_array helement ((ih depth (by omega)).1 hunion) htext)
  | generic hname hne hargs htext ih =>
    intro depth hle
    rw [TypeNode.text, htext] at hle
    simp only [List.length_append, List.length_cons] at hle
    obtain ⟨depth, rfl⟩ : ∃ d, depth = d + 1 := ⟨depth - 1, by omega⟩
    refine .of_primary (.generic hname hne hargs htext)
      (primaryType_generic hname hne (fun arg harg => ?_) hargs htext)
    have hlength := length_le_texts [',', ' '] harg
    exact (ih arg harg depth (by omega)).2
  | union htwo hoperands hunion htext ih =>
    intro depth hle
    rw [TypeNode.text, htext] at hle
    refine ⟨fun h => Bool.noConfusion h, anyType_union (unionType_union htwo hoperands hunion ?_ htext)⟩
    intro operand hoperand
    have hlength := length_le_texts [' ', '|', ' '] hoperand
    exact (ih operand hoperand depth (by omega)).1 (hunion operand hoperand)
  | parenthesized hinner htext ih =>
    intro depth hle
    rw [TypeNode.text, htext] at hle
    simp only [List.length_append, List.length_cons] at hle
    obtain ⟨depth, rfl⟩ : ∃ d, depth = d + 1 := ⟨depth - 1, by omega⟩
    exact .of_primary (.parenthesized hinner htext)
      (primaryType_parenthesized hinner (ih depth (by omega)).2 htext)
  | object hnames htypes htext ih =>
    intro depth hle
    rw [TypeNode.text, htext] at hle
    obtain ⟨depth, rfl⟩ : ∃ d, depth = d + 1 := by
      refine ⟨depth - 1, ?_⟩
      simp only [braced, List.length_cons] at hle
      omega
    refine .of_primary (.object hnames htypes htext)
      (primaryType_object hnames (fun m hm type htype => ?_) htypes htext)
    have hlength := length_lt_braced [' '] [' '] hm htype
    exact (ih m hm type htype depth (by omega)).2

end All

end DeclSchema.Syntax
