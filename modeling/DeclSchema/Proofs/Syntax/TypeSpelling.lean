import DeclSchema.Proofs.Syntax.TypeWeaving

/-! # The readers of types give spelled types -/
namespace DeclSchema.Syntax
open Text TypeText

/-- The reader ends with this mark. -/
structure Closes {α : Type} (mark : String) (p : Parser α) : Prop where
  closes : ∀ {scope s a t}, s.Placed → p scope s = .ok (a, t) →
    ∃ u, Trail s u ∧ u.Placed ∧ u.token.isMark mark = true ∧ t = u.next

section Closes
variable {α β : Type} {mark : String} {p q : Parser α}

theorem Closes.expect (mark : String) : Closes mark (expect mark) where
  closes hs h := by
    obtain ⟨hmark, rfl⟩ := expect_eq_ok h
    exact ⟨_, .refl, hs, hmark, rfl⟩

theorem Closes.bind {f : α → Parser β} [hp : Steady p] (hf : ∀ a, Closes mark (f a)) :
    Closes mark (p >>= f) where
  closes hs h := by
    obtain ⟨a, u, hrun, hrest⟩ := bind_eq_ok.mp h
    have hmoves := hp.moves hs hrun
    obtain ⟨v, htrail, hv⟩ := (hf a).closes hmoves.placed hrest
    exact ⟨v, hmoves.trail.trans htrail, hv⟩

theorem Closes.pure (h : Closes mark p) (f : α → β) : Closes mark (p >>= fun a => pure (f a)) where
  closes hs hrun := by
    obtain ⟨a, u, hp, hpure⟩ := bind_eq_ok.mp hrun
    cases hpure
    exact h.closes hs hp

theorem Closes.ite {c : Prop} [Decidable c] (hp : Closes mark p) (hq : Closes mark q) :
    Closes mark (if c then p else q) := by
  split
  · exact hp
  · exact hq

end Closes

namespace TypeNode
variable {text : String} {type : TypeNode}

/-- A type is spelled if its own text is as it should be and if its parts are spelled with parts of it. -/
theorem AllSpelled.of_parts (h : trim type.text.toList = type.text.toList) (hwoven : type.Woven)
    (hparts : ∀ part ∈ type.parts, part.SpelledIn type.text.toList) : type.AllSpelled := by
  intro node hnode
  rcases mem_nodes_iff.mp hnode with rfl | ⟨part, hpart, hin⟩
  · exact ⟨h, hwoven, fun part hpart => (hparts part hpart).within⟩
  · exact (hparts part hpart).all node hin

/-- A type without parts is spelled if its text is as it should be. -/
theorem AllSpelled.single (h : trim type.text.toList = type.text.toList) (hwoven : type.Woven)
    (hparts : type.parts = []) : type.AllSpelled := .of_parts h hwoven (by simp [hparts])

theorem AllSpelled.other (h : trim text.toList = text.toList) (hname : Primitive.ofName? text = none) :
    (other text).AllSpelled := .single h hname rfl

/-- The text of another type is no name of a primitive if some token of it has a foreign character. -/
theorem AllSpelled.of_foreign {start u t : State} {c : Char} (hsu : start.Reaches u) (hu : u.Placed)
    (hut : u.next.Reaches t) (hmem : c ∈ u.token.text) (hc : Foreign c) :
    (TypeNode.other (start.textTo t)).AllSpelled :=
  .other (start.trim_textTo t) (ofName?_eq_none_of_mem (hsu.mem_textTo hu hut hmem hc.1) hc)

theorem AllSpelled.name {start t : State} (h : Named (start.upTo t)) :
    (reference (start.textTo t) (start.textTo t) []).AllSpelled := by
  refine .single (start.trim_textTo t) ⟨rfl, ?_⟩ rfl
  rw [State.toList_textTo]
  exact h.trim

end TypeNode

/-- Other types that are read behind a token with a foreign character are spelled. -/
theorem Others.allSpelled {p : Parser TypeNode} {scope : Scope} {start u t : State} {type : TypeNode} {c : Char}
    [hothers : Others start p] [hp : Steady p] (hsu : start.Reaches u) (hu : u.Placed)
    (h : p scope u.next = .ok (type, t)) (hmem : c ∈ u.token.text) (hc : Foreign c) : type.AllSpelled := by
  rw [hothers.eq_other h]
  exact .of_foreign hsu hu (hp.moves u.ahead_next.placed h).reaches hmem hc

theorem spelledIn_of_mem_filterMap {text : List Char} {members : List Member} (h : ∀ m ∈ members, m.SpelledIn text) :
    ∀ type ∈ members.filterMap (·.type?), type.SpelledIn text := by
  intro type htype
  obtain ⟨m, hm, hmember⟩ := List.mem_filterMap.mp htype
  exact h m hm type hmember

theorem spelledIn_filterMap {text : List Char} {all : List (Option Member)}
    (h : ∀ m? ∈ all, ∀ m, m? = some m → m.SpelledIn text) : ∀ m ∈ all.filterMap id, m.SpelledIn text := by
  intro m hm
  obtain ⟨m?, hmem, hm?⟩ := List.mem_filterMap.mp hm
  exact h m? hmem m hm?

section Types
variable {α : Type} {text : List Char} {g : Grammar} [hg : g.Steady]

theorem statedType_gives : Gives text (statedType g) (TypeNode.SpelledIn text) := by
  unfold statedType untyped
  infer_instance

theorem statedType?_gives :
    Gives text (statedType? g) fun type? => ∀ type, type? = some type → type.SpelledIn text := by
  refine .bind .any fun colon _ => ?_
  have hsome : Gives text (do return some (← statedType g)) fun type? =>
      ∀ type, type? = some type → type.SpelledIn text :=
    .bind statedType_gives fun type htype => .pure (by simpa using htype)
  have hnone : Gives text (pure none) fun type? : Option TypeNode =>
      ∀ type, type? = some type → type.SpelledIn text := .pure (by simp)
  infer_instance

theorem typeArguments_gives : Gives text (typeArguments g) fun types =>
    types ≠ [] ∧ ∀ type ∈ types, type.SpelledIn text := by
  unfold typeArguments
  have htype : Gives text g.type (TypeNode.SpelledIn text) := inferInstance
  have htypes := Gives.commaList ">" htype
  exact .bind .any fun _ _ => .bind .enclosed fun types htypes => .bind .any fun _ _ => .pure htypes

theorem namedMember_gives (words : List String) :
    Gives text (namedMember g words) fun m? => ∀ m, m? = some m → m.SpelledIn text := by
  have hnone : Gives text (pure none) fun m? : Option Member => ∀ m, m? = some m → m.SpelledIn text :=
    .pure (by simp)
  have hsome : ∀ name optional, Gives text (do return some ⟨name, optional, ← statedType? g⟩)
      fun m? : Option Member => ∀ m, m? = some m → m.SpelledIn text := by
    intro name optional
    refine .bind statedType?_gives fun type? htype => .pure ?_
    rintro _ ⟨⟩
    exact htype
  dsimp only [namedMember]
  infer_instance

theorem modifiedMember_gives (signed : Bool) :
    Gives text (modifiedMember g signed) fun m? => ∀ m, m? = some m → m.SpelledIn text := by
  have hnone : Gives text (pure none) fun m? : Option Member => ∀ m, m? = some m → m.SpelledIn text :=
    .pure (by simp)
  have hnamed := @namedMember_gives text g hg
  dsimp only [modifiedMember]
  infer_instance

theorem typeMember_gives : Gives text (typeMember g) fun m? => ∀ m, m? = some m → m.SpelledIn text := by
  have hnone : Gives text (pure none) fun m? : Option Member => ∀ m, m? = some m → m.SpelledIn text :=
    .pure (by simp)
  have hmodified := @modifiedMember_gives text g hg
  dsimp only [typeMember]
  infer_instance

theorem typeMembers_gives : Gives text (typeMembers g) fun members => ∀ m ∈ members, m.SpelledIn text := by
  have hnone : Gives text (pure none) fun m?? : Option (Option Member) =>
      ∀ m?, m?? = some m? → ∀ m, m? = some m → m.SpelledIn text := .pure (by simp)
  have hsome : Gives text (do return some (← typeMember g)) fun m?? : Option (Option Member) =>
      ∀ m?, m?? = some m? → ∀ m, m? = some m → m.SpelledIn text :=
    .bind typeMember_gives fun m? hm? => .pure (by simpa using hm?)
  have hmore : Gives text (many do
      if ← memberSeparator then return some (← typeMember g) else return none) fun all =>
      ∀ m? ∈ all, ∀ m, m? = some m → m.SpelledIn text := .many inferInstance
  have hnil : Gives text (pure []) fun members : List Member => ∀ m ∈ members, m.SpelledIn text :=
    .pure (by simp)
  have hrow : Gives text (do
      let first ← typeMember g
      let more ← many do
        if ← memberSeparator then return some (← typeMember g) else return none
      return (first :: more).filterMap id) fun members => ∀ m ∈ members, m.SpelledIn text := by
    refine .bind typeMember_gives fun first hfirst => .bind hmore fun more hmore => .pure ?_
    exact spelledIn_filterMap (List.forall_mem_cons.mpr ⟨hfirst, hmore⟩)
  have hclose : ∀ members : List Member, (∀ m ∈ members, m.SpelledIn text) → Gives text (do
      expect "\x7d"
      return members) fun members => ∀ m ∈ members, m.SpelledIn text := by
    intro members hmembers
    have hpure : Gives text (pure members) fun members : List Member => ∀ m ∈ members, m.SpelledIn text :=
      .pure hmembers
    infer_instance
  dsimp only [typeMembers]
  refine .after Steady.moves fun opens => ?_
  split
  · exact .after Steady.moves fun _ => .bind inferInstance hclose
  · exact .bind inferInstance hclose

theorem typeMembers_closes : Closes "\x7d" (typeMembers g) := by
  have hclose : ∀ members : List Member, Closes "\x7d" (do
      expect "\x7d"
      return members) := fun members => .pure (.expect _) fun _ => members
  dsimp only [typeMembers]
  exact .bind fun _ => .ite (.bind fun _ => .bind hclose) (.bind hclose)

theorem functionTypeHead_closes : Closes "=>" (functionTypeHead g) :=
  .bind fun _ => .bind fun _ => .expect _

/-- Where a type is stated, a colon is taken. -/
theorem statedType_next {scope : Scope} {s t : State} {type : TypeNode}
    (h : statedType g scope s = .ok (type, t)) : s.token.isMark ":" = true ∧ s.next.Reaches t := by
  unfold statedType at h
  rw [get_bind] at h
  obtain ⟨_, u, hexpect, hrest⟩ := bind_eq_ok.mp h
  obtain ⟨hcolon, rfl⟩ := expect_eq_ok hexpect
  have hsteady : Steady (do if (← current).startsType then g.type else untyped s) := inferInstance
  exact ⟨hcolon, (hsteady.moves s.ahead_next.placed hrest).reaches⟩

instance : Advances g.type := ⟨fun hs h => (Spanning.spans hs h).ahead⟩

instance : Advances (tupleElement g) := by
  dsimp only [tupleElement]
  infer_instance

theorem tupleElement_run {scope : Scope} {start t : State} {type : TypeNode} (hstart : start.Placed)
    (h : tupleElement g scope start = .ok (type, t)) : Spans start t type ∧ type.AllSpelled := by
  have hahead : start.Ahead t := Advances.ahead hstart h
  suffices hboth : type.text = start.textTo t ∧ type.AllSpelled from ⟨⟨hahead, hboth.1⟩, hboth.2⟩
  dsimp only [tupleElement] at h
  rw [get_bind, accept_bind, get_bind] at h
  have hplace : ∃ s, s = (if start.token.isMark "..." then start.next else start) ∧ start.Reaches s ∧ s.Placed ∧
      (start.token.isMark "..." = true → s = start.next) := by
    refine ⟨_, rfl, ?_⟩
    cases start.token.isMark "..." with
    | true => exact ⟨start.reaches_next, start.ahead_next.placed, fun _ => rfl⟩
    | false => exact ⟨start.reaches_self, hstart, fun hfalse => absurd hfalse Bool.false_ne_true⟩
  obtain ⟨s, hs, hreach, hplaced, hrest⟩ := hplace
  rw [← hs] at h
  by_cases hnamed : (s.token.kind == .word && (s.next.token.isMark ":" ||
      (s.next.token.isMark "?" && s.next.next.token.isMark ":"))) = true
  · rw [if_pos hnamed] at h
    replace h := of_discard_take_bind h
    rw [discard_accept_bind] at h
    have hnext := hreach.trans s.reaches_next
    cases hquestion : s.next.token.isMark "?" with
    | true =>
      rw [hquestion] at h
      have hother : type = .other (start.textTo t) := Others.eq_other h
      refine ⟨by rw [hother]; rfl, ?_⟩
      exact Others.allSpelled (c := '?') hnext s.ahead_next.placed h
        (by rw [Token.text_of_isMark hquestion]; decide) (by decide)
    | false =>
      rw [hquestion, if_neg Bool.false_ne_true] at h
      obtain ⟨_, u, hdiscard, h⟩ := bind_eq_ok.mp h
      obtain ⟨_, hstated, -⟩ := map_eq_ok.mp hdiscard
      obtain ⟨hcolon, hu⟩ := statedType_next hstated
      cases h
      refine ⟨rfl, ?_⟩
      exact .of_foreign (c := ':') hnext s.ahead_next.placed hu
        (by rw [Token.text_of_isMark hcolon]; decide) (by decide)
  · rw [if_neg hnamed] at h
    obtain ⟨type, u, htype, h⟩ := bind_eq_ok.mp h
    have hmoves := Steady.moves hplaced htype
    rw [accept_bind] at h
    cases hquestion : u.token.isMark "?" with
    | true =>
      rw [hquestion, Bool.or_true] at h
      cases h
      refine ⟨rfl, ?_⟩
      exact .of_foreign (c := '?') (hreach.trans hmoves.reaches) hmoves.placed (.inl rfl)
        (by rw [Token.text_of_isMark hquestion]; decide) (by decide)
    | false =>
      rw [hquestion, Bool.or_false] at h
      cases hdots : start.token.isMark "..." with
      | true =>
        rw [hdots] at h
        cases h
        obtain rfl := hrest hdots
        refine ⟨rfl, ?_⟩
        exact .of_foreign (c := '.') start.reaches_self hstart hmoves.reaches
          (by rw [Token.text_of_isMark hdots]; decide) (by decide)
      | false =>
        rw [hdots] at h hs
        cases h
        obtain rfl := hs
        exact ⟨(hg.spans.spans hplaced htype).text, hg.spelled.spelled hplaced htype⟩

instance : Spanning (tupleElement g) := ⟨fun hs h => (tupleElement_run hs h).1⟩

instance : Spelling (tupleElement g) := ⟨fun hs h => (tupleElement_run hs h).2⟩

instance : Spelling (parenthesizedType g) where
  spelled {scope s type t} hs h := by
    dsimp only [parenthesizedType] at h
    rw [get_bind] at h
    obtain ⟨inner?, u, heither, h⟩ := bind_eq_ok.mp h
    rcases functionHeadOr_eq_ok heither with ⟨rfl, hhead⟩ | ⟨inner, rfl, hparenthesized⟩
    · obtain ⟨w, htrail, hw, harrow, rfl⟩ := functionTypeHead_closes.closes hs hhead
      exact Others.allSpelled (c := '=') (Trail.samePlace_or_ahead htrail) hw h
        (by rw [Token.text_of_isMark harrow]; decide) (by decide)
    · obtain ⟨_, v, hexpect, hinside⟩ := bind_eq_ok.mp hparenthesized
      obtain ⟨hopen, rfl⟩ := expect_eq_ok hexpect
      obtain ⟨inside, w, hinner, hend⟩ := bind_eq_ok.mp hinside
      obtain ⟨_, x, hexpectEnd, hpure⟩ := bind_eq_ok.mp hend
      obtain ⟨hclose, rfl⟩ := expect_eq_ok hexpectEnd
      cases hpure
      cases h
      have hnext := s.ahead_next.placed
      have hspans : Spans s.next w inner := hg.spans.spans hnext hinner
      have hw := Steady.moves (p := g.type) hnext hinner
      have hpart : inner.SpelledIn (s.textTo w.next).toList := ⟨hg.spelled.spelled hnext hinner,
        hspans.infix_of_covered (s.covered_textTo w.next) s.reaches_next w.reaches_next⟩
      exact .of_parts (s.trim_textTo _) (woven_parenthesized hs hopen hspans hw.placed hclose)
        (List.forall_mem_singleton.mpr hpart)

/-- The text of a literal is no name and closes nothing. -/
theorem TypeNode.AllSpelled.literal {text : String} {value : Literal}
    (h : trim text.toList = text.toList) (hname : Primitive.ofName? text = none) {c : Char}
    (hend : EndsWith text c) (hc : c ∉ [']', ')', '>']) : (TypeNode.literal text value).AllSpelled := by
  have hnot : ∀ d ∈ [']', ')', '>'], ¬ EndsWith text d := by
    intro d hd hends
    rw [EndsWith, hend] at hends
    cases hends
    exact hc hd
  exact .single h ⟨hname, hnot _ (by decide), hnot _ (by decide), hnot _ (by decide)⟩ rfl

/-- A name with arguments is woven from the name and the arguments. -/
theorem typeArguments_woven {scope : Scope} {start u t : State} {types : List TypeNode} (hname : start.Ahead u)
    (hnamed : Named (start.upTo u)) (hu : u.Placed) (h : typeArguments g scope u = .ok (types, t)) :
    (TypeNode.reference (start.textTo t) (start.textTo u) types).Woven := by
  have hnonempty := (typeArguments_gives.holds hu h (State.covered_textTo u _)).1
  obtain ⟨_, v, hexpect, hinside⟩ := bind_eq_ok.mp h
  obtain ⟨hopen, rfl⟩ := expect_eq_ok hexpect
  obtain ⟨list, w, hlist, hend⟩ := bind_eq_ok.mp hinside
  obtain ⟨_, x, hexpectEnd, hpure⟩ := bind_eq_ok.mp hend
  obtain ⟨hclose, rfl⟩ := expect_eq_ok hexpectEnd
  cases hpure
  have hnext := u.ahead_next.placed
  have hw := Steady.moves (p := enclosed (commaList ">" g.type)) hnext hlist
  obtain ⟨v, hrows, hvw, hback⟩ := commaList_run hnext hlist
  have hwoven := woven_applied hname hnamed hu hopen hrows hvw hback hw.placed hclose
  cases types with
  | nil => exact absurd rfl hnonempty
  | cons arg more => exact hwoven

/-- A query takes the token that it begins with. -/
theorem typeQuery_next {scope : Scope} {s t : State} {a : Unit} (h : typeQuery g scope s = .ok (a, t)) :
    s.next.Reaches t := by
  dsimp only [typeQuery] at h
  rw [atWord_bind, following_bind] at h
  split at h
  · replace h := of_discard_take_bind h
    refine (@Steady.moves _ _ ?_ _ _ _ _ s.ahead_next.placed h).reaches
    infer_instance
  · obtain ⟨_, u, hdiscard, hrest⟩ := bind_eq_ok.mp h
    obtain ⟨word, hword, -⟩ := map_eq_ok.mp hdiscard
    obtain ⟨-, rfl⟩ := anyWord_eq_ok hword
    refine (@Steady.moves _ _ ?_ _ _ _ _ s.ahead_next.placed hrest).reaches
    infer_instance

instance : Spelling (wordType g) where
  spelled {scope start node t} hs h := by
    have hcovered := start.covered_textTo t
    dsimp only [wordType] at h
    rw [get_bind, following_bind] at h
    have htext : ∀ word : String, String.ofList start.token.text = word →
        trim word.toList = word.toList → start.textTo start.next = word := by
      rintro _ rfl htrim
      rw [hs.textTo_next, ← String.toList_ofList (l := start.token.text), htrim, String.ofList_toList]
    have hmem : ∀ (word : String) (c : Char), String.ofList start.token.text = word → c ∈ word.toList →
        c ∈ start.token.text := by
      rintro _ c rfl hc
      rwa [String.toList_ofList] at hc
    have hnamed : ∀ word : String, String.ofList start.token.text = word →
        (∀ c ∈ word.toList, Level c ∧ c ≠ '|') → Named (start.upTo start.next) := by
      rintro _ rfl hlevel
      rw [String.toList_ofList] at hlevel
      rw [hs.upTo_next]
      exact named_of_level hlevel
    generalize hword : String.ofList start.token.text = word at h
    split at h
    case h_1 | h_2 =>
      cases of_discard_take_bind h
      rw [htext _ hword (by decide)]
      exact .literal (by decide) (by decide) (c := 'e') rfl (by decide)
    case h_3 | h_4 | h_5 =>
      cases of_discard_take_bind h
      rw [htext _ hword (by decide)]
      exact .other (by decide) (by decide)
    case h_6 =>
      replace h := of_discard_take_bind h
      exact Others.allSpelled (c := 'y') start.reaches_self hs h (hmem _ _ hword (by decide)) (by decide)
    case h_7 =>
      split at h
      · obtain ⟨_, u, hquery, h⟩ := bind_eq_ok.mp h
        cases h
        exact .of_foreign (c := 'p') start.reaches_self hs (typeQuery_next hquery)
          (hmem _ _ hword (by decide)) (by decide)
      · exact absurd h Throws.ne_ok
    case h_8 =>
      replace h := of_discard_take_bind h
      obtain ⟨_, u, hexpect, h⟩ := bind_eq_ok.mp h
      obtain ⟨hsymbol, rfl⟩ := expectWord_eq_ok hexpect
      cases h
      have hnext := start.ahead_next.placed
      refine .name (start.ahead_next.named_upTo start.next.ahead_next (hnamed _ hword (by decide)) ?_)
      rw [hnext.upTo_next, Token.text_of_isWord hsymbol]
      exact named_of_level (by decide)
    case h_19 =>
      obtain ⟨_, u, hqualified, h⟩ := bind_eq_ok.mp h
      rw [textTo_bind, atMark_bind] at h
      have hu := Steady.moves hs hqualified
      obtain ⟨hahead, hname⟩ := qualifiedName_named hs hqualified
      cases hangle : u.token.isMark "<" with
      | true =>
        rw [hangle] at h
        obtain ⟨types, v, htypes, h⟩ := bind_eq_ok.mp h
        cases h
        have hargs := typeArguments_gives.holds hu.placed htypes (hcovered.mono hu.reaches (State.reaches_self _))
        have hwoven := typeArguments_woven hahead hname hu.placed htypes
        exact .of_parts (start.trim_textTo _) hwoven hargs.2
      | false =>
        rw [hangle] at h
        cases h
        exact .name hname
    all_goals
      cases of_discard_take_bind h
      exact .name (hnamed _ hword (by decide))

/-- No primitive begins with any other character. -/
theorem ofName?_eq_none_of_head {text : String} {c : Char} (h : text.toList.head? = some c)
    (hc : c ∉ ['s', 'n', 'b']) : Primitive.ofName? text = none := by
  cases hname : Primitive.ofName? text with
  | none => rfl
  | some p =>
    rw [Primitive.ofName?_eq_some hname] at h
    cases p <;> cases h <;> exact absurd (by decide) hc

/-- The last character of a number or of a string closes nothing. -/
theorem exists_getLast?_literal {s : List Char}
    (h : (readToken s).1.kind = .number ∨ (readToken s).1.kind = .string) :
    ∃ c, (readToken s).1.text.getLast? = some c ∧ isBlank c = false ∧ c ∉ [']', ')', '>'] := by
  rcases h with h | h
  · obtain ⟨hchars, first, more, htext, -⟩ := number_token h
    have hne : (readToken s).1.text ≠ [] := by simp [htext]
    have hlast := hchars _ (List.getLast_mem hne)
    have hclosing : [']', ')', '>'] ⊆
        ['"', '\'', ']', ')', '>', '=', '\\', '/', '\x60', ' ', 's'] := by decide
    exact ⟨_, List.getLast?_eq_some_getLast hne, hlast.isBlank_eq_false,
      fun hmem => hlast.not_mem (hclosing hmem)⟩
  · obtain ⟨quote, body, htext, hquote⟩ := string_token h
    refine ⟨quote, ?_, ?_⟩
    · rw [htext, ← List.cons_append, List.getLast?_concat]
    · rcases hquote with rfl | rfl <;> decide

theorem exists_head?_literal {s : List Char}
    (h : (readToken s).1.kind = .number ∨ (readToken s).1.kind = .string) :
    ∃ c, (readToken s).1.text.head? = some c ∧ isBlank c = false ∧ c ∉ ['s', 'n', 'b'] := by
  rcases h with h | h
  · obtain ⟨hchars, first, more, htext, hfirst⟩ := number_token h
    have hhead := hchars first (by simp [htext])
    refine ⟨first, by rw [htext]; rfl, hhead.isBlank_eq_false, fun hmem => ?_⟩
    have hall : ∀ d ∈ ['s', 'n', 'b'], isDigit d = false ∧ d ≠ '.' := by decide
    rcases hfirst with hfirst | hfirst
    · rw [(hall first hmem).1] at hfirst
      cases hfirst
    · exact (hall first hmem).2 hfirst
  · obtain ⟨quote, body, htext, hquote⟩ := string_token h
    refine ⟨quote, by rw [htext]; rfl, ?_⟩
    rcases hquote with rfl | rfl <;> decide

/-- What ends with a number or a string is a literal if its front looks like one. -/
theorem literal_allSpelled {start u : State} {value : Literal} (h : start.Reaches u) (hu : u.Placed)
    (hkind : u.token.kind = .number ∨ u.token.kind = .string) {c : Char}
    (hhead : (start.upTo u.next).head? = some c) (hblank : isBlank c = false) (hc : c ∉ ['s', 'n', 'b']) :
    (TypeNode.literal (start.textTo u.next) value).AllSpelled := by
  rw [hu] at hkind
  obtain ⟨last, hlast, hlastBlank, hnot⟩ := exists_getLast?_literal hkind
  rw [← hu] at hlast
  refine .literal (start.trim_textTo _) (ofName?_eq_none_of_head ?_ hc)
    (h.endsWith_textTo hu hlast hlastBlank) hnot
  rw [State.toList_textTo]
  exact head?_trim hblank hhead

/-- A literal of one token. -/
theorem token_literal_allSpelled {s : State} {value : Literal} (hs : s.Placed)
    (hkind : s.token.kind = .number ∨ s.token.kind = .string) :
    (TypeNode.literal (s.textTo s.next) value).AllSpelled := by
  have hread := hkind
  rw [hs] at hread
  obtain ⟨c, hc, hblank, hnot⟩ := exists_head?_literal hread
  exact literal_allSpelled s.reaches_self hs hkind (by rw [hs.upTo_next, hs, hc]) hblank hnot

/-- A number after a minus sign. -/
theorem negative_literal_allSpelled {s : State} {value : Literal} (hs : s.Placed)
    (hminus : s.token.isMark "-" = true) (hkind : s.next.token.kind = .number) :
    (TypeNode.literal (s.textTo s.next.next) value).AllSpelled := by
  obtain ⟨gap, -, htill⟩ := hs.till_mark (c := '-') hminus rfl
  refine literal_allSpelled s.reaches_next s.ahead_next.placed (.inl hkind) (c := '-') ?_ (by decide) (by decide)
  rw [s.reaches_next.upTo_next s.ahead_next.placed, htill]
  rfl

/-- The types between the brackets of a tuple. -/
theorem tupleElements_gives : Gives text (enclosed do
    if (← atMark "]") || ((← atMark ",") && (← following).isMark "]") then
      discard <| accept ","
      return []
    else commaList "]" (tupleElement g)) fun types => ∀ type ∈ types, type.SpelledIn text := by
  have helement : Gives text (tupleElement g) (TypeNode.SpelledIn text) := inferInstance
  have hlist : Gives text (commaList "]" (tupleElement g)) fun types => ∀ type ∈ types, type.SpelledIn text :=
    (Gives.commaList "]" helement).imp fun _ h => h.2
  have hnil : Gives text (pure []) fun types : List TypeNode => ∀ type ∈ types, type.SpelledIn text :=
    .pure (by simp)
  infer_instance

theorem brokenString_gives {Q : TypeNode → Prop} : Gives text (brokenString : Parser TypeNode) Q := by
  dsimp only [brokenString, unclosed]
  infer_instance

/-- A type whose last token is a mark ends with that mark. -/
theorem endsWith_of_closes {p : Parser α} {mark : String} (hp : Closes mark p) {scope : Scope}
    {start s t : State} {a : α} {c : Char} (h : start.Reaches s) (hs : s.Placed)
    (hrun : p scope s = .ok (a, t)) (hmark : mark.toList = [c]) (hc : isBlank c = false) :
    EndsWith (start.textTo t) c := by
  obtain ⟨u, hu, hplaced, htoken, rfl⟩ := hp.closes hs hrun
  refine (h.trans (Trail.samePlace_or_ahead hu)).endsWith_textTo hplaced ?_ hc
  rw [Token.text_of_isMark htoken, hmark]
  rfl

/-- The text of a template begins with its back quote. -/
theorem template_allSpelled {s t : State} (hs : s.Placed) (hkind : s.token.kind = .template) :
    (TypeNode.other (s.textTo t)).AllSpelled := by
  refine .other (s.trim_textTo t) ?_
  rw [hs] at hkind
  obtain ⟨rest, hhere⟩ := List.head?_eq_some_iff.mp (template_token hkind)
  cases hwidth : t.stop - s.offset with
  | zero =>
    have hnil : s.textTo t = "" := by
      rw [State.textTo, hwidth]
      rfl
    rw [hnil]
    decide
  | succ width =>
    refine ofName?_eq_none_of_mem (c := '\x60') ?_ (by decide)
    rw [State.toList_textTo, State.upTo, hwidth, hhere]
    exact mem_trim List.mem_cons_self (by decide)

instance : Spelling (primaryType g) where
  spelled {scope start node t} hs h := by
    have hcovered := start.covered_textTo t
    dsimp only [primaryType] at h
    rw [get_bind] at h
    generalize hkind : start.token.kind = kind at h
    cases kind with
    | word => exact Spelling.spelled (p := wordType g) hs h
    | brokenString => exact brokenString_gives.holds hs h hcovered
    | string =>
      cases of_take_bind h
      exact token_literal_allSpelled hs (.inr hkind)
    | number =>
      cases of_take_bind h
      exact token_literal_allSpelled hs (.inl hkind)
    | template =>
      obtain ⟨_, u, hparts, h⟩ := bind_eq_ok.mp h
      cases h
      exact template_allSpelled hs hkind
    | mark =>
      dsimp only at h
      rw [atMark_bind] at h
      by_cases hbrace : start.token.isMark "\x7b" = true
      · rw [if_pos hbrace] at h
        obtain ⟨members, u, hmembers, h⟩ := bind_eq_ok.mp h
        cases h
        have hends := endsWith_of_closes typeMembers_closes start.reaches_self hs hmembers rfl (by decide)
        exact .of_parts (start.trim_textTo _) hends
          (spelledIn_of_mem_filterMap (typeMembers_gives.holds hs hmembers hcovered))
      rw [if_neg hbrace, atMark_bind] at h
      by_cases hbracket : start.token.isMark "[" = true
      · rw [if_pos hbracket] at h
        replace h := of_discard_take_bind h
        obtain ⟨elements, u, helements, h⟩ := bind_eq_ok.mp h
        obtain ⟨_, v, hexpect, h⟩ := bind_eq_ok.mp h
        cases h
        have hu := Steady.moves start.ahead_next.placed helements
        have hends := endsWith_of_closes (.expect "]") (start.reaches_next.trans hu.reaches) hu.placed hexpect rfl
          (by decide)
        exact .of_parts (start.trim_textTo _) hends (tupleElements_gives.holds start.ahead_next.placed helements
          (hcovered.mono start.reaches_next (Steady.moves hu.placed hexpect).reaches))
      rw [if_neg hbracket, atMark_bind, following_bind] at h
      by_cases hnegative : (start.token.isMark "-" && start.next.token.kind == .number) = true
      · rw [if_pos hnegative] at h
        obtain ⟨hminus, hnumber⟩ := (Bool.and_eq_true _ _).mp hnegative
        cases of_take_bind (of_discard_take_bind h)
        exact negative_literal_allSpelled hs hminus (eq_of_beq hnumber)
      rw [if_neg hnegative, atMark_bind, following_bind] at h
      by_cases hpositive : (start.token.isMark "+" && start.next.token.kind == .number) = true
      · rw [if_pos hpositive] at h
        obtain ⟨hplus, -⟩ := (Bool.and_eq_true _ _).mp hpositive
        cases of_discard_take_bind (of_discard_take_bind h)
        exact .of_foreign (c := '+') start.reaches_self hs start.next.reaches_next
          (by rw [Token.text_of_isMark hplus]; decide) (by decide)
      rw [if_neg hpositive, accept_bind] at h
      cases hstar : start.token.isMark "*" with
      | true =>
        rw [hstar] at h
        cases h
        exact .of_foreign (c := '*') start.reaches_self hs (.inl rfl)
          (by rw [Token.text_of_isMark hstar]; decide) (by decide)
      | false =>
        rw [hstar, if_neg Bool.false_ne_true, if_neg Bool.false_ne_true, atSignature_bind] at h
        split at h
        · exact Spelling.spelled (p := parenthesizedType g) hs h
        · exact absurd h Throws.ne_ok
    | _ => exact absurd h Throws.ne_ok

end Types

end DeclSchema.Syntax
