import DeclSchema.Proofs.Syntax.TypeSpelling

/-! # Operators on types

Operands stand in rows with marks between them, and array brackets follow on an operand. What is
read from a place on is spelled and has the text up to the place where the reader stops.
-/
namespace DeclSchema.Syntax
open Text

section Types
variable {text : List Char} {g : Grammar} [hg : g.Steady]

theorem parenthesizedType_isRow : Gives text (parenthesizedType g) fun type : TypeNode => type.isRow = false := by
  have hother : ∀ own, Gives text (pure (.other own)) fun type : TypeNode => type.isRow = false := fun _ => .pure rfl
  have hinner : ∀ own inner, Gives text (pure (.parenthesized own inner)) fun type : TypeNode => type.isRow = false :=
    fun _ _ => .pure rfl
  dsimp only [parenthesizedType]
  refine .after Steady.moves fun start => .after Steady.moves fun inner => ?_
  cases inner <;> dsimp only <;> infer_instance

theorem wordType_isRow : Gives text (wordType g) fun type : TypeNode => type.isRow = false := by
  have hother : ∀ own, Gives text (pure (.other own)) fun type : TypeNode => type.isRow = false := fun _ => .pure rfl
  have hname : ∀ own name args,
      Gives text (pure (.reference own name args)) fun type : TypeNode => type.isRow = false := fun _ _ _ => .pure rfl
  have hliteral : ∀ own value, Gives text (pure (.literal own value)) fun type : TypeNode => type.isRow = false :=
    fun _ _ => .pure rfl
  dsimp only [wordType]
  refine .after Steady.moves fun start => .after Steady.moves fun second => ?_
  split <;> infer_instance

theorem primaryType_isRow {scope : Scope} {s t : State} {type : TypeNode} (hs : s.Placed)
    (h : primaryType g scope s = .ok (type, t)) : type.isRow = false := by
  have hcovered := s.covered_textTo t
  generalize (s.textTo t).toList = text at hcovered
  have hother : ∀ own, Gives text (pure (.other own)) fun type : TypeNode => type.isRow = false := fun _ => .pure rfl
  have hliteral : ∀ own value, Gives text (pure (.literal own value)) fun type : TypeNode => type.isRow = false :=
    fun _ _ => .pure rfl
  have hobject : ∀ own members, Gives text (pure (.object own members)) fun type : TypeNode => type.isRow = false :=
    fun _ _ => .pure rfl
  have htuple : ∀ own elements, Gives text (pure (.tuple own elements)) fun type : TypeNode => type.isRow = false :=
    fun _ _ => .pure rfl
  have hparenthesized : Gives text (parenthesizedType g) fun type : TypeNode => type.isRow = false :=
    parenthesizedType_isRow
  have hword : Gives text (wordType g) fun type : TypeNode => type.isRow = false := wordType_isRow
  have hbroken : Gives text (brokenString : Parser TypeNode) fun type : TypeNode => type.isRow = false :=
    brokenString_gives
  dsimp only [primaryType] at h
  rw [get_bind] at h
  generalize s.token.kind = kind at h
  cases kind with
  | template =>
    obtain ⟨_, u, -, h⟩ := bind_eq_ok.mp h
    cases h
    rfl
  | _ =>
    dsimp only at h
    refine @Gives.holds _ text _ (fun type : TypeNode => type.isRow = false) ?_ _ _ _ _ hs h hcovered
    infer_instance

/-- An operand between two places: it is spelled and has no operands itself. -/
structure OperandAt (s t : State) (type : TypeNode) : Prop where
  spans : Spans s t type
  placed : t.Placed
  spelled : type.AllSpelled
  isRow : type.isRow = false

theorem OperandAt.isUnion {s t : State} {type : TypeNode} (h : OperandAt s t type) : type.isUnion = false :=
  (Bool.or_eq_false_iff.mp h.isRow).1

theorem OperandAt.isIntersection {s t : State} {type : TypeNode} (h : OperandAt s t type) :
    type.isIntersection = false := (Bool.or_eq_false_iff.mp h.isRow).2

omit hg in
/-- What may follow on a type: nothing, the brackets of an array, or brackets with a key in them. -/
theorem typeSuffix?_cases {scope : Scope} {start s t : State} {type : TypeNode} {longer? : Option TypeNode}
    (h : typeSuffix? g start type scope s = .ok (longer?, t)) :
    (longer? = none ∧ t = s) ∨
    s.token.isMark "[" = true ∧
      ((longer? = some (.array (start.textTo t) type) ∧ s.next.token.isMark "]" = true ∧ t = s.next.next) ∨
      ∃ key u, longer? = some (.other (start.textTo t)) ∧ enclosed g.type scope s.next = .ok (key, u) ∧
        t = u.next) := by
  dsimp only [typeSuffix?] at h
  rw [atMark_bind, endsHere_bind] at h
  split at h
  · rename_i hopens
    refine .inr ⟨((Bool.and_eq_true _ _).mp hopens).1, ?_⟩
    replace h := of_discard_take_bind h
    rw [accept_bind] at h
    cases hclose : s.next.token.isMark "]" with
    | true =>
      rw [hclose] at h
      cases h
      exact .inl ⟨rfl, rfl, rfl⟩
    | false =>
      rw [hclose, if_neg Bool.false_ne_true, if_neg Bool.false_ne_true, current_bind] at h
      split at h
      · obtain ⟨fault, hfault, -⟩ : ∃ fault,
            (missing "]" : Parser (Option TypeNode)) scope s.next = .error fault ∧ _ := missing_eq_error "]"
        rw [hfault] at h
        cases h
      · obtain ⟨_, u, hkey, h⟩ := bind_eq_ok.mp h
        obtain ⟨key, hkey, -⟩ := map_eq_ok.mp hkey
        obtain ⟨_, v, hexpect, h⟩ := bind_eq_ok.mp h
        obtain ⟨-, rfl⟩ := expect_eq_ok hexpect
        cases h
        exact .inr ⟨key, u, rfl, hkey, rfl⟩
  · cases h
    exact .inl ⟨rfl, rfl⟩

theorem typeSuffix?_operand {scope : Scope} {start s t : State} {type longer : TypeNode}
    (htype : OperandAt start s type) (h : typeSuffix? g start type scope s = .ok (some longer, t)) :
    OperandAt start t longer := by
  have hmoves := Steady.moves htype.placed h
  have hahead := htype.spans.ahead.reaches hmoves.reaches
  rcases typeSuffix?_cases h with ⟨hnone, -⟩ | ⟨hopen, ⟨hlonger, hclose, rfl⟩ | ⟨key, u, hlonger, hkey, rfl⟩⟩
  · cases hnone
  · cases hlonger
    have hwithin := htype.spans.infix_of_covered (start.covered_textTo s.next.next) start.reaches_self
      (s.reaches_next.trans s.next.reaches_next)
    exact ⟨⟨hahead, rfl⟩, hmoves.placed, .of_parts (start.trim_textTo _)
      (woven_array htype.spans htype.placed hopen hclose htype.isUnion)
      (List.forall_mem_singleton.mpr ⟨htype.spelled, hwithin⟩), rfl⟩
  · cases hlonger
    have hreach : s.next.Reaches u.next := (Steady.moves s.ahead_next.placed hkey).reaches.trans u.reaches_next
    exact ⟨⟨hahead, rfl⟩, hmoves.placed, .of_foreign (c := '[') (.inr htype.spans.ahead) htype.placed hreach
      (by rw [Token.text_of_isMark hopen]; decide) (by decide), rfl⟩

/-- Other types behind a token with a foreign character are operands. -/
theorem Others.operandAt {p : Parser TypeNode} {scope : Scope} {start u t : State} {type : TypeNode} {c : Char}
    [hothers : Others start p] [hp : Steady p] (hsu : start.Reaches u) (hu : u.Placed)
    (h : p scope u.next = .ok (type, t)) (hmem : c ∈ u.token.text) (hc : Foreign c) : OperandAt start t type := by
  have hmoves := hp.moves u.ahead_next.placed h
  have hahead := hsu.ahead (u.ahead_next.reaches hmoves.reaches)
  have hspelled := Others.allSpelled hsu hu h hmem hc
  rw [hothers.eq_other h] at hspelled ⊢
  exact ⟨⟨hahead, rfl⟩, hmoves.placed, hspelled, rfl⟩

/-- A word or a mark with a foreign character in front of other types, or what stands there without it. -/
theorem Others.operandAt_ite {p q : Parser TypeNode} {scope : Scope} {s t : State} {type : TypeNode} {c : Char}
    {found : Bool} [Others s p] [Steady p] (hs : s.Placed) (hfound : found = true → c ∈ s.token.text)
    (hc : Foreign c)
    (h : (if found = true then p else q) scope (if found = true then s.next else s) = .ok (type, t))
    (hq : q scope s = .ok (type, t) → OperandAt s t type) : OperandAt s t type := by
  cases found with
  | true =>
    rw [if_pos rfl, if_pos rfl] at h
    exact Others.operandAt s.reaches_self hs h (hfound rfl) hc
  | false => exact hq h

theorem typeOperand_run {scope : Scope} {s t : State} {type : TypeNode} (hs : s.Placed)
    (h : Syntax.typeOperand g scope s = .ok (type, t)) : OperandAt s t type := by
  have hword : ∀ {word : String} {c : Char}, c ∈ word.toList → s.token.isWord word = true → c ∈ s.token.text :=
    fun hmem hword => by rwa [Token.text_of_isWord hword]
  dsimp only [Syntax.typeOperand] at h
  rw [get_bind, acceptWord_bind] at h
  refine Others.operandAt_ite (c := 'k') hs (hword (by decide)) (by decide) h fun h => ?_
  rw [accept_bind] at h
  refine Others.operandAt_ite (c := '?') hs (fun hmark => ?_) (by decide) h fun h => ?_
  · rw [Token.text_of_isMark hmark]
    decide
  rw [acceptWord_bind] at h
  refine Others.operandAt_ite (c := 'y') hs (hword (by decide)) (by decide) h fun h => ?_
  rw [acceptWord_bind] at h
  refine Others.operandAt_ite (c := 'f') hs (hword (by decide)) (by decide) h fun h => ?_
  rw [atWord_bind, atWord_bind] at h
  split at h
  · obtain ⟨_, u, habstract, h⟩ := bind_eq_ok.mp h
    obtain ⟨_, v, hnew, h⟩ := bind_eq_ok.mp h
    obtain ⟨_, w, hhead, h⟩ := bind_eq_ok.mp h
    have hu := Steady.moves hs habstract
    have hv := Steady.moves hu.placed hnew
    obtain ⟨x, hx, hplaced, harrow, rfl⟩ := functionTypeHead_closes.closes hv.placed hhead
    have hreach := (hu.reaches.trans hv.reaches).trans (Trail.samePlace_or_ahead hx)
    exact Others.operandAt (c := '=') hreach hplaced h (by rw [Token.text_of_isMark harrow]; decide) (by decide)
  · obtain ⟨first, u, hfirst, h⟩ := bind_eq_ok.mp h
    have hoperand : OperandAt s u first := ⟨Spanning.spans hs hfirst, (Steady.moves hs hfirst).placed,
      Spelling.spelled hs hfirst, primaryType_isRow hs hfirst⟩
    refine extend_invariant (I := fun type u => OperandAt s u type) hoperand ?_ ?_ h
    · exact fun htype hstep => typeSuffix?_operand htype hstep
    · intro type u t htype hstep
      rcases typeSuffix?_cases hstep with ⟨-, rfl⟩ | ⟨-, ⟨hsome, -⟩ | ⟨_, _, hsome, -⟩⟩
      · exact htype
      · cases hsome
      · cases hsome

/-- All types of a row are what the reader of one of them makes of them. -/
theorem typeRow_gives (mark : String) {p : Parser TypeNode} [Steady p] {Q : TypeNode → Prop} (h : Gives text p Q) :
    Gives text (typeRow mark p) fun row => ∀ type ∈ row.1, Q type := by
  have hnone : Gives text (pure none) fun type? : Option TypeNode => ∀ type, type? = some type → Q type :=
    .pure (by simp)
  have hsome : Gives text (do return some (← p)) fun type? => ∀ type, type? = some type → Q type :=
    .bind h fun type htype => .pure (by simpa using htype)
  dsimp only [typeRow]
  refine .bind .any fun leading _ => .bind h fun first hfirst =>
    .bind (.many (Q := Q) inferInstance) fun more hmore => .pure ?_
  simpa using ⟨hfirst, hmore⟩

instance : Spanning (Syntax.typeOperand g) := ⟨fun hs h => (typeOperand_run hs h).spans⟩

instance : Spelling (Syntax.typeOperand g) := ⟨fun hs h => (typeOperand_run hs h).spelled⟩

/-- An intersection of operands, or a single one. -/
theorem intersectionType_run {scope : Scope} {s t : State} {type : TypeNode} (hs : s.Placed)
    (h : intersectionType g scope s = .ok (type, t)) : Spans s t type ∧ type.AllSpelled ∧ type.isUnion = false := by
  have hahead : s.Ahead t := Advances.ahead hs h
  have hplain : ∀ text, Gives text (Syntax.typeOperand g) fun type => type.isIntersection = false :=
    fun _ => .of_all fun hs h => (typeOperand_run hs h).isIntersection
  unfold intersectionType at h
  rw [get_bind] at h
  obtain ⟨⟨operands, marked⟩, u, hrow, h⟩ := bind_eq_ok.mp h
  rcases typeRow_run (c := '&') rfl hs hrow with ⟨only, rfl, rfl, honly⟩ | ⟨rfl, hwoven⟩
  · cases h
    have hrun := typeOperand_run hs honly
    exact ⟨hrun.spans, hrun.spelled, hrun.isUnion⟩
  · obtain ⟨rfl, rfl⟩ : type = .intersection (s.textTo t) operands ∧ u = t := by
      rcases operands with _ | ⟨only, _ | ⟨second, rest⟩⟩ <;> cases h <;> exact ⟨rfl, rfl⟩
    have hcovered := s.covered_textTo u
    have hspelled : Gives (s.textTo u).toList (Syntax.typeOperand g) (TypeNode.SpelledIn (s.textTo u).toList) :=
      inferInstance
    obtain ⟨front, row, hfront, hparts, hlead, htext⟩ := hwoven.woven
    have hwoven : (TypeNode.intersection (s.textTo u) operands).Woven :=
      ⟨(typeRow_gives "&" (hplain _)).holds hs hrow hcovered, front, row, hfront, hparts, hlead,
        by rw [State.toList_textTo, htext]⟩
    exact ⟨⟨hahead, rfl⟩, .of_parts (s.trim_textTo u) hwoven
      ((typeRow_gives "&" hspelled).holds hs hrow hcovered), rfl⟩

instance : Spanning (intersectionType g) := ⟨fun hs h => (intersectionType_run hs h).1⟩

instance : Spelling (intersectionType g) := ⟨fun hs h => (intersectionType_run hs h).2.1⟩

theorem unionType_run {scope : Scope} {s t : State} {type : TypeNode} (hs : s.Placed)
    (h : unionType g scope s = .ok (type, t)) : Spans s t type ∧ type.AllSpelled := by
  have hahead : s.Ahead t := Advances.ahead hs h
  have hplain : ∀ text, Gives text (intersectionType g) fun type => type.isUnion = false :=
    fun _ => .of_all fun hs h => (intersectionType_run hs h).2.2
  unfold unionType at h
  rw [get_bind] at h
  obtain ⟨⟨operands, marked⟩, u, hrow, h⟩ := bind_eq_ok.mp h
  rcases typeRow_run (c := '|') rfl hs hrow with ⟨only, rfl, rfl, honly⟩ | ⟨rfl, hwoven⟩
  · cases h
    have hrun := intersectionType_run hs honly
    exact ⟨hrun.1, hrun.2.1⟩
  · obtain ⟨rfl, rfl⟩ : type = .union (s.textTo t) operands ∧ u = t := by
      rcases operands with _ | ⟨only, _ | ⟨second, rest⟩⟩ <;> cases h <;> exact ⟨rfl, rfl⟩
    have hcovered := s.covered_textTo u
    have hspelled : Gives (s.textTo u).toList (intersectionType g) (TypeNode.SpelledIn (s.textTo u).toList) :=
      inferInstance
    obtain ⟨front, row, hfront, hparts, -, htext⟩ := hwoven.woven
    have hwoven : (TypeNode.union (s.textTo u) operands).Woven :=
      ⟨(typeRow_gives "|" (hplain _)).holds hs hrow hcovered, front, row, hfront, hparts,
        by rw [State.toList_textTo, htext]⟩
    exact ⟨⟨hahead, rfl⟩, .of_parts (s.trim_textTo u) hwoven
      ((typeRow_gives "|" hspelled).holds hs hrow hcovered)⟩

theorem anyType_run {scope : Scope} {s t : State} {type : TypeNode} (hs : s.Placed)
    (h : anyType g scope s = .ok (type, t)) : Spans s t type ∧ type.AllSpelled := by
  have hahead : s.Ahead t := Advances.ahead hs h
  dsimp only [anyType] at h
  rw [get_bind] at h
  obtain ⟨first, u, hfirst, h⟩ := bind_eq_ok.mp h
  have hmoves := Steady.moves hs hfirst
  rw [atWord_bind, endsHere_bind] at h
  split at h
  · rename_i hcondition
    obtain ⟨hextends, -⟩ := (Bool.and_eq_true _ _).mp hcondition
    replace h := of_discard_take_bind h
    have hspelled : type.AllSpelled := Others.allSpelled (c := 'x') hmoves.reaches hmoves.placed h
      (by rw [Token.text_of_isWord hextends]; decide) (by decide)
    have hother : type = .other (s.textTo t) := Others.eq_other h
    exact ⟨⟨hahead, by rw [hother]; rfl⟩, hspelled⟩
  · cases h
    exact unionType_run hs hfirst

instance : Spanning (anyType g) := ⟨fun hs h => (anyType_run hs h).1⟩

instance : Spelling (anyType g) := ⟨fun hs h => (anyType_run hs h).2⟩

end Types

end DeclSchema.Syntax
