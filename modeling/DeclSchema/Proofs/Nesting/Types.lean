import DeclSchema.Proofs.Nesting.Tokens
import DeclSchema.Proofs.Syntax.WrittenMembers

/-! # Types of a source alone and as a body

What stands inside of a type is read by a grammar one level further down, alone and in the body. The
two grammars need not have the same depth.
-/
namespace DeclSchema.Syntax
open Text

/-- Each reader of the first grammar reads alone what that of the second one reads in the body. -/
class Grammar.Alike (b : Body) (g g' : Grammar) : Prop where
  type : Syntax.Alike b g.type g'.type
  typeOperand : Syntax.Alike b g.typeOperand g'.typeOperand
  value : Syntax.Alike b g.value g'.value
  values : Syntax.Alike b g.values g'.values
  operand : Syntax.Alike b g.operand g'.operand
  pattern : Syntax.Alike b g.pattern g'.pattern
  statement : Syntax.Alike b g.statement g'.statement

attribute [instance] Grammar.Alike.type Grammar.Alike.typeOperand Grammar.Alike.value Grammar.Alike.values
  Grammar.Alike.operand Grammar.Alike.pattern Grammar.Alike.statement

variable {α : Type} {b : Body} {g g' : Grammar} [g'.Steady] [Grammar.Alike b g g']

instance : Alike b (statedType g) (statedType g') := by
  unfold statedType
  infer_instance

instance : Alike b (statedType? g) (statedType? g') := by
  unfold statedType?
  infer_instance

instance : Alike b (initializer? g) (initializer? g') := by
  unfold initializer?
  infer_instance

instance : Alike b (typeArguments g) (typeArguments g') := by
  unfold typeArguments
  infer_instance

instance : Alike b (arguments g) (arguments g') := by
  dsimp only [arguments]
  infer_instance

instance : Alike b (decorator g) (decorator g') := by
  dsimp only [decorator]
  infer_instance

instance : Alike b (decorators g) (decorators g') := by
  unfold decorators
  infer_instance

-- What is looked at behind the current token matters only where that is taken.
section Following
variable {token : Token}

theorem Token.not_isMark_of_not_isWhole (h : ¬ token.isWhole = true) (mark : String) : token.isMark mark = false :=
  Bool.eq_false_iff.mpr fun hmark => h (Token.isWhole_of_kind (Token.kind_of_isMark hmark))

theorem Token.not_isWord_of_not_isWhole (h : ¬ token.isWhole = true) (word : String) : token.isWord word = false :=
  Bool.eq_false_iff.mpr fun hword => h (Token.isWhole_of_kind (Token.kind_of_isWord hword))

theorem Token.not_isOneOf_of_not_isWhole (h : ¬ token.isWhole = true) (words : List String) :
    token.isOneOf words = false :=
  Bool.eq_false_iff.mpr fun hwords => h (Token.isWhole_of_kind (eq_of_beq ((Bool.and_eq_true _ _).mp hwords).1))

theorem Token.kind_ne_of_not_isWhole (h : ¬ token.isWhole = true) {kind : TokenKind}
    (hkind : kind ≠ .finish ∧ kind ≠ .brokenString) : (token.kind == kind) = false :=
  Bool.eq_false_iff.mpr fun heq => h (Token.isWhole_of_kind (eq_of_beq heq) hkind)

/-- Where something is taken, the next tokens stand beside each other, too. -/
theorem Body.Places.next_token (x : b.Places) (hwhole : x.alone.token.isWhole = true) :
    x.alone.next.token.Beside x.nested.next.token := (x.next hwhole).token

theorem Body.Places.next_next_token (x : b.Places) (hwhole : x.alone.token.isWhole = true)
    (hnext : x.alone.next.token.isWhole = true) : x.alone.next.next.token.Beside x.nested.next.next.token :=
  (x.next hwhole).next_token hnext

theorem Body.Places.next_endsBefore (x : b.Places) (hwhole : x.alone.token.isWhole = true) (lineEnd : LineEnd) :
    Same (x.alone.next.endsBefore lineEnd) (x.nested.next.endsBefore lineEnd) :=
  ⟨(x.next hwhole).endsBefore_nested lineEnd⟩

/-- Behind a token that is not taken the readers need not stand beside each other: the second test does not
count there. -/
theorem AlikeAt.behind {x : b.Places} {c d d' : Bool} {p p' q q' : Parser α}
    (hc : x.alone.token.isWhole ≠ true → c = false) (hd : x.alone.token.isWhole = true → Same d d')
    (hp : Alike b p p') (hq : Alike b q q') :
    AlikeAt x (if c && d then p else q) (if c && d' then p' else q') := by
  by_cases hwhole : x.alone.token.isWhole = true
  · have hsame := hd hwhole
    exact .cond inferInstance .of_alike .of_alike
  · simp only [hc hwhole, Bool.false_and]
    exact .of_alike

variable {p p' q q' : Parser α} {c c' : Token → Bool} [hc : ∀ x : b.Places, Same (c x.alone.token) (c' x.nested.token)]
  [hp : Alike b p p'] [hq : Alike b q q']

instance (priority := high) (word : String) :
    Alike b (do if (← atWord word) && c (← following) then p else q)
      (do if (← atWord word) && c' (← following) then p' else q') :=
  have := hp.quietly
  have := hq.quietly
  .of_at fun x => .atWord_bind (.following_bind (.behind (Token.not_isWord_of_not_isWhole · word)
    (fun hwhole => hc (x.next hwhole)) hp hq))

instance (priority := high) (mark : String) [hmark : Inner mark] :
    Alike b (do if (← atMark mark) && c (← following) then p else q)
      (do if (← atMark mark) && c' (← following) then p' else q') :=
  have := hp.quietly
  have := hq.quietly
  .of_at fun x => .atMark_bind hmark.ne (.following_bind (.behind (Token.not_isMark_of_not_isWhole · mark)
    (fun hwhole => hc (x.next hwhole)) hp hq))

instance (priority := high) (words : List String) :
    Alike b (do
        let second ← following
        if (← current).isOneOf words && c second then p else q)
      (do
        let second ← following
        if (← current).isOneOf words && c' second then p' else q') :=
  have := hp.quietly
  have := hq.quietly
  .of_at fun x => .following_bind (.current_bind (by
    rw [x.token.isOneOf]
    exact .behind (Token.not_isOneOf_of_not_isWhole · words) (fun hwhole => hc (x.next hwhole)) hp hq))

end Following

instance : Alike b (propertyName g) (propertyName g') := by
  have hbracket : ∀ x : b.Places, Alike b
      (do
        if ← accept "[" then
          discard <| enclosed g.value
          expect "]"
          return x.alone.textTo (← get)
        else stuck)
      (do
        if ← accept "[" then
          discard <| enclosed g'.value
          expect "]"
          return x.nested.textTo (← get)
        else stuck) := fun x => inferInstance
  refine .of_at fun x => ?_
  unfold propertyName
  refine .get_bind ?_
  cases x.token with
  | same _ heq =>
    rw [heq]
    split <;> exact .of_alike
  | broken halone hnested =>
    rw [halone, hnested]
    exact .of_alike
  | atEnd halone hnested =>
    rw [halone, hnested]
    exact .of_alike

instance (orders : List ModifierOrder) : Alike b (modifiers orders) (modifiers orders) := by
  dsimp only [modifiers]
  have hword : ∀ words : List String, Alike b
      (do
        let s ← get
        let goesOn ← modifies
        if s.token.kind == .word && (orders.any fun order => order.admits (words ++ [String.ofList s.token.text])) && goesOn then
          discard take
          return some (words ++ [String.ofList s.token.text])
        else return none)
      (do
        let s ← get
        let goesOn ← modifies
        if s.token.kind == .word && (orders.any fun order => order.admits (words ++ [String.ofList s.token.text])) && goesOn then
          discard take
          return some (words ++ [String.ofList s.token.text])
        else return none) := by
    intro words
    refine .of_at fun x => .get_bind ?_
    by_cases hwhole : x.alone.token.isWhole = true
    · rw [x.token.isWhole hwhole]
      have hnext := x.next_token hwhole
      have hends := x.next_endsBefore hwhole
      refine .bind ?_ fun goesOn => inferInstance
      exact .get_bind (.read_bind fun scope => .of_alike)
    · have hword := Token.kind_ne_of_not_isWhole hwhole (show TokenKind.word ≠ .finish ∧ _ by decide)
      rw [x.token.kind (show TokenKind.word ≠ .mark by decide) (by decide), hword]
      exact ⟨fun _ _ hfound => .both none x.beside hfound⟩
  infer_instance

instance : Alike b (typeParameter g) (typeParameter g') := by
  refine .of_at fun x => ?_
  dsimp only [typeParameter]
  simp only [Bool.and_assoc]
  refine .following_bind (.atWord_bind (.behind (Token.not_isWord_of_not_isWhole · _) (fun hwhole => ?_) ?_ ?_))
  · have hnext := x.next_token hwhole
    infer_instance
  · infer_instance
  · infer_instance

instance : Alike b (typeParameters? g) (typeParameters? g') := by
  unfold typeParameters?
  infer_instance

instance : Alike b (parameter g) (parameter g') := by
  dsimp only [parameter]
  infer_instance

instance : Alike b (parameters g) (parameters g') := by
  dsimp only [parameters]
  infer_instance

instance : Alike b (resultType g) (resultType g') := by
  refine .of_at fun x => ?_
  dsimp only [resultType]
  refine .read_bind fun scope => .get_bind (.atWord_bind ?_)
  by_cases hwhole : x.alone.token.isWhole = true
  · have hnext := x.next_token hwhole
    have hends := x.next_endsBefore hwhole
    exact .of_alike
  · simp only [Token.not_isWord_of_not_isWhole hwhole, Bool.false_and]
    refine .cond inferInstance .of_alike (.atKind_bind (by decide) (by decide) ?_)
    simp only [Token.kind_ne_of_not_isWhole hwhole (show TokenKind.word ≠ .finish ∧ _ by decide), Bool.false_and]
    exact .of_alike

instance : Alike b (resultType? g) (resultType? g') := by
  dsimp only [resultType?]
  infer_instance

instance : Alike b (signature g) (signature g') := by
  unfold signature
  infer_instance

instance : Alike b atSignature atSignature := by
  unfold atSignature
  infer_instance

theorem AlikeAt.atSignature_bind {x : b.Places} {f f' : Bool → Parser α}
    (h : AlikeAt x (f (x.alone.token.isMark "(" || x.alone.token.isMark "<"))
      (f' (x.alone.token.isMark "(" || x.alone.token.isMark "<"))) :
    AlikeAt x (atSignature >>= f) (atSignature >>= f') := by
  refine ⟨fun scope before hfound => ?_⟩
  rw [Syntax.atSignature_bind, Syntax.atSignature_bind, x.token.isMark (by decide), x.token.isMark (by decide)]
  exact h.run scope before hfound

instance : Alike b atIndexSignature atIndexSignature := by
  refine .of_at fun x => ?_
  dsimp only [atIndexSignature]
  refine .get_bind (.atMark_bind (by decide) ?_)
  have hand : (x.alone.token.isMark "[" && x.nested.next.token.kind == .word &&
      (x.nested.next.next.token.isMark ":" || x.nested.next.next.token.isWord "in")) =
      (x.alone.token.isMark "[" && x.alone.next.token.kind == .word &&
        (x.alone.next.next.token.isMark ":" || x.alone.next.next.token.isWord "in")) := by
    cases hmark : x.alone.token.isMark "[" with
    | false => simp only [Bool.false_and]
    | true =>
      have hwhole := Token.isWhole_of_kind (Token.kind_of_isMark hmark)
      have hnext := x.next_token hwhole
      rw [Bool.true_and, Bool.true_and]
      refine Same.and (hnext.kind (by decide) (by decide)) fun hword => ?_
      have hbehind := x.next_next_token hwhole (Token.isWhole_of_kind (eq_of_beq hword))
      rw [hbehind.isMark (by decide), hbehind.isWord]
  rw [hand]
  exact .of_alike

instance : Alike b (indexSignature g) (indexSignature g') := by
  dsimp only [indexSignature]
  infer_instance

instance (words : List String) : Alike b (namedMember g words) (namedMember g' words) := by
  dsimp only [namedMember]
  infer_instance

instance {signed signed' : Bool} [h : Same signed signed'] :
    Alike b (modifiedMember g signed) (modifiedMember g' signed') := by
  rw [h.eq]
  dsimp only [modifiedMember]
  infer_instance

instance : Alike b (typeMember g) (typeMember g') := by
  refine .of_at fun x => ?_
  dsimp only [typeMember]
  refine .following_bind ?_
  by_cases hwhole : x.alone.token.isWhole = true
  · have hnext := x.next_token hwhole
    exact .of_alike
  · refine .atSignature_bind (.cond inferInstance .of_alike (.atWord_bind (.atWord_bind ?_)))
    simp only [Token.not_isWord_of_not_isWhole hwhole, Bool.false_and, Bool.or_self, Bool.false_eq_true, if_false]
    refine .atMark_bind (by decide) (.atMark_bind (by decide) ?_)
    simp only [Token.not_isMark_of_not_isWhole hwhole, Bool.or_self, Bool.and_false]
    exact .of_alike

instance : Alike b memberSeparator memberSeparator := by
  dsimp only [memberSeparator]
  infer_instance

/-- No member stands at the end of the source. -/
theorem typeMember_finish {g : Grammar} {scope : Scope} {s : State} (h : s.token.kind = .finish) :
    ∃ fault, typeMember g scope s = .error fault := by
  have hmark : ∀ mark, s.token.isMark mark = false := Token.not_isMark_of_kind (by simp [h])
  have hword : ∀ word, s.token.isWord word = false := Token.not_isWord_of_kind (by simp [h])
  have hmodifiers : modifiers [methodOrder] scope s = .ok ([], s) := by
    have hextend : ∀ p : List String → Parser (Option (List String)),
        p [] scope s = .ok (none, s) → extend p [] scope s = .ok ([], s) := fun p hp =>
      (Extends.refl [] s).extend hp
    dsimp only [modifiers]
    rw [bind_of_ok (hextend _ ?_), accept_bind, hmark, if_neg Bool.false_ne_true, if_neg (by simp)]
    · rfl
    · obtain ⟨modified, hmodified⟩ : ∃ b, modifies scope s = .ok (b, s) := ⟨_, rfl⟩
      rw [get_bind, bind_of_ok hmodified, h]
      rfl
  have hstarts : s.token.startsName = false := by
    simp [Token.startsName, h, hmark]
  dsimp only [typeMember, modifiedMember, namedMember]
  simp only [following_bind, atSignature_bind, atWord_bind, atMark_bind, hmark, hword, Bool.or_self, Bool.false_and,
    Bool.and_false, Bool.false_eq_true, if_false]
  rw [bind_of_ok hmodifiers, bind_of_ok (atIndexSignature_of_not_isMark (hmark "[")), if_neg Bool.false_ne_true,
    current_bind, hstarts, Bool.not_false, if_pos rfl]
  exact Throws.throws _ _

instance : Alike b (typeMembers g) (typeMembers g') := by
  have hmembers : ∀ (leading leading' : State) (separated : Bool), Alike b
      (do
        if separated && (← atMark "\x7d") then
          throw (.unexpected leading.offset leading.token.text)
        let first ← typeMember g
        let more ← many do
          if ← memberSeparator then return some (← typeMember g) else return none
        return (first :: more).filterMap id)
      (do
        if separated && (← atMark "\x7d") then
          throw (.unexpected leading'.offset leading'.token.text)
        let first ← typeMember g'
        let more ← many do
          if ← memberSeparator then return some (← typeMember g') else return none
        return (first :: more).filterMap id) := by
    intro leading leading' separated
    refine .of_at fun x => ?_
    by_cases hfinish : x.alone.token.kind = .finish
    · refine .of_finish hfinish fun scope => ?_
      obtain ⟨fault, hfault⟩ : ∃ fault, typeMember g scope x.alone = .error fault := typeMember_finish hfinish
      dsimp only
      rw [atMark_bind, Token.not_isMark_of_kind (by simp [hfinish]), Bool.and_false, if_neg Bool.false_ne_true]
      exact ⟨fault, bind_of_error hfault⟩
    · exact .atMark_bind_of_ne hfinish .of_alike
  dsimp only [typeMembers] at hmembers ⊢
  infer_instance

instance : Alike b qualifiedName qualifiedName := by
  unfold qualifiedName
  infer_instance

instance : Alike b (tupleElement g) (tupleElement g') := by
  refine .of_at fun x => ?_
  dsimp only [tupleElement]
  refine .get_bind (.bind .of_alike fun dots => .of_at fun y => .get_bind ?_)
  have hand : (y.nested.token.kind == .word && (y.nested.next.token.isMark ":" ||
      (y.nested.next.token.isMark "?" && y.nested.next.next.token.isMark ":"))) =
      (y.alone.token.kind == .word && (y.alone.next.token.isMark ":" ||
        (y.alone.next.token.isMark "?" && y.alone.next.next.token.isMark ":"))) := by
    refine Same.and (y.token.kind (by decide) (by decide)) fun hword => ?_
    have hwhole := Token.isWhole_of_kind (eq_of_beq hword)
    have hnext := y.next_token hwhole
    rw [hnext.isMark (show ":" ≠ "\x7d" by decide)]
    refine congrArg _ (Same.and (hnext.isMark (by decide)) fun hmark => ?_)
    exact (y.next_next_token hwhole (Token.isWhole_of_kind (Token.kind_of_isMark hmark))).isMark (by decide)
  rw [hand]
  exact .of_alike

instance : Alike b (functionTypeHead g) (functionTypeHead g') := by
  unfold functionTypeHead
  infer_instance

instance : Sure b (functionTypeHead g) (functionTypeHead g') := by
  unfold functionTypeHead
  infer_instance

instance : Alike b (innerType g) (innerType g') := by
  unfold innerType
  infer_instance

/-- An arrow behind the source is none of it. -/
theorem arrowMayFollow_nested (x : b.Places) {n m : Nat} (depth : Nat) (hn : x.alone.here.length < n)
    (hm : x.nested.here.length < m) : x.nested.arrowMayFollow m depth = x.alone.arrowMayFollow n depth := by
  induction n generalizing x m depth with
  | zero => omega
  | succ n ih =>
    obtain ⟨m, rfl⟩ : ∃ k, m = k + 1 := ⟨m - 1, by omega⟩
    by_cases hfinish : x.alone.token.kind = .finish
    · have hend : x.alone.here = [] := readToken_finish (by rwa [← x.beside.alone])
      rw [(x.beside.quiet_of_atEnd hend).not_arrowMayFollow x.beside.nested, State.arrowMayFollow, hfinish]
      rfl
    · cases x.token with
      | atEnd halone => exact absurd (by rw [halone]) hfinish
      | broken halone hnested => simp [State.arrowMayFollow, Token.isOdd, halone, hnested]
      | same hwhole heq =>
        have hhere := x.here_ne_nil hwhole
        have halone := State.next_length_lt x.beside.alone hhere
        have hnested := State.next_length_lt x.beside.nested (x.nested_ne_nil)
        have hnext : ∀ depth, x.nested.next.arrowMayFollow m depth = x.alone.next.arrowMayFollow n depth :=
          fun depth => ih (x.next hwhole) depth (by dsimp only [Body.Places.next]; omega)
            (by dsimp only [Body.Places.next]; omega)
        have harrow := (x.next_token hwhole).isMark (show "=>" ≠ "\x7d" by decide)
        rw [State.arrowMayFollow, State.arrowMayFollow, heq, harrow]
        simp only [hnext]

instance : Alike b (functionHeadOr g) (functionHeadOr g') := by
  unfold functionHeadOr
  refine .of_at fun x => .get_bind ?_
  rw [arrowMayFollow_nested x 0 (Nat.lt_succ_self _) (Nat.lt_succ_self _)]
  refine .ite (fun _ => ?_) fun _ => .of_alike
  have hhead : Sure b (do functionTypeHead g; return none : Parser (Option TypeNode))
      (do functionTypeHead g'; return none) := .then fun _ => inferInstance
  exact .of_alike

instance : Alike b (parenthesizedType g) (parenthesizedType g') := by
  refine .of_at fun x => ?_
  dsimp only [parenthesizedType]
  refine .get_bind (.bind .of_alike fun inner => ?_)
  cases inner <;> dsimp only <;> infer_instance

instance : Alike b (typeQuery g) (typeQuery g') := by
  dsimp only [typeQuery]
  infer_instance

omit [g'.Steady] in
theorem wordType_at {x : b.Places} (h : x.alone.token.kind = .word) : AlikeAt x (wordType g) (wordType g') := by
  have hwhole := Token.isWhole_of_kind h
  have hnext := x.next_token hwhole
  dsimp only [wordType]
  refine .get_bind (.following_bind ?_)
  rw [x.token.isWhole hwhole]
  split <;> exact .of_alike

theorem AlikeAt.of_takeChars {x : b.Places} {width : Nat} (hne : x.alone.here ≠ []) (hwidth : width ≤ x.alone.here.length) :
    AlikeAt x (takeChars width) (takeChars width) :=
  ⟨fun _ _ hfound => .both () (x.past width hne hwidth).beside hfound⟩

theorem AlikeAt.takeChars_bind {x : b.Places} {width : Nat} {f f' : Unit → Parser α} (hne : x.alone.here ≠ [])
    (hwidth : width ≤ x.alone.here.length) (h : AlikeAt (x.past width hne hwidth) (f ()) (f' ())) :
    AlikeAt x (takeChars width >>= f) (takeChars width >>= f') := ⟨h.run⟩

section Templates
variable {x : b.Places} {p p' : Parser Unit}

theorem templatePart_throws {s : State} (h : (templateText (s.here.drop 1)).2 = none) (scope : Scope) :
    ∃ fault, templatePart p scope s = .error fault := by
  dsimp only [templatePart]
  rw [get_bind]
  generalize templateText (s.here.drop 1) = text at h
  obtain ⟨width, stop⟩ := text
  obtain rfl : stop = none := h
  dsimp only
  split <;> exact ⟨_, rfl⟩

instance : Fails (templatePart p) where
  fails _ hquiet := templatePart_throws (hquiet.templateText (List.drop_suffix 1 _)) _

instance : Quietly (templatePart p) := .of_fails

theorem templatePart_at [Alike b p p'] (x : b.Places) : AlikeAt x (templatePart p) (templatePart p') := by
  by_cases hnil : x.alone.here = []
  · have halone : (templateText (x.alone.here.drop 1)).2 = none := by rw [hnil]; rfl
    refine .of_throws (templatePart_throws halone) fun scope => ?_
    exact Fails.fails x.beside.nested (x.beside.quiet_of_atEnd hnil)
  · obtain ⟨c, front, hfront⟩ := List.exists_cons_of_ne_nil hnil
    have hnested : x.nested.here.drop 1 = front ++ b.rest := by
      cases x.beside.place with
      | inside _ here => rw [here, hfront]; rfl
      | atEnd none => exact absurd none hnil
    have happend := templateText_append (s := front) (t := '\x7d' :: b.behind) fun tail htail =>
      b.rest_quiet.templateText htail
    have halone : x.alone.here.drop 1 = front := by rw [hfront]; rfl
    have hlength : x.alone.here.length = front.length + 1 := by rw [hfront]; rfl
    cases htext : templateText front with
    | mk width stop =>
    rw [htext] at happend
    cases stop with
    | none =>
      rw [if_pos rfl] at happend
      exact .of_throws (templatePart_throws (by rw [halone, htext]))
        (templatePart_throws (by rw [hnested]; exact happend))
    | some stop =>
      rw [if_neg (by simp)] at happend
      obtain ⟨hlt, hpart⟩ := templateText_le htext
      have hclosed : Alike b
          (do
            enclosed p
            if !(← atMark "\x7d") then stuck
            return some ())
          (do
            enclosed p'
            if !(← atMark "\x7d") then stuck
            return some ()) := by
        refine .then fun _ => .of_at fun y => ?_
        by_cases hfinish : y.alone.token.kind = .finish
        · refine .of_finish hfinish fun scope => ?_
          rw [atMark_bind, Token.not_isMark_of_kind (by simp [hfinish]), Bool.not_false, if_pos rfl]
          exact Throws.throws scope _
        · exact .atMark_bind_of_ne hfinish .of_alike
      unfold templatePart
      refine .get_bind ?_
      rw [hnested, Body.rest, happend, halone, htext]
      split
      · rename_i heq
        cases heq
        exact .takeChars_bind hnil (by omega) .of_alike
      · rename_i hquote heq
        cases heq
        have hlast := hpart hquote
        exact .takeChars_bind hnil (by omega) .of_alike
      · rename_i heq
        cases heq

instance [Alike b p p'] : Alike b (templateParts p) (templateParts p') := by
  have hpart : Alike b (templatePart p) (templatePart p') := .of_at templatePart_at
  unfold templateParts
  infer_instance

end Templates

instance : Alike b (primaryType g) (primaryType g') := by
  refine .of_at fun x => ?_
  by_cases hfinish : x.alone.token.kind = .finish
  · refine .of_finish hfinish fun scope => ?_
    dsimp only [primaryType]
    rw [get_bind, hfinish]
    exact Throws.throws scope _
  · dsimp only [primaryType]
    refine .get_bind ?_
    cases x.token with
    | atEnd halone => exact absurd (by rw [halone]) hfinish
    | broken halone hnested =>
      rw [halone, hnested]
      exact .of_alike
    | same _ heq =>
      rw [heq]
      cases hkind : x.alone.token.kind with
      | word => exact wordType_at hkind
      | mark =>
        have hand : Alike b
            (do
              if (← atMark "]") || ((← atMark ",") && (← following).isMark "]") then
                discard <| accept ","
                return []
              else commaList "]" (tupleElement g))
            (do
              if (← atMark "]") || ((← atMark ",") && (← following).isMark "]") then
                discard <| accept ","
                return []
              else commaList "]" (tupleElement g')) := by
          refine .of_at fun y => .atMark_bind (by decide) (.atMark_bind (by decide) (.following_bind ?_))
          by_cases hwhole : y.alone.token.isWhole = true
          · have hnext := y.next_token hwhole
            exact .of_alike
          · simp only [Token.not_isMark_of_not_isWhole hwhole, Bool.false_and, Bool.or_self]
            exact .of_alike
        dsimp only at hand ⊢
        refine .atMark_bind (by decide) (.ite (fun _ => .of_alike) fun _ => ?_)
        exact .atMark_bind (by decide) (.ite (fun _ => .of_alike) fun _ => .of_alike)
      | finish => exact absurd hkind hfinish
      | _ => exact .of_alike

instance (x : b.Places) (type : TypeNode) : Alike b (typeSuffix? g x.alone type) (typeSuffix? g' x.nested type) := by
  dsimp only [typeSuffix?]
  infer_instance

instance : Alike b (Syntax.typeOperand g) (Syntax.typeOperand g') := by
  refine .of_at fun x => ?_
  dsimp only [Syntax.typeOperand]
  refine .get_bind (.bind .of_alike fun keyof => ?_)
  infer_instance

instance (mark : String) [Inner mark] (p p' : Parser TypeNode) [Alike b p p'] :
    Alike b (typeRow mark p) (typeRow mark p') := by
  dsimp only [typeRow]
  infer_instance

instance : Alike b (intersectionType g) (intersectionType g') := by
  refine .of_at fun x => ?_
  dsimp only [intersectionType]
  refine .get_bind (.bind .of_alike fun row => ?_)
  split <;> infer_instance

instance : Alike b (unionType g) (unionType g') := by
  refine .of_at fun x => ?_
  dsimp only [unionType]
  refine .get_bind (.bind .of_alike fun row => ?_)
  split <;> infer_instance

instance : Alike b (anyType g) (anyType g') := by
  refine .of_at fun x => ?_
  dsimp only [anyType]
  refine .get_bind (.bind .of_alike fun type => ?_)
  infer_instance

end DeclSchema.Syntax
