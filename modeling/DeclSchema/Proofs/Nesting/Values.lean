import DeclSchema.Proofs.Nesting.Types

/-! # Values of a source alone and as a body -/
namespace DeclSchema.Syntax
open Text

variable {α : Type} {b : Body} {g g' : Grammar} [g'.Steady] [Grammar.Alike b g g']

/-- The last entry of an object may be a word in front of the brace. In the source alone, where the
brace is missing, such an entry is read in another way, which has to fail. -/
theorem AlikeAt.entry {x : b.Places} {marks : List String} {p p' q q' : Parser α} (hbrace : "\x7d" ∈ marks)
    [Alike b p p'] [Alike b q q']
    (hfails : x.alone.token.kind = .word → x.alone.next.token.kind = .finish →
      ∀ scope, ∃ fault, q scope x.alone = .error fault)
    (hpast : x.alone.token.kind = .word → Quiet x.nested.next.here → ∀ {scope a t},
      p' scope x.nested = .ok (a, t) → Quiet t.here ∧ t.Placed) :
    AlikeAt x (do if (← atKind .word) && marks.any x.alone.next.token.isMark then p else q)
      (do if (← atKind .word) && marks.any x.nested.next.token.isMark then p' else q') := by
  refine .atKind_bind (by decide) (by decide) ?_
  cases hword : x.alone.token.kind == .word with
  | false =>
    rw [Bool.false_and, Bool.false_and]
    exact .of_alike
  | true =>
    have hkind := eq_of_beq hword
    have hwhole := Token.isWhole_of_kind hkind
    by_cases hfinish : x.alone.next.token.kind = .finish
    · have hnone : marks.any x.alone.next.token.isMark = false :=
        List.any_eq_false.mpr fun mark _ =>
          Bool.eq_false_iff.mp (Token.not_isMark_of_kind (by simp [hfinish]) mark)
      have hend : (x.next hwhole).alone.here = [] := readToken_finish hfinish
      have hquiet : Quiet x.nested.next.here := (x.next hwhole).beside.quiet_of_atEnd hend
      have hsome : marks.any x.nested.next.token.isMark = true := by
        refine List.any_eq_true.mpr ⟨_, hbrace, ?_⟩
        rw [(x.next_token hwhole).eq_close hfinish]
        rfl
      rw [hnone, hsome]
      exact .of_past (hfails hkind hfinish) (hpast hkind hquiet)
    · have hsame : marks.any x.nested.next.token.isMark = marks.any x.alone.next.token.isMark :=
        congrArg marks.any (funext ((x.next_token hwhole).isMark_of_ne hfinish))
      rw [hsame]
      exact .of_alike

instance : Alike b (patternPart g) (patternPart g') := by
  dsimp only [patternPart]
  infer_instance

instance : Alike b (patternEntry g) (patternEntry g') := by
  refine .of_at fun x => ?_
  dsimp only [patternEntry]
  refine .atMark_bind (by decide) (.ite (fun _ => .of_alike) fun _ => .following_bind (.entry (by decide) ?_ ?_))
  · intro hword hfinish scope
    have hname : propertyName g scope x.alone = .ok (String.ofList x.alone.token.text, x.alone.next) := by
      refine propertyName_name ?_
      rw [String.toList_ofList, ← hword]
    have hcolon : x.alone.next.token.isMark ":" = false := Token.not_isMark_of_kind (by simp [hfinish]) ":"
    obtain ⟨fault, hfault⟩ : ∃ fault, expect ":" scope x.alone.next = .error fault := expect_of_not_isMark hcolon
    have hdiscard : (discard (propertyName g) : Parser Unit) scope x.alone = .ok ((), x.alone.next) := discard_of_ok hname
    rw [bind_of_ok hdiscard, bind_of_error hfault]
    exact ⟨_, rfl⟩
  · intro hword hquiet scope a t hrun
    exact Quietly.quiet hquiet rfl (of_discard_take_bind hrun)

instance : Alike b (bindingPattern g) (bindingPattern g') := by
  dsimp only [bindingPattern]
  infer_instance

/-- What is missing or has to be skipped does not matter for what is read. -/
theorem soundly_of_error {p : Parser Unit} {scope : Scope} {s : State} {fault : Fault}
    (h : p scope s = .error fault) : ∃ other, soundly p scope s = .error other ∧
      (fault.isExhausted = true → other.isExhausted = true) := by
  unfold soundly
  rw [h]
  cases fault with
  | missing =>
    dsimp only
    split <;> exact ⟨_, rfl, fun h => by cases h⟩
  | stuck => exact ⟨_, rfl, fun h => by cases h⟩
  | _ => exact ⟨_, rfl, id⟩

instance {p q : Parser Unit} [h : Alike b p q] : Alike b (soundly p) (soundly q) where
  quietly := ⟨fun hquiet hs hrun => h.quietly.quiet hquiet hs (soundly_eq_ok hrun)⟩
  at_places x := by
    refine ⟨fun scope before hfound => ?_⟩
    have hout := (h.at_places x).run scope before hfound
    have hok : ∀ {p : Parser Unit} {s t : State}, p scope s = .ok ((), t) → soundly p scope s = .ok ((), t) := by
      intro p s t hrun
      unfold soundly
      rw [hrun]
    generalize hr : p scope x.alone = r at hout
    generalize hr' : q scope x.nested = r' at hout
    cases hout with
    | both _ beside found =>
      rw [hok hr, hok hr']
      exact .both () beside found
    | fails =>
      obtain ⟨_, hfault, -⟩ := soundly_of_error hr
      obtain ⟨_, hother, -⟩ := soundly_of_error hr'
      rw [hfault, hother]
      exact .fails _ _
    | beyond _ _ quiet placed =>
      obtain ⟨_, hfault, -⟩ := soundly_of_error hr
      rw [hfault, hok hr']
      exact .beyond _ () quiet placed
    | short h =>
      obtain ⟨_, hfault, hshort⟩ := soundly_of_error hr
      rw [hfault]
      exact .short (hshort h) _
    | bounded _ h =>
      obtain ⟨_, hother, hbounded⟩ := soundly_of_error hr'
      rw [hother]
      exact .bounded _ (hbounded h)

instance : Alike b (statements g) (statements g') := by
  unfold statements
  infer_instance

instance : Alike b (block g) (block g') := by
  unfold block
  infer_instance

instance : Alike b functionName? functionName? := by
  unfold functionName?
  infer_instance

instance : Alike b (functionValue g) (functionValue g') := by
  unfold functionValue
  infer_instance

instance : Sure b (arrowHead g) (arrowHead g') := by
  dsimp only [arrowHead]
  infer_instance

instance : Fails (arrowHead g') := by
  dsimp only [arrowHead]
  infer_instance

instance : Alike b (arrowHead g) (arrowHead g') := Sure.alike

instance : Alike b (arrowBody g) (arrowBody g') := by
  unfold arrowBody
  infer_instance

instance : Alike b (extendedClass g) (extendedClass g') := by
  refine .of_at fun x => ?_
  unfold extendedClass
  refine .get_bind (.bind .of_alike fun base => ?_)
  split <;> infer_instance

instance : Alike b (implementedType g) (implementedType g') := by
  unfold implementedType
  refine .then fun type => ?_
  split <;> infer_instance

instance {p q : Parser String} [Alike b p q] : Alike b (heritageEntries p) (heritageEntries q) := by
  unfold heritageEntries
  infer_instance

instance : Alike b (classHeritage g) (classHeritage g') := by
  dsimp only [classHeritage]
  infer_instance

instance (lineEnd : LineEnd) : Alike b (memberEnd lineEnd) (memberEnd lineEnd) := by
  dsimp only [memberEnd]
  infer_instance

instance (named : Bool) (name : String) : Alike b (field g named name) (field g' named name) := by
  dsimp only [field]
  refine .then fun optional => .ite_step ?_
  infer_instance

instance (words : List String) : Alike b (method g words) (method g' words) := by
  dsimp only [method]
  infer_instance

instance {item item' : Item} [h : Same item item'] : Alike b (emit item) (emit item') := by
  rw [h.eq]
  refine .of_at fun x => ⟨fun _ before hfound => .both ()
    (x.withFound (item :: x.alone.found) (item :: x.nested.found)).beside ?_⟩
  show item :: x.nested.found = item :: x.alone.found ++ before
  rw [hfound, List.cons_append]

instance (items : List Item) : Alike b (emitAll items) (emitAll items) := by
  induction items with
  | nil => exact inferInstanceAs (Alike b (pure ()) (pure ()))
  | cons item rest ih =>
    exact inferInstanceAs (Alike b (emit item >>= fun _ => emitAll rest) (emit item >>= fun _ => emitAll rest))

instance (named : Bool) (decoration : List Item) (words : List String) :
    Alike b (declaredMember g named decoration words) (declaredMember g' named decoration words) := by
  dsimp only [declaredMember]
  refine .of_at fun x => .current_bind (.cond inferInstance .of_alike (.bind .of_alike fun naming => ?_))
  refine .of_at fun y => .atSignature_bind (.atMark_bind (by decide) (.following_bind ?_))
  by_cases hwhole : y.alone.token.isWhole = true
  · have hnext := y.next_token hwhole
    exact .cond inferInstance (.bind .of_alike fun _ => .then fun _ => inferInstance) .of_alike
  · simp only [Token.not_isMark_of_not_isWhole hwhole, Bool.false_and]
    exact .of_alike

instance (named : Bool) : Alike b (classMember g named) (classMember g' named) := by
  dsimp only [classMember]
  infer_instance

instance (named : Bool) : Alike b (classBody g named) (classBody g' named) := by
  unfold classBody
  infer_instance

instance (decoration : List Item) : Alike b (classFrom g decoration) (classFrom g' decoration) := by
  dsimp only [classFrom]
  refine .then fun _ => .then fun word => .of_at fun x => .current_bind (.cond inferInstance .of_alike .of_alike)

/-- Words are no modifiers if nothing follows that they may modify. -/
theorem modifiers_done {orders : List ModifierOrder} {scope : Scope} {s : State} (hstar : s.token.isMark "*" = false)
    (hnot : s.token.kind = .word → orders.any (·.admits [String.ofList s.token.text]) = true →
      modifies scope s = .ok (false, s)) : modifiers orders scope s = .ok ([], s) := by
  have hextend : ∀ p : List String → Parser (Option (List String)),
      p [] scope s = .ok (none, s) → extend p [] scope s = .ok ([], s) := fun p hp =>
    (Extends.refl [] s).extend hp
  dsimp only [modifiers]
  rw [bind_of_ok (hextend _ ?_), accept_bind, hstar]
  · simp only [Bool.and_false, Bool.false_eq_true, if_false, pure_run]
  · have hmodifies : ∃ modified, modifies scope s = .ok (modified, s) := ⟨_, rfl⟩
    obtain ⟨modified, hmodified⟩ := hmodifies
    rw [get_bind, bind_of_ok hmodified, List.nil_append]
    rw [if_neg]
    · rfl
    · intro hmod
      simp only [Bool.and_eq_true, beq_iff_eq] at hmod
      obtain ⟨⟨hword, hfits⟩, rfl⟩ := hmod
      have := hnot hword hfits
      rw [hmodified] at this
      cases this

instance : Alike b (objectEntry g) (objectEntry g') := by
  dsimp only [objectEntry]
  refine .then fun dots => .cond inferInstance (.of_at fun x => .following_bind (.entry (by decide) ?_ ?_))
  · intro hword hfinish scope
    have hmark : ∀ mark, x.alone.next.token.isMark mark = false := Token.not_isMark_of_kind (by simp [hfinish])
    have hstar : x.alone.token.isMark "*" = false := Token.not_isMark_of_kind (by simp [hword]) _
    have hmodifiers : modifiers [methodOrder] scope x.alone = .ok ([], x.alone) := by
      refine modifiers_done hstar fun _ hfits => ?_
      have hfirm : x.alone.token.isOneOf firmModifiers = false := by
        refine Bool.eq_false_iff.mpr fun hfirm => ?_
        obtain ⟨word, hmem, htext⟩ := List.any_eq_true.mp ((Bool.and_eq_true _ _).mp hfirm).2
        rw [eq_of_beq htext, String.ofList_toList] at hfits
        have hnot : ∀ word ∈ firmModifiers, [methodOrder].any (·.admits [word]) = false := by decide
        rw [hnot word hmem] at hfits
        cases hfits
      have hstarts : x.alone.next.token.startsName = false := by
        rw [Token.startsName, hfinish, hmark]
        rfl
      show Except.ok (_, x.alone) = _
      rw [hfirm, hstarts, hmark]
      rfl
    have hname : propertyName g scope x.alone = .ok (String.ofList x.alone.token.text, x.alone.next) := by
      refine propertyName_name ?_
      rw [String.toList_ofList, ← hword]
    obtain ⟨fault, hfault⟩ : ∃ fault, expect ":" scope x.alone.next = .error fault := expect_of_not_isMark (hmark ":")
    rw [bind_of_ok hmodifiers, bind_of_ok hname, atSignature_bind, hmark, hmark, atMark_bind, hmark, Bool.or_self,
      Bool.or_self, if_neg Bool.false_ne_true, List.isEmpty_nil, Bool.not_true, if_neg Bool.false_ne_true,
      bind_of_error hfault]
    exact ⟨_, rfl⟩
  · intro hword hquiet scope a t hrun
    obtain ⟨_, u, hany, hpure⟩ := bind_eq_ok.mp hrun
    cases hpure
    obtain ⟨-, rfl⟩ := anyWord_eq_ok hany
    exact ⟨hquiet, rfl⟩

instance : Alike b (objectLiteral g) (objectLiteral g') := by
  unfold objectLiteral
  infer_instance

instance : Alike b (arrayLiteral g) (arrayLiteral g') := by
  dsimp only [arrayLiteral]
  infer_instance

instance : Sure b (assignedPattern g) (assignedPattern g') := by
  unfold assignedPattern
  infer_instance

instance {p q : Parser Operand} [Alike b p q] : Alike b (patternOr g p) (patternOr g' q) := by
  unfold patternOr
  refine .then fun pattern => ?_
  cases pattern <;> dsimp only <;> infer_instance

instance : Alike b (arrow? g) (arrow? g') := by
  unfold arrow?
  refine .then fun head => ?_
  cases head <;> dsimp only <;> infer_instance

instance : Alike b (parenthesizedValue g) (parenthesizedValue g') := by
  dsimp only [parenthesizedValue]
  infer_instance

theorem wordValue_at {x : b.Places} (h : x.alone.token.kind = .word) : AlikeAt x (wordValue g) (wordValue g') := by
  have hwhole := Token.isWhole_of_kind h
  have hnext := x.next_token hwhole
  have hends := x.next_endsBefore hwhole
  have harrow : Same (x.alone.next.token.kind == .word && x.alone.next.next.token.isMark "=>")
      (x.nested.next.token.kind == .word && x.nested.next.next.token.isMark "=>") := by
    refine ⟨Same.and (hnext.kind (by decide) (by decide)) fun hword => ?_⟩
    exact (x.next_next_token hwhole (Token.isWhole_of_kind (eq_of_beq hword))).isMark (by decide)
  dsimp only [wordValue]
  refine .get_bind (.read_bind fun scope => .cond inferInstance .of_alike (.current_bind ?_))
  rw [x.token.isWhole hwhole]
  split <;> exact .of_alike

instance : Alike b (primaryValue g) (primaryValue g') := by
  refine .of_at fun x => ?_
  by_cases hfinish : x.alone.token.kind = .finish
  · refine .of_finish hfinish fun scope => ?_
    dsimp only [primaryValue]
    rw [get_bind, hfinish]
    exact Throws.throws scope _
  · dsimp only [primaryValue]
    refine .get_bind ?_
    cases x.token with
    | atEnd halone => exact absurd (by rw [halone]) hfinish
    | broken halone hnested =>
      rw [halone, hnested]
      exact .of_alike
    | same hwhole heq =>
      rw [heq]
      cases hkind : x.alone.token.kind with
      | word => exact wordValue_at hkind
      | mark =>
        refine .atMark_bind (by decide) (.ite (fun _ => .of_alike) fun _ => ?_)
        refine .atMark_bind (by decide) (.ite (fun _ => .of_alike) fun _ => ?_)
        refine .atMark_bind (by decide) (.ite (fun _ => .of_alike) fun _ => ?_)
        refine .atMark_bind (by decide) (.ite (fun _ => .of_alike) fun _ => ?_)
        refine .atMark_bind (by decide) (.ite (fun _ => .of_alike) fun _ => ?_)
        have hne := x.here_ne_nil hwhole
        rw [x.nested_here hne, Body.rest, regexAt?_append]
        split
        · rename_i width hwidth
          exact .takeChars_bind hne (regexAt?_le hwidth) .of_alike
        · exact .of_alike
      | finish => exact absurd hkind hfinish
      | _ => exact .of_alike

instance : Sure b (typeArguments g) (typeArguments g') := by
  unfold typeArguments
  infer_instance

instance : Sure b (callTypeArguments g) (callTypeArguments g') := by
  dsimp only [callTypeArguments]
  refine .then fun _ => .get_bind fun x => ?_
  have hsame : Same
      (x.alone.token.isMark "(" || x.alone.token.kind == .template || x.alone.token.isMark "\x7b" || x.alone.newline
        || !x.alone.token.startsOperand)
      (x.nested.token.isMark "(" || x.nested.token.kind == .template || x.nested.token.isMark "\x7b" || x.nested.newline
        || !x.nested.token.startsOperand) := by
    cases x.beside.place with
    | inside _ _ _ newline =>
      rw [newline]
      infer_instance
    | atEnd none =>
      have hstarts : x.alone.token.startsOperand = false := by
        rw [x.beside.alone, none]
        rfl
      rw [x.token.startsOperand, hstarts, Bool.not_false, Bool.or_true, Bool.or_true]
      infer_instance
  infer_instance

instance {frozen frozen' : Bool} [h : Same frozen frozen'] : Alike b (callLink g frozen) (callLink g' frozen') := by
  rw [h.eq]
  unfold callLink
  infer_instance

instance {frozen frozen' : Bool} [h : Same frozen frozen'] :
    Alike b (optionalLink g frozen) (optionalLink g' frozen') := by
  rw [h.eq]
  dsimp only [optionalLink]
  infer_instance

instance {frozen frozen' : Bool} [h : Same frozen frozen'] (x : b.Places) :
    Alike b (appliedLink? g x.alone frozen) (appliedLink? g' x.nested frozen') := by
  rw [h.eq]
  refine .of_at fun y => ?_
  unfold appliedLink?
  refine .get_bind (.bind .of_alike fun called => ?_)
  cases called <;> dsimp only <;> infer_instance

instance (x : b.Places) (value : Operand) : Alike b (link? g x.alone value) (link? g' x.nested value) := by
  dsimp only [link?]
  refine .then fun ends => .cond inferInstance (.of_at fun y => .get_bind (.bind .of_alike fun dot => ?_))
  infer_instance

instance : Alike b (Syntax.operand g) (Syntax.operand g') := by
  refine .of_at fun x => ?_
  dsimp only [Syntax.operand]
  exact .get_bind .of_alike

instance : Alike b (conditionBranches g) (conditionBranches g') := by
  dsimp only [conditionBranches]
  infer_instance

theorem AlikeAt.atCondition_bind {x : b.Places} {f f' : Bool → Parser α} (h : ∀ c, AlikeAt x (f c) (f' c)) :
    AlikeAt x (atCondition >>= f) (atCondition >>= f') := by
  have hsame : (x.nested.token.isMark "?" && !([":", ")", ","].any x.nested.next.token.isMark)) =
      (x.alone.token.isMark "?" && !([":", ")", ","].any x.alone.next.token.isMark)) := by
    refine Same.and (x.token.isMark (by decide)) fun hmark => ?_
    have hnext := x.next_token (Token.isWhole_of_kind (Token.kind_of_isMark hmark))
    exact Same.eq
  refine ⟨fun scope before hfound => ?_⟩
  show Outcome b before (f (x.alone.token.isMark "?" && _) scope x.alone)
    (f' (x.nested.token.isMark "?" && _) scope x.nested)
  rw [hsame]
  exact (h _).run scope before hfound

instance (value : Operand) : Alike b (rowStep? g value) (rowStep? g' value) := by
  refine .of_at fun x => ?_
  dsimp only [rowStep?]
  refine .endsHere_bind fun ends => .ite (fun _ => .of_alike) fun _ => .get_bind (.read_bind fun scope => ?_)
  refine .cond inferInstance .of_alike (.cond inferInstance .of_alike (.cond inferInstance .of_alike ?_))
  refine .atCondition_bind fun condition => .ite (fun _ => .of_alike) fun _ => ?_
  by_cases hnil : x.alone.here = []
  · have hkind : (x.alone.token.kind != .mark) = true := by
      rw [x.beside.alone, hnil]
      rfl
    rw [hkind, (x.beside.quiet_of_atEnd hnil).operatorAt?_eq_none, if_pos rfl]
    split <;> exact .of_alike (h := Alike.pure none)
  · have hfinish : x.alone.token.kind ≠ .finish := fun h => hnil (readToken_finish (by rwa [← x.beside.alone]))
    rw [x.token.kind_of_ne hfinish, x.nested_here hnil, Body.rest, operatorAt?_append]
    refine .ite (fun _ => .of_alike) fun _ => ?_
    cases hoperator : operatorAt? x.alone.here with
    | none => exact .of_alike (h := Alike.pure none)
    | some operator =>
      exact .ite (fun _ => .of_alike) fun _ => .takeChars_bind hnil (operatorAt?_le hoperator) .of_alike

instance : Alike b (anyValue g) (anyValue g') := by
  unfold anyValue
  infer_instance

instance : Alike b (anyValues g) (anyValues g') := by
  dsimp only [anyValues]
  infer_instance

end DeclSchema.Syntax
