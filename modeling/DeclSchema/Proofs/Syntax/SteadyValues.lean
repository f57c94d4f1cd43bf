import DeclSchema.Proofs.Syntax.TypeOperators

/-! # The readers of functions, classes and values are steady

The classes they record have members with spelled types, and their heritage is tidy.
-/
namespace DeclSchema.Syntax
open Text

variable {α β : Type} {source text : List Char} {g : Grammar} [hg : g.Steady]

abbrev Gathered (source : List Char) (α : Type) : Type := { r : α × List Item // ItemsSound source r.2 }

instance (priority := high) {p : Parser α} {f : α × List Item → Parser β} [SteadyIn source p] [Steady p]
    [hf : ∀ r : Gathered source α, SteadyIn source (f r.1)] : SteadyIn source (gather p >>= f) :=
  .bind_gather .any fun r _ hr => hf ⟨r, hr⟩

instance (r : Gathered source α) : SteadyIn source (emitAll r.1.2) := emitAll_steady r.2

instance : Steady (patternPart g) := by
  dsimp only [patternPart]
  infer_instance

instance : Steady (patternEntry g) := by
  dsimp only [patternEntry]
  infer_instance

instance : Steady (bindingPattern g) := by
  dsimp only [bindingPattern]
  infer_instance

theorem soundly_eq_ok {statement : Parser Unit} {scope : Scope} {s t : State} {a : Unit}
    (h : soundly statement scope s = .ok (a, t)) : statement scope s = .ok (a, t) := by
  unfold soundly at h
  split at h
  · rename_i hrun
    cases h
    exact hrun
  · split at h <;> cases h
  · cases h
  · cases h

instance {statement : Parser Unit} [hstatement : SteadyIn source statement] : SteadyIn source (soundly statement) where
  moves hs h := hstatement.moves hs (soundly_eq_ok h)

instance : Steady (statements g) := by
  unfold statements
  infer_instance

instance : Steady (block g) := by
  unfold block
  infer_instance

instance : Steady functionName? := by
  unfold functionName?
  infer_instance

instance : Steady (functionValue g) := by
  unfold functionValue
  infer_instance

instance : Steady (arrowHead g) := by
  dsimp only [arrowHead]
  infer_instance

instance : Steady (arrowBody g) := by
  unfold arrowBody
  infer_instance

instance : Steady (extendedClass g) := by
  unfold extendedClass
  refine .bind fun start => .bind fun base => ?_
  split <;> infer_instance

instance : Steady (implementedType g) := by
  unfold implementedType
  refine .bind fun type => ?_
  split <;> infer_instance

instance {entry : Parser String} [Steady entry] : Steady (heritageEntries entry) := by
  unfold heritageEntries
  infer_instance

instance : Steady (classHeritage g) := by
  dsimp only [classHeritage]
  infer_instance

theorem classHeritage_gives : Gives text (classHeritage g) TidyNames := by
  have hnames : ∀ entries, Gives text (pure (heritageNames entries)) TidyNames := fun entries =>
    .pure (tidyNames_heritageNames entries)
  dsimp only [classHeritage]
  infer_instance

instance (lineEnd : LineEnd) : Steady (memberEnd lineEnd) := by
  dsimp only [memberEnd]
  infer_instance

instance (named : Bool) (name : String) : Steady (field g named name) := by
  dsimp only [field]
  infer_instance

abbrev MemberType (text : List Char) : Type :=
  { type? : Option TypeNode // ∀ type, type? = some type → type.SpelledIn text }

section MemberType
variable {f : Option TypeNode → Parser α} {Q : α → Prop} [∀ type?, Steady (f type?)]
  [hf : ∀ t : MemberType text, Gives text (f t.1) Q]

instance (priority := high) : Gives text (statedType? g >>= f) Q :=
  .bind statedType?_gives fun type? h => hf ⟨type?, h⟩

instance (priority := high) : Gives text (unseen (statedType? g) >>= f) Q :=
  have : Gives text (statedType? g) _ := statedType?_gives
  .bind Gives.unseen fun type? h => hf ⟨type?, h⟩

end MemberType

instance (name : String) (optional : Bool) (t : MemberType text) :
    Gives text (pure ⟨name, optional, t.1⟩) (Field.SpelledIn text) := .pure t.2

theorem field_gives (named : Bool) (name : String) : Gives text (field g named name) (Field.SpelledIn text) := by
  dsimp only [field]
  refine .after Steady.moves fun optional => .ite_step ?_
  infer_instance

instance (words : List String) : Steady (method g words) := by
  dsimp only [method]
  infer_instance

instance (named : Bool) (decoration : Gathered source Unit) (words : List String) :
    SteadyIn source (declaredMember g named decoration.1.2 words) := by
  dsimp only [declaredMember]
  infer_instance

instance (named : Bool) : Steady (classMember g named) := by
  dsimp only [classMember]
  infer_instance

theorem declaredMember_gives (named : Bool) (decoration : List Item) (words : List String) :
    Gives text (declaredMember g named decoration words) fun m? => ∀ m, m? = some m → m.SpelledIn text := by
  have hnone : Gives text (pure none) fun m? : Option Member => ∀ m, m? = some m → m.SpelledIn text :=
    .pure (by simp)
  have hsome : ∀ name, Gives text (do return some (← field g named name))
      fun m? => ∀ m, m? = some m → m.SpelledIn text := fun name =>
    .bind (field_gives named name) fun m hm => .pure (by simpa using hm)
  dsimp only [declaredMember]
  infer_instance

theorem classMember_gives (named : Bool) :
    Gives text (classMember g named) fun m? => ∀ m, m? = some m → m.SpelledIn text := by
  have hnone : Gives text (pure none) fun m? : Option Member => ∀ m, m? = some m → m.SpelledIn text :=
    .pure (by simp)
  have hdeclared := @declaredMember_gives text g hg named
  dsimp only [classMember]
  infer_instance

instance (named : Bool) : Steady (classBody g named) := by
  unfold classBody
  infer_instance

theorem classBody_gives (named : Bool) :
    Gives text (classBody g named) fun members => ∀ m ∈ members, m.SpelledIn text := by
  have hnone : Gives text (pure none) fun m?? : Option (Option Member) =>
      ∀ m?, m?? = some m? → ∀ m, m? = some m → m.SpelledIn text := .pure (by simp)
  have hsome : Gives text (do return some (← classMember g named)) fun m?? : Option (Option Member) =>
      ∀ m?, m?? = some m? → ∀ m, m? = some m → m.SpelledIn text :=
    .bind (classMember_gives named) fun m? hm? => .pure (by simpa using hm?)
  have hmany : Gives text (many do
      if ← atEnd then return none else return some (← classMember g named)) fun all =>
      ∀ m? ∈ all, ∀ m, m? = some m → m.SpelledIn text := .many inferInstance
  unfold classBody
  exact .bind .any fun _ _ => .bind .inScope fun members hmembers => .bind .any fun _ _ =>
    .pure (spelledIn_filterMap hmembers)

theorem classFrom_steady {decoration : List Item} (h : ItemsSound source decoration) :
    SteadyIn source (classFrom g decoration) := by
  have hall := emitAll_steady h
  have hbody : ∀ name heritage, TidyNames heritage → SteadyIn source (gather (classBody g true) >>= fun r =>
      emit (.classDecl name heritage r.1 (decoration ++ r.2))) := by
    intro name heritage hheritage
    refine .bind_gather (classBody_gives true) fun r hmembers hnested => ?_
    exact emit_steady (.single ⟨spelledIn_of_mem_filterMap hmembers, hheritage⟩ (h.append hnested))
  have hnamed : ∀ name, SteadyIn source (unseen (do
        typeParameters? g
        classHeritage g) >>= fun heritage => gather (classBody g true) >>= fun r =>
      emit (.classDecl name heritage r.1 (decoration ++ r.2))) := by
    intro name
    have hheritage : Gives source (classHeritage g) TidyNames := classHeritage_gives
    exact .bind_gives .unseen (hbody name)
  dsimp only [classFrom]
  infer_instance

/-- A class outside of any class has no decoration, or one that was gathered before. -/
instance : Steady (classFrom g []) := fun _ => classFrom_steady itemsSound_nil

instance (r : Gathered source α) : SteadyIn source (classFrom g r.1.2) := classFrom_steady r.2

instance : Steady (objectEntry g) := by
  dsimp only [objectEntry]
  infer_instance

instance : Steady (objectLiteral g) := by
  unfold objectLiteral
  infer_instance

instance : Steady (arrayLiteral g) := by
  dsimp only [arrayLiteral]
  infer_instance

instance : Steady (assignedPattern g) := by
  unfold assignedPattern
  infer_instance

instance {literal : Parser Operand} [Steady literal] : Steady (patternOr g literal) := by
  unfold patternOr
  refine .bind fun pattern => ?_
  cases pattern <;> dsimp only <;> infer_instance

instance : Steady (arrow? g) := by
  unfold arrow?
  refine .bind fun head => ?_
  cases head <;> dsimp only <;> infer_instance

instance : Steady (parenthesizedValue g) := by
  dsimp only [parenthesizedValue]
  infer_instance

instance : Steady (wordValue g) := by
  dsimp only [wordValue]
  refine .bind fun second => .bind fun scope => ?_
  split
  · infer_instance
  · refine .bind fun token => ?_
    split <;> infer_instance

theorem regexAt?_head {text : List Char} {width : Nat} (h : regexAt? text = some width) :
    text.head? = some '/' := by
  unfold regexAt? at h
  split at h
  · rfl
  · cases h

theorem takeChars_steadyAt {s : State} (h : s.MayJump) (width : Nat) : SteadyAt s (takeChars width) where
  moves _ hrun := by
    cases hrun
    exact .of_step (.jump h (s.ahead_past width)) rfl rfl

instance : Steady (primaryValue g) := by
  dsimp only [primaryValue]
  refine .get_bind fun start => ?_
  cases hkind : start.token.kind with
  | template => exact .bind (templateParts_steadyAt hkind)
  | mark =>
    refine .atMark_bind (.ite (fun _ => .of_steady) fun _ => ?_)
    refine .atMark_bind (.ite (fun _ => .of_steady) fun _ => ?_)
    refine .atMark_bind (.ite (fun _ => .of_steady) fun _ => ?_)
    refine .atMark_bind (.ite (fun _ => .of_steady) fun _ => ?_)
    refine .atMark_bind (.ite (fun _ => .of_steady) fun _ => ?_)
    split
    · rename_i width hwidth
      exact .bind (takeChars_steadyAt (.inr (.inl (regexAt?_head hwidth))) width)
    · exact .of_steady
  | _ =>
    dsimp only
    exact .of_steady

instance : Steady (callTypeArguments g) := by
  dsimp only [callTypeArguments]
  infer_instance

instance (frozen : Bool) : Steady (callLink g frozen) := by
  unfold callLink
  infer_instance

/-- A template is read only where one stands. -/
instance (priority := high) {inner : Parser Unit} [Steady inner] {p q : Parser α} [Steady p] [Steady q] :
    SteadyIn source (do if ← atKind .template then templateParts inner; p else q) where
  moves {scope s a t} hs hrun := by
    have hat : SteadyAt s (do if ← atKind .template then templateParts inner; p else q) := by
      refine .atKind_bind (.ite (fun hkind => ?_) fun _ => .of_steady)
      exact .bind (templateParts_steadyAt (eq_of_beq hkind))
    exact hat.moves hs hrun

instance (frozen : Bool) : Steady (optionalLink g frozen) := by
  dsimp only [optionalLink]
  infer_instance

instance (start : State) (frozen : Bool) : Steady (appliedLink? g start frozen) := by
  unfold appliedLink?
  refine .bind fun applied => .bind fun called => ?_
  cases called <;> dsimp only <;> infer_instance

instance (start : State) (value : Operand) : Steady (link? g start value) := by
  dsimp only [link?]
  infer_instance

instance : Steady (Syntax.operand g) := by
  dsimp only [Syntax.operand]
  infer_instance

instance : Steady (conditionBranches g) := by
  dsimp only [conditionBranches]
  infer_instance

theorem takeOperator_steadyAt {s : State} {kind : Operator} {width : Nat}
    (h : operatorAt? s.here = some (kind, width)) : SteadyAt s (takeChars width) where
  moves _ hrun := by
    cases hrun
    exact .of_step (.operator h) rfl rfl

instance (value : Operand) : Steady (rowStep? g value) := by
  dsimp only [rowStep?]
  refine .bind fun ends => ?_
  split
  · infer_instance
  · refine .get_bind fun s => .look_bind (fun h => by cases h; rfl) fun scope => ?_
    refine .ite (fun _ => .of_steady) fun _ => .ite (fun _ => .of_steady) fun _ => ?_
    refine .ite (fun _ => .of_steady) fun _ => ?_
    refine .look_bind (fun h => by cases h; rfl) fun atCondition => ?_
    refine .ite (fun _ => .of_steady) fun _ => .ite (fun _ => .of_steady) fun _ => ?_
    split
    · rename_i kind width hoperator
      exact .ite (fun _ => .of_steady) fun _ => .bind (takeOperator_steadyAt hoperator)
    · exact .of_steady

instance : Steady (anyValue g) := by
  unfold anyValue
  infer_instance

instance : Steady (anyValues g) := by
  unfold anyValues
  infer_instance

end DeclSchema.Syntax
