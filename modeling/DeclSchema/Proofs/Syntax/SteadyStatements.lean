import DeclSchema.Proofs.Syntax.SteadyValues

/-! # The readers of statements are steady

With them every reader of the grammar is, at any depth, and so the declarations that a source gives
are sound in it.
-/
namespace DeclSchema.Syntax
open Text

variable {α β : Type} {source : List Char} {g : Grammar} [hg : g.Steady]

instance (name : String) (isConst : Bool) (members : List EnumMember) :
    Steady (emit (.enumDecl name isConst members)) :=
  fun _ => emit_steady (.single ⟨by simp [Item.types], tidyNames_nil⟩ itemsSound_nil)

instance (name : String) (r : Gathered source α) : SteadyIn source (emit (.namespaceDecl name r.1.2)) :=
  emit_steady (.single ⟨by simp [Item.types], tidyNames_nil⟩ r.2)

instance (name : String) (r : Gathered source α) : SteadyIn source (emit (.functionDecl name r.1.2)) :=
  emit_steady (.single ⟨by simp [Item.types], tidyNames_nil⟩ r.2)

instance : Steady (extendedInterface g) := by
  dsimp only [extendedInterface]
  infer_instance

instance : Steady (interfaceDeclaration g) := by
  intro source
  have hrest : ∀ entries, Gives source (do return (heritageNames entries, ← typeMembers g)) fun r =>
      TidyNames r.1 ∧ ∀ m ∈ r.2, m.SpelledIn source := fun entries =>
    .bind typeMembers_gives fun members h => .pure ⟨tidyNames_heritageNames entries, h⟩
  dsimp only [interfaceDeclaration]
  refine .bind fun _ => .bind fun name => ?_
  exact .bind_gives (P := fun r => TidyNames r.1 ∧ ∀ m ∈ r.2, m.SpelledIn source) inferInstance fun r hr =>
    emit_steady (.single ⟨spelledIn_of_mem_filterMap hr.2, hr.1⟩ itemsSound_nil)

instance : Steady (aliasDeclaration g) := by
  intro source
  have hrest : ∀ name (type : TypeNode), type.SpelledIn source → SteadyIn source (do
      emit (.aliasDecl name type)
      terminator .afterType) := by
    intro name type h
    have hemit : SteadyIn source (emit (.aliasDecl name type)) :=
      emit_steady (.single ⟨List.forall_mem_singleton.mpr h, tidyNames_nil⟩ itemsSound_nil)
    infer_instance
  dsimp only [aliasDeclaration]
  refine .bind fun _ => .bind fun name => ?_
  exact .bind_gives (P := TypeNode.SpelledIn source) inferInstance (hrest name)

instance : Steady (enumMember g) := by
  dsimp only [enumMember]
  infer_instance

instance : Steady enumSeparator := by
  dsimp only [enumSeparator]
  infer_instance

instance : Steady (enumMembers g) := by
  dsimp only [enumMembers]
  infer_instance

instance : Steady (enumDeclaration g) := by
  unfold enumDeclaration
  infer_instance

instance : Steady (functionDeclaration g) := by
  dsimp only [functionDeclaration]
  infer_instance

instance : Steady (namespaceFrom g) := by
  dsimp only [namespaceFrom]
  infer_instance

instance (r : Gathered source α) : SteadyIn source (classDeclaration g r.1.2) := by
  dsimp only [classDeclaration]
  infer_instance

instance : Steady (classDeclaration g []) := by
  dsimp only [classDeclaration]
  infer_instance

instance (name : String) (t : MemberType source) (initializer : Option Initializer) :
    SteadyIn source (emit (.constantDecl name t.1 initializer)) :=
  emit_steady (.single ⟨fun type htype => t.2 type (Option.mem_toList.mp htype), tidyNames_nil⟩ itemsSound_nil)

instance (priority := high) {change : Scope → Scope} {f : Option TypeNode → Parser α}
    [hf : ∀ t : MemberType source, SteadyIn source (f t.1)] :
    SteadyIn source (inScope change (unseen (statedType? g)) >>= f) :=
  have : Gives source (statedType? g) _ := statedType?_gives
  .bind_gives .inScope fun type? h => hf ⟨type?, h⟩

instance (first : Bool) : Steady (declarator g first) := by
  dsimp only [declarator]
  infer_instance

instance : Steady (declarators g) := by
  unfold declarators
  infer_instance

instance : Steady (variableDeclaration g) := by
  unfold variableDeclaration
  infer_instance

instance : Steady namesFollowing := by
  unfold namesFollowing
  infer_instance

instance : Steady stringFollowing := by
  unfold stringFollowing
  infer_instance

instance : Steady (declaration? g) := by
  dsimp only [declaration?]
  refine .bind fun s => ?_
  split
  · infer_instance
  · split <;> infer_instance

instance : Steady moduleName := by
  unfold moduleName
  infer_instance

instance : Steady specifier := by
  dsimp only [specifier]
  infer_instance

instance : Steady specifiers := by
  dsimp only [specifiers]
  infer_instance

instance : Steady (moduleSource g) := by
  dsimp only [moduleSource]
  infer_instance

instance : Steady (fromClause g) := by
  unfold fromClause
  infer_instance

instance : Steady importedNames := by
  unfold importedNames
  infer_instance

instance : Steady importTarget := by
  unfold importTarget
  infer_instance

instance : Steady (importStatement g) := by
  dsimp only [importStatement]
  infer_instance

instance : Steady atAmbient := by
  unfold atAmbient
  infer_instance

instance : Steady (ambientFrom g) := by
  dsimp only [ambientFrom]
  infer_instance

instance : Steady (exportDefault g) := by
  dsimp only [exportDefault]
  infer_instance

instance : Steady (exportFrom g) := by
  dsimp only [exportFrom]
  refine .bind fun second => ?_
  infer_instance

instance : Steady (valueStatement g) := by
  unfold valueStatement
  infer_instance

instance : Steady (parenthesized g) := by
  unfold parenthesized
  infer_instance

instance : Steady (eachHead g) := by
  dsimp only [eachHead]
  infer_instance

instance : Steady (countHead g) := by
  dsimp only [countHead]
  infer_instance

instance : Steady (loopHead g) := by
  have hhead : Steady (do
      match ← optionally (eachHead g) with
      | some () => discard g.values
      | none =>
        countHead g
        if !(← atMark ";") then discard g.values
        expect ";"
        if !(← atMark ")") then discard g.values) := by
    refine .bind fun head => ?_
    cases head <;> dsimp only <;> infer_instance
  unfold loopHead
  infer_instance

instance : Steady (forStatement g) := by
  unfold forStatement
  infer_instance

instance : Steady (ifStatement g) := by
  unfold ifStatement
  infer_instance

instance : Steady (switchCase g) := by
  dsimp only [switchCase]
  infer_instance

instance : Steady (switchStatement g) := by
  dsimp only [switchStatement]
  infer_instance

instance : Steady (tryStatement g) := by
  dsimp only [tryStatement]
  infer_instance

instance : Steady (doStatement g) := by
  unfold doStatement
  infer_instance

instance {p : Parser Unit} [Steady p] : Steady (jumpStatement p) := by
  unfold jumpStatement
  infer_instance

instance : Steady (decoratedStatement g) := by
  dsimp only [decoratedStatement]
  infer_instance

instance : Steady (wordStatement? g) := by
  dsimp only [wordStatement?]
  refine .bind fun s => ?_
  split <;> infer_instance

instance : Steady (anyStatement g) := by
  dsimp only [anyStatement]
  refine .get_bind fun s => .accept_bind (inferInstanceAs (Steady (pure ()))) ?_
  rw [if_neg Bool.false_ne_true]
  exact .ite (fun hcomment => takeChars_steadyAt (.inr (.inr hcomment)) _) fun _ => .of_steady

instance : Grammar.failing.Steady where
  type := inferInstanceAs (Steady exhausted)
  typeOperand := inferInstanceAs (Steady exhausted)
  value := inferInstanceAs (Steady exhausted)
  values := inferInstanceAs (Steady exhausted)
  operand := inferInstanceAs (Steady exhausted)
  pattern := inferInstanceAs (Steady exhausted)
  statement := inferInstanceAs (Steady exhausted)
  spelled := ⟨fun _ h => by cases h⟩
  spans := ⟨fun _ h => by cases h⟩

instance : g.around.Steady where
  type := inferInstanceAs (Steady (anyType g))
  typeOperand := inferInstanceAs (Steady (Syntax.typeOperand g))
  value := inferInstanceAs (Steady (anyValue g))
  values := inferInstanceAs (Steady (anyValues g))
  operand := inferInstanceAs (Steady (Syntax.operand g))
  pattern := inferInstanceAs (Steady (bindingPattern g))
  statement := inferInstanceAs (Steady (anyStatement g))
  spelled := inferInstanceAs (Spelling (anyType g))
  spans := inferInstanceAs (Spanning (anyType g))

instance Grammar.ofDepth_steady (depth : Nat) : (Grammar.ofDepth depth).Steady := by
  induction depth with
  | zero => exact inferInstanceAs Grammar.failing.Steady
  | succ depth ih => exact inferInstanceAs (Grammar.ofDepth depth).around.Steady

omit hg in
theorem outerStatement_eq_ok {scope : Scope} {s t : State} {a : Unit}
    (h : outerStatement g scope s = .ok (a, t)) : soundly g.statement scope s = .ok (a, t) := by
  unfold outerStatement at h
  split at h
  · dsimp only at h
    split at h
    · split at h <;> cases h
    · cases h
  · exact h

instance : SteadyIn source (outerStatement g) where
  moves hs h := SteadyIn.moves (p := soundly g.statement) hs (outerStatement_eq_ok h)

instance : Steady (wholeSource g) := by
  unfold wholeSource
  infer_instance

/-- The declarations of a source are sound in it. -/
theorem parse_sound {source : List Char} {items : List Item} (h : parse source = .ok items) :
    ItemsSound source items := by
  unfold parse at h
  split at h
  · rename_i s hrun
    cases h
    have hplaced : (State.first source).PlacedIn source := by
      refine ⟨rfl, ?_⟩
      show (readGap 0 false (source.drop (interpreterLine source).length)).rest <:+ source
      rw [readGap_rest]
      exact (List.drop_suffix _ _).trans (List.drop_suffix _ _)
    exact ((SteadyIn.moves hplaced hrun).sound itemsSound_nil).reverse
  · cases h

theorem parseSource_sound {source : String} {items : List Item} (h : parseSource source = .ok items) :
    ItemsSound source.toList items := by
  unfold parseSource Except.mapError at h
  split at h
  · cases h
  · rename_i hparse
    cases h
    exact parse_sound hparse

theorem parseSource_spelled {source : String} {items : List Item} (h : parseSource source = .ok items) :
    ItemsSpelled items := fun node hnode => ((parseSource_sound h).spelledIn hnode).all node node.self_mem_nodes

end DeclSchema.Syntax
