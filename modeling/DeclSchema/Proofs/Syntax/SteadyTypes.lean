import DeclSchema.Proofs.Syntax.Steady

/-! # The readers of types are steady

Beside that, every type they give is spelled. What stands inside of a type is read by a grammar
one level further down, of which both are assumed.
-/
namespace DeclSchema.Syntax
open Text

structure Spans (s t : State) (type : TypeNode) : Prop where
  ahead : s.Ahead t
  text : type.text = s.textTo t

class Spanning (p : Parser TypeNode) : Prop where
  spans : ∀ {scope s type t}, s.Placed → p scope s = .ok (type, t) → Spans s t type

class Spelling (p : Parser TypeNode) : Prop where
  spelled : ∀ {scope s type t}, s.Placed → p scope s = .ok (type, t) → type.AllSpelled

class Grammar.Steady (g : Grammar) : Prop where
  type : Syntax.Steady g.type
  typeOperand : Syntax.Steady g.typeOperand
  value : Syntax.Steady g.value
  values : Syntax.Steady g.values
  operand : Syntax.Steady g.operand
  pattern : Syntax.Steady g.pattern
  statement : Syntax.Steady g.statement
  spelled : Spelling g.type
  spans : Spanning g.type

attribute [instance] Grammar.Steady.type Grammar.Steady.typeOperand Grammar.Steady.value
  Grammar.Steady.values Grammar.Steady.operand Grammar.Steady.pattern Grammar.Steady.statement
  Grammar.Steady.spelled Grammar.Steady.spans

theorem Spans.infix_of_covered {text : List Char} {s t u v : State} {type : TypeNode} (h : Spans u v type)
    (hcovered : State.Covered text s t) (hsu : s.Reaches u) (hvt : v.Reaches t) : type.text.toList <:+: text := by
  rw [h.text]
  exact hcovered u v hsu h.ahead hvt

instance {text : List Char} {p : Parser TypeNode} [Steady p] [hspans : Spanning p] [hspelled : Spelling p] :
    Gives text p (TypeNode.SpelledIn text) where
  moves := Steady.moves
  holds {_ s _ t} hs h hcovered := ⟨hspelled.spelled hs h,
    (hspans.spans hs h).infix_of_covered hcovered s.reaches_self t.reaches_self⟩

variable {α : Type} {g : Grammar} [hg : g.Steady]

instance (close : String) : Throws (unclosed close : Parser α) where
  throws scope s := by
    unfold unclosed
    rw [get_bind]
    split <;> exact ⟨_, rfl⟩

instance : Throws (brokenString : Parser α) where
  throws scope s := by
    unfold brokenString
    rw [get_bind]
    split
    · exact ⟨_, rfl⟩
    · exact Throws.throws scope s

instance (colon : State) : Throws (untyped colon : Parser α) where
  throws scope s := by
    unfold untyped
    rw [get_bind]
    split
    · exact Throws.throws scope s
    · exact ⟨_, rfl⟩

instance : Steady (propertyName g) := by
  unfold propertyName
  refine .bind fun start => ?_
  split <;> infer_instance

instance : Steady modifies := by
  dsimp only [modifies]
  infer_instance

instance (orders : List ModifierOrder) : Steady (modifiers orders) := by
  dsimp only [modifiers]
  infer_instance

instance : Steady (statedType g) := by
  unfold statedType
  infer_instance

instance : Steady (statedType? g) := by
  unfold statedType?
  infer_instance

instance : Steady (initializer? g) := by
  unfold initializer?
  infer_instance

instance : Steady (typeArguments g) := by
  unfold typeArguments
  infer_instance

instance : Steady (arguments g) := by
  dsimp only [arguments]
  infer_instance

instance : Steady (decorator g) := by
  dsimp only [decorator]
  infer_instance

instance : Steady (decorators g) := by
  unfold decorators
  infer_instance

instance : Steady (typeParameter g) := by
  dsimp only [typeParameter]
  infer_instance

instance : Steady (typeParameters? g) := by
  unfold typeParameters?
  infer_instance

instance : Steady (parameter g) := by
  dsimp only [parameter]
  infer_instance

instance : Steady (parameters g) := by
  dsimp only [parameters]
  infer_instance

instance : Steady (resultType g) := by
  dsimp only [resultType]
  infer_instance

instance : Steady (resultType? g) := by
  dsimp only [resultType?]
  infer_instance

instance : Steady (signature g) := by
  unfold signature
  infer_instance

instance : Steady atSignature := by
  unfold atSignature
  infer_instance

instance : Steady atIndexSignature := by
  dsimp only [atIndexSignature]
  infer_instance

instance : Steady (indexSignature g) := by
  dsimp only [indexSignature]
  infer_instance

instance (words : List String) : Steady (namedMember g words) := by
  dsimp only [namedMember]
  infer_instance

instance (signed : Bool) : Steady (modifiedMember g signed) := by
  dsimp only [modifiedMember]
  infer_instance

instance : Steady (typeMember g) := by
  dsimp only [typeMember]
  infer_instance

instance : Steady memberSeparator := by
  dsimp only [memberSeparator]
  infer_instance

instance : Steady (typeMembers g) := by
  dsimp only [typeMembers]
  infer_instance

instance : Steady qualifiedName := by
  unfold qualifiedName
  infer_instance

instance : Steady (functionTypeHead g) := by
  unfold functionTypeHead
  infer_instance

instance : Steady (tupleElement g) := by
  dsimp only [tupleElement]
  infer_instance

instance : Steady (innerType g) := by
  unfold innerType
  infer_instance

instance : Steady (functionHeadOr g) := by
  unfold functionHeadOr
  infer_instance

omit hg in
/-- Either the head of a function type was read, or else a type in parentheses. -/
theorem functionHeadOr_eq_ok {scope : Scope} {s t : State} {inner? : Option TypeNode}
    (h : functionHeadOr g scope s = .ok (inner?, t)) :
    (inner? = none ∧ functionTypeHead g scope s = .ok ((), t)) ∨
      ∃ inner, inner? = some inner ∧ innerType g scope s = .ok (inner, t) := by
  have hinner : (some <$> innerType g) scope s = .ok (inner?, t) →
      ∃ inner, inner? = some inner ∧ innerType g scope s = .ok (inner, t) := by
    intro hrun
    obtain ⟨inner, hplain, hsome⟩ := map_eq_ok.mp hrun
    exact ⟨inner, hsome, hplain⟩
  rw [functionHeadOr, get_bind] at h
  split at h
  · rcases either_eq_ok h with hrun | hrun
    · obtain ⟨_, u, hhead, hpure⟩ := bind_eq_ok.mp hrun
      cases hpure
      exact .inl ⟨rfl, hhead⟩
    · exact .inr (hinner hrun)
  · exact .inr (hinner (blaming_eq_ok h))

instance : Steady (parenthesizedType g) := by
  dsimp only [parenthesizedType]
  refine .bind fun start => .bind fun inner => ?_
  cases inner <;> dsimp only <;> infer_instance

instance : Steady (typeQuery g) := by
  dsimp only [typeQuery]
  infer_instance

instance : Steady (wordType g) := by
  dsimp only [wordType]
  refine .bind fun start => .bind fun second => ?_
  split <;> infer_instance

/-- The same place or one further on, with nothing more recorded but what is sound. -/
structure Onward (source : List Char) (s t : State) : Prop where
  reaches : s.Reaches t
  placed : t.Placed
  keeps : s.found <:+ t.found
  sound : ItemsSound source s.found → ItemsSound source t.found

section Onward
variable {source : List Char} {s t u : State}

theorem MovesIn.onward (h : MovesIn source s t) : Onward source s t := ⟨h.reaches, h.placed, h.keeps, h.sound⟩

theorem State.Ahead.onward (h : s.Ahead t) (hfound : t.found = s.found) : Onward source s t :=
  ⟨.inr h, h.placed, ⟨[], hfound.symm⟩, fun hsound => by rwa [hfound]⟩

theorem Onward.trans (hst : Onward source s t) (htu : Onward source t u) : Onward source s u where
  reaches := hst.reaches.trans htu.reaches
  placed := htu.placed
  keeps := hst.keeps.trans htu.keeps
  sound h := htu.sound (hst.sound h)

/-- Where each step goes on further, so do all of them. -/
theorem ahead_of_many {p : Parser (Option α)}
    (hp : ∀ {scope s a t}, s.PlacedIn source → p scope s = .ok (a, t) → s.Ahead t ∧ Onward source s t)
    {scope : Scope} {all : List α} (hs : s.PlacedIn source) (h : many p scope s = .ok (all, t)) :
    s.Ahead t ∧ Onward source s t := by
  refine many_invariant (I := fun s _ t => s.PlacedIn source → s.Ahead t ∧ Onward source s t) ?_ ?_ h hs
  · exact fun hone hs => hp hs hone
  · intro s a u rest t hone hrest hs
    obtain ⟨hahead, honward⟩ := hp hs hone
    obtain ⟨haheadRest, honwardRest⟩ := hrest (hs.of_reaches honward.reaches honward.placed)
    exact ⟨hahead.trans haheadRest, honward.trans honwardRest⟩

end Onward

theorem templateParts_onward {source : List Char} {inner : Parser Unit} [Steady inner] {scope : Scope} {s t : State}
    {a : Unit} (hs : s.PlacedIn source) (hrun : templateParts inner scope s = .ok (a, t)) :
    s.Ahead t ∧ Onward source s t := by
  obtain ⟨all, hmany, -⟩ := map_eq_ok.mp hrun
  refine ahead_of_many ?_ hs hmany
  intro scope s part t hs hpart
  obtain ⟨_, _, hget, hpart⟩ := bind_eq_ok.mp hpart
  cases hget
  dsimp only at hpart
  generalize templateText (s.here.drop 1) = text at hpart
  split at hpart
  · obtain ⟨_, u, htake, hpart⟩ := bind_eq_ok.mp hpart
    cases htake
    cases hpart
    exact ⟨s.ahead_past _, (s.ahead_past _).onward rfl⟩
  · obtain ⟨_, u, htake, hpart⟩ := bind_eq_ok.mp hpart
    cases htake
    have hrest : Steady (do
        enclosed inner
        if !(← atMark "\x7d") then stuck
        return some () : Parser (Option Unit)) := by
      dsimp only
      infer_instance
    have honward := ((hrest source).moves (hs.past _) hpart).onward
    exact ⟨(s.ahead_past _).reaches honward.reaches, ((s.ahead_past _).onward rfl).trans honward⟩
  · split at hpart <;> cases hpart

/-- A template is passed in one jump, whatever is read inside of it. -/
theorem templateParts_steadyAt {s : State} (h : s.token.kind = .template) {inner : Parser Unit}
    [Steady inner] : SteadyAt s (templateParts inner) where
  moves hs hrun := by
    obtain ⟨hahead, honward⟩ := templateParts_onward hs hrun
    exact ⟨⟨.single (.jump (.inl h) hahead), honward.placed, honward.keeps⟩, honward.sound⟩

instance : Steady (primaryType g) := by
  dsimp only [primaryType]
  refine .get_bind fun start => ?_
  cases hkind : start.token.kind with
  | template => exact .bind (templateParts_steadyAt hkind)
  | _ =>
    dsimp only
    exact .of_steady

instance (start : State) (type : TypeNode) : Steady (typeSuffix? g start type) := by
  dsimp only [typeSuffix?]
  infer_instance

instance : Steady (Syntax.typeOperand g) := by
  dsimp only [Syntax.typeOperand]
  refine .bind fun start => ?_
  infer_instance

instance (mark : String) (p : Parser TypeNode) [Steady p] : Steady (typeRow mark p) := by
  dsimp only [typeRow]
  infer_instance

instance : Steady (intersectionType g) := by
  dsimp only [intersectionType]
  refine .bind fun start => .bind fun row => ?_
  split <;> infer_instance

instance : Steady (unionType g) := by
  dsimp only [unionType]
  refine .bind fun start => .bind fun row => ?_
  split <;> infer_instance

instance : Steady (anyType g) := by
  dsimp only [anyType]
  infer_instance

end DeclSchema.Syntax
