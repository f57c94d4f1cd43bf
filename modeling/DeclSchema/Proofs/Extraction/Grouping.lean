import DeclSchema.Proofs.Extraction.Merging
import DeclSchema.Proofs.Syntax.SteadyStatements
import DeclSchema.Proofs.Syntax.WrittenSources

/-! # Parentheses in the union of an alias

An alias of a union gives its name one value for every branch of the union. The branches are the
operands of the union, unless there are parentheses inside of it: those around a literal are looked
through, but what else stands in parentheses is one branch, however many operands it has, and its
value is its text with the parentheses.
-/
namespace DeclSchema
open Syntax Text

namespace Syntax.TypeNode

variable {type branch operand : TypeNode}

mutual

/-- What a type is a choice of, looking through unions and parentheses at any depth. -/
def operands : TypeNode → List TypeNode
  | union _ branches => operandsOfAll branches
  | parenthesized _ inner => inner.operands
  | type => [type]

def operandsOfAll : List TypeNode → List TypeNode
  | [] => []
  | type :: rest => type.operands ++ operandsOfAll rest

end

def isParenthesized : TypeNode → Bool
  | parenthesized _ _ => true
  | _ => false

def isGroup (type : TypeNode) : Bool := type.isUnion || type.isParenthesized

theorem operandsOfAll_eq_flatMap (types : List TypeNode) : operandsOfAll types = types.flatMap operands := by
  induction types with
  | nil => rw [operandsOfAll, List.flatMap_nil]
  | cons type rest ih => rw [operandsOfAll, ih, List.flatMap_cons]

theorem operands_of_group (h : type.isGroup = true) : type.operands = type.parts.flatMap operands := by
  cases type with
  | union text branches => rw [operands, operandsOfAll_eq_flatMap, parts]
  | parenthesized text inner => rw [operands, parts, List.flatMap_singleton]
  | _ => cases h

theorem operands_of_not_group (h : type.isGroup = false) : type.operands = [type] := by
  cases type with
  | union | parenthesized => cases h
  | _ => rfl

theorem operands_unparenthesized (type : TypeNode) : type.unparenthesized.operands = type.operands := by
  induction type using unparenthesized.induct with
  | case1 text inner ih => rw [unparenthesized, operands, ih]
  | case2 type h => rw [unparenthesized.eq_2 type h]

theorem unparenthesized_idem (type : TypeNode) : type.unparenthesized.unparenthesized = type.unparenthesized := by
  induction type using unparenthesized.induct with
  | case1 text inner ih => rw [unparenthesized, ih]
  | case2 type h => rw [unparenthesized.eq_2 type h, unparenthesized.eq_2 type h]

theorem isParenthesized_unparenthesized (type : TypeNode) : type.unparenthesized.isParenthesized = false := by
  induction type using unparenthesized.induct with
  | case1 text inner ih => rw [unparenthesized, ih]
  | case2 type h =>
    rw [unparenthesized.eq_2 type h]
    cases type with
    | parenthesized text inner => exact absurd rfl (h text inner)
    | _ => rfl

theorem unparenthesized_mem_nodes (type : TypeNode) : type.unparenthesized ∈ type.nodes := by
  induction type using unparenthesized.induct with
  | case1 text inner ih =>
    rw [unparenthesized, nodes]
    exact List.mem_cons_of_mem _ ih
  | case2 type h =>
    rw [unparenthesized.eq_2 type h]
    exact type.self_mem_nodes

/-- An operand is a type inside that is no group itself. -/
theorem mem_operands {type operand : TypeNode} (h : operand ∈ type.operands) :
    operand ∈ type.nodes ∧ operand.isGroup = false := by
  cases hgroup : type.isGroup with
  | false =>
    rw [operands_of_not_group hgroup] at h
    obtain rfl := List.mem_singleton.mp h
    exact ⟨self_mem_nodes _, hgroup⟩
  | true =>
    rw [operands_of_group hgroup] at h
    obtain ⟨part, hpart, hin⟩ := List.mem_flatMap.mp h
    obtain ⟨hnode, hplain⟩ := mem_operands hin
    exact ⟨mem_nodes_iff.mpr (.inr ⟨part, hpart, hnode⟩), hplain⟩
termination_by sizeOf type
decreasing_by exact sizeOf_lt_of_mem_parts hpart

theorem AllSpelled.parts_ne_nil (h : type.AllSpelled) (hgroup : type.isGroup = true) : type.parts ≠ [] := by
  cases type with
  | union text branches =>
    obtain ⟨-, _, _, -, hrow, -⟩ := (h _ (self_mem_nodes _)).woven
    intro hnil
    obtain rfl : branches = [] := hnil
    cases hrow
  | parenthesized text inner => exact List.cons_ne_nil _ _
  | _ => cases hgroup

/-- Every type that is read has operands. -/
theorem AllSpelled.operands_ne_nil {type : TypeNode} (h : type.AllSpelled) : type.operands ≠ [] := by
  cases hgroup : type.isGroup with
  | false => exact operands_of_not_group hgroup ▸ List.cons_ne_nil _ _
  | true =>
    obtain ⟨part, hpart⟩ := List.exists_mem_of_ne_nil _ (h.parts_ne_nil hgroup)
    obtain ⟨operand, hin⟩ := List.exists_mem_of_ne_nil _ (h.of_mem_parts hpart).operands_ne_nil
    rw [operands_of_group hgroup]
    exact List.ne_nil_of_mem (List.mem_flatMap.mpr ⟨part, hpart, hin⟩)
termination_by sizeOf type
decreasing_by exact sizeOf_lt_of_mem_parts hpart

theorem AllSpelled.unparenthesized (h : type.AllSpelled) : type.unparenthesized.AllSpelled :=
  fun node hnode => h node (nodes_subset type.unparenthesized_mem_nodes hnode)

/-- Parentheses have the texts of the operands inside of them. -/
theorem length_lt_of_mem_operands (h : type.AllSpelled) (hparens : type.isParenthesized = true)
    (hin : operand ∈ type.operands) : operand.text.toList.length < type.text.toList.length := by
  cases type with
  | parenthesized text inner =>
    rw [operands] at hin
    have hinner : inner.AllSpelled := h.of_mem_parts (List.mem_singleton_self inner)
    have hle := (hinner.text_isInfix (mem_operands hin).1).length_le
    obtain ⟨front, back, -, -, htext⟩ := (h _ (self_mem_nodes _)).woven
    rw [show (parenthesized text inner).text = text from rfl, htext]
    simp only [List.length_cons, List.length_append, List.length_nil]
    omega
  | _ => cases hparens

def branches (type : TypeNode) : List TypeNode :=
  match type.unparenthesized with
  | union _ branches => branches
  | _ => []

/-- The branch is without parentheses, or a literal is all that they hold. -/
def StandsAlone (branch : TypeNode) : Prop :=
  branch.isParenthesized = false ∨ ∃ text value, branch.unparenthesized = literal text value

/-- The parentheses of the branch hold a union with a mark but no choice, such as `(| A)`. -/
def HoldsBar (branch : TypeNode) : Prop := ∃ text operand, branch.unparenthesized = union text [operand]

theorem unparenthesized_eq_union (h : type.unparenthesized.isUnion = true) :
    ∃ text, type.unparenthesized = union text type.branches := by
  unfold branches
  cases hunion : type.unparenthesized with
  | union text branches => exact ⟨text, rfl⟩
  | _ =>
    rw [hunion] at h
    cases h

theorem operands_eq_flatMap_branches (h : type.unparenthesized.isUnion = true) :
    type.operands = type.branches.flatMap operands := by
  obtain ⟨text, hunion⟩ := unparenthesized_eq_union h
  rw [← operands_unparenthesized type, hunion, operands, operandsOfAll_eq_flatMap]

theorem AllSpelled.of_mem_branches (h : type.AllSpelled) (hunion : type.unparenthesized.isUnion = true)
    (hbranch : branch ∈ type.branches) : branch.AllSpelled ∧ branch.isUnion = false := by
  obtain ⟨text, heq⟩ := unparenthesized_eq_union hunion
  have hspelled := heq ▸ h.unparenthesized
  exact ⟨hspelled.of_mem_parts hbranch, (hspelled _ (self_mem_nodes _)).woven.1 branch hbranch⟩

theorem StandsAlone.values_eq (h : branch.StandsAlone) (hunion : branch.isUnion = false) :
    branch.operands.map Value.ofOperand = [Value.ofOperand branch] := by
  rcases h with hplain | ⟨text, value, hliteral⟩
  · rw [operands_of_not_group (by rw [isGroup, hunion, hplain, Bool.or_false]), List.map_singleton]
  · rw [← operands_unparenthesized branch, hliteral, Value.ofOperand, hliteral]
    rfl

theorem values_of_standsAlone {types : List TypeNode}
    (h : ∀ branch ∈ types, branch.isUnion = false ∧ branch.StandsAlone) :
    (types.flatMap operands).map Value.ofOperand = types.map Value.ofOperand := by
  rw [List.map_flatMap, List.map_eq_flatMap]
  exact List.flatMap_congr fun branch hbranch => (h branch hbranch).2.values_eq (h branch hbranch).1

end Syntax.TypeNode

theorem length_unquote_le (text : String) : (unquote text).toList.length ≤ text.toList.length := by
  have hinner : ∀ mark inner, between? mark text.toList = some inner → inner.length ≤ text.toList.length := by
    intro mark inner h
    obtain ⟨rest, hhead, htail⟩ := Option.bind_eq_some_iff.mp h
    rw [afterHead?_eq_some_iff.mp hhead, beforeTail?_eq_some_iff.mp htail]
    simp only [List.length_append]
    omega
  unfold unquote
  split
  · rw [String.toList_ofList]
    exact hinner _ _ ‹_›
  · split
    · rw [String.toList_ofList]
      exact hinner _ _ ‹_›
    · exact Nat.le_refl _

theorem Value.ofOperand_of_no_literal {type : TypeNode}
    (h : ∀ text value, type.unparenthesized ≠ .literal text value) :
    Value.ofOperand type = .string (unquote type.text) := by
  unfold Value.ofOperand
  split
  · exact absurd ‹_› (h _ _)
  · rfl

namespace Syntax.TypeNode

variable {branch operand : TypeNode}

theorem unquote_text_of_parenthesized (h : branch.AllSpelled) (hparens : branch.isParenthesized = true) :
    unquote branch.text = branch.text := by
  cases branch with
  | parenthesized text inner =>
    obtain ⟨front, back, -, -, htext⟩ := (h _ (self_mem_nodes _)).woven
    have hnone : ∀ mark, mark ≠ '(' → between? mark text.toList = none := fun mark hmark => by
      rw [htext, between?, afterHead?, if_neg hmark, Option.bind_none]
    show unquote text = text
    rw [unquote, hnone '"' (by decide), hnone '\'' (by decide)]
  | _ => cases hparens

theorem length_le_operands {types : List TypeNode} (h : ∀ type ∈ types, type.AllSpelled) :
    types.length ≤ (types.flatMap operands).length := by
  induction types with
  | nil => exact Nat.le_refl _
  | cons type rest ih =>
    obtain ⟨htype, hrest⟩ := List.forall_mem_cons.mp h
    have hpos := List.length_pos_iff.mpr htype.operands_ne_nil
    have hle := ih hrest
    rw [List.flatMap_cons, List.length_append, List.length_cons]
    omega

/-- Since every type has operands, no more values than types leave one value for each type. -/
theorem values_eq_of_flatMap_eq {types : List TypeNode} (h : ∀ type ∈ types, type.AllSpelled)
    (hvalues : (types.flatMap operands).map Value.ofOperand = types.map Value.ofOperand) :
    ∀ type ∈ types, type.operands.map Value.ofOperand = [Value.ofOperand type] := by
  induction types with
  | nil => exact fun _ htype => absurd htype List.not_mem_nil
  | cons type rest ih =>
    obtain ⟨htype, hrest⟩ := List.forall_mem_cons.mp h
    rw [List.flatMap_cons, List.map_append, List.map_cons] at hvalues
    have hone : type.operands.length = 1 := by
      have hpos := List.length_pos_iff.mpr htype.operands_ne_nil
      have hle := length_le_operands hrest
      have hlength := congrArg List.length hvalues
      simp only [List.length_append, List.length_map, List.length_cons] at hlength
      omega
    obtain ⟨operand, hoperand⟩ := List.length_eq_one_iff.mp hone
    rw [hoperand, List.map_singleton, List.singleton_append] at hvalues
    obtain ⟨hfirst, hlater⟩ := List.cons.inj hvalues
    exact List.forall_mem_cons.mpr ⟨by rw [hoperand, List.map_singleton, hfirst], ih hrest hlater⟩

theorem operands_of_unparenthesized_not_union (h : branch.unparenthesized.isUnion = false) :
    branch.operands = [branch.unparenthesized] := by
  rw [← operands_unparenthesized branch]
  exact operands_of_not_group (by rw [isGroup, h, isParenthesized_unparenthesized, Bool.or_false])

/-- One operand leaves room for one branch only. -/
theorem holdsBar_of_operands_eq (h : branch.AllSpelled) (hunion : branch.unparenthesized.isUnion = true)
    (hone : branch.operands = [operand]) : branch.HoldsBar := by
  obtain ⟨text, heq⟩ := unparenthesized_eq_union hunion
  have hlength : branch.branches.length = 1 := by
    have hle := length_le_operands fun type htype => (h.of_mem_branches hunion htype).1
    rw [operands_eq_flatMap_branches hunion] at hone
    rw [hone] at hle
    have hne : branch.branches ≠ [] := fun hnil => by
      rw [hnil] at hone
      cases hone
    exact Nat.le_antisymm hle (List.length_pos_iff.mpr hne)
  obtain ⟨only, honly⟩ := List.length_eq_one_iff.mp hlength
  exact ⟨text, only, honly ▸ heq⟩

/-- Without a literal the texts inside and outside of the parentheses are the values. -/
theorem value_unparenthesized_ne (h : branch.AllSpelled) (hparens : branch.isParenthesized = true)
    (hunion : branch.unparenthesized.isUnion = false)
    (hliteral : ∀ text value, branch.unparenthesized ≠ literal text value) :
    Value.ofOperand branch.unparenthesized ≠ Value.ofOperand branch := by
  rw [Value.ofOperand_of_no_literal hliteral,
    Value.ofOperand_of_no_literal (by rwa [unparenthesized_idem]), unquote_text_of_parenthesized h hparens]
  intro hvalue
  have hin : branch.unparenthesized ∈ branch.operands :=
    operands_of_unparenthesized_not_union hunion ▸ List.mem_singleton_self _
  have hle := length_unquote_le branch.unparenthesized.text
  have hlt := length_lt_of_mem_operands h hparens hin
  rw [Value.string.inj hvalue] at hle
  omega

/-- Only for literals is the value of a branch in parentheses that of its one operand. -/
theorem standsAlone_of_values_eq (h : branch.AllSpelled)
    (hvalues : branch.operands.map Value.ofOperand = [Value.ofOperand branch]) :
    branch.StandsAlone ∨ branch.HoldsBar := by
  obtain ⟨operand, hone, hvalue⟩ := List.map_eq_singleton_iff.mp hvalues
  cases hunion : branch.unparenthesized.isUnion with
  | true => exact .inr (holdsBar_of_operands_eq h hunion hone)
  | false =>
    obtain rfl : branch.unparenthesized = operand :=
      (List.cons.inj ((operands_of_unparenthesized_not_union hunion).symm.trans hone)).1
    cases hparens : branch.isParenthesized with
    | false => exact .inl (.inl hparens)
    | true =>
      refine .inl (.inr ?_)
      by_contra hnone
      exact value_unparenthesized_ne h hparens hunion (fun text value heq => hnone ⟨text, value, heq⟩) hvalue

end Syntax.TypeNode

mutual

theorem Syntax.Item.visits_eq_deep (item : Item) : item.visits = item.deep := by
  cases item with
  | classDecl name heritage members nested => rw [Item.visits, Item.deep, visitsOfAll_eq_deepOfAll nested]
  | namespaceDecl name items => rw [Item.visits, Item.deep, visitsOfAll_eq_deepOfAll items]
  | functionDecl name body => rw [Item.visits, Item.deep, visitsOfAll_eq_deepOfAll body]
  | _ => rfl

theorem Syntax.Item.visitsOfAll_eq_deepOfAll (items : List Item) :
    Item.visitsOfAll items = Item.deepOfAll items := by
  cases items with
  | nil => rfl
  | cons item rest =>
    rw [Item.visitsOfAll, Item.deepOfAll, visits_eq_deep item, visitsOfAll_eq_deepOfAll rest]

end

/-- A source with these items, where an alias for a union, up to the parentheses around it, is
the last item that settles the name. -/
structure UnionAlias (name source : String) (items : List Item) (type : TypeNode) : Prop where
  parsed : parseSource source = .ok items
  union : type.unparenthesized.isUnion = true
  last : ∃ after, SettlesLast name (Item.visitsOfAll items) (.aliasDecl name type) after

namespace UnionAlias
variable {name source : String} {items : List Item} {type : TypeNode}

theorem allSpelled (h : UnionAlias name source items type) : type.AllSpelled := by
  intro node hnode
  obtain ⟨after, hlast⟩ := h.last
  obtain ⟨before, hvisits⟩ := hlast.visited_eq
  have hvisited : .aliasDecl name type ∈ Item.deepOfAll items := by
    rw [← Item.visitsOfAll_eq_deepOfAll, hvisits]
    exact List.mem_append_right _ List.mem_cons_self
  exact parseSource_spelled h.parsed node ((Item.mem_nodesOfAll_iff_deep items).mpr
    ⟨_, hvisited, type, List.mem_singleton_self type, hnode⟩)

/-- There is one value for every branch. -/
theorem value?_eq (h : UnionAlias name source items type) :
    (Definitions.ofItems items).value? name = some (.enumerated (type.branches.map Value.ofOperand)) := by
  obtain ⟨after, hlast⟩ := h.last
  obtain ⟨text, hunion⟩ := TypeNode.unparenthesized_eq_union h.union
  exact Definitions.value?_ofItems_values hlast (.union hunion)

/-- The values are those of the operands if every branch stands alone. -/
theorem value?_of_standsAlone (h : UnionAlias name source items type)
    (halone : ∀ branch ∈ type.branches, branch.StandsAlone) :
    (Definitions.ofItems items).value? name = some (.enumerated (type.operands.map Value.ofOperand)) := by
  rw [h.value?_eq, TypeNode.operands_eq_flatMap_branches h.union,
    TypeNode.values_of_standsAlone fun branch hbranch =>
      ⟨(h.allSpelled.of_mem_branches h.union hbranch).2, halone branch hbranch⟩]

theorem standsAlone_of_value? (h : UnionAlias name source items type)
    (hvalue : (Definitions.ofItems items).value? name =
      some (.enumerated (type.operands.map Value.ofOperand))) :
    ∀ branch ∈ type.branches, branch.StandsAlone ∨ branch.HoldsBar := by
  rw [h.value?_eq, TypeNode.operands_eq_flatMap_branches h.union] at hvalue
  have hvalues := Definition.enumerated.inj (Option.some.inj hvalue)
  intro branch hbranch
  have hspelled : ∀ branch ∈ type.branches, branch.AllSpelled := fun branch hbranch =>
    (h.allSpelled.of_mem_branches h.union hbranch).1
  exact TypeNode.standsAlone_of_values_eq (hspelled branch hbranch)
    (TypeNode.values_eq_of_flatMap_eq hspelled hvalues.symm branch hbranch)

end UnionAlias

/-- Two aliases of a name whose unions have the same operands record the values of these, one for
each operand and in their order, if every branch of the two unions stands alone. Otherwise one of
them records something else, unless all that the parentheses around its branches hold is a single
operand behind a mark. -/
theorem union_aliases_record_operands {name source source' : String} {items items' : List Item}
    {type type' : TypeNode} (h : UnionAlias name source items type)
    (h' : UnionAlias name source' items' type') (hoperands : type.operands = type'.operands) :
    ((∀ branch ∈ type.branches ++ type'.branches, branch.StandsAlone) →
      (Definitions.ofItems items).value? name =
          some (.enumerated (type.operands.map Value.ofOperand)) ∧
        (Definitions.ofItems items').value? name = (Definitions.ofItems items).value? name) ∧
    ((Definitions.ofItems items).value? name =
        some (.enumerated (type.operands.map Value.ofOperand)) →
      (Definitions.ofItems items').value? name = (Definitions.ofItems items).value? name →
        ∀ branch ∈ type.branches ++ type'.branches, branch.StandsAlone ∨ branch.HoldsBar) := by
  constructor
  · intro halone
    obtain ⟨hfirst, hsecond⟩ := List.forall_mem_append.mp halone
    have hvalue := h.value?_of_standsAlone hfirst
    exact ⟨hvalue, by rw [hvalue, hoperands, h'.value?_of_standsAlone hsecond]⟩
  · intro hvalue hsame
    have hvalue' := hsame.trans hvalue
    rw [hoperands] at hvalue'
    exact List.forall_mem_append.mpr ⟨h.standsAlone_of_value? hvalue, h'.standsAlone_of_value? hvalue'⟩

namespace Role

def owner : TypeNode := .literal "'owner'" (.string "owner")

def editor : TypeNode := .literal "'editor'" (.string "editor")

def guest : TypeNode := .literal "'guest'" (.string "guest")

def flat : TypeNode := .union "'owner' | 'editor' | 'guest'" [owner, editor, guest]

def wrapped : TypeNode :=
  .parenthesized "('owner' | ('editor') | 'guest')"
    (.union "'owner' | ('editor') | 'guest'" [owner, .parenthesized "('editor')" editor, guest])

def grouped : TypeNode :=
  .union "('owner' | 'editor') | 'guest'"
    [.parenthesized "('owner' | 'editor')" (.union "'owner' | 'editor'" [owner, editor]), guest]

def items (type : TypeNode) : List Item := [.aliasDecl "Role" type]

example : sourceText .single (items grouped) = "type Role = ('owner' | 'editor') | 'guest';\n" := by
  decide +kernel

theorem unionAlias {type : TypeNode} (htype : type.Ordinary) (hunion : type.unparenthesized.isUnion = true) :
    UnionAlias "Role" (sourceText .single (items type)) (items type) type where
  parsed := parseSource_sourceText .single (List.forall_mem_singleton.mpr (.aliasDecl (by decide) htype))
  union := hunion
  last := ⟨[], ⟨[], rfl⟩, by simp⟩

theorem literals_ordinary : owner.Ordinary ∧ editor.Ordinary ∧ guest.Ordinary :=
  ⟨.quoted .single (by decide) (by decide), .quoted .single (by decide) (by decide),
    .quoted .single (by decide) (by decide)⟩

theorem flat_ordinary : flat.Ordinary := by
  obtain ⟨howner, heditor, hguest⟩ := literals_ordinary
  exact .union (by decide) (by simp [howner, heditor, hguest]) (by simp [owner, editor, guest, TypeNode.isUnion])
    (by decide)

theorem wrapped_ordinary : wrapped.Ordinary := by
  obtain ⟨howner, heditor, hguest⟩ := literals_ordinary
  have hinner : (TypeNode.parenthesized "('editor')" editor).Ordinary := .parenthesized heditor (by decide)
  exact .parenthesized (.union (by decide) (by simp [howner, hinner, hguest])
    (by simp [owner, guest, TypeNode.isUnion]) (by decide)) (by decide)

theorem grouped_ordinary : grouped.Ordinary := by
  obtain ⟨howner, heditor, hguest⟩ := literals_ordinary
  have hinner : (TypeNode.union "'owner' | 'editor'" [owner, editor]).Ordinary :=
    .union (by decide) (by simp [howner, heditor]) (by simp [owner, editor, TypeNode.isUnion]) (by decide)
  have hgroup : (TypeNode.parenthesized "('owner' | 'editor')"
      (.union "'owner' | 'editor'" [owner, editor])).Ordinary := .parenthesized hinner (by decide)
  exact .union (by decide) (by simp [hgroup, hguest]) (by simp [guest, TypeNode.isUnion]) (by decide)

theorem wrapped_records_operands :
    UnionAlias "Role" (sourceText .single (items wrapped)) (items wrapped) wrapped ∧
      UnionAlias "Role" (sourceText .single (items flat)) (items flat) flat ∧
      wrapped.operands = flat.operands ∧
      (∀ branch ∈ wrapped.branches ++ flat.branches, branch.StandsAlone) ∧
      (Definitions.ofItems (items wrapped)).value? "Role" =
        some (.enumerated [.string "owner", .string "editor", .string "guest"]) ∧
      (Definitions.ofItems (items flat)).value? "Role" =
        (Definitions.ofItems (items wrapped)).value? "Role" := by
  have hwrapped := unionAlias wrapped_ordinary rfl
  have hflat := unionAlias flat_ordinary rfl
  have halone : ∀ branch ∈ wrapped.branches ++ flat.branches, branch.StandsAlone := by
    simp [wrapped, flat, owner, editor, guest, TypeNode.branches, TypeNode.unparenthesized,
      TypeNode.StandsAlone]
  obtain ⟨hvalue, hsame⟩ := (union_aliases_record_operands hwrapped hflat rfl).1 halone
  exact ⟨hwrapped, hflat, rfl, halone, hvalue, hsame⟩

/-- Two literals in parentheses are one value, which is their text. -/
theorem grouped_records_text :
    UnionAlias "Role" (sourceText .single (items grouped)) (items grouped) grouped ∧
      UnionAlias "Role" (sourceText .single (items flat)) (items flat) flat ∧
      grouped.operands = flat.operands ∧
      (Definitions.ofItems (items grouped)).value? "Role" =
        some (.enumerated [.string "('owner' | 'editor')", .string "guest"]) ∧
      (Definitions.ofItems (items flat)).value? "Role" =
        some (.enumerated [.string "owner", .string "editor", .string "guest"]) :=
  ⟨unionAlias grouped_ordinary rfl, unionAlias flat_ordinary rfl, rfl, by decide, by decide⟩

end Role

end DeclSchema
