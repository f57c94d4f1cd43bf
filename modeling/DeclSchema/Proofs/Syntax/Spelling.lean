import DeclSchema.Primitive
import DeclSchema.Proofs.Syntax.Trail
import DeclSchema.Proofs.Syntax.Woven

/-! # How declarations are spelled

The text of a type has no white space at its ends and is made of the texts of its parts, with marks,
white space and comments between them. `Spelled` says so of one type; the types inside of it are
counted among its nodes. Items are sound in a source if the texts of all their types are parts of it
and if the names in their heritage are tidy.
-/
namespace DeclSchema.Syntax
open Text

namespace TypeNode

mutual

def nodes : TypeNode → List TypeNode
  | reference text name args => reference text name args :: nodesOfAll args
  | literal text value => [literal text value]
  | array text element => array text element :: nodes element
  | union text operands => union text operands :: nodesOfAll operands
  | intersection text operands => intersection text operands :: nodesOfAll operands
  | object text members => object text members :: nodesOfMembers members
  | tuple text elements => tuple text elements :: nodesOfAll elements
  | parenthesized text inner => parenthesized text inner :: nodes inner
  | other text => [other text]

def nodesOfAll : List TypeNode → List TypeNode
  | [] => []
  | type :: rest => nodes type ++ nodesOfAll rest

def nodesOfMembers : List (Field TypeNode) → List TypeNode
  | [] => []
  | ⟨_, _, some type⟩ :: rest => nodes type ++ nodesOfMembers rest
  | ⟨_, _, none⟩ :: rest => nodesOfMembers rest

end

theorem mem_nodesOfAll_iff {node : TypeNode} {types : List TypeNode} :
    node ∈ nodesOfAll types ↔ ∃ type ∈ types, node ∈ type.nodes := by
  induction types with
  | nil => simp [nodesOfAll]
  | cons type rest ih => simp [nodesOfAll, ih]

theorem mem_nodesOfMembers_iff {node : TypeNode} {members : List Member} :
    node ∈ nodesOfMembers members ↔ ∃ type ∈ members.filterMap (·.type?), node ∈ type.nodes := by
  induction members with
  | nil => simp [nodesOfMembers]
  | cons m rest ih =>
    obtain ⟨name, optional, type?⟩ := m
    cases type? <;> simp [nodesOfMembers, ih]

theorem self_mem_nodes (type : TypeNode) : type ∈ type.nodes := by
  cases type <;> simp [nodes]

def parts : TypeNode → List TypeNode
  | reference _ _ args => args
  | array _ element => [element]
  | union _ operands | intersection _ operands => operands
  | object _ members => members.filterMap (·.type?)
  | tuple _ elements => elements
  | parenthesized _ inner => [inner]
  | literal _ _ | other _ => []

theorem mem_nodes_iff {node type : TypeNode} :
    node ∈ type.nodes ↔ node = type ∨ ∃ part ∈ type.parts, node ∈ part.nodes := by
  cases type with
  | object => rw [nodes, parts, List.mem_cons, mem_nodesOfMembers_iff]
  | _ => simp [nodes, parts, mem_nodesOfAll_iff]

theorem sizeOf_lt_of_mem_parts {part type : TypeNode} (h : part ∈ type.parts) : sizeOf part < sizeOf type := by
  cases type with
  | object text members =>
    obtain ⟨⟨name, optional, type?⟩, hm, htype⟩ := List.mem_filterMap.mp h
    obtain rfl : type? = some part := htype
    have hmember := List.sizeOf_lt_of_mem hm
    simp only [Field.mk.sizeOf_spec, Option.some.sizeOf_spec, object.sizeOf_spec] at hmember ⊢
    omega
  | array | parenthesized =>
    obtain rfl := List.mem_singleton.mp h
    simp only [array.sizeOf_spec, parenthesized.sizeOf_spec]
    omega
  | reference | union | intersection | tuple =>
    have hpart := List.sizeOf_lt_of_mem h
    simp only [parts] at hpart
    simp only [reference.sizeOf_spec, union.sizeOf_spec, intersection.sizeOf_spec, tuple.sizeOf_spec]
    omega
  | literal | other => cases h

/-- What is inside of a type inside is inside. -/
theorem nodes_subset {node type : TypeNode} (h : node ∈ type.nodes) : node.nodes ⊆ type.nodes := by
  rcases mem_nodes_iff.mp h with rfl | ⟨part, hpart, hin⟩
  · exact List.Subset.refl _
  · exact fun inner hinner => mem_nodes_iff.mpr (.inr ⟨part, hpart, nodes_subset hin hinner⟩)
termination_by sizeOf type
decreasing_by exact sizeOf_lt_of_mem_parts hpart

end TypeNode

namespace Item

mutual

def nodes : Item → List TypeNode
  | interfaceDecl _ _ members => TypeNode.nodesOfMembers members
  | classDecl _ _ members nested => TypeNode.nodesOfMembers members ++ nodesOfAll nested
  | aliasDecl _ type => type.nodes
  | enumDecl _ _ _ => []
  | constantDecl _ (some type) _ => type.nodes
  | constantDecl _ none _ => []
  | namespaceDecl _ items => nodesOfAll items
  | functionDecl _ body => nodesOfAll body

def nodesOfAll : List Item → List TypeNode
  | [] => []
  | item :: rest => nodes item ++ nodesOfAll rest

end

def inside : Item → List Item
  | classDecl _ _ _ nested => nested
  | namespaceDecl _ items => items
  | functionDecl _ body => body
  | interfaceDecl _ _ _ | aliasDecl _ _ | enumDecl _ _ _ | constantDecl _ _ _ => []

def types : Item → List TypeNode
  | interfaceDecl _ _ members | classDecl _ _ members _ => members.filterMap (·.type?)
  | aliasDecl _ type => [type]
  | constantDecl _ type? _ => type?.toList
  | enumDecl _ _ _ | namespaceDecl _ _ | functionDecl _ _ => []

def heritage : Item → List String
  | interfaceDecl _ heritage _ | classDecl _ heritage _ _ => heritage
  | _ => []

mutual

def deep : Item → List Item
  | classDecl name heritage members nested => classDecl name heritage members nested :: deepOfAll nested
  | namespaceDecl name items => namespaceDecl name items :: deepOfAll items
  | functionDecl name body => functionDecl name body :: deepOfAll body
  | item => [item]

def deepOfAll : List Item → List Item
  | [] => []
  | item :: rest => deep item ++ deepOfAll rest

end

theorem deep_eq (item : Item) : item.deep = item :: deepOfAll item.inside := by
  cases item <;> simp [deep, deepOfAll, inside]

theorem mem_deepOfAll_iff {other : Item} {items : List Item} :
    other ∈ deepOfAll items ↔ ∃ item ∈ items, other ∈ item.deep := by
  induction items with
  | nil => simp [deepOfAll]
  | cons item rest ih => simp [deepOfAll, ih]

theorem mem_nodes_iff {node : TypeNode} {item : Item} :
    node ∈ item.nodes ↔ (∃ type ∈ item.types, node ∈ type.nodes) ∨ node ∈ nodesOfAll item.inside := by
  cases item with
  | constantDecl name type? initializer => cases type? <;> simp [nodes, types, inside, nodesOfAll]
  | _ => simp [nodes, types, inside, nodesOfAll, -List.mem_filterMap, TypeNode.mem_nodesOfMembers_iff]

theorem sizeOf_inside_le (item : Item) : sizeOf item.inside ≤ sizeOf item := by
  cases item <;> simp [inside] <;> omega

/-- The types of items are those that the items at any depth state themselves. -/
theorem mem_nodesOfAll_iff_deep {node : TypeNode} : ∀ items : List Item,
    node ∈ nodesOfAll items ↔ ∃ item ∈ deepOfAll items, ∃ type ∈ item.types, node ∈ type.nodes
  | [] => by simp [nodesOfAll, deepOfAll]
  | item :: rest => by
    have hinside := @mem_nodesOfAll_iff_deep node item.inside
    have hrest := @mem_nodesOfAll_iff_deep node rest
    simp only [nodesOfAll, deepOfAll, deep_eq, List.mem_append, mem_nodes_iff, hinside, hrest, List.mem_cons,
      or_and_right, exists_or, exists_eq_left]
termination_by items => sizeOf items
decreasing_by
  · have hinside := item.sizeOf_inside_le
    simp only [List.cons.sizeOf_spec]
    omega
  · simp only [List.cons.sizeOf_spec]
    omega

end Item

def EndsWith (text : String) (c : Char) : Prop := text.toList.getLast? = some c

namespace TypeNode

def isUnion : TypeNode → Bool
  | union _ _ => true
  | _ => false

def isIntersection : TypeNode → Bool
  | intersection _ _ => true
  | _ => false

def isRow (type : TypeNode) : Bool := type.isUnion || type.isIntersection

/-- A name with arguments in angle brackets behind it. White space that the name has at its ends is not
part of its text, and commas may stand around the arguments. -/
structure Applied (text name : List Char) (args : List (List Char)) : Prop where
  trimmed : trim name = name
  named : Named name
  woven : ∃ before gap front row back, AllBlank before ∧ Filler [] gap ∧ Filler [','] front ∧
    Row (Between ',') args row ∧ Filler [','] back ∧
      text = trim (before ++ (name ++ (gap ++ '<' :: (front ++ (row ++ (back ++ ['>']))))))

/-- The text of a type against its kind and against the texts of its parts. -/
def Woven : TypeNode → Prop
  | reference text name [] => text = name ∧ Named name.toList
  | reference text name (arg :: more) =>
      Applied text.toList name.toList ((arg :: more).map (·.text.toList))
  | literal text _ =>
      Primitive.ofName? text = none ∧ ¬ EndsWith text ']' ∧ ¬ EndsWith text ')' ∧ ¬ EndsWith text '>'
  | array text element => element.isUnion = false ∧
      ∃ before gap inside, AllBlank before ∧ Filler [] gap ∧ Filler [] inside ∧
        text.toList = trim (before ++ (element.text.toList ++ (gap ++ '[' :: (inside ++ [']']))))
  | union text operands => (∀ operand ∈ operands, operand.isUnion = false) ∧
      ∃ front row, Filler ['|'] front ∧ Row (Between '|') (operands.map (·.text.toList)) row ∧
        text.toList = trim (front ++ row)
  | object text _ => EndsWith text '}'
  | tuple text _ => EndsWith text ']'
  | parenthesized text inner => ∃ front back, Filler [] front ∧ Filler [] back ∧
      text.toList = '(' :: (front ++ (inner.text.toList ++ (back ++ [')'])))
  | intersection text operands => (∀ operand ∈ operands, operand.isIntersection = false) ∧
      ∃ front row, Filler ['&'] front ∧ Row (Between '&') (operands.map (·.text.toList)) row ∧
        ('&' ∈ front ∨ operands.length ≠ 1) ∧ text.toList = trim (front ++ row)
  | other text => Primitive.ofName? text = none

/-- The text of a type is trimmed, it is woven from its parts, and it has their texts in it. -/
structure Spelled (node : TypeNode) : Prop where
  trimmed : trim node.text.toList = node.text.toList
  woven : node.Woven
  nested : ∀ part ∈ node.parts, part.text.toList <:+: node.text.toList

def AllSpelled (type : TypeNode) : Prop := ∀ node ∈ type.nodes, node.Spelled

theorem AllSpelled.of_mem_parts {type part : TypeNode} (h : type.AllSpelled) (hpart : part ∈ type.parts) :
    part.AllSpelled := fun node hnode => h node (mem_nodes_iff.mpr (.inr ⟨part, hpart, hnode⟩))

/-- The text of a type has the texts of all types inside of it in it. -/
theorem AllSpelled.text_isInfix {type : TypeNode} (h : type.AllSpelled) {node : TypeNode} (hnode : node ∈ type.nodes) :
    node.text.toList <:+: type.text.toList := by
  rcases mem_nodes_iff.mp hnode with rfl | ⟨part, hpart, hin⟩
  · exact List.infix_rfl
  · exact ((h.of_mem_parts hpart).text_isInfix hin).trans ((h type type.self_mem_nodes).nested part hpart)
termination_by sizeOf type
decreasing_by exact sizeOf_lt_of_mem_parts hpart

structure SpelledIn (text : List Char) (type : TypeNode) : Prop where
  all : type.AllSpelled
  within : type.text.toList <:+: text

end TypeNode

def Field.SpelledIn (text : List Char) (m : Member) : Prop := ∀ type, m.type? = some type → type.SpelledIn text

def ItemsSpelled (items : List Item) : Prop := ∀ node ∈ Item.nodesOfAll items, node.Spelled

/-- A name without type arguments and without white space at its ends. -/
structure TidyName (name : String) : Prop where
  nonempty : name ≠ ""
  trimmed : trim name.toList = name.toList
  plain : '<' ∉ name.toList

structure TidyNames (names : List String) : Prop where
  nodup : names.Nodup
  tidy : ∀ name ∈ names, TidyName name

theorem tidyNames_nil : TidyNames [] := ⟨List.nodup_nil, fun _ h => absurd h List.not_mem_nil⟩

theorem tidyName_of_heritageName? {text name : String} (h : heritageName? text = some name) : TidyName name := by
  unfold heritageName? at h
  dsimp only at h
  split at h
  · cases h
  · rename_i hne
    cases h
    refine ⟨fun hnil => hne ?_, ?_, ?_⟩
    · rw [← String.toList_inj, String.toList_ofList] at hnil
      rw [hnil]
      rfl
    · rw [String.toList_ofList, trim_trim]
    · rw [String.toList_ofList]
      intro hmem
      have hstop := List.mem_takeWhile_imp ((trim_isInfix _).subset hmem)
      simp at hstop

/-- A name is added to tidy names unless it is one of them. -/
theorem TidyNames.foldl {names more : List String} (h : TidyNames names) (hmore : ∀ name ∈ more, TidyName name) :
    TidyNames (more.foldl (fun names name => if names.contains name then names else names ++ [name]) names) := by
  induction more generalizing names with
  | nil => exact h
  | cons name rest ih =>
    obtain ⟨hname, hrest⟩ := List.forall_mem_cons.mp hmore
    rw [List.foldl_cons]
    refine ih ?_ hrest
    split
    · exact h
    · rename_i hnew
      have hnot : name ∉ names := by simpa using hnew
      exact ⟨List.nodup_append.mpr ⟨h.nodup, by simp, by grind⟩,
        List.forall_mem_append.mpr ⟨h.tidy, List.forall_mem_singleton.mpr hname⟩⟩

theorem tidyNames_heritageNames (entries : List String) : TidyNames (heritageNames entries) := by
  refine tidyNames_nil.foldl fun name hname => ?_
  obtain ⟨text, -, htext⟩ := List.mem_filterMap.mp hname
  exact tidyName_of_heritageName? htext

/-- The texts of the types that an item states itself are parts of the source, and its heritage is tidy. -/
structure Item.Sound (source : List Char) (item : Item) : Prop where
  types : ∀ type ∈ item.types, type.SpelledIn source
  heritage : TidyNames item.heritage

def ItemsSound (source : List Char) (items : List Item) : Prop := ∀ item ∈ Item.deepOfAll items, item.Sound source

section Sound
variable {source : List Char} {item : Item} {items more : List Item}

theorem itemsSound_iff : ItemsSound source items ↔ ∀ item ∈ items, ∀ other ∈ item.deep, other.Sound source := by
  simp only [ItemsSound, Item.mem_deepOfAll_iff]
  exact ⟨fun h item hitem other hother => h other ⟨item, hitem, hother⟩,
    fun h other ⟨item, hitem, hother⟩ => h item hitem other hother⟩

theorem itemsSound_nil : ItemsSound source [] := itemsSound_iff.mpr fun _ h => absurd h List.not_mem_nil

theorem itemsSound_cons : ItemsSound source (item :: items) ↔ ItemsSound source [item] ∧ ItemsSound source items := by
  simp [itemsSound_iff]

theorem ItemsSound.append (h : ItemsSound source items) (hmore : ItemsSound source more) :
    ItemsSound source (items ++ more) :=
  itemsSound_iff.mpr (List.forall_mem_append.mpr ⟨itemsSound_iff.mp h, itemsSound_iff.mp hmore⟩)

theorem ItemsSound.reverse (h : ItemsSound source items) : ItemsSound source items.reverse :=
  itemsSound_iff.mpr fun item hitem => itemsSound_iff.mp h item (List.mem_reverse.mp hitem)

theorem ItemsSound.single (h : item.Sound source) (hinside : ItemsSound source item.inside) :
    ItemsSound source [item] := by
  rw [itemsSound_iff, List.forall_mem_singleton, Item.deep_eq]
  exact List.forall_mem_cons.mpr ⟨h, hinside⟩

theorem ItemsSound.spelledIn (h : ItemsSound source items) {node : TypeNode} (hnode : node ∈ Item.nodesOfAll items) :
    node.SpelledIn source := by
  obtain ⟨item, hitem, type, htype, hin⟩ := (Item.mem_nodesOfAll_iff_deep items).mp hnode
  have hspelled := (h item hitem).types type htype
  exact ⟨fun part hpart => hspelled.all part (TypeNode.nodes_subset hin hpart),
    (hspelled.all.text_isInfix hin).trans hspelled.within⟩

end Sound

end DeclSchema.Syntax
