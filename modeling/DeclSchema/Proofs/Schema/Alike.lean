import DeclSchema.Proofs.Json.Writing
import DeclSchema.Schema.Basic

/-! # What the JSON form says about a schema

Two schemas have one JSON form exactly if they agree up to how a number is held, that is up to
the text of their numbers.
-/
namespace DeclSchema
open Json (treeItems treeMembers)

theorem Primitive.name_injective {p q : Primitive} (h : p.name = q.name) : p = q := by
  have hp := Primitive.ofName?_name p
  rw [h, Primitive.ofName?_name] at hp
  exact (Option.some.inj hp).symm

def Value.Alike : Value → Value → Prop
  | .boolean a, .boolean b => a = b
  | .number a, .number b => a.text = b.text
  | .string a, .string b => a = b
  | _, _ => False

theorem Value.tree_toJson_eq_iff (v w : Value) : v.toJson.tree = w.toJson.tree ↔ v.Alike w := by
  cases v <;> cases w <;> simp [Value.toJson, Value.Alike, Json.tree]

namespace Schema

mutual

/-- Schemas that agree in the order of their names, properties, required entries and values,
with numbers compared by their text. -/
def Alike : Schema → Schema → Prop
  | primitive p, primitive q => p = q
  | reference path, reference path' => path = path'
  | array items, array items' => Alike items items'
  | object properties required, object properties' required' =>
    AllAlike properties properties' ∧ required = required'
  | enumeration p values, enumeration q values' => p = q ∧ List.Forall₂ Value.Alike values values'
  | _, _ => False

def AllAlike : List (String × Schema) → List (String × Schema) → Prop
  | [], [] => True
  | (name, schema) :: rest, (name', schema') :: rest' =>
    name = name' ∧ Alike schema schema' ∧ AllAlike rest rest'
  | _, _ => False

end

theorem treeItems_eq_map (items : List Json) : treeItems items = items.map Json.tree := by
  induction items with
  | nil => rfl
  | cons item rest ih => rw [treeItems, ih, List.map_cons]

theorem treeItems_strings_eq_iff (names names' : List String) :
    treeItems (names.map .string) = treeItems (names'.map .string) ↔ names = names' := by
  rw [treeItems_eq_map, treeItems_eq_map, List.map_map, List.map_map]
  refine (List.map_injective_iff.mpr ?_).eq_iff
  intro s t h
  exact Json.Tree.string.inj h

theorem treeItems_values_eq_iff (values values' : List Value) :
    treeItems (values.map Value.toJson) = treeItems (values'.map Value.toJson) ↔
      List.Forall₂ Value.Alike values values' := by
  induction values generalizing values' with
  | nil =>
    cases values' with
    | nil => simp
    | cons w rest' => simp [treeItems]
  | cons v rest ih =>
    cases values' with
    | nil => simp [treeItems]
    | cons w rest' =>
      simp only [List.map_cons, treeItems, List.cons.injEq, List.forall₂_cons,
        Value.tree_toJson_eq_iff, ih]

/-- The members that hold the names that must be present. -/
theorem treeMembers_required_eq_iff (required required' : List String) :
    treeMembers (if required.isEmpty then [] else [("required", .array (required.map .string))]) =
      treeMembers (if required'.isEmpty then [] else [("required", .array (required'.map .string))])
      ↔ required = required' := by
  cases required with
  | nil => cases required' <;> simp [treeMembers]
  | cons name rest =>
    cases required' with
    | nil => simp [treeMembers]
    | cons name' rest' =>
      have hnames := treeItems_strings_eq_iff (name :: rest) (name' :: rest')
      simpa [treeMembers, Json.tree] using hnames

theorem treeMembers_append (members more : List (String × Json)) :
    treeMembers (members ++ more) = treeMembers members ++ treeMembers more := by
  induction members with
  | nil => rfl
  | cons member rest ih => rw [List.cons_append, treeMembers, ih, treeMembers, List.cons_append]

theorem tree_object (properties : List (String × Schema)) (required : List String) :
    (object properties required).toJson.tree =
      .object (("type", .string "object") :: ("properties", .object (treeMembers (membersToJson properties)))
        :: treeMembers (if required.isEmpty then [] else [("required", .array (required.map .string))])) := by
  rw [toJson, Json.tree, treeMembers_append]
  rfl

mutual

theorem tree_toJson_eq_iff : ∀ s t : Schema, s.toJson.tree = t.toJson.tree ↔ s.Alike t
  | primitive p, t => by
    cases t with
    | primitive q =>
      simp only [toJson, Json.tree, treeMembers, Alike]
      constructor
      · intro h
        simp at h
        exact Primitive.name_injective h
      · rintro rfl
        rfl
    | _ => simp [toJson, Json.tree, treeMembers, Alike]
  | reference path, t => by
    cases t with
    | _ => simp [toJson, Json.tree, treeMembers, Alike]
  | array items, t => by
    cases t with
    | array items' => simpa [toJson, Json.tree, treeMembers, Alike] using tree_toJson_eq_iff items items'
    | _ => simp [toJson, Json.tree, treeMembers, Alike]
  | object properties required, t => by
    cases t with
    | object properties' required' =>
      rw [tree_object, tree_object, Alike]
      simp only [Json.Tree.object.injEq, List.cons.injEq, Prod.mk.injEq, true_and,
        treeMembers_required_eq_iff]
      exact and_congr_left' (tree_membersToJson_eq_iff properties properties')
    | _ => simp [toJson, Json.tree, treeMembers, Alike]
  | enumeration p values, t => by
    cases t with
    | enumeration q values' =>
      simp only [toJson, Json.tree, treeMembers, Alike, Json.Tree.object.injEq, List.cons.injEq,
        Prod.mk.injEq, true_and, and_true, Json.Tree.string.injEq, Json.Tree.array.injEq,
        treeItems_values_eq_iff]
      refine and_congr_left' ⟨Primitive.name_injective, ?_⟩
      rintro rfl
      rfl
    | _ => simp [toJson, Json.tree, treeMembers, Alike]

theorem tree_membersToJson_eq_iff : ∀ ps qs : List (String × Schema),
    treeMembers (membersToJson ps) = treeMembers (membersToJson qs) ↔ AllAlike ps qs
  | [], [] => by simp [membersToJson, AllAlike]
  | [], _ :: _ => by simp [membersToJson, treeMembers, AllAlike]
  | _ :: _, [] => by simp [membersToJson, treeMembers, AllAlike]
  | (name, schema) :: rest, (name', schema') :: rest' => by
    simp only [membersToJson, treeMembers, AllAlike, List.cons.injEq, Prod.mk.injEq, and_assoc,
      tree_toJson_eq_iff schema schema', tree_membersToJson_eq_iff rest rest']

end

end Schema

def Document.Alike (document other : Document) : Prop := Schema.AllAlike document other

theorem Document.tree_toJson_eq_iff (document other : Document) :
    document.toJson.tree = other.toJson.tree ↔ document.Alike other := by
  rw [Document.toJson, Document.toJson, Json.tree, Json.tree, Json.Tree.object.injEq]
  exact Schema.tree_membersToJson_eq_iff document other

end DeclSchema
