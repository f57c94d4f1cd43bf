import DeclSchema.Proofs.Inheritance.Declarations
import DeclSchema.Proofs.Inheritance.Gathering

/-! # The final properties of a structure

Every untangled name ends up with its table in the ancestry of the source. Along heritage
without cycles these tables are the only solution of the recursion along the bases.
-/
namespace DeclSchema
open Syntax

def Definition.receiving (d : Definition) (properties? : Option (Table Property)) : Definition :=
  match d, properties? with
  | structural _, some properties => structural properties
  | d, _ => d

namespace Definitions
variable {a : Ancestry} {definitions : Definitions} {heritage : Heritage} {name : String}

theorem inherit_eq_map (definitions : Definitions) (heritage : Heritage) :
    definitions.inherit heritage = definitions.map fun entry =>
      (entry.1, entry.2.receiving ((inheritedTables definitions heritage).value? entry.1)) := by
  unfold inherit
  apply List.map_congr_left
  rintro ⟨name, d⟩ _
  cases d with
  | structural own =>
    cases h : (inheritedTables definitions heritage).value? name with
    | none => simp only [h]; rfl
    | some t => simp only [h]; rfl
  | enumerated values => rfl

theorem value?_inherit (definitions : Definitions) (heritage : Heritage) (name : String) :
    (definitions.inherit heritage).value? name =
      (definitions.value? name).map (·.receiving ((inheritedTables definitions heritage).value? name)) := by
  rw [inherit_eq_map]
  exact Table.value?_map
    (fun other (d : Definition) => d.receiving ((inheritedTables definitions heritage).value? other)) _ _

theorem names_inherit (definitions : Definitions) (heritage : Heritage) :
    Table.names (definitions.inherit heritage) = Table.names definitions := by
  rw [inherit_eq_map, Table.names, List.map_map]
  rfl

/-- No name is defined twice. -/
theorem nodup_names_ofItems (items : List Item) : (Table.names (ofItems items)).Nodup := by
  unfold ofItems
  rw [names_inherit]
  exact nodup_names_ofDeclarations _

theorem own_of_structural (hd : a.Describes definitions heritage) {own : Table Property}
    (hv : definitions.value? name = some (.structural own)) : a.own name = some own := by
  rw [hd.own_eq, ownProperties?, hv]
  rfl

theorem structural_of_own (hd : a.Describes definitions heritage) {own : Table Property}
    (ho : a.own name = some own) : definitions.value? name = some (.structural own) := by
  rw [hd.own_eq] at ho
  obtain ⟨d, hv, hp⟩ := Option.bind_eq_some_iff.mp ho
  cases d with
  | structural properties =>
    cases hp
    exact hv
  | enumerated values => cases hp

theorem mem_names_of_bases (hd : a.Describes definitions heritage) (hb : a.bases name ≠ []) :
    name ∈ Table.names heritage := by
  cases hv : heritage.value? name with
  | none => exact absurd (by rw [hd.bases_eq, hv, Option.getD_none]) hb
  | some bases => exact Table.mem_names_iff.mpr ⟨bases, hv⟩

/-- The known tables at the end are those of the untangled names that have bases. -/
theorem inheritedTables_sound (hd : a.Describes definitions heritage) (hu : a.Untangled name)
    {own : Table Property} (ho : a.own name = some own) :
    (inheritedTables definitions heritage).value? name = a.table name ∨
      (inheritedTables definitions heritage).value? name = none ∧ a.table name = some own := by
  obtain ⟨results, hrun⟩ := gathers_inheritedTables hd
  obtain ⟨hsound, _⟩ := hrun.sound (.nil _ _) (fun _ _ _ hk => by cases hk)
  cases hk : (inheritedTables definitions heritage).value? name with
  | some t => exact .inl (hsound name t hu hk).symm
  | none =>
    refine .inr ⟨rfl, Ancestry.table_of_bases_nil ho ?_⟩
    by_contra hb
    rcases hrun.known_of_mem (mem_names_of_bases hd hb) (by simp [ho]) hb with hp | ⟨t, ht⟩
    · cases hp
    · exact Option.some_ne_none t (ht.symm.trans hk)

/-- An untangled name keeps its definition, where a structure receives its table. -/
theorem value?_inherit_of_untangled (hd : a.Describes definitions heritage)
    (hu : a.Untangled name) :
    (definitions.inherit heritage).value? name =
      (definitions.value? name).map (·.receiving (a.table name)) := by
  rw [value?_inherit]
  cases hv : definitions.value? name with
  | none => rfl
  | some d =>
    cases d with
    | enumerated values => rfl
    | structural own =>
      rcases inheritedTables_sound hd hu (own_of_structural hd hv) with ht | ⟨hnone, ht⟩
      · rw [ht]
      · rw [hnone, ht]
        rfl

theorem ownProperties?_inherit_of_untangled (hd : a.Describes definitions heritage)
    (hu : a.Untangled name) :
    (definitions.inherit heritage).ownProperties? name = a.table name := by
  rw [ownProperties?, value?_inherit_of_untangled hd hu]
  cases hv : definitions.value? name with
  | none =>
    rw [Ancestry.table_eq_none (by rw [hd.own_eq, ownProperties?, hv, Option.bind_none])]
    rfl
  | some d =>
    cases d with
    | enumerated values =>
      rw [Ancestry.table_eq_none (by rw [hd.own_eq, ownProperties?, hv]; rfl)]
      rfl
    | structural own =>
      cases ht : a.table name with
      | none =>
        exfalso
        rw [Ancestry.table, own_of_structural hd hv] at ht
        cases ht
      | some t => rfl

end Definitions

theorem Ancestry.describes_ofItems (items : List Item) :
    (ofItems items).Describes (Definitions.ofDeclarations (Declaration.ofItems items))
      (Heritage.ofDeclarations (Declaration.ofItems items)) where
  own_eq := rfl
  bases_eq name := (Heritage.bases_ofDeclarations _ name).symm
  ne_nil := Heritage.value?_ne_nil _

/-- Without cycles in the heritage, the final properties of the structures of a source are
the one solution of the recursion along the bases. A name that is no structure has none. -/
theorem ofItems_solves_recursion (items : List Item) (h : (Ancestry.ofItems items).Acyclic)
    (tables : String → Option (Table Property)) :
    (Ancestry.ofItems items).Solves tables ↔ tables = (Definitions.ofItems items).ownProperties? := by
  have hfinal : (Definitions.ofItems items).ownProperties? = (Ancestry.ofItems items).table := by
    funext name
    exact Definitions.ownProperties?_inherit_of_untangled (Ancestry.describes_ofItems items)
      (h.untangled name)
  rw [hfinal]
  constructor
  · intro hs
    exact h.solves_unique hs h.solves_table
  · rintro rfl
    exact h.solves_table

/-- A diamond with a second declaration of its lowest name, which adds a base. -/
def diamond : List Item :=
  [plainInterface "Low" ["Left", "Right"] [("a", "low")],
   plainInterface "Left" ["Top"] [("b", "left"), ("a", "left")],
   plainInterface "Low" ["Added", "Left"] [("d", "low")],
   plainInterface "Right" ["Missing", "Top"] [("c", "right"), ("b", "right")],
   plainInterface "Top" [] [("a", "top"), ("b", "top")],
   plainInterface "Added" [] [("e", "added")]]

theorem diamond_solves_recursion :
    (Ancestry.ofItems diamond).Acyclic ∧
      (Ancestry.ofItems diamond).Solves (Definitions.ofItems diamond).ownProperties? ∧
      (Definitions.ofItems diamond).ownProperties? "Low" =
        some [("a", ⟨"low", false⟩), ("b", ⟨"left", false⟩), ("c", ⟨"right", false⟩),
          ("e", ⟨"added", false⟩), ("d", ⟨"low", false⟩)] := by
  have hmeasure : ∀ dec ∈ Declaration.ofItems diamond, ∀ base ∈ dec.basesFor dec.name,
      base = "Missing" ∨ ["Top", "Added", "Left", "Right", "Low"].idxOf base <
        ["Top", "Added", "Left", "Right", "Low"].idxOf dec.name := by
    decide
  have hmissing : (Ancestry.ofItems diamond).own "Missing" = none := by decide
  have h : (Ancestry.ofItems diamond).Acyclic := by
    apply Ancestry.acyclic_of_lt (["Top", "Added", "Left", "Right", "Low"].idxOf ·)
    intro name base hi
    obtain ⟨dec, hdec, hb⟩ := Ancestry.mem_bases_ofItems.mp hi.listed
    obtain rfl := Declaration.name_eq_of_mem_basesFor hb
    rcases hmeasure dec hdec base hb with rfl | hlt
    · exact absurd hi.structure_base (by simp [hmissing])
    · exact hlt
  exact ⟨h, (ofItems_solves_recursion diamond h _).mpr rfl, by decide⟩

end DeclSchema
