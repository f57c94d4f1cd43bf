import DeclSchema.Definition
import DeclSchema.Proofs.Table
import Mathlib.Data.Set.Card
import Mathlib.Logic.Relation

/-! # Ancestry

An ancestry holds the own properties of each structure and the bases of each name, without
any order of declarations. A structure inherits along its bases as far as they do not lead
back to it, which gives every name one table.
-/
namespace DeclSchema

structure Ancestry where
  own : String → Option (Table Property)
  bases : String → List String
  finite : {name | (own name).isSome}.Finite
  nodup_own : ∀ {name t}, own name = some t → t.names.Nodup

namespace Ancestry
variable {a : Ancestry} {name base other : String}

theorem ext_of_eq {a b : Ancestry} (ho : a.own = b.own) (hb : a.bases = b.bases) : a = b := by
  cases a
  cases b
  simp_all

structure Inherits (a : Ancestry) (name base : String) : Prop where
  listed : base ∈ a.bases name
  structure_name : (a.own name).isSome
  structure_base : (a.own base).isSome

abbrev Leads (a : Ancestry) : String → String → Prop := Relation.ReflTransGen a.Inherits

def Acyclic (a : Ancestry) : Prop := ∀ name, ¬ Relation.TransGen a.Inherits name name

/-- No two different names above this one lead to each other. -/
def Untangled (a : Ancestry) (name : String) : Prop :=
  ∀ other, a.Leads name other → ∀ third, a.Leads other third → a.Leads third other → third = other

theorem Untangled.of_leads (h : a.Untangled name) (hl : a.Leads name other) : a.Untangled other :=
  fun _ ho => h _ (hl.trans ho)

theorem isSome_of_leads (hne : name ≠ other) (hl : a.Leads name other) : (a.own name).isSome := by
  rcases Relation.ReflTransGen.cases_head hl with he | ⟨_, hi, _⟩
  · exact absurd he hne
  · exact hi.structure_name

theorem bases_ne_nil_of_leads (hne : name ≠ other) (hl : a.Leads name other) :
    a.bases name ≠ [] := by
  rcases Relation.ReflTransGen.cases_head hl with he | ⟨_, hi, _⟩
  · exact absurd he hne
  · exact List.ne_nil_of_mem hi.listed

theorem untangled_of_no_bases (h : ∀ base, ¬ a.Inherits name base) : a.Untangled name := by
  have hstay : ∀ other, a.Leads name other → other = name := by
    intro other hl
    rcases Relation.ReflTransGen.cases_head hl with he | ⟨base, hi, _⟩
    · exact he.symm
    · exact absurd hi (h base)
  intro other ho third hot _
  obtain rfl := hstay other ho
  exact hstay third hot

theorem Acyclic.untangled (h : a.Acyclic) (name : String) : a.Untangled name := by
  intro other _ third hot hto
  rcases Relation.reflTransGen_iff_eq_or_transGen.mp hot with he | ht
  · exact he
  · exact absurd (ht.trans_left hto) (h other)

theorem acyclic_of_lt (measure : String → Nat)
    (h : ∀ name base, a.Inherits name base → measure base < measure name) : a.Acyclic := by
  intro name hc
  have hlt : ∀ other, Relation.TransGen a.Inherits name other → measure other < measure name := by
    intro other ho
    induction ho with
    | single hi => exact h _ _ hi
    | tail _ hi ih => exact (h _ _ hi).trans ih
  exact lt_irrefl _ (hlt name hc)

noncomputable def rank (a : Ancestry) (name : String) : Nat :=
  {other | (a.own other).isSome ∧ a.Leads name other}.ncard

theorem rank_lt (h : a.Inherits name base) (hback : ¬ a.Leads base name) :
    a.rank base < a.rank name := by
  apply Set.ncard_lt_ncard
  · refine ⟨fun other ho => ⟨ho.1, .head h ho.2⟩, fun hsub => hback ?_⟩
    exact (hsub ⟨h.structure_name, .refl⟩).2
  · exact a.finite.subset fun other ho => ho.1

open Classical in
/-- The properties of a structure over the tables of its bases, where a base that leads
back to the name counts with its own properties. -/
noncomputable def table (a : Ancestry) (name : String) : Option (Table Property) :=
  (a.own name).map fun own => own.overlay <| (a.bases name).filterMap fun base =>
    if _h : a.Inherits name base ∧ ¬ a.Leads base name then a.table base else a.own base
termination_by a.rank name
decreasing_by exact rank_lt _h.1 _h.2

theorem table_eq_none (h : a.own name = none) : a.table name = none := by
  rw [table, h]
  rfl

theorem table_of_bases_nil {own : Table Property} (ho : a.own name = some own)
    (hb : a.bases name = []) : a.table name = some own := by
  rw [table, ho, hb]
  simp [a.nodup_own ho]

theorem Untangled.table_eq (h : a.Untangled name) {own : Table Property}
    (ho : a.own name = some own) :
    a.table name = some (own.overlay ((a.bases name).filterMap fun base =>
      if base = name then a.own base else a.table base)) := by
  rw [table, ho, Option.map_some]
  congr 2
  apply List.filterMap_congr
  intro base hb
  have hname : (a.own name).isSome := by simp [ho]
  by_cases hs : (a.own base).isSome
  · have hi : a.Inherits name base := ⟨hb, hname, hs⟩
    by_cases hn : base = name
    · have hback : ¬ (a.Inherits name base ∧ ¬ a.Leads base name) := fun hc => hc.2 (hn ▸ .refl)
      rw [dif_neg hback, if_pos hn]
    · have hback : ¬ a.Leads base name := fun hl => hn (h name .refl base (.single hi) hl)
      simp [hi, hback, hn]
  · have hnone : a.own base = none := by simpa using hs
    have hi : ¬ a.Inherits name base := fun hi => hs hi.structure_base
    simp [hi, hnone, table_eq_none hnone]

/-- The tables satisfy the recursion: own properties over those of the bases. -/
def Solves (a : Ancestry) (tables : String → Option (Table Property)) : Prop :=
  ∀ name, tables name = (a.own name).map fun own => own.overlay ((a.bases name).filterMap tables)

theorem Solves.eq_none {tables : String → Option (Table Property)} (h : a.Solves tables)
    (ho : a.own name = none) : tables name = none := by
  rw [h name, ho]
  rfl

theorem Acyclic.solves_table (h : a.Acyclic) : a.Solves a.table := by
  intro name
  cases ho : a.own name with
  | none => rw [table_eq_none ho, Option.map_none]
  | some own =>
    rw [(h.untangled name).table_eq ho, Option.map_some]
    congr 2
    apply List.filterMap_congr
    intro base hb
    have hname : (a.own name).isSome := by simp [ho]
    have hne : base ≠ name := fun he =>
      h name (.single ⟨he ▸ hb, hname, hname⟩)
    rw [if_neg hne]

/-- Along heritage without cycles the recursion has only one solution. -/
theorem Acyclic.solves_unique (h : a.Acyclic) {tables tables' : String → Option (Table Property)}
    (ht : a.Solves tables) (ht' : a.Solves tables') : tables = tables' := by
  funext name
  induction hr : a.rank name using Nat.strongRecOn generalizing name with
  | _ n ih =>
    cases ho : a.own name with
    | none => rw [ht.eq_none ho, ht'.eq_none ho]
    | some own =>
      rw [ht name, ht' name, ho, Option.map_some, Option.map_some]
      congr 2
      apply List.filterMap_congr
      intro base hb
      cases hob : a.own base with
      | none => rw [ht.eq_none hob, ht'.eq_none hob]
      | some _ =>
        have hi : a.Inherits name base := ⟨hb, by simp [ho], by simp [hob]⟩
        have hback : ¬ a.Leads base name := fun hl => h name (.head' hi hl)
        exact ih (a.rank base) (hr ▸ rank_lt hi hback) base rfl

end Ancestry
end DeclSchema
