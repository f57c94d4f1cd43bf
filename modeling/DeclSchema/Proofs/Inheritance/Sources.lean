import DeclSchema.Proofs.Inheritance.Recursion

/-! # Where the properties of a structure come from

Collecting ends on every heritage, since a name that is open already is not opened again. What is
collected is sound even where names lead to each other and a table is finished while one of its
bases was cut off: a table keeps the own properties of its name, mentions those of its bases, and
holds nothing that no name above it owns.
-/
namespace DeclSchema
open Syntax

namespace Gathers
variable {a : Ancestry} {path names : List String} {known known' : Inherited}
  {results : List (Table Property)}

/-- What gathering gives depends on nothing but what is known before. -/
theorem unique {results' : List (Table Property)} {known'' : Inherited}
    (h : Gathers a path known names results known') (h' : Gathers a path known names results' known'') :
    results = results' ∧ known' = known'' := by
  induction h generalizing results' known'' with
  | nil =>
    cases h'
    exact ⟨rfl, rfl⟩
  | recalled hk _ ih =>
    cases h' with
    | recalled hk' hrest =>
      cases hk.symm.trans hk'
      obtain ⟨rfl, rfl⟩ := ih hrest
      exact ⟨rfl, rfl⟩
    | skip hk' | plain hk' | merge hk' => cases hk.symm.trans hk'
  | skip hk ho _ ih =>
    cases h' with
    | skip _ _ hrest => exact ih hrest
    | recalled hk' => cases hk.symm.trans hk'
    | plain _ ho' | merge _ ho' => cases ho.symm.trans ho'
  | plain hk ho hplain _ ih =>
    cases h' with
    | plain _ ho' _ hrest =>
      cases ho.symm.trans ho'
      obtain ⟨rfl, rfl⟩ := ih hrest
      exact ⟨rfl, rfl⟩
    | recalled hk' => cases hk.symm.trans hk'
    | skip _ ho' => cases ho.symm.trans ho'
    | merge _ _ hb hoff => exact absurd hplain (not_or.mpr ⟨hb, hoff⟩)
  | merge hk ho hb hoff _ _ ihlower ihrest =>
    cases h' with
    | merge _ ho' _ _ hlower hrest =>
      cases ho.symm.trans ho'
      obtain ⟨rfl, rfl⟩ := ihlower hlower
      obtain ⟨rfl, rfl⟩ := ihrest hrest
      exact ⟨rfl, rfl⟩
    | recalled hk' => cases hk.symm.trans hk'
    | skip _ ho' => cases ho.symm.trans ho'
    | plain _ _ hplain => exact absurd hplain (not_or.mpr ⟨hb, hoff⟩)

end Gathers

namespace Ancestry
variable {a : Ancestry} {name : String}

/-- The own properties of the name are in the table, and whatever is in it is an own property of
some name that this one leads to. -/
structure Sources (a : Ancestry) (name : String) (t : Table Property) : Prop where
  structure_name : (a.own name).isSome
  keeps : ∀ own, a.own name = some own → ∀ entry ∈ own, t.value? entry.1 = some entry.2
  origin : ∀ entry ∈ t, ∃ other own, a.Leads name other ∧ a.own other = some own ∧ entry ∈ own

theorem sources_own {own : Table Property} (ho : a.own name = some own) : a.Sources name own where
  structure_name := by simp [ho]
  keeps := by
    rintro _ ho' entry hentry
    cases ho.symm.trans ho'
    exact Table.value?_of_mem (a.nodup_own ho) hentry
  origin entry hentry := ⟨name, own, .refl, ho, hentry⟩

/-- A table of own properties over tables of bases has its sources if those tables have theirs. -/
theorem sources_overlay {own : Table Property} {lower : List (Table Property)} (ho : a.own name = some own)
    (hlower : ∀ t ∈ lower, ∃ base ∈ a.bases name, a.Sources base t) :
    a.Sources name (own.overlay lower) where
  structure_name := by simp [ho]
  keeps := by
    rintro _ ho' entry hentry
    cases ho.symm.trans ho'
    rw [Table.value?_overlay, Table.value?_of_mem (a.nodup_own ho) hentry, Option.some_or]
  origin := by
    rintro ⟨property, p⟩ hentry
    have hvalue := Table.value?_of_mem (Table.nodup_names_overlay own lower) hentry
    rw [Table.value?_overlay, Option.or_eq_some_iff] at hvalue
    rcases hvalue with hown | ⟨-, hbase⟩
    · exact ⟨name, own, .refl, ho, Table.mem_of_value? hown⟩
    · obtain ⟨t, ht, hp⟩ := List.exists_of_findSome?_eq_some hbase
      obtain ⟨base, hb, hsources⟩ := hlower t ht
      have hi : a.Inherits name base := ⟨hb, by simp [ho], hsources.structure_name⟩
      obtain ⟨other, owned, hl, howned, hmem⟩ := hsources.origin _ (Table.mem_of_value? hp)
      exact ⟨other, owned, .head hi hl, howned, hmem⟩

end Ancestry

namespace Gathers
variable {a : Ancestry} {path names : List String} {known known' : Inherited}
  {results : List (Table Property)}

def Sourced (a : Ancestry) (known : Inherited) : Prop :=
  ∀ name t, known.value? name = some t → a.Sources name t

theorem Sourced.put {name : String} {t : Table Property} (hs : Sourced a known) (ht : a.Sources name t) :
    Sourced a (Table.put known name t) := by
  intro other u hu
  rw [Table.value?_put] at hu
  split at hu
  · rename_i he
    cases hu
    exact he ▸ ht
  · exact hs other u hu

theorem sourced (h : Gathers a path known names results known') (hs : Sourced a known) :
    Sourced a known' ∧ ∀ t ∈ results, ∃ name ∈ names, a.Sources name t := by
  induction h with
  | nil => exact ⟨hs, by simp⟩
  | @recalled path known name t rest results known' hk _ ih =>
    obtain ⟨hs', hrest⟩ := ih hs
    refine ⟨hs', List.forall_mem_cons.mpr ⟨⟨name, List.mem_cons_self, hs name t hk⟩, ?_⟩⟩
    exact fun u hu => List.exists_mem_cons_of_exists (hrest u hu)
  | skip _ _ _ ih =>
    obtain ⟨hs', hrest⟩ := ih hs
    exact ⟨hs', fun u hu => List.exists_mem_cons_of_exists (hrest u hu)⟩
  | @plain path known name own rest results known' _ ho _ _ ih =>
    obtain ⟨hs', hrest⟩ := ih hs
    refine ⟨hs', List.forall_mem_cons.mpr ⟨⟨name, List.mem_cons_self, Ancestry.sources_own ho⟩, ?_⟩⟩
    exact fun u hu => List.exists_mem_cons_of_exists (hrest u hu)
  | @merge path known name own lower middle rest results known' _ ho _ _ _ _ ihlower ihrest =>
    -- a base that was cut off below this name still gave a table with its sources
    obtain ⟨hmiddle, hlower⟩ := ihlower hs
    have hself := Ancestry.sources_overlay ho hlower
    obtain ⟨hs', hrest⟩ := ihrest (hmiddle.put hself)
    refine ⟨hs', List.forall_mem_cons.mpr ⟨⟨name, List.mem_cons_self, hself⟩, ?_⟩⟩
    exact fun u hu => List.exists_mem_cons_of_exists (hrest u hu)

end Gathers

namespace Definitions
variable {a : Ancestry} {definitions : Definitions} {heritage : Heritage}

def tablesWithin (definitions : Definitions) (heritage : Heritage) (depth : Nat) : Inherited :=
  let collectAll : StateM Inherited Unit :=
    heritage.names.forM fun name => discard (collect definitions heritage depth [] name)
  (collectAll.run []).2

/-- More names than there are names with bases are never open at once. -/
theorem gathers_tablesWithin (hd : a.Describes definitions heritage) {depth : Nat}
    (hdepth : heritage.length < depth) :
    ∃ results, Gathers a [] [] heritage.names results (definitions.tablesWithin heritage depth) := by
  have hrun := gathers_mapM_collect hd depth List.nodup_nil (List.nil_subset _) (by simpa using hdepth)
    (Table.names heritage) []
  rw [← run_forM_discard] at hrun
  exact ⟨_, hrun⟩

end Definitions

namespace Ancestry

def Gathered (a : Ancestry) (names : List String) (known : Inherited) : Prop :=
  ∃ results, Gathers a [] [] names results known

/-- What a structure has in the end: its own properties as it states them, one property at least
for each own name of a direct base, and only properties that some structure above it owns. -/
structure Endows (a : Ancestry) (name : String) (properties : Table Property) : Prop where
  own : ∀ own, a.own name = some own → ∀ entry ∈ own, properties.value? entry.1 = some entry.2
  bases : ∀ base, a.Inherits name base → ∀ own, a.own base = some own → own.names ⊆ properties.names
  origin : ∀ entry ∈ properties, ∃ other own, a.Leads name other ∧ a.own other = some own ∧ entry ∈ own

variable {a : Ancestry} {name : String} {known : Inherited} {names : List String}

theorem Gathered.unique {known' : Inherited} (h : a.Gathered names known) (h' : a.Gathered names known') :
    known = known' := by
  obtain ⟨results, h⟩ := h
  obtain ⟨results', h'⟩ := h'
  exact (h.unique h').2

theorem Gathered.endows {t : Table Property} (h : a.Gathered names known) (ht : known.value? name = some t) :
    a.Endows name t := by
  obtain ⟨results, h⟩ := h
  obtain ⟨hsourced, -⟩ := h.sourced fun _ _ hk => by cases hk
  obtain ⟨hcovering, -⟩ := h.covering fun _ _ hk => by cases hk
  have hsources := hsourced name t ht
  exact ⟨hsources.keeps, fun base hi => hcovering name t ht base (.inr hi), hsources.origin⟩

/-- A structure that is among the names and has bases is known in the end. -/
theorem Gathered.endows_own {own : Table Property} (h : a.Gathered names known) (ho : a.own name = some own)
    (hnames : a.bases name ≠ [] → name ∈ names) (hk : known.value? name = none) : a.Endows name own := by
  obtain ⟨results, h⟩ := h
  have hbases : a.bases name = [] := by
    by_contra hb
    rcases h.known_of_mem (hnames hb) (by simp [ho]) hb with hp | ⟨t, ht⟩
    · cases hp
    · cases hk.symm.trans ht
  have hsources := sources_own ho
  exact ⟨hsources.keeps, fun base hi => absurd hi.listed (by simp [hbases]), hsources.origin⟩

end Ancestry

namespace Definitions
variable {a : Ancestry} {definitions : Definitions} {heritage : Heritage} {name : String}

/-- Inheritance gives a structure either a known table or nothing, and takes structures only. -/
theorem ownProperties?_inherit (definitions : Definitions) (heritage : Heritage) (name : String) :
    (definitions.inherit heritage).ownProperties? name = (definitions.ownProperties? name).map fun own =>
      ((inheritedTables definitions heritage).value? name).getD own := by
  unfold ownProperties?
  rw [value?_inherit]
  cases definitions.value? name with
  | none => rfl
  | some d =>
    cases d with
    | enumerated values => rfl
    | structural own =>
      cases (inheritedTables definitions heritage).value? name <;> rfl

theorem endows_inherit (hd : a.Describes definitions heritage) {properties : Table Property}
    (h : (definitions.inherit heritage).ownProperties? name = some properties) : a.Endows name properties := by
  rw [ownProperties?_inherit, ← hd.own_eq] at h
  obtain ⟨own, ho, rfl⟩ := Option.map_eq_some_iff.mp h
  have hgathered : a.Gathered heritage.names (inheritedTables definitions heritage) :=
    gathers_inheritedTables hd
  cases hk : (inheritedTables definitions heritage).value? name with
  | some t => exact hgathered.endows hk
  | none => exact hgathered.endows_own ho (mem_names_of_bases hd) hk

end Definitions

abbrev Definitions.declared (items : List Item) : Definitions :=
  ofDeclarations (Declaration.ofItems items)

abbrev Heritage.declared (items : List Item) : Heritage := ofDeclarations (Declaration.ofItems items)

/-- However the names of a source lead to each other, gathering its names with bases ends, in one
way only, with the tables that its structures receive, and a search of any greater depth finds the
same ones. The structures of the source are those that its declarations make, and each of them has
its own properties, what its bases mention, and nothing that is not owned above it. -/
theorem ofItems_inherits_soundly (items : List Item) :
    (∃ known,
      (∀ other, (Ancestry.ofItems items).Gathered (Heritage.declared items).names other ↔ other = known) ∧
      (∀ depth, (Heritage.declared items).length < depth →
        (Definitions.declared items).tablesWithin (Heritage.declared items) depth = known) ∧
      Definitions.ofItems items = (Definitions.declared items).map fun entry =>
        (entry.1, entry.2.receiving (known.value? entry.1))) ∧
    ∀ name, (((Definitions.ofItems items).ownProperties? name).isSome ↔
        ((Ancestry.ofItems items).own name).isSome) ∧
      ∀ properties, (Definitions.ofItems items).ownProperties? name = some properties →
        (Ancestry.ofItems items).Endows name properties := by
  have hd := Ancestry.describes_ofItems items
  have hgathered : (Ancestry.ofItems items).Gathered _ _ := Definitions.gathers_inheritedTables hd
  refine ⟨⟨_, fun other => ⟨fun h => h.unique hgathered, ?_⟩, fun depth hdepth => ?_,
    Definitions.inherit_eq_map _ _⟩, fun name => ⟨?_, fun properties h => Definitions.endows_inherit hd h⟩⟩
  · rintro rfl
    exact hgathered
  · have hwithin : (Ancestry.ofItems items).Gathered _ _ := Definitions.gathers_tablesWithin hd hdepth
    exact hwithin.unique hgathered
  · rw [Definitions.ofItems, Definitions.ownProperties?_inherit, Option.isSome_map]
    rfl

end DeclSchema
