import DeclSchema.Proofs.Inheritance.Recursion
import Mathlib.Data.Option.Basic

/-! # The order of the items

Where no two different names lead to each other, the order of the items does not matter.
Where two do, the one that is gathered first cuts the other one off from its own bases, and
what it leaves out stays known.
-/
namespace DeclSchema
open Syntax

def Definition.Alike : Definition → Definition → Prop
  | structural t, structural u => ∀ name, t.value? name = u.value? name
  | enumerated values, enumerated values' => values = values'
  | _, _ => False

/-- Every order of the items defines every name alike. -/
def OrderFree (items : List Item) : Prop :=
  ∀ items', items.Perm items' → ∀ name, Option.Rel Definition.Alike
    ((Definitions.ofItems items).value? name) ((Definitions.ofItems items').value? name)

/-- The heritage of `b` is that of `a`, apart from further bases that have none themselves. -/
structure Ancestry.Widens (a b : Ancestry) : Prop where
  keeps : ∀ {name base}, a.Inherits name base → b.Inherits name base
  adds : ∀ {name base}, b.Inherits name base → a.Inherits name base ∨ b.bases base = []

theorem Definition.Alike.refl (d : Definition) : d.Alike d := by
  cases d with
  | structural t => exact fun _ => rfl
  | enumerated values => exact rfl

/-- A structure without bases, alone in having a property, of which only one name inherits. -/
structure Exposes (a : Ancestry) (name leaf property : String) : Prop where
  own_leaf : ∃ own, a.own leaf = some own ∧ property ∈ own.names
  only_leaf : ∀ other own, a.own other = some own → property ∈ own.names → other = leaf
  bases_leaf : a.bases leaf = []
  inherits : a.Inherits name leaf
  only_name : ∀ other, a.Inherits other leaf → other = name

namespace Exposes
variable {a : Ancestry} {first second leaf property : String} {path names rest : List String}
  {known known' : Inherited} {results : List (Table Property)}

/-- While the name is on the path, no table that becomes known has the property. -/
theorem lacking (he : Exposes a first leaf property) (h : Gathers a path known names results known')
    (hp : first ∈ path) (hk : ∀ name t, known.value? name = some t → property ∉ t.names) :
    (∀ name t, known'.value? name = some t → property ∉ t.names) ∧
      (leaf ∉ names → ∀ t ∈ results, property ∉ t.names) := by
  induction h with
  | nil => exact ⟨hk, by simp⟩
  | @recalled path known name t rest results known' ht _ ih =>
    obtain ⟨hk', hrest⟩ := ih hp hk
    refine ⟨hk', fun hleaf u hu => ?_⟩
    rcases List.mem_cons.mp hu with rfl | hu
    · exact hk name u ht
    · exact hrest (List.not_mem_of_not_mem_cons hleaf) u hu
  | skip _ _ _ ih =>
    obtain ⟨hk', hrest⟩ := ih hp hk
    exact ⟨hk', fun hleaf => hrest (List.not_mem_of_not_mem_cons hleaf)⟩
  | @plain path known name own rest results known' _ ho _ _ ih =>
    obtain ⟨hk', hrest⟩ := ih hp hk
    refine ⟨hk', fun hleaf u hu => ?_⟩
    rcases List.mem_cons.mp hu with rfl | hu
    · intro hm
      obtain rfl := he.only_leaf name u ho hm
      exact hleaf List.mem_cons_self
    · exact hrest (List.not_mem_of_not_mem_cons hleaf) u hu
  | @merge path known name own lower middle rest results known' _ ho hb hoff _ _ ihlower ihrest =>
    obtain ⟨hmiddle, hlower⟩ := ihlower (List.mem_cons_of_mem _ hp) hk
    have hself : property ∉ own.names := by
      intro hm
      obtain rfl := he.only_leaf name own ho hm
      exact hb he.bases_leaf
    -- the one name that has the leaf as a base is on the path, so it is not this name
    have hleafless : leaf ∉ a.bases name := by
      intro hm
      have hi : a.Inherits name leaf := ⟨hm, by simp [ho], he.inherits.structure_base⟩
      exact hoff (he.only_name name hi ▸ hp)
    have hover : property ∉ (own.overlay lower).names := by
      rw [Table.mem_names_overlay_iff]
      rintro (hm | ⟨t, ht, hm⟩)
      · exact hself hm
      · exact hlower hleafless t ht hm
    have hput : ∀ other t, (Table.put middle name (own.overlay lower)).value? other = some t →
        property ∉ t.names := by
      intro other t ht
      rw [Table.value?_put] at ht
      split at ht
      · cases ht
        exact hover
      · exact hmiddle other t ht
    obtain ⟨hk', hrest⟩ := ihrest hp hput
    refine ⟨hk', fun hleaf u hu => ?_⟩
    rcases List.mem_cons.mp hu with rfl | hu
    · exact hover
    · exact hrest (List.not_mem_of_not_mem_cons hleaf) u hu

end Exposes

theorem Gathers.of_first {a : Ancestry} {name : String} {rest : List String}
    {results : List (Table Property)} {known' : Inherited}
    (h : Gathers a [] [] (name :: rest) results known') {own : Table Property}
    (ho : a.own name = some own) (hb : a.bases name ≠ []) :
    ∃ lower middle, Gathers a [name] [] (a.bases name) lower middle ∧
      known'.value? name = some (own.overlay lower) ∧
      ∀ other t, other ≠ name → middle.value? other = some t → known'.value? other = some t := by
  cases h with
  | recalled hk => cases hk
  | skip _ hnone => exact absurd (hnone.symm.trans ho) (Option.some_ne_none own).symm
  | plain _ _ hplain =>
    rcases hplain with hnil | hp
    · exact absurd hnil hb
    · cases hp
  | @merge _ _ _ own' lower middle _ _ _ _ ho' _ _ hlower hrest =>
    cases ho'.symm.trans ho
    refine ⟨lower, middle, hlower, hrest.known_kept (Table.value?_put_self _ _ _), ?_⟩
    intro other t hne ht
    exact hrest.known_kept (by rwa [Table.value?_put_of_ne _ _ hne])

namespace Exposes
variable {a : Ancestry} {first second leaf property : String} {rest : List String}
  {known' : Inherited} {results : List (Table Property)}

/-- Gathered first, the name cuts the other one off from the property. -/
theorem lacks_property (he : Exposes a first leaf property) (hne : second ≠ first)
    (hl : a.Leads first second) (hback : a.Leads second first)
    (h : Gathers a [] [] (first :: rest) results known') :
    ∃ t, known'.value? second = some t ∧ property ∉ t.names := by
  obtain ⟨own, ho⟩ := Option.isSome_iff_exists.mp he.inherits.structure_name
  obtain ⟨lower, middle, hlower, _, hkept⟩ :=
    h.of_first ho (List.ne_nil_of_mem he.inherits.listed)
  have hsecond := hlower.known_of_leads hl (Ancestry.bases_ne_nil_of_leads hne hback)
  obtain ⟨t, ht⟩ := hsecond.resolve_left hne
  obtain ⟨hmiddle, _⟩ := he.lacking hlower List.mem_cons_self (fun _ _ hk => by cases hk)
  exact ⟨t, hkept second t hne ht, hmiddle second t ht⟩

/-- Gathered first, the other name inherits the property through the name. -/
theorem has_property (he : Exposes a first leaf property) (hne : second ≠ first)
    (hback : a.Leads second first)
    (h : Gathers a [] [] (second :: rest) results known') :
    ∃ t, known'.value? second = some t ∧ property ∈ t.names := by
  obtain ⟨own, ho⟩ := Option.isSome_iff_exists.mp (Ancestry.isSome_of_leads hne hback)
  obtain ⟨ownLeaf, hleaf, hp⟩ := he.own_leaf
  obtain ⟨lower, middle, hlower, hfinal, _⟩ := h.of_first ho (Ancestry.bases_ne_nil_of_leads hne hback)
  -- the table of `first` becomes known on the way, and all that it holds flows up
  have hfirst := hlower.known_of_leads hback (List.ne_nil_of_mem he.inherits.listed)
  obtain ⟨t, ht⟩ := hfirst.resolve_left (Ne.symm hne)
  obtain ⟨hcover, _⟩ := hlower.covering (fun _ _ hk => by cases hk)
  have hpt : property ∈ t.names := hcover first t ht leaf (.inr he.inherits) ownLeaf hleaf hp
  rcases hlower.flows ht with hk | hflows
  · cases hk
  · obtain ⟨result, hr, hm⟩ := hflows property hpt
    exact ⟨_, hfinal, Table.mem_names_overlay_iff.mpr (.inr ⟨result, hr, hm⟩)⟩

end Exposes
namespace Ancestry
variable {a : Ancestry} {name leaf other base : String} {names : List String}

def exposing (a : Ancestry) (name leaf : String) (names : List String) : List Item :=
  plainItems
    (fun other =>
      if other = leaf then []
      else
        (a.bases other).filter (fun base => (a.own base).isSome) ++
          if other = name then [leaf] else [])
    (fun other => if other = leaf then [("added", "string")] else [])
    names

structure Names (a : Ancestry) (leaf : String) (names : List String) : Prop where
  nodup : names.Nodup
  mem_iff : ∀ other, other ∈ names ↔ other = leaf ∨ (a.own other).isSome
  new : a.own leaf = none

theorem Names.ne_leaf (h : a.Names leaf names) (ho : (a.own other).isSome) : other ≠ leaf := by
  rintro rfl
  simp [h.new] at ho

theorem Names.own_exposing (h : a.Names leaf names) :
    ((ofItems (a.exposing name leaf names)).own other).isSome ↔ other ∈ names := by
  rw [Option.isSome_iff_exists]
  constructor
  · rintro ⟨own, ho⟩
    exact ((own_plainItems h.nodup).mp ho).1
  · intro hm
    exact ⟨_, (own_plainItems h.nodup).mpr ⟨hm, rfl⟩⟩

theorem bases_leaf_exposing (a : Ancestry) (name leaf : String) (names : List String) :
    (ofItems (a.exposing name leaf names)).bases leaf = [] := by
  apply List.eq_nil_iff_forall_not_mem.mpr
  intro base hb
  simpa using (mem_bases_plainItems.mp hb).2

theorem Names.inherits_exposing (h : a.Names leaf names) (hname : (a.own name).isSome) :
    (ofItems (a.exposing name leaf names)).Inherits other base ↔
      a.Inherits other base ∨ other = name ∧ base = leaf := by
  constructor
  · intro hi
    obtain ⟨hm, hb⟩ := mem_bases_plainItems.mp hi.listed
    split at hb
    · cases hb
    · rename_i hne
      have ho : (a.own other).isSome := ((h.mem_iff other).mp hm).resolve_left hne
      rcases List.mem_append.mp hb with hb | hb
      · obtain ⟨hb, hs⟩ := List.mem_filter.mp hb
        exact .inl ⟨hb, ho, hs⟩
      · split at hb
        · exact .inr ⟨‹_›, List.mem_singleton.mp hb⟩
        · cases hb
  · intro hi
    have hpair : (a.own other).isSome ∧ base ∈ names := by
      rcases hi with hi | ⟨rfl, rfl⟩
      · exact ⟨hi.structure_name, (h.mem_iff base).mpr (.inr hi.structure_base)⟩
      · exact ⟨hname, (h.mem_iff base).mpr (.inl rfl)⟩
    have hm : other ∈ names := (h.mem_iff other).mpr (.inr hpair.1)
    refine ⟨mem_bases_plainItems.mpr ⟨hm, ?_⟩, h.own_exposing.mpr hm, h.own_exposing.mpr hpair.2⟩
    rw [if_neg (h.ne_leaf hpair.1), List.mem_append, List.mem_filter]
    rcases hi with hi | ⟨rfl, rfl⟩
    · exact .inl ⟨hi.listed, hi.structure_base⟩
    · exact .inr (by simp)

theorem Names.exposes (h : a.Names leaf names) (hname : (a.own name).isSome) :
    Exposes (ofItems (a.exposing name leaf names)) name leaf "added" where
  own_leaf := by
    refine ⟨_, (own_plainItems h.nodup).mpr ⟨(h.mem_iff leaf).mpr (.inl rfl), rfl⟩, ?_⟩
    rw [if_pos rfl]
    decide
  only_leaf := by
    intro other own ho hp
    obtain ⟨_, rfl⟩ := (own_plainItems h.nodup).mp ho
    by_contra hne
    rw [if_neg hne] at hp
    cases hp
  bases_leaf := bases_leaf_exposing a name leaf names
  inherits := (h.inherits_exposing hname).mpr (.inr ⟨rfl, rfl⟩)
  only_name := by
    intro other hi
    rcases (h.inherits_exposing hname).mp hi with hi | ⟨he, _⟩
    · exact absurd rfl (h.ne_leaf hi.structure_base)
    · exact he

theorem Names.widens (h : a.Names leaf names) (hname : (a.own name).isSome) :
    a.Widens (ofItems (a.exposing name leaf names)) where
  keeps hi := (h.inherits_exposing hname).mpr (.inl hi)
  adds hi := by
    rcases (h.inherits_exposing hname).mp hi with hi | ⟨_, rfl⟩
    · exact .inl hi
    · exact .inr (bases_leaf_exposing _ _ _ _)

theorem exists_names (a : Ancestry) : ∃ leaf names, a.Names leaf names := by
  obtain ⟨leaf, hleaf⟩ := a.finite.exists_notMem
  have hnone : a.own leaf = none := by simpa using hleaf
  have hmem : ∀ other, other ∈ a.finite.toFinset.toList ↔ (a.own other).isSome := by
    simp
  refine ⟨leaf, leaf :: a.finite.toFinset.toList, ?_, ?_, hnone⟩
  · rw [List.nodup_cons]
    refine ⟨fun hm => ?_, Finset.nodup_toList _⟩
    exact hleaf ((hmem leaf).mp hm)
  · intro other
    rw [List.mem_cons, hmem]

theorem Names.perm {names' : List String} (h : a.Names leaf names) (hp : names.Perm names') :
    a.Names leaf names' where
  nodup := hp.nodup_iff.mp h.nodup
  mem_iff other := by rw [← hp.mem_iff, h.mem_iff]
  new := h.new

end Ancestry

namespace Definitions

abbrev knownTables (items : List Item) : Inherited :=
  inheritedTables (ofDeclarations (Declaration.ofItems items))
    (Heritage.ofDeclarations (Declaration.ofItems items))

/-- A first interface that has bases is gathered first. -/
theorem gathers_plainItems {bases : String → List String}
    {properties : String → List (String × String)} {first : String} {rest : List String}
    (hb : (Ancestry.ofItems (plainItems bases properties (first :: rest))).bases first ≠ []) :
    ∃ names results, Gathers (Ancestry.ofItems (plainItems bases properties (first :: rest))) [] []
      (first :: names) results (knownTables (plainItems bases properties (first :: rest))) := by
  obtain ⟨results, hrun⟩ := gathers_inheritedTables
    (Ancestry.describes_ofItems (plainItems bases properties (first :: rest)))
  have hdecs := ofItems_plainItems bases properties (first :: rest)
  rw [List.map_cons] at hdecs
  obtain ⟨base, hbase⟩ := List.exists_mem_of_ne_nil _ hb
  have hne : bases first ≠ [] := List.ne_nil_of_mem (mem_bases_plainItems.mp hbase).2
  obtain ⟨names, hn⟩ := Heritage.names_ofDeclarations_shape first
    (typedProperties (plainMembers (properties first))) hne
    (rest.map fun name => .shape name (bases name) (typedProperties (plainMembers (properties name))))
  rw [← hdecs] at hn
  rw [hn] at hrun
  exact ⟨names, results, hrun⟩

theorem value?_ofItems_of_known {items : List Item} {name : String} {t : Table Property}
    (ho : ((Ancestry.ofItems items).own name).isSome)
    (ht : (knownTables items).value? name = some t) :
    (ofItems items).value? name = some (.structural t) := by
  obtain ⟨own, ho⟩ := Option.isSome_iff_exists.mp ho
  have hv := structural_of_own (Ancestry.describes_ofItems items) ho
  show (inherit _ _).value? name = _
  rw [value?_inherit, hv, ht]
  rfl

/-- Untangled names have the same definition in every order of the items. -/
theorem value?_ofItems_perm {items items' : List Item} (h : DeclaredOnce items)
    (hp : items.Perm items') {name : String} (hu : (Ancestry.ofItems items).Untangled name) :
    (ofItems items).value? name = (ofItems items').value? name := by
  have hsame := Ancestry.ofItems_perm h hp
  have hfirst := value?_inherit_of_untangled (Ancestry.describes_ofItems items) hu
  have hsecond := value?_inherit_of_untangled (Ancestry.describes_ofItems items') (hsame ▸ hu)
  show (inherit _ _).value? name = (inherit _ _).value? name
  rw [hfirst, hsecond, value?_ofDeclarations_perm h (Declaration.ofItems_perm hp), hsame]

end Definitions

namespace Ancestry
variable {a b : Ancestry} {first second : String}

theorem Widens.leads (h : a.Widens b) (hl : b.Leads first second) (hb : b.bases second ≠ []) :
    a.Leads first second := by
  induction hl with
  | refl => exact .refl
  | @tail other second _ hi ih =>
    have hprevious := ih (List.ne_nil_of_mem hi.listed)
    exact hprevious.tail ((h.adds hi).resolve_right hb)

theorem Widens.untangled (h : a.Widens b) (hu : ∀ name, a.Untangled name) (name : String) :
    b.Untangled name := by
  intro other _ third hl hback
  by_contra hne
  have hthird := bases_ne_nil_of_leads hne hback
  have hother := bases_ne_nil_of_leads (Ne.symm hne) hl
  exact hne (hu other other .refl third (h.leads hl hthird) (h.leads hback hother))

theorem Widens.mono (h : a.Widens b) (hl : a.Leads first second) : b.Leads first second :=
  Relation.ReflTransGen.mono (fun _ _ => h.keeps) _ _ hl

theorem exposing_perm {leaf : String} {names names' : List String} (hp : names.Perm names') :
    (a.exposing first leaf names).Perm (a.exposing first leaf names') := by
  unfold exposing plainItems
  exact hp.map _

/-- Two names that lead to each other tell the order apart as soon as one has a further base. -/
theorem exists_not_orderFree (hne : second ≠ first) (hl : a.Leads first second)
    (hback : a.Leads second first) :
    ∃ items, DeclaredOnce items ∧ a.Widens (ofItems items) ∧ ¬ OrderFree items := by
  obtain ⟨leaf, names, hnames⟩ := a.exists_names
  have hfirst := isSome_of_leads (Ne.symm hne) hl
  have hsecond := isSome_of_leads hne hback
  -- the same items twice, once from `first` on and once from `second` on
  have hpfirst := List.perm_cons_erase ((hnames.mem_iff first).mpr (.inr hfirst))
  have hpsecond := List.perm_cons_erase ((hnames.mem_iff second).mpr (.inr hsecond))
  have hn₁ := hnames.perm hpfirst
  have hn₂ := hnames.perm hpsecond
  have hw₁ := hn₁.widens hfirst
  have hw₂ := hn₂.widens hfirst
  have he₁ := hn₁.exposes hfirst
  have he₂ := hn₂.exposes hfirst
  refine ⟨a.exposing first leaf (first :: names.erase first), declaredOnce_plainItems _ _ hn₁.nodup,
    hw₁, fun hfree => ?_⟩
  obtain ⟨_, _, hrun₁⟩ := Definitions.gathers_plainItems
    (List.ne_nil_of_mem he₁.inherits.listed)
  obtain ⟨_, _, hrun₂⟩ := Definitions.gathers_plainItems
    (bases_ne_nil_of_leads hne (hw₂.mono hback))
  obtain ⟨t, ht, hlacks⟩ := he₁.lacks_property hne (hw₁.mono hl) (hw₁.mono hback) hrun₁
  obtain ⟨u, hu, hhas⟩ := he₂.has_property hne (hw₂.mono hback) hrun₂
  have hsame := hfree _ (exposing_perm (hpfirst.symm.trans hpsecond)) second
  rw [Definitions.value?_ofItems_of_known (isSome_of_leads hne (hw₁.mono hback)) ht,
    Definitions.value?_ofItems_of_known (isSome_of_leads hne (hw₂.mono hback)) hu] at hsame
  cases hsame with
  | some halike =>
    obtain ⟨p, hp⟩ := Table.mem_names_iff.mp hhas
    exact hlacks (Table.mem_names_iff.mpr ⟨p, (halike "added").trans hp⟩)

end Ancestry

/-- An untangled name has the same definition in every order of the items, its properties in
the same order. No two names of the source lead to each other exactly if the order matters in
no source of the same heritage, whatever its own properties and further bases without bases. -/
theorem orderFree_iff_untangled (items : List Item) (h : DeclaredOnce items) :
    (∀ items', items.Perm items' → ∀ name, (Ancestry.ofItems items).Untangled name →
      (Definitions.ofItems items).value? name = (Definitions.ofItems items').value? name) ∧
    ((∀ name, (Ancestry.ofItems items).Untangled name) ↔
      ∀ wider, DeclaredOnce wider →
        (Ancestry.ofItems items).Widens (Ancestry.ofItems wider) → OrderFree wider) := by
  refine ⟨fun items' hp name hu => Definitions.value?_ofItems_perm h hp hu, ?_, ?_⟩
  · intro hu wider hwider hw items' hp name
    have hsame := Definitions.value?_ofItems_perm hwider hp (hw.untangled hu name)
    rw [← hsame]
    cases (Definitions.ofItems wider).value? name with
    | none => exact .none
    | some d => exact .some (Definition.Alike.refl d)
  · intro hall name other _ third hl hback
    by_contra hne
    obtain ⟨wider, hwider, hw, hnot⟩ := Ancestry.exists_not_orderFree hne hl hback
    exact hnot (hall wider hwider hw)

def entangled : List Item :=
  [plainInterface "X" ["Y", "B"] [("x", "string")],
   plainInterface "Y" ["X"] [("y", "string")],
   plainInterface "B" [] [("b", "string")]]

theorem base_of_entangled_orderFree :
    DeclaredOnce entangled ∧
      (Definitions.ofItems entangled).value? "B" =
        (Definitions.ofItems entangled.reverse).value? "B" := by
  have h : DeclaredOnce entangled := by
    unfold DeclaredOnce
    decide
  have hbases : (Ancestry.ofItems entangled).bases "B" = [] := by decide
  have hu : (Ancestry.ofItems entangled).Untangled "B" := by
    apply Ancestry.untangled_of_no_bases
    intro base hi
    simpa [hbases] using hi.listed
  exact ⟨h, (orderFree_iff_untangled entangled h).1 _ (List.reverse_perm _).symm "B" hu⟩

/-- In the given order `Y` lacks the property of `B`, in the reverse order it has it. -/
theorem entangled_not_orderFree : DeclaredOnce entangled ∧ ¬ OrderFree entangled := by
  have hfirst : (Definitions.ofItems entangled).value? "Y" =
      some (.structural [("x", ⟨"string", false⟩), ("y", ⟨"string", false⟩)]) := by decide
  have hreverse : (Definitions.ofItems entangled.reverse).value? "Y" =
      some (.structural [("y", ⟨"string", false⟩), ("b", ⟨"string", false⟩),
        ("x", ⟨"string", false⟩)]) := by decide
  refine ⟨by unfold DeclaredOnce; decide, fun hfree => ?_⟩
  have hsame := hfree entangled.reverse (List.reverse_perm _).symm "Y"
  rw [hfirst, hreverse] at hsame
  cases hsame with
  | some halike => exact absurd (halike "b") (by decide)

end DeclSchema
