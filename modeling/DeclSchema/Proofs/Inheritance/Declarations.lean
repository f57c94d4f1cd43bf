import DeclSchema.Extraction
import DeclSchema.Proofs.Inheritance.Ancestry

/-! # The ancestry of a source

The declarations of a source make definitions and heritage, whatever is done with them
later. Together these form an ancestry. Where every name is declared once, the ancestry does
not depend on the order of the declarations.
-/
namespace DeclSchema
open Syntax

def Definition.Tidy : Definition → Prop
  | structural properties => properties.names.Nodup
  | enumerated _ => True

namespace Declaration

def name : Declaration → String
  | shape name _ _ | definite name _ | bare name => name

def definition : Declaration → Definition
  | shape _ _ properties => .structural properties
  | definite _ d => d
  | bare _ => .empty

def basesFor (name : String) : Declaration → List String
  | shape other heritage _ => if other = name then heritage else []
  | _ => []

theorem basesFor_of_ne {dec : Declaration} {name : String} (h : dec.name ≠ name) :
    dec.basesFor name = [] := by
  cases dec with
  | shape other heritage properties => exact if_neg h
  | definite other d => rfl
  | bare other => rfl

theorem name_eq_of_mem_basesFor {dec : Declaration} {name base : String}
    (h : base ∈ dec.basesFor name) : dec.name = name := by
  by_contra hne
  rw [basesFor_of_ne hne] at h
  cases h

theorem tidy_typedProperties (members : List Member) :
    (Definition.structural (typedProperties members)).Tidy := Table.nodup_names_ofEntries _

theorem tidy_ofAlias (name : String) (type : TypeNode) : (ofAlias name type).definition.Tidy := by
  unfold ofAlias
  split
  · trivial
  · exact tidy_typedProperties _
  · exact List.nodup_nil

theorem tidy_ofConstant? {name : String} {type? : Option TypeNode}
    {initializer : Option Initializer} {dec : Declaration}
    (h : ofConstant? name type? initializer = some dec) : dec.definition.Tidy := by
  obtain ⟨keys, _, rfl⟩ := Option.map_eq_some_iff.mp h
  trivial

mutual

theorem tidy_ofItem (item : Item) : ∀ dec ∈ ofItem item, dec.definition.Tidy := by
  intro dec hd
  cases item with
  | interfaceDecl name heritage members =>
    rw [List.mem_singleton.mp hd]
    exact tidy_typedProperties members
  | classDecl name heritage members nested =>
    rcases List.mem_cons.mp hd with rfl | hd
    · exact tidy_typedProperties members
    · exact tidy_ofItems nested dec hd
  | aliasDecl name type =>
    rw [List.mem_singleton.mp hd]
    exact tidy_ofAlias name type
  | enumDecl name isConst members =>
    rw [List.mem_singleton.mp hd]
    trivial
  | constantDecl name type? initializer => exact tidy_ofConstant? (Option.mem_toList.mp hd)
  | namespaceDecl name items => exact tidy_ofItems items dec hd
  | functionDecl name body => exact tidy_ofItems body dec hd

theorem tidy_ofItems (items : List Item) : ∀ dec ∈ ofItems items, dec.definition.Tidy := by
  intro dec hd
  cases items with
  | nil => cases hd
  | cons item rest =>
    rcases List.mem_append.mp hd with hd | hd
    · exact tidy_ofItem item dec hd
    · exact tidy_ofItems rest dec hd

end

theorem ofItems_eq_flatMap (items : List Item) : ofItems items = items.flatMap ofItem := by
  induction items with
  | nil => rfl
  | cons item rest ih => rw [ofItems, ih, List.flatMap_cons]

end Declaration

namespace Definitions

theorem value?_record_of_ne (definitions : Definitions) {dec : Declaration} {name : String}
    (h : dec.name ≠ name) : (definitions.record dec).value? name = definitions.value? name := by
  cases dec with
  | shape other heritage properties =>
    unfold record
    dsimp only
    split
    · exact Table.value?_put_of_ne _ _ (Ne.symm h)
    · rfl
    · exact Table.value?_put_of_ne _ _ (Ne.symm h)
  | definite other d => exact Table.value?_put_of_ne _ _ (Ne.symm h)
  | bare other =>
    have hne : ¬ name = other := Ne.symm h
    simp [record, Table.value?_putNew, hne]

theorem value?_record_of_none {definitions : Definitions} {dec : Declaration}
    (h : definitions.value? dec.name = none) :
    (definitions.record dec).value? dec.name = some dec.definition := by
  cases dec with
  | shape name heritage properties =>
    change definitions.value? name = none at h
    unfold record
    simp only [h]
    exact Table.value?_put_self _ _ _
  | definite name d => exact Table.value?_put_self _ _ _
  | bare name =>
    change definitions.value? name = none at h
    show (definitions.putNew name .empty).value? name = some .empty
    simp [Table.value?_putNew, h]

theorem tidy_record {definitions : Definitions} {dec : Declaration}
    (h : ∀ name d, definitions.value? name = some d → d.Tidy) (hdec : dec.definition.Tidy) :
    ∀ name d, (definitions.record dec).value? name = some d → d.Tidy := by
  intro name d hd
  by_cases hn : dec.name = name
  · subst hn
    cases hv : definitions.value? dec.name with
    | none =>
      rw [value?_record_of_none hv] at hd
      cases hd
      exact hdec
    | some old =>
      cases dec with
      | shape other heritage properties =>
        change definitions.value? other = some old at hv
        change (definitions.record (.shape other heritage properties)).value? other = some d at hd
        cases old with
        | structural existing =>
          simp only [record, hv, Table.value?_put_self, Option.some.injEq] at hd
          rw [← hd]
          exact Table.nodup_names_putAll properties (h other _ hv)
        | enumerated values =>
          simp only [record, hv] at hd
          cases hd
          trivial
      | definite other new =>
        have hself := Table.value?_put_self definitions other new
        cases hself.symm.trans hd
        exact hdec
      | bare other =>
        change definitions.value? other = some old at hv
        have hsame : (definitions.record (.bare other)).value? other = some old := by
          simp [record, Table.value?_putNew, hv]
        cases hsame.symm.trans hd
        exact h other d hv
  · rw [value?_record_of_ne definitions hn] at hd
    exact h name d hd

theorem tidy_ofDeclarations {declarations : List Declaration}
    (h : ∀ dec ∈ declarations, dec.definition.Tidy) :
    ∀ name d, (ofDeclarations declarations).value? name = some d → d.Tidy := by
  unfold ofDeclarations
  apply List.foldlRecOn (motive := fun definitions : Definitions =>
    ∀ name d, definitions.value? name = some d → d.Tidy)
  · intro name d hd
    simp at hd
  · intro definitions ih dec hd
    exact tidy_record ih (h dec hd)

theorem nodup_names_record {definitions : Definitions} (h : (Table.names definitions).Nodup)
    (dec : Declaration) : (Table.names (definitions.record dec)).Nodup := by
  cases dec with
  | shape name heritage properties =>
    unfold record
    dsimp only
    split
    · exact Table.nodup_names_put _ _ h
    · exact h
    · exact Table.nodup_names_put _ _ h
  | definite name d => exact Table.nodup_names_put _ _ h
  | bare name => exact Table.nodup_names_putNew _ _ h

theorem nodup_names_ofDeclarations (declarations : List Declaration) :
    (Table.names (ofDeclarations declarations)).Nodup :=
  List.foldlRecOn (motive := fun definitions : Definitions => (Table.names definitions).Nodup)
    declarations record List.nodup_nil fun _ ih dec _ => nodup_names_record ih dec

theorem value?_foldl_record {declarations : List Declaration}
    (h : (declarations.map Declaration.name).Nodup) {start : Definitions}
    (hs : ∀ dec ∈ declarations, start.value? dec.name = none) (name : String) (d : Definition) :
    (declarations.foldl record start).value? name = some d ↔
      start.value? name = some d ∨ ∃ dec ∈ declarations, dec.name = name ∧ dec.definition = d := by
  induction declarations generalizing start with
  | nil => simp
  | cons dec rest ih =>
    obtain ⟨hnew, hrest⟩ := List.nodup_cons.mp h
    have hdec : start.value? dec.name = none := hs dec List.mem_cons_self
    have hne : ∀ other ∈ rest, dec.name ≠ other.name := fun other ho he =>
      hnew (he ▸ List.mem_map_of_mem ho)
    rw [List.foldl_cons, ih hrest]
    · by_cases hn : dec.name = name
      · subst hn
        rw [value?_record_of_none hdec, hdec]
        simp
      · rw [value?_record_of_ne start hn]
        simp [hn]
    · intro other ho
      rw [value?_record_of_ne start (hne other ho)]
      exact hs other (List.mem_cons_of_mem _ ho)

/-- Where every name is declared once, its declaration alone defines it. -/
theorem value?_ofDeclarations_iff {declarations : List Declaration}
    (h : (declarations.map Declaration.name).Nodup) (name : String) (d : Definition) :
    (ofDeclarations declarations).value? name = some d ↔
      ∃ dec ∈ declarations, dec.name = name ∧ dec.definition = d := by
  unfold ofDeclarations
  rw [value?_foldl_record h (fun _ _ => rfl)]
  simp

theorem value?_ofDeclarations_perm {declarations declarations' : List Declaration}
    (h : (declarations.map Declaration.name).Nodup) (hp : declarations.Perm declarations')
    (name : String) :
    (ofDeclarations declarations).value? name = (ofDeclarations declarations').value? name := by
  have h' : (declarations'.map Declaration.name).Nodup := (hp.map Declaration.name).nodup_iff.mp h
  apply Option.ext
  intro d
  rw [value?_ofDeclarations_iff h, value?_ofDeclarations_iff h']
  simp only [hp.mem_iff]

end Definitions

namespace Heritage

def bases (heritage : Heritage) (name : String) : List String := (heritage.value? name).getD []

theorem foldl_add_bases {known : List String} (bases : List String) (h : known.Nodup) :
    bases.foldl (fun known base => if known.contains base then known else known ++ [base]) known =
      (known ++ bases).eraseDups := by
  induction bases generalizing known with
  | nil => simp [Table.eraseDups_of_nodup h]
  | cons base rest ih =>
    rw [List.foldl_cons]
    by_cases hb : base ∈ known
    · rw [if_pos (List.contains_iff_mem.mpr hb), ih h, Table.eraseDups_append_cons_of_mem hb]
    · have hnodup : (known ++ [base]).Nodup := by
        rw [List.nodup_append]
        refine ⟨h, by simp, ?_⟩
        rintro x hx y hy rfl
        exact hb (List.mem_singleton.mp hy ▸ hx)
      rw [if_neg (mt List.contains_iff_mem.mp hb), ih hnodup, List.append_assoc,
        List.singleton_append]

theorem bases_record {heritage : Heritage} {name : String} (h : (heritage.bases name).Nodup)
    (dec : Declaration) :
    (heritage.record dec).bases name = (heritage.bases name ++ dec.basesFor name).eraseDups := by
  have hskip : ∀ {bases : List String}, bases = [] →
      heritage.bases name = (heritage.bases name ++ bases).eraseDups := by
    rintro _ rfl
    rw [List.append_nil, Table.eraseDups_of_nodup h]
  cases dec with
  | definite other d => exact hskip rfl
  | bare other => exact hskip rfl
  | shape other bases properties =>
    unfold record
    dsimp only
    split
    · rename_i hempty
      apply hskip
      simp [Declaration.basesFor, List.isEmpty_iff.mp hempty]
    · by_cases hn : other = name
      · subst hn
        rw [show Heritage.bases (Table.put heritage other _) other = _ by
          rw [Heritage.bases, Table.value?_put_self, Option.getD_some]]
        have hbases : (Declaration.shape other bases properties).basesFor other = bases :=
          if_pos rfl
        rw [hbases]
        exact foldl_add_bases bases h
      · rw [show Heritage.bases (Table.put heritage other _) name = heritage.bases name by
          rw [Heritage.bases, Table.value?_put_of_ne _ _ (Ne.symm hn), Heritage.bases]]
        exact hskip (Declaration.basesFor_of_ne hn)

/-- The bases of a name, in the order in which its declarations first mention them. -/
theorem bases_ofDeclarations (declarations : List Declaration) (name : String) :
    (ofDeclarations declarations).bases name =
      (declarations.flatMap (Declaration.basesFor name)).eraseDups := by
  have hfold : ∀ heritage : Heritage, (heritage.bases name).Nodup →
      (declarations.foldl record heritage).bases name =
        (heritage.bases name ++ declarations.flatMap (Declaration.basesFor name)).eraseDups := by
    induction declarations with
    | nil =>
      intro heritage h
      simp [Table.eraseDups_of_nodup h]
    | cons dec rest ih =>
      intro heritage h
      have hstep := bases_record h dec
      have hnodup : ((heritage.record dec).bases name).Nodup := by
        rw [hstep]
        exact Table.nodup_eraseDups _
      rw [List.foldl_cons, ih _ hnodup, hstep, Table.eraseDups_eraseDups_append,
        List.flatMap_cons, List.append_assoc]
  exact hfold [] List.nodup_nil

theorem foldl_add_ne_nil {known bases : List String} (h : known ++ bases ≠ []) :
    bases.foldl (fun known base => if known.contains base then known else known ++ [base]) known ≠
      [] := by
  induction bases generalizing known with
  | nil => simpa using h
  | cons base rest ih =>
    rw [List.foldl_cons]
    apply ih
    split
    · rename_i hb
      have hmem : base ∈ known := List.contains_iff_mem.mp hb
      simp [List.ne_nil_of_mem hmem]
    · simp

theorem bases_ne_nil_of_record {heritage : Heritage} (dec : Declaration)
    (h : ∀ name, heritage.value? name ≠ some []) (name : String) :
    (heritage.record dec).value? name ≠ some [] := by
  cases dec with
  | definite other d => exact h name
  | bare other => exact h name
  | shape other bases properties =>
    unfold record
    dsimp only
    split
    · exact h name
    · rename_i hempty
      rw [Table.value?_put]
      split
      · rw [ne_eq, Option.some.injEq]
        apply foldl_add_ne_nil
        simp [mt List.isEmpty_iff.mpr hempty]
      · exact h name

/-- Only names that have bases are entered. -/
theorem value?_ne_nil (declarations : List Declaration) :
    ∀ name, (ofDeclarations declarations).value? name ≠ some [] := by
  unfold ofDeclarations
  apply List.foldlRecOn (motive := fun heritage : Heritage =>
    ∀ name, heritage.value? name ≠ some [])
  · intro name
    simp
  · intro heritage ih dec _
    exact bases_ne_nil_of_record dec ih

theorem names_record_extends (heritage : Heritage) (dec : Declaration) :
    Table.names heritage <+: Table.names (heritage.record dec) := by
  cases dec with
  | definite name d => exact List.prefix_rfl
  | bare name => exact List.prefix_rfl
  | shape name bases properties =>
    unfold record
    dsimp only
    split
    · exact List.prefix_rfl
    · rw [Table.names_put]
      split
      · exact List.prefix_rfl
      · exact List.prefix_append _ _

/-- A first declaration that has bases is entered first. -/
theorem names_ofDeclarations_shape (name : String) {bases : List String}
    (properties : Table Property) (hb : bases ≠ []) (rest : List Declaration) :
    ∃ names, Table.names (ofDeclarations (.shape name bases properties :: rest)) =
      name :: names := by
  have hprefix : ∀ heritage : Heritage,
      Table.names heritage <+: Table.names (rest.foldl record heritage) := by
    induction rest with
    | nil => exact fun _ => List.prefix_rfl
    | cons dec rest ih => exact fun heritage => (names_record_extends heritage dec).trans (ih _)
  have hfirst : Table.names (record [] (.shape name bases properties)) = [name] := by
    unfold record
    dsimp only
    rw [if_neg (mt List.isEmpty_iff.mp hb), Table.names_put]
    rfl
  obtain ⟨names, hn⟩ := hprefix (record [] (.shape name bases properties))
  exact ⟨names, by rw [ofDeclarations, List.foldl_cons, ← hn, hfirst, List.singleton_append]⟩

theorem flatMap_basesFor_perm {declarations declarations' : List Declaration}
    (h : (declarations.map Declaration.name).Nodup) (hp : declarations.Perm declarations')
    (name : String) :
    declarations.flatMap (Declaration.basesFor name) =
      declarations'.flatMap (Declaration.basesFor name) := by
  induction hp with
  | nil => rfl
  | cons dec _ ih => rw [List.flatMap_cons, List.flatMap_cons, ih (List.nodup_cons.mp h).2]
  | swap dec dec' rest =>
    have hne : dec'.name ≠ dec.name := fun he => (List.nodup_cons.mp h).1 (by simp [he])
    simp only [List.flatMap_cons, ← List.append_assoc]
    congr 1
    by_cases hn : dec.name = name
    · rw [Declaration.basesFor_of_ne (hn ▸ hne), List.nil_append, List.append_nil]
    · rw [Declaration.basesFor_of_ne hn, List.nil_append, List.append_nil]
  | trans hp₁ _ ih₁ ih₂ =>
    rw [ih₁ h, ih₂ ((hp₁.map Declaration.name).nodup_iff.mp h)]

end Heritage

namespace Ancestry

/-- The own properties that the declarations of a source record for each structure, and the
bases of each name in the order in which they are first mentioned. -/
def ofItems (items : List Item) : Ancestry where
  own := (Definitions.ofDeclarations (Declaration.ofItems items)).ownProperties?
  bases name := ((Declaration.ofItems items).flatMap (Declaration.basesFor name)).eraseDups
  finite := by
    apply (Definitions.ofDeclarations (Declaration.ofItems items)).names.finite_toSet.subset
    intro name hn
    obtain ⟨t, ht⟩ := Option.isSome_iff_exists.mp hn
    obtain ⟨d, hd, _⟩ := Option.bind_eq_some_iff.mp ht
    exact Table.mem_names_iff.mpr ⟨d, hd⟩
  nodup_own := by
    intro name t ht
    obtain ⟨d, hd, hp⟩ := Option.bind_eq_some_iff.mp ht
    have htidy := Definitions.tidy_ofDeclarations (Declaration.tidy_ofItems items) name d hd
    cases d with
    | structural properties =>
      cases hp
      exact htidy
    | enumerated values => cases hp

theorem mem_bases_ofItems {items : List Item} {name base : String} :
    base ∈ (ofItems items).bases name ↔
      ∃ dec ∈ Declaration.ofItems items, base ∈ dec.basesFor name := by
  show base ∈ List.eraseDups _ ↔ _
  rw [List.mem_eraseDups, List.mem_flatMap]

end Ancestry

def DeclaredOnce (items : List Item) : Prop :=
  ((Declaration.ofItems items).map Declaration.name).Nodup

theorem Declaration.ofItems_perm {items items' : List Item} (h : items.Perm items') :
    (ofItems items).Perm (ofItems items') := by
  rw [ofItems_eq_flatMap, ofItems_eq_flatMap]
  exact h.flatMap_right _

theorem Ancestry.ofItems_perm {items items' : List Item} (h : DeclaredOnce items)
    (hp : items.Perm items') : ofItems items = ofItems items' := by
  have hdecs := Declaration.ofItems_perm hp
  apply ext_of_eq
  · funext name
    show Definitions.ownProperties? _ name = Definitions.ownProperties? _ name
    unfold Definitions.ownProperties?
    rw [Definitions.value?_ofDeclarations_perm h hdecs]
  · funext name
    show List.eraseDups _ = List.eraseDups _
    rw [Heritage.flatMap_basesFor_perm h hdecs]

def plainMembers (properties : List (String × String)) : List Member :=
  properties.map fun entry => ⟨entry.1, false, some (.reference entry.2 entry.2 [])⟩

def plainInterface (name : String) (bases : List String) (properties : List (String × String)) :
    Item :=
  .interfaceDecl name bases (plainMembers properties)

section
variable {names : List String} {bases : String → List String}
  {properties : String → List (String × String)} {name base : String}

def plainItems (bases : String → List String) (properties : String → List (String × String))
    (names : List String) : List Item :=
  names.map fun name => plainInterface name (bases name) (properties name)

theorem ofItems_plainItems (bases : String → List String)
    (properties : String → List (String × String)) (names : List String) :
    Declaration.ofItems (plainItems bases properties names) = names.map fun name =>
      .shape name (bases name) (typedProperties (plainMembers (properties name))) := by
  induction names with
  | nil => rfl
  | cons name rest ih =>
    rw [List.map_cons, ← ih]
    rfl

theorem declaredOnce_plainItems (bases : String → List String)
    (properties : String → List (String × String)) (h : names.Nodup) :
    DeclaredOnce (plainItems bases properties names) := by
  rw [DeclaredOnce, ofItems_plainItems, List.map_map]
  have hname : Declaration.name ∘ (fun name => Declaration.shape name (bases name)
      (typedProperties (plainMembers (properties name)))) = id := rfl
  rwa [hname, List.map_id]

theorem own_plainItems (h : names.Nodup) {own : Table Property} :
    (Ancestry.ofItems (plainItems bases properties names)).own name = some own ↔
      name ∈ names ∧ typedProperties (plainMembers (properties name)) = own := by
  have hnodup := declaredOnce_plainItems bases properties h
  have hdefined := Definitions.value?_ofDeclarations_iff hnodup name
  rw [ofItems_plainItems] at hdefined
  show Definitions.ownProperties? _ name = some own ↔ _
  rw [Definitions.ownProperties?, Option.bind_eq_some_iff, ofItems_plainItems]
  constructor
  · rintro ⟨d, hd, hp⟩
    obtain ⟨dec, hdec, rfl, rfl⟩ := (hdefined d).mp hd
    obtain ⟨other, ho, rfl⟩ := List.mem_map.mp hdec
    exact ⟨ho, Option.some_injective _ hp⟩
  · rintro ⟨hn, rfl⟩
    refine ⟨_, (hdefined _).mpr ⟨_, List.mem_map_of_mem hn, rfl, rfl⟩, rfl⟩

theorem mem_bases_plainItems :
    base ∈ (Ancestry.ofItems (plainItems bases properties names)).bases name ↔
      name ∈ names ∧ base ∈ bases name := by
  rw [Ancestry.mem_bases_ofItems, ofItems_plainItems]
  constructor
  · rintro ⟨dec, hdec, hb⟩
    obtain rfl := Declaration.name_eq_of_mem_basesFor hb
    obtain ⟨other, ho, rfl⟩ := List.mem_map.mp hdec
    have hbases : base ∈ if other = other then bases other else [] := hb
    rw [if_pos rfl] at hbases
    exact ⟨ho, hbases⟩
  · rintro ⟨hn, hb⟩
    refine ⟨_, List.mem_map_of_mem hn, ?_⟩
    show base ∈ if name = name then bases name else []
    rwa [if_pos rfl]

end

end DeclSchema
