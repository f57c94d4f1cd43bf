import DeclSchema.Extraction
import DeclSchema.Proofs.Inheritance.Ancestry
import Mathlib.Data.List.Nodup

/-! # Gathering tables along an ancestry

Collecting the properties of a list of names below a path of open names, where tables that
are finished are recalled, is a relation between the known tables before and after. The
run of `Definitions.collect` is one instance of it, and what holds of every run is shown by
induction on the relation.
-/
namespace DeclSchema

/-- Below an open path, the names give the results one after another, where a name that is no
structure gives none. -/
inductive Gathers (a : Ancestry) :
    List String → Inherited → List String → List (Table Property) → Inherited → Prop
  | nil {path known} : Gathers a path known [] [] known
  | recalled {path known name t rest results known'} :
      known.value? name = some t →
      Gathers a path known rest results known' →
      Gathers a path known (name :: rest) (t :: results) known'
  | skip {path known name rest results known'} :
      known.value? name = none →
      a.own name = none →
      Gathers a path known rest results known' →
      Gathers a path known (name :: rest) results known'
  | plain {path known name own rest results known'} :
      known.value? name = none →
      a.own name = some own →
      a.bases name = [] ∨ name ∈ path →
      Gathers a path known rest results known' →
      Gathers a path known (name :: rest) (own :: results) known'
  | merge {path known name own lower middle rest results known'} :
      known.value? name = none →
      a.own name = some own →
      a.bases name ≠ [] →
      name ∉ path →
      Gathers a (name :: path) known (a.bases name) lower middle →
      Gathers a path (Table.put middle name (own.overlay lower)) rest results known' →
      Gathers a path known (name :: rest) (own.overlay lower :: results) known'

structure Ancestry.Describes (a : Ancestry) (definitions : Definitions) (heritage : Heritage) :
    Prop where
  own_eq : a.own = definitions.ownProperties?
  bases_eq : ∀ name, a.bases name = (heritage.value? name).getD []
  ne_nil : ∀ name, heritage.value? name ≠ some []

namespace Definitions
variable {a : Ancestry} {definitions : Definitions} {heritage : Heritage}

theorem run_mapM_cons (f : String → StateM Inherited (Option (Table Property))) (name : String)
    (rest : List String) (known : Inherited) :
    ((name :: rest).mapM f).run known =
      (((f name).run known).1 :: ((rest.mapM f).run ((f name).run known).2).1,
        ((rest.mapM f).run ((f name).run known).2).2) := by
  rw [List.mapM_cons]
  rfl

theorem run_collect_succ (depth : Nat) (path : List String) (name : String) (known : Inherited) :
    (collect definitions heritage (depth + 1) path name).run known =
      match known.value? name with
      | some done => (some done, known)
      | none =>
        match definitions.ownProperties? name, heritage.value? name with
        | none, _ => (none, known)
        | some own, none => (some own, known)
        | some own, some bases =>
          if path.contains name then (some own, known)
          else
            let gathered := (bases.mapM (collect definitions heritage depth (name :: path))).run known
            let merged := Table.putAll ((gathered.1.filterMap id).foldl Table.putAllNew []) own
            (some merged, Table.put gathered.2 name merged) := by
  rw [collect, StateT.run_bind, StateT.run_get, pure_bind]
  cases hk : known.value? name with
  | some done => rfl
  | none =>
    cases ho : definitions.ownProperties? name with
    | none => rfl
    | some own =>
      cases hb : heritage.value? name with
      | none => rfl
      | some bases =>
        cases hp : path.contains name with
        | true => rfl
        | false => rfl

/-- Collecting names gathers their tables. The depth is enough, because the names on the
path are different names that have bases. -/
theorem gathers_mapM_collect (hd : a.Describes definitions heritage) (depth : Nat)
    {path : List String} (hnodup : path.Nodup) (hsub : path ⊆ Table.names heritage)
    (hdepth : heritage.length < depth + path.length) (names : List String) (known : Inherited) :
    Gathers a path known names
      (((names.mapM (collect definitions heritage depth path)).run known).1.filterMap id)
      ((names.mapM (collect definitions heritage depth path)).run known).2 := by
  induction depth generalizing path names known with
  | zero =>
    -- such a path would hold more names than there are names with bases
    have hlen := (List.subperm_of_subset hnodup hsub).length_le
    simp only [Table.names, List.length_map] at hlen
    omega
  | succ depth ihd =>
    induction names generalizing known with
    | nil => exact .nil
    | cons name rest ih =>
      rw [run_mapM_cons, run_collect_succ]
      cases hk : known.value? name with
      | some done => exact .recalled hk (ih known)
      | none =>
        cases ho : definitions.ownProperties? name with
        | none => exact .skip hk (by rw [hd.own_eq, ho]) (ih known)
        | some own =>
          have hown : a.own name = some own := by rw [hd.own_eq, ho]
          cases hb : heritage.value? name with
          | none =>
            have hnil : a.bases name = [] := by rw [hd.bases_eq, hb, Option.getD_none]
            exact .plain hk hown (.inl hnil) (ih known)
          | some bases =>
            have hbases : a.bases name = bases := by rw [hd.bases_eq, hb, Option.getD_some]
            dsimp only
            by_cases hp : name ∈ path
            · rw [if_pos (List.contains_iff_mem.mpr hp)]
              exact .plain hk hown (.inr hp) (ih known)
            · rw [if_neg (mt List.contains_iff_mem.mp hp)]
              have hne : a.bases name ≠ [] := fun hnil =>
                hd.ne_nil name (by rw [hb, ← hbases, hnil])
              have hmem : name ∈ Table.names heritage := Table.mem_names_iff.mpr ⟨bases, hb⟩
              have hlower := ihd (List.nodup_cons.mpr ⟨hp, hnodup⟩)
                (List.cons_subset.mpr ⟨hmem, hsub⟩) (by rw [List.length_cons]; omega) bases known
              simp only [Table.putAll_foldl_putAllNew _ (a.nodup_own hown)]
              exact .merge hk hown hne hp (hbases ▸ hlower) (ih _)

theorem run_forM_discard (f : String → StateM Inherited (Option (Table Property)))
    (names : List String) (known : Inherited) :
    ((names.forM fun name => discard (f name)).run known).2 = ((names.mapM f).run known).2 := by
  induction names generalizing known with
  | nil => rfl
  | cons name rest ih =>
    rw [run_mapM_cons]
    exact ih ((f name).run known).2

theorem gathers_inheritedTables (hd : a.Describes definitions heritage) :
    ∃ results, Gathers a [] [] (Table.names heritage) results
      (inheritedTables definitions heritage) := by
  have hrun := gathers_mapM_collect hd (heritage.length + 1) List.nodup_nil
    (List.nil_subset _) (by simp) (Table.names heritage) []
  rw [← run_forM_discard] at hrun
  exact ⟨_, hrun⟩

end Definitions
namespace Gathers
variable {a : Ancestry} {path names : List String} {known known' : Inherited}
  {results : List (Table Property)} {name : String} {t : Table Property}

theorem known_kept (h : Gathers a path known names results known')
    (hk : known.value? name = some t) : known'.value? name = some t := by
  induction h with
  | nil => exact hk
  | recalled _ _ ih => exact ih hk
  | skip _ _ _ ih => exact ih hk
  | plain _ _ _ _ ih => exact ih hk
  | merge hnew _ _ _ _ _ ihlower ihrest =>
    apply ihrest
    rw [Table.value?_put_of_ne]
    · exact ihlower hk
    · rintro rfl
      exact Option.some_ne_none t (hk.symm.trans hnew)

/-- Names on the path stay unknown. -/
theorem unknown_on_path (h : Gathers a path known names results known') (hp : name ∈ path)
    (hk : known.value? name = none) : known'.value? name = none := by
  induction h with
  | nil => exact hk
  | recalled _ _ ih => exact ih hp hk
  | skip _ _ _ ih => exact ih hp hk
  | plain _ _ _ _ ih => exact ih hp hk
  | merge _ _ _ hoff _ _ ihlower ihrest =>
    apply ihrest hp
    rw [Table.value?_put_of_ne]
    · exact ihlower (List.mem_cons_of_mem _ hp) hk
    · rintro rfl
      exact hoff hp

/-- Every structure that has bases becomes known, unless it is on the path. -/
theorem known_of_mem (h : Gathers a path known names results known') (hn : name ∈ names)
    (ho : (a.own name).isSome) (hb : a.bases name ≠ []) :
    name ∈ path ∨ ∃ t, known'.value? name = some t := by
  induction h with
  | nil => cases hn
  | recalled hk hrest ih =>
    rcases List.mem_cons.mp hn with rfl | hn
    · exact .inr ⟨_, hrest.known_kept hk⟩
    · exact ih hn
  | skip _ hnone _ ih =>
    rcases List.mem_cons.mp hn with rfl | hn
    · simp [hnone] at ho
    · exact ih hn
  | plain _ _ hplain _ ih =>
    rcases List.mem_cons.mp hn with rfl | hn
    · exact hplain.elim (absurd · hb) .inl
    · exact ih hn
  | merge _ _ _ _ _ hrest _ ih =>
    rcases List.mem_cons.mp hn with rfl | hn
    · exact .inr ⟨_, hrest.known_kept (Table.value?_put_self _ _ _)⟩
    · exact ih hn

def Closed (a : Ancestry) (path : List String) (known : Inherited) : Prop :=
  ∀ name t, known.value? name = some t → ∀ base, a.Inherits name base → a.bases base ≠ [] →
    base ∈ path ∨ ∃ t, known.value? base = some t

theorem closed (h : Gathers a path known names results known') (hc : Closed a path known) :
    Closed a path known' := by
  induction h with
  | nil => exact hc
  | recalled _ _ ih => exact ih hc
  | skip _ _ _ ih => exact ih hc
  | plain _ _ _ _ ih => exact ih hc
  | @merge path known name own lower middle rest results known' _ _ _ _ hlower _ ihlower ihrest =>
    have hopen : Closed a (name :: path) known := fun other t ht base hi hb =>
      (hc other t ht base hi hb).imp (List.mem_cons_of_mem _) id
    have hmiddle := ihlower hopen
    -- the name itself leaves the path at the moment at which it becomes known
    have hput : ∀ base, base ∈ name :: path ∨ (∃ t, middle.value? base = some t) →
        base ∈ path ∨ ∃ t, (Table.put middle name (own.overlay lower)).value? base = some t := by
      intro base hbase
      rw [Table.value?_put]
      split
      · exact .inr ⟨_, rfl⟩
      · rename_i hne
        exact hbase.imp (fun hm => (List.mem_cons.mp hm).resolve_left hne) id
    apply ihrest
    intro other t ht base hi hb
    apply hput
    by_cases ho : other = name
    · subst ho
      exact hlower.known_of_mem hi.listed hi.structure_base hb
    · rw [Table.value?_put_of_ne _ _ ho] at ht
      exact hmiddle other t ht base hi hb

/-- Whatever a known table holds came with the results, if it is newly known. -/
theorem flows (h : Gathers a path known names results known') (ht : known'.value? name = some t) :
    known.value? name = some t ∨
      ∀ property ∈ t.names, ∃ result ∈ results, property ∈ result.names := by
  induction h with
  | nil => exact .inl ht
  | recalled _ _ ih =>
    exact (ih ht).imp id fun hp property hm => List.exists_mem_cons_of_exists (hp property hm)
  | skip _ _ _ ih => exact ih ht
  | plain _ _ _ _ ih =>
    exact (ih ht).imp id fun hp property hm => List.exists_mem_cons_of_exists (hp property hm)
  | @merge path known other own lower middle rest results known' _ _ _ _ _ _ ihlower ihrest =>
    rcases ihrest ht with hput | hp
    · rw [Table.value?_put] at hput
      split at hput
      · cases hput
        exact .inr fun property hm => ⟨_, List.mem_cons_self, hm⟩
      · refine (ihlower hput).imp id fun hp property hm => ?_
        obtain ⟨u, hu, hm⟩ := hp property hm
        exact ⟨_, List.mem_cons_self, Table.mem_names_overlay_iff.mpr (.inr ⟨u, hu, hm⟩)⟩
    · exact .inr fun property hm => List.exists_mem_cons_of_exists (hp property hm)

/-- A known table holds the own properties of its name and of the bases of its name. -/
def Covering (a : Ancestry) (known : Inherited) : Prop :=
  ∀ name t, known.value? name = some t → ∀ other, other = name ∨ a.Inherits name other →
    ∀ own, a.own other = some own → own.names ⊆ t.names

theorem covering (h : Gathers a path known names results known') (hc : Covering a known) :
    Covering a known' ∧ ∀ name ∈ names, ∀ own, a.own name = some own →
      ∃ result ∈ results, own.names ⊆ result.names := by
  induction h with
  | nil => exact ⟨hc, by simp⟩
  | @recalled path known name t rest results known' hk _ ih =>
    obtain ⟨hc', hrest⟩ := ih hc
    refine ⟨hc', fun other ho own hown => ?_⟩
    rcases List.mem_cons.mp ho with rfl | ho
    · exact ⟨t, List.mem_cons_self, hc other t hk other (.inl rfl) own hown⟩
    · exact List.exists_mem_cons_of_exists (hrest other ho own hown)
  | @skip path known name rest results known' _ hnone _ ih =>
    obtain ⟨hc', hrest⟩ := ih hc
    refine ⟨hc', fun other ho own hown => ?_⟩
    rcases List.mem_cons.mp ho with rfl | ho
    · exact absurd (hnone.symm.trans hown) (Option.some_ne_none own).symm
    · exact hrest other ho own hown
  | @plain path known name self rest results known' _ hself _ _ ih =>
    obtain ⟨hc', hrest⟩ := ih hc
    refine ⟨hc', fun other ho own hown => ?_⟩
    rcases List.mem_cons.mp ho with rfl | ho
    · cases hself.symm.trans hown
      exact ⟨_, List.mem_cons_self, List.Subset.refl _⟩
    · exact List.exists_mem_cons_of_exists (hrest other ho own hown)
  | @merge path known name self lower middle rest results known' _ hself _ _ _ _ ihlower ihrest =>
    obtain ⟨hmiddle, hbases⟩ := ihlower hc
    have hover : ∀ other, other = name ∨ a.Inherits name other → ∀ own, a.own other = some own →
        own.names ⊆ (self.overlay lower).names := by
      rintro other ho own hown property hp
      rw [Table.mem_names_overlay_iff]
      rcases ho with rfl | hi
      · cases hself.symm.trans hown
        exact .inl hp
      · obtain ⟨result, hr, hsub⟩ := hbases other hi.listed own hown
        exact .inr ⟨result, hr, hsub hp⟩
    have hput : Covering a (Table.put middle name (self.overlay lower)) := by
      intro other t ht
      rw [Table.value?_put] at ht
      split at ht
      · rename_i he
        cases ht
        exact he ▸ hover
      · exact hmiddle other t ht
    obtain ⟨hc', hrest⟩ := ihrest hput
    refine ⟨hc', fun other ho own hown => ?_⟩
    rcases List.mem_cons.mp ho with rfl | ho
    · exact ⟨_, List.mem_cons_self, hover other (.inl rfl) own hown⟩
    · exact List.exists_mem_cons_of_exists (hrest other ho own hown)

/-- Gathering the bases of a name, with nothing known before, makes known all that the name
leads to, as far as it has bases. -/
theorem known_of_leads {start : String} (h : Gathers a [start] [] (a.bases start) results known')
    (hl : a.Leads start name) (hb : a.bases name ≠ []) :
    name = start ∨ ∃ t, known'.value? name = some t := by
  have hclosed : Closed a [start] known' := h.closed fun _ _ hk => by cases hk
  induction hl with
  | refl => exact .inl rfl
  | @tail other name _ hi ih =>
    have hother : a.bases other ≠ [] := List.ne_nil_of_mem hi.listed
    have hname : name ∈ [start] ∨ ∃ t, known'.value? name = some t := by
      rcases ih hother with rfl | ⟨t, ht⟩
      · exact h.known_of_mem hi.listed hi.structure_base hb
      · exact hclosed other t ht name hi hb
    exact hname.imp List.mem_singleton.mp id

def Sound (a : Ancestry) (known : Inherited) : Prop :=
  ∀ name t, a.Untangled name → known.value? name = some t → a.table name = some t

/-- The path leads to the names that are gathered below it, and nothing on it is known. -/
structure Leading (a : Ancestry) (path : List String) (known : Inherited) (names : List String) :
    Prop where
  leads : ∀ other ∈ path, ∀ name ∈ names, (a.own name).isSome → a.Leads other name
  unknown : ∀ other ∈ path, known.value? other = none

theorem Leading.nil (known : Inherited) (names : List String) : Leading a [] known names :=
  ⟨by simp, by simp⟩

theorem Leading.tail {rest : List String} (h : Leading a path known (name :: rest)) :
    Leading a path known rest :=
  ⟨fun other ho third ht => h.leads other ho third (List.mem_cons_of_mem _ ht), h.unknown⟩

theorem Leading.bases {rest : List String} (h : Leading a path known (name :: rest))
    (hk : known.value? name = none) (ho : (a.own name).isSome) :
    Leading a (name :: path) known (a.bases name) := by
  constructor
  · intro other hother base hb hs
    have hi : a.Inherits name base := ⟨hb, ho, hs⟩
    rcases List.mem_cons.mp hother with rfl | hother
    · exact .single hi
    · exact (h.leads other hother name List.mem_cons_self ho).tail hi
  · intro other hother
    rcases List.mem_cons.mp hother with rfl | hother
    · exact hk
    · exact h.unknown other hother

/-- An untangled name meets only itself of the path among its bases. -/
theorem Leading.mem_path_iff {rest : List String} (h : Leading a path known (name :: rest))
    (hu : a.Untangled name) {base : String} (hi : a.Inherits name base) :
    base ∈ name :: path ↔ base = name := by
  constructor
  · intro hb
    rcases List.mem_cons.mp hb with he | hb
    · exact he
    · exact hu name .refl base (.single hi) (h.leads base hb name List.mem_cons_self hi.structure_name)
  · rintro rfl
    exact List.mem_cons_self

/-- What a structure of untangled bases is given: its own properties if it is on the path,
else its table. -/
noncomputable def result? (a : Ancestry) (path : List String) (name : String) :
    Option (Table Property) :=
  if name ∈ path then a.own name else a.table name

theorem Leading.overlay_eq_table {rest : List String} {own : Table Property}
    (h : Leading a path known (name :: rest)) (hu : a.Untangled name) (ho : a.own name = some own) :
    some (own.overlay ((a.bases name).filterMap (result? a (name :: path)))) = a.table name := by
  rw [hu.table_eq ho]
  congr 2
  apply List.filterMap_congr
  intro base hb
  unfold result?
  cases hob : a.own base with
  | none => simp [Ancestry.table_eq_none hob]
  | some ownBase =>
    have hi : a.Inherits name base := ⟨hb, by simp [ho], by simp [hob]⟩
    simp only [h.mem_path_iff hu hi]

theorem Sound.put {own : Table Property} (hs : Sound a known)
    (ht : a.Untangled name → a.table name = some own) : Sound a (Table.put known name own) := by
  intro other t hu hk
  rw [Table.value?_put] at hk
  split at hk
  · rename_i he
    cases hk
    rw [he] at hu ⊢
    exact ht hu
  · exact hs other t hu hk

theorem sound (h : Gathers a path known names results known') (hl : Leading a path known names)
    (hs : Sound a known) :
    Sound a known' ∧
      ((∀ name ∈ names, a.Untangled name) → results = names.filterMap (result? a path)) := by
  induction h with
  | nil => exact ⟨hs, fun _ => rfl⟩
  | @recalled path known name t rest results known' hk _ ih =>
    obtain ⟨hs', hresults⟩ := ih hl.tail hs
    refine ⟨hs', fun hu => ?_⟩
    obtain ⟨huname, hurest⟩ := List.forall_mem_cons.mp hu
    have hoff : name ∉ path := fun hp => Option.some_ne_none t (hk.symm.trans (hl.unknown name hp))
    have hself : result? a path name = some t := by
      rw [result?, if_neg hoff, hs name t huname hk]
    rw [List.filterMap_cons_some hself, hresults hurest]
  | @skip path known name rest results known' _ hnone _ ih =>
    obtain ⟨hs', hresults⟩ := ih hl.tail hs
    refine ⟨hs', fun hu => ?_⟩
    obtain ⟨_, hurest⟩ := List.forall_mem_cons.mp hu
    have hself : result? a path name = none := by
      rw [result?, hnone, Ancestry.table_eq_none hnone, ite_self]
    rw [List.filterMap_cons_none hself, hresults hurest]
  | @plain path known name own rest results known' _ ho hplain _ ih =>
    obtain ⟨hs', hresults⟩ := ih hl.tail hs
    refine ⟨hs', fun hu => ?_⟩
    obtain ⟨_, hurest⟩ := List.forall_mem_cons.mp hu
    have hself : result? a path name = some own := by
      unfold result?
      split
      · exact ho
      · rename_i hoff
        exact Ancestry.table_of_bases_nil ho (hplain.resolve_right hoff)
    rw [List.filterMap_cons_some hself, hresults hurest]
  | @merge path known name own lower middle rest results known' hk ho _ hoff hlower _ ihlower ihrest =>
    have hsome : (a.own name).isSome := by simp [ho]
    obtain ⟨hmiddle, hbases⟩ := ihlower (hl.bases hk hsome) hs
    -- of the path, only the name itself can cut off one of its bases, as in its table
    have htable : a.Untangled name → a.table name = some (own.overlay lower) := by
      intro hu
      have hbase : ∀ base ∈ a.bases name, a.Untangled base := by
        intro base hb
        cases hob : a.own base with
        | none =>
          exact Ancestry.untangled_of_no_bases fun _ hi => by simpa [hob] using hi.structure_name
        | some _ => exact hu.of_leads (.single ⟨hb, hsome, by simp [hob]⟩)
      rw [hbases hbase, hl.overlay_eq_table hu ho]
    have hput : Leading a path (Table.put middle name (own.overlay lower)) rest := by
      refine ⟨hl.tail.leads, fun other hother => ?_⟩
      have hne : other ≠ name := fun he => hoff (he ▸ hother)
      rw [Table.value?_put_of_ne _ _ hne]
      exact hlower.unknown_on_path (List.mem_cons_of_mem _ hother) (hl.unknown other hother)
    obtain ⟨hs', hresults⟩ := ihrest hput (hmiddle.put htable)
    refine ⟨hs', fun hu => ?_⟩
    obtain ⟨huname, hurest⟩ := List.forall_mem_cons.mp hu
    have hself : result? a path name = some (own.overlay lower) := by
      rw [result?, if_neg hoff, htable huname]
    rw [List.filterMap_cons_some hself, hresults hurest]

end Gathers
end DeclSchema
