import DeclSchema.Proofs.Generation.SelfContained
import DeclSchema.Proofs.Reference.Graph

/-! # What the document of a root depends on

The document of a root and the references that it reports are made from the definitions that
the root leads to. Two sources that agree on these have the same document up to its order, and
the very same one if they have these names in one order.
-/
namespace DeclSchema

def SameOrder (names list other : List String) : Prop :=
  ∀ first ∈ names, ∀ second ∈ names,
    [first, second].Sublist list ↔ [first, second].Sublist other

/-- Of two names in a list without repetitions only one comes first. -/
theorem eq_of_sublist_pairs {list : List String} (h : list.Nodup) {first second : String}
    (hto : [first, second].Sublist list) (hback : [second, first].Sublist list) :
    first = second := by
  induction list with
  | nil => cases hto
  | cons name rest ih =>
    obtain ⟨hnew, hrest⟩ := List.nodup_cons.mp h
    rcases List.sublist_cons_iff.mp hto with hin | ⟨_, heq, _⟩ <;>
      rcases List.sublist_cons_iff.mp hback with hin' | ⟨_, heq', _⟩
    · exact ih hrest hin hin'
    · cases heq'
      exact absurd (hin.subset (List.mem_cons_of_mem first List.mem_cons_self)) hnew
    · cases heq
      exact absurd (hin'.subset (List.mem_cons_of_mem second List.mem_cons_self)) hnew
    · cases heq
      cases heq'
      rfl

/-- Lists with the same ones of the given names in the same order show one list of them. -/
theorem filter_eq_of_sameOrder {names list other : List String} (h : list.Nodup)
    (h' : other.Nodup) (hmem : ∀ name ∈ names, name ∈ list ↔ name ∈ other)
    (horder : SameOrder names list other) :
    list.filter names.contains = other.filter names.contains := by
  have hperm : (list.filter names.contains).Perm (other.filter names.contains) := by
    rw [List.perm_ext_iff_of_nodup (h.filter _) (h'.filter _)]
    intro name
    rw [List.mem_filter, List.mem_filter]
    exact and_congr_left fun hn => hmem name (List.contains_iff_mem.mp hn)
  refine @List.Perm.eq_of_pairwise _ (fun first second => [first, second].Sublist list) _ _
    (fun _ _ _ _ => eq_of_sublist_pairs h) ?_ ?_ hperm
  · exact List.pairwise_iff_forall_sublist.mpr fun hs => hs.trans List.filter_sublist
  · rw [List.pairwise_iff_forall_sublist]
    intro first second hs
    have hnames : ∀ name ∈ [first, second], name ∈ names := fun name hn =>
      List.contains_iff_mem.mp (List.mem_filter.mp (hs.subset hn)).2
    exact (horder first (hnames _ (by simp)) second (hnames _ (by simp))).mpr
      (hs.trans List.filter_sublist)

namespace Definitions
variable {definitions other : Definitions} {root name target : String} {d : Definition}

/-- The names that a root leads to. A root without a definition leads to itself alone. -/
def reached (definitions : Definitions) (root : String) : List String :=
  match definitions.value? root with
  | some d => closure definitions d [root]
  | none => [root]

theorem reached_of_value? (h : definitions.value? root = some d) :
    definitions.reached root = closure definitions d [root] := by
  rw [reached, h]

theorem mem_reached_iff :
    name ∈ definitions.reached root ↔ Relation.ReflTransGen definitions.Links root name := by
  unfold reached
  split
  · rename_i d hd
    exact mem_closure_root_iff hd name
  · rename_i hnone
    rw [List.mem_singleton]
    constructor
    · rintro rfl
      exact .refl
    · intro h
      rcases h.cases_head with rfl | ⟨_, ⟨d, hd, _⟩, _⟩
      · rfl
      · rw [hnone] at hd
        cases hd

def AgreesFrom (definitions other : Definitions) (root : String) : Prop :=
  ∀ name ∈ definitions.reached root, definitions.value? name = other.value? name

theorem links_congr (h : definitions.value? name = other.value? name) :
    definitions.Links name target ↔ other.Links name target := by
  unfold Links
  rw [h]

/-- Along chains from the root nothing but the definitions on the way matters. -/
theorem AgreesFrom.reach_iff (h : definitions.AgreesFrom other root) :
    Relation.ReflTransGen definitions.Links root name ↔
      Relation.ReflTransGen other.Links root name := by
  constructor
  · intro hr
    induction hr with
    | refl => exact .refl
    | tail hreach hlink ih =>
      exact ih.tail ((links_congr (h _ (mem_reached_iff.mpr hreach))).mp hlink)
  · intro hr
    induction hr with
    | refl => exact .refl
    | tail _ hlink ih =>
      exact ih.tail ((links_congr (h _ (mem_reached_iff.mpr ih))).mpr hlink)

theorem AgreesFrom.mem_reached_iff (h : definitions.AgreesFrom other root) :
    name ∈ definitions.reached root ↔ name ∈ other.reached root := by
  rw [Definitions.mem_reached_iff, Definitions.mem_reached_iff, h.reach_iff]

theorem AgreesFrom.value?_root (h : definitions.AgreesFrom other root) :
    definitions.value? root = other.value? root :=
  h root (Definitions.mem_reached_iff.mpr .refl)

theorem restrictedTo_eq_keep_reached (h : definitions.value? root = some d) :
    definitions.restrictedTo root d = Table.keep definitions (definitions.reached root).contains := by
  rw [reached_of_value? h]
  rfl

/-- The restricted tables have the same values. -/
theorem AgreesFrom.value?_restrictedTo (h : definitions.AgreesFrom other root)
    (hd : definitions.value? root = some d) (name : String) :
    Table.value? (definitions.restrictedTo root d) name =
      Table.value? (other.restrictedTo root d) name := by
  have hd' : other.value? root = some d := h.value?_root.symm.trans hd
  rw [restrictedTo_eq_keep_reached hd, restrictedTo_eq_keep_reached hd', Table.value?_keep,
    Table.value?_keep]
  have hiff : name ∈ definitions.reached root ↔ name ∈ other.reached root := h.mem_reached_iff
  by_cases hn : name ∈ definitions.reached root
  · simp [hn, hiff.mp hn, h name hn]
  · simp [hn, mt hiff.mpr hn]

theorem nodup_names_restrictedTo (hnodup : definitions.names.Nodup) (root : String)
    (d : Definition) : (Table.names (definitions.restrictedTo root d)).Nodup := by
  unfold restrictedTo
  rw [Table.names_keep]
  exact hnodup.filter _

theorem AgreesFrom.restrictedTo_perm (h : definitions.AgreesFrom other root)
    (hnodup : definitions.names.Nodup) (hnodup' : other.names.Nodup)
    (hd : definitions.value? root = some d) :
    (definitions.restrictedTo root d).Perm (other.restrictedTo root d) :=
  Table.perm_of_value? (nodup_names_restrictedTo hnodup root d)
    (nodup_names_restrictedTo hnodup' root d) (h.value?_restrictedTo hd)

theorem AgreesFrom.restrictedTo_eq (h : definitions.AgreesFrom other root)
    (hnodup : definitions.names.Nodup) (hd : definitions.value? root = some d)
    (hnames : definitions.names.filter (definitions.reached root).contains =
      other.names.filter (definitions.reached root).contains) :
    definitions.restrictedTo root d = other.restrictedTo root d := by
  apply Table.ext_of_nodup (nodup_names_restrictedTo hnodup root d) ?_ (h.value?_restrictedTo hd)
  have hd' : other.value? root = some d := h.value?_root.symm.trans hd
  rw [restrictedTo_eq_keep_reached hd, restrictedTo_eq_keep_reached hd', Table.names_keep,
    Table.names_keep, hnames]
  apply List.filter_congr
  intro name _
  rw [Bool.eq_iff_iff, List.contains_iff_mem, List.contains_iff_mem, h.mem_reached_iff]

theorem toDocument_perm (h : definitions.Perm other) (base : String) :
    (definitions.toDocument base).Perm (other.toDocument base) := by
  rw [toDocument_eq_mapValues, toDocument_eq_mapValues]
  exact h.map _

theorem dangling_perm (h : definitions.Perm other) :
    (ReferenceGraph.ofDefinitions definitions).dangling.Perm
      (ReferenceGraph.ofDefinitions other).dangling := by
  have hnames : definitions.names.Perm other.names := h.map _
  have hfree : ∀ r : Reference, (!definitions.names.contains r.target) =
      !other.names.contains r.target := fun r => by rw [hnames.contains_eq]
  show (List.filter _ (List.flatMap _ _)).Perm (List.filter _ (List.flatMap _ _))
  rw [List.filter_congr fun r _ => hfree r]
  exact (h.flatMap_right _).filter _

theorem report_dangling_perm (h : definitions.Perm other) (settings : Settings) :
    (definitions.report settings).dangling.Perm (other.report settings).dangling := by
  unfold report
  dsimp only
  split
  · exact dangling_perm h
  · exact .refl _

end Definitions

namespace Definitions
variable {definitions : Definitions} {root name : String} {d : Definition}

theorem ne_of_mem_reached (hfree : name ∉ definitions.reached root) {reached : String}
    (h : reached ∈ definitions.reached root) : reached ≠ name := by
  rintro rfl
  exact hfree h

/-- Writing a definition at a name that the root does not lead to, be it new or not, leaves
the restricted table as it is. -/
theorem restrictedTo_put (hnodup : definitions.names.Nodup) (hd : definitions.value? root = some d)
    (hfree : name ∉ definitions.reached root) (e : Definition) :
    definitions.restrictedTo root d = restrictedTo (definitions.put name e) root d := by
  have hagree : definitions.AgreesFrom (definitions.put name e) root := fun reached hr =>
    (Table.value?_put_of_ne definitions e (ne_of_mem_reached hfree hr)).symm
  apply hagree.restrictedTo_eq hnodup hd
  rw [Table.names_put]
  split
  · rfl
  · simp [hfree]

/-- So does leaving out the definition of such a name. -/
theorem restrictedTo_keep_ne (hnodup : definitions.names.Nodup)
    (hd : definitions.value? root = some d) (hfree : name ∉ definitions.reached root) :
    definitions.restrictedTo root d = restrictedTo (definitions.keep (· != name)) root d := by
  have hagree : definitions.AgreesFrom (definitions.keep (· != name)) root := by
    intro reached hr
    rw [Table.value?_keep, if_pos (bne_iff_ne.mpr (ne_of_mem_reached hfree hr))]
  apply hagree.restrictedTo_eq hnodup hd
  rw [Table.names_keep, List.filter_filter]
  apply List.filter_congr
  intro other _
  by_cases hr : other ∈ definitions.reached root
  · simp [hr, ne_of_mem_reached hfree hr]
  · simp [hr]

end Definitions

namespace Settings

/-- Where two sources agree on all that a root leads to, the runs for this root agree: if it
is unknown, in both, and else in the schemas with their names and in the references that are
reported. The order is the same as well if the reached names have one order in both sources.
In particular a definition that the root does not lead to may be added, changed or left out. -/
theorem generateOne_depends_on_reached (settings : Settings) (root : String)
    {path path' source source' : String} {definitions other : Definitions}
    (h : Definitions.ofSource path source = .ok definitions)
    (h' : Definitions.ofSource path' source' = .ok other)
    (hagree : definitions.AgreesFrom other root) :
    (if root ∈ definitions.names then
      ∃ one one', settings.generateOne path source root = .ok one ∧
        settings.generateOne path' source' root = .ok one' ∧
        one.document.Perm one'.document ∧ one.dangling.Perm one'.dangling ∧
        (SameOrder (definitions.reached root) definitions.names other.names →
          one.document = one'.document ∧ one.dangling = one'.dangling)
    else
      settings.generateOne path source root = .error (.unknownName root path) ∧
        settings.generateOne path' source' root = .error (.unknownName root path')) ∧
    ∀ d, definitions.value? root = some d → ∀ name ∉ definitions.reached root,
      (∀ e, Definitions.report (Definitions.restrictedTo (definitions.put name e) root d) settings =
        (definitions.restrictedTo root d).report settings) ∧
      Definitions.report (Definitions.restrictedTo (definitions.keep (· != name)) root d) settings =
        (definitions.restrictedTo root d).report settings := by
  have hnodup := Definitions.nodup_names_ofSource h
  have hnodup' := Definitions.nodup_names_ofSource h'
  refine ⟨?_, fun d hd name hfree => ⟨fun e => ?_, ?_⟩⟩
  · rw [generateOne_of_ok h, generateOne_of_ok h', ← hagree.value?_root]
    split
    · rename_i hroot
      obtain ⟨d, hd⟩ := Table.mem_names_iff.mp hroot
      have hperm := hagree.restrictedTo_perm hnodup hnodup' hd
      rw [hd]
      refine ⟨_, _, rfl, rfl, Definitions.toDocument_perm hperm settings.base,
        Definitions.report_dangling_perm hperm settings, fun horder => ?_⟩
      have hmem : ∀ name ∈ definitions.reached root,
          name ∈ definitions.names ↔ name ∈ other.names := fun name hn => by
        rw [Table.mem_names_iff, Table.mem_names_iff, hagree name hn]
      rw [hagree.restrictedTo_eq hnodup hd (filter_eq_of_sameOrder hnodup hnodup' hmem horder)]
      exact ⟨rfl, rfl⟩
    · rename_i hroot
      rw [Table.value?_eq_none_iff.mpr hroot]
      exact ⟨rfl, rfl⟩
  · rw [← Definitions.restrictedTo_put hnodup hd hfree e]
  · rw [← Definitions.restrictedTo_keep_ne hnodup hd hfree]

def parcelSource : String :=
  "interface Parcel { lines: Line[]; route: Route }\ninterface Depot { lines: Line }\n" ++
    "interface Line { parcel: Parcel | null }"

def movedSource : String :=
  "enum Depot { North }\ninterface Parcel { lines: Line[]; route: Route }\n" ++
    "interface Line { parcel: Parcel | null }\ntype Truck = { parcels: Parcel[] }"

def parcelDefinitions : Definitions :=
  [("Parcel", .structural [("lines", ⟨"Line[]", false⟩), ("route", ⟨"Route", false⟩)]),
    ("Depot", .structural [("lines", ⟨"Line", false⟩)]),
    ("Line", .structural [("parcel", ⟨"Parcel | null", false⟩)])]

def movedDefinitions : Definitions :=
  [("Depot", .enumerated [.string "North"]),
    ("Parcel", .structural [("lines", ⟨"Line[]", false⟩), ("route", ⟨"Route", false⟩)]),
    ("Line", .structural [("parcel", ⟨"Parcel | null", false⟩)]),
    ("Truck", .structural [("parcels", ⟨"Parcel[]", false⟩)])]

theorem generateOne_of_parcel :
    Definitions.ofSource "models.ts" parcelSource = .ok parcelDefinitions ∧
      Definitions.ofSource "moved.ts" movedSource = .ok movedDefinitions ∧
      parcelDefinitions.AgreesFrom movedDefinitions "Parcel" ∧
      "Depot" ∉ parcelDefinitions.reached "Parcel" ∧
      ∃ one one', ({} : Settings).generateOne "models.ts" parcelSource "Parcel" = .ok one ∧
        ({} : Settings).generateOne "moved.ts" movedSource "Parcel" = .ok one' ∧
        one.document = one'.document ∧ one.dangling = one'.dangling := by
  have h : Definitions.ofSource "models.ts" parcelSource = .ok parcelDefinitions := by
    decide +kernel
  have h' : Definitions.ofSource "moved.ts" movedSource = .ok movedDefinitions := by
    decide +kernel
  have hreached : parcelDefinitions.reached "Parcel" = ["Parcel", "Line", "Route"] := by
    decide +kernel
  have hagree : parcelDefinitions.AgreesFrom movedDefinitions "Parcel" := by
    unfold Definitions.AgreesFrom
    rw [hreached]
    decide
  obtain ⟨hruns, _⟩ := generateOne_depends_on_reached {} "Parcel" h h' hagree
  rw [if_pos (by decide)] at hruns
  obtain ⟨one, one', hone, hone', _, _, hsame⟩ := hruns
  refine ⟨h, h', hagree, by rw [hreached]; decide, one, one', hone, hone', hsame ?_⟩
  unfold SameOrder
  rw [hreached]
  decide

end Settings
end DeclSchema
