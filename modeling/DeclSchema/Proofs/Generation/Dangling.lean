import DeclSchema.Proofs.Generation.SelfContained
import DeclSchema.Proofs.Reference.Graph

/-! # Reported references

The references that are reported come from the graph of the definitions, before any schema
is made. The document shows the same ones: the paths in it that lead to none of its schemas.
This needs a start of the paths that cannot become part of an array marker.
-/
namespace DeclSchema
open Text

def Schema.innermostPath? : Schema → Option String
  | reference path => some path
  | array items => items.innermostPath?
  | _ => none

def Schema.target? (base : String) (schema : Schema) : Option String :=
  schema.innermostPath?.bind fun path =>
    (afterHead? base.toList path.toList).map String.ofList

def Schema.properties : Schema → List (String × Schema)
  | object properties _ => properties
  | _ => []

/-- The properties of the document, in its order, whose path leads to a name that is neither
reserved nor the name of a schema in the document. -/
def Document.unresolved (base : String) (document : Document) : List Reference :=
  document.flatMap fun entry => entry.2.properties.filterMap fun property =>
    ((property.2.target? base).filter fun target =>
        !isReserved target && !(Table.names document).contains target).map
      fun target => ⟨entry.1, property.1, target⟩

/-- A start of paths that no name can turn into an array marker. -/
def ClosedStart (base : String) : Prop :=
  ∀ c, base.toList.getLast? = some c → c ≠ '[' ∧ c ≠ ']'

namespace Schema
variable {base name : String}

theorem not_marked_of_closedStart (hbase : ClosedStart base)
    (hname : beforeTail? ['[', ']'] name.toList = none) :
    beforeTail? ['[', ']'] (base ++ name).toList = none := by
  rw [Option.eq_none_iff_forall_ne_some] at hname ⊢
  intro rest hrest
  rw [beforeTail?_eq_some_iff, String.toList_append] at hrest
  rcases List.append_eq_append_iff.mp hrest with ⟨middle, hmiddle, hn⟩ | ⟨middle, hb, hm⟩
  · exact hname middle (beforeTail?_eq_some_iff.mpr hn)
  · cases middle with
    | nil => exact hname [] (beforeTail?_eq_some_iff.mpr hm.symm)
    | cons c middle =>
      have hlast : base.toList.getLast? = some ((c :: middle).getLast (by simp)) := by
        rw [hb, List.getLast?_append_of_ne_nil _ (by simp), List.getLast?_eq_some_getLast]
      have hmem : (c :: middle).getLast (by simp) ∈ ['[', ']'] := by
        rw [hm]
        exact List.mem_append_left _ (List.getLast_mem _)
      have hends := hbase _ hlast
      simp only [List.mem_cons, List.not_mem_nil, or_false] at hmem
      exact hmem.elim hends.1 hends.2

theorem innermostPath?_dereference_toSchema (hbase : ClosedStart base) (shape : Shape)
    (hshape : ∀ name, shape.referencedName? = some name →
      beforeTail? ['[', ']'] name.toList = none) :
    (shape.toSchema base).dereference.innermostPath? =
      shape.referencedName?.map (base ++ ·) := by
  induction shape with
  | primitive type => rfl
  | array items ih => exact ih hshape
  | reference name =>
    have hnone := not_marked_of_closedStart hbase (hshape name rfl)
    show innermostPath? (ofPath (base ++ name).toList) = _
    rw [ofPath_of_not_marked hnone, String.ofList_toList]
    rfl

/-- The schema of a property refers to the name that the shape of its type ends in. -/
theorem target?_dereference_toSchema (hbase : ClosedStart base) (text : String) :
    ((Shape.ofText text).toSchema base).dereference.target? base =
      (Shape.ofText text).referencedName? := by
  have hpath := innermostPath?_dereference_toSchema hbase (Shape.ofText text)
    fun name h => Shape.bracketElement?_referencedName h
  rw [target?, hpath]
  cases (Shape.ofText text).referencedName? with
  | none => rfl
  | some name =>
    have hrest : afterHead? base.toList (base ++ name).toList = some name.toList :=
      afterHead?_eq_some_iff.mpr String.toList_append
    show Option.map String.ofList (afterHead? base.toList (base ++ name).toList) = some name
    rw [hrest, Option.map_some, String.ofList_toList]

end Schema

namespace Definitions
variable {definitions : Definitions} {base : String}

/-- Among the references of one definition, its schema shows those that lead to none of the
given names. -/
theorem unresolved_toSchema (hbase : ClosedStart base) (name : String) (d : Definition)
    (names : List String) :
    ((d.toSchema base).dereference.properties.filterMap fun property =>
        ((property.2.target? base).filter fun target =>
            !isReserved target && !names.contains target).map
          fun target => (⟨name, property.1, target⟩ : Reference)) =
      (d.references name).filter fun r => !names.contains r.target := by
  cases d with
  | enumerated values => rfl
  | structural properties =>
    rw [Definition.toSchema, Schema.dereference, Schema.properties,
      Schema.dereferenceAll_eq_mapValues, Definition.references, List.filter_filterMap]
    unfold Table.mapValues
    rw [List.filterMap_map, List.filterMap_map]
    apply List.filterMap_congr
    intro property _
    show (Option.filter _ (Schema.target? base _)).map _ = _
    dsimp only [Function.comp_apply]
    rw [Schema.target?_dereference_toSchema hbase]
    unfold targetOf?
    cases (Shape.ofText property.2.typeText).referencedName? with
    | none => rfl
    | some target =>
      by_cases hr : isReserved target = true <;> by_cases hn : target ∈ names <;>
        simp [Option.filter, hr, hn]

/-- The document of any definitions shows the references that dangle in their graph. -/
theorem unresolved_toDocument (hbase : ClosedStart base) (definitions : Definitions) :
    (definitions.toDocument base).unresolved base =
      (ReferenceGraph.ofDefinitions definitions).dangling := by
  have hnames : Table.names (definitions.toDocument base) = Table.names definitions :=
    names_toDocument definitions base
  unfold Document.unresolved
  rw [hnames, toDocument_eq_mapValues, Table.mapValues, List.flatMap_map]
  show _ = List.filter _ (List.flatMap _ _)
  rw [List.filter_flatMap]
  exact List.flatMap_congr fun entry _ => unresolved_toSchema hbase entry.1 entry.2 _

/-- Restricting the definitions to what a root reaches makes no reference dangle that did
not, since whatever a reached definition refers to is reached as well. -/
theorem dangling_restrictedTo (hnodup : definitions.names.Nodup) {root : String} {d : Definition}
    (h : definitions.value? root = some d) :
    (ReferenceGraph.ofDefinitions (definitions.restrictedTo root d)).dangling =
      (ReferenceGraph.ofDefinitions definitions).dangling.filter fun r =>
        (closure definitions d [root]).contains r.source := by
  show List.filter (fun r => !(Table.names (definitions.restrictedTo root d)).contains r.target)
      (Definitions.references (definitions.restrictedTo root d)) =
    ((Definitions.references definitions).filter fun r =>
      !(Table.names definitions).contains r.target).filter _
  rw [restrictedTo, references_keep, List.filter_filter, List.filter_filter]
  apply List.filter_congr
  intro r hr
  by_cases hsource : r.source ∈ closure definitions d [root]
  · have htarget : Relation.ReflTransGen definitions.Links root r.target :=
      ((mem_closure_root_iff h r.source).mp hsource).tail (links_of_mem_references hnodup hr)
    have hnames : r.target ∈ Table.names (definitions.restrictedTo root d) ↔
        r.target ∈ Table.names definitions := by
      constructor
      · intro hmem
        obtain ⟨entry, hentry, hname⟩ := List.mem_map.mp hmem
        exact hname ▸ List.mem_map_of_mem (List.mem_filter.mp hentry).1
      · exact fun hmem => (mem_names_restrictedTo h hmem).mpr htarget
    rw [restrictedTo] at hnames
    simp [hsource, hnames]
  · simp [hsource]

end Definitions

namespace Settings

/-- The references that are reported, of all definitions or of those of one root, are the
properties of the document in order whose paths lead to no schema in it. The report of a root
is what the whole report says about the definitions that the root reaches. -/
theorem dangling_eq_unresolved {settings : Settings} {path source : String}
    {definitions : Definitions} (h : Definitions.ofSource path source = .ok definitions)
    (hreport : settings.warnDangling = true) (hbase : ClosedStart settings.base) :
    ∃ all, settings.generateAll path source = .ok all ∧
      all.dangling = all.document.unresolved settings.base ∧
      ∀ root d, definitions.value? root = some d →
        ∃ one, settings.generateOne path source root = .ok one ∧
          one.dangling = one.document.unresolved settings.base ∧
          one.dangling = all.dangling.filter fun r =>
            (closure definitions d [root]).contains r.source := by
  have hdangling : ∀ definitions : Definitions, (definitions.report settings).dangling =
      (ReferenceGraph.ofDefinitions definitions).dangling := fun _ => if_pos hreport
  have hdocument : ∀ definitions : Definitions, (definitions.report settings).dangling =
      (definitions.report settings).document.unresolved settings.base := fun definitions =>
    (hdangling definitions).trans (Definitions.unresolved_toDocument hbase definitions).symm
  refine ⟨_, generateAll_of_ok h, hdocument definitions, ?_⟩
  intro root d hd
  refine ⟨(definitions.restrictedTo root d).report settings, ?_, hdocument _, ?_⟩
  · rw [generateOne_of_ok h, hd]
  · rw [hdangling, hdangling,
      Definitions.dangling_restrictedTo (Definitions.nodup_names_ofSource h) hd]

def looseSource : String :=
  "interface A { b: B[]; lost: Array<Lost[]>; list: array }\n" ++
    "interface C { gone: Gone }\ninterface B { a: A; lost: Lost | null }"

def looseDefinitions : Definitions :=
  [("A", .structural [("b", ⟨"B[]", false⟩), ("lost", ⟨"Array<Lost[]>", false⟩),
      ("list", ⟨"array", false⟩)]),
    ("C", .structural [("gone", ⟨"Gone", false⟩)]),
    ("B", .structural [("a", ⟨"A", false⟩), ("lost", ⟨"Lost | null", false⟩)])]

theorem closedStart_base : ClosedStart ({} : Settings).base := by
  intro c hc
  have hlast : ({} : Settings).base.toList.getLast? = some '/' := by decide
  cases hlast.symm.trans hc
  decide

theorem dangling_looseSource :
    Definitions.ofSource "models.ts" looseSource = .ok looseDefinitions ∧
      ({} : Settings).warnDangling = true ∧ ClosedStart ({} : Settings).base ∧
      (∃ all, ({} : Settings).generateAll "models.ts" looseSource = .ok all ∧
        all.dangling = all.document.unresolved ({} : Settings).base ∧
        ∀ root d, looseDefinitions.value? root = some d →
          ∃ one, ({} : Settings).generateOne "models.ts" looseSource root = .ok one ∧
            one.dangling = one.document.unresolved ({} : Settings).base ∧
            one.dangling = all.dangling.filter fun r =>
              (closure looseDefinitions d [root]).contains r.source) ∧
      (looseDefinitions.report {}).dangling =
        [⟨"A", "lost", "Lost"⟩, ⟨"C", "gone", "Gone"⟩, ⟨"B", "lost", "Lost"⟩] := by
  have hsource : Definitions.ofSource "models.ts" looseSource = .ok looseDefinitions := by
    decide +kernel
  exact ⟨hsource, rfl, closedStart_base, dangling_eq_unresolved hsource rfl closedStart_base,
    by decide +kernel⟩

end Settings
end DeclSchema
