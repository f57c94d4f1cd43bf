import DeclSchema.Proofs.Reference.Graph
import DeclSchema.Reference.Cycle

/-! # Cycles are the recursion structure

The search for reachable nodes finds exactly the nodes at the end of chains of edges. Two
nodes are mutually recursive if such chains lead from each to the other, and the groups are
the classes of this relation among the nodes that reach themselves.
-/
namespace DeclSchema

section
variable {α : Type} [LT α] [LE α] [Std.IsLinearOrder α] [Std.LawfulOrderLT α]
  [DecidableRel fun a b : α => a < b]

theorem pairwise_mergeSort_not_lt (items : List α) :
    (items.mergeSort fun a b => !decide (b < a)).Pairwise fun a b => ¬ b < a := by
  have htrans : ∀ a b c : α, !decide (b < a) → !decide (c < b) → !decide (c < a) := by
    intro a b c hab hbc
    simp only [Bool.not_eq_true', decide_eq_false_iff_not, Std.not_lt] at hab hbc ⊢
    exact Std.le_trans hab hbc
  have htotal : ∀ a b : α, !decide (b < a) || !decide (a < b) := by
    intro a b
    simp only [Bool.or_eq_true, Bool.not_eq_true', decide_eq_false_iff_not, Std.not_lt]
    exact Std.le_total
  exact (List.pairwise_mergeSort htrans htotal items).imp fun h => by simpa using h

end

theorem mem_sortedNames {names : List String} {name : String} :
    name ∈ sortedNames names ↔ name ∈ names := by
  rw [sortedNames, List.mem_eraseDups, List.mem_mergeSort]

theorem eraseDups_sublist {α : Type} [BEq α] [LawfulBEq α] (items : List α) :
    items.eraseDups.Sublist items := by
  induction hn : items.length using Nat.strongRecOn generalizing items with
  | _ n ih =>
    cases items with
    | nil => exact List.Sublist.slnil
    | cons item rest =>
      have hlen := List.length_filter_le (fun other => !other == item) rest
      simp only [List.length_cons] at hn
      rw [List.eraseDups_cons]
      exact ((ih _ (by omega) _ rfl).trans List.filter_sublist).cons_cons item

/-- Sorted names ascend, each one once. -/
theorem pairwise_sortedNames (names : List String) : (sortedNames names).Pairwise (· < ·) := by
  have hsorted := (pairwise_mergeSort_not_lt names).sublist (eraseDups_sublist _)
  have hdiffer := Table.nodup_eraseDups (names.mergeSort fun a b => !decide (b < a))
  apply (hsorted.and hdiffer).imp
  rintro a b ⟨hle, hne⟩
  exact Std.lt_of_le_of_ne (Std.not_lt.mp hle) hne

namespace ReferenceGraph
variable {g : ReferenceGraph} {start name target : String} {frontier found : List String}
  {rounds : Nat}

def Edge (g : ReferenceGraph) (name target : String) : Prop :=
  ∃ r ∈ g.edges, r.source = name ∧ r.target = target

abbrev Reaches (g : ReferenceGraph) : String → String → Prop := Relation.TransGen g.Edge

def Closed (g : ReferenceGraph) : Prop := ∀ r ∈ g.edges, r.source ∈ g.nodes ∧ r.target ∈ g.nodes

def newTargets (g : ReferenceGraph) (frontier found : List String) : List String :=
  ((g.edges.filter fun r => frontier.contains r.source).map (·.target)).eraseDups.filter
    fun name => !found.contains name

theorem mem_newTargets_iff :
    name ∈ g.newTargets frontier found ↔
      (∃ source ∈ frontier, g.Edge source name) ∧ name ∉ found := by
  simp only [newTargets, List.mem_filter, List.mem_eraseDups, List.mem_map, List.contains_eq_mem,
    decide_eq_true_eq, Bool.not_eq_true', decide_eq_false_iff_not, Edge]
  constructor
  · rintro ⟨⟨r, ⟨hr, hsource⟩, htarget⟩, hf⟩
    exact ⟨⟨r.source, hsource, r, hr, rfl, htarget⟩, hf⟩
  · rintro ⟨⟨source, hsource, r, hr, rfl, htarget⟩, hf⟩
    exact ⟨⟨r, ⟨hr, hsource⟩, htarget⟩, hf⟩

theorem spread_succ (g : ReferenceGraph) (rounds : Nat) (frontier found : List String) :
    g.spread (rounds + 1) frontier found =
      if (g.newTargets frontier found).isEmpty then found
      else g.spread rounds (g.newTargets frontier found) (found ++ g.newTargets frontier found) :=
  rfl

structure Spreading (g : ReferenceGraph) (start : String) (frontier found : List String) : Prop where
  frontier_reached : ∀ name ∈ frontier, name = start ∨ g.Reaches start name
  found_reached : ∀ name ∈ found, g.Reaches start name
  followed : ∀ name, name = start ∨ name ∈ found →
    name ∈ frontier ∨ ∀ target, g.Edge name target → target ∈ found

theorem Spreading.initial (g : ReferenceGraph) (start : String) : Spreading g start [start] [] where
  frontier_reached _ h := .inl (List.mem_singleton.mp h)
  found_reached _ h := by cases h
  followed _ h := .inl (List.mem_singleton.mpr (h.resolve_right (List.not_mem_nil)))

/-- One round: what the frontier has edges to is found, and the frontier moves on to what is
new. -/
theorem Spreading.step (h : Spreading g start frontier found) :
    Spreading g start (g.newTargets frontier found) (found ++ g.newTargets frontier found) := by
  have hreached : ∀ name ∈ g.newTargets frontier found, g.Reaches start name := by
    intro name hn
    obtain ⟨⟨source, hsource, hedge⟩, -⟩ := mem_newTargets_iff.mp hn
    rcases h.frontier_reached source hsource with rfl | hr
    · exact .single hedge
    · exact hr.tail hedge
  have hfollow : ∀ name ∈ frontier, ∀ target, g.Edge name target →
      target ∈ found ++ g.newTargets frontier found := by
    intro name hn target hedge
    by_cases hf : target ∈ found
    · exact List.mem_append_left _ hf
    · exact List.mem_append_right _ (mem_newTargets_iff.mpr ⟨⟨name, hn, hedge⟩, hf⟩)
  constructor
  · exact fun name hn => .inr (hreached name hn)
  · intro name hn
    exact (List.mem_append.mp hn).elim (h.found_reached name) (hreached name)
  · intro name hn
    rcases or_assoc.mpr (hn.imp_right List.mem_append.mp) with hn | hn
    · rcases h.followed name hn with hf | hf
      · exact .inr (hfollow name hf)
      · exact .inr fun target hedge => List.mem_append_left _ (hf target hedge)
    · exact .inl hn

/-- A search whose frontier brings nothing new has found all that can be reached. -/
theorem Spreading.mem_iff (h : Spreading g start frontier found)
    (hdone : g.newTargets frontier found = []) : name ∈ found ↔ g.Reaches start name := by
  refine ⟨h.found_reached name, ?_⟩
  have hnext : ∀ name, name = start ∨ name ∈ found → ∀ target, g.Edge name target →
      target ∈ found := by
    intro name hn target hedge
    rcases h.followed name hn with hf | hf
    · by_contra hnew
      have hmem := mem_newTargets_iff.mpr ⟨⟨name, hf, hedge⟩, hnew⟩
      rw [hdone] at hmem
      cases hmem
    · exact hf target hedge
  intro hr
  induction hr with
  | single hedge => exact hnext start (.inl rfl) _ hedge
  | tail _ hedge ih => exact hnext _ (.inr ih) _ hedge

def unseen (g : ReferenceGraph) (found : List String) : Nat :=
  (g.nodes.filter fun name => !found.contains name).length

theorem Spreading.mem_spread_iff (hg : g.Closed) (h : Spreading g start frontier found)
    (hr : g.unseen found < rounds) :
    name ∈ g.spread rounds frontier found ↔ g.Reaches start name := by
  induction rounds generalizing frontier found with
  | zero => exact absurd hr (Nat.not_lt_zero _)
  | succ rounds ih =>
    rw [spread_succ]
    split
    · exact h.mem_iff (List.isEmpty_iff.mp ‹_›)
    · rename_i hnew
      obtain ⟨new, hmem⟩ := List.exists_mem_of_ne_nil _ (mt List.isEmpty_iff.mpr hnew)
      obtain ⟨⟨_, _, r, hedge, _, rfl⟩, hf⟩ := mem_newTargets_iff.mp hmem
      have hlt := length_unseen_lt (hg r hedge).2 hf hmem
      exact ih h.step (Nat.lt_of_lt_of_le hlt (Nat.le_of_lt_succ hr))

theorem mem_reachable_iff (hg : g.Closed) : name ∈ g.reachable start ↔ g.Reaches start name := by
  refine (Spreading.initial g start).mem_spread_iff hg ?_
  exact Nat.lt_succ_of_le (List.length_filter_le _ _)

def Mutual (g : ReferenceGraph) (name other : String) : Prop :=
  g.Reaches name other ∧ g.Reaches other name

theorem Mutual.symm (h : g.Mutual name target) : g.Mutual target name := ⟨h.2, h.1⟩

theorem Mutual.trans {other : String} (h : g.Mutual name target) (h' : g.Mutual target other) :
    g.Mutual name other :=
  ⟨h.1.trans h'.1, h'.2.trans h.2⟩

def reaches (g : ReferenceGraph) (name other : String) : Bool :=
  (((g.nodes.map fun name => (name, g.reachable name)).lookup name).getD []).contains other

def recursive (g : ReferenceGraph) : List String := g.nodes.filter fun name => g.reaches name name

def group (g : ReferenceGraph) (name : String) : List String :=
  sortedNames (g.recursive.filter fun other => g.reaches name other && g.reaches other name)

theorem cycles_eq (g : ReferenceGraph) :
    g.cycles = ((g.recursive.map g.group).eraseDups).mergeSort fun a b => !(b < a) := rfl

theorem lookup_map {β : Type} (f : String → β) (names : List String) (name : String) :
    (names.map fun name => (name, f name)).lookup name =
      if name ∈ names then some (f name) else none := by
  induction names with
  | nil => rfl
  | cons other rest ih =>
    rw [List.map_cons, List.lookup_cons, ih]
    by_cases h : name = other
    · simp [h]
    · simp [beq_false_of_ne h, h]

theorem mem_nodes_of_reaches (hg : g.Closed) (h : g.Reaches name target) : name ∈ g.nodes := by
  obtain ⟨_, ⟨r, hr, rfl, _⟩, _⟩ := Relation.TransGen.head'_iff.mp h
  exact (hg r hr).1

theorem reaches_iff (hg : g.Closed) : g.reaches name target = true ↔ g.Reaches name target := by
  rw [reaches, lookup_map, List.contains_iff_mem]
  split
  · rw [Option.getD_some, mem_reachable_iff hg]
  · rename_i hn
    simp [mt (mem_nodes_of_reaches hg) hn]

theorem mem_recursive_iff (hg : g.Closed) : name ∈ g.recursive ↔ g.Reaches name name := by
  rw [recursive, List.mem_filter, reaches_iff hg]
  exact ⟨And.right, fun h => ⟨mem_nodes_of_reaches hg h, h⟩⟩

theorem mem_group_iff (hg : g.Closed) : target ∈ g.group name ↔ g.Mutual name target := by
  rw [group, mem_sortedNames, List.mem_filter, mem_recursive_iff hg, Bool.and_eq_true,
    reaches_iff hg, reaches_iff hg]
  exact ⟨And.right, fun h => ⟨h.2.trans h.1, h⟩⟩

/-- Mutually recursive nodes have one group. -/
theorem Mutual.group_eq (hg : g.Closed) (h : g.Mutual name target) :
    g.group name = g.group target := by
  unfold group
  congr 1
  apply List.filter_congr
  intro other _
  rw [Bool.eq_iff_iff, Bool.and_eq_true, Bool.and_eq_true, reaches_iff hg, reaches_iff hg,
    reaches_iff hg, reaches_iff hg]
  exact ⟨h.symm.trans, h.trans⟩

theorem mem_cycles_iff (hg : g.Closed) {names : List String} :
    names ∈ g.cycles ↔ ∃ name, g.Reaches name name ∧ names = g.group name := by
  rw [cycles_eq, List.mem_mergeSort, List.mem_eraseDups, List.mem_map]
  simp only [mem_recursive_iff hg, eq_comm]

/-- Two names are in one group exactly if they reach each other. -/
theorem exists_group_iff (hg : g.Closed) :
    (∃ names ∈ g.cycles, name ∈ names ∧ target ∈ names) ↔ g.Mutual name target := by
  constructor
  · rintro ⟨names, hnames, hn, ht⟩
    obtain ⟨first, _, rfl⟩ := (mem_cycles_iff hg).mp hnames
    exact ((mem_group_iff hg).mp hn).symm.trans ((mem_group_iff hg).mp ht)
  · intro h
    have hself : g.Reaches name name := h.1.trans h.2
    exact ⟨g.group name, (mem_cycles_iff hg).mpr ⟨name, hself, rfl⟩,
      (mem_group_iff hg).mpr ⟨hself, hself⟩, (mem_group_iff hg).mpr h⟩

theorem group_of_mem_cycles (hg : g.Closed) {names : List String} (h : names ∈ g.cycles) :
    names ≠ [] ∧ names.Pairwise (· < ·) := by
  obtain ⟨name, hself, rfl⟩ := (mem_cycles_iff hg).mp h
  exact ⟨List.ne_nil_of_mem ((mem_group_iff hg).mpr ⟨hself, hself⟩), pairwise_sortedNames _⟩

theorem eq_of_mem_cycles (hg : g.Closed) {names names' : List String} (h : names ∈ g.cycles)
    (h' : names' ∈ g.cycles) (hn : name ∈ names) (hn' : name ∈ names') : names = names' := by
  obtain ⟨first, _, rfl⟩ := (mem_cycles_iff hg).mp h
  obtain ⟨first', _, rfl⟩ := (mem_cycles_iff hg).mp h'
  have hmutual := ((mem_group_iff hg).mp hn).trans ((mem_group_iff hg).mp hn').symm
  exact hmutual.group_eq hg

theorem pairwise_cycles (hg : g.Closed) :
    g.cycles.Pairwise fun names names' => ∀ name ∈ names, name ∉ names' := by
  have hdiffer : g.cycles.Nodup := (List.mergeSort_perm _ _).nodup_iff.mpr (Table.nodup_eraseDups _)
  apply hdiffer.imp_of_mem
  intro names names' h h' hne name hn hn'
  exact hne (eq_of_mem_cycles hg h h' hn hn')

/-- The groups stand in the order of their first names, since these differ. -/
theorem pairwise_head_cycles (hg : g.Closed) :
    g.cycles.Pairwise fun names names' =>
      ∀ first ∈ names.head?, ∀ first' ∈ names'.head?, first < first' := by
  have hsorted : g.cycles.Pairwise fun names names' => ¬ names' < names :=
    pairwise_mergeSort_not_lt (g.recursive.map g.group).eraseDups
  apply (hsorted.and (pairwise_cycles hg)).imp
  rintro names names' ⟨hle, hdisjoint⟩ first hf first' hf'
  obtain ⟨rest, rfl⟩ := List.head?_eq_some_iff.mp hf
  obtain ⟨rest', rfl⟩ := List.head?_eq_some_iff.mp hf'
  have hne : first ≠ first' := by
    rintro rfl
    exact hdisjoint first List.mem_cons_self List.mem_cons_self
  have hge : ¬ first' < first := fun hlt => hle (List.cons_lt_cons_iff.mpr (.inl hlt))
  exact Std.lt_of_le_of_ne (Std.not_lt.mp hge) hne

section
variable {definitions : Definitions}

theorem closed_ofDefinitions (definitions : Definitions) : (ofDefinitions definitions).Closed := by
  intro r hr
  obtain ⟨hmem, htarget⟩ := List.mem_filter.mp hr
  obtain ⟨entry, hentry, hr⟩ := List.mem_flatMap.mp hmem
  refine ⟨?_, List.contains_iff_mem.mp htarget⟩
  rw [Definition.source_of_mem_references hr]
  exact List.mem_map_of_mem hentry

theorem edge_ofDefinitions_iff (hnodup : definitions.names.Nodup) :
    (ofDefinitions definitions).Edge name target ↔
      definitions.Links name target ∧ target ∈ definitions.names := by
  rw [← Definitions.exists_reference_iff hnodup]
  constructor
  · rintro ⟨r, hr, hsource, rfl⟩
    obtain ⟨hmem, htarget⟩ := List.mem_filter.mp hr
    exact ⟨⟨r, hmem, hsource, rfl⟩, List.contains_iff_mem.mp htarget⟩
  · rintro ⟨⟨r, hmem, hsource, rfl⟩, htarget⟩
    exact ⟨r, List.mem_filter.mpr ⟨hmem, List.contains_iff_mem.mpr htarget⟩, hsource, rfl⟩

/-- Edges lead to the definitions that chains of references lead to. -/
theorem reaches_ofDefinitions_iff (hnodup : definitions.names.Nodup) :
    (ofDefinitions definitions).Reaches name target ↔
      Relation.TransGen definitions.Links name target ∧ target ∈ definitions.names := by
  constructor
  · intro h
    induction h with
    | single hedge =>
      exact ((edge_ofDefinitions_iff hnodup).mp hedge).imp_left .single
    | tail _ hedge ih =>
      exact ((edge_ofDefinitions_iff hnodup).mp hedge).imp_left ih.1.tail
  · rintro ⟨h, htarget⟩
    induction h with
    | single hlink => exact .single ((edge_ofDefinitions_iff hnodup).mpr ⟨hlink, htarget⟩)
    | tail _ hlink ih =>
      exact (ih hlink.mem_names).tail ((edge_ofDefinitions_iff hnodup).mpr ⟨hlink, htarget⟩)

end

/-- The cycles of the graph of definitions are its recursion structure. A name is in a group
exactly if one or more references lead from it back to it, and two names share a group exactly
if each is in the closure of the other. The groups have no name in common; each of them
ascends, and so do their first names. -/
theorem cycles_exact (definitions : Definitions) (hnodup : definitions.names.Nodup) :
    (∀ name, (∃ names ∈ (ofDefinitions definitions).cycles, name ∈ names) ↔
      Relation.TransGen definitions.Links name name) ∧
    (∀ name other, name ≠ other →
      ((∃ names ∈ (ofDefinitions definitions).cycles, name ∈ names ∧ other ∈ names) ↔
        ∃ d e, definitions.value? name = some d ∧ definitions.value? other = some e ∧
          other ∈ closure definitions d [name] ∧ name ∈ closure definitions e [other])) ∧
    (ofDefinitions definitions).cycles.Pairwise
      (fun names names' => ∀ name ∈ names, name ∉ names') ∧
    (∀ names ∈ (ofDefinitions definitions).cycles, names ≠ [] ∧ names.Pairwise (· < ·)) ∧
    (ofDefinitions definitions).cycles.Pairwise
      (fun names names' => ∀ first ∈ names.head?, ∀ first' ∈ names'.head?, first < first') := by
  have hg := closed_ofDefinitions definitions
  refine ⟨fun name => ?_, fun name other hne => ?_, pairwise_cycles hg,
    fun names h => group_of_mem_cycles hg h, pairwise_head_cycles hg⟩
  · have hself : (∃ names ∈ (ofDefinitions definitions).cycles, name ∈ names ∧ name ∈ names) ↔
        (ofDefinitions definitions).Mutual name name := exists_group_iff hg
    simp only [and_self, Mutual, reaches_ofDefinitions_iff hnodup] at hself
    rw [hself]
    refine ⟨And.left, fun h => ⟨h, ?_⟩⟩
    obtain ⟨_, hlink, _⟩ := Relation.TransGen.head'_iff.mp h
    exact hlink.mem_names
  · rw [exists_group_iff hg, Mutual, reaches_ofDefinitions_iff hnodup,
      reaches_ofDefinitions_iff hnodup]
    constructor
    · rintro ⟨⟨hto, hother⟩, hback, hname⟩
      obtain ⟨d, hd⟩ := Table.mem_names_iff.mp hname
      obtain ⟨e, he⟩ := Table.mem_names_iff.mp hother
      exact ⟨d, e, hd, he, (mem_closure_root_iff hd other).mpr hto.to_reflTransGen,
        (mem_closure_root_iff he name).mpr hback.to_reflTransGen⟩
    · rintro ⟨d, e, hd, he, hto, hback⟩
      have hlinks := (mem_closure_root_iff hd other).mp hto
      have hlinks' := (mem_closure_root_iff he name).mp hback
      rw [Relation.reflTransGen_iff_eq_or_transGen] at hlinks hlinks'
      exact ⟨⟨hlinks.resolve_left hne.symm, Table.mem_names_iff.mpr ⟨e, he⟩⟩,
        hlinks'.resolve_left hne, Table.mem_names_iff.mpr ⟨d, hd⟩⟩

def twoCycles : Definitions :=
  [("Start", .structural [("tree", ⟨"Tree", false⟩)]),
    ("Right", .structural [("left", ⟨"Left[]", false⟩), ("again", ⟨"Left | null", true⟩)]),
    ("Left", .structural [("right", ⟨"Right", false⟩), ("lost", ⟨"Lost", false⟩)]),
    ("Tree", .structural [("children", ⟨"Array<Tree>", false⟩), ("pair", ⟨"Left", false⟩)])]

theorem cycles_twoCycles :
    twoCycles.names.Nodup ∧
      (∃ names ∈ (ofDefinitions twoCycles).cycles, "Left" ∈ names ∧ "Right" ∈ names) ∧
      (¬ ∃ names ∈ (ofDefinitions twoCycles).cycles, "Tree" ∈ names ∧ "Left" ∈ names) ∧
      (ofDefinitions twoCycles).cycles.Pairwise
        (fun names names' => ∀ name ∈ names, name ∉ names') := by
  have hnodup : twoCycles.names.Nodup := by decide
  obtain ⟨_, hshared, hdisjoint, _⟩ := cycles_exact twoCycles hnodup
  refine ⟨hnodup, (hshared "Left" "Right" (by decide)).mpr ?_,
    fun h => ?_, hdisjoint⟩
  · exact ⟨_, _, rfl, rfl, by decide +kernel, by decide +kernel⟩
  · obtain ⟨d, e, hd, he, _, hback⟩ := (hshared "Tree" "Left" (by decide)).mp h
    cases he
    have hout : "Tree" ∉ closure twoCycles
        (.structural [("right", ⟨"Right", false⟩), ("lost", ⟨"Lost", false⟩)]) ["Left"] := by
      decide +kernel
    exact hout hback

end ReferenceGraph
end DeclSchema
