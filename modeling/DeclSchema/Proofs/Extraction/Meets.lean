import DeclSchema.Proofs.Extraction.Merging
import DeclSchema.Proofs.Syntax.WrittenSources

/-! # Names that a reader meets

A reader only adds to the declarations met before it. If therefore one part of a reader meets a
definition of a name, the whole reader does, whatever it reads before and afterwards.
-/
namespace DeclSchema.Syntax
open Text

def Defines (name : String) (items : List Item) : Prop :=
  ∃ item ∈ items, ∃ visited ∈ item.visits, visited.definedName? = some name

theorem Item.mem_visitsOfAll_iff {visited : Item} {items : List Item} :
    visited ∈ visitsOfAll items ↔ ∃ item ∈ items, visited ∈ item.visits := by
  induction items with
  | nil => simp [visitsOfAll]
  | cons item rest ih => simp [visitsOfAll, ih]

/-- The keys of the definitions are the names that the items define. -/
theorem mem_names_ofItems_iff {name : String} {items : List Item} :
    name ∈ Table.names (Definitions.ofItems items) ↔ Defines name items := by
  rw [Definitions.names_ofItems, Definitions.mem_names_afterVisits]
  constructor
  · rintro ⟨visited, hvisited, hname⟩
    obtain ⟨item, hitem, hvisited⟩ := Item.mem_visitsOfAll_iff.mp hvisited
    exact ⟨item, hitem, visited, hvisited, hname⟩
  · rintro ⟨item, hitem, visited, hvisited, hname⟩
    exact ⟨visited, Item.mem_visitsOfAll_iff.mpr ⟨item, hitem, hvisited⟩, hname⟩

namespace Defines
variable {name : String} {items items' : List Item}

theorem mono (h : Defines name items) (hsub : items ⊆ items') : Defines name items' := by
  obtain ⟨item, hitem, hvisited⟩ := h
  exact ⟨item, hsub hitem, hvisited⟩

/-- What is defined inside of a container is defined by the container. -/
theorem of_visits {container : Item} (h : Defines name items)
    (hcontainer : Item.visitsOfAll items ⊆ container.visits) : Defines name [container] := by
  obtain ⟨item, hitem, visited, hvisited, hname⟩ := h
  exact ⟨container, List.mem_singleton_self _, visited,
    hcontainer (Item.mem_visitsOfAll_iff.mpr ⟨item, hitem, hvisited⟩), hname⟩

theorem namespaceDecl (h : Defines name items) (container : String) :
    Defines name [.namespaceDecl container items] :=
  h.of_visits (by
    rw [Item.visits]
    exact List.subset_cons_self _ _)

theorem functionDecl (h : Defines name items) (container : String) :
    Defines name [.functionDecl container items] :=
  h.of_visits (by
    rw [Item.visits]
    exact List.subset_cons_self _ _)

theorem classDecl (h : Defines name items) (container : String) (heritage : List String)
    (members : List Member) : Defines name [.classDecl container heritage members items] :=
  h.of_visits (by
    rw [Item.visits]
    exact List.subset_cons_self _ _)

end Defines

def Met (name : String) (before after : List Item) : Prop :=
  ∃ new, after = new ++ before ∧ Defines name new

section Met
variable {name : String} {before between after : List Item}

theorem Met.later (h : Met name before between) (hkeeps : between <:+ after) : Met name before after := by
  obtain ⟨new, rfl, hnew⟩ := h
  obtain ⟨more, rfl⟩ := hkeeps
  exact ⟨more ++ new, (List.append_assoc _ _ _).symm, hnew.mono (List.subset_append_right _ _)⟩

theorem Met.earlier (hkeeps : before <:+ between) (h : Met name between after) : Met name before after := by
  obtain ⟨new, rfl, hnew⟩ := h
  obtain ⟨more, rfl⟩ := hkeeps
  exact ⟨new ++ more, (List.append_assoc _ _ _).symm, hnew.mono (List.subset_append_left _ _)⟩

theorem Met.defines (h : Met name [] after) : Defines name after := by
  obtain ⟨new, rfl, hnew⟩ := h
  rwa [List.append_nil]

end Met

section Meets
variable {α β : Type} {name : String} {found : List Item}

def Meets (name : String) (found : List Item) (result : Except Fault (α × State)) : Prop :=
  ∀ ⦃a t⦄, result = .ok (a, t) → Met name found t.found

variable {p : Parser α} {scope : Scope} {s : State}

/-- What has been met stays met. -/
theorem Meets.of_met [hp : Steady p] (hs : s.Placed) (h : Met name found s.found) :
    Meets name found (p scope s) :=
  fun _ _ hrun => h.later (hp.moves hs hrun).keeps

/-- The name is met in the first part. -/
theorem Meets.before {f : α → Parser β} [hp : Steady p] (hf : ∀ a, Steady (f a)) (hs : s.Placed)
    (h : Meets name found (p scope s)) : Meets name found ((p >>= f) scope s) := by
  intro b t hrun
  obtain ⟨a, u, hfirst, hrest⟩ := bind_eq_ok.mp hrun
  exact Meets.of_met (hp.moves hs hfirst).placed (h hfirst) hrest

theorem Meets.bind {f : α → Parser β} [Steady p] [hf : ∀ a, Steady (f a)] (hs : s.Placed)
    (h : Meets name found (p scope s)) : Meets name found ((p >>= f) scope s) :=
  .before hf hs h

/-- The name is met after the first part. -/
theorem Meets.after {f : α → Parser β} [hp : Steady p] (hs : s.Placed) (hkeeps : found <:+ s.found)
    (h : ∀ a u, u.Placed → found <:+ u.found → Meets name found (f a scope u)) :
    Meets name found ((p >>= f) scope s) := by
  intro b t hrun
  obtain ⟨a, u, hfirst, hrest⟩ := bind_eq_ok.mp hrun
  have hmoves := hp.moves hs hfirst
  exact h a u hmoves.placed (hkeeps.trans hmoves.keeps) hrest

theorem Meets.discard [Steady p] (hs : s.Placed) (h : Meets name found (p scope s)) :
    Meets name found ((discard p : Parser Unit) scope s) :=
  h.bind (f := fun _ => pure ()) hs

theorem Meets.many {p : Parser (Option α)} [Steady p] (hs : s.Placed)
    (h : Meets name found (p scope s)) : Meets name found (many p scope s) := by
  have hupTo : ∀ n, Meets name found (manyUpTo p (n + 1) scope s) := by
    intro n
    rw [manyUpTo]
    refine .before (fun r => ?_) hs h
    cases r <;> dsimp only <;> infer_instance
  exact hupTo _

theorem Meets.extend {p : α → Parser (Option α)} [∀ a, Steady (p a)] {a : α} (hs : s.Placed)
    (h : Meets name found (p a scope s)) : Meets name found (extend p a scope s) := by
  have hupTo : ∀ n, Meets name found (extendUpTo p a (n + 1) scope s) := by
    intro n
    rw [extendUpTo]
    refine .before (fun r => ?_) hs h
    cases r <;> dsimp only <;> infer_instance
  exact hupTo _

/-- What is gathered defines the name. -/
theorem Meets.gather_bind {f : α × List Item → Parser β} [hp : Steady p] (hs : s.Placed)
    (h : Meets name [] (p scope { s with found := [] }))
    (hf : ∀ a items u, Defines name items → u.Placed → u.found = s.found →
      Meets name found (f (a, items) scope u)) : Meets name found ((gather p >>= f) scope s) := by
  intro b t hrun
  obtain ⟨⟨a, items⟩, u, hgather, hrest⟩ := bind_eq_ok.mp hrun
  obtain ⟨v, hfirst, hitems, rfl⟩ := gather_eq_ok hgather
  have hplaced := (hp.moves (s := { s with found := [] }) hs hfirst).placed
  refine hf a items { v with found := s.found } ?_ hplaced rfl hrest
  rw [show items = v.found.reverse from hitems]
  exact (h hfirst).defines.mono fun item hitem => List.mem_reverse.mpr hitem

theorem Meets.emit {item : Item} (hkeeps : found <:+ s.found) (h : Defines name [item]) :
    Meets name found (emit item scope s) := by
  intro a t hrun
  cases hrun
  exact Met.earlier hkeeps ⟨[item], rfl, h⟩

theorem emit_bind {item : Item} {f : Unit → Parser β} : (emit item >>= f) scope s =
    f () scope { s with found := item :: s.found } := rfl

theorem emitAll_run (items : List Item) (scope : Scope) (s : State) :
    emitAll items scope s = .ok ((), { s with found := items.reverse ++ s.found }) := by
  unfold emitAll
  induction items generalizing s with
  | nil => rfl
  | cons item rest ih =>
    have hfirst : emit item scope s = .ok ((), { s with found := item :: s.found }) := rfl
    show (emit item >>= fun _ => rest.forM emit) scope s = _
    rw [bind_of_ok hfirst, ih, List.reverse_cons, List.append_assoc]
    rfl

theorem Defines.met {items before : List Item} (h : Defines name items) (hkeeps : found <:+ before) :
    Met name found (items.reverse ++ before) :=
  .earlier hkeeps ⟨items.reverse, rfl, h.mono fun _ hitem => List.mem_reverse.mpr hitem⟩

theorem Meets.emitAll {items : List Item} (hkeeps : found <:+ s.found) (h : Defines name items) :
    Meets name found (emitAll items scope s) := by
  intro a t hrun
  rw [emitAll_run] at hrun
  cases hrun
  exact h.met hkeeps

theorem Meets.pure (a : α) (h : Met name found s.found) : Meets name found ((pure a : Parser α) scope s) := by
  intro b t hrun
  cases hrun
  exact h

end Meets

end DeclSchema.Syntax
