import DeclSchema.Proofs.Settings.Layers

/-! # What a layer makes of one place

A layer is a list of writes. What stands under a name of the top level afterwards comes from what
stood there before and from the writes to this name alone. In the same way the parts of a section
do not touch each other as long as it is written in one form, by name or by place. A write in the
other form replaces the section as a whole.
-/
namespace DeclSchema.Toml
open Text

variable {under v : Toml} {name first : String} {more : List Step}

def written (old : Option Toml) (v : Toml) : List Step → Toml
  | [] =>
    match v with
    | table entries => setAll (old.getD (table [])) entries
    | v => v
  | path => (old.getD absent).setPath v path

theorem stored_eq_written (under : Toml) (name : String) (v : Toml) :
    stored under name v = written (Table.value? under.entries (lower name)) v [] := by
  cases v <;> rfl

theorem setPath_entry (under v : Toml) (name : String) (more : List Step) :
    under.setPath v (.entry name :: more) = table (Table.put under.entries (lower name)
      (written (Table.value? under.entries (lower name)) v more)) := by
  cases more with
  | nil => rw [setPath, setName_eq_table, stored_eq_written]
  | cons step more =>
    rw [setPath]
    · rfl
    · simp

def items : Toml → List Toml
  | array items => items
  | _ => []

def padded (items : List Toml) (index : ℕ) : List Toml :=
  items ++ List.replicate (index + 1 - items.length) absent

theorem setPath_item (under v : Toml) (index : ℕ) (more : List Step) :
    under.setPath v (.item index :: more) = array ((padded under.items index).set index
      (((padded under.items index).getD index absent).setPath v more)) := by
  cases under <;> rfl

/-- A write below a value sees no more of it than its entries and items. -/
theorem setPath_congr {a b : Toml} (hentries : a.entries = b.entries) (hitems : a.items = b.items)
    (v : Toml) (step : Step) (more : List Step) :
    a.setPath v (step :: more) = b.setPath v (step :: more) := by
  cases step with
  | entry name => rw [setPath_entry, setPath_entry, hentries]
  | item index => rw [setPath_item, setPath_item, hitems]

theorem setAll_cons_congr {a b : Toml} (h : a.entries = b.entries) (entry : String × Toml)
    (entries : List (String × Toml)) : setAll a (entry :: entries) = setAll b (entry :: entries) := by
  rw [setAll, setAll, setName_eq_table, setName_eq_table, h,
    stored_congr (congrArg (Table.value? · _) h)]

abbrev Write := Toml × List Step

def writeAll (old : Option Toml) (writes : List Write) : Option Toml :=
  writes.foldl (fun old write => some (written old write.1 write.2)) old

@[simp] theorem writeAll_nil (old : Option Toml) : writeAll old [] = old := rfl

@[simp] theorem writeAll_cons (old : Option Toml) (write : Write) (writes : List Write) :
    writeAll old (write :: writes) = writeAll (some (written old write.1 write.2)) writes := rfl

def writesAt (name : String) (layer : Layer) : List Write :=
  layer.filterMap fun entry =>
    match pathOf entry.1 with
    | .entry first :: more => if lower first = name then some (entry.2, more) else none
    | _ => none

theorem writesAt_cons_of_eq {key : String} (h : pathOf key = .entry first :: more) (v : Toml)
    (layer : Layer) : writesAt (lower first) ((key, v) :: layer) =
      (v, more) :: writesAt (lower first) layer := by
  simp only [writesAt, List.filterMap_cons, h, if_true]

theorem writesAt_cons_of_ne {key : String} (h : pathOf key = .entry first :: more)
    (hne : lower first ≠ name) (v : Toml) (layer : Layer) :
    writesAt name ((key, v) :: layer) = writesAt name layer := by
  simp only [writesAt, List.filterMap_cons, h, if_neg hne]

/-- Every path begins with a name. -/
theorem exists_pathOf_eq (key : String) : ∃ name more, pathOf key = .entry name :: more := by
  unfold pathOf
  dsimp only
  split
  · exact ⟨_, _, rfl⟩
  · split <;> exact ⟨_, _, rfl⟩

/-- Names of the top level do not touch each other. -/
theorem value?_overlay (under : Toml) (layer : Layer) (name : String) :
    Table.value? (under.overlay layer).entries name =
      writeAll (Table.value? under.entries name) (writesAt name layer) := by
  induction layer generalizing under with
  | nil => rfl
  | cons entry layer ih =>
    obtain ⟨key, v⟩ := entry
    obtain ⟨first, more, hpath⟩ := exists_pathOf_eq key
    have hstep : under.overlay ((key, v) :: layer) = (under.setPath v (pathOf key)).overlay layer :=
      rfl
    rw [hstep, ih, hpath, setPath_entry]
    by_cases hname : lower first = name
    · subst hname
      rw [writesAt_cons_of_eq hpath, writeAll_cons]
      exact congrArg (writeAll · _) (Table.value?_put_self _ _ _)
    · rw [writesAt_cons_of_ne hpath hname]
      exact congrArg (writeAll · _) (Table.value?_put_of_ne _ _ (Ne.symm hname))

def isScalar : Toml → Bool
  | boolean _ | integer _ | float _ | string _ => true
  | _ => false

def isBlank : Toml → Bool
  | table [] | absent => true
  | _ => false

theorem entries_of_bare (h : v.isScalar = true ∨ v.isBlank = true) : v.entries = [] := by
  unfold isScalar isBlank at h
  split at h <;> first | rfl | split at h <;> first | rfl | simp at h

theorem items_of_bare (h : v.isScalar = true ∨ v.isBlank = true) : v.items = [] := by
  unfold isScalar isBlank at h
  split at h <;> first | rfl | split at h <;> first | rfl | simp at h

/-- How a value `above`, which writes make over an `old` one, is related to the value `alone` that
they make where nothing was. -/
structure Follows (old alone above : Option Toml) : Prop where
  kept : alone = none → above = old
  there : alone.isSome = true → above.isSome = true
  scalar : ∀ v, alone = some v → v.isScalar = true → above = some v
  /-- Over a value without parts nothing is left of it, unless nothing was said. -/
  bare : (∀ v, old = some v → v.isScalar = true) →
    ∀ v, alone = some v → above = some v ∨ v.isBlank = true ∧ above = old

namespace Follows

variable {old alone above : Option Toml}

theorem start (old : Option Toml) : Follows old none old :=
  ⟨fun _ => rfl, nofun, nofun, nofun⟩

theorem same (old : Option Toml) (v : Toml) : Follows old (some v) (some v) :=
  ⟨nofun, fun _ => rfl, fun _ h _ => h, fun _ _ h => .inl h⟩

/-- A blank is written only where nothing was. -/
theorem blank (h : Follows old alone above) {d : Toml} (hd : d.isBlank = true) :
    Follows old (some (alone.getD d)) (some (above.getD d)) := by
  cases alone with
  | none =>
    rw [h.kept rfl]
    refine ⟨nofun, fun _ => rfl, ?_, ?_⟩
    · rintro _ ⟨⟩ hscalar
      cases d <;> cases hscalar <;> cases hd
    · rintro - _ ⟨⟩
      cases old with
      | none => exact .inl rfl
      | some u => exact .inr ⟨hd, rfl⟩
  | some v =>
    obtain ⟨w, rfl⟩ := Option.isSome_iff_exists.mp (h.there rfl)
    exact h

/-- A write below a value turns it into a value with parts, and does so in one way for all values
without parts. -/
theorem built (h : Follows old alone above) {f : Option Toml → Toml}
    (hparts : ∀ x, (f x).isScalar = false)
    (hbare : ∀ x y : Option Toml, (∀ v, x = some v → v.isScalar = true ∨ v.isBlank = true) →
      (∀ v, y = some v → v.isScalar = true ∨ v.isBlank = true) → f x = f y) :
    Follows old (some (f alone)) (some (f above)) := by
  refine ⟨nofun, fun _ => rfl, ?_, ?_⟩
  · rintro _ ⟨⟩ hscalar
    rw [hparts] at hscalar
    cases hscalar
  · rintro hold _ ⟨⟩
    have hbelow : ∀ v, old = some v → v.isScalar = true ∨ v.isBlank = true :=
      fun v hv => .inl (hold v hv)
    left
    cases alone with
    | none =>
      rw [h.kept rfl]
      exact congrArg some (hbare _ _ hbelow nofun)
    | some v =>
      rcases h.bare hold v rfl with habove | ⟨hblank, habove⟩
      · rw [habove]
      · rw [habove]
        refine congrArg some (hbare _ _ hbelow ?_)
        rintro _ ⟨⟩
        exact .inr hblank

theorem setPath (h : Follows old alone above) (v : Toml) (path : List Step) :
    Follows old (some ((alone.getD absent).setPath v path))
      (some ((above.getD absent).setPath v path)) := by
  cases path with
  | nil => exact same old v
  | cons step more =>
    refine h.built (f := fun x => (x.getD absent).setPath v (step :: more)) ?_ ?_
    · intro x
      cases step with
      | entry name => rw [setPath_entry]; rfl
      | item index => rw [setPath_item]; rfl
    · have hbare (x : Option Toml) (hx : ∀ v, x = some v → v.isScalar = true ∨ v.isBlank = true) :
          (x.getD absent).isScalar = true ∨ (x.getD absent).isBlank = true := by
        cases x with
        | none => exact .inr rfl
        | some v => exact hx v rfl
      intro x y hx hy
      exact setPath_congr ((entries_of_bare (hbare x hx)).trans (entries_of_bare (hbare y hy)).symm)
        ((items_of_bare (hbare x hx)).trans (items_of_bare (hbare y hy)).symm) _ _ _

theorem written (h : Follows old alone above) (v : Toml) (path : List Step) :
    Follows old (some (written alone v path)) (some (written above v path)) := by
  cases path with
  | cons step more => exact h.setPath v (step :: more)
  | nil =>
    match v with
    | table [] => exact h.blank rfl
    | table (entry :: entries) =>
      refine h.built (f := fun x => setAll (x.getD (table [])) (entry :: entries)) ?_ ?_
      · intro x
        obtain ⟨inner, hinner⟩ :=
          @exists_setAll_eq_table (x.getD (table [])) _ (List.cons_ne_nil entry entries)
        rw [hinner]
        rfl
      · have hbare (x : Option Toml)
            (hx : ∀ v, x = some v → v.isScalar = true ∨ v.isBlank = true) :
            (x.getD (table [])).entries = [] := by
          cases x with
          | none => rfl
          | some v => exact entries_of_bare (hx v rfl)
        intro x y hx hy
        exact setAll_cons_congr ((hbare x hx).trans (hbare y hy).symm) _ _
    | boolean _ | integer _ | float _ | string _ | array _ | absent => exact same old _

/-- Entries keep the relation of what stands under a name. -/
theorem setAll {a b : Toml} {name : String} (entries : List (String × Toml))
    (h : Follows old (Table.value? a.entries name) (Table.value? b.entries name)) :
    Follows old (Table.value? (a.setAll entries).entries name)
      (Table.value? (b.setAll entries).entries name) := by
  induction entries generalizing a b with
  | nil => exact h
  | cons entry entries ih =>
    rw [Toml.setAll, Toml.setAll]
    refine ih ?_
    by_cases hname : lower entry.1 = name
    · subst hname
      rw [value?_setName_self, value?_setName_self, stored_eq_written, stored_eq_written]
      exact h.written entry.2 []
    · rw [value?_setName_of_ne (Ne.symm hname), value?_setName_of_ne (Ne.symm hname)]
      exact h

theorem setPath_entry {a b : Toml} {name : String}
    (h : Follows old (Table.value? a.entries name) (Table.value? b.entries name)) (v : Toml)
    (first : String) (more : List Step) :
    Follows old (Table.value? (a.setPath v (.entry first :: more)).entries name)
      (Table.value? (b.setPath v (.entry first :: more)).entries name) := by
  rw [Toml.setPath_entry, Toml.setPath_entry, entries, entries]
  by_cases hname : lower first = name
  · subst hname
    rw [Table.value?_put_self, Table.value?_put_self]
    exact h.written v more
  · rw [Table.value?_put_of_ne _ _ (Ne.symm hname), Table.value?_put_of_ne _ _ (Ne.symm hname)]
    exact h

end Follows

inductive Form
  | byName
  | byPlace
deriving Repr, DecidableEq

def form? : Toml → Option Form
  | table _ => some .byName
  | array _ => some .byPlace
  | _ => none

def part? (name : String) (index : ℕ) : Toml → Option Toml
  | table entries => Table.value? entries name
  | array items => items[index]?
  | _ => none

def continues (form : Form) (write : Write) : Bool :=
  match write.2 with
  | .entry _ :: _ => form == .byName
  | .item _ :: _ => form == .byPlace
  | [] =>
    match write.1 with
    | table [] => true
    | table _ => form == .byName
    | _ => false

/-- A section that so far has nothing in another form than this. -/
def Suits (form : Form) (part : Option Toml) : Prop :=
  ∀ v, part = some v → v = table [] ∨ v.form? = some form

variable {form : Form} {part part' : Toml} {alone : Option Toml} {write : Write} {index : ℕ}

theorem form?_setAll (h : part.form? = some .byName) (entries : List (String × Toml)) :
    (part.setAll entries).form? = some .byName := by
  cases entries with
  | nil => exact h
  | cons entry entries =>
    obtain ⟨inner, hinner⟩ := @exists_setAll_eq_table part _ (List.cons_ne_nil entry entries)
    rw [hinner]
    rfl

theorem Suits.entries_getD (h : Suits .byPlace alone) (hblank : v.isBlank = true) :
    (alone.getD v).entries = [] := by
  cases alone with
  | none => exact entries_of_bare (.inr hblank)
  | some w =>
    rcases h w rfl with rfl | hform
    · rfl
    · cases w <;> first | rfl | cases hform

theorem Suits.items_getD (h : Suits .byName alone) (hblank : v.isBlank = true) :
    (alone.getD v).items = [] := by
  cases alone with
  | none => exact items_of_bare (.inr hblank)
  | some w =>
    rcases h w rfl with rfl | hform
    · rfl
    · cases w <;> first | rfl | cases hform

/-- A write in another form makes one value of whatever stood there. -/
theorem written_of_not_continues (h : continues form write = false) (hpart : part.form? = some form)
    (halone : Suits form alone) :
    written (some part) write.1 write.2 = written alone write.1 write.2 := by
  have hself : Suits form (some part) := by
    rintro _ ⟨⟩
    exact .inr hpart
  obtain ⟨v, path⟩ := write
  match path with
  | .entry name :: more =>
    cases form with
    | byName => cases h
    | byPlace =>
      show part.setPath v (.entry name :: more) = (alone.getD absent).setPath v (.entry name :: more)
      have hentries : part.entries = [] := hself.entries_getD (v := absent) rfl
      rw [setPath_entry, setPath_entry, hentries, halone.entries_getD rfl]
  | .item index :: more =>
    cases form with
    | byName =>
      show part.setPath v (.item index :: more) = (alone.getD absent).setPath v (.item index :: more)
      have hitems : part.items = [] := hself.items_getD (v := absent) rfl
      rw [setPath_item, setPath_item, hitems, halone.items_getD rfl]
    | byPlace => cases h
  | [] =>
    match v with
    | table [] => cases form <;> cases h
    | table (entry :: entries) =>
      cases form with
      | byName => cases h
      | byPlace =>
        have hentries : part.entries = [] := hself.entries_getD (v := absent) rfl
        exact setAll_cons_congr (hentries.trans (halone.entries_getD rfl).symm) entry entries
    | boolean _ | integer _ | float _ | string _ | array _ | absent => rfl

theorem part?_of_byName (h : part.form? = some .byName) (name : String) (index : ℕ) :
    part.part? name index = Table.value? part.entries name := by
  cases part <;> first | rfl | cases h

theorem Suits.bind_part?_of_byName (h : Suits .byName alone) (hblank : v.isBlank = true)
    (name : String) (index : ℕ) :
    alone.bind (part? name index) = Table.value? (alone.getD v).entries name := by
  cases alone with
  | none => rw [Option.getD_none, entries_of_bare (.inr hblank)]; rfl
  | some w =>
    refine part?_of_byName ?_ name index
    rcases h w rfl with rfl | hform
    · rfl
    · exact hform

theorem part?_of_byPlace (h : part.form? = some .byPlace) (name : String) (index : ℕ) :
    part.part? name index = part.items[index]? := by
  cases part <;> first | rfl | cases h

theorem Suits.bind_part?_of_byPlace (h : Suits .byPlace alone) (hblank : v.isBlank = true)
    (name : String) (index : ℕ) :
    alone.bind (part? name index) = (alone.getD v).items[index]? := by
  cases alone with
  | none => rw [Option.getD_none, items_of_bare (.inr hblank)]; rfl
  | some w =>
    rcases h w rfl with rfl | hform
    · rfl
    · exact part?_of_byPlace hform name index

theorem getElem?_padded (items : List Toml) (last index : ℕ) : (padded items last)[index]? =
    if index ≤ last then some (items[index]?.getD absent) else items[index]? := by
  rw [padded]
  by_cases hold : index < items.length
  · rw [List.getElem?_append_left hold, List.getElem?_eq_getElem hold, Option.getD_some, ite_self]
  · have hnone : items[index]? = none := List.getElem?_eq_none (Nat.le_of_not_lt hold)
    rw [List.getElem?_append_right (Nat.le_of_not_lt hold), List.getElem?_replicate, hnone]
    have hiff : index - items.length < last + 1 - items.length ↔ index ≤ last := by omega
    simp only [hiff, Option.getD_none]

/-- Items keep the relation of what stands in a place. -/
theorem Follows.setPath_item {old : Option Toml} {a b : Toml} {index : ℕ}
    (h : Follows old a.items[index]? b.items[index]?) (v : Toml) (last : ℕ) (more : List Step) :
    Follows old (a.setPath v (.item last :: more)).items[index]?
      (b.setPath v (.item last :: more)).items[index]? := by
  have hitems (x : Toml) : (x.setPath v (.item last :: more)).items[index]? =
      if last = index then some ((x.items[index]?.getD absent).setPath v more)
      else if index ≤ last then some (x.items[index]?.getD absent) else x.items[index]? := by
    rw [Toml.setPath_item, items, List.getElem?_set, getElem?_padded, List.getD_eq_getElem?_getD,
      getElem?_padded, if_pos (Nat.le_refl _), Option.getD_some]
    have hlast : last < (padded x.items last).length := by
      rw [padded, List.length_append, List.length_replicate]
      omega
    rw [if_pos hlast]
    by_cases heq : last = index
    · subst heq
      rfl
    · rw [if_neg heq, if_neg heq]
  rw [hitems, hitems]
  by_cases heq : last = index
  · rw [if_pos heq, if_pos heq]
    exact h.setPath v more
  · rw [if_neg heq, if_neg heq]
    by_cases hle : index ≤ last
    · rw [if_pos hle, if_pos hle]
      exact h.blank rfl
    · rw [if_neg hle, if_neg hle]
      exact h

section
variable {old : Option Toml} {name : String} {index : ℕ} {writes : List Write}

theorem form?_written (h : continues form write = true) (hpart : part.form? = some form) :
    (written (some part) write.1 write.2).form? = some form := by
  obtain ⟨v, path⟩ := write
  match path with
  | .entry first :: more =>
    cases form with
    | byName => exact congrArg form? (setPath_entry part v first more)
    | byPlace => cases h
  | .item last :: more =>
    cases form with
    | byName => cases h
    | byPlace => exact congrArg form? (setPath_item part v last more)
  | [] =>
    match v with
    | table [] => exact hpart
    | table (entry :: entries) =>
      cases form with
      | byName => exact form?_setAll hpart (entry :: entries)
      | byPlace => cases h
    | boolean _ | integer _ | float _ | string _ | array _ | absent => cases h

/-- The form may be chosen by the first write that is not empty. -/
theorem Suits.written (h : continues form write = true) (halone : Suits form alone) :
    Suits form (some (written alone write.1 write.2)) := by
  obtain ⟨v, path⟩ := write
  rintro _ ⟨⟩
  match path with
  | .entry first :: more =>
    cases form with
    | byName => exact .inr (congrArg form? (setPath_entry _ v first more))
    | byPlace => cases h
  | .item last :: more =>
    cases form with
    | byName => cases h
    | byPlace => exact .inr (congrArg form? (setPath_item _ v last more))
  | [] =>
    match v with
    | table [] =>
      cases alone with
      | none => exact .inl rfl
      | some w => exact halone w rfl
    | table (entry :: entries) =>
      cases form with
      | byName =>
        obtain ⟨inner, hinner⟩ := @exists_setAll_eq_table (alone.getD (table [])) _
          (List.cons_ne_nil entry entries)
        exact .inr (congrArg form? hinner)
      | byPlace => cases h
    | boolean _ | integer _ | float _ | string _ | array _ | absent => cases h

/-- A write in the form of a section keeps its parts apart. -/
theorem Follows.written_of_continues (h : continues form write = true)
    (hpart : part.form? = some form) (halone : Suits form alone)
    (hfollows : Follows old (alone.bind (part? name index)) (part.part? name index)) :
    Follows old ((Toml.written alone write.1 write.2).part? name index)
      ((Toml.written (some part) write.1 write.2).part? name index) := by
  have hpart' := form?_written h hpart
  have halone' := halone.written h
  cases form with
  | byName =>
    rw [part?_of_byName hpart, halone.bind_part?_of_byName (v := absent) rfl] at hfollows
    rw [part?_of_byName hpart', ← Option.bind_some (f := part? name index),
      halone'.bind_part?_of_byName (v := absent) rfl, Option.getD_some]
    obtain ⟨v, path⟩ := write
    match path with
    | .entry first :: more => exact hfollows.setPath_entry v first more
    | .item last :: more => cases h
    | [] =>
      match v with
      | table entries =>
        refine Follows.setAll entries ?_
        cases alone with
        | none => exact hfollows
        | some w => exact hfollows
      | boolean _ | integer _ | float _ | string _ | array _ | absent => cases h
  | byPlace =>
    rw [part?_of_byPlace hpart, halone.bind_part?_of_byPlace (v := absent) rfl] at hfollows
    rw [part?_of_byPlace hpart', ← Option.bind_some (f := part? name index),
      halone'.bind_part?_of_byPlace (v := absent) rfl, Option.getD_some]
    obtain ⟨v, path⟩ := write
    match path with
    | .entry first :: more => cases h
    | .item last :: more => exact hfollows.setPath_item v last more
    | [] =>
      match v with
      | table [] =>
        cases alone with
        | none => exact hfollows
        | some w => exact hfollows
      | table (_ :: _) | boolean _ | integer _ | float _ | string _ | array _ | absent => cases h

/-- Writes in the form of a section, one after another. -/
theorem writeAll_of_continues (h : ∀ write ∈ writes, continues form write = true)
    (hpart : part.form? = some form) (halone : Suits form alone)
    (hfollows : Follows old (alone.bind (part? name index)) (part.part? name index)) :
    ∃ part', writeAll (some part) writes = some part' ∧ part'.form? = some form ∧
      Suits form (writeAll alone writes) ∧
      Follows old ((writeAll alone writes).bind (part? name index)) (part'.part? name index) := by
  induction writes generalizing part alone with
  | nil => exact ⟨part, rfl, hpart, halone, hfollows⟩
  | cons write writes ih =>
    obtain ⟨hfirst, hrest⟩ := List.forall_mem_cons.mp h
    exact ih hrest (form?_written hfirst hpart) (halone.written hfirst)
      (hfollows.written_of_continues hfirst hpart halone)

/-- One write in another form, and nothing of the section is left. -/
theorem writeAll_of_not_continues (h : ¬ ∀ write ∈ writes, continues form write = true)
    (hpart : part.form? = some form) (halone : Suits form alone) :
    writeAll (some part) writes = writeAll alone writes := by
  induction writes generalizing part alone with
  | nil => exact absurd nofun h
  | cons write writes ih =>
    rw [writeAll_cons, writeAll_cons]
    cases hfirst : continues form write with
    | false => rw [written_of_not_continues hfirst hpart halone]
    | true =>
      exact ih (fun hrest => h (List.forall_mem_cons.mpr ⟨hfirst, hrest⟩))
        (form?_written hfirst hpart) (halone.written hfirst)

end

end DeclSchema.Toml
