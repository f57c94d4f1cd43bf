import DeclSchema.Proofs.Table
import DeclSchema.Settings.Layers

/-! # What a later layer replaces

A layer whose keys are plain names in lower case writes its entries one after another. What it
names has its value afterwards, whatever the layers below say about it.
-/
namespace DeclSchema.Toml
open Text

variable {under under' v : Toml} {name other : String} {entries : List (String × Toml)}

def stored (under : Toml) (name : String) : Toml → Toml
  | table entries => setAll ((Table.value? under.entries (lower name)).getD (table [])) entries
  | v => v

theorem setName_eq_table (under : Toml) (name : String) (v : Toml) :
    setName under name v =
      table (Table.put under.entries (lower name) (stored under name v)) := by
  cases v <;> rw [setName] <;> first | rfl | nofun

theorem stored_of_not_isTable (h : v.isTable = false) : stored under name v = v := by
  cases v <;> first | rfl | cases h

/-- Only what stood under the same name matters. -/
theorem stored_congr
    (h : Table.value? under.entries (lower name) = Table.value? under'.entries (lower name)) :
    stored under name v = stored under' name v := by
  cases v with
  | table entries => rw [stored, stored, h]
  | _ => rfl

theorem value?_setName_self (under : Toml) (name : String) (v : Toml) :
    Table.value? (setName under name v).entries (lower name) = some (stored under name v) := by
  rw [setName_eq_table]
  exact Table.value?_put_self _ _ _

theorem value?_setName_of_ne (h : other ≠ lower name) :
    Table.value? (setName under name v).entries other = Table.value? under.entries other := by
  rw [setName_eq_table]
  exact Table.value?_put_of_ne _ _ h

theorem value?_setAll_of_not_mem (h : ∀ entry ∈ entries, other ≠ lower entry.1) :
    Table.value? (setAll under entries).entries other = Table.value? under.entries other := by
  induction entries generalizing under with
  | nil => rfl
  | cons entry entries ih =>
    rw [setAll, ih fun later hlater => h later (List.mem_cons_of_mem entry hlater),
      value?_setName_of_ne (h entry List.mem_cons_self)]

/-- Entries with different names do not touch each other. -/
theorem value?_setAll_of_mem (hlower : ∀ entry ∈ entries, lower entry.1 = entry.1)
    (hnames : (entries.map Prod.fst).Nodup) (hmem : (name, v) ∈ entries) :
    Table.value? (setAll under entries).entries name = some (stored under name v) := by
  induction entries generalizing under with
  | nil => cases hmem
  | cons entry entries ih =>
    obtain ⟨hnew, hnames⟩ := List.nodup_cons.mp hnames
    have hname : lower entry.1 = entry.1 := hlower entry List.mem_cons_self
    have hrest : ∀ later ∈ entries, lower later.1 = later.1 :=
      fun later hlater => hlower later (List.mem_cons_of_mem entry hlater)
    have hne : ∀ later ∈ entries, entry.1 ≠ later.1 := fun later hlater heq =>
      hnew (heq ▸ List.mem_map_of_mem hlater)
    rw [setAll]
    -- The entry is written now and left alone later, or written later over what is left alone now.
    rcases List.mem_cons.mp hmem with rfl | hlater
    · rw [value?_setAll_of_not_mem fun later hlater => by
        rw [hrest later hlater]
        exact hne later hlater]
      have hself := value?_setName_self under name v
      rwa [hname] at hself
    · rw [ih hrest hnames hlater]
      have hkept : lower name ≠ lower entry.1 := by
        rw [hname, hrest _ hlater]
        exact (hne _ hlater).symm
      rw [stored_congr (value?_setName_of_ne hkept)]

theorem exists_setAll_eq_table (h : entries ≠ []) : ∃ inner, setAll under entries = table inner := by
  induction entries generalizing under with
  | nil => exact absurd rfl h
  | cons entry entries ih =>
    rw [setAll]
    cases entries with
    | nil => exact ⟨_, setName_eq_table under entry.1 entry.2⟩
    | cons next entries => exact ih (List.cons_ne_nil next entries)

/-- A section that is laid over a value has its own entries then. -/
theorem section?_stored (hne : entries ≠ []) (hlower : ∀ entry ∈ entries, lower entry.1 = entry.1)
    (hplain : ∀ entry ∈ entries, entry.2.isTable = false) (hnames : (entries.map Prod.fst).Nodup) :
    (stored under name (table entries)).section? (entries.map Prod.fst) =
      some (entries.map fun entry => some entry.2) := by
  obtain ⟨inner, hinner⟩ := @exists_setAll_eq_table
    ((Table.value? under.entries (lower name)).getD (table [])) entries hne
  rw [stored, hinner, section?, List.map_map]
  congr 1
  refine List.map_congr_left fun entry hentry => ?_
  have hvalue := @value?_setAll_of_mem
    ((Table.value? under.entries (lower name)).getD (table [])) entry.2 entry.1 entries
    hlower hnames hentry
  rw [hinner, stored_of_not_isTable (hplain entry hentry)] at hvalue
  exact hvalue

/-- Keys that are names are no more than names. -/
theorem overlay_eq_setAll {layer : Layer} (h : ∀ entry ∈ layer, pathOf entry.1 = [.entry entry.1])
    (under : Toml) : under.overlay layer = under.setAll layer := by
  induction layer generalizing under with
  | nil => rfl
  | cons entry layer ih =>
    show ((under.setPath entry.2 (pathOf entry.1)).overlay layer) = _
    rw [h entry List.mem_cons_self, setPath, setAll,
      ih fun later hlater => h later (List.mem_cons_of_mem entry hlater)]

end DeclSchema.Toml
