/-! # Tables in insertion order

A table maps names to values and remembers the order in which the names first came.
Writing a name again replaces its value and keeps its place. Definitions, properties,
schemas and settings are all kept this way, because the order is part of the output.
-/
namespace DeclSchema

abbrev Table (α : Type) := List (String × α)

namespace Table

variable {α β : Type}

def names (t : Table α) : List String := t.map Prod.fst

def value? (t : Table α) (name : String) : Option α :=
  match t with
  | [] => none
  | (other, a) :: rest => if other = name then some a else value? rest name

def has (t : Table α) (name : String) : Bool := t.any fun entry => entry.1 == name

/-- Writes a value: in the place of the old one if the name is there, else at the end. -/
def put (t : Table α) (name : String) (a : α) : Table α :=
  match t with
  | [] => [(name, a)]
  | (other, b) :: rest =>
    if other = name then (other, a) :: rest else (other, b) :: put rest name a

def putNew (t : Table α) (name : String) (a : α) : Table α :=
  if t.has name then t else t ++ [(name, a)]

def putAll (t u : Table α) : Table α := u.foldl (fun t entry => t.put entry.1 entry.2) t

def putAllNew (t u : Table α) : Table α := u.foldl (fun t entry => t.putNew entry.1 entry.2) t

def ofEntries (entries : List (String × α)) : Table α := putAll [] entries

def keep (t : Table α) (test : String → Bool) : Table α := t.filter fun entry => test entry.1

def mapValues (f : α → β) (t : Table α) : Table β := t.map fun entry => (entry.1, f entry.2)

@[simp] theorem names_nil : names ([] : Table α) = [] := rfl

@[simp] theorem names_cons (name : String) (a : α) (t : Table α) :
    names ((name, a) :: t) = name :: names t := rfl

theorem has_iff_mem_names {t : Table α} {name : String} : t.has name = true ↔ name ∈ t.names := by
  simp [has, names]

theorem names_put_of_mem {t : Table α} {name : String} (a : α) (h : name ∈ t.names) :
    (t.put name a).names = t.names := by
  induction t with
  | nil => simp at h
  | cons entry rest ih =>
    obtain ⟨other, b⟩ := entry
    by_cases hn : other = name
    · simp [put, hn]
    · have h' : name ∈ names rest := by
        rcases List.mem_cons.mp h with rfl | h
        · exact absurd rfl hn
        · exact h
      simp [put, hn, ih h']

theorem put_of_not_mem {t : Table α} {name : String} (a : α) (h : name ∉ t.names) :
    t.put name a = t ++ [(name, a)] := by
  induction t with
  | nil => rfl
  | cons entry rest ih =>
    obtain ⟨other, b⟩ := entry
    simp only [names_cons, List.mem_cons, not_or] at h
    simp [put, Ne.symm h.1, ih h.2]

theorem names_put_of_not_mem {t : Table α} {name : String} (a : α) (h : name ∉ t.names) :
    (t.put name a).names = t.names ++ [name] := by
  rw [put_of_not_mem a h, names, List.map_append]
  rfl

theorem value?_put_self (t : Table α) (name : String) (a : α) :
    (t.put name a).value? name = some a := by
  induction t with
  | nil => simp [put, value?]
  | cons entry rest ih =>
    obtain ⟨other, b⟩ := entry
    by_cases hn : other = name <;> simp [put, value?, hn, ih]

theorem value?_put_of_ne (t : Table α) {name other : String} (a : α) (h : other ≠ name) :
    (t.put name a).value? other = t.value? other := by
  induction t with
  | nil => simp [put, value?, Ne.symm h]
  | cons entry rest ih =>
    obtain ⟨first, b⟩ := entry
    by_cases hn : first = name
    · subst hn
      simp [put, value?, Ne.symm h]
    · simp [put, value?, hn, ih]

theorem nodup_names_put {t : Table α} (name : String) (a : α) (h : t.names.Nodup) :
    (t.put name a).names.Nodup := by
  by_cases hm : name ∈ t.names
  · rwa [names_put_of_mem a hm]
  · rw [names_put_of_not_mem a hm]
    rw [List.nodup_append]
    refine ⟨h, by simp, ?_⟩
    intro x hx y hy
    rw [List.mem_singleton] at hy
    subst hy
    exact fun hxy => hm (hxy ▸ hx)

/-- No operation that writes can make a name occur twice. -/
theorem nodup_names_putAll {t : Table α} (u : Table α) (h : t.names.Nodup) :
    (t.putAll u).names.Nodup := by
  induction u generalizing t with
  | nil => exact h
  | cons entry rest ih => exact ih (nodup_names_put entry.1 entry.2 h)

theorem nodup_names_ofEntries (entries : List (String × α)) : (ofEntries entries).names.Nodup :=
  nodup_names_putAll entries (by simp)

end Table
end DeclSchema
