/-!
# Session/Table — values by name

A table maps names to values; binding a name again replaces its value (`get?_insert_self`,
`get?_insert_of_ne`, `get?_erase_self`, `get?_erase_of_ne`).
-/

namespace DeferredArrays

/-- Values by name. -/
structure Table (α : Type) where
  /-- The names with their values; no name occurs twice. -/
  entries : List (String × α)

namespace Table

variable {α : Type}

/-- The table without entries. -/
def empty : Table α := ⟨[]⟩

instance : Inhabited (Table α) := ⟨empty⟩

/-- The value of a name. -/
def get? (t : Table α) (name : String) : Option α := (t.entries.find? (·.1 == name)).map (·.2)

/-- The table without a name. -/
def erase (t : Table α) (name : String) : Table α := ⟨t.entries.filter (·.1 != name)⟩

/-- The table with a name bound to a value. -/
def insert (t : Table α) (name : String) (a : α) : Table α :=
  ⟨(t.erase name).entries ++ [(name, a)]⟩

@[simp] theorem get?_empty (name : String) : (empty : Table α).get? name = none := rfl

/-- A name that was taken back is not in the table … -/
@[simp] theorem get?_erase_self (t : Table α) (name : String) : (t.erase name).get? name = none := by
  simp [get?, erase]

/-- … and the others still are. -/
theorem get?_erase_of_ne (t : Table α) {name other : String} (h : other ≠ name) :
    (t.erase name).get? other = t.get? other := by
  simp only [get?, erase, List.find?_filter]
  congr 2
  funext e
  by_cases he : e.1 = other
  · simp [he, h]
  · simp [he]

/-- A name stands for what it was given to last … -/
@[simp] theorem get?_insert_self (t : Table α) (name : String) (a : α) :
    (t.insert name a).get? name = some a := by
  have h := get?_erase_self t name
  simp only [get?, Option.map_eq_none_iff] at h
  simp [get?, insert, List.find?_append, h]

/-- … and the others for what they stood for. -/
theorem get?_insert_of_ne (t : Table α) {name other : String} (a : α) (h : other ≠ name) :
    (t.insert name a).get? other = t.get? other := by
  rw [← get?_erase_of_ne t h]
  simp [get?, insert, List.find?_append, Ne.symm h]

end Table

end DeferredArrays
