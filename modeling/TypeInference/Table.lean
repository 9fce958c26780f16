/- Tables that keep their keys in the order of insertion. -/

namespace TypeInference

/-- A finite map whose keys keep the order of insertion. -/
structure Table (κ : Type) (α : Type) where
  entries : List (κ × α) := []

namespace Table

variable {κ α β : Type} [BEq κ] (table : Table κ α) (key : κ)

def empty : Table κ α := {}

instance : Inhabited (Table κ α) := ⟨empty⟩

def get? : Option α :=
  (table.entries.find? fun entry => entry.1 == key).map (·.2)

def contains : Bool :=
  table.entries.any fun entry => entry.1 == key

def keys : List κ := table.entries.map (·.1)

def values : List α := table.entries.map (·.2)

def size : Nat := table.entries.length

/-- A key that is there keeps its place. -/
def insert (value : α) : Table κ α :=
  if table.contains key then
    ⟨table.entries.map fun entry => if entry.1 == key then (entry.1, value) else entry⟩
  else
    ⟨table.entries ++ [(key, value)]⟩

def erase : Table κ α :=
  ⟨table.entries.filter fun entry => !(entry.1 == key)⟩

/-- Inserts the entries of the second table into the first. -/
def union (other : Table κ α) : Table κ α :=
  other.entries.foldl (fun result entry => result.insert entry.1 entry.2) table

def ofList (entries : List (κ × α)) : Table κ α :=
  union empty ⟨entries⟩

def map (f : α → β) (table : Table κ α) : Table κ β :=
  ⟨table.entries.map fun entry => (entry.1, f entry.2)⟩

end Table

end TypeInference
