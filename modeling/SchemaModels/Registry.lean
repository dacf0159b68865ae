/-! Named values in the order in which their names first arrived. A name that is put again keeps
its place and takes the new value; a name that is only offered keeps its value too. -/

namespace SchemaModels
set_option autoImplicit false

/-! ## Rows -/

namespace Registry

variable {α : Type}

/-- Rows with the value under a name replaced in place, or added at the end. -/
def putRow (name : String) (value : α) : List (String × α) → List (String × α)
  | [] => [(name, value)]
  | (n, v) :: rows => if n = name then (n, value) :: rows else (n, v) :: putRow name value rows

theorem names_putRow (name : String) (value : α) (rows : List (String × α)) :
    (putRow name value rows).map Prod.fst =
      if name ∈ rows.map Prod.fst then rows.map Prod.fst else rows.map Prod.fst ++ [name] := by
  induction rows with
  | nil => simp [putRow]
  | cons row rows ih =>
    obtain ⟨n, v⟩ := row
    by_cases h : n = name
    · simp [putRow, h]
    · have h' : name ≠ n := fun e => h e.symm
      by_cases hm : name ∈ rows.map Prod.fst <;> simp_all [putRow]

theorem nodup_putRow (name : String) (value : α) (rows : List (String × α))
    (h : (rows.map Prod.fst).Nodup) : ((putRow name value rows).map Prod.fst).Nodup := by
  rw [names_putRow]
  split
  · exact h
  · next hm =>
    refine List.nodup_append.mpr ⟨h, List.pairwise_singleton _ _, ?_⟩
    intro a ha b hb e
    rw [List.mem_singleton] at hb
    exact hm (hb ▸ e ▸ ha)

end Registry

/-! ## The table -/

/-- A table of values under distinct names, in order of first arrival. -/
structure Registry (α : Type) where
  rows : List (String × α)
  distinct : (rows.map Prod.fst).Nodup

namespace Registry

variable {α : Type}

def empty : Registry α := ⟨[], List.nodup_nil⟩

def names (r : Registry α) : List String :=
  r.rows.map Prod.fst

def values (r : Registry α) : List α :=
  r.rows.map Prod.snd

def size (r : Registry α) : Nat :=
  r.rows.length

def get? (r : Registry α) (name : String) : Option α :=
  r.rows.lookup name

def contains (r : Registry α) (name : String) : Bool :=
  r.rows.any fun row => row.1 == name

/-- Puts a value under a name, in the name's place if it has one. -/
def put (r : Registry α) (name : String) (value : α) : Registry α :=
  ⟨putRow name value r.rows, nodup_putRow name value r.rows r.distinct⟩

/-- Puts a value under a name that has none. -/
def offer (r : Registry α) (name : String) (value : α) : Registry α :=
  if r.contains name then r else r.put name value

/-- Changes the value under a name. -/
def modify (r : Registry α) (name : String) (f : α → α) : Registry α :=
  ⟨r.rows.map fun row => if row.1 = name then (row.1, f row.2) else row, by
    have h : Prod.fst ∘ (fun row : String × α => if row.1 = name then (row.1, f row.2) else row) =
        Prod.fst := by
      funext row
      by_cases hn : row.1 = name <;> simp [hn]
    rw [List.map_map, h]
    exact r.distinct⟩

/-- The place of a name in the order of arrival; the size if it has none. -/
def index (r : Registry α) (name : String) : Nat :=
  r.names.idxOf name

/-- Puts every row of a list in turn. -/
def putAll (r : Registry α) (rows : List (String × α)) : Registry α :=
  rows.foldl (fun r row => r.put row.1 row.2) r

def ofList (rows : List (String × α)) : Registry α :=
  empty.putAll rows

end Registry

end SchemaModels
