/-!
# Primer.Table — values under names, in order of entry.

A table is a list of named values in which each name stands at most once when it was built by
`insert`.  Inserting under a taken name replaces the value and keeps its place.
-/

namespace Primer

/-- Values under names. -/
structure Table (α : Type) where
  entries : List (String × α)

namespace Table

variable {α : Type}

/-- The value under a name in a list of entries. -/
def lookup (key : String) : List (String × α) → Option α
  | [] => none
  | (k, v) :: rest => if k = key then some v else lookup key rest

/-- The list with a value put under a name: in the place of the old one, or at the end. -/
def put (key : String) (value : α) : List (String × α) → List (String × α)
  | [] => [(key, value)]
  | (k, v) :: rest => if k = key then (k, value) :: rest else (k, v) :: put key value rest

/-- A table without entries. -/
def empty : Table α := ⟨[]⟩

def get? (t : Table α) (key : String) : Option α := lookup key t.entries

def contains (t : Table α) (key : String) : Bool := (t.get? key).isSome

def insert (t : Table α) (key : String) (value : α) : Table α := ⟨put key value t.entries⟩

def size (t : Table α) : Nat := t.entries.length

def keys (t : Table α) : List String := t.entries.map (·.1)

def values (t : Table α) : List α := t.entries.map (·.2)

/-! ## What a write shows -/

theorem lookup_put_self (key : String) (value : α) (entries : List (String × α)) :
    lookup key (put key value entries) = some value := by
  induction entries with
  | nil => simp [put, lookup]
  | cons entry rest ih => by_cases h : entry.1 = key <;> simp [put, lookup, h, ih]

theorem lookup_put_of_ne {key other : String} (h : other ≠ key) (value : α)
    (entries : List (String × α)) :
    lookup other (put key value entries) = lookup other entries := by
  induction entries with
  | nil => simp [put, lookup, Ne.symm h]
  | cons entry rest ih =>
    by_cases hk : entry.1 = key
    · have ho : ¬ key = other := fun e => h e.symm
      simp [put, lookup, hk, ho]
    · by_cases ho : entry.1 = other
      · subst ho
        simp [put, lookup, hk]
      · simp [put, lookup, hk, ho, ih]

@[simp]
theorem get?_insert_self (t : Table α) (key : String) (value : α) :
    (t.insert key value).get? key = some value :=
  lookup_put_self key value t.entries

theorem get?_insert_of_ne (t : Table α) {key other : String} (h : other ≠ key) (value : α) :
    (t.insert key value).get? other = t.get? other :=
  lookup_put_of_ne h value t.entries

@[simp]
theorem get?_empty (key : String) : (empty : Table α).get? key = none := rfl

theorem contains_insert (t : Table α) (key other : String) (value : α) :
    (t.insert key value).contains other = (other == key || t.contains other) := by
  by_cases h : other = key
  · subst h
    simp [contains]
  · simp [contains, get?_insert_of_ne t h, h]

end Table

end Primer
