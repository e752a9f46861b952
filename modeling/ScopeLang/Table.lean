/-
Tables of named entries.

A table holds at most one entry under each name.
-/

namespace ScopeLang

structure Table (α : Type) where
  entries : List (String × α)
deriving Inhabited

namespace Table

variable {α : Type}

def empty : Table α := ⟨[]⟩

def isEmpty (t : Table α) : Bool := t.entries.isEmpty

/-- The entry under a name. -/
def get? (t : Table α) (name : String) : Option α := t.entries.lookup name

def contains (t : Table α) (name : String) : Bool := (t.get? name).isSome

/-- The entries after one under a name has been put in. -/
def put (name : String) (a : α) : List (String × α) → List (String × α)
  | [] => [(name, a)]
  | (other, b) :: rest =>
      if name == other then (name, a) :: rest else (other, b) :: put name a rest

/-- Puts an entry under a name, in the place of an earlier one. -/
def insert (t : Table α) (name : String) (a : α) : Table α := ⟨put name a t.entries⟩

/-- Adds an item to the list under a name. -/
def append (t : Table (List α)) (name : String) (a : α) : Table (List α) :=
  t.insert name ((t.get? name).getD [] ++ [a])

def values (t : Table α) : List α := t.entries.map (·.2)

def filter (p : α → Bool) (t : Table α) : Table α := ⟨t.entries.filter fun e => p e.2⟩

/-! ## Laws -/

theorem lookup_put_same (name : String) (a : α) (entries : List (String × α)) :
    (put name a entries).lookup name = some a := by
  induction entries with
  | nil => simp [put]
  | cons e rest ih =>
    obtain ⟨other, b⟩ := e
    by_cases h : name == other
    · simp [put, h]
    · simp only [put, h, Bool.false_eq_true, if_false, List.lookup_cons]
      exact ih

theorem lookup_put_other {name other : String} (ne : other ≠ name) (a : α)
    (entries : List (String × α)) : (put name a entries).lookup other = entries.lookup other := by
  have ne' : (other == name) = false := by simp [ne]
  induction entries with
  | nil => simp [put, ne]
  | cons e rest ih =>
    obtain ⟨third, b⟩ := e
    by_cases h : name == third
    · have h' : name = third := by simpa using h
      subst h'
      simp [put, List.lookup_cons, ne']
    · simp only [put, h, Bool.false_eq_true, if_false, List.lookup_cons, ih]

@[simp] theorem get?_empty (name : String) : (empty : Table α).get? name = none := rfl

theorem get?_insert_same (t : Table α) (name : String) (a : α) :
    (t.insert name a).get? name = some a := lookup_put_same name a t.entries

theorem get?_insert_other {name other : String} (ne : other ≠ name) (t : Table α) (a : α) :
    (t.insert name a).get? other = t.get? other := lookup_put_other ne a t.entries

end Table

end ScopeLang
