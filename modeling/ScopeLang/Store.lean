/-
Stores of cells.

A store holds cells of one kind under handles that are never given out twice.
Cells are added and overwritten, never removed, so a handle keeps naming the
same cell for good.  Whether a cell still counts as present is a question of
who owns it, and not of the store.
-/

namespace ScopeLang

/-- The kinds of cells. -/
inductive CellKind where
  | scope | list | dict | set | object | function | method | classObject | overloads | types
deriving DecidableEq, Inhabited

/-- The name of a cell of one kind. -/
structure Handle (k : CellKind) where
  index : Nat
deriving DecidableEq, Inhabited

/-- The name of a cell of any kind. -/
structure Cell where
  kind : CellKind
  index : Nat
deriving DecidableEq, Inhabited

/-- A handle without its kind in the type. -/
def Handle.cell {k : CellKind} (h : Handle k) : Cell := ⟨k, h.index⟩

/-- The cells of one kind. -/
structure Store (k : CellKind) (α : Type) where
  cells : Array α
deriving Inhabited

namespace Store

variable {k : CellKind} {α : Type}

def empty : Store k α := ⟨#[]⟩

def size (s : Store k α) : Nat := s.cells.size

/-- Adds a cell under a new handle. -/
def alloc (s : Store k α) (a : α) : Handle k × Store k α := (⟨s.cells.size⟩, ⟨s.cells.push a⟩)

/-- The content of a cell. -/
def get [Inhabited α] (s : Store k α) (h : Handle k) : α := s.cells.getD h.index default

/-- Overwrites a cell. -/
def set (s : Store k α) (h : Handle k) (a : α) : Store k α := ⟨s.cells.setIfInBounds h.index a⟩

/-- Whether a handle has been given out. -/
def Has (s : Store k α) (h : Handle k) : Prop := h.index < s.size

/-- Whether one of the `n` handles from position `i` on satisfies `p`, searched in order. -/
def anyFrom (p : Handle k → Bool) : Nat → Nat → Bool
  | _, 0 => false
  | i, n + 1 => p ⟨i⟩ || anyFrom p (i + 1) n

/-- Whether a handle that has been given out satisfies `p`. -/
def anyHandle (s : Store k α) (p : Handle k → Bool) : Bool := anyFrom p 0 s.size

/-! ## Laws -/

@[simp] theorem size_alloc (s : Store k α) (a : α) : (s.alloc a).2.size = s.size + 1 := by
  simp [alloc, size]

@[simp] theorem size_set (s : Store k α) (h : Handle k) (a : α) : (s.set h a).size = s.size := by
  simp [set, size]

theorem get_alloc_new [Inhabited α] (s : Store k α) (a : α) :
    (s.alloc a).2.get (s.alloc a).1 = a := by
  simp [alloc, get]

theorem get_set_same [Inhabited α] {s : Store k α} {h : Handle k} (a : α) (old : s.Has h) :
    (s.set h a).get h = a := by
  have old' : h.index < s.cells.size := old
  simp [set, get, Array.getD_eq_getD_getElem?, old']

theorem get_set_other [Inhabited α] {s : Store k α} {h i : Handle k} (a : α) (ne : h ≠ i) :
    (s.set h a).get i = s.get i := by
  have ne' : h.index ≠ i.index := fun e => ne (by cases h; cases i; simp_all)
  simp [set, get, Array.getD_eq_getD_getElem?, ne']

theorem anyFrom_eq_true {p : Handle k → Bool} {n : Nat} :
    ∀ {i : Nat}, anyFrom p i n = true ↔ ∃ j, i ≤ j ∧ j < i + n ∧ p ⟨j⟩ = true := by
  induction n with
  | zero => intro i; simp [anyFrom]; omega
  | succ n ih =>
    intro i
    simp only [anyFrom, Bool.or_eq_true, ih]
    constructor
    · rintro (h | ⟨j, le, lt, h⟩)
      · exact ⟨i, by omega, by omega, h⟩
      · exact ⟨j, by omega, by omega, h⟩
    · rintro ⟨j, le, lt, h⟩
      by_cases e : j = i
      · exact .inl (e ▸ h)
      · exact .inr ⟨j, by omega, by omega, h⟩

theorem anyHandle_eq_true {s : Store k α} {p : Handle k → Bool} :
    s.anyHandle p = true ↔ ∃ h, s.Has h ∧ p h = true := by
  simp only [anyHandle, anyFrom_eq_true, Has]
  constructor
  · rintro ⟨j, -, lt, h⟩
    exact ⟨⟨j⟩, by simpa using lt, h⟩
  · rintro ⟨h, lt, ph⟩
    exact ⟨h.index, by omega, by simpa using lt, ph⟩

end Store

end ScopeLang
