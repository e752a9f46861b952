/-
Names of types.

Every type name has one id, given out in the order of first use.  The built-in
types come first.  Id 0 belongs to no type.
-/

namespace ScopeLang

/-- The identity of a named type: its place in the order of first use, from 1 on.  It is a natural
number where the interpreter has a 32-bit word, so that ids do not wrap around; the two are the
same for registries of fewer than 2 ^ 32 - 1 names. -/
structure TypeId where
  index : Nat
deriving DecidableEq, Inhabited, Repr

namespace TypeId

/-- The id of no type. -/
def invalid : TypeId := ⟨0⟩

def isValid (t : TypeId) : Bool := t.index != 0

end TypeId

/-- The built-in types. -/
inductive Primitive where
  | null | bool | int | long | float | double | char | string
  | list | dict | set | array | function | classObject
deriving DecidableEq, Inhabited, Repr

namespace Primitive

/-- The built-in types in the order of their ids. -/
def all : List Primitive :=
  [null, bool, int, long, float, double, char, string,
    list, dict, set, array, function, .classObject]

def name : Primitive → String
  | null => "Null" | bool => "Bool" | int => "Int" | long => "Long"
  | float => "Float" | double => "Double" | char => "Char" | string => "String"
  | list => "List" | dict => "Dict" | set => "Set" | array => "Array"
  | function => "Function" | .classObject => "Class"

/-- The fixed id of a built-in type. -/
def id : Primitive → TypeId
  | null => ⟨1⟩ | bool => ⟨2⟩ | int => ⟨3⟩ | long => ⟨4⟩
  | float => ⟨5⟩ | double => ⟨6⟩ | char => ⟨7⟩ | string => ⟨8⟩
  | list => ⟨9⟩ | dict => ⟨10⟩ | set => ⟨11⟩ | array => ⟨12⟩
  | function => ⟨13⟩ | .classObject => ⟨14⟩

/-- The built-in type with an id. -/
def ofId? (t : TypeId) : Option Primitive := all.find? fun p => p.id = t

/-- The built-in type with a name. -/
def ofName? (name : String) : Option Primitive := all.find? fun p => p.name = name

/-- The position in the widening order of the numeric types. -/
def rank? : Primitive → Option Nat
  | int => some 0
  | long => some 1
  | float => some 2
  | double => some 3
  | _ => none

/-- The number of element types of a container. -/
def arity? : Primitive → Option Nat
  | list | set | array => some 1
  | dict => some 2
  | _ => none

end Primitive

/-- The declared type names; the name at position `i` has the id `i + 1`. -/
structure Registry where
  names : List String
deriving Inhabited

namespace Registry

/-- The registry of the built-in types. -/
def initial : Registry := ⟨Primitive.all.map Primitive.name⟩

/-- The id of a declared name. -/
def lookup? (r : Registry) (name : String) : Option TypeId :=
  (r.names.idxOf? name).map fun i => ⟨i + 1⟩

/-- The name of a declared id. -/
def name? (r : Registry) (t : TypeId) : Option String :=
  if t.isValid then r.names[t.index - 1]? else none

/-- The id of a name, declared on first use. -/
def declare (r : Registry) (name : String) : TypeId × Registry :=
  match r.lookup? name with
  | some t => (t, r)
  | none => (⟨r.names.length + 1⟩, ⟨r.names ++ [name]⟩)

def size (r : Registry) : Nat := r.names.length

/-- The name shown for an id. -/
def text (r : Registry) (t : TypeId) : String := (r.name? t).getD "<unknown>"

end Registry

/-! ## Laws -/

namespace Primitive

theorem eq_of_ofId? {t : TypeId} {P : Primitive} (h : ofId? t = some P) : t = P.id := by
  have found := List.find?_some h
  exact (decide_eq_true_iff.mp found).symm

theorem ofId?_id (P : Primitive) : ofId? P.id = some P := by
  cases P <;> rfl

theorem id_injective {P Q : Primitive} (same : P.id = Q.id) : P = Q := by
  have h := P.ofId?_id
  rw [same, Q.ofId?_id] at h
  exact (Option.some.inj h).symm

theorem name?_id (P : Primitive) : Registry.initial.name? P.id = some P.name := by
  cases P <;> rfl

end Primitive

end ScopeLang
