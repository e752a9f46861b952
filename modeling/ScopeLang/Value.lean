/-
Values.

A value is a datum with the attributes of the variable it was stored in.
Scalars are held in the value itself; containers, instances and callables are
cells that several values can share.
-/
import ScopeLang.Number
import ScopeLang.Store
import ScopeLang.Types.Matching

namespace ScopeLang

/-- Something that can be called. -/
inductive Callable where
  | function (handle : Handle .function)
  | method (handle : Handle .method)
  | classObject (handle : Handle .classObject)
deriving DecidableEq, Inhabited

namespace Callable

/-- The cell of a callable. -/
def cell : Callable → Cell
  | function h => h.cell
  | method h => h.cell
  | .classObject h => h.cell

end Callable

inductive Datum where
  | null
  | bool (value : Bool)
  | number (value : Number)
  | char (value : Char)
  | string (value : String)
  | list (handle : Handle .list)
  | array (handle : Handle .list)
  | dict (handle : Handle .dict)
  | set (handle : Handle .set)
  | callable (value : Callable)
  | object (handle : Handle .object)
  /-- The overloads found under one name. -/
  | overloads (handle : Handle .overloads)
deriving Inhabited

/-- The attributes that a value takes on from the variables it passes through. -/
structure Attributes where
  isConst : Bool := false
  isMutable : Bool := false
  isStatic : Bool := false
  declared : SigId := .invalid
  inferred : SigId := .invalid
  displayName : Option String := none
deriving DecidableEq, Inhabited

structure Value where
  datum : Datum
  attrs : Attributes := {}
deriving Inhabited

/-- The kinds of values. -/
inductive ValueKind where
  | null | bool | int | long | float | double | char | string
  | list | dict | set | array | callable | object | overloads
deriving DecidableEq, Inhabited

namespace ValueKind

def name : ValueKind → String
  | null => "Null" | bool => "Bool" | int => "Int" | long => "Long"
  | float => "Float" | double => "Double" | char => "Char" | string => "String"
  | list => "List" | dict => "Dict" | set => "Set" | array => "Array"
  | callable => "Callable" | .object => "ClassInstance" | overloads => "FunctionOverloadSet"

end ValueKind

namespace Datum

def kind : Datum → ValueKind
  | null => .null
  | bool _ => .bool
  | number (.int _) => .int
  | number (.long _) => .long
  | number (.float _) => .float
  | number (.double _) => .double
  | char _ => .char
  | string _ => .string
  | list _ => .list
  | array _ => .array
  | dict _ => .dict
  | set _ => .set
  | callable _ => .callable
  | .object _ => .object
  | overloads _ => .overloads

/-- The cell that a datum holds. -/
def cell? : Datum → Option Cell
  | null | bool _ | number _ | char _ | string _ => none
  | list h | array h => some h.cell
  | dict h => some h.cell
  | set h => some h.cell
  | callable c => some c.cell
  | .object h => some h.cell
  | overloads h => some h.cell

def isCallable : Datum → Bool
  | callable _ | overloads _ => true
  | _ => false

def isNull : Datum → Bool
  | null => true
  | _ => false

/-- The built-in type of a datum; instances have the type of their class instead. -/
def primitive? : Datum → Option Primitive
  | null => some .null
  | bool _ => some .bool
  | number (.int _) => some .int
  | number (.long _) => some .long
  | number (.float _) => some .float
  | number (.double _) => some .double
  | char _ => some .char
  | string _ => some .string
  | list _ => some .list
  | array _ => some .array
  | dict _ => some .dict
  | set _ => some .set
  | callable (.classObject _) => some .classObject
  | callable _ | overloads _ => some .function
  | .object _ => none

end Datum

namespace Value

/-- A value that no variable has held. -/
def ofDatum (d : Datum) : Value := { datum := d }

def null : Value := ofDatum .null
def bool (b : Bool) : Value := ofDatum (.bool b)
def int (n : Int32) : Value := ofDatum (.number (.int n))
def long (n : Int64) : Value := ofDatum (.number (.long n))
def number (n : Number) : Value := ofDatum (.number n)
def char (c : Char) : Value := ofDatum (.char c)
def string (s : String) : Value := ofDatum (.string s)

def kind (v : Value) : ValueKind := v.datum.kind

def isCallable (v : Value) : Bool := v.datum.isCallable

def isNull (v : Value) : Bool := v.datum.isNull

/-- The number that a value is. -/
def number? (v : Value) : Option Number :=
  match v.datum with
  | .number n => some n
  | _ => none

/-- The integer that a value is. -/
def integer? (v : Value) : Option Int64 :=
  match v.datum with
  | .number (.int n) => some n.toInt64
  | .number (.long n) => some n
  | _ => none

/-- The text that a value is. -/
def string? (v : Value) : Option String :=
  match v.datum with
  | .string s => some s
  | _ => none

/-- The instance that a value is. -/
def object? (v : Value) : Option (Handle .object) :=
  match v.datum with
  | .object h => some h
  | _ => none

/-- The cells that a value holds. -/
def cells (v : Value) : List Cell := v.datum.cell?.toList

end Value

end ScopeLang
