/-
Equality of values.

Strict equality asks for the same kind and the same parts.  Loose equality also
equates numbers of different kinds, and is the equality of keys and of the
operator `==`.  Instances and callables equal only themselves.
-/
import ScopeLang.World

namespace ScopeLang

/-- Whether two lists have the same length and related items. -/
def allPairs {α : Type} (related : α → α → Bool) (xs ys : List α) : Bool :=
  xs.length == ys.length && (xs.zip ys).all fun p => related p.1 p.2

/-! ## Entries found by an equality -/

/-- The value of the first entry with a key. -/
def lookupEntry (equal : Value → Value → Bool) (entries : List (Value × Value)) (key : Value) :
    Option Value :=
  (entries.find? fun e => equal e.1 key).map (·.2)

/-- Whether an item is among the elements. -/
def hasElement (equal : Value → Value → Bool) (elements : List Value) (item : Value) : Bool :=
  elements.any fun e => equal e item

/-- Puts an entry in, keeping the key and the place of an equal one. -/
def insertEntry (equal : Value → Value → Bool) (key value : Value) :
    List (Value × Value) → List (Value × Value)
  | [] => [(key, value)]
  | (k, v) :: rest =>
      if equal k key then (k, value) :: rest else (k, v) :: insertEntry equal key value rest

/-- Puts an item in, unless an equal one is there. -/
def insertElement (equal : Value → Value → Bool) (elements : List Value) (item : Value) :
    List Value :=
  if hasElement equal elements item then elements else elements ++ [item]

namespace Number

/-- Whether two numbers have the same kind and the same value. -/
def same : Number → Number → Bool
  | .int a, .int b => a == b
  | .long a, .long b => a == b
  | .float a, .float b => a == b
  | .double a, .double b => a == b
  | _, _ => false

/-- Whether two numbers have the same value after widening. -/
def looselyEqual (a b : Number) : Bool := (a.unify b).equal

end Number

namespace World

/-- Strict equality of values nested at most `n` deep. -/
def strictEqWithin (w : World) : Nat → Value → Value → Bool
  | 0, _, _ => false
  | n + 1, a, b =>
      match a.datum, b.datum with
      | .null, .null => true
      | .bool x, .bool y => x == y
      | .number x, .number y => x.same y
      | .char x, .char y => x == y
      | .string x, .string y => x == y
      | .list x, .list y | .array x, .array y =>
          x == y || allPairs (strictEqWithin w n) (w.items x) (w.items y)
      | .dict x, .dict y =>
          x == y || allPairs (fun e f => strictEqWithin w n e.1 f.1 && strictEqWithin w n e.2 f.2)
            (w.entries x) (w.entries y)
      | .set x, .set y =>
          x == y || ((w.elements x).length == (w.elements y).length &&
            (w.elements x).all (hasElement (strictEqWithin w n) (w.elements y)))
      | .callable x, .callable y => x == y
      | .object x, .object y => x == y
      | .overloads x, .overloads y => x == y
      | _, _ => false

/-- Strict equality. -/
def strictEq (w : World) (a b : Value) : Bool := w.strictEqWithin (w.size + 1) a b

/-- Loose equality of values nested at most `n` deep. -/
def looseEqWithin (w : World) : Nat → Value → Value → Bool
  | 0, _, _ => false
  | n + 1, a, b =>
      match a.datum, b.datum with
      | .number x, .number y => x.looselyEqual y
      | .list x, .list y | .array x, .array y =>
          allPairs (looseEqWithin w n) (w.items x) (w.items y)
      | .dict x, .dict y =>
          (w.entries x).length == (w.entries y).length &&
            (w.entries x).all fun e =>
              match lookupEntry (looseEqWithin w n) (w.entries y) e.1 with
              | some other => looseEqWithin w n e.2 other
              | none => false
      | .set x, .set y =>
          (w.elements x).length == (w.elements y).length &&
            (w.elements x).all (hasElement (looseEqWithin w n) (w.elements y))
      | _, _ => w.strictEq a b

/-- Loose equality. -/
def looseEq (w : World) (a b : Value) : Bool := w.looseEqWithin (w.size + 1) a b

end World

end ScopeLang
