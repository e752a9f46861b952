/-
Numbers and their arithmetic.

There are four kinds of numbers, ordered by widening: 32 bit integers, 64 bit
integers, single and double precision floating point numbers.  An operation on
two numbers first widens the narrower one to the kind of the other.  Integers
wrap around; integer division truncates and its remainder has the sign of the
dividend.
-/
import ScopeLang.Floating.Layout

namespace ScopeLang

inductive Number where
  | int (value : Int32)
  | long (value : Int64)
  | float (value : Float32)
  | double (value : Float)
deriving Inhabited

/-- Two numbers of one kind. -/
inductive NumberPair where
  | ints (a b : Int32)
  | longs (a b : Int64)
  | floats (a b : Float32)
  | doubles (a b : Float)
deriving Inhabited

/-- One binary operation on each kind of number. -/
structure Arithmetic where
  int : Int32 → Int32 → Int32
  long : Int64 → Int64 → Int64
  float : Float32 → Float32 → Float32
  double : Float → Float → Float

namespace Number

/-- Widens the narrower of two numbers. -/
def unify : Number → Number → NumberPair
  | .int a, .int b => .ints a b
  | .int a, .long b => .longs a.toInt64 b
  | .int a, .float b => .floats a.toFloat32 b
  | .int a, .double b => .doubles a.toFloat b
  | .long a, .int b => .longs a b.toInt64
  | .long a, .long b => .longs a b
  | .long a, .float b => .floats a.toFloat32 b
  | .long a, .double b => .doubles a.toFloat b
  | .float a, .int b => .floats a b.toFloat32
  | .float a, .long b => .floats a b.toFloat32
  | .float a, .float b => .floats a b
  | .float a, .double b => .doubles a.toFloat b
  | .double a, .int b => .doubles a b.toFloat
  | .double a, .long b => .doubles a b.toFloat
  | .double a, .float b => .doubles a b.toFloat
  | .double a, .double b => .doubles a b

def negate : Number → Number
  | .int v => .int (-v)
  | .long v => .long (-v)
  | .float v => .float (-v)
  | .double v => .double (-v)

def isZero : Number → Bool
  | .int v => v == 0
  | .long v => v == 0
  | .float v => v == 0
  | .double v => v == 0

/-- The digits of a number. -/
def text (layout : Floating.Layout) : Number → String
  | .int v => toString v.toInt
  | .long v => toString v.toInt
  | .float v => Floating.renderFloat32 layout v
  | .double v => Floating.renderFloat layout v

end Number

namespace NumberPair

/-- Applies an operation to two numbers of one kind. -/
def apply (op : Arithmetic) : NumberPair → Number
  | .ints a b => .int (op.int a b)
  | .longs a b => .long (op.long a b)
  | .floats a b => .float (op.float a b)
  | .doubles a b => .double (op.double a b)

def equal : NumberPair → Bool
  | .ints a b => a == b
  | .longs a b => a == b
  | .floats a b => a == b
  | .doubles a b => a == b

/-- Whether the second number is the integer zero. -/
def dividesByZero : NumberPair → Bool
  | .ints _ b => b == 0
  | .longs _ b => b == 0
  | .floats _ _ => false
  | .doubles _ _ => false

end NumberPair

/-- The order of two floating point numbers, unless one is NaN. -/
def partialCompare {α : Type} [LT α] [DecidableLT α] [BEq α] (a b : α) : Option Ordering :=
  if a < b then some .lt
  else if a == b then some .eq
  else if b < a then some .gt
  else none

/-- The order of two numbers of one kind, unless one is NaN. -/
def NumberPair.order? : NumberPair → Option Ordering
  | .ints a b => partialCompare a b
  | .longs a b => partialCompare a b
  | .floats a b => partialCompare a b
  | .doubles a b => partialCompare a b

/-! ## Floating point remainder -/

/-- The remainder of two positive numbers, as a multiple of a power of two. -/
def binaryRemainder (a b : Floating.Binary) : Nat × Int :=
  let unit := min a.exponent b.exponent
  let scaled (x : Floating.Binary) : Nat := x.mantissa * Nat.pow 2 (x.exponent - unit).toNat
  (scaled a % scaled b, unit)

/-- The exact truncating remainder, with the sign of the dividend. -/
def floatRemainder (a b : Float) : Float :=
  match Floating.binary64.decode a.toBits.toNat, Floating.binary64.decode b.toBits.toNat with
  | .nan, _ => a
  | _, .nan => b
  | .infinite _, _ => 0.0 / 0.0
  | _, .zero _ => 0.0 / 0.0
  | _, .infinite _ => a
  | .zero _, _ => a
  | .finite negative x, .finite _ y =>
      let (multiple, unit) := binaryRemainder x y
      let size := (Float.ofNat multiple).scaleB unit
      if negative then -size else size

/-- The remainder of single precision numbers, which is exact in either precision. -/
def float32Remainder (a b : Float32) : Float32 :=
  (floatRemainder a.toFloat b.toFloat).toFloat32

/-! ## Operations -/

namespace Arithmetic

def add : Arithmetic := ⟨(· + ·), (· + ·), (· + ·), (· + ·)⟩
def subtract : Arithmetic := ⟨(· - ·), (· - ·), (· - ·), (· - ·)⟩
def multiply : Arithmetic := ⟨(· * ·), (· * ·), (· * ·), (· * ·)⟩
def divide : Arithmetic := ⟨(· / ·), (· / ·), (· / ·), (· / ·)⟩
def remainder : Arithmetic := ⟨(· % ·), (· % ·), float32Remainder, floatRemainder⟩

end Arithmetic

end ScopeLang
