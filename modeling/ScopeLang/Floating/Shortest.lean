/-
Shortest decimals of binary floating point numbers.

A positive finite number is `m · 2 ^ q`.  The reals that round to it form an
interval around it, closed exactly when `m` is even.  `shortest` finds the
coarsest decimal grid with a point in that interval: of the two grid points
around the number the nearer one is taken, and the upper one when both are
equally near.
-/

namespace ScopeLang.Floating

/-- A positive decimal number `digits · 10 ^ exponent`. -/
structure Decimal where
  digits : Nat
  exponent : Int
deriving DecidableEq, Inhabited

/-- The layout of a binary interchange format. -/
structure Format where
  fractionBits : Nat
  exponentBits : Nat

def binary32 : Format := ⟨23, 8⟩
def binary64 : Format := ⟨52, 11⟩

/-- A positive finite number `mantissa · 2 ^ exponent`.  Below a power of two
the neighbouring number is only half as far away as above it. -/
structure Binary where
  mantissa : Nat
  exponent : Int
  closeBelow : Bool
deriving DecidableEq, Inhabited

/-- What a bit pattern stands for. -/
inductive Decoded where
  | nan
  | infinite (negative : Bool)
  | zero (negative : Bool)
  | finite (negative : Bool) (value : Binary)
deriving Inhabited

namespace Format

/-- The number of values of the fraction field. -/
def fractions (f : Format) : Nat := Nat.pow 2 f.fractionBits

/-- The biased exponent that marks infinities and NaN. -/
def specialExponent (f : Format) : Nat := Nat.pow 2 f.exponentBits - 1

/-- The binary exponent of the least positive number. -/
def leastExponent (f : Format) : Int :=
  2 - Nat.pow 2 (f.exponentBits - 1) - f.fractionBits

/-- The positive number with a biased exponent and a fraction. -/
def assemble (f : Format) (biased fraction : Nat) : Binary :=
  if biased = 0 then ⟨fraction, f.leastExponent, false⟩
  else ⟨f.fractions + fraction, f.leastExponent + (biased - 1 : Nat), fraction = 0⟩

/-- Reads a bit pattern. -/
def decode (f : Format) (bits : Nat) : Decoded :=
  let fraction := bits % f.fractions
  let biased := bits / f.fractions % Nat.pow 2 f.exponentBits
  let negative := bits / f.fractions / Nat.pow 2 f.exponentBits % 2 = 1
  if biased = f.specialExponent then
    if fraction = 0 then .infinite negative else .nan
  else if biased = 0 ∧ fraction = 0 then .zero negative
  else .finite negative (f.assemble biased fraction)

end Format

/-- `base ^ e` as a fraction. -/
def powFraction (base : Nat) : Int → Nat × Nat
  | .ofNat e => (Nat.pow base e, 1)
  | .negSucc e => (1, Nat.pow base (e + 1))

namespace Binary

/-- A quarter of the unit in the last place, as a fraction. -/
def quarter (b : Binary) : Nat × Nat := powFraction 2 (b.exponent - 2)

/-- The number in quarters. -/
def quarters (b : Binary) : Nat := 4 * b.mantissa

/-- The lower end of the rounding interval in quarters. -/
def lower (b : Binary) : Nat := b.quarters - if b.closeBelow then 1 else 2

/-- The upper end of the rounding interval in quarters. -/
def upper (b : Binary) : Nat := b.quarters + 2

/-- Whether the ends of the rounding interval belong to it. -/
def endsIncluded (b : Binary) : Bool := b.mantissa % 2 = 0

/-- Compares `point · 10 ^ unit` with `count` quarters. -/
def compareGrid (b : Binary) (unit : Int) (point count : Nat) : Ordering :=
  let (a, c) := b.quarter
  let (p, r) := powFraction 10 unit
  compare (point * p * c) (count * a * r)

/-- Whether `point · 10 ^ unit` rounds to the number. -/
def readsBack (b : Binary) (unit : Int) (point : Nat) : Bool :=
  match b.compareGrid unit point b.lower, b.compareGrid unit point b.upper with
  | .gt, .lt => true
  | .eq, _ => b.endsIncluded
  | _, .eq => b.endsIncluded
  | _, _ => false

/-- The largest grid point that is not above the number. -/
def gridFloor (b : Binary) (unit : Int) : Nat :=
  let (a, c) := b.quarter
  let (p, r) := powFraction 10 unit
  b.quarters * a * r / (p * c)

/-- Whether the number lies nearer to `point` than to the next grid point. -/
def nearerBelow (b : Binary) (unit : Int) (point : Nat) : Bool :=
  b.compareGrid unit (2 * point + 1) (2 * b.quarters) == .gt

/-- The grid point chosen on one grid, if one reads back. -/
def gridChoice (b : Binary) (unit : Int) : Option Nat :=
  let below := b.gridFloor unit
  match b.readsBack unit below, b.readsBack unit (below + 1) with
  | true, true => some (if b.nearerBelow unit below then below else below + 1)
  | true, false => some below
  | false, true => some (below + 1)
  | false, false => none

/-- Whether `10 ^ e` is not above the number. -/
def reaches (b : Binary) (e : Int) : Bool := 0 < b.gridFloor e

/-- The largest decimal exponent that the number reaches, searched downwards. -/
def leadingExponent (b : Binary) : Nat → Int → Int
  | 0, e => e
  | n + 1, e => if b.reaches e then e else leadingExponent b n (e - 1)

/-- Drops final zeros of the digits. -/
def trim : Nat → Decimal → Decimal
  | 0, d => d
  | n + 1, d =>
      if d.digits % 10 = 0 ∧ d.digits ≠ 0 then trim n ⟨d.digits / 10, d.exponent + 1⟩ else d

/-- Searches grids from coarse to fine. -/
def search (b : Binary) : Nat → Int → Decimal
  | 0, unit => ⟨b.gridFloor unit, unit⟩
  | n + 1, unit =>
      match b.gridChoice unit with
      | some point => trim 20 ⟨point, unit⟩
      | none => search b n (unit - 1)

/-- The shortest decimal that reads back as the number. -/
def shortest (b : Binary) : Decimal :=
  b.search 20 (b.leadingExponent 700 320)

end Binary

end ScopeLang.Floating
