/-
# Integers are exact up to their width

An operator on integers yields the exact integer result, of the wider of the two kinds,
reduced to the signed range of this kind (`IntegerKind.Reduces`).  Widening keeps the integer,
so that both kinds are treated by one argument: an operation on words `Computes` a
function of integers if the word that it yields is the value of the function up to a
multiple of two to the width.

The quotient is the only result of a division that can leave the range, and it does so for the least
integer and minus one only; the remainder makes up for it (`quotient_remainder`).  For the bitwise
operators the exact result is that on the infinite expansions of integers, in which the sign
bit goes on for ever.
-/
import ScopeLang.Proofs.Actions
import Mathlib.Data.Int.Bitwise
import Mathlib.Data.Int.ModEq

namespace ScopeLang

/-! ## Integers of two kinds -/

/-- The kinds of integers. -/
inductive IntegerKind where
  | int | long
deriving DecidableEq

namespace IntegerKind

/-- The number of bits of an integer. -/
def width : IntegerKind → Nat
  | int => 32
  | long => 64

/-- The wider of two kinds. -/
def wider : IntegerKind → IntegerKind → IntegerKind
  | int, int => int
  | _, _ => long

/-- The integer in the signed range of a kind that equals another one modulo two to the width. -/
structure Reduces (k : IntegerKind) (exact n : Int) : Prop where
  least : -2 ^ (k.width - 1) ≤ n
  most : n < 2 ^ (k.width - 1)
  congruent : n ≡ exact [ZMOD 2 ^ k.width]

theorem reduces_bmod (k : IntegerKind) (exact : Int) :
    k.Reduces exact (exact.bmod (2 ^ k.width)) := by
  have pos : 0 < 2 ^ k.width := Nat.two_pow_pos _
  have least := Int.le_bmod (x := exact) pos
  have most := Int.bmod_lt (x := exact) pos
  refine ⟨?_, ?_, ?_⟩
  · cases k <;> simpa [width] using least
  · cases k <;> simpa [width] using most
  · have same := Int.bmod_emod (x := exact) (m := 2 ^ k.width)
    rw [Nat.cast_pow] at same
    exact same

/-- There is one such integer only. -/
theorem Reduces.eq_bmod {k : IntegerKind} {exact n : Int} (h : k.Reduces exact n) :
    n = exact.bmod (2 ^ k.width) := by
  have same : n % (2 ^ k.width : Nat) = exact % (2 ^ k.width : Nat) := by
    rw [Nat.cast_pow]
    exact h.congruent
  have own : n.bmod (2 ^ k.width) = n := by
    obtain ⟨least, most, -⟩ := h
    apply Int.bmod_eq_of_le <;> cases k <;> simp only [width] at * <;> omega
  rw [← own, ← Int.emod_bmod n, same, Int.emod_bmod]

end IntegerKind

variable {k l : IntegerKind} {x y : Int} {a b : Value} {w : World}

/-- A number that is an integer of a kind. -/
inductive Number.Holds : Number → IntegerKind → Int → Prop
  | int (n : Int32) : Holds (.int n) .int n.toInt
  | long (n : Int64) : Holds (.long n) .long n.toInt

/-- A value that is an integer of a kind, whatever its attributes. -/
def Value.Holds (v : Value) (k : IntegerKind) (n : Int) : Prop :=
  ∃ number : Number, v.datum = .number number ∧ number.Holds k n

/-- Two numbers of one kind that are integers. -/
inductive NumberPair.Holds : NumberPair → IntegerKind → Int → Int → Prop
  | ints (a b : Int32) : Holds (.ints a b) .int a.toInt b.toInt
  | longs (a b : Int64) : Holds (.longs a b) .long a.toInt b.toInt

/-- Widening keeps integers. -/
theorem Number.Holds.unify {m n : Number} (hm : m.Holds k x) (hn : n.Holds l y) :
    (m.unify n).Holds (k.wider l) x y := by
  cases hm with
  | int m =>
    cases hn with
    | int n => exact .ints m n
    | long n =>
      rw [← m.toInt_toInt64]
      exact .longs m.toInt64 n
  | long m =>
    cases hn with
    | int n =>
      rw [← n.toInt_toInt64]
      exact .longs m n.toInt64
    | long n => exact .longs m n

/-! ## The infinite expansions of words -/

/-- The sign of a word goes on for ever. -/
theorem testBit_toInt {n : Nat} (x : BitVec n) (i : Nat) :
    x.toInt.testBit i = if i < n then x.getLsbD i else x.msb := by
  cases sign : x.msb with
  | false =>
    rw [BitVec.toInt_eq_msb_cond, sign, if_neg Bool.false_ne_true]
    show x.toNat.testBit i = _
    rw [BitVec.testBit_toNat]
    split
    · rfl
    · exact BitVec.getLsbD_of_ge x i (by omega)
  | true =>
    have small := x.isLt
    have value : x.toInt = Int.negSucc (2 ^ n - (x.toNat + 1)) := by
      rw [BitVec.toInt_eq_msb_cond, sign, if_pos rfl]
      omega
    rw [value]
    show (!(2 ^ n - (x.toNat + 1)).testBit i) = _
    rw [Nat.testBit_two_pow_sub_succ small, BitVec.testBit_toNat]
    by_cases inside : i < n <;> simp [inside]

/-- Integers with the same expansion are equal. -/
theorem eq_of_testBit {x y : Int} (same : ∀ i, x.testBit i = y.testBit i) : x = y := by
  -- far out a natural number has zeros, and a negative one has ones
  have apart : ∀ m n : Nat, ¬ ∀ i, m.testBit i = !n.testBit i := fun m n all => by
    have far := all (m + n)
    rw [Nat.testBit_eq_false_of_lt (Nat.lt_of_lt_of_le m.lt_two_pow_self
        (Nat.pow_le_pow_right (by decide) (Nat.le_add_right m n))),
      Nat.testBit_eq_false_of_lt (Nat.lt_of_lt_of_le n.lt_two_pow_self
        (Nat.pow_le_pow_right (by decide) (Nat.le_add_left n m)))] at far
    cases far
  cases x with
  | ofNat m =>
    cases y with
    | ofNat n => exact congrArg Int.ofNat (Nat.eq_of_testBit_eq same)
    | negSucc n => exact absurd same (apart m n)
  | negSucc m =>
    cases y with
    | ofNat n => exact absurd (fun i => (same i).symm) (apart n m)
    | negSucc n =>
      exact congrArg Int.negSucc
        (Nat.eq_of_testBit_eq fun i => Bool.not_inj (same i))

theorem toInt_and {n : Nat} (x y : BitVec n) : (x &&& y).toInt = x.toInt.land y.toInt :=
  eq_of_testBit fun i => by
    rw [Int.testBit_land, testBit_toInt, testBit_toInt, testBit_toInt]
    split
    · exact BitVec.getLsbD_and
    · exact BitVec.msb_and

theorem toInt_or {n : Nat} (x y : BitVec n) : (x ||| y).toInt = x.toInt.lor y.toInt :=
  eq_of_testBit fun i => by
    rw [Int.testBit_lor, testBit_toInt, testBit_toInt, testBit_toInt]
    split
    · exact BitVec.getLsbD_or
    · exact BitVec.msb_or

theorem toInt_xor {n : Nat} (x y : BitVec n) : (x ^^^ y).toInt = x.toInt.xor y.toInt :=
  eq_of_testBit fun i => by
    rw [Int.testBit_lxor, testBit_toInt, testBit_toInt, testBit_toInt]
    split
    · exact BitVec.getLsbD_xor
    · exact BitVec.msb_xor

/-! ## Operations on words -/

/-- Operations on the two kinds of words that yield a function of the integers, reduced. -/
structure Computes (int : Int32 → Int32 → Int32) (long : Int64 → Int64 → Int64)
    (exact : Int → Int → Int) : Prop where
  int : ∀ a b, IntegerKind.int.Reduces (exact a.toInt b.toInt) (int a b).toInt
  long : ∀ a b, IntegerKind.long.Reduces (exact a.toInt b.toInt) (long a b).toInt

namespace Computes

/-- It is enough that the words are the remainders. -/
theorem of_bmod {int : Int32 → Int32 → Int32} {long : Int64 → Int64 → Int64}
    {exact : Int → Int → Int}
    (int_eq : ∀ a b, (int a b).toInt = (exact a.toInt b.toInt).bmod (2 ^ 32))
    (long_eq : ∀ a b, (long a b).toInt = (exact a.toInt b.toInt).bmod (2 ^ 64)) :
    Computes int long exact where
  int a b := int_eq a b ▸ IntegerKind.reduces_bmod .int _
  long a b := long_eq a b ▸ IntegerKind.reduces_bmod .long _

/-- Or that they are the exact results. -/
theorem of_eq {int : Int32 → Int32 → Int32} {long : Int64 → Int64 → Int64}
    {exact : Int → Int → Int} (int_eq : ∀ a b, (int a b).toInt = exact a.toInt b.toInt)
    (long_eq : ∀ a b, (long a b).toInt = exact a.toInt b.toInt) : Computes int long exact :=
  of_bmod (fun a b => by rw [← int_eq]; exact ((int a b).toInt_bmod).symm)
    (fun a b => by rw [← long_eq]; exact ((long a b).toInt_bmod).symm)

theorem add : Computes Arithmetic.add.int Arithmetic.add.long (· + ·) :=
  of_bmod Int32.toInt_add Int64.toInt_add

theorem subtract : Computes Arithmetic.subtract.int Arithmetic.subtract.long (· - ·) :=
  of_bmod Int32.toInt_sub Int64.toInt_sub

theorem multiply : Computes Arithmetic.multiply.int Arithmetic.multiply.long (· * ·) :=
  of_bmod Int32.toInt_mul Int64.toInt_mul

theorem divide : Computes Arithmetic.divide.int Arithmetic.divide.long Int.tdiv :=
  of_bmod Int32.toInt_div Int64.toInt_div

theorem remainder : Computes Arithmetic.remainder.int Arithmetic.remainder.long Int.tmod :=
  of_eq Int32.toInt_mod Int64.toInt_mod

theorem bitAnd : Computes (· &&& ·) (· &&& ·) Int.land :=
  of_eq (fun a b => toInt_and a.toBitVec b.toBitVec) (fun a b => toInt_and a.toBitVec b.toBitVec)

theorem bitOr : Computes (· ||| ·) (· ||| ·) Int.lor :=
  of_eq (fun a b => toInt_or a.toBitVec b.toBitVec) (fun a b => toInt_or a.toBitVec b.toBitVec)

theorem bitXor : Computes (· ^^^ ·) (· ^^^ ·) Int.xor :=
  of_eq (fun a b => toInt_xor a.toBitVec b.toBitVec) (fun a b => toInt_xor a.toBitVec b.toBitVec)

end Computes

/-- The count of a shift is taken modulo the width. -/
theorem toNat_smod {n : Nat} {count size : BitVec n} (pos : 0 < size.toInt) :
    (count.smod size).toNat = (count.toInt % size.toInt).toNat := by
  have value : (count.smod size).toInt = count.toInt % size.toInt := by
    rw [BitVec.toInt_smod, Int.fmod_eq_emod_of_nonneg _ pos.le]
  have least := Int.emod_nonneg count.toInt pos.ne'
  have cond := BitVec.toInt_eq_toNat_cond (count.smod size)
  have small := (count.smod size).isLt
  split at cond <;> omega

theorem toInt_shiftLeft {n : Nat} (x : BitVec n) (i : Nat) :
    (x <<< i).toInt = (x.toInt * 2 ^ i).bmod (2 ^ n) := by
  rw [BitVec.toInt_shiftLeft, BitVec.toInt_eq_toNat_bmod, Int.bmod_mul_bmod, Nat.shiftLeft_eq,
    Nat.cast_mul, Nat.cast_pow]
  rfl

theorem toInt_shiftRight {n : Nat} (x : BitVec n) (i : Nat) :
    (x.sshiftRight i).toInt = x.toInt.fdiv (2 ^ i) := by
  rw [BitVec.toInt_sshiftRight, Int.shiftRight_eq_div_pow,
    Int.fdiv_eq_ediv_of_nonneg _ (Int.pow_nonneg (by decide)), Nat.cast_pow, Nat.cast_ofNat]

/-- Cutting a count to 32 bits keeps what is left of it modulo a width. -/
theorem toNat_count (count : Int64) :
    (count.toInt32.toBitVec.smod 32).toNat = (count.toInt % 32).toNat := by
  rw [toNat_smod (by decide)]
  show (count.toInt32.toInt % 32).toNat = _
  have cut : count.toInt.bmod (2 ^ 32) % (2 ^ 32 : Nat) = count.toInt % (2 ^ 32 : Nat) :=
    Int.bmod_emod
  have divides : (32 : Int) ∣ (2 ^ 32 : Nat) := by decide
  rw [count.toInt_toInt32, ← Int.emod_emod_of_dvd _ divides, cut, Int.emod_emod_of_dvd _ divides]

theorem toInt_shiftLeft_int (a : Int32) (count : Int64) : (a <<< count.toInt32).toInt =
    (a.toInt * 2 ^ (count.toInt % 32).toNat).bmod (2 ^ 32) := by
  show (a <<< count.toInt32).toBitVec.toInt = _
  rw [Int32.toBitVec_shiftLeft, BitVec.shiftLeft_eq', toNat_count, toInt_shiftLeft]
  rfl

theorem toInt_shiftRight_int (a : Int32) (count : Int64) : (a >>> count.toInt32).toInt =
    a.toInt.fdiv (2 ^ (count.toInt % 32).toNat) := by
  show (a >>> count.toInt32).toBitVec.toInt = _
  rw [Int32.toBitVec_shiftRight, BitVec.sshiftRight_eq', toNat_count, toInt_shiftRight]
  rfl

theorem toInt_shiftLeft_long (a count : Int64) : (a <<< count).toInt =
    (a.toInt * 2 ^ (count.toInt % 64).toNat).bmod (2 ^ 64) := by
  show (a <<< count).toBitVec.toInt = _
  rw [Int64.toBitVec_shiftLeft, BitVec.shiftLeft_eq', toNat_smod (by decide), toInt_shiftLeft]
  rfl

theorem toInt_shiftRight_long (a count : Int64) : (a >>> count).toInt =
    a.toInt.fdiv (2 ^ (count.toInt % 64).toNat) := by
  show (a >>> count).toBitVec.toInt = _
  rw [Int64.toBitVec_shiftRight, BitVec.sshiftRight_eq', toNat_smod (by decide), toInt_shiftRight]
  rfl

/-! ## Operators -/

namespace BinaryOperator

/-- What an operator computes on integers, shifts apart. -/
def meaning? : BinaryOperator → Option (Int → Int → Int)
  | add => some (· + ·)
  | subtract => some (· - ·)
  | multiply => some (· * ·)
  | divide => some Int.tdiv
  | remainder => some Int.tmod
  | bitAnd => some Int.land
  | bitOr => some Int.lor
  | bitXor => some Int.xor
  | _ => none

/-- Whether an operator has no result for the divisor zero. -/
def divides : BinaryOperator → Bool
  | divide | remainder => true
  | _ => false

end BinaryOperator

/-- An operator yields an integer of a kind, an exact result reduced to it, and changes nothing. -/
def World.Yields (w : World) (op : BinaryOperator) (a b : Value) (k : IntegerKind) (exact : Int) :
    Prop :=
  ∃ v n, (Action.binary op a b).runIn w = (.ok v, w) ∧ v.Holds k n ∧ k.Reduces exact n

/-- The pair to which two integers are widened gives the result in its own kind. -/
theorem NumberPair.Holds.apply {p : NumberPair} (h : p.Holds k x y) {op : Arithmetic}
    {exact : Int → Int → Int} (computes : Computes op.int op.long exact) :
    ∃ n, (p.apply op).Holds k n ∧ k.Reduces (exact x y) n := by
  cases h with
  | ints a b => exact ⟨_, .int _, computes.int a b⟩
  | longs a b => exact ⟨_, .long _, computes.long a b⟩

theorem NumberPair.Holds.dividesByZero {p : NumberPair} (h : p.Holds k x y) :
    p.dividesByZero = true ↔ y = 0 := by
  cases h with
  | ints a b =>
    simp only [NumberPair.dividesByZero, beq_iff_eq, ← Int32.toInt_inj]
    rfl
  | longs a b =>
    simp only [NumberPair.dividesByZero, beq_iff_eq, ← Int64.toInt_inj]
    rfl

namespace Value.Holds

variable (ha : a.Holds k x) (hb : b.Holds l y)

include ha

theorem number? : ∃ m, a.number? = some m ∧ m.Holds k x := by
  obtain ⟨m, datum, holds⟩ := ha
  exact ⟨m, by rw [Value.number?, datum], holds⟩

/-- An operator on an integer makes no cells. -/
theorem runIn_binary (op : BinaryOperator) (b : Value) (w : World) :
    (Action.binary op a b).runIn w = (w.scalarBinary op a b, w) := by
  obtain ⟨m, datum, -⟩ := ha
  simp only [Action.binary]
  split
  · rename_i list _
    cases datum.symm.trans list
  · rw [Action.runIn_consult]
    generalize w.scalarBinary _ a b = result
    cases result <;> rfl

include hb

theorem unify : ∃ m n, a.number? = some m ∧ b.number? = some n ∧
    (m.unify n).Holds (k.wider l) x y := by
  obtain ⟨m, hm, left⟩ := ha.number?
  obtain ⟨n, hn, right⟩ := hb.number?
  exact ⟨m, n, hm, hn, left.unify right⟩

theorem arithmetic {op : Arithmetic} {exact : Int → Int → Int}
    (computes : Computes op.int op.long exact) (symbol : String) (w : World) :
    ∃ v n, w.arithmetic op symbol a b = .ok v ∧ v.Holds (k.wider l) n ∧
      (k.wider l).Reduces (exact x y) n := by
  obtain ⟨m, n, hm, hn, pair⟩ := ha.unify hb
  obtain ⟨r, holds, reduces⟩ := pair.apply computes
  exact ⟨.number ((m.unify n).apply op), r, by rw [World.arithmetic, hm, hn], ⟨_, rfl, holds⟩,
    reduces⟩

theorem division {op : Arithmetic} {exact : Int → Int → Int}
    (computes : Computes op.int op.long exact) (symbol : String) (nonzero : y ≠ 0) (w : World) :
    ∃ v n, w.division op symbol a b = .ok v ∧ v.Holds (k.wider l) n ∧
      (k.wider l).Reduces (exact x y) n := by
  obtain ⟨m, n, hm, hn, pair⟩ := ha.unify hb
  obtain ⟨r, holds, reduces⟩ := pair.apply computes
  refine ⟨.number ((m.unify n).apply op), r, ?_, ⟨_, rfl, holds⟩, reduces⟩
  simp only [World.division, hm, hn]
  rw [if_neg fun zero => nonzero (pair.dividesByZero.mp zero)]

theorem division_zero (op : Arithmetic) (symbol : String) (zero : y = 0) (w : World) :
    w.division op symbol a b = .error .divisionByZero := by
  obtain ⟨m, n, hm, hn, pair⟩ := ha.unify hb
  simp only [World.division, hm, hn]
  rw [if_pos (pair.dividesByZero.mpr zero)]

theorem bitwise {int : Int32 → Int32 → Int32} {long : Int64 → Int64 → Int64}
    {exact : Int → Int → Int} (computes : Computes int long exact) (symbol : String) (w : World) :
    ∃ v n, w.supported symbol [a, b] (ScopeLang.bitwise int long a b) = .ok v ∧
      v.Holds (k.wider l) n ∧ (k.wider l).Reduces (exact x y) n := by
  obtain ⟨m, n, hm, hn, pair⟩ := ha.unify hb
  simp only [ScopeLang.bitwise, hm, hn]
  generalize m.unify n = p at pair ⊢
  generalize k.wider l = wider at pair ⊢
  cases pair with
  | ints a b => exact ⟨_, _, rfl, ⟨_, rfl, .int _⟩, computes.int a b⟩
  | longs a b => exact ⟨_, _, rfl, ⟨_, rfl, .long _⟩, computes.long a b⟩

/-- An operator that has an exact result yields it. -/
theorem yields (op : BinaryOperator) {exact : Int → Int → Int} (computes : op.meaning? = some exact)
    (defined : op.divides = true → y ≠ 0) (w : World) :
    w.Yields op a b (k.wider l) (exact x y) := by
  have plain : concatenand? a = none := by
    obtain ⟨m, datum, -⟩ := ha
    rw [concatenand?, datum]
  have untexted : a.string? = none := by
    obtain ⟨m, datum, -⟩ := ha
    rw [Value.string?, datum]
  have scalar : ∃ v n, w.scalarBinary op a b = .ok v ∧ v.Holds (k.wider l) n ∧
      (k.wider l).Reduces (exact x y) n := by
    cases op <;> cases computes
    case add =>
      simp only [World.scalarBinary, plain]
      exact ha.arithmetic hb .add "+" w
    case subtract => exact ha.arithmetic hb .subtract "-" w
    case multiply =>
      simp only [World.scalarBinary, World.product, untexted]
      exact ha.arithmetic hb .multiply "*" w
    case divide => exact ha.division hb .divide "/" (defined rfl) w
    case remainder => exact ha.division hb .remainder "%" (defined rfl) w
    case bitAnd => exact ha.bitwise hb .bitAnd "&" w
    case bitOr => exact ha.bitwise hb .bitOr "|" w
    case bitXor => exact ha.bitwise hb .bitXor "^" w
  obtain ⟨v, n, done, holds, reduces⟩ := scalar
  exact ⟨v, n, by rw [ha.runIn_binary, done], holds, reduces⟩

/-- An operator that divides fails for the divisor zero. -/
theorem divisionByZero {op : BinaryOperator} (divides : op.divides = true) (zero : y = 0)
    (w : World) : (Action.binary op a b).runIn w = (.error .divisionByZero, w) := by
  rw [ha.runIn_binary]
  cases op <;> cases divides
  case divide => exact congrArg (·, w) (ha.division_zero hb .divide "/" zero w)
  case remainder => exact congrArg (·, w) (ha.division_zero hb .remainder "%" zero w)

omit ha in
theorem integer? : ∃ count : Int64, b.integer? = some count ∧ count.toInt = y := by
  obtain ⟨n, datum, holds⟩ := hb
  cases holds with
  | int n => exact ⟨n.toInt64, by rw [Value.integer?, datum], n.toInt_toInt64⟩
  | long n => exact ⟨n, by rw [Value.integer?, datum], rfl⟩

/-- A shift yields an integer of the kind of its left operand. -/
theorem shift {int : Int32 → Int32 → Int32} {long : Int64 → Int64 → Int64}
    (exact : IntegerKind → Int → Int → Int)
    (int_eq : ∀ m (count : Int64), (int m count.toInt32).toInt = exact .int m.toInt count.toInt)
    (long_eq : ∀ m count, (long m count).toInt = exact .long m.toInt count.toInt)
    (symbol : String) (w : World) :
    ∃ v, w.supported symbol [a, b] (ScopeLang.shift int long a b) = .ok v ∧
      v.Holds k (exact k x y) := by
  obtain ⟨m, datum, holds⟩ := ha
  obtain ⟨count, whole, rfl⟩ := hb.integer?
  simp only [ScopeLang.shift, datum, whole]
  cases holds with
  | int m =>
    rw [← int_eq]
    exact ⟨_, rfl, ⟨_, rfl, .int _⟩⟩
  | long m =>
    rw [← long_eq]
    exact ⟨_, rfl, ⟨_, rfl, .long _⟩⟩

theorem shiftLeft (w : World) : w.Yields .shiftLeft a b k (x * 2 ^ (y % k.width).toNat) := by
  obtain ⟨v, done, holds⟩ := ha.shift hb
    (fun k x y => (x * 2 ^ (y % k.width).toNat).bmod (2 ^ k.width))
    toInt_shiftLeft_int toInt_shiftLeft_long "<<" w
  refine ⟨v, _, ?_, holds, k.reduces_bmod _⟩
  rw [ha.runIn_binary]
  exact congrArg (·, w) done

theorem shiftRight (w : World) : ∃ v, (Action.binary .shiftRight a b).runIn w = (.ok v, w) ∧
    v.Holds k (x.fdiv (2 ^ (y % k.width).toNat)) := by
  obtain ⟨v, done, holds⟩ := ha.shift hb (fun k x y => x.fdiv (2 ^ (y % k.width).toNat))
    toInt_shiftRight_int toInt_shiftRight_long ">>" w
  refine ⟨v, ?_, holds⟩
  rw [ha.runIn_binary]
  exact congrArg (·, w) done

end Value.Holds

/-! ## Quotients and remainders -/

/-- `a / b * b + a % b`. -/
def Action.reassemble (a b : Value) : Action Value := do
  let quotient ← Action.binary .divide a b
  let multiple ← Action.binary .multiply quotient b
  let rest ← Action.binary .remainder a b
  Action.binary .add multiple rest

theorem IntegerKind.wider_wider (k l : IntegerKind) :
    (k.wider l).wider l = k.wider l ∧ (k.wider l).wider (k.wider l) = k.wider l := by
  cases k <;> cases l <;> exact ⟨rfl, rfl⟩

/-- Integers are in the range of the wider kind. -/
theorem NumberPair.Holds.bmod {p : NumberPair} (h : p.Holds k x y) :
    x.bmod (2 ^ k.width) = x := by
  cases h with
  | ints a b => exact a.toInt_bmod
  | longs a b => exact a.toInt_bmod

theorem runIn_bind_of_done {α β : Type} {f : Action α} {g : α → Action β} {v : α} {w w' : World}
    (done : f.runIn w = (.ok v, w')) : (f >>= g).runIn w = (g v).runIn w' := by
  have run : (f >>= g).runIn w = ExceptT.bindCont g (f.runIn w).1 (f.runIn w).2 := rfl
  rw [run, done]
  rfl

/-- Quotient and remainder make up the dividend, also where the quotient is reduced. -/
theorem Value.Holds.reassemble (ha : a.Holds k x) (hb : b.Holds l y) (nonzero : y ≠ 0) (w : World) :
    ∃ v, (Action.reassemble a b).runIn w = (.ok v, w) ∧ v.Holds (k.wider l) x := by
  obtain ⟨wide, same⟩ := k.wider_wider l
  obtain ⟨m, n, -, -, pair⟩ := ha.unify hb
  obtain ⟨quotient, q, divided, hq, isQuotient⟩ := ha.yields hb .divide rfl (fun _ => nonzero) w
  obtain ⟨multiple, p, multiplied, hp, isMultiple⟩ := hq.yields hb .multiply rfl nofun w
  obtain ⟨rest, r, remained, hr, isRest⟩ := ha.yields hb .remainder rfl (fun _ => nonzero) w
  rw [wide] at hp isMultiple
  obtain ⟨v, s, added, hs, isSum⟩ := hp.yields hr .add rfl nofun w
  rw [same] at hs isSum
  refine ⟨v, ?_, ?_⟩
  · rw [Action.reassemble, runIn_bind_of_done divided, runIn_bind_of_done multiplied,
      runIn_bind_of_done remained, added]
  · have sum : s ≡ x [ZMOD 2 ^ (k.wider l).width] := calc
      s ≡ p + r [ZMOD 2 ^ (k.wider l).width] := isSum.congruent
      _ ≡ q * y + x.tmod y [ZMOD _] := isMultiple.congruent.add isRest.congruent
      _ ≡ x.tdiv y * y + x.tmod y [ZMOD _] := (isQuotient.congruent.mul_right y).add_right _
      _ = x := Int.tdiv_mul_add_tmod x y
    have reduced : (k.wider l).Reduces x s := ⟨isSum.least, isSum.most, sum⟩
    rw [← pair.bmod, ← reduced.eq_bmod]
    exact hs

/-! ## All operators -/

/-- Operators on integers are exact modulo two to the width: arithmetic and bitwise ones yield the
exact result, reduced to the wider kind, and fail for a division by zero only; a quotient and its
remainder make up the dividend; and a shift, of the kind of its left operand, multiplies by a power
of two or divides by it, rounding down, whose exponent is the count modulo the width. -/
theorem integers_exact (ha : a.Holds k x) (hb : b.Holds l y) (w : World) :
    (∀ op exact, op.meaning? = some exact →
      ((op.divides = true → y ≠ 0) → w.Yields op a b (k.wider l) (exact x y)) ∧
      (op.divides = true → y = 0 →
        (Action.binary op a b).runIn w = (.error .divisionByZero, w))) ∧
    (y ≠ 0 → ∃ v, (Action.reassemble a b).runIn w = (.ok v, w) ∧ v.Holds (k.wider l) x) ∧
    w.Yields .shiftLeft a b k (x * 2 ^ (y % k.width).toNat) ∧
    ∃ v, (Action.binary .shiftRight a b).runIn w = (.ok v, w) ∧
      v.Holds k (x.fdiv (2 ^ (y % k.width).toNat)) :=
  ⟨fun op _ computes => ⟨fun defined => ha.yields hb op computes defined w,
      fun divides zero => ha.divisionByZero hb divides zero w⟩,
    fun nonzero => ha.reassemble hb nonzero w, ha.shiftLeft hb w, ha.shiftRight hb w⟩

/-- The least integer divided by minus one is the least integer again, and quotient and remainder
still make it up. -/
theorem integers_exact_least :
    (Value.int Int32.minValue).Holds .int (-2147483648) ∧ (Value.int (-1)).Holds .int (-1) ∧
      (∃ v, (Action.binary .divide (.int Int32.minValue) (.int (-1))).runIn World.empty =
        (.ok v, World.empty) ∧ v.Holds .int (-2147483648)) ∧
      ∃ v, (Action.reassemble (.int Int32.minValue) (.int (-1))).runIn World.empty =
        (.ok v, World.empty) ∧ v.Holds .int (-2147483648) := by
  have least : (Value.int Int32.minValue).Holds .int (-2147483648) :=
    ⟨_, rfl, .int Int32.minValue⟩
  have minusOne : (Value.int (-1)).Holds .int (-1) := ⟨_, rfl, .int (-1)⟩
  obtain ⟨operators, reassembled, -⟩ := integers_exact least minusOne World.empty
  obtain ⟨v, n, done, holds, reduces⟩ := (operators .divide _ rfl).1 fun _ => by decide
  have quotient : n = -2147483648 := reduces.eq_bmod.trans (by decide)
  exact ⟨least, minusOne, ⟨v, done, quotient ▸ holds⟩, reassembled (by decide)⟩

end ScopeLang
