/-
Operators on values.

Arithmetic and order are defined on numbers after widening.  Texts and
characters concatenate, texts repeat, lists concatenate into a new list that
shares the items of both.
-/
import ScopeLang.Action

namespace ScopeLang

/-- The longest text that repetition may produce, in bytes. -/
def longestRepetition : Nat := Nat.pow 2 24

/-- A text repeated; a negative count repeats it zero times. -/
def repeatText (text : String) (count : Int) : Except ErrorKind Value :=
  let times := count.toNat
  if text.utf8ByteSize * times ≤ longestRepetition then
    .ok (.string (if text.isEmpty then "" else Nat.repeat (· ++ text) times ""))
  else
    .error (.invalidVirtualArgument "*"
      ("repeating " ++ toString text.utf8ByteSize ++ " characters " ++ toString times ++ " times"))

/-- The text that a text or a character adds to a concatenation. -/
def concatenand? (v : Value) : Option String :=
  match v.datum with
  | .string s => some s
  | .char c => some (String.singleton c)
  | _ => none

/-- The order of two equal or distinct items of a linear order. -/
def linearOrder {α : Type} [LT α] [DecidableLT α] [BEq α] (a b : α) : Ordering :=
  if a < b then .lt else if a == b then .eq else .gt

def boolOrder : Bool → Bool → Ordering
  | false, true => .lt
  | true, false => .gt
  | _, _ => .eq

/-- The order of two values, if they have one. -/
def order? (a b : Value) : Option Ordering :=
  match a.datum, b.datum with
  | .number x, .number y => (x.unify y).order?
  | .string x, .string y => some (linearOrder x y)
  | .char x, .char y => some (linearOrder x y)
  | .bool x, .bool y => some (boolOrder x y)
  | _, _ => none

/-- A bitwise operation on integers of one kind. -/
def bitwise (int : Int32 → Int32 → Int32) (long : Int64 → Int64 → Int64) (a b : Value) :
    Option Value :=
  match a.number?, b.number? with
  | some x, some y =>
      match x.unify y with
      | .ints x y => some (.int (int x y))
      | .longs x y => some (.long (long x y))
      | _ => none
  | _, _ => none

/-- A shift of an integer; the count is taken modulo its width. -/
def shift (int : Int32 → Int32 → Int32) (long : Int64 → Int64 → Int64) (a b : Value) :
    Option Value :=
  match a.datum, b.integer? with
  | .number (.int x), some count => some (.int (int x count.toInt32))
  | .number (.long x), some count => some (.long (long x count))
  | _, _ => none

namespace World

/-- The error of an operator that its operands do not have. -/
def unsupported (w : World) (symbol : String) (operands : List Value) : ErrorKind :=
  .unsupportedOperator symbol (", ".intercalate (operands.map w.typeName))

/-- A result, or the error that the operator has none. -/
def supported {α : Type} (w : World) (symbol : String) (operands : List Value) :
    Option α → Except ErrorKind α
  | some a => .ok a
  | none => .error (w.unsupported symbol operands)

/-- An arithmetic operation on two numbers. -/
def arithmetic (w : World) (op : Arithmetic) (symbol : String) (a b : Value) :
    Except ErrorKind Value :=
  match a.number?, b.number? with
  | some x, some y => .ok (.number ((x.unify y).apply op))
  | _, _ => .error (w.unsupported symbol [a, b])

/-- An arithmetic operation that integers do not have for the divisor zero. -/
def division (w : World) (op : Arithmetic) (symbol : String) (a b : Value) :
    Except ErrorKind Value :=
  match a.number?, b.number? with
  | some x, some y =>
      if (x.unify y).dividesByZero then .error .divisionByZero
      else .ok (.number ((x.unify y).apply op))
  | _, _ => .error (w.unsupported symbol [a, b])

/-- Multiplication of numbers, and repetition of a text. -/
def product (w : World) (a b : Value) : Except ErrorKind Value :=
  match a.string?, b.integer? with
  | some text, some count => repeatText text count.toInt
  | _, _ => w.arithmetic .multiply "*" a b

/-- The truth of a comparison. -/
def comparison (w : World) (symbol : String) (holds : Ordering → Bool) (a b : Value) :
    Except ErrorKind Value :=
  (w.supported symbol [a, b] (order? a b)).map fun o => .bool (holds o)

/-- The operators that make no new cells. -/
def scalarBinary (w : World) (op : BinaryOperator) (a b : Value) : Except ErrorKind Value :=
  match op with
  | .add =>
      match concatenand? a, concatenand? b with
      | some x, some y => .ok (.string (x ++ y))
      | _, _ => w.arithmetic .add "+" a b
  | .subtract => w.arithmetic .subtract "-" a b
  | .multiply => w.product a b
  | .divide => w.division .divide "/" a b
  | .remainder => w.division .remainder "%" a b
  | .bitAnd => w.supported "&" [a, b] (bitwise (· &&& ·) (· &&& ·) a b)
  | .bitOr => w.supported "|" [a, b] (bitwise (· ||| ·) (· ||| ·) a b)
  | .bitXor => w.supported "^" [a, b] (bitwise (· ^^^ ·) (· ^^^ ·) a b)
  | .shiftLeft => w.supported "<<" [a, b] (shift (· <<< ·) (· <<< ·) a b)
  | .shiftRight => w.supported ">>" [a, b] (shift (· >>> ·) (· >>> ·) a b)
  | .less => w.comparison "<" Ordering.isLT a b
  | .lessEqual => w.comparison "<=" Ordering.isLE a b
  | .greater => w.comparison ">" Ordering.isGT a b
  | .greaterEqual => w.comparison ">=" Ordering.isGE a b
  | .equal => .ok (.bool (w.looseEq a b))
  | .notEqual => .ok (.bool (!w.looseEq a b))

/-- Unary operators. -/
def unary (w : World) (op : UnaryOperator) (a : Value) : Except ErrorKind Value :=
  match op, a.datum with
  | .not, _ => .ok (.bool (!w.isTruthy a))
  | .negate, .number x => .ok (.number x.negate)
  | .complement, .number (.int x) => .ok (.int (~~~x))
  | .complement, .number (.long x) => .ok (.long (~~~x))
  | op, _ => .error (w.unsupported op.symbol [a])

end World

/-- Binary operators. -/
def Action.binary (op : BinaryOperator) (a b : Value) : Action Value := do
  match op, a.datum, b.datum with
  | .add, .list x, .list y => newList (← look fun w => w.items x ++ w.items y)
  | op, _, _ => consult fun w => w.scalarBinary op a b

end ScopeLang
