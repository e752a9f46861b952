/-
Intrinsics.

The operations that a chain can apply to values that are no instances.  Each
kind of value has its own; an operation that a kind does not have is undefined
for it, whatever its arguments.  Values put into a container are duplicated;
values read from one are shared.

An operation that changes a container has the container for itself until it is
done, also while it copies what it puts in and compares keys.  If one of these
would read the very container, as when a dictionary that is not mutable is put
into itself, there is no result: the interpreter breaks off.  The definitions
here are total, and mean something for all other calls only.
-/
import ScopeLang.Operators

namespace ScopeLang

/-! ## Arguments -/

/-- The error of an argument. -/
def invalidArgument (operation reason : String) : ErrorKind :=
  .invalidVirtualArgument operation reason

/-- The error of a number of arguments outside of `least` to `most`. -/
def wrongArity (operation : String) (least most actual : Nat) : ErrorKind :=
  invalidArgument operation ("expected " ++ toString least ++ "..=" ++ toString most ++
    " arguments but got " ++ toString actual)

/-- What an intrinsic does with its arguments. -/
abbrev Intrinsic := List Value → Action Value

/-- An operation without arguments. -/
def Intrinsic.nullary (operation : String) (run : Action Value) : Intrinsic
  | [] => run
  | arguments => throw (wrongArity operation 0 0 arguments.length)

/-- An operation with one argument. -/
def Intrinsic.unary (operation : String) (run : Value → Action Value) : Intrinsic
  | [a] => run a
  | arguments => throw (wrongArity operation 1 1 arguments.length)

/-- An operation with two arguments. -/
def Intrinsic.binary (operation : String) (run : Value → Value → Action Value) : Intrinsic
  | [a, b] => run a b
  | arguments => throw (wrongArity operation 2 2 arguments.length)

/-- An operation with one or two arguments. -/
def Intrinsic.ranged (operation : String) (run : Value → Option Value → Action Value) : Intrinsic
  | [a] => run a none
  | [a, b] => run a (some b)
  | arguments => throw (wrongArity operation 1 2 arguments.length)

/-- The position that an argument names in `0, …, limit - 1`, for something of the given
length. -/
def indexBelow (operation : String) (v : Value) (length limit : Nat) : Action Nat := do
  match v.integer? with
  | none => throw (invalidArgument operation
      ((← Action.look fun w => w.typeName v) ++ " is not an integer index"))
  | some i =>
      if 0 ≤ i.toInt ∧ i.toInt < limit then return i.toInt.toNat
      else throw (invalidArgument operation ("index " ++ toString i.toInt ++
        " out of range for length " ++ toString length))

/-- The position of an item. -/
def indexOf (operation : String) (v : Value) (length : Nat) : Action Nat :=
  indexBelow operation v length length

/-- A position between items. -/
def boundOf (operation : String) (v : Value) (length : Nat) : Action Nat :=
  indexBelow operation v length (length + 1)

/-- The bounds of a slice; without a second argument it goes to the end. -/
def sliceBounds (operation : String) (first : Value) (second : Option Value) (length : Nat) :
    Action (Nat × Nat) := do
  let start ← boundOf operation first length
  let stop ← match second with
    | some v => boundOf operation v length
    | none => pure length
  if stop < start then
    throw (invalidArgument operation
      ("start " ++ toString start ++ " is past end " ++ toString stop))
  else return (start, stop)

/-- The items between two positions. -/
def slice {α : Type} (items : List α) (bounds : Nat × Nat) : List α :=
  (items.drop bounds.1).take (bounds.2 - bounds.1)

/-! ## Operations of one kind -/

/-- Whether a list of characters occurs in another. -/
def occursIn (needle : List Char) : List Char → Bool
  | [] => needle.isEmpty
  | c :: rest => needle.isPrefixOf (c :: rest) || occursIn needle rest

/-- The operations that tell a length. -/
def measure? (operation : String) (length : World → Nat) : Option Intrinsic :=
  let answer (f : Nat → Value) := Intrinsic.nullary operation (Action.look fun w => f (length w))
  match operation with
  | "length" | "size" => some (answer fun n => .long (Int64.ofNat n))
  | "is_empty" => some (answer fun n => .bool (n == 0))
  | _ => none

/-- The operations of every value. -/
def commonIntrinsic? (target : Value) (operation : String) : Option Intrinsic :=
  match operation with
  | "clone" => some (.nullary operation (Action.change fun w => w.deepCopy target))
  | "to_string" => some (.nullary operation (Action.look fun w => .string (w.text target)))
  | _ => none

/-- The operations of a text. -/
def stringIntrinsic? (text : String) (operation : String) : Option Intrinsic :=
  match operation with
  | "substring" | "slice" => some <| .ranged operation fun first second => do
      let bounds ← sliceBounds operation first second text.length
      return .string (String.ofList (slice text.toList bounds))
  | "contains" => some <| .unary operation fun v =>
      match concatenand? v with
      | some needle => return .bool (occursIn needle.toList text.toList)
      | none => throw (invalidArgument operation "expected a String or Char")
  | "get" => some <| .unary operation fun v => do
      return .char (text.toList.getD (← indexOf operation v text.length) default)
  | _ => measure? operation fun _ => text.length

/-- The operations that lists and arrays share; `rebuild` makes a container of the same
kind.  `set` is for values whose copy is made without reading `h`. -/
def sequenceIntrinsic? (h : Handle .list) (rebuild : List Value → Action Value)
    (operation : String) : Option Intrinsic :=
  match operation with
  | "clear" => some <| .nullary operation <| Action.change fun w => (.null, w.setItems h [])
  | "slice" => some <| .ranged operation fun first second => do
      let items ← Action.look fun w => w.items h
      rebuild (slice items (← sliceBounds operation first second items.length))
  | "contains" => some <| .unary operation fun v =>
      Action.look fun w => .bool (hasElement w.looseEq (w.items h) v)
  | "get" => some <| .unary operation fun v => do
      let items ← Action.look fun w => w.items h
      return items.getD (← indexOf operation v items.length) .null
  | "set" => some <| .binary operation fun first v => do
      let items ← Action.look fun w => w.items h
      let i ← indexOf operation first items.length
      let v ← Action.duplicate v
      Action.change fun w => (.null, w.setItems h (items.set i v))
  | _ => measure? operation fun w => (w.items h).length

/-- The operations of lists alone.  `push` and `insert` are for values whose copy is made without
reading `h`. -/
def listIntrinsic? (h : Handle .list) (operation : String) : Option Intrinsic :=
  match operation with
  | "push" => some <| .unary operation fun v => do
      let v ← Action.duplicate v
      Action.change fun w => (.null, w.setItems h (w.items h ++ [v]))
  | "pop" => some <| .nullary operation do
      let items ← Action.look fun w => w.items h
      match items.getLast? with
      | some last => Action.change fun w => (last, w.setItems h items.dropLast)
      | none => throw (invalidArgument operation "list is empty")
  | "insert" => some <| .binary operation fun first v => do
      let items ← Action.look fun w => w.items h
      let i ← boundOf operation first items.length
      let v ← Action.duplicate v
      Action.change fun w => (.null, w.setItems h (items.insertIdx i v))
  | "remove" => some <| .unary operation fun v => do
      let items ← Action.look fun w => w.items h
      let i ← indexOf operation v items.length
      Action.change fun w => (items.getD i .null, w.setItems h (items.eraseIdx i))
  | _ => sequenceIntrinsic? h Action.newList operation

/-- The operations of a set.  `insert` and `remove` are for items that are copied and compared
without reading `h`. -/
def setIntrinsic? (h : Handle .set) (operation : String) : Option Intrinsic :=
  match operation with
  | "clear" => some <| .nullary operation <| Action.change fun w => (.null, w.setElements h [])
  | "contains" => some <| .unary operation fun v =>
      Action.look fun w => .bool (hasElement w.looseEq (w.elements h) v)
  | "insert" => some <| .unary operation fun v => do
      let v ← Action.duplicate v
      Action.change fun w =>
        (.bool (!hasElement w.looseEq (w.elements h) v),
          w.setElements h (insertElement w.looseEq (w.elements h) v))
  | "remove" => some <| .unary operation fun v =>
      Action.change fun w =>
        (.bool (hasElement w.looseEq (w.elements h) v),
          w.setElements h ((w.elements h).eraseP fun e => w.looseEq e v))
  | _ => measure? operation fun w => (w.elements h).length

/-- Puts a duplicated entry into a dictionary and yields the value it replaces.  It is for keys and
values that are copied, and keys that are compared, without reading `h`. -/
def putEntry (h : Handle .dict) (key value : Value) : Action Value := do
  let key ← Action.duplicate key
  let value ← Action.duplicate value
  Action.change fun w =>
    ((lookupEntry w.looseEq (w.entries h) key).getD .null,
      w.setEntries h (insertEntry w.looseEq key value (w.entries h)))

/-- The operations of a dictionary.  `remove` is for keys that are compared without reading `h`. -/
def dictIntrinsic? (h : Handle .dict) (operation : String) : Option Intrinsic :=
  match operation with
  | "clear" => some <| .nullary operation <| Action.change fun w => (.null, w.setEntries h [])
  | "contains" => some <| .unary operation fun key =>
      Action.look fun w => .bool (lookupEntry w.looseEq (w.entries h) key).isSome
  | "get" => some <| .unary operation fun key => do
      match ← Action.look fun w => lookupEntry w.looseEq (w.entries h) key with
      | some v => return v
      | none => throw (invalidArgument operation
          ("missing key " ++ (← Action.look fun w => w.text key)))
  | "set" | "insert" => some <| .binary operation (putEntry h)
  | "remove" => some <| .unary operation fun key =>
      Action.change fun w =>
        ((lookupEntry w.looseEq (w.entries h) key).getD .null,
          w.setEntries h ((w.entries h).eraseP fun e => w.looseEq e.1 key))
  | "keys" => some <| .nullary operation do
      Action.newList (← Action.look fun w => (w.entries h).map (·.1))
  | "values" => some <| .nullary operation do
      Action.newList (← Action.look fun w => (w.entries h).map (·.2))
  | _ => measure? operation fun w => (w.entries h).length

/-- The operations of one kind of value. -/
def kindIntrinsic? (target : Value) (operation : String) : Option Intrinsic :=
  match target.datum with
  | .string text => stringIntrinsic? text operation
  | .list h => listIntrinsic? h operation
  | .array h => sequenceIntrinsic? h Action.newArray operation
  | .set h => setIntrinsic? h operation
  | .dict h => dictIntrinsic? h operation
  | _ => none

/-- The operation of a name on a value, if it is defined. -/
def intrinsic? (target : Value) (operation : String) : Option Intrinsic :=
  commonIntrinsic? target operation <|> kindIntrinsic? target operation

end ScopeLang
