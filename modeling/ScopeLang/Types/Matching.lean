/-
Matching values and calls against signatures.

A match is scored: an exact match scores 3, a numeric widening 2, and a match
that nothing checks 1.  A widening costs the distance between the two numeric
types.  A union matches as its best member does.  A call scores the sum over
its arguments.
-/
import ScopeLang.Types.Signature

namespace ScopeLang

structure MatchOptions where
  /-- Whether `Any` accepts values. -/
  allowAny : Bool := true
  /-- Whether a numeric type accepts the narrower ones. -/
  widening : Bool := true
deriving DecidableEq, Inhabited

/-- What matching sees of a value. -/
structure ValueType where
  id : TypeId
  /-- Whether the value can be called. -/
  callable : Bool
deriving DecidableEq, Inhabited

/-- How well something matches.  Scores and costs are natural numbers where the interpreter has
32-bit words.  An argument adds at most 3 to either, so that their sums are the same for calls
with up to 2 ^ 30 arguments. -/
structure Fit where
  score : Nat
  cost : Nat
deriving DecidableEq, Inhabited, Repr

namespace Fit

def exact : Fit := ⟨3, 0⟩
def widened (distance : Nat) : Fit := ⟨2, distance⟩
/-- The fit of a value that nothing checks. -/
def unchecked : Fit := ⟨1, 0⟩
def empty : Fit := ⟨0, 0⟩

def add (a b : Fit) : Fit := ⟨a.score + b.score, a.cost + b.cost⟩

/-- Whether `a` is a strictly better fit than `b`: a higher score, or a lower
cost at the same score. -/
def better (a b : Fit) : Bool :=
  b.score < a.score || (a.score == b.score && a.cost < b.cost)

/-- The better of two results, the first one if neither is better. -/
def best : Option Fit → Option Fit → Option Fit
  | none, b => b
  | some a, none => some a
  | some a, some b => some (if b.better a then b else a)

/-- The fit of several parts, all of which have to match. -/
def sum : List (Option Fit) → Option Fit
  | [] => some empty
  | none :: _ => none
  | some a :: rest => (sum rest).map a.add

end Fit

/-- How one parameter is filled by a call. -/
inductive Slot (α : Type) where
  | value (value : α)
  /-- The parameter is left to its default. -/
  | omitted
  /-- The arguments collected by the last parameter. -/
  | spread (values : List α)
deriving Inhabited

namespace Slot

def map {α β : Type} (f : α → β) : Slot α → Slot β
  | .value a => .value (f a)
  | .omitted => .omitted
  | .spread as => .spread (as.map f)

/-- The supplied values. -/
def values {α : Type} : Slot α → List α
  | .value a => [a]
  | .omitted => []
  | .spread as => as

/-- Lays positional arguments out over `count` parameters, if their number fits. -/
def positional? {α : Type} (values : List α) (count : Nat) (variadic : Bool) :
    Option (List (Slot α)) :=
  if variadic then
    if count = 0 ∨ values.length < count - 1 then none
    else some ((values.take (count - 1)).map .value ++ [.spread (values.drop (count - 1))])
  else if values.length = count then some (values.map .value)
  else none

end Slot

namespace TypePool

/-- The position of a type in the widening order. -/
def rank? (t : TypeId) : Option Nat := (Primitive.ofId? t).bind Primitive.rank?

/-- The fit of a value of type `actual` to a named type. -/
def fitNominal (base actual : TypeId) (options : MatchOptions) : Option Fit :=
  if actual = base then some .exact
  else if options.widening then
    match rank? actual, rank? base with
    | some a, some b => if a < b then some (.widened (b - a)) else none
    | _, _ => none
  else none

/-- The fit of a value to a signature nested at most `n` deep. -/
def fitWithin (p : TypePool) (options : MatchOptions) (value : ValueType) :
    Nat → SigId → Option Fit
  | 0, _ => none
  | n + 1, s =>
      match p.get? s with
      | none => none
      | some .any => if options.allowAny then some .unchecked else none
      | some (.nominal base) => fitNominal base value.id options
      | some (.container base _) => if value.id = base then some .exact else none
      | some (.union members) =>
          (members.map (fitWithin p options value n)).foldl Fit.best none
      | some (.invocable _) => if value.callable then some .exact else none

/-- The fit of a value to a signature, if it matches. -/
def fit (p : TypePool) (options : MatchOptions) (s : SigId) (value : ValueType) : Option Fit :=
  p.fitWithin options value (p.size + 1) s

/-- The fit of one supplied value to a parameter. -/
def fitArgument (p : TypePool) (options : MatchOptions) (parameter : SigId) (enforced : Bool)
    (value : ValueType) : Option Fit :=
  if enforced then p.fit options parameter value else some .unchecked

/-- The fit of one slot; `collects` marks the last parameter of a variadic type. -/
def fitSlot (p : TypePool) (options : MatchOptions) (parameter : SigId)
    (enforced collects : Bool) : Slot ValueType → Option Fit
  | .omitted => some .unchecked
  | .value v => if collects then none else p.fitArgument options parameter enforced v
  | .spread vs =>
      if collects then Fit.sum (vs.map (p.fitArgument options parameter enforced)) else none

/-- The fits of the slots of a call; missing marks leave a parameter unchecked. -/
def fitSlots (p : TypePool) (options : MatchOptions) (variadic : Bool) :
    List SigId → List Bool → List (Slot ValueType) → Option Fit
  | [], _, [] => some .empty
  | parameter :: parameters, enforced, slot :: slots =>
      match p.fitSlot options parameter (enforced.headD false)
          (variadic && slots.isEmpty) slot with
      | none => none
      | some a => (fitSlots p options variadic parameters enforced.tail slots).map a.add
  | _, _, _ => none

/-- The fit of a bound call to the type of what is called. -/
def fitCall (p : TypePool) (options : MatchOptions) (s : SigId)
    (slots : List (Slot ValueType)) : Option Fit :=
  match p.get? s with
  | some (.invocable type) =>
      p.fitSlots options type.variadic type.parameters type.enforced slots
  | _ => none

/-- Whether a value may be stored where `s` is declared. -/
def admits (p : TypePool) (options : MatchOptions) (s : SigId) (value : ValueType) : Bool :=
  !s.isValid || s == .any || (p.fit options s value).isSome

end TypePool

end ScopeLang
