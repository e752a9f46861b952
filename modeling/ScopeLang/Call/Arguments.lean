/-
Binding arguments to parameters.

Positional arguments fill the parameters in order, those that are left go to a
last variadic parameter, named arguments fill the parameter of their name, and
what remains is left to the defaults.
-/
import ScopeLang.Error
import ScopeLang.World

namespace ScopeLang

/-- The evaluated arguments of a call. -/
structure CallArguments where
  positional : List Value
  named : List (String × Value)
deriving Inhabited

namespace CallArguments

def count (a : CallArguments) : Nat := a.positional.length + a.named.length

/-- The cells that the arguments hold. -/
def cells (a : CallArguments) : List Cell :=
  a.positional.flatMap Value.cells ++ a.named.flatMap fun n => n.2.cells

/-- Adds an argument, evaluated after those before it. -/
def add (a : CallArguments) (name : Option String) (v : Value) : CallArguments :=
  match name with
  | some name => { a with named := a.named ++ [(name, v)] }
  | none => { a with positional := a.positional ++ [v] }

end CallArguments

/-- A parameter list while it is filled. -/
abbrev Filling := List (Option (Slot Value))

/-- Whether the last parameter collects the remaining arguments. -/
def isVariadic (parameters : List ParameterSpec) : Bool :=
  (parameters.getLast?.map ParameterSpec.variadic).getD false

/-- The number of parameters that take one argument each. -/
def fixedCount (parameters : List ParameterSpec) : Nat :=
  if isVariadic parameters then parameters.length - 1 else parameters.length

/-- The slots that the positional arguments fill. -/
def fillPositional (parameters : List ParameterSpec) (arguments : CallArguments) :
    Except BindingFailure Filling :=
  let fixed := fixedCount parameters
  if fixed < arguments.positional.length ∧ !isVariadic parameters then
    .error (.tooManyArguments fixed arguments.count)
  else
    let filled := (arguments.positional.take fixed).map fun v => some (.value v)
    .ok (filled ++ List.replicate (parameters.length - filled.length) none)

/-- Fills the parameter that a named argument names. -/
def fillNamed (parameters : List ParameterSpec) (slots : Filling) (argument : String × Value) :
    Except BindingFailure Filling :=
  match parameters.findIdx? fun p => p.name = argument.1 with
  | none => .error (.unknownParameter argument.1)
  | some i =>
      if (parameters.getD i default).variadic then .error (.variadicByName argument.1)
      else if (slots.getD i none).isSome then .error (.duplicateArgument argument.1)
      else .ok (slots.set i (some (.value argument.2)))

/-- Hands the remaining positional arguments to a variadic parameter. -/
def fillSpread (parameters : List ParameterSpec) (arguments : CallArguments) (slots : Filling) :
    Filling :=
  if isVariadic parameters then
    let fixed := fixedCount parameters
    slots.set fixed (some (.spread (arguments.positional.drop fixed)))
  else slots

/-- The slot of one parameter, which is omitted if it has a default. -/
def finishSlot (parameter : ParameterSpec) : Option (Slot Value) → Except BindingFailure (Slot Value)
  | some slot => .ok slot
  | none =>
      if parameter.default.isSome then .ok .omitted
      else .error (.missingArgument parameter.name)

/-- The slots of all parameters, up to the first that nothing fills. -/
def finishSlots : List ParameterSpec → Filling → Except BindingFailure (List (Slot Value))
  | parameter :: parameters, slot :: slots => do
      let slot ← finishSlot parameter slot
      return slot :: (← finishSlots parameters slots)
  | _, _ => .ok []

/-- One slot for each parameter. -/
def bindArguments (parameters : List ParameterSpec) (arguments : CallArguments) :
    Except BindingFailure (List (Slot Value)) := do
  let slots ← fillPositional parameters arguments
  let slots ← arguments.named.foldlM (fillNamed parameters) slots
  finishSlots parameters (fillSpread parameters arguments slots)

end ScopeLang
