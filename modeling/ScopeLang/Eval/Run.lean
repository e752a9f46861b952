/-
Runs of the evaluator.

A run works on a machine: the world, a stock of fuel and the stack of the
invocations in progress.  Every step takes a unit of fuel.  A run yields a
result, or halts with an error, or halts where its fuel is used up: the machine
then stays as it was in the middle of the program.  The evaluator is written
against a `Knot`, which stands for the recursive calls.
-/
import ScopeLang.Scope.Build

namespace ScopeLang

/-- Why a run has no result. -/
inductive Halt where
  | error (e : RuntimeError)
  | outOfFuel
deriving Inhabited

/-- Where a call finds what it invokes. -/
inductive Access where
  /-- Among the methods of the instance that it is made on. -/
  | member
  /-- Under a name, in the tables in sight. -/
  | name
  /-- In a value. -/
  | value
deriving DecidableEq, Inhabited

/-- An invocation of a function or a method. -/
structure Invocation where
  access : Access
  callable : Callable
  /-- The instance that a method runs against. -/
  receiver : Option InstanceId
deriving Inhabited

/-- What a run works on. -/
structure Machine where
  world : World
  /-- The number of steps that the run may still take. -/
  fuel : Nat
  /-- The invocations in progress, the innermost first. -/
  calls : List Invocation
deriving Inhabited

/-- What works on a machine and may halt. -/
abbrev Run := ExceptT Halt (StateM Machine)

namespace Run

/-- Halts with an error that has no span yet. -/
def fail {α : Type} (kind : ErrorKind) : Run α := throw (.error { kind })

/-- One step: an action on the world. -/
def ofAction {α : Type} (a : Action α) : Run α := fun
  | ⟨world, 0, calls⟩ => (.error .outOfFuel, ⟨world, 0, calls⟩)
  | ⟨world, fuel + 1, calls⟩ =>
      match a.runIn world with
      | (.ok result, world) => (.ok result, ⟨world, fuel, calls⟩)
      | (.error kind, world) => (.error (.error { kind }), ⟨world, fuel, calls⟩)

instance : MonadLift Action Run := ⟨ofAction⟩

/-- Reads the world, which is no step. -/
def look {α : Type} (f : World → α) : Run α := fun m => (.ok (f m.world), m)

/-- Changes the world. -/
def change {α : Type} (f : World → α × World) : Run α := ofAction (Action.change f)

/-- Replaces the world. -/
def update (f : World → World) : Run Unit := change fun w => ((), f w)

/-- A step that leaves the world as it is. -/
def tick : Run Unit := update id

/-- Changes the error of a run. -/
def mapError {α : Type} (f : RuntimeError → RuntimeError) (r : Run α) : Run α :=
  tryCatch r fun
    | .error e => throw (.error (f e))
    | .outOfFuel => throw .outOfFuel

/-- A run followed by a change of the machine, also when it halts with an error. -/
def andFinally {α : Type} (r : Run α) (change : Machine → Machine) : Run α := fun m =>
  match r m with
  | (.error .outOfFuel, m) => (.error .outOfFuel, m)
  | (result, m) => (result, change m)

/-- A run during which cells are held. -/
def holding {α : Type} (cells : List Cell) (r : Run α) : Run α := fun m =>
  let before := m.world.held
  andFinally r (fun m => { m with world := { m.world with held := before } })
    { m with world := m.world.hold cells }

/-- A run in the course of an invocation. -/
def during {α : Type} (i : Invocation) (r : Run α) : Run α := fun m =>
  let before := m.calls
  andFinally r (fun m => { m with calls := before }) { m with calls := i :: before }

/-- A run followed by a change of the world, also when it halts with an error. -/
def followedBy {α : Type} (r : Run α) (change : World → World) : Run α :=
  andFinally r fun m => { m with world := change m.world }

end Run

/-- What becomes of a statement. -/
inductive Outcome where
  | settled (value : Value)
  | returned (value : Value)
  | broke
  | continued
  | thrown (value : Value)
deriving Inhabited

namespace Outcome

/-- The word for what a statement signals. -/
def keyword : Outcome → String
  | settled _ => ""
  | returned _ => "return"
  | broke => "break"
  | continued => "continue"
  | thrown _ => "throw"

def value : Outcome → Value
  | settled v | returned v | thrown v => v
  | broke | continued => .null

/-- Whether the statements that follow are skipped. -/
def isControl : Outcome → Bool
  | settled _ => false
  | _ => true

end Outcome

/-- Where code runs: its scope, and the receiver inside a method. -/
structure Frame where
  scope : ScopeId
  receiver : Option InstanceId
deriving Inhabited

/-- What a native body is given. -/
structure NativeCall where
  /-- One value for each parameter; a variadic one is given a list. -/
  arguments : List Value
  scope : ScopeId
  receiver : Option InstanceId
deriving Inhabited

/-- The native bodies of the host by name. -/
structure Host where
  run : String → NativeCall → Action Value

structure Config where
  options : MatchOptions := {}
  /-- The usual name of the receiver in methods. -/
  accessor : String := "self"
  /-- The method that every class has to have. -/
  constructor : String := "construct"
deriving Inhabited

/-- The surroundings of a run, and its recursive calls. -/
structure Knot where
  config : Config
  host : Host
  /-- The number of rounds that a loop may take. -/
  rounds : Nat
  evaluate : Expr → Frame → Run Value
  interpret : Statement → Frame → Run Outcome

namespace Knot

/-- Interprets the statements of a block up to the first that signals control; `last` is the
value of the one before. -/
def blockFrom (k : Knot) (frame : Frame) : Value → List Statement → Run Outcome
  | last, [] => return .settled last
  | last, s :: rest => do
      match ← Run.holding last.cells (k.interpret s frame) with
      | .settled v => blockFrom k frame v rest
      | signal => return signal

/-- Interprets a block in a scope that is there already. -/
def block (k : Knot) (body : List Statement) (frame : Frame) : Run Outcome :=
  k.blockFrom frame .null body

/-- Evaluates the items of a container and duplicates each. -/
def items (k : Knot) (frame : Frame) : List Expr → Run (List Value)
  | [] => return []
  | e :: rest => do
      let v ← Action.duplicate (← k.evaluate e frame)
      let vs ← Run.holding v.cells (items k frame rest)
      return v :: vs

/-- Evaluates the entries of a dictionary and duplicates each. -/
def entries (k : Knot) (frame : Frame) : List Entry → Run (List (Value × Value))
  | [] => return []
  | ⟨key, value⟩ :: rest => do
      let key ← Action.duplicate (← k.evaluate key frame)
      Run.holding key.cells do
        let value ← Action.duplicate (← k.evaluate value frame)
        let others ← Run.holding value.cells (entries k frame rest)
        return (key, value) :: others

/-- Evaluates the arguments of a call in order, after those in `done`. -/
def argumentsFrom (k : Knot) (frame : Frame) : CallArguments → List Argument → Run CallArguments
  | done, [] => return done
  | done, ⟨name, value⟩ :: rest => do
      let v ← Run.holding done.cells (k.evaluate value frame)
      argumentsFrom k frame (done.add name v) rest

/-- Evaluates the arguments of a call. -/
def arguments (k : Knot) (arguments : List Argument) (frame : Frame) : Run CallArguments :=
  k.argumentsFrom frame ⟨[], []⟩ arguments

end Knot

end ScopeLang
