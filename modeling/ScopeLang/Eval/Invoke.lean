/-
Invoking procedures and classes.

A user procedure runs in a scope of its own, into which its arguments are
installed; a native one is given a value for each parameter and runs in the
scope of its caller, or of its receiver.  Arguments and results are checked
against the declared types.
-/
import ScopeLang.Eval.Run

namespace ScopeLang

namespace Knot

/-! ## Arguments -/

/-- The default of a parameter. -/
def default (k : Knot) (parameter : ParameterSpec) (frame : Frame) : Run Value :=
  match parameter.default with
  | some e => k.evaluate e frame
  | none => return .null

/-- Checks an argument if its parameter is enforced. -/
def checkArgument (parameter : ParameterSpec) (s : ScopeId) (v : Value) : Action Unit :=
  if parameter.enforced then
    Action.consult fun w => w.checkType s parameter.name parameter.signature v
  else return

/-- The value that a native body is given for a parameter. -/
def materialize (k : Knot) (parameter : ParameterSpec) (frame : Frame) :
    Slot Value → Run Value
  | .spread vs => Action.newList vs
  | .value v => do
      checkArgument parameter frame.scope v
      return v
  | .omitted => do
      let v ← k.default parameter frame
      checkArgument parameter frame.scope v
      return v

/-- The values that a native body is given. -/
def materializeAll (k : Knot) (frame : Frame) :
    List ParameterSpec → List (Slot Value) → Run (List Value)
  | parameter :: parameters, slot :: slots => do
      let v ← k.materialize parameter frame slot
      let vs ← Run.holding v.cells (materializeAll k frame parameters slots)
      return v :: vs
  | _, _ => return []

/-- The value and the declared type of the variable that an argument becomes. -/
def argument (k : Knot) (parameter : ParameterSpec) (frame : Frame) :
    Slot Value → Run (Value × SigId)
  | .spread vs => return (← Action.newList vs, .invalid)
  | .value v => return (v, parameter.signature)
  | .omitted => return (← k.default parameter frame, parameter.signature)

/-- Declares the variable of a parameter in the scope of a call. -/
def install (k : Knot) (parameter : ParameterSpec) (frame : Frame) (slot : Slot Value) :
    Run Unit := do
  let (v, signature) ← k.argument parameter frame slot
  let declared := if parameter.enforced then signature else .invalid
  Action.consult fun w => w.checkType frame.scope parameter.name declared v
  Action.declareVariable frame.scope parameter.name ⟨v, parameter.flags, declared⟩

/-- Declares the variables of all parameters in order. -/
def installAll (k : Knot) (frame : Frame) : List ParameterSpec → List (Slot Value) → Run Unit
  | parameter :: parameters, slot :: slots => do
      k.install parameter frame slot
      installAll k frame parameters slots
  | _, _ => return

/-! ## Procedures -/

/-- The result of a body: the returned value, or null where the return type admits it. -/
def result (procedure : Procedure) (s : ScopeId) : Outcome → Action Value
  | .returned v => return v
  | .thrown v => throw (.uncaughtThrow v)
  | .settled _ => do
      if ← Action.look fun w => w.admits s procedure.returns .null then return .null
      else throw (.missingReturn procedure.name)
  | signal => throw (.misplacedControl signal.keyword "function body")

/-- Runs the body of a user procedure in the scope of a call. -/
def runBody (k : Knot) (procedure : Procedure) (body : List Statement)
    (slots : List (Slot Value)) (frame : Frame) : Run Value := do
  k.installAll frame procedure.parameters slots
  let v ← result procedure frame.scope (← k.block body frame)
  Action.consult fun w => w.checkType frame.scope procedure.name procedure.returns v
  return v

/-- Runs the body of a user procedure in a new scope, which ends with the call. -/
def runCall (k : Knot) (procedure : Procedure) (body : List Statement)
    (slots : List (Slot Value)) (caller : ScopeId) (enter : Action ScopeId)
    (receiver : Option InstanceId) : Run Value := do
  let s ← enter
  Run.followedBy (Run.holding [s.cell] (k.runBody procedure body slots ⟨s, receiver⟩))
    fun w => w.removeChild caller s

/-- Runs a native body; `scope` is the scope that it is given. -/
def runNative (k : Knot) (procedure : Procedure) (body : String) (slots : List (Slot Value))
    (caller : Frame) (scope : ScopeId) : Run Value := do
  let arguments ← k.materializeAll caller procedure.parameters slots
  let v ← Run.holding (arguments.flatMap Value.cells)
    (Run.ofAction (k.host.run body ⟨arguments, scope, caller.receiver⟩))
  Action.consult fun w => w.checkType caller.scope procedure.name procedure.returns v
  return v

def invokeFunction (k : Knot) (h : Handle .function) (slots : List (Slot Value))
    (caller : ScopeId) : Run Value := do
  let f ← Run.look fun w => w.function h
  match f.procedure.body with
  | .native body => k.runNative f.procedure body slots ⟨caller, none⟩ caller
  | .user body =>
      k.runCall f.procedure body slots caller (Action.enterFunction caller f) none

def invokeMethod (k : Knot) (h : Handle .method) (slots : List (Slot Value))
    (receiver : InstanceId) (caller : ScopeId) : Run Value := do
  let m ← Run.look fun w => w.method h
  match m.procedure.body with
  | .native body =>
      let scope ← Run.look fun w => (w.inst receiver).scope
      k.runNative m.procedure body slots ⟨caller, some receiver⟩ scope
  | .user body =>
      k.runCall m.procedure body slots caller
        (Action.enterMethod caller receiver m.procedure.name) (some receiver)

/-- Invokes the overload that a call goes to. -/
def invoke (k : Knot) (access : Access) (r : Resolution) (frame : Frame) : Run Value :=
  Run.holding [r.overload.callable.cell] do
    match r.overload.callable with
    | .function h =>
        Run.during ⟨access, .function h, none⟩ (k.invokeFunction h r.slots frame.scope)
    | .method h =>
        match frame.receiver with
        | some receiver =>
            Run.during ⟨access, .method h, some receiver⟩
              (k.invokeMethod h r.slots receiver frame.scope)
        | none => Run.fail (.missingInstance (← Run.look fun w => (w.method h).procedure.name))
    | .classObject h => Run.fail (.invalidCallee (.ofDatum (.callable (.classObject h))))

/-! ## Methods and classes -/

/-- Calls a method of an instance. -/
def callMethod (k : Knot) (receiver : InstanceId) (name : String) (arguments : CallArguments)
    (caller : ScopeId) : Run Value :=
  Run.holding (receiver.cell :: arguments.cells) do
    let home ← Run.look fun w => (w.inst receiver).scope
    let r ← Action.resolveFunction home name arguments
    k.invoke .member r ⟨caller, some receiver⟩

/-- Makes an instance of a class and runs its constructor. -/
def instantiate (k : Knot) (c : ClassId) (arguments : CallArguments) (caller : ScopeId) :
    Run Value :=
  Run.holding (c.cell :: arguments.cells) do
    let made ← Run.change fun w => w.makeInstance c
    let home ← Run.look fun w => (w.inst made).scope
    if ← Run.look fun w => w.hasLocalFunction home k.config.constructor then
      let _ ← k.callMethod made k.config.constructor arguments caller
      return .ofDatum (.object made)
    else
      Run.fail (.missingConstructor (← Run.look fun w => (w.classOf c).name) k.config.constructor)

/-! ## Calls -/

/-- Calls a value. -/
def callValue (k : Knot) (callee : Value) (arguments : CallArguments) (frame : Frame) :
    Run Value :=
  Run.holding (callee.cells ++ arguments.cells) do
    match callee.datum with
    | .overloads h =>
        let set ← Run.look fun w => w.overloadSet h
        k.invoke .value (← Action.resolveAmong frame.scope set.name set.overloads arguments) frame
    | .callable (.classObject c) => k.instantiate c arguments frame.scope
    | .callable c =>
        let name ← Run.look fun w => w.callableName c
        k.invoke .value
          (← Action.resolveAmong frame.scope name [⟨c, .function, none⟩] arguments) frame
    | _ => Run.fail (.invalidCallee callee)

/-- The callable that a variable holds. -/
def callableVariable? (w : World) (s : ScopeId) (name : String) : Option Value :=
  ((w.binding? s name).map Binding.value).filter Value.isCallable

/-- Calls a name: a callable in a variable, else a function, else a class. -/
def callName (k : Knot) (name : String) (arguments : CallArguments) (frame : Frame) :
    Run Value :=
  Run.holding arguments.cells do
    let w ← Run.look id
    match callableVariable? w frame.scope name with
    | some callee => k.callValue callee arguments frame
    | none =>
        match w.lookupFunction frame.scope name with
        | some candidates =>
            k.invoke .name (← Action.resolveAmong frame.scope name candidates arguments) frame
        | none =>
            match w.lookupClass frame.scope name with
            | some c => k.instantiate c arguments frame.scope
            | none => Run.fail (.functionNotFound name)

end Knot

end ScopeLang
