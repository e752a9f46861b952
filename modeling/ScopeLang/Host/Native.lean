/-
Functions and classes supplied by the host.

A native procedure is registered like a definition of the program, with the
name of a body of the host.
-/
import ScopeLang.Intrinsics
import ScopeLang.Session

namespace ScopeLang

namespace World

/-- Registers a function with a procedure. -/
def addFunction (w : World) (s : ScopeId) (name : String) (procedure : Procedure)
    (captured : Option ScopeId) (primary : Role) (secondary : Option Role) : World :=
  let (h, w) := w.newFunction ⟨procedure, captured⟩
  w.registerFunction s name ⟨.function h, primary, secondary⟩

/-- Registers a method of a class with a procedure. -/
def addMethod (w : World) (c : ClassId) (name : String) (procedure : Procedure)
    (primary : Role) (secondary : Option Role) : World :=
  let (h, w) := w.newMethod ⟨procedure, c⟩
  w.registerFunction (w.classOf c).scope name ⟨.method h, primary, secondary⟩

/-- Registers a native function in a scope. -/
def addNative (w : World) (s : ScopeId) (name : String) (parameters : List Parameter)
    (returns : Option TypeExpr) (body : String) : World :=
  let (procedure, w) := bindProcedure s name parameters returns (.native body) w
  w.addFunction s name procedure none .native none

/-- Gives a class of the program a native method, whose types are bound in a scope. -/
def addNativeMethod (w : World) (s : ScopeId) (c : ClassId) (name : String)
    (parameters : List Parameter) (returns : Option TypeExpr) (body : String) : World :=
  let (procedure, w) := bindProcedure s name parameters returns (.native body) w
  w.addMethod c name procedure .method none

/-- A class with an empty scope of its own under `s`. -/
def addClass (w : World) (s : ScopeId) (name accessor : String) (captured : Option ScopeId) :
    ClassId × World :=
  let (scope, w) := w.classScope s name
  let (type, w) := w.declareType s name
  w.newClass { name, type, accessor, scope, captured }

end World

namespace Action

/-- Registers a class without methods. -/
def addClass (s : ScopeId) (name accessor : String) (captured : Option ScopeId) :
    Action ClassId := do
  let c ← change fun w => w.addClass s name accessor captured
  registerClass s c
  return c

/-- Enters a function found at a position among the overloads of a name. -/
def enterOverload (caller : ScopeId) (name : String) (i : Nat) : Action ScopeId := do
  match (← consult fun w => w.overloadAt caller name i).callable with
  | .function h => enterFunction caller (← look fun w => w.function h)
  | _ => throw (.functionNotFound name)

/-- Applies an intrinsic to the value of a variable, if it is defined for it. -/
def applyIntrinsic (s : ScopeId) (name operation : String) (arguments : List Value) :
    Action (Option Value) := do
  match intrinsic? (← consult fun w => w.getVariable s name) operation with
  | some run => return some (← run arguments)
  | none => return none

end Action

/-- A method supplied by the host. -/
structure NativeMethod where
  name : String
  parameters : List Parameter
  body : String
deriving Inhabited

/-- Gives a native class a method. -/
def NativeMethod.add (m : NativeMethod) (c : ClassId) (w : World) : World :=
  let scope := (w.classOf c).scope
  let (procedure, w) := bindProcedure scope m.name m.parameters none (.native m.body) w
  w.addMethod c m.name procedure .method (some .native)

namespace Session

/-- Registers a native class at the root; its constructor takes the configured name. -/
def addNativeClass (s : Session) (name : String) (accessor : Option String)
    (methods : List NativeMethod) (constructor : NativeMethod) : Except ErrorKind Unit × Session :=
  let (c, w) := s.world.addClass s.root name (accessor.getD s.config.accessor) none
  let all := methods ++ [{ constructor with name := s.config.constructor }]
  let w := all.foldl (fun w m => m.add c w) w
  { s with world := w }.act (Action.registerClass s.root c)

end Session

end ScopeLang
