/-
Evaluating expressions.

Operands and arguments are evaluated once and from left to right.  A chain
acts on one value after the other: on an instance its elements are members, on
any other value they are intrinsics.
-/
import ScopeLang.Eval.Invoke
import ScopeLang.Intrinsics
import ScopeLang.Program.Sexpr

namespace ScopeLang

def Literal.value : Literal → Value
  | .null => .null
  | .bool b => .bool b
  | .int n => .int n
  | .long n => .long n
  | .float x => .number (.float x)
  | .double x => .number (.double x)
  | .char c => .char c
  | .string s => .string s

/-- A new container of some items. -/
def SequenceKind.build : SequenceKind → List Value → Action Value
  | .list => Action.newList
  | .array => Action.newArray
  | .set => Action.newSet

/-- Whether the left operand decides a logical operator. -/
def LogicalOperator.decidedBy : LogicalOperator → Bool → Bool
  | .and, truth => !truth
  | .or, truth => truth

namespace Knot

/-- Reads a name: a variable, else the functions of the name, else the class. -/
def readName (name : String) (s : ScopeId) : Action Value := do
  let w ← get
  match w.getVariable s name with
  | .ok v => return v
  | .error e =>
      match w.lookupFunction s name, w.lookupClass s name with
      | some overloads, _ =>
          return .ofDatum (.overloads (← Action.change fun w => w.newOverloads ⟨name, overloads⟩))
      | none, some c => return .ofDatum (.callable (.classObject c))
      | none, none => throw e

/-- The receiver of the running method. -/
def receiver (k : Knot) (frame : Frame) : Run InstanceId :=
  match frame.receiver with
  | some i => return i
  | none => Run.fail (.missingInstance k.config.accessor)

/-- Declares a variable in `target`, with an initial value evaluated in the frame. -/
def declareVariable (k : Knot) (d : VariableDecl) (frame : Frame) (target : ScopeId) :
    Run Value := do
  let declared ← Run.change fun w => w.bindType frame.scope d.type
  let v ← match d.initial with
    | some e => do
        let v ← k.evaluate e frame
        Action.consult fun w => w.checkType target d.name declared v
        pure v
    | none => pure .null
  let inferred ← Run.change fun w => w.inferType frame.scope v
  let v := { v with attrs := { v.attrs with inferred, displayName := some d.name } }
  Action.declareVariable target d.name ⟨v, d.flags, declared⟩
  return v

/-- Assigns a value to a variable of the frame. -/
def assignVariable (k : Knot) (name : String) (value : Expr) (frame : Frame) : Run Value := do
  let v ← k.evaluate value frame
  Action.updateVariable frame.scope name v
  return v

/-! ## Chains -/

/-- The error of an element that its target does not have. -/
def invalidAccess (w : World) (target : Value) (element : Element) : ErrorKind :=
  .invalidChainAccess (w.typeName target) element.sexpr

/-- The first element of a chain that starts in the scope. -/
def chainHead (k : Knot) (element : Element) (frame : Frame) : Run Value := do
  match element with
  | .read name => readName name frame.scope
  | .assign name value => k.assignVariable name value frame
  | .declare d => k.declareVariable d frame frame.scope
  | .call name arguments => k.callName name (← k.arguments arguments frame) frame

/-- The value of a member: a variable of the instance, else one of its class. -/
def member? (w : World) (i : InstanceId) (name : String) : Option Value :=
  let info := w.inst i
  ((w.localBinding? info.scope name).or
    (w.localBinding? (w.classOf info.classId).scope name)).map Binding.value

/-- The scope that holds a member. -/
def memberScope? (w : World) (i : InstanceId) (name : String) : Option ScopeId :=
  let info := w.inst i
  [info.scope, (w.classOf info.classId).scope].find? fun s => w.hasLocalVariable s name

/-- Assigns a value to a member. -/
def assignMember (i : InstanceId) (name : String) (v : Value) : Action Unit := do
  match ← Action.look fun w => memberScope? w i name with
  | some s => Action.updateLocalVariable s name v
  | none => throw (.undefinedVariable name)

/-- An element that is resolved in an instance; its arguments are evaluated in the frame. -/
def member (k : Knot) (element : Element) (i : InstanceId) (frame : Frame) : Run Value :=
  Run.holding [i.cell] do
    let target : Value := .ofDatum (.object i)
    match element with
    | .read name =>
        let w ← Run.look id
        match member? w i name with
        | some v => return v
        | none => Run.fail (invalidAccess w target element)
    | .assign name value =>
        let v ← k.evaluate value frame
        assignMember i name v
        return v
    | .declare d => k.declareVariable d frame (← Run.look fun w => (w.inst i).scope)
    | .call name arguments =>
        let w ← Run.look id
        if w.hasLocalFunction (w.inst i).scope name then
          k.callMethod i name (← k.arguments arguments frame) frame.scope
        else Run.fail (invalidAccess w target element)

/-- Applies an intrinsic, or fails if it is not defined for the target. -/
def applyIntrinsic (target : Value) (element : Element) (name : String)
    (arguments : List Value) : Run Value := do
  match intrinsic? target name with
  | some run => run arguments
  | none => Run.fail (← Run.look fun w => invalidAccess w target element)

/-- An element that acts on a value that is no instance. -/
def virtual (k : Knot) (element : Element) (target : Value) (frame : Frame) : Run Value :=
  Run.holding target.cells do
    match element with
    | .read name => applyIntrinsic target element name []
    | .call name arguments =>
        let arguments ← k.arguments arguments frame
        if arguments.named.isEmpty then
          Run.holding arguments.cells (applyIntrinsic target element name arguments.positional)
        else Run.fail (← Run.look fun w => invalidAccess w target element)
    | .assign _ _ | .declare _ => Run.fail (← Run.look fun w => invalidAccess w target element)

/-- An element that acts on the value of those before it. -/
def chainStep (k : Knot) (element : Element) (current : Value) (frame : Frame) : Run Value :=
  match current.object? with
  | some i => k.member element i frame
  | none => k.virtual element current frame

/-- The elements of a chain after the first, from left to right. -/
def chainSteps (k : Knot) (frame : Frame) : Value → List Element → Run Value
  | current, [] => return current
  | current, element :: rest => do
      chainSteps k frame (← k.chainStep element current frame) rest

/-- A chain; one without elements is null. -/
def chain (k : Knot) (origin : ChainOrigin) (elements : List Element) (frame : Frame) :
    Run Value := do
  match elements with
  | [] => return .null
  | head :: rest =>
      let first ← match origin with
        | .scope => k.chainHead head frame
        | .receiver => do k.member head (← k.receiver frame) frame
      k.chainSteps frame first rest

/-! ## Expressions -/

/-- Evaluates a term. -/
def term (k : Knot) (t : Term) (frame : Frame) : Run Value := do
  match t with
  | .literal l => return l.value
  | .sequence kind exprs => do
      let vs ← k.items frame exprs
      kind.build vs
  | .dict entries => do
      let es ← k.entries frame entries
      Action.newDict es
  | .variable name => readName name frame.scope
  | .receiver => return .ofDatum (.object (← k.receiver frame))
  | .unary op operand =>
      let v ← k.evaluate operand frame
      Action.consult fun w => w.unary op v
  | .binary op left right =>
      let a ← k.evaluate left frame
      let b ← Run.holding a.cells (k.evaluate right frame)
      Action.binary op a b
  | .logical op left right =>
      let a ← k.evaluate left frame
      if op.decidedBy (← Run.look fun w => w.isTruthy a) then return a
      else Run.holding a.cells (k.evaluate right frame)
  | .call callee arguments => k.callName callee (← k.arguments arguments frame) frame
  | .callValue callee arguments =>
      let callee ← k.evaluate callee frame
      let arguments ← Run.holding callee.cells (k.arguments arguments frame)
      k.callValue callee arguments frame
  | .chain origin elements => k.chain origin elements frame

/-- Evaluates an expression, whose span an error takes on that has none. -/
def expression (k : Knot) (e : Expr) (frame : Frame) : Run Value :=
  Run.mapError (fun error => error.orSpan e.span) (k.term e.term frame)

end Knot

end ScopeLang
