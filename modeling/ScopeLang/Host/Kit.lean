/-
A kit of native bodies.

Small bodies that look at what a native procedure is given: its arguments, its
scope and its receiver, in which some of them keep a stack.
-/
import ScopeLang.Host.Native

namespace ScopeLang

namespace NativeCall

/-- An argument, null past the end. -/
def argument (c : NativeCall) (i : Nat) : Value := c.arguments.getD i .null

/-- The first argument if it is a text, else the empty text. -/
def text (c : NativeCall) : String := (c.argument 0).string?.getD ""

/-- The stack that the receiver keeps. -/
def stack (c : NativeCall) : Action (Handle .list) := do
  let w ← get
  match c.receiver.bind fun i => (w.inst i).native with
  | some h => return h
  | none => throw (.missingInstance "stack")

end NativeCall

namespace Kit

/-- The sum of the arguments from left to right. -/
def sum (c : NativeCall) : Action Value :=
  match c.arguments with
  | [] => return .null
  | first :: rest => rest.foldlM (Action.binary .add) first

/-- Gives the receiver an empty stack. -/
def newStack (c : NativeCall) : Action Value := do
  match c.receiver with
  | none => return .null
  | some i => Action.change fun w =>
      let (h, w) := w.newItems []
      (.null, w.setInstance i { w.inst i with native := some h })

/-- Puts the first argument on the stack. -/
def push (c : NativeCall) : Action Value := do
  let h ← c.stack
  Action.change fun w => (.null, w.setItems h (w.items h ++ [c.argument 0]))

/-- Takes the last value off the stack, null if there is none. -/
def pop (c : NativeCall) : Action Value := do
  let h ← c.stack
  Action.change fun w => ((w.items h).getLast?.getD .null, w.setItems h (w.items h).dropLast)

/-- The number of values on the stack. -/
def size (c : NativeCall) : Action Value := do
  let h ← c.stack
  Action.look fun w => .long (Int64.ofNat (w.items h).length)

/-- The body of a name. -/
def run (body : String) (c : NativeCall) : Action Value :=
  match body with
  | "args" => Action.newList c.arguments
  | "sum" => sum c
  | "first" => return c.argument 0
  | "third" => return c.argument 2
  | "fail" => throw (.invalidVirtualArgument "fail" "always")
  | "owner" => Action.look fun w => .string (w.scope c.scope).label
  | "kind" => Action.look fun w => .string (w.scope c.scope).kind.name
  | "me" => return (c.receiver.map fun i => Value.ofDatum (.object i)).getD .null
  | "get" => Action.consult fun w => w.getVariable c.scope c.text
  | "update" => do
      Action.updateVariable c.scope c.text (c.argument 1)
      return .null
  | "declare" => do
      Action.declareVariable c.scope c.text ⟨c.argument 1, {}, .invalid⟩
      return .null
  | "stack_new" => newStack c
  | "stack_push" => push c
  | "stack_pop" => pop c
  | "stack_size" => size c
  | _ => return .null

/-- The host of the kit. -/
def host : Host := ⟨run⟩

end Kit

end ScopeLang
