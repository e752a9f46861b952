/-
The world that a program runs in.

Scopes, containers, instances and callables are cells of one world.  A scope
reaches its lexical parent, the scope it was appended to and the scope that
called it by links that do not keep them; it keeps its children, the values of
its variables and the entries of its tables.
-/
import ScopeLang.Table
import ScopeLang.Value
import ScopeLang.Program.Term

namespace ScopeLang

abbrev ScopeId := Handle .scope
abbrev InstanceId := Handle .object
abbrev ClassId := Handle .classObject

/-! ## Callables -/

/-- A parameter whose type has been bound. -/
structure ParameterSpec where
  name : String
  signature : SigId
  /-- Whether arguments are checked against the signature. -/
  enforced : Bool
  default : Option Expr
  variadic : Bool
  flags : Flags
deriving Inhabited

/-- What runs when a procedure is invoked. -/
inductive Body where
  | user (statements : List Statement)
  /-- A body supplied by the host under a name. -/
  | native (name : String)
deriving Inhabited

/-- What functions and methods have in common. -/
structure Procedure where
  name : String
  parameters : List ParameterSpec
  returns : SigId
  body : Body
deriving Inhabited

structure Function where
  procedure : Procedure
  /-- The scope made by the definition; native functions have none. -/
  captured : Option ScopeId
deriving Inhabited

structure Method where
  procedure : Procedure
  /-- The class of the method, which it does not keep. -/
  classId : ClassId
deriving Inhabited

structure Class where
  name : String
  type : TypeId
  /-- The name of the receiver in its methods. -/
  accessor : String
  /-- The scope of the methods and the member defaults. -/
  scope : ScopeId
  /-- The scope that the class body was run against. -/
  captured : Option ScopeId
deriving Inhabited

structure Instance where
  classId : ClassId
  scope : ScopeId
  /-- The items that native methods keep in the instance. -/
  native : Option (Handle .list)
deriving Inhabited

/-- The roles of an entry in a table of functions. -/
inductive Role where
  | function | method | classObject | native
  /-- Accepts any arguments that can be bound, after all typed entries. -/
  | closure
deriving DecidableEq, Inhabited

namespace Role

def all : List Role := [function, method, .classObject, native, closure]

def name : Role → String
  | function => "Function" | method => "Method" | .classObject => "Class" | native => "Native"
  | closure => "Def"

/-- The role with a name. -/
def ofName? (text : String) : Option Role := all.find? fun r => r.name = text

end Role

/-- One entry of a table of functions. -/
structure Overload where
  callable : Callable
  primary : Role
  secondary : Option Role
deriving DecidableEq, Inhabited

namespace Overload

def isClosure (o : Overload) : Bool := o.primary == .closure || o.secondary == some .closure

end Overload

/-- The overloads found under one name. -/
structure OverloadSet where
  name : String
  overloads : List Overload
deriving Inhabited

/-! ## Scopes -/

/-- A variable: its value and how it was declared. -/
structure Binding where
  value : Value
  flags : Flags
  /-- The declared type; nothing is checked if it is no signature or `Any`. -/
  declared : SigId
deriving Inhabited

inductive ScopeKind where
  | root | block | functionCall | methodCall | classDef | classScope | members
  /-- Holds copies of some variables; its parent is searched for functions and classes only. -/
  | detached
  /-- Holds copies of some variables and of the local tables, and has no parent. -/
  | isolated
deriving DecidableEq, Inhabited

namespace ScopeKind

def all : List ScopeKind :=
  [root, block, functionCall, methodCall, classDef, classScope, members, detached, isolated]

def name : ScopeKind → String
  | root => "Root"
  | block => "Block"
  | functionCall => "FunctionCall"
  | methodCall => "MethodCall"
  | classDef => "ClassDef"
  | classScope => "ClassScope"
  | members => "Instance"
  | detached => "Detached"
  | isolated => "Isolated"

/-- The kind with a name. -/
def ofName? (text : String) : Option ScopeKind := all.find? fun k => k.name = text

end ScopeKind

abbrev FunctionTable := Table (List Overload)
abbrev ClassTable := Table ClassId

/-- The functions and classes registered at a root. -/
inductive Globals where
  | owned (functions : FunctionTable) (classes : ClassTable)
  /-- Those of the given root, as long as it is there. -/
  | shared (root : ScopeId)
deriving Inhabited

structure Scope where
  kind : ScopeKind
  /-- What made the scope, for diagnostics. -/
  label : String
  level : Nat
  isCopy : Bool
  tornDown : Bool
  bindings : Table Binding
  functions : FunctionTable
  classes : ClassTable
  aliases : Table SigId
  children : List ScopeId
  parent : Option ScopeId
  owner : Option ScopeId
  caller : Option ScopeId
  globals : Globals
  types : Handle .types
deriving Inhabited

/-- The pool and the options of every type check below one root. -/
structure TypeContext where
  pool : TypePool
  options : MatchOptions
deriving Inhabited

/-! ## The world -/

structure World where
  scopes : Store .scope Scope
  lists : Store .list (List Value)
  dicts : Store .dict (List (Value × Value))
  sets : Store .set (List Value)
  instances : Store .object Instance
  functions : Store .function Function
  methods : Store .method Method
  classes : Store .classObject Class
  overloads : Store .overloads OverloadSet
  types : Store .types TypeContext
  /-- The cells held from outside: by the host, and by evaluations in progress. -/
  held : List Cell
deriving Inhabited

namespace World

def empty : World :=
  { scopes := .empty, lists := .empty, dicts := .empty, sets := .empty, instances := .empty,
    functions := .empty, methods := .empty, classes := .empty, overloads := .empty,
    types := .empty, held := [] }

/-! ### Reading cells -/

def scope (w : World) (s : ScopeId) : Scope := w.scopes.get s
def items (w : World) (h : Handle .list) : List Value := w.lists.get h
def entries (w : World) (h : Handle .dict) : List (Value × Value) := w.dicts.get h
def elements (w : World) (h : Handle .set) : List Value := w.sets.get h
def inst (w : World) (h : InstanceId) : Instance := w.instances.get h
def function (w : World) (h : Handle .function) : Function := w.functions.get h
def method (w : World) (h : Handle .method) : Method := w.methods.get h
def classOf (w : World) (h : ClassId) : Class := w.classes.get h
def overloadSet (w : World) (h : Handle .overloads) : OverloadSet := w.overloads.get h
def typeContext (w : World) (h : Handle .types) : TypeContext := w.types.get h

/-! ### Writing cells -/

def setScope (w : World) (s : ScopeId) (scope : Scope) : World :=
  { w with scopes := w.scopes.set s scope }

def setItems (w : World) (h : Handle .list) (items : List Value) : World :=
  { w with lists := w.lists.set h items }

def setEntries (w : World) (h : Handle .dict) (entries : List (Value × Value)) : World :=
  { w with dicts := w.dicts.set h entries }

def setElements (w : World) (h : Handle .set) (elements : List Value) : World :=
  { w with sets := w.sets.set h elements }

def setInstance (w : World) (h : InstanceId) (i : Instance) : World :=
  { w with instances := w.instances.set h i }

def setTypeContext (w : World) (h : Handle .types) (t : TypeContext) : World :=
  { w with types := w.types.set h t }

/-! ### New cells -/

def newScope (w : World) (scope : Scope) : ScopeId × World :=
  let (h, scopes) := w.scopes.alloc scope
  (h, { w with scopes })

def newItems (w : World) (items : List Value) : Handle .list × World :=
  let (h, lists) := w.lists.alloc items
  (h, { w with lists })

def newEntries (w : World) (entries : List (Value × Value)) : Handle .dict × World :=
  let (h, dicts) := w.dicts.alloc entries
  (h, { w with dicts })

def newElements (w : World) (elements : List Value) : Handle .set × World :=
  let (h, sets) := w.sets.alloc elements
  (h, { w with sets })

def newInstance (w : World) (i : Instance) : InstanceId × World :=
  let (h, instances) := w.instances.alloc i
  (h, { w with instances })

def newFunction (w : World) (f : Function) : Handle .function × World :=
  let (h, functions) := w.functions.alloc f
  (h, { w with functions })

def newMethod (w : World) (m : Method) : Handle .method × World :=
  let (h, methods) := w.methods.alloc m
  (h, { w with methods })

def newClass (w : World) (c : Class) : ClassId × World :=
  let (h, classes) := w.classes.alloc c
  (h, { w with classes })

def newOverloads (w : World) (o : OverloadSet) : Handle .overloads × World :=
  let (h, overloads) := w.overloads.alloc o
  (h, { w with overloads })

def newTypes (w : World) (t : TypeContext) : Handle .types × World :=
  let (h, types) := w.types.alloc t
  (h, { w with types })

/-! ### Callables by value -/

/-- The procedure of a callable that is no class. -/
def procedure? (w : World) : Callable → Option Procedure
  | .function h => some (w.function h).procedure
  | .method h => some (w.method h).procedure
  | .classObject _ => none

def callableName (w : World) : Callable → String
  | .function h => (w.function h).procedure.name
  | .method h => (w.method h).procedure.name
  | .classObject h => (w.classOf h).name

def parameters (w : World) (c : Callable) : List ParameterSpec :=
  ((w.procedure? c).map Procedure.parameters).getD []

/-- The return type of a callable that is no class. -/
def returns? (w : World) (c : Callable) : Option SigId := (w.procedure? c).map Procedure.returns

/-! ### Types of values -/

def className (w : World) (h : InstanceId) : String := (w.classOf (w.inst h).classId).name

/-- The type of a value; an instance has the type of its class. -/
def typeId (w : World) (v : Value) : TypeId :=
  match v.datum with
  | .object h => (w.classOf (w.inst h).classId).type
  | d => ((d.primitive?).map Primitive.id).getD .invalid

/-- The name of the type of a value. -/
def typeName (w : World) (v : Value) : String :=
  match v.datum with
  | .object h => w.className h
  | d => d.kind.name

/-- What matching sees of a value. -/
def valueType (w : World) (v : Value) : ValueType := ⟨w.typeId v, v.isCallable⟩

def isTruthy (w : World) (v : Value) : Bool :=
  match v.datum with
  | .null => false
  | .bool b => b
  | .number n => !n.isZero
  | .string s => !s.isEmpty
  | .list h | .array h => !(w.items h).isEmpty
  | .dict h => !(w.entries h).isEmpty
  | .set h => !(w.elements h).isEmpty
  | .char _ | .callable _ | .object _ | .overloads _ => true

/-- The number of cells that values can nest through. -/
def size (w : World) : Nat :=
  w.scopes.size + w.lists.size + w.dicts.size + w.sets.size + w.instances.size +
    w.functions.size + w.methods.size + w.classes.size + w.overloads.size

end World

end ScopeLang
