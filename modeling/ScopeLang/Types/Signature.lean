/-
Type signatures and their pool.

A signature describes a type by the ids of its parts.  The pool holds each
signature once, so that equal types have equal ids.  Unions are kept in a
normal form: they have no union and no `Any` among their members, which are
sorted and distinct, and a union of one member is that member.
-/
import ScopeLang.Types.Registry

namespace ScopeLang

/-- The identity of a signature in a pool: its place, from 1 on.  Like a `TypeId` it is a natural
number where the interpreter has a 32-bit word; the two are the same for pools of fewer than
2 ^ 32 - 1 signatures. -/
structure SigId where
  index : Nat
deriving DecidableEq, Inhabited, Repr

namespace SigId

/-- The id of no signature. -/
def invalid : SigId := ⟨0⟩

/-- The id of `Any` in every pool. -/
def any : SigId := ⟨1⟩

def isValid (s : SigId) : Bool := s.index != 0

end SigId

/-- The type of something that can be called. -/
structure Invocable where
  parameters : List SigId
  /-- Whether the arguments for each parameter are checked. -/
  enforced : List Bool
  returns : SigId
  /-- Whether the last parameter collects the remaining arguments. -/
  variadic : Bool
deriving DecidableEq, Inhabited

inductive Signature where
  | any
  | nominal (base : TypeId)
  | container (base : TypeId) (arguments : List SigId)
  | union (members : List SigId)
  | invocable (type : Invocable)
deriving DecidableEq, Inhabited

/-- The type names and the signatures in use; the signature at position `i` has
the id `i + 1`. -/
structure TypePool where
  registry : Registry
  signatures : List Signature
deriving Inhabited

namespace TypePool

/-- The pool that holds `Any` alone. -/
def initial : TypePool := ⟨Registry.initial, [.any]⟩

def get? (p : TypePool) (s : SigId) : Option Signature :=
  if s.isValid then p.signatures[s.index - 1]? else none

def size (p : TypePool) : Nat := p.signatures.length

/-! ## Normal form -/

/-- Inserts an id into a sorted list without repetition. -/
def insertSorted (s : SigId) : List SigId → List SigId
  | [] => [s]
  | t :: rest =>
      if s.index < t.index then s :: t :: rest
      else if s = t then t :: rest
      else t :: insertSorted s rest

/-- The ids of a list, sorted and without repetition. -/
def sortDistinct (ids : List SigId) : List SigId := ids.foldr insertSorted []

/-- The members that an id contributes to a union. -/
def flatten (p : TypePool) (s : SigId) : List SigId :=
  match p.get? s with
  | some (.union members) => members
  | _ => [s]

/-- The normal form of a union. -/
def normalUnion (p : TypePool) (members : List SigId) : Signature :=
  if members.any fun s => p.get? s = some .any then .any
  else .union (sortDistinct (members.flatMap p.flatten))

def normalize (p : TypePool) : Signature → Signature
  | .union members => p.normalUnion members
  | s => s

/-! ## Interning -/

/-- The id of a signature in normal form, added to the pool on first use. -/
def internNormal (p : TypePool) (s : Signature) : SigId × TypePool :=
  match p.signatures.idxOf? s with
  | some i => (⟨i + 1⟩, p)
  | none => (⟨p.signatures.length + 1⟩, { p with signatures := p.signatures ++ [s] })

/-- The id of a signature. -/
def intern (p : TypePool) (s : Signature) : SigId × TypePool :=
  match p.normalize s with
  | .union [only] => (only, p)
  | normal => p.internNormal normal

/-- The id of a type name, declared on first use. -/
def declare (p : TypePool) (name : String) : TypeId × TypePool :=
  let (t, registry) := p.registry.declare name
  (t, { p with registry })

def nominal (p : TypePool) (base : TypeId) : SigId × TypePool := p.intern (.nominal base)

def container (p : TypePool) (base : TypeId) (arguments : List SigId) : SigId × TypePool :=
  p.intern (.container base arguments)

def union (p : TypePool) (members : List SigId) : SigId × TypePool := p.intern (.union members)

def invocable (p : TypePool) (type : Invocable) : SigId × TypePool := p.intern (.invocable type)

/-- The signature of a named type; a container without element types holds `Any`. -/
def bare (p : TypePool) (base : TypeId) : SigId × TypePool :=
  match (Primitive.ofId? base).bind Primitive.arity? with
  | some arity => p.container base (List.replicate arity .any)
  | none => p.nominal base

/-! ## Texts -/

/-- Marks the last of several parameters as collecting. -/
def markLast : List String → List String
  | [] => []
  | [last] => ["..." ++ last]
  | text :: rest => text :: markLast rest

/-- The text of a signature nested at most `n` deep. -/
def textWithin (p : TypePool) : Nat → SigId → String
  | 0, _ => "<invalid>"
  | n + 1, s =>
      match p.get? s with
      | none => "<invalid>"
      | some .any => "Any"
      | some (.nominal base) => p.registry.text base
      | some (.container base arguments) =>
          p.registry.text base ++ "[" ++
            ", ".intercalate (arguments.map (textWithin p n)) ++ "]"
      | some (.union members) => " | ".intercalate (members.map (textWithin p n))
      | some (.invocable type) =>
          let parameters := type.parameters.map (textWithin p n)
          "(" ++ ", ".intercalate (if type.variadic then markLast parameters else parameters) ++
            ") -> " ++ textWithin p n type.returns

/-- The text of a signature. -/
def text (p : TypePool) (s : SigId) : String := p.textWithin (p.size + 1) s

end TypePool

end ScopeLang
