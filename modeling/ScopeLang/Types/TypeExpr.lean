/-
Written types.

A written type is bound to a signature in a pool.  A name without arguments
may stand for an alias; a name that nothing declares yet is declared by its
use.
-/
import ScopeLang.Types.Signature

namespace ScopeLang

/-- A type as it is written in a program. -/
inductive TypeExpr where
  | any
  | named (name : String) (arguments : List TypeExpr)
  | union (members : List TypeExpr)
  | invocable (parameters : List TypeExpr) (returns : TypeExpr) (variadic : Bool)
deriving Inhabited

namespace TypeExpr

/-- Whether the type is written as `Any`. -/
def isAny : TypeExpr → Bool
  | any => true
  | named name arguments => name == "Any" && arguments.isEmpty
  | _ => false

mutual

/-- The signature of a written type, where `alias?` gives the aliases in force. -/
def bind (alias? : String → Option SigId) : TypeExpr → TypePool → SigId × TypePool
  | any, p => (.any, p)
  | named name arguments, p =>
      if name == "Any" then (.any, p)
      else
        match arguments, alias? name with
        | [], some s => (s, p)
        | [], none =>
            let (base, p) := p.declare name
            p.bare base
        | arguments, _ =>
            let (base, p) := p.declare name
            let (ids, p) := bindAll alias? arguments p
            p.container base ids
  | union members, p =>
      let (ids, p) := bindAll alias? members p
      p.union ids
  | invocable parameters returns variadic, p =>
      let (ids, p) := bindAll alias? parameters p
      let (result, p) := bind alias? returns p
      p.invocable ⟨ids, parameters.map (!·.isAny), result, variadic⟩

/-- The signatures of several written types, bound in order. -/
def bindAll (alias? : String → Option SigId) : List TypeExpr → TypePool → List SigId × TypePool
  | [], p => ([], p)
  | t :: rest, p =>
      let (s, p) := bind alias? t p
      let (ids, p) := bindAll alias? rest p
      (s :: ids, p)

end

end TypeExpr

/-- The signature of an optional written type, `Any` where none is written. -/
def bindOptional (alias? : String → Option SigId) (t : Option TypeExpr) (p : TypePool) :
    SigId × TypePool :=
  match t with
  | some t => t.bind alias? p
  | none => (.any, p)

end ScopeLang
