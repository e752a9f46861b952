/-
Choosing an overload.

The candidates that the arguments bind to and match are ranked: typed ones
before closures, then by score, then by lower cost.  The call goes to the
candidate of the highest rank if there is exactly one.
-/
import ScopeLang.Call.Arguments

namespace ScopeLang

/-- The overload that a call goes to, with its bound arguments. -/
structure Resolution where
  overload : Overload
  slots : List (Slot Value)
deriving Inhabited

/-- How a candidate compares with others. -/
structure Rank where
  typed : Bool
  fit : Fit
deriving DecidableEq, Inhabited

/-- Whether a rank is strictly above another. -/
def Rank.above (a b : Rank) : Bool :=
  (a.typed && !b.typed) || (a.typed == b.typed && a.fit.better b.fit)

/-- A candidate that accepts the arguments. -/
structure Viable where
  rank : Rank
  resolution : Resolution
deriving Inhabited

/-- What comes of one candidate. -/
inductive Verdict where
  | unbound (reason : BindingFailure)
  | rejected
  | viable (candidate : Viable)
deriving Inhabited

namespace Verdict

def viable? : Verdict → Option Viable
  | viable candidate => some candidate
  | _ => none

end Verdict

namespace World

/-- The type of an overload. -/
def invocable (w : World) (o : Overload) : Invocable :=
  let parameters := w.parameters o.callable
  { parameters := parameters.map ParameterSpec.signature
    enforced := parameters.map ParameterSpec.enforced
    returns := (w.returns? o.callable).getD .any
    variadic := isVariadic parameters }

/-- Examines one candidate; a typed one has its type interned. -/
def examine (w : World) (options : MatchOptions) (arguments : CallArguments) (o : Overload)
    (pool : TypePool) : Verdict × TypePool :=
  match bindArguments (w.parameters o.callable) arguments with
  | .error reason => (.unbound reason, pool)
  | .ok slots =>
      if o.isClosure then (.viable ⟨⟨false, .empty⟩, ⟨o, slots⟩⟩, pool)
      else
        let (type, pool) := pool.invocable (w.invocable o)
        match pool.fitCall options type (slots.map (Slot.map w.valueType)) with
        | some fit => (.viable ⟨⟨true, fit⟩, ⟨o, slots⟩⟩, pool)
        | none => (.rejected, pool)

/-- Examines the candidates in order. -/
def examineAll (w : World) (options : MatchOptions) (arguments : CallArguments) :
    List Overload → TypePool → List Verdict × TypePool
  | [], pool => ([], pool)
  | o :: rest, pool =>
      let (verdict, pool) := w.examine options arguments o pool
      let (verdicts, pool) := examineAll w options arguments rest pool
      (verdict :: verdicts, pool)

end World

/-- The candidates that no other one is above. -/
def highest (candidates : List Viable) : List Viable :=
  candidates.filter fun c => candidates.all fun d => !d.rank.above c.rank

/-- The choice among examined candidates. -/
def choose (name : String) (verdicts : List Verdict) : Except ErrorKind Resolution :=
  match highest (verdicts.filterMap Verdict.viable?) with
  | [winner] => .ok winner.resolution
  | [] =>
      match verdicts with
      | [.unbound reason] => .error (.argumentBinding name reason)
      | _ => .error (.noMatchingOverload name verdicts.length)
  | winners => .error (.ambiguousOverload name winners.length)

/-- The overload of `name` that a call goes to. -/
def World.resolveOverload (w : World) (options : MatchOptions) (name : String)
    (candidates : List Overload) (arguments : CallArguments) (pool : TypePool) :
    Except ErrorKind Resolution × TypePool :=
  if candidates.isEmpty then (.error (.functionNotFound name), pool)
  else
    let (verdicts, pool) := w.examineAll options arguments candidates pool
    (choose name verdicts, pool)

end ScopeLang
