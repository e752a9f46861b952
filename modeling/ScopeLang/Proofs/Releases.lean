/-
# Blocks and calls release their scopes

Code that comes to an end, with whatever result, leaves every list of children
as it has found it; code that is stopped in the middle has opened the scopes of
the blocks and calls that it is inside of, and no others.  This is a discipline
of the evaluator, `tree`, whose laws say what blocks, calls and everything else
do to the lists of children.  What is entered is left again, also when the code
inside has failed.

Of the bodies of the host it is assumed that they leave the tree of scopes alone.
-/
import ScopeLang.Proofs.Disciplines

namespace ScopeLang

/-! ## The discipline -/

/-- Where code comes to an end the tree of scopes is the same, where it is stopped some scopes
are open. -/
def tree : Discipline where
  Pre := World.Tidy
  Done := World.SameTree
  Stop w w' := ∃ opened, w.Opens opened w'
  Home s w := s.In w.count
  Body c w := c.In w.count
  Entered w s t w' := w.Enters s t w'

instance : Mild tree.Done := inferInstanceAs (Mild World.SameTree)

instance : tree.Lawful where
  toCalm := inferInstance
  pre same tidy := World.SameTree.tidy same tidy
  stopped tidy := ⟨[], .refl tidy⟩
  after := fun same tidy ⟨opened, opens⟩ => ⟨opened, .after same tidy opens⟩
  home same there := World.Retains.scopes (World.SameTree.toRetains same) there
  body same there := World.Retains.classes (World.SameTree.toRetains same) there
  bodyHome tidy there := World.Tidy.home tidy _ there
  holdPre none tidy := World.Tidy.holdScopeless tidy none
  holdHome there := there
  holdBody there := there
  holdDone same := World.SameTree.restore same
  holdStop := fun none ⟨opened, opens⟩ => ⟨opened, .hold none opens⟩
  block label there := World.enters_createChild there label
  function f there := World.enters_enter there (f.captured.getD _) (.inl rfl) _
  method i name there := World.enters_enterMethod there i name
  inside := fun {w s t w₁} (entered : w.Enters s t w₁) tidy => ⟨entered.tidy tidy, entered.there⟩
  leave entered tidy inside := World.Enters.leave entered tidy inside
  stopInside := fun entered tidy there ⟨opened, opens⟩ =>
    ⟨opened ++ [_], .inside entered tidy there opens⟩
  setVariable := World.within_setVariable
  setClassTable := World.within_setClassTable
  bindAlias name t _ := World.sameTree_bindAlias _ _ name t
  functionDefScope := World.sameTree_functionDefScope
  newFunction := World.within_newFunction
  newMethod := World.within_newMethod
  register := World.within_registerFunction
  addClass := World.within_addClass
  openClass w s d accessor :=
    ⟨w.within_openClass s d accessor, World.newClass_in _ _⟩
  makeInstance := World.within_makeInstance

/-- A host whose bodies leave the tree of scopes alone. -/
def Host.KeepsTree (host : Host) : Prop :=
  ∀ body call, Action.Within World.SameTree (host.run body call)

/-! ## Sessions -/

namespace Session

variable {D : Dialect} {s : Session}

/-- Between two acts of its host nothing is in progress and nothing is listed. -/
structure Idle (s : Session) : Prop where
  tidy : s.world.Tidy
  root : s.root.In s.world.count
  activations : s.world.activations = []
  children : ∀ t, (s.world.scope t).children = []

theorem idle_start (config : Config) (host : Host) : (start config host).Idle where
  tidy :=
    { child := fun t c hc => by
        rw [scope_start] at hc
        split at hc <;> exact absurd hc List.not_mem_nil
      held := fun t ht => by
        have root : t.cell = ⟨.scope, 0⟩ := List.mem_singleton.mp ht
        have first : t = (⟨0⟩ : ScopeId) := congrArg (fun c : Cell => (⟨c.index⟩ : ScopeId)) root
        exact first ▸ Nat.zero_lt_one
      home := fun c there => absurd there (vacant_start config host nofun nofun) }
  root := Nat.zero_lt_one
  activations := rfl
  children t := by
    rw [scope_start]
    split <;> rfl

theorem Reachable.idle (h : Reachable D s) (keeps : s.host.KeepsTree) : s.Idle := by
  have idle := idle_start s.config s.host
  have resting : ∀ config host, (Session.start config host).Rests tree := fun config host =>
    ⟨(idle_start config host).tidy, (idle_start config host).root⟩
  obtain ⟨⟨tidy, root⟩, same⟩ := h.done (J := tree) resting keeps
  have same : (Session.start s.config s.host).world.SameTree s.world := same
  exact
    { tidy
      root
      activations := (same.activations idle.tidy).trans idle.activations
      children := fun t => (same.children t).trans (idle.children t) }

/-- Once a program has come to an end, with a result or an error, no scope lists a child.  At
every moment before, the scopes that are listed are those of the blocks and the calls in
progress.  And there every statement that is interpreted in a scope leaves all lists as they are,
however it comes to its end. -/
theorem Reachable.releases (h : Reachable D s) (keeps : s.host.KeepsTree)
    (program : List Statement) (fuel : Nat) :
    ((s.run fuel program).1 ≠ .error .outOfFuel →
      ∀ t, ((s.run fuel program).2.world.scope t).children = []) ∧
    (s.reached fuel program).world.Stacked ∧
    ∀ (n : Nat) (statement : Statement) (f : Frame) (m : Machine),
      m.world = (s.reached fuel program).world → f.scope.In m.world.count →
      ((knot s.config s.host n).interpret statement f m).1 ≠ .error .outOfFuel →
      ∀ t, (((knot s.config s.host n).interpret statement f m).2.world.scope t).children =
        (m.world.scope t).children := by
  have idle := h.idle keeps
  have rests : s.Rests tree := ⟨idle.tidy, idle.root⟩
  have knotted : ∀ n, (knot s.config s.host n).Keeps tree := knot_keeps s.config keeps
  obtain ⟨opened, opens⟩ : ∃ opened, s.world.Opens opened (s.reached fuel program).world :=
    rests.stop_reached keeps program fuel
  refine ⟨fun done t => ?_, opens.stacked idle.activations idle.children, ?_⟩
  · have same : s.world.SameTree (s.run fuel program).2.world :=
      rests.done_perform (Knot.keeps_programFrom (knotted fuel) s.root program .null) done
    rw [same.children, idle.children]
  · intro n statement f m moment there done t
    have step := (knotted n).interpret statement f m (moment ▸ opens.tidy) there
    generalize (knot s.config s.host n).interpret statement f m = made at step done ⊢
    obtain ⟨result, m'⟩ := made
    match result with
    | .ok x => exact World.SameTree.children step t
    | .error (.error e) => exact World.SameTree.children step t
    | .error .outOfFuel => exact absurd rfl done

end Session

/-! ## A moment inside a call -/

/-- The bodies of the kit leave the tree of scopes alone. -/
theorem Kit.host_keepsTree : Kit.host.KeepsTree := Kit.within_host

/-- A program that calls a function, which comes to a block and fails inside of it. -/
def failsInBlock : List Statement :=
  [⟨.function (closureNamed "f" [⟨.block [declaring "y" (.literal (.int 1)),
      declaring "z" (.variable "missing")], Span.none⟩]), Span.none⟩,
    ⟨.expression (.ofTerm (.call "f" [])), Span.none⟩]

/-- A session that runs it, and the world inside of the block. -/
def failing : Session := .start {} Kit.host

def inBlock : World := (failing.reached 12 failsInBlock).world

/-- Inside of the block the scopes of the block and of the call are listed, and a block that is
run there leaves them listed.  Once the call has failed, nothing is listed. -/
theorem releases_failsInBlock :
    (inBlock.activations = [⟨3⟩, ⟨2⟩] ∧ inBlock.Stacked) ∧
    (wants "missing" (failing.run 20 failsInBlock).1 = true ∧
      ((failing.run 20 failsInBlock).2.world.scope failing.root).children = []) ∧
    (((knot {} Kit.host 5).interpret ⟨.block [], Span.none⟩ ⟨⟨3⟩, none⟩
      ⟨inBlock, 5, []⟩).2.world.scope ⟨2⟩).children = [⟨3⟩] := by
  have reachable : Session.Reachable (.full fun _ => True) failing := .start {} Kit.host
  obtain ⟨-, stacked, keeps⟩ :=
    Session.Reachable.releases reachable Kit.host_keepsTree failsInBlock 12
  obtain ⟨empties, -, -⟩ := Session.Reachable.releases reachable Kit.host_keepsTree failsInBlock 20
  have failed : wants "missing" (failing.run 20 failsInBlock).1 = true := by decide +kernel
  have ended : ((knot {} Kit.host 5).interpret ⟨.block [], Span.none⟩ ⟨⟨3⟩, none⟩
      ⟨inBlock, 5, []⟩).1.isOk = true := by decide +kernel
  refine ⟨⟨by decide +kernel, stacked⟩, ⟨failed, empties (fun e => ?_) _⟩, ?_⟩
  · rw [e] at failed
    exact absurd failed Bool.false_ne_true
  · have listed : (inBlock.scope ⟨2⟩).children = [⟨3⟩] := by decide +kernel
    refine (keeps 5 ⟨.block [], Span.none⟩ ⟨⟨3⟩, none⟩ ⟨inBlock, 5, []⟩ rfl (by decide +kernel)
      (fun e => ?_) ⟨2⟩).trans listed
    have halted : ((knot {} Kit.host 5).interpret ⟨.block [], Span.none⟩ ⟨⟨3⟩, none⟩
      ⟨inBlock, 5, []⟩).1 = .error .outOfFuel := e
    rw [halted] at ended
    exact absurd ended Bool.false_ne_true

end ScopeLang
