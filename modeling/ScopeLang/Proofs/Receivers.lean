/-
# Receivers

A method runs against the instance that it is called on, and under a bare name
against the receiver of the code that calls it.  Nobody compares the class of the
receiver with the class of the method.  They agree where the method was found
in the table of the receiver; elsewhere the method may have come along the chain
of the callers, or in a variable, from a class of another kind.

`AptCalls` states this for the whole stack of invocations.  Each of them only has to
know the one below it.
-/
import ScopeLang.Proofs.Hosts
import ScopeLang.Proofs.Kinship

namespace ScopeLang

variable {D : Dialect} {w w' : World}

/-! ## Invocations and their receivers -/

namespace World

/-- An invocation of a method runs against an instance of the class that defined it. -/
def ReceiverFits (w : World) (i : Invocation) : Prop :=
  match i.callable, i.receiver with
  | .method h, some r => (w.inst r).classId = (w.method h).classId
  | .method _, none => False
  | .function _, _ | .classObject _, _ => True

instance (w : World) : ∀ i : Invocation, Decidable (w.ReceiverFits i)
  | ⟨_, .method h, some r⟩ =>
      inferInstanceAs (Decidable ((w.inst r).classId = (w.method h).classId))
  | ⟨_, .method _, none⟩ => inferInstanceAs (Decidable False)
  | ⟨_, .function _, _⟩ | ⟨_, .classObject _, _⟩ => inferInstanceAs (Decidable True)

/-- An invocation of a method: one that was found in the table of its receiver fits, any other
one has the receiver of the invocation below. -/
structure Apt (w : World) (i : Invocation) (below : Option Invocation) : Prop where
  /-- The method and its receiver are there. -/
  there : ∀ h, i.callable = .method h → h.In w.count ∧ ∃ r, i.receiver = some r ∧ r.In w.count
  member : i.access = .member → w.ReceiverFits i
  running : i.access ≠ .member → ∀ h, i.callable = .method h →
    i.receiver = below.bind Invocation.receiver

/-- A stack of invocations that fit one on the other. -/
def AptCalls (w : World) : List Invocation → Prop
  | [] => True
  | i :: below => w.Apt i below.head? ∧ w.AptCalls below

theorem ReceiverFits.later (g : w.Grows w') {i : Invocation}
    (there : ∀ h, i.callable = .method h → h.In w.count ∧ ∃ r, i.receiver = some r ∧ r.In w.count)
    (fits : w.ReceiverFits i) : w'.ReceiverFits i := by
  obtain ⟨access, callable, receiver⟩ := i
  cases callable with
  | method h =>
    obtain ⟨hh, r, e, hr⟩ := there h rfl
    obtain rfl : receiver = some r := e
    have classId : (w.inst r).classId = (w.method h).classId := fits
    show (w'.inst r).classId = (w'.method h).classId
    rw [g.classId hr, g.method hh, classId]
  | function h => exact trivial
  | classObject h => exact trivial

theorem Apt.later (g : w.Grows w') {i : Invocation} {below : Option Invocation}
    (apt : w.Apt i below) : w'.Apt i below where
  there h e := by
    obtain ⟨hh, r, er, hr⟩ := apt.there h e
    exact ⟨hh.mono g.count, r, er, hr.mono g.count⟩
  member e := (apt.member e).later g apt.there
  running := apt.running

theorem AptCalls.later (g : w.Grows w') :
    ∀ {calls : List Invocation}, w.AptCalls calls → w'.AptCalls calls
  | [], _ => trivial
  | _ :: _, ⟨apt, below⟩ => ⟨apt.later g, below.later g⟩

/-- What code can invoke is apt on the stack of this code. -/
theorem Kin.apt (kin : w.Kin D) {f : Frame} (hf : f.In w.count) {i : Invocation}
    {below : Option Invocation} (running : ∀ r, f.receiver = some r →
      below.bind Invocation.receiver = some r) (h : w.Invokes f i) : w.Apt i below := by
  cases h with
  | function access hh => exact ⟨nofun, fun _ => trivial, nofun⟩
  | @member h r o hh hr listed e =>
    refine ⟨fun g eg => ⟨Callable.method.inj eg ▸ hh, r, rfl, hr⟩, fun _ => ?_,
      fun other => absurd rfl other⟩
    have member := kin.homeMembers hr o listed
    rw [e] at member
    exact member.symm
  | @method access h r other hh er =>
    refine ⟨fun g eg => ⟨Callable.method.inj eg ▸ hh, r, rfl, hf.receiver r er⟩,
      fun member => absurd member other, fun _ _ _ => ?_⟩
    exact (running r er).symm

end World

/-! ## The invariant -/

/-- The stack is apt, and code with a receiver has the one of the innermost invocation. -/
structure Receivers (f : Frame) (calls : List Invocation) (w : World) : Prop where
  apt : w.AptCalls calls
  running : ∀ r, f.receiver = some r → calls.head?.bind Invocation.receiver = some r

theorem receivers_invariant :
    Invariant D fun f calls w => w.Kin D ∧ Receivers f calls w where
  step ready i h := by
    have g := (h.kept ready.sound ready.frame.scope).2
    exact ⟨h.kin ready.sound ready.frame.scope i.1, i.2.apt.later g, i.2.running⟩
  enter ready i h := by
    have kin := kin_invariant.enter ready i.1 h
    have g := (h.kept ready).2
    refine ⟨kin, ?_⟩
    cases h with
    | scope label _ => exact ⟨i.2.apt.later g, i.2.running⟩
    | classBody => exact ⟨i.2.apt.later g, nofun⟩
    | invocation invokes =>
      exact ⟨⟨i.1.apt ready.frame i.2.running invokes, i.2.apt⟩, nofun⟩
    | receiver head _ =>
      refine ⟨i.2.apt, fun r hr => ?_⟩
      rw [head]
      exact hr
  leave ready i h g ready' i' := by
    have g' := (h.kept ready).2
    exact ⟨i'.1, i.2.apt.later (g'.trans g), i.2.running⟩

theorem receivers_start (config : Config) (host : Host) :
    (Session.start config host).world.Kin D ∧
      Receivers (Session.start config host).frame [] (Session.start config host).world :=
  ⟨kin_start config host, trivial, nofun⟩

/-! ## Reached stacks -/

/-- The tables of a class and of its instances list members of this class only. -/
def World.OwnMembers (w : World) : Prop :=
  (∀ c, c.In w.count → w.ListsMembersOf (w.classOf c).scope c) ∧
    ∀ i, i.In w.count → w.ListsMembersOf (w.inst i).scope (w.inst i).classId

/-- At every moment of every program, all invocations in progress are apt, and the methods in the
tables of instances and classes are their own. -/
theorem Session.Reachable.aptCalls {natives : String → Prop} {s : Session}
    (h : s.Reachable (.full natives)) (obeys : s.host.Obeys (.full natives)) (fuel : Nat)
    (program : List Statement) :
    (s.reached fuel program).world.AptCalls (s.reached fuel program).calls ∧
      (s.reached fuel program).world.OwnMembers := by
  have marks := Dialect.admits_of_sharing (D := .full natives) trivial (blockMarks program)
  obtain ⟨f, -, kin, receivers⟩ :=
    h.reached receivers_invariant receivers_start obeys marks fuel
  exact ⟨receivers.apt, fun c hc => kin.classMembers hc, fun i hi => kin.homeMembers hi⟩

/-! ## A borrowed method -/

/-- A method without parameters. -/
def methodNamed (name : String) (body : List Statement) : Statement :=
  ⟨.function ⟨name, .function, [], none, body⟩, Span.none⟩

/-- A statement that returns the value of a term. -/
def returning (t : Term) : Statement := ⟨.return (some (.ofTerm t)), Span.none⟩

/-- A program in which `A().run()` calls `B().go()`, which calls `who()`, a method of `A` that is
in sight along the chain of the callers. -/
def borrowedMethod : List Statement :=
  [⟨.classDef ⟨"A", none,
      [methodNamed "construct" [], methodNamed "who" [returning .receiver],
        methodNamed "run" [returning (.chain .scope [.call "B" [], .call "go" []])]]⟩, Span.none⟩,
    ⟨.classDef ⟨"B", none,
      [methodNamed "construct" [], methodNamed "go" [returning (.call "who" [])]]⟩, Span.none⟩,
    ⟨.expression (.ofTerm (.chain .scope [.call "A" [], .call "run" []])), Span.none⟩]

/-- While `who` runs, its receiver is an instance of `B`. -/
theorem not_receiverFits_borrowedMethod :
    ¬ ∀ i ∈ ((Session.start {} Kit.host).reached 33 borrowedMethod).calls,
      ((Session.start {} Kit.host).reached 33 borrowedMethod).world.ReceiverFits i := by
  decide +kernel

/-- The same stack of three invocations is apt. -/
theorem aptCalls_borrowedMethod :
    ((Session.start {} Kit.host).reached 33 borrowedMethod).calls.length = 3 ∧
      ((Session.start {} Kit.host).reached 33 borrowedMethod).world.AptCalls
          ((Session.start {} Kit.host).reached 33 borrowedMethod).calls ∧
        ((Session.start {} Kit.host).reached 33 borrowedMethod).world.OwnMembers :=
  have obeys : Kit.host.Obeys (.full fun _ => True) := Kit.host_obeys fun _ _ => .inl trivial
  ⟨by decide +kernel, Session.Reachable.aptCalls (.start {} Kit.host) obeys 33 borrowedMethod⟩

end ScopeLang
