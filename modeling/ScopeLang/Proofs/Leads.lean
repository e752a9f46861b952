/-
# Where actions and runs lead

Two judgements tie the evaluator to the steps.  `Acts D s a Q w` says that the
action `a`, done in `w` by code that runs in scope `s`, is a sequence of steps and
that its result, if it has one, satisfies `Q`.  `Leads D f r Q m` says that the
run `r`, in frame `f` on machine `m`,

* with a result or an error has left every frame it entered, and a result
  satisfies `Q`;
* without fuel stopped at a moment that code in `f` reaches;
* with more fuel comes to the same, or goes on from that moment to what comes later
  (`Extends`).

Each construct out of which actions and runs are put together has a rule.  The
continuation of a sequence is judged in any later world that is sound, so
that the rules never mention the steps in between.
-/
import ScopeLang.Proofs.Kept
import Mathlib.Logic.Relation

namespace ScopeLang

variable {D : Dialect} {α β : Type}

/-! ## Sequences of steps -/

/-- A sequence of steps of code that runs in one scope. -/
abbrev Steps (D : Dialect) (s : ScopeId) : World → World → Prop := Relation.ReflTransGen (Step D s)

theorem Steps.kept {s : ScopeId} {w w' : World} (h : Steps D s w w') (sound : Sound D w)
    (hs : s.In w.count) : Sound D w' ∧ w.Grows w' := by
  induction h with
  | refl => exact ⟨sound, .refl w⟩
  | tail _ step ih =>
    obtain ⟨sound', g⟩ := ih
    obtain ⟨sound'', g'⟩ := step.kept sound' (hs.mono g.count)
    exact ⟨sound'', g.trans g'⟩

theorem Steps.trace {f : Frame} {calls : List Invocation} {w w' : World}
    (h : Steps D f.scope w w') : Trace D f calls w w' := by
  induction h with
  | refl => exact .refl
  | tail _ step ih => exact ih.trans (.one step)

/-! ## What comes later -/

/-- The worlds that come after a world: code takes steps in scopes that are there, and enters
new ones under them. -/
inductive World.Later (D : Dialect) (w : World) : World → Prop
  | refl : Later D w w
  | step {s : ScopeId} {w₁ w₂ : World} : Later D w w₁ → s.In w₁.count → Step D s w₁ w₂ →
      Later D w w₂
  | enter {s : ScopeId} {w₁ : World} (kind : ScopeKind) (label : String) : Later D w w₁ →
      s.In w₁.count → Later D w (w₁.makeCallScope s kind label).2

namespace World.Later

variable {w w' : World} {s : ScopeId}

theorem kept (h : w.Later D w') (sound : Sound D w) : Sound D w' ∧ w.Grows w' := by
  induction h with
  | refl => exact ⟨sound, .refl w⟩
  | step _ hs step ih =>
    obtain ⟨sound, g⟩ := ih
    obtain ⟨sound', g'⟩ := step.kept sound hs
    exact ⟨sound', g.trans g'⟩
  | @enter s w₁ kind label _ hs ih =>
    obtain ⟨sound, g⟩ := ih
    exact ⟨sound.derive _ _ _ _ fun _ hp => Option.some.inj hp ▸ hs,
      g.trans (w₁.grows_derive _ _ _ _)⟩

theorem trans {w₁ w₂ : World} (h : w.Later D w₁) (i : w₁.Later D w₂) : w.Later D w₂ := by
  induction i with
  | refl => exact h
  | step _ hs step ih => exact .step ih hs step
  | enter kind label _ hs ih => exact .enter kind label ih hs

theorem of_steps (h : Steps D s w w') (sound : Sound D w) (hs : s.In w.count) : w.Later D w' := by
  induction h with
  | refl => exact .refl
  | tail steps step ih => exact .step ih (hs.mono (Steps.kept steps sound hs).2.count) step

end World.Later

theorem Enter.later {f f' : Frame} {calls calls' : List Invocation} {w w' : World}
    (h : Enter f calls w f' calls' w') (hs : f.scope.In w.count) : w.Later D w' := by
  cases h with
  | scope label _ => exact .enter _ label .refl hs
  | classBody name accessor home hides =>
    exact .step .refl hs (.newClass name accessor home (.inl ⟨rfl, hides⟩))
  | invocation => exact .refl
  | receiver => exact .refl

/-- Whatever code in a frame leads to comes later. -/
theorem Trace.later {f : Frame} {calls : List Invocation} {w w' : World} (h : Trace D f calls w w') :
    Ready D f calls w → w.Later D w' := by
  induction h with
  | refl => exact fun _ => .refl
  | step step _ ih =>
    intro ready
    obtain ⟨sound, g⟩ := step.kept ready.sound ready.frame.scope
    exact (World.Later.step .refl ready.frame.scope step).trans (ih (ready.later sound g))
  | inner enter trace _ ih ih' =>
    intro ready
    obtain ⟨inside, g⟩ := enter.kept ready
    obtain ⟨sound, g'⟩ := trace.kept inside
    exact ((enter.later ready.frame.scope).trans (ih inside)).trans
      (ih' (ready.later sound (g.trans g')))

theorem Reach.later {f f' : Frame} {calls calls' : List Invocation} {w w' : World}
    (h : Reach D f calls w f' calls' w') : Ready D f calls w → w.Later D w' := by
  induction h with
  | here trace => exact trace.later
  | inside trace enter _ ih =>
    intro ready
    have inside := trace.ready ready
    exact ((trace.later ready).trans (enter.later inside.frame.scope)).trans
      (ih (enter.kept inside).1)

/-! ## Actions -/

theorem Action.runIn_consult (f : World → Except ErrorKind α) (w : World) :
    (Action.consult f).runIn w =
      (match f w with
      | .ok x => (Pure.pure x : Action α)
      | .error k => MonadExcept.throw k).runIn w := rfl

/-- An action that is a sequence of steps and whose result satisfies `Q`. -/
def Acts (D : Dialect) (s : ScopeId) (a : Action α) (Q : α → World → Prop) (w : World) : Prop :=
  Sound D w → s.In w.count →
    Steps D s w (a.runIn w).2 ∧ ∀ x, (a.runIn w).1 = .ok x → Q x (a.runIn w).2

namespace Acts

variable {s : ScopeId} {w : World} {Q : α → World → Prop}

/-- What is true where the action is done may be assumed of it. -/
theorem assume {a : Action α} (h : Sound D w → s.In w.count → Acts D s a Q w) : Acts D s a Q w :=
  fun sound hs => h sound hs sound hs

theorem pure {x : α} (h : Q x w) : Acts D s (Pure.pure x) Q w :=
  fun _ _ => ⟨.refl, fun _ e => Except.ok.inj e ▸ h⟩

theorem throw {k : ErrorKind} : Acts D s (throw k : Action α) Q w :=
  fun _ _ => ⟨.refl, fun _ e => absurd e nofun⟩

theorem look {f : World → α} (h : Sound D w → Q (f w) w) : Acts D s (Action.look f) Q w :=
  fun sound _ => ⟨.refl, fun _ e => Except.ok.inj e ▸ h sound⟩

theorem consult {f : World → Except ErrorKind α} (h : Sound D w → ∀ x, f w = .ok x → Q x w) :
    Acts D s (Action.consult f) Q w := by
  intro sound _
  rw [Action.runIn_consult]
  cases e : f w with
  | ok x => exact ⟨.refl, fun _ e' => Except.ok.inj e' ▸ h sound x e⟩
  | error k => exact ⟨.refl, fun _ e' => absurd e' nofun⟩

theorem change {f : World → α × World} (h : Sound D w → s.In w.count → Steps D s w (f w).2)
    (q : Sound D w → s.In w.count → Q (f w).1 (f w).2) : Acts D s (Action.change f) Q w :=
  fun sound hs => ⟨h sound hs, fun _ e => Except.ok.inj e ▸ q sound hs⟩

theorem modify {f : World → World} {Q : Unit → World → Prop}
    (h : Sound D w → s.In w.count → Steps D s w (f w)) (q : Sound D w → s.In w.count → Q () (f w)) :
    Acts D s (modify f) Q w :=
  change (f := fun w => ((), f w)) h q

theorem bind {a : Action α} {k : α → Action β} {R : β → World → Prop} (h : Acts D s a Q w)
    (cont : ∀ x w', Sound D w' → w.Grows w' → Q x w' → Acts D s (k x) R w') :
    Acts D s (a >>= k) R w := by
  intro sound hs
  obtain ⟨steps, q⟩ := h sound hs
  obtain ⟨sound', g⟩ := steps.kept sound hs
  have run : (a >>= k).runIn w = ExceptT.bindCont k (a.runIn w).1 (a.runIn w).2 := rfl
  rw [run]
  cases e : a.runIn w with
  | mk result w' =>
    rw [e] at steps q sound' g
    cases result with
    | ok x =>
      obtain ⟨steps', r⟩ := cont x w' sound' g (q x rfl) sound' (hs.mono g.count)
      exact ⟨steps.trans steps', r⟩
    | error _ => exact ⟨steps, fun _ e => absurd e nofun⟩

end Acts

/-! ## Runs -/

namespace Run

theorem bind_apply (r : Run α) (k : α → Run β) (m : Machine) :
    (r >>= k) m = ExceptT.bindCont k (r m).1 (r m).2 := rfl

theorem mapError_apply (g : RuntimeError → RuntimeError) (r : Run α) (m : Machine) :
    mapError g r m = match r m with
      | (.ok x, m') => (.ok x, m')
      | (.error (.error e), m') => (.error (.error (g e)), m')
      | (.error .outOfFuel, m') => (.error .outOfFuel, m') := by
  simp only [mapError, tryCatch, tryCatchThe, MonadExceptOf.tryCatch, ExceptT.tryCatch,
    ExceptT.mk, Bind.bind, StateT.bind]
  generalize r m = made
  obtain ⟨result, m'⟩ := made
  match result with
  | .ok x => rfl
  | .error (.error e) => rfl
  | .error .outOfFuel => rfl

end Run

/-- Runs of code in a frame on the machine `m`: one that comes back to its frame with a result for
which `Q` holds, or comes back with an error, or is stopped at a moment that it reaches. -/
def Led (D : Dialect) (f : Frame) (Q : α → World → Prop) (m : Machine) :
    Except Halt α × Machine → Prop
  | (.ok x, m') => Trace D f m.calls m.world m'.world ∧ m'.calls = m.calls ∧ Q x m'.world
  | (.error (.error _), m') => Trace D f m.calls m.world m'.world ∧ m'.calls = m.calls
  | (.error .outOfFuel, m') => ∃ f', Reach D f m.calls m.world f' m'.calls m'.world

/-- What a run comes to with some more fuel.  It comes to the same, with as much more fuel left
over; or it goes on where it was stopped. -/
inductive Extends (D : Dialect) (more : Nat) :
    Except Halt α × Machine → Except Halt α × Machine → Prop
  | result {x : α} {m : Machine} :
      Extends D more (.ok x, m) (.ok x, { m with fuel := m.fuel + more })
  | error {e : RuntimeError} {m : Machine} :
      Extends D more (.error (.error e), m) (.error (.error e), { m with fuel := m.fuel + more })
  | stopped {ending : Except Halt α} {m m' : Machine} : m.world.Later D m'.world →
      Extends D more (.error .outOfFuel, m) (ending, m')

namespace Led

variable {f : Frame} {m : Machine} {Q : α → World → Prop} {p : Except Halt α × Machine}

/-- Whatever a run comes to, it has got there from where it started. -/
theorem reach (h : Led D f Q m p) : ∃ f', Reach D f m.calls m.world f' p.2.calls p.2.world := by
  obtain ⟨result, m'⟩ := p
  match result with
  | .ok x =>
    obtain ⟨trace, calls, -⟩ := h
    refine ⟨f, ?_⟩
    rw [calls]
    exact .here trace
  | .error (.error e) =>
    obtain ⟨trace, calls⟩ := h
    refine ⟨f, ?_⟩
    rw [calls]
    exact .here trace
  | .error .outOfFuel => exact h

theorem later (h : Led D f Q m p) (ready : Ready D f m.calls m.world) :
    m.world.Later D p.2.world := by
  obtain ⟨f', reach⟩ := h.reach
  exact reach.later ready

/-- What is left is sound, and has what there was. -/
theorem kept (h : Led D f Q m p) (ready : Ready D f m.calls m.world) :
    Sound D p.2.world ∧ m.world.Grows p.2.world :=
  (h.later ready).kept ready.sound

/-- The run has started earlier, in the same frame. -/
theorem after {m' : Machine} (h : Led D f Q m' p) (trace : Trace D f m.calls m.world m'.world)
    (calls : m'.calls = m.calls) : Led D f Q m p := by
  obtain ⟨result, m''⟩ := p
  simp only [Led, calls] at h ⊢
  match result with
  | .ok x => exact ⟨trace.trans h.1, h.2⟩
  | .error (.error e) => exact ⟨trace.trans h.1, h.2⟩
  | .error .outOfFuel =>
    obtain ⟨f', reach⟩ := h
    exact ⟨f', trace.reach reach⟩

/-- The frame has been entered from another one, which the run comes back to. -/
theorem inside {f' : Frame} {m' : Machine} (h : Led D f' Q m' p)
    (e : Enter f m.calls m.world f' m'.calls m'.world) (calls : m'.calls = m.calls) :
    Led D f Q m p := by
  obtain ⟨result, m''⟩ := p
  simp only [Led, calls] at e h ⊢
  match result with
  | .ok x => exact ⟨.inner e h.1 .refl, h.2⟩
  | .error (.error _) => exact ⟨.inner e h.1 .refl, h.2⟩
  | .error .outOfFuel =>
    obtain ⟨f'', reach⟩ := h
    exact ⟨f'', .inside .refl e reach⟩

/-- What follows on a result is led from where the run has left the machine. -/
theorem bind {m₀ : Machine} {r : Run α} {k : α → Run β} {R : β → World → Prop}
    (h : Led D f Q m (r m₀))
    (next : ∀ x m', r m₀ = (.ok x, m') → Led D f R m' ((k x : Run β) m')) :
    Led D f R m ((r >>= k) m₀) := by
  rw [Run.bind_apply]
  generalize r m₀ = made at h next ⊢
  obtain ⟨result, m'⟩ := made
  match result with
  | .ok x => exact (next x m' rfl).after h.1 h.2.1
  | .error (.error e) => exact h
  | .error .outOfFuel => exact h

theorem mapError {m₀ : Machine} {r : Run α} {g : RuntimeError → RuntimeError}
    (h : Led D f Q m (r m₀)) : Led D f Q m (Run.mapError g r m₀) := by
  rw [Run.mapError_apply]
  generalize r m₀ = made at h ⊢
  obtain ⟨result, m'⟩ := made
  match result with
  | .ok x => exact h
  | .error (.error e) => exact h
  | .error .outOfFuel => exact h

/-- A change that is made in the end brings the machine back to the frame. -/
theorem andFinally {f' : Frame} {m₀ m' : Machine} {r : Run α} {change : Machine → Machine}
    {R : α → World → Prop} (h : Led D f' Q m' (r m₀))
    (back : (r m₀).2.calls = m'.calls → Trace D f' m'.calls m'.world (r m₀).2.world →
      Trace D f m.calls m.world (change (r m₀).2).world ∧ (change (r m₀).2).calls = m.calls)
    (stop : ∀ f'' calls w, Reach D f' m'.calls m'.world f'' calls w →
      Reach D f m.calls m.world f'' calls w)
    (closed : ∀ x, Q x (r m₀).2.world → R x (change (r m₀).2).world) :
    Led D f R m (Run.andFinally r change m₀) := by
  rw [Run.andFinally]
  generalize r m₀ = made at h back closed ⊢
  obtain ⟨result, m₁⟩ := made
  match result with
  | .ok x =>
    obtain ⟨trace, calls, q⟩ := h
    obtain ⟨trace, calls⟩ := back calls trace
    exact ⟨trace, calls, closed x q⟩
  | .error (.error e) => exact back h.2 h.1
  | .error .outOfFuel =>
    obtain ⟨f'', reach⟩ := h
    exact ⟨f'', stop f'' _ _ reach⟩

end Led

/-- What comes of a run and what follows on its result. -/
theorem World.Later.bind {w : World} {r : Run α} {k : α → Run β} {m : Machine}
    (h : w.Later D (r m).2.world)
    (next : ∀ x m', r m = (.ok x, m') → m'.world.Later D ((k x : Run β) m').2.world) :
    w.Later D ((r >>= k) m).2.world := by
  rw [Run.bind_apply]
  generalize r m = p at h next ⊢
  obtain ⟨_ | x, m'⟩ := p
  · exact h
  · exact h.trans (next x m' rfl)

namespace Extends

variable {more : Nat} {r : Run α} {m m₁ : Machine}

theorem later {p q : Except Halt α × Machine} (h : Extends D more p q) :
    p.2.world.Later D q.2.world := by
  cases h with
  | result | error => exact .refl
  | stopped since => exact since

theorem of_ended {p q : Except Halt α × Machine} (h : Extends D more p q)
    (ended : p.1 ≠ .error .outOfFuel) : q.1 = p.1 ∧ q.2.world = p.2.world := by
  cases h with
  | result | error => exact ⟨rfl, rfl⟩
  | stopped => exact absurd rfl ended

/-- What follows on a result goes on from it. -/
theorem bind {k : α → Run β} (h : Extends D more (r m) (r m₁))
    (next : ∀ x m', r m = (.ok x, m') →
      Extends D more (k x m') (k x { m' with fuel := m'.fuel + more }))
    (later : ∀ x m', r m₁ = (.ok x, m') → m'.world.Later D ((k x : Run β) m').2.world) :
    Extends D more ((r >>= k) m) ((r >>= k) m₁) := by
  rw [Run.bind_apply, Run.bind_apply]
  generalize r m = p at h next ⊢
  generalize r m₁ = q at h later ⊢
  cases h with
  | result => exact next _ _ rfl
  | error => exact .error
  | @stopped ending _ m' since =>
    cases ending with
    | ok x => exact .stopped (since.trans (later x m' rfl))
    | error _ => exact .stopped since

/-- A change that is made in the end of what has come to an end. -/
theorem andFinally {change : Machine → Machine} (h : Extends D more (r m) (r m₁))
    (spares : ∀ m', change { m' with fuel := m'.fuel + more } =
      { change m' with fuel := (change m').fuel + more })
    (later : (r m₁).2.world.Later D (change (r m₁).2).world) :
    Extends D more (Run.andFinally r change m) (Run.andFinally r change m₁) := by
  simp only [Run.andFinally]
  generalize r m = p at h ⊢
  generalize r m₁ = q at h later ⊢
  cases h with
  | @result x m =>
    show Extends D more (.ok x, change m) (.ok x, change { m with fuel := m.fuel + more })
    rw [spares]
    exact .result
  | @error e m =>
    show Extends D more (.error (.error e), change m)
      (.error (.error e), change { m with fuel := m.fuel + more })
    rw [spares]
    exact .error
  | @stopped ending _ m' since =>
    obtain (_ | _) | x := ending
    · exact .stopped (since.trans later)
    · exact .stopped since
    · exact .stopped (since.trans later)

theorem mapError {g : RuntimeError → RuntimeError} (h : Extends D more (r m) (r m₁)) :
    Extends D more (Run.mapError g r m) (Run.mapError g r m₁) := by
  rw [Run.mapError_apply, Run.mapError_apply]
  generalize r m = p at h ⊢
  generalize r m₁ = q at h ⊢
  cases h with
  | result => exact .result
  | error => exact .error
  | @stopped ending _ m' since =>
    obtain (_ | _) | x := ending <;> exact .stopped since

end Extends

/-- A run that is led wherever its fuel takes it, and with more fuel goes on to what comes later. -/
def Leads (D : Dialect) (f : Frame) (r : Run α) (Q : α → World → Prop) (m : Machine) : Prop :=
  Ready D f m.calls m.world → ∀ fuel, Led D f Q m (r { m with fuel }) ∧
    ∀ more, Extends D more (r { m with fuel }) (r { m with fuel := fuel + more })

namespace Leads

variable {f : Frame} {m : Machine} {Q : α → World → Prop} {R : β → World → Prop}

theorem led {r : Run α} (h : Leads D f r Q m) (ready : Ready D f m.calls m.world) :
    Led D f Q m (r m) := (h ready m.fuel).1

/-- How a run leads where it does, for all the fuel that it may get, and how it goes on with
more. -/
theorem intro {r : Run α}
    (led : Ready D f m.calls m.world → ∀ fuel, Led D f Q m (r { m with fuel }))
    (extends_ : Ready D f m.calls m.world → ∀ fuel more,
      Led D f Q m (r { m with fuel := fuel + more }) →
        Extends D more (r { m with fuel }) (r { m with fuel := fuel + more })) :
    Leads D f r Q m :=
  fun ready fuel =>
    ⟨led ready fuel, fun more => extends_ ready fuel more (led ready (fuel + more))⟩

theorem assume {r : Run α} (h : Ready D f m.calls m.world → Leads D f r Q m) : Leads D f r Q m :=
  fun ready => h ready ready

theorem pure {x : α} (h : Sound D m.world → Q x m.world) :
    Leads D f (Pure.pure x : Run α) Q m :=
  fun ready _ => ⟨⟨.refl, rfl, h ready.sound⟩, fun _ => .result⟩

theorem fail {k : ErrorKind} : Leads D f (Run.fail k : Run α) Q m :=
  fun _ _ => ⟨⟨.refl, rfl⟩, fun _ => .error⟩

theorem throw {e : RuntimeError} : Leads D f (throw (.error e) : Run α) Q m :=
  fun _ _ => ⟨⟨.refl, rfl⟩, fun _ => .error⟩

theorem stop : Leads D f (MonadExcept.throw Halt.outOfFuel : Run α) Q m :=
  fun _ _ => ⟨⟨f, .here .refl⟩, fun _ => .stopped .refl⟩

/-- An action is one step of the run. -/
theorem act {a : Action α} (h : Acts D f.scope a Q m.world) : Leads D f (Run.ofAction a) Q m := by
  obtain ⟨world, _, calls⟩ := m
  refine .intro (fun ready fuel => ?_) fun ready fuel more led => ?_
  · obtain ⟨steps, q⟩ := h ready.sound ready.frame.scope
    cases fuel with
    | zero => exact ⟨f, .here .refl⟩
    | succ fuel =>
      simp only [Run.ofAction] at steps q ⊢
      generalize a.runIn world = made at steps q ⊢
      obtain ⟨result, w'⟩ := made
      cases result with
      | ok x => exact ⟨steps.trace, rfl, q x rfl⟩
      | error k => exact ⟨steps.trace, rfl⟩
  · cases fuel with
    | zero => exact .stopped (led.later ready)
    | succ fuel =>
      rw [Nat.add_right_comm]
      simp only [Run.ofAction]
      generalize a.runIn world = made
      obtain ⟨result, w'⟩ := made
      cases result with
      | ok x => exact .result
      | error k => exact .error

theorem bind {r : Run α} {k : α → Run β} (h : Leads D f r Q m)
    (cont : ∀ x m', Ready D f m'.calls m'.world → m'.calls = m.calls → m.world.Grows m'.world →
      Q x m'.world → Leads D f (k x) R m') : Leads D f (r >>= k) R m := by
  -- what follows on a result leads on from it
  have next : Ready D f m.calls m.world → ∀ {fuel x m'}, r { m with fuel } = (.ok x, m') →
      Ready D f m'.calls m'.world ∧ Leads D f (k x) R m' := by
    intro ready fuel x m' ok
    have first := (h ready fuel).1
    rw [ok] at first
    obtain ⟨trace, calls, q⟩ := first
    obtain ⟨sound, g⟩ := trace.kept ready
    have ready' : Ready D f m'.calls m'.world := calls ▸ ready.later sound g
    exact ⟨ready', cont x m' ready' calls g q⟩
  refine .intro (fun ready fuel => ?_) fun ready fuel more _ => ?_
  · refine (h ready fuel).1.bind fun x m' made => ?_
    obtain ⟨ready', leads⟩ := next ready made
    exact leads.led ready'
  · refine ((h ready fuel).2 more).bind (fun x m' made => ?_) fun x m' made => ?_
    · obtain ⟨ready', leads⟩ := next ready made
      exact (leads ready' m'.fuel).2 more
    · obtain ⟨ready', leads⟩ := next ready made
      exact (leads.led ready').later ready'

/-- What becomes of an error does not matter. -/
theorem mapError {g : RuntimeError → RuntimeError} {r : Run α} (h : Leads D f r Q m) :
    Leads D f (Run.mapError g r) Q m :=
  .intro (fun ready fuel => (h ready fuel).1.mapError) fun ready fuel more _ =>
    ((h ready fuel).2 more).mapError

/-- A run followed by steps that do not touch its result. -/
theorem followedBy {r : Run α} {g : World → World} (h : Leads D f r Q m)
    (steps : ∀ w, Steps D f.scope w (g w)) (closed : ∀ x w, Q x w → Q x (g w)) :
    Leads D f (Run.followedBy r g) Q m := by
  refine .intro (fun ready fuel => ?_) fun ready fuel more _ => ?_
  · refine (h ready fuel).1.andFinally (fun calls trace => ?_) (fun _ _ _ reach => reach) ?_
    · exact ⟨trace.trans (steps _).trace, calls⟩
    · exact fun x q => closed x _ q
  · obtain ⟨sound, g⟩ := (h ready (fuel + more)).1.kept ready
    exact ((h ready fuel).2 more).andFinally (fun _ => rfl)
      (.of_steps (steps _) sound (ready.frame.scope.mono g.count))

/-- What is held goes back to what it was before. -/
theorem step_held {s : ScopeId} {w₀ w : World} {held : List Cell} (g : w₀.Grows w)
    (before : ∀ c ∈ held, c.In w₀.count) : Step D s w { w with held } :=
  .contents (.held fun c hc => (before c hc).mono g.count)

/-- A run during which cells are held. -/
theorem holding {cells : List Cell} {r : Run α} (there : ∀ c ∈ cells, c.In m.world.count)
    (h : Leads D f r Q { m with world := m.world.hold cells })
    (closed : ∀ x w held, Q x w → Q x { w with held }) : Leads D f (Run.holding cells r) Q m := by
  refine .intro (fun ready fuel => ?_) fun ready fuel more _ => ?_
  · have start : Step D f.scope m.world (m.world.hold cells) := .hold there ready.sound
    have first : Led D f Q m (r { m with world := m.world.hold cells, fuel }) :=
      Led.after (h (ready.hold there) fuel).1 (.one start) rfl
    -- what was held before is still there, whatever the run has done
    refine first.andFinally (fun calls trace => ?_) (fun _ _ _ reach => reach) ?_
    · exact ⟨trace.trans (.one (step_held (trace.kept ready).2 ready.sound.held)), calls⟩
    · exact fun x q => closed x _ _ q
  · have inside := ready.hold there
    obtain ⟨-, g⟩ := (h inside (fuel + more)).1.kept inside
    refine ((h inside fuel).2 more).andFinally (fun _ => rfl) ?_
    exact .step .refl (inside.frame.scope.mono g.count) (step_held g ready.sound.held)

/-- Where a run has left the machine that came to a result. -/
theorem of_ok {r : Run α} {x : α} {m' : Machine} (h : Leads D f r Q m)
    (ready : Ready D f m.calls m.world) (ok : r m = (.ok x, m')) :
    Ready D f m'.calls m'.world ∧ m.world.Grows m'.world ∧ Q x m'.world := by
  have result := h.led ready
  rw [ok] at result
  obtain ⟨trace, calls, q⟩ := result
  obtain ⟨sound, g⟩ := trace.kept ready
  exact ⟨calls ▸ ready.later sound g, g, q⟩

/-- A run in a frame that is entered without a change of the world. -/
theorem within {f' : Frame} {r : Run α} (e : Enter f m.calls m.world f' m.calls m.world)
    (h : Leads D f' r Q m) : Leads D f r Q m :=
  .intro (fun ready fuel => (h (e.kept ready).1 fuel).1.inside e rfl) fun ready fuel more _ =>
    (h (e.kept ready).1 fuel).2 more

/-- A run in the course of an invocation. -/
theorem during {i : Invocation} {r : Run α} (h : m.world.Invokes f i)
    (body : Leads D ⟨m.world.entry f.scope i, none⟩ r Q { m with calls := i :: m.calls }) :
    Leads D f (Run.during i r) Q m := by
  have e : Enter f m.calls m.world _ _ m.world := .invocation h
  refine .intro (fun ready fuel => ?_) fun ready fuel more _ => ?_
  · refine (body (e.kept ready).1 fuel).1.andFinally (fun _ trace => ?_) (fun _ _ _ reach => ?_)
      fun _ q => q
    · exact ⟨.inner e trace .refl, rfl⟩
    · exact .inside .refl e reach
  · exact ((body (e.kept ready).1 fuel).2 more).andFinally (fun _ => rfl) .refl

/-- An action that enters a frame, and a run in this frame. -/
theorem enter {a : Action α} {k : α → Run β} {f' : Frame} {w' : World}
    (e : Enter f m.calls m.world f' m.calls w')
    (steps : Steps D f'.scope w' (a.runIn m.world).2)
    (body : ∀ x fuel, (a.runIn m.world).1 = .ok x →
      Leads D f' (k x) R ⟨(a.runIn m.world).2, fuel, m.calls⟩) :
    Leads D f (Run.ofAction a >>= k) R m := by
  refine .assume fun ready => ?_
  obtain ⟨world, _, calls⟩ := m
  obtain ⟨inside, -⟩ := e.kept ready
  obtain ⟨sound, g⟩ := steps.kept inside.sound inside.frame.scope
  have ready' : Ready D f' calls (a.runIn world).2 := inside.later sound g
  refine .intro (fun _ fuel => ?_) fun _ fuel more led => ?_
  · rw [Run.bind_apply]
    cases fuel with
    | zero => exact ⟨f, .here .refl⟩
    | succ fuel =>
      simp only [Run.ofAction] at steps body ready' ⊢
      generalize a.runIn world = made at steps body ready' ⊢
      obtain ⟨result, w₁⟩ := made
      cases result with
      | error k => exact ⟨.inner e steps.trace .refl, rfl⟩
      | ok x =>
        have first : Led D f' R ⟨w', fuel, calls⟩ ((k x : Run β) ⟨w₁, fuel, calls⟩) :=
          Led.after ((body x fuel rfl).led ready') steps.trace rfl
        exact first.inside e rfl
  · cases fuel with
    | zero => exact .stopped (led.later ready)
    | succ fuel =>
      rw [Nat.add_right_comm, Run.bind_apply, Run.bind_apply]
      simp only [Run.ofAction] at body ready' ⊢
      generalize a.runIn world = made at body ready' ⊢
      obtain ⟨result, w₁⟩ := made
      cases result with
      | error k => exact .error
      | ok x => exact (body x fuel rfl ready' fuel).2 more

/-- A change that enters a frame, a run in this frame, and one that follows where it has been
left.  Cells are held from the one to the other. -/
theorem opening {γ : Type} {g : World → α × World} {cells : α → List Cell} {inner : α → Run γ}
    {rest : α → Run β} {f' : Frame} {w₁ w₂ : World} {x : α} {P : γ → World → Prop}
    (made : g m.world = (x, w₂)) (before : Steps D f.scope m.world w₁)
    (e : Enter f m.calls w₁ f' m.calls w₂) (there : ∀ c ∈ cells x, c.In w₂.count)
    (body : ∀ fuel, Leads D f' (inner x) P ⟨w₂.hold (cells x), fuel, m.calls⟩)
    (after : ∀ y m', (w₂.hold (cells x)).Grows m'.world → P y m'.world → Leads D f (rest x) R m')
    (closed : ∀ y w held, R y w → R y { w with held }) :
    Leads D f (Run.change g >>= fun x => Run.holding (cells x) (inner x >>= fun _ => rest x))
      R m := by
  refine .assume fun ready => ?_
  obtain ⟨world, _, calls⟩ := m
  have run : ∀ fuel, (Run.change g >>= fun x =>
      Run.holding (cells x) (inner x >>= fun _ => rest x)) ⟨world, fuel + 1, calls⟩ =
        Run.holding (cells x) (inner x >>= fun _ => rest x) ⟨w₂, fuel, calls⟩ := by
    intro fuel
    rw [Run.bind_apply, Run.change, Run.ofAction, show (Action.change g).runIn world =
      (.ok (g world).1, (g world).2) from rfl, made]
    rfl
  obtain ⟨sound₁, g₁⟩ := before.kept ready.sound ready.frame.scope
  obtain ⟨inside, -⟩ := e.kept (ready.later sound₁ g₁)
  have inside' := inside.hold there
  have inward : ∀ fuel, Led D f P ⟨world, fuel, calls⟩
      (inner x ⟨w₂.hold (cells x), fuel, calls⟩) := by
    intro fuel
    have held : Led D f' P ⟨w₂, fuel, calls⟩ (inner x ⟨w₂.hold (cells x), fuel, calls⟩) :=
      Led.after ((body fuel).led inside') (.one (.hold there inside.sound)) rfl
    have entered : Led D f P ⟨w₁, fuel, calls⟩ (inner x ⟨w₂.hold (cells x), fuel, calls⟩) :=
      held.inside e rfl
    exact entered.after before.trace rfl
  -- what follows the run in the frame leads on from what it comes to
  have next : ∀ {fuel y m'}, inner x ⟨w₂.hold (cells x), fuel, calls⟩ = (.ok y, m') →
      Ready D f m'.calls m'.world ∧ Leads D f (rest x) R m' := by
    intro fuel y m' ran
    obtain ⟨-, g, p⟩ := (body fuel).of_ok inside' ran
    have first := inward fuel
    rw [ran] at first
    obtain ⟨trace, same, -⟩ := first
    exact ⟨same ▸ trace.ready ready, after y m' g p⟩
  have since : ∀ fuel, (w₂.hold (cells x)).Later D
      ((inner x >>= fun _ => rest x) ⟨w₂.hold (cells x), fuel, calls⟩).2.world := by
    intro fuel
    refine .bind (((body fuel).led inside').later inside') fun y m' ran => ?_
    obtain ⟨ready', leads⟩ := next ran
    exact (leads.led ready').later ready'
  have grown := fun fuel => ((since fuel).kept inside'.sound).2
  refine .intro (fun _ fuel => ?_) fun _ fuel more led => ?_
  · cases fuel with
    | zero => exact ⟨f, .here .refl⟩
    | succ fuel =>
      rw [run]
      have both := (inward fuel).bind fun y m' ran => (next ran).2.led (next ran).1
      refine both.andFinally (fun calls trace => ?_) (fun _ _ _ reach => reach) ?_
      · exact ⟨trace.trans (.one (step_held (grown fuel) inside.sound.held)), calls⟩
      · exact fun y r => closed y _ _ r
  · cases fuel with
    | zero => exact .stopped (led.later ready)
    | succ fuel =>
      rw [Nat.add_right_comm, run, run]
      refine Extends.andFinally (.bind (((body fuel) inside' fuel).2 more) (fun y m' ran => ?_)
        fun y m' ran => ?_) (fun _ => rfl) ?_
      · exact ((next ran).2 (next ran).1 m'.fuel).2 more
      · exact ((next ran).2.led (next ran).1).later (next ran).1
      · exact .step .refl (inside'.frame.scope.mono (grown _).count)
          (step_held (grown _) inside.sound.held)

/-- Whatever a run comes to, it has got there from where it started. -/
theorem reach {r : Run α} (h : Leads D f r Q m) (ready : Ready D f m.calls m.world) :
    ∃ f', Reach D f m.calls m.world f' (r m).2.calls (r m).2.world :=
  (h.led ready).reach

end Leads

end ScopeLang
