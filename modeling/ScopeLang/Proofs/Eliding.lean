/-
# Writing the accessor and leaving it out

A name is looked for along the chain of scopes, and a member in the receiver and its class.
In the body of a method the one is as good as the other for the name of a member
that nothing below the receiver has.  That the same is found is a matter of
scopes.  But the evaluator goes about it in two ways: it holds the receiver or does not
while it evaluates what the member is to be or what the method is given, and
it records how it came to an invocation.  Neither shows at the end,
because runs pay no attention to it (`Run.Steady.holding_alike`, `Run.Steady.during_alike`).
-/
import ScopeLang.Proofs.MethodScopes

namespace ScopeLang

variable {D : Dialect} {home : ScopeId} {r : InstanceId} {x : String} {below : List ScopeId}
  {f : Frame} {α β : Type}

/-! ## Runs that end alike -/

/-- Runs with the same result, and in the same state unless the fuel is used up before they end. -/
structure EndsAlike (a b : Except Halt α × Machine) : Prop where
  result : b.1 = a.1
  state : a.1 ≠ .error .outOfFuel → b.2 = a.2

theorem Halt.ne_of_ok (y : α) : (.ok y : Except Halt α) ≠ .error .outOfFuel := nofun

theorem Halt.ne_of_error (e : RuntimeError) :
    (.error (.error e) : Except Halt α) ≠ .error .outOfFuel := nofun

namespace EndsAlike

variable {m m' : Machine} {cells : List Cell}

theorem refl (a : Except Halt α × Machine) : EndsAlike a a := ⟨rfl, fun _ => rfl⟩

theorem trans {a b c : Except Halt α × Machine} (h : EndsAlike a b) (i : EndsAlike b c) :
    EndsAlike a c :=
  ⟨i.result.trans h.result, fun ends => (i.state (h.result ▸ ends)).trans (h.state ends)⟩

theorem bind {q q' : Run α} {k k' : α → Run β} (first : EndsAlike (q m) (q' m'))
    (next : ∀ y m₁, q m = (.ok y, m₁) → EndsAlike (k y m₁) (k' y m₁)) :
    EndsAlike ((q >>= k) m) ((q' >>= k') m') := by
  obtain ⟨result, state⟩ := first
  rw [Run.bind_apply, Run.bind_apply]
  generalize q m = made at result state next ⊢
  generalize q' m' = made' at result state ⊢
  obtain ⟨y, m₁⟩ := made
  obtain ⟨y', m₁'⟩ := made'
  obtain rfl : y' = y := result
  rcases y' with (e | _) | y
  · exact ⟨rfl, fun _ => state (Halt.ne_of_error e)⟩
  · exact ⟨rfl, fun ends => absurd rfl ends⟩
  · obtain rfl : m₁' = m₁ := state (Halt.ne_of_ok y)
    exact next y m₁' rfl

theorem holding {q q' : Run α} (h : EndsAlike (q { m with world := m.world.hold cells })
    (q' { m with world := m.world.hold cells })) :
    EndsAlike (Run.holding cells q m) (Run.holding cells q' m) := by
  obtain ⟨result, state⟩ := h
  simp only [Run.holding, Run.andFinally]
  generalize q { m with world := m.world.hold cells } = made at result state ⊢
  generalize q' { m with world := m.world.hold cells } = made' at result state ⊢
  obtain ⟨y, m₁⟩ := made
  obtain ⟨y', m₁'⟩ := made'
  obtain rfl : y' = y := result
  rcases y' with (e | _) | y
  · obtain rfl : m₁' = m₁ := state (Halt.ne_of_error e)
    exact .refl _
  · exact ⟨rfl, fun ends => absurd rfl ends⟩
  · obtain rfl : m₁' = m₁ := state (Halt.ne_of_ok y)
    exact .refl _

end EndsAlike

namespace Run.Steady

open World (Lasting Scopeless)

variable {P : World → Prop} {q : Run α} {m m' : Machine} {cells cells' : List Cell}

/-- A run that ends leaves the surroundings of code alone. -/
theorem persists (h : q.Steady P) (secured : m.Secured) (needed : P m.world)
    (ends : (q m).1 ≠ .error .outOfFuel) : m.Persists (q m).2 := by
  have stays := h.secure m secured needed
  generalize q m = made at stays ends ⊢
  obtain ⟨y, m₁⟩ := made
  rcases y with (e | _) | y
  · exact stays
  · exact absurd rfl ends
  · exact stays

theorem persists_of_ok (h : q.Steady P) (secured : m.Secured) (needed : P m.world) {y : α}
    (done : q m = (.ok y, m')) : m.Persists m' := by
  have stays := h.persists secured needed
  rw [done] at stays
  exact stays (Halt.ne_of_ok y)

/-- How cells are held and what is in progress shows in nothing else at the end. -/
theorem alike (h : q.Steady P) (same : m.Reheld m') (secured : m'.Secured) (needed : P m'.world) :
    (q m').1 = (q m).1 ∧ ((q m).1 ≠ .error .outOfFuel →
      (q m').2 = ⟨{ (q m).2.world with held := m'.world.held }, (q m).2.fuel, m'.calls⟩) := by
  obtain ⟨result, ⟨cells, -, rest⟩, fuel⟩ := h.blind same
  refine ⟨result, fun ends => ?_⟩
  have stays := h.persists secured needed (result ▸ ends)
  generalize (q m').2 = m₁ at stays rest fuel ⊢
  obtain ⟨world, fuel', calls⟩ := m₁
  obtain rfl : world = _ := rest
  obtain rfl : cells = m'.world.held := stays.world.held
  obtain rfl : calls = m'.calls := stays.calls
  obtain rfl : fuel' = (q m).2.fuel := fuel
  rfl

/-- Holding nothing. -/
theorem holding_nil (h : q.Steady P) (secured : m.Secured) (needed : P m.world) :
    EndsAlike (q m) (Run.holding [] q m) := by
  have stays := h.persists secured needed
  have start : { m with world := m.world.hold [] } = m := rfl
  simp only [Run.holding, Run.andFinally, start]
  generalize q m = made at stays ⊢
  obtain ⟨y, ⟨world, fuel, calls⟩⟩ := made
  have restored : m.Persists ⟨world, fuel, calls⟩ →
      ⟨{ world with held := m.world.held }, fuel, calls⟩ = Machine.mk world fuel calls :=
    fun persists => by rw [← persists.world.held]
  rcases y with (e | _) | y
  · exact ⟨rfl, fun ends => restored (stays ends)⟩
  · exact .refl _
  · exact ⟨rfl, fun ends => restored (stays ends)⟩

/-- The same may be held in other ways. -/
theorem holding_alike [Lasting P] (h : q.Steady P) (secured : m.Secured) (needed : P m.world)
    (none : Scopeless cells) (none' : Scopeless cells')
    (same : ∀ c, c ∈ cells' ++ m.world.held ↔ c ∈ cells ++ m.world.held) :
    EndsAlike (Run.holding cells q m) (Run.holding cells' q m) := by
  have reheld : Machine.Reheld { m with world := m.world.hold cells }
      { m with world := m.world.hold cells' } := ⟨⟨_, same, rfl⟩, rfl⟩
  obtain ⟨result, state⟩ := h.alike reheld (secured.hold none') (Lasting.hold needed)
  have stays := h.persists (secured.hold none) (Lasting.hold needed)
  simp only [Run.holding, Run.andFinally]
  generalize q { m with world := m.world.hold cells } = made at result state stays ⊢
  generalize q { m with world := m.world.hold cells' } = made' at result state ⊢
  obtain ⟨y, ⟨world, fuel, calls⟩⟩ := made
  obtain ⟨y', m₁'⟩ := made'
  obtain rfl : y' = y := result
  have restored : y' ≠ .error .outOfFuel →
      ({ m₁' with world := { m₁'.world with held := m.world.held } } : Machine) =
        ⟨{ world with held := m.world.held }, fuel, calls⟩ := fun ends => by
    obtain rfl : calls = m.calls := (stays ends).calls
    obtain rfl : m₁' = _ := state ends
    rfl
  rcases y' with (e | _) | y
  · exact ⟨rfl, fun ends => restored ends⟩
  · exact ⟨rfl, fun ends => absurd rfl ends⟩
  · exact ⟨rfl, fun ends => restored ends⟩

/-- Nor does it show how an invocation came about. -/
theorem during_alike (h : q.Steady P) {access access' : Access} {c : Callable}
    {receiver : Option InstanceId} (secured : m.Secured) (needed : P m.world)
    (held : ∀ r, receiver = some r → r.cell ∈ m.world.held) :
    EndsAlike (Run.during ⟨access, c, receiver⟩ q m) (Run.during ⟨access', c, receiver⟩ q m) := by
  have reheld : Machine.Reheld { m with calls := ⟨access, c, receiver⟩ :: m.calls }
      { m with calls := ⟨access', c, receiver⟩ :: m.calls } := ⟨.refl _, rfl⟩
  obtain ⟨result, state⟩ :=
    h.alike reheld (secured.during (i := ⟨access', c, receiver⟩) held) needed
  have stays := h.persists (secured.during (i := ⟨access, c, receiver⟩) held) needed
  simp only [Run.during, Run.andFinally]
  generalize q { m with calls := ⟨access, c, receiver⟩ :: m.calls } = made at result state stays ⊢
  generalize q { m with calls := ⟨access', c, receiver⟩ :: m.calls } = made' at result state ⊢
  obtain ⟨y, ⟨world, fuel, calls⟩⟩ := made
  obtain ⟨y', m₁'⟩ := made'
  obtain rfl : y' = y := result
  have restored : y' ≠ .error .outOfFuel →
      ({ m₁' with calls := m.calls } : Machine) = ⟨world, fuel, m.calls⟩ := fun ends => by
    obtain rfl : m₁' = _ := state ends
    have same : world.held = m.world.held := (stays ends).world.held
    show Machine.mk { world with held := m.world.held } fuel m.calls = ⟨world, fuel, m.calls⟩
    rw [← same]
  rcases y' with (e | _) | y
  · exact ⟨rfl, fun ends => restored ends⟩
  · exact ⟨rfl, fun ends => absurd rfl ends⟩
  · exact ⟨rfl, fun ends => restored ends⟩

end Run.Steady

/-- Actions that do the same in a world are the same step there. -/
theorem Run.ofAction_congr {a b : Action α} {m : Machine}
    (same : a.runIn m.world = b.runIn m.world) : Run.ofAction a m = Run.ofAction b m := by
  obtain ⟨world, fuel, calls⟩ := m
  cases fuel with
  | zero => rfl
  | succ fuel => simp only [Run.ofAction, same]

/-- How the invocation is said to have come about does not show at its end. -/
theorem Knot.invoke_alike {k : Knot} (steady : k.Steady) {m : Machine} (secured : m.Secured)
    (stands : f.Stands m.world) (access access' : Access) (o : Resolution) :
    EndsAlike (k.invoke access o f m) (k.invoke access' o f m) := by
  simp only [invoke]
  generalize o.overload.callable = c
  refine .holding ?_
  have inner : Machine.Secured { m with world := m.world.hold [c.cell] } :=
    secured.hold (.callable c)
  have stands : f.Stands (m.world.hold [c.cell]) := World.Lasting.hold stands
  cases c with
  | function x =>
    exact (steady_invokeFunction steady x o.slots f.scope).during_alike inner
      ⟨stands.bare, List.mem_cons_self⟩ nofun
  | method x =>
    cases found : f.receiver with
    | none => exact .refl _
    | some receiver =>
      have stands : Frame.Stands ⟨f.scope, some receiver⟩ (m.world.hold [x.cell]) :=
        ⟨stands.scope, fun r e => stands.receiver r (found.trans e)⟩
      exact (steady_invokeMethod steady x o.slots receiver f.scope).during_alike inner stands
        stands.receiver
  | classObject c => exact .refl _

/-- A call goes on alike where it is resolved alike. -/
theorem Knot.resolved_alike {k : Knot} (steady : k.Steady) {m : Machine} (secured : m.Secured)
    (stands : f.Stands m.world) {os : List Overload} {a : CallArguments}
    (same : (Action.resolveAmong f.scope x os a).runIn m.world =
      (Action.resolveFunction home x a).runIn m.world) :
    EndsAlike ((Run.ofAction (Action.resolveAmong f.scope x os a) >>= fun o =>
        k.invoke .name o f) m)
      ((Run.ofAction (Action.resolveFunction home x a) >>= fun o => k.invoke .member o f) m) := by
  refine .bind ?_ fun o m₁ done => ?_
  · rw [Run.ofAction_congr same]
    exact .refl _
  · have act : Run.Steady f.Stands (Run.ofAction (Action.resolveAmong f.scope x os a)) :=
      .act (Action.blind_resolveAmong f.scope x os a) (Action.within_resolveAmong f.scope x os a)
    have persists := act.persists_of_ok secured stands done
    exact invoke_alike steady (secured.persists persists)
      (World.Lasting.persists persists.world stands) .name .member o

/-! ## Code in the course of a method -/

/-- A machine that is about to run code in the course of a method. -/
structure Machine.OnBehalf (D : Dialect) (m : Machine) (r : InstanceId) (f : Frame)
    (below : List ScopeId) : Prop where
  ready : Ready D f m.calls m.world
  behalf : m.world.OnBehalf D r f.scope below
  receiver : f.receiver = some r
  calls : ∀ i ∈ m.calls, ∀ r, i.receiver = some r → r.cell ∈ m.world.held

namespace Machine.OnBehalf

variable {m m₁ : Machine} (h : m.OnBehalf D r f below)

include h

theorem secured : m.Secured := ⟨h.behalf.secured, h.calls⟩

theorem stands : f.Stands m.world := by
  refine ⟨.inl h.behalf.held, fun i e => ?_⟩
  obtain rfl := Option.some.inj (h.receiver.symm.trans e)
  exact h.behalf.standing

/-- The method goes on after a run that comes to a result. -/
theorem later {q : Run α} {Q : α → World → Prop} (steady : q.Steady f.Stands)
    (leads : Leads D f q Q m) {y : α} (done : q m = (.ok y, m₁)) :
    m₁.OnBehalf D r f below ∧ m.world.Grows m₁.world ∧ Q y m₁.world := by
  obtain ⟨ready, g, given⟩ := leads.of_ok h.ready done
  have persists := steady.persists_of_ok h.secured h.stands done
  have secured := h.secured.persists persists
  have trace := leads.led h.ready
  rw [done] at trace
  refine ⟨⟨ready, ?_, h.receiver, secured.calls⟩, g, given⟩
  exact
    { sound := ready.sound
      kin := kin_invariant.trace trace.1 h.ready h.behalf.kin
      secured := secured.world
      there := h.behalf.there.mono g.count
      standing := persists.world.held ▸ h.behalf.standing
      held := persists.world.held ▸ h.behalf.held
      rises := by
        rw [g.home h.behalf.there]
        exact h.behalf.rises.mono g h.behalf.in_below }

/-- The method goes on while cells are held. -/
theorem hold {cells : List Cell} (none : World.Scopeless cells)
    (there : ∀ c ∈ cells, c.In m.world.count) :
    Machine.OnBehalf D { m with world := m.world.hold cells } r f below := by
  have step : Step D f.scope m.world (m.world.hold cells) := .hold there h.ready.sound
  obtain ⟨sound, g⟩ := step.kept h.ready.sound h.ready.frame.scope
  exact
    { ready := h.ready.later sound g
      behalf :=
        { sound
          kin := kin_invariant.step h.ready h.behalf.kin step
          secured := h.behalf.secured.hold none
          there := h.behalf.there
          standing := List.mem_append_right _ h.behalf.standing
          held := List.mem_append_right _ h.behalf.held
          rises := h.behalf.rises.mono g h.behalf.in_below }
      receiver := h.receiver
      calls := (h.secured.hold none).calls }

end Machine.OnBehalf

/-! ## Heads of chains -/

theorem Run.look_bind (g : World → α) (q : α → Run β) (m : Machine) :
    (Run.look g >>= q) m = q (g m.world) m := rfl

/-- Reading a variable is one step. -/
theorem Knot.chainHead_read {k : Knot} {m : Machine} {v : Value}
    (found : m.world.getVariable f.scope x = .ok v) :
    k.chainHead (.read x) f { m with fuel := m.fuel + 1 } = (.ok v, m) := by
  obtain ⟨world, fuel, calls⟩ := m
  have read : (Knot.readName x f.scope).runIn world = (.ok v, world) := by
    have found : world.getVariable f.scope x = .ok v := found
    rw [Knot.readName, runIn_get_bind, found]
    rfl
  show Run.ofAction (Knot.readName x f.scope) ⟨world, fuel + 1, calls⟩ = _
  simp only [Run.ofAction, read]

/-- Reading a member is none. -/
theorem Knot.member_read {k : Knot} {m : Machine} {v : Value}
    (found : Knot.member? m.world r x = some v) : k.member (.read x) r f m = (.ok v, m) := by
  obtain ⟨world, fuel, calls⟩ := m
  have found : Knot.member? (world.hold [r.cell]) r x = some v := found
  simp only [Knot.member, Run.holding, Run.andFinally, Run.look_bind, id, found]
  rfl

namespace Machine.OnBehalf

variable {k : Knot} {m : Machine} (h : m.OnBehalf D r f below)

include h

/-- The name of a member is read as the member, in one step more. -/
theorem read_alike (clear : m.world.Clear below x) (member : m.world.HasMember r x) :
    k.chainHead (.read x) f { m with fuel := m.fuel + 1 } = k.member (.read x) r f m := by
  obtain ⟨v, found, same⟩ := h.behalf.getVariable_eq clear member
  rw [Knot.chainHead_read found, Knot.member_read same]

/-- The same run, with the receiver held once more. -/
theorem holding_receiver {q : Run α} (steady : q.Steady f.Stands) :
    EndsAlike (q m) (Run.holding [r.cell] q m) := by
  refine (steady.holding_nil h.secured h.stands).trans ?_
  refine steady.holding_alike h.secured h.stands nofun (.one nofun) fun c => ?_
  constructor
  · intro mem
    rcases List.mem_cons.mp mem with rfl | mem
    · exact h.behalf.standing
    · exact mem
  · exact fun mem => List.mem_cons_of_mem _ mem

/-- A member is assigned through its name, if nothing nearer has the name by then. -/
theorem assign_alike (steady : k.Steady) (sound : k.Sound D) {value : Expr}
    (marks : D.Admits value.marks) (member : m.world.HasMember r x)
    (clear : ∀ v m₁, k.evaluate value f m = (.ok v, m₁) → m₁.world.Clear below x) :
    EndsAlike (k.chainHead (.assign x value) f m) (k.member (.assign x value) r f m) := by
  have within : Run.Steady f.Stands (do
      let v ← k.evaluate value f
      Run.ofAction (Knot.assignMember r x v)
      return v) :=
    .bind (steady.evaluate value f) fun v => .act_then (Knot.blind_assignMember r x v)
      (Knot.within_assignMember (fun w t b => w.persists_setVariable t x b) r v) fun _ => .pure _
  refine EndsAlike.trans (.bind (.refl _) fun v m₁ done => ?_) (h.holding_receiver within)
  obtain ⟨after, g, -⟩ := h.later (steady.evaluate value f) (sound.evaluate value f m marks) done
  have member₁ : m₁.world.HasMember r x := by
    have home := h.ready.sound.home h.behalf.there
    have class_ := h.ready.sound.classId h.behalf.there
    rw [World.HasMember, g.home h.behalf.there, g.classId h.behalf.there, g.classOf class_]
    exact member.imp (g.bound home) (g.bound (h.ready.sound.classScope class_))
  have same : (Action.updateVariable f.scope x v).runIn m₁.world =
      (Knot.assignMember r x v).runIn m₁.world := by
    rw [Action.updateVariable, Knot.assignMember, runIn_look_bind, runIn_look_bind,
      after.behalf.bindingScope?_eq (clear v m₁ done) member₁]
    cases Knot.memberScope? m₁.world r x <;> rfl
  refine EndsAlike.bind ?_ fun _ _ _ => .refl _
  show EndsAlike (Run.ofAction (Action.updateVariable f.scope x v) m₁)
    (Run.ofAction (Knot.assignMember r x v) m₁)
  rw [Run.ofAction_congr same]
  exact .refl _

/-- A method of the receiver is called by its name, if no variable in sight holds a callable. -/
theorem callName_alike (steady : k.Steady) {a : CallArguments} (ok : a.Ok D m.world.count)
    (clear : m.world.Clear below x)
    (has : m.world.hasLocalFunction (m.world.inst r).scope x = true)
    (unseen : Knot.callableVariable? (m.world.hold a.cells) f.scope x = none) :
    EndsAlike (k.callName x a f m) (k.callMethod r x a f.scope m) := by
  have held := h.hold (.arguments a) ok.cells
  obtain ⟨os, found, resolve⟩ := World.callsOwn (w := m.world.hold a.cells) (i := r) has
  have lookup : (m.world.hold a.cells).lookupFunction f.scope x = some os :=
    held.behalf.lookupFunction_eq clear found
  have frame : Frame.mk f.scope (some r) = f := by rw [← h.receiver]
  have own : Run.Steady f.Stands (do
      let home ← Run.look fun w => (w.inst r).scope
      let o ← Action.resolveFunction home x a
      k.invoke .member o f) := by
    rw [← frame]
    exact Knot.steady_callOwn steady r x a f.scope
  have left : EndsAlike (k.callName x a f m) (Run.holding a.cells (do
      let o ← Action.resolveAmong f.scope x os a
      k.invoke .name o f) m) := by
    refine .holding ?_
    rw [Run.look_bind]
    simp only [id, unseen, lookup]
    exact .refl _
  have right : EndsAlike (Run.holding a.cells (do
      let home ← Run.look fun w => (w.inst r).scope
      let o ← Action.resolveFunction home x a
      k.invoke .member o f) m) (k.callMethod r x a f.scope m) := by
    rw [Knot.callMethod, frame]
    refine own.holding_alike h.secured h.stands (.arguments a) (.cons nofun (.arguments a))
      fun c => ⟨fun mem => ?_, List.mem_cons_of_mem _⟩
    rcases List.mem_cons.mp mem with rfl | mem
    · exact List.mem_append_right _ h.behalf.standing
    · exact mem
  refine (left.trans (.holding ?_)).trans right
  rw [Run.look_bind]
  exact Knot.resolved_alike steady held.secured held.stands
    ((held.behalf.resolveAmong_eq os a).trans (resolve a).symm)

theorem call_alike (steady : k.Steady) (sound : k.Sound D) {arguments : List Argument}
    (marks : D.Admits (argumentMarks arguments))
    (has : m.world.hasLocalFunction (m.world.inst r).scope x = true)
    (clear : ∀ a m₁, k.arguments arguments f m = (.ok a, m₁) → m₁.world.Clear below x ∧
      Knot.callableVariable? (m₁.world.hold a.cells) f.scope x = none) :
    EndsAlike (k.chainHead (.call x arguments) f m) (k.member (.call x arguments) r f m) := by
  have within : Run.Steady f.Stands (do
      k.callMethod r x (← k.arguments arguments f) f.scope) :=
    .bind (Knot.steady_arguments steady arguments) fun a =>
      (Knot.steady_callMethod steady r x a f.scope).weaken fun _ => Frame.Stands.bare
  have own : EndsAlike (Run.holding [r.cell] (do
      k.callMethod r x (← k.arguments arguments f) f.scope) m)
      (k.member (.call x arguments) r f m) := by
    refine .holding ?_
    have has : (m.world.hold [r.cell]).hasLocalFunction
      ((m.world.hold [r.cell]).inst r).scope x = true := has
    simp only [Run.look_bind, id, has, if_true]
    exact .refl _
  refine EndsAlike.trans (.bind (.refl _) fun a m₁ done => ?_)
    ((h.holding_receiver within).trans own)
  obtain ⟨after, g, ok⟩ := h.later (Knot.steady_arguments steady arguments)
    (Knot.leads_arguments sound marks) done
  refine after.callName_alike steady ok (clear a m₁ done).1 ?_ (clear a m₁ done).2
  rw [g.home h.behalf.there]
  exact g.named (h.ready.sound.home h.behalf.there) has

/-- A chain starts in the scope or in the receiver. -/
theorem chain_eq (k : Knot) (head : Element) (rest : List Element) :
    k.chain .scope (head :: rest) f = (k.chainHead head f >>= fun v => k.chainSteps f v rest) ∧
      k.chain .receiver (head :: rest) f =
        (k.member head r f >>= fun v => k.chainSteps f v rest) := by
  have receiver : k.receiver f = pure r := by rw [Knot.receiver, h.receiver]
  refine ⟨rfl, ?_⟩
  simp only [Knot.chain, receiver, pure_bind]

theorem chain_alike {head : Element} (rest : List Element)
    (same : EndsAlike (k.chainHead head f m) (k.member head r f m)) :
    EndsAlike (k.chain .scope (head :: rest) f m) (k.chain .receiver (head :: rest) f m) := by
  obtain ⟨scope, receiver⟩ := h.chain_eq k head rest
  rw [scope, receiver]
  exact .bind same fun _ _ _ => .refl _

end Machine.OnBehalf

/-! ## At every moment of a program -/

/-- A frame in which the body of a method runs: below the scope of the receiver. -/
structure Machine.RunsMethod (m : Machine) (r : InstanceId) (f : Frame) (below : List ScopeId) :
    Prop where
  runs : m.Runs f
  receiver : f.receiver = some r
  held : f.scope.cell ∈ m.world.held
  rises : m.world.Rises (m.world.inst r).scope f.scope below

/-- In a frame of a method it is the same to write the accessor and to leave it out before a name
that no scope below the receiver has, of a variable or a function: to read or to assign a member,
where reading takes one step less with the accessor, and to call a method of the receiver, unless
a variable in sight holds a callable.  The scopes below are asked when the value or the
arguments have been evaluated. -/
structure Knot.Elides (k : Knot) (m : Machine) (r : InstanceId) (f : Frame)
    (below : List ScopeId) (x : String) : Prop where
  read : m.world.Clear below x → m.world.HasMember r x → ∀ rest : List Element,
    k.chain .scope (.read x :: rest) f { m with fuel := m.fuel + 1 } =
      k.chain .receiver (.read x :: rest) f m
  assign : m.world.HasMember r x → ∀ value : Expr,
    (∀ v m₁, k.evaluate value f m = (.ok v, m₁) → m₁.world.Clear below x) →
    ∀ rest : List Element, EndsAlike (k.chain .scope (.assign x value :: rest) f m)
      (k.chain .receiver (.assign x value :: rest) f m)
  call : m.world.hasLocalFunction (m.world.inst r).scope x = true → ∀ arguments : List Argument,
    (∀ a m₁, k.arguments arguments f m = (.ok a, m₁) → m₁.world.Clear below x ∧
      callableVariable? (m₁.world.hold a.cells) f.scope x = none) →
    ∀ rest : List Element, EndsAlike (k.chain .scope (.call x arguments :: rest) f m)
      (k.chain .receiver (.call x arguments :: rest) f m)

/-- At every moment of a program the accessor may be written or left out in the scopes of the
methods that are running.  The bodies of the host are to pay no attention to how cells are held and
to leave the surroundings of code alone (`Host.Steady`). -/
theorem Session.Reachable.accessor_elided {natives : String → Prop} {S : Session}
    (h : S.Reachable (.full natives)) (obeys : S.host.Obeys (.full natives))
    (steady : S.host.Steady) {fuel : Nat} {program : List Statement}
    (body : (S.reached fuel program).RunsMethod r f below) (n left : Nat) (x : String) :
    (knot S.config S.host n).Elides { S.reached fuel program with fuel := left } r f below x := by
  have marks : ∀ fs : List Flags, (Dialect.full natives).Admits fs := fun fs =>
    Dialect.admits_of_sharing (D := .full natives) trivial fs
  obtain ⟨g, ready, kin⟩ := h.reached kin_invariant kin_start obeys (marks _) fuel
  have secured := h.secured steady fuel program
  obtain ⟨i, head, -, receiver⟩ := body.runs.receiver r body.receiver
  have called := List.mem_of_mem_head? head
  have behalf : Machine.OnBehalf (.full natives) { S.reached fuel program with fuel := left } r f
      below :=
    { ready := body.runs.ready ready
      behalf :=
        { sound := ready.sound
          kin
          secured := secured.world
          there := ready.calls i called r receiver
          standing := secured.calls i called r receiver
          held := body.held
          rises := body.rises }
      receiver := body.receiver
      calls := secured.calls }
  have steady := knot_steady S.config steady n
  have sound : (knot S.config S.host n).Sound (.full natives) := knot_sound obeys n
  refine ⟨fun clear member rest => ?_, fun member value clear rest => ?_,
    fun has arguments clear rest => ?_⟩
  · obtain ⟨scope, receiver⟩ := behalf.chain_eq (knot S.config S.host n) (.read x) rest
    rw [scope, receiver, Run.bind_apply, Run.bind_apply, behalf.read_alike clear member]
  · exact behalf.chain_alike rest (behalf.assign_alike steady sound (marks _) member clear)
  · exact behalf.chain_alike rest (behalf.call_alike steady sound (marks _) has clear)

/-- A class with a method whose body is a block, and a call of this method. -/
def tallying : List Statement :=
  [⟨.classDef ⟨"A", none,
      [declaring "size" (.literal (.int 1)), methodNamed "construct" [],
        methodNamed "tell" [returning .receiver],
        methodNamed "run" [⟨.block [returning (.chain .scope [.read "size"])], Span.none⟩]]⟩,
      Span.none⟩,
    ⟨.expression (.ofTerm (.chain .scope [.call "A" [], .call "run" []])), Span.none⟩]

/-- The machine that is stopped in the block of the method. -/
def stoppedTallying : Machine := (Session.start {} Kit.host).reached 23 tallying

/-- The same with some more fuel. -/
def duringTallying : Machine := { stoppedTallying with fuel := 20 }

/-- The frame of the block. -/
def blockFrame : Frame := ⟨⟨6⟩, some ⟨0⟩⟩

/-- In the block it is the same to write `self.size` and `size`, `self.size = 2` and `size = 2`, and
`self.tell()` and `tell()`. -/
theorem accessor_elided_tallying :
    (knot {} Kit.host 9).chain .scope [.read "size"] blockFrame
          { duringTallying with fuel := duringTallying.fuel + 1 } =
        (knot {} Kit.host 9).chain .receiver [.read "size"] blockFrame duringTallying ∧
      EndsAlike
        ((knot {} Kit.host 9).chain .scope [.assign "size" (.ofTerm (.literal (.int 2)))]
          blockFrame duringTallying)
        ((knot {} Kit.host 9).chain .receiver [.assign "size" (.ofTerm (.literal (.int 2)))]
          blockFrame duringTallying) ∧
      EndsAlike ((knot {} Kit.host 9).chain .scope [.call "tell" []] blockFrame duringTallying)
        ((knot {} Kit.host 9).chain .receiver [.call "tell" []] blockFrame duringTallying) ∧
      ((knot {} Kit.host 9).chain .scope [.call "tell" []] blockFrame
        duringTallying).1.toOption.isSome = true := by
  have obeys : Kit.host.Obeys (.full fun _ => True) := Kit.host_obeys fun _ _ => .inl trivial
  have runs : stoppedTallying.Runs blockFrame := by
    refine ⟨by decide +kernel, fun r e => ?_⟩
    obtain rfl := Option.some.inj e
    obtain ⟨i, head⟩ := Option.isSome_iff_exists.mp
      (show stoppedTallying.calls.head?.isSome = true by decide +kernel)
    have receiver : stoppedTallying.calls.head?.bind Invocation.receiver = some ⟨0⟩ := by
      decide +kernel
    have code : stoppedTallying.calls.head?.all
        (fun i => decide (stoppedTallying.world.HasCode i.callable)) = true := by decide +kernel
    rw [head] at receiver code
    obtain ⟨p, b, hp, body⟩ := World.HasCode.body (of_decide_eq_true code)
    exact ⟨i, head, ⟨p, hp, .inl ⟨b, body⟩⟩, receiver⟩
  have rises : stoppedTallying.world.Rises
      (stoppedTallying.world.inst ⟨0⟩).scope ⟨6⟩ [⟨6⟩, ⟨5⟩] :=
    .block (p := ⟨5⟩) (by decide +kernel) (by decide +kernel)
      (.call (by decide +kernel) (by decide +kernel))
  have body : stoppedTallying.RunsMethod ⟨0⟩ blockFrame
      [⟨6⟩, ⟨5⟩] := ⟨runs, rfl, by decide +kernel, rises⟩
  have elided : ∀ x, (knot {} Kit.host 9).Elides duringTallying ⟨0⟩ blockFrame [⟨6⟩, ⟨5⟩] x :=
    Session.Reachable.accessor_elided (.start {} Kit.host) obeys Kit.host_steady body 9 20
  have size : duringTallying.world.HasMember ⟨0⟩ "size" := .inl (by decide +kernel)
  refine ⟨(elided "size").read (by decide +kernel) size [],
    (elided "size").assign size _ (fun v m₁ done => ?_) [],
    (elided "tell").call (by decide +kernel) [] (fun a m₁ done => ?_) [], by decide +kernel⟩
  · have still : ((knot {} Kit.host 9).evaluate (.ofTerm (.literal (.int 2))) blockFrame
        duringTallying).2.world.Clear [⟨6⟩, ⟨5⟩] "size" := by decide +kernel
    rw [done] at still
    exact still
  · have unseen : (Knot.callableVariable? (duringTallying.world.hold []) ⟨6⟩ "tell").isNone =
      true := by decide +kernel
    rw [Knot.arguments_nil] at done
    obtain ⟨ok, rfl⟩ := Prod.mk.inj done
    obtain rfl := Except.ok.inj ok
    exact ⟨by decide +kernel, Option.isNone_iff_eq_none.mp unseen⟩

end ScopeLang
