/-
# Steady runs

Two things are true of all runs of the evaluator, and both are found by going through it
once.  A run pays no attention to how cells are held, nor to the invocations in
progress.  And wherever it is stopped for lack of fuel, the surroundings of all code in
progress are held: the parents of its blocks and calls are borne and the receivers of
its invocations are held.  When a run comes to an end, what was held before is held, and
the invocations that were in progress are.

Code may be run in a frame whose scope is borne and whose receiver is held (`Frame.Stands`).  Of the
bodies of the host it is assumed that they are steady.
-/
import ScopeLang.Proofs.Blindness
import ScopeLang.Proofs.Custody
import ScopeLang.Proofs.Releases

namespace ScopeLang

variable {α β : Type}

open World (Scopeless)

/-! ## Machines -/

/-- Machines that differ only in how cells are held and in the invocations in progress. -/
structure Machine.Reheld (m m' : Machine) : Prop where
  world : m.world.Reheld m'.world
  fuel : m'.fuel = m.fuel

/-- A machine on which the surroundings of all code in progress are held. -/
structure Machine.Secured (m : Machine) : Prop where
  world : m.world.Secured
  calls : ∀ i ∈ m.calls, ∀ r, i.receiver = some r → r.cell ∈ m.world.held

/-- The surroundings of code stay, and the invocations in progress. -/
structure Machine.Persists (m m' : Machine) : Prop where
  world : m.world.Persists m'.world
  calls : m'.calls = m.calls

namespace Machine

variable {m m₁ m₂ : Machine}

theorem Persists.refl (m : Machine) : m.Persists m := ⟨.refl m.world, rfl⟩

theorem Persists.trans (h : m.Persists m₁) (i : m₁.Persists m₂) : m.Persists m₂ :=
  ⟨h.world.trans i.world, i.calls.trans h.calls⟩

theorem Secured.persists (h : m.Persists m₁) (secured : m.Secured) : m₁.Secured where
  world := secured.world.persists h.world
  calls := by
    rw [h.calls, h.world.held]
    exact secured.calls

/-- Holding something that is no scope. -/
theorem Secured.hold (secured : m.Secured) {cells : List Cell} (none : Scopeless cells) :
    Machine.Secured { m with world := m.world.hold cells } where
  world := secured.world.hold none
  calls i hi r e := List.mem_append_right _ (secured.calls i hi r e)

/-- An invocation of what is held. -/
theorem Secured.during (secured : m.Secured) {i : Invocation}
    (receiver : ∀ r, i.receiver = some r → r.cell ∈ m.world.held) :
    Machine.Secured { m with calls := i :: m.calls } where
  world := secured.world
  calls j hj r e := by
    rcases List.mem_cons.mp hj with rfl | hj
    · exact receiver r e
    · exact secured.calls j hj r e

end Machine

/-! ## What code needs -/

/-- Something that is needed and that lasts while the surroundings of code stay. -/
class World.Lasting (P : World → Prop) : Prop where
  persists : ∀ {w w₁ : World}, w.Persists w₁ → P w → P w₁
  hold : ∀ {w : World} {cells : List Cell}, P w → P (w.hold cells)

namespace World

variable {w : World}

/-- The scope that a function captured is borne where the function is held. -/
theorem borne_captured {x : Handle .function} {p : ScopeId} (held : x.cell ∈ w.held)
    (captured : (w.function x).captured = some p) : w.Borne p := by
  have there : x.In w.count := by
    by_contra absent
    have empty : w.function x = default := Store.get_default absent
    rw [empty] at captured
    cases captured
  refine .inr ⟨x.cell, held, rfl, there, ?_⟩
  show p.cell ∈ (w.function x).cells
  rw [Function.cells, captured]
  exact List.mem_singleton_self _

/-- The scope of an instance is borne where the instance is held. -/
theorem Secured.borne_home (secured : w.Secured) {i : InstanceId} (held : i.cell ∈ w.held) :
    w.Borne (w.inst i).scope := by
  by_cases there : i.In w.count
  · exact .inr ⟨i.cell, held, rfl, there, List.mem_cons_of_mem _ List.mem_cons_self⟩
  · have empty : w.inst i = default := Store.get_default there
    rw [empty]
    exact .inl secured.root

end World

/-- A frame in which code may be run. -/
structure Frame.Stands (f : Frame) (w : World) : Prop where
  scope : w.Borne f.scope
  receiver : ∀ r, f.receiver = some r → r.cell ∈ w.held

/-- Without its receiver. -/
theorem Frame.Stands.bare {f : Frame} {w : World} (stands : f.Stands w) :
    Frame.Stands ⟨f.scope, none⟩ w := ⟨stands.scope, nofun⟩

instance (f : Frame) : World.Lasting f.Stands where
  persists h stands := ⟨stands.scope.persists h, fun r e => h.held ▸ stands.receiver r e⟩
  hold stands := ⟨stands.scope.hold, fun r e => List.mem_append_right _ (stands.receiver r e)⟩

/-- A class whose body may be run. -/
structure World.HoldsClass (c : ClassId) (w : World) : Prop where
  there : c.In w.count
  held : c.cell ∈ w.held

instance (c : ClassId) : World.Lasting (World.HoldsClass c) where
  persists h holds := ⟨h.keeper (c := c.cell) rfl holds.there, h.held ▸ holds.held⟩
  hold holds := ⟨holds.there, List.mem_append_right _ holds.held⟩

instance (c : ClassId) : World.Lasting fun w => c.In w.count where
  persists h there := h.keeper (c := c.cell) rfl there
  hold there := there

/-- The body of a class runs in its scope, which the class keeps. -/
theorem World.HoldsClass.stands {c : ClassId} {w : World} (h : World.HoldsClass c w) :
    Frame.Stands ⟨(w.classOf c).scope, none⟩ w where
  scope := .inr ⟨c.cell, h.held, rfl, h.there, List.mem_cons_self⟩
  receiver := nofun

/-! ## Runs -/

/-- A run that pays no attention to how cells are held, and secures the surroundings of code where
what it needs is given. -/
structure Run.Steady (P : World → Prop) (r : Run α) : Prop where
  blind : ∀ ⦃m m' : Machine⦄, m.Reheld m' → (r m').1 = (r m).1 ∧ (r m).2.Reheld (r m').2
  secure : ∀ m : Machine, m.Secured → P m.world →
    match r m with
    | (.error .outOfFuel, m') => m'.Secured
    | (_, m') => m.Persists m'

namespace Run.Steady

open World (Lasting)

variable {P Q : World → Prop} {s : ScopeId} {c : ClassId}

theorem pure (x : α) : Steady P (Pure.pure x) :=
  ⟨fun _ _ same => ⟨rfl, same⟩, fun m _ _ => .refl m⟩

theorem throw (e : RuntimeError) : Steady P (throw (.error e) : Run α) :=
  ⟨fun _ _ same => ⟨rfl, same⟩, fun m _ _ => .refl m⟩

theorem fail (kind : ErrorKind) : Steady P (Run.fail kind : Run α) := throw { kind }

theorem stop : Steady P (MonadExcept.throw Halt.outOfFuel : Run α) :=
  ⟨fun _ _ same => ⟨rfl, same⟩, fun _ secured _ => secured⟩

theorem look {f : World → α} (h : World.Blind f) : Steady P (Run.look f) :=
  ⟨fun _ _ same => ⟨congrArg Except.ok (h same.world), same⟩, fun m _ _ => .refl m⟩

/-- What needs less is steady all the more. -/
theorem weaken {r : Run α} (h : r.Steady Q) (less : ∀ w, P w → Q w) : r.Steady P :=
  ⟨h.blind, fun m secured needed => h.secure m secured (less _ needed)⟩

/-- An action that is within persistence where what is needed is given. -/
theorem actIn {a : Action α} (blind : Action.Blind a)
    (h : ∀ w, P w → w.Persists (a.runIn w).2) : Steady P (Run.ofAction a) where
  blind := by
    rintro ⟨w, fuel, calls⟩ ⟨w', fuel', calls'⟩ ⟨held, same⟩
    obtain rfl : fuel' = fuel := same
    cases fuel' with
    | zero => exact ⟨rfl, held, rfl⟩
    | succ fuel =>
      obtain ⟨result, after⟩ := blind held
      simp only [Run.ofAction]
      generalize a.runIn w = made at result after ⊢
      generalize a.runIn w' = made' at result after ⊢
      obtain ⟨x, w₁⟩ := made
      obtain ⟨x', w₁'⟩ := made'
      obtain rfl : x' = x := result
      cases x' with
      | ok x => exact ⟨rfl, after, rfl⟩
      | error kind => exact ⟨rfl, after, rfl⟩
  secure := by
    rintro ⟨world, fuel, calls⟩ secured needed
    cases fuel with
    | zero => exact secured
    | succ fuel =>
      have done := h world needed
      simp only [Run.ofAction]
      generalize a.runIn world = made at done ⊢
      obtain ⟨result, w'⟩ := made
      cases result with
      | ok x => exact ⟨done, rfl⟩
      | error kind => exact ⟨done, rfl⟩

theorem act {a : Action α} (blind : Action.Blind a) (h : Action.Within World.Persists a) :
    Steady P (Run.ofAction a) := actIn blind fun w _ => h w

theorem bind_blind {r : Run α} {k : α → Run β}
    (first : ∀ ⦃m m' : Machine⦄, m.Reheld m' → (r m').1 = (r m).1 ∧ (r m).2.Reheld (r m').2)
    (next : ∀ x ⦃m m' : Machine⦄, m.Reheld m' →
      ((k x) m').1 = ((k x) m).1 ∧ ((k x) m).2.Reheld ((k x) m').2) ⦃m m' : Machine⦄
    (same : m.Reheld m') :
    ((r >>= k) m').1 = ((r >>= k) m).1 ∧ ((r >>= k) m).2.Reheld ((r >>= k) m').2 := by
  obtain ⟨result, after⟩ := first same
  rw [Run.bind_apply, Run.bind_apply, result]
  generalize (r m).1 = x
  cases x with
  | ok x => exact next x after
  | error e => exact ⟨rfl, after⟩

theorem bind [Lasting P] {r : Run α} {k : α → Run β} (first : r.Steady P)
    (next : ∀ x, (k x).Steady P) : Steady P (r >>= k) where
  blind := bind_blind first.blind fun x => (next x).blind
  secure := by
    intro m secured needed
    have step := first.secure m secured needed
    rw [Run.bind_apply]
    generalize r m = made at step ⊢
    obtain ⟨result, m'⟩ := made
    match result with
    | .error .outOfFuel => exact step
    | .error (.error e) => exact step
    | .ok x =>
      have done : m.Persists m' := step
      have rest := (next x).secure m' (secured.persists done) (Lasting.persists done.world needed)
      show match (k x : Run β) m' with
        | (.error .outOfFuel, m'') => m''.Secured
        | (_, m'') => m.Persists m''
      generalize (k x : Run β) m' = made at rest ⊢
      obtain ⟨result, m''⟩ := made
      match result with
      | .error .outOfFuel => exact rest
      | .error (.error e) => exact done.trans rest
      | .ok y => exact done.trans rest

/-- What is looked up may be what the rest needs. -/
theorem look_gives {f : World → α} {k : α → Run β} (h : World.Blind f)
    (next : ∀ x, (k x).Steady fun w => P w ∧ f w = x) : Steady P (Run.look f >>= k) where
  blind := bind_blind (look (P := P) h).blind fun x => (next x).blind
  secure m secured needed := (next (f m.world)).secure m secured ⟨needed, rfl⟩

theorem look_then {f : World → α} {k : α → Run β} (h : World.Blind f)
    (next : ∀ x, (k x).Steady P) : Steady P (Run.look f >>= k) :=
  look_gives h fun x => (next x).weaken fun _ needed => needed.1

/-- What looks at nothing but what does not depend on how cells are held. -/
theorem look_plain {f : World → α} {k : α → Run β}
    (h : ∀ (w : World) (cells : List Cell), f { w with held := cells } = f w)
    (next : ∀ x, (k x).Steady P) : Steady P (Run.look f >>= k) := look_then (.plain h) next

/-- What depends on the world in which it is run. -/
theorem look_world {k : World → Run α} (same : World.Blind k) (next : ∀ w, (k w).Steady P) :
    Steady P (Run.look id >>= k) where
  blind := by
    intro m m' held
    show ((k m'.world) m').1 = ((k m.world) m).1 ∧ ((k m.world) m).2.Reheld ((k m'.world) m').2
    rw [same held.world]
    exact (next m.world).blind held
  secure m := (next m.world).secure m

theorem act_then [Lasting P] {a : Action α} {k : α → Run β} (blind : Action.Blind a)
    (h : Action.Within World.Persists a) (next : ∀ x, (k x).Steady P) :
    Steady P (Run.ofAction a >>= k) := bind (act blind h) next

/-- Where the rest needs something else, the action has to give it. -/
theorem act_gives {a : Action α} {k : α → Run β} {Q : α → World → Prop}
    (blind : Action.Blind a)
    (gives : ∀ w, w.Secured → P w →
      w.Persists (a.runIn w).2 ∧ ∀ x, (a.runIn w).1 = .ok x → Q x (a.runIn w).2)
    (next : ∀ x, (k x).Steady (Q x)) : Steady P (Run.ofAction a >>= k) where
  blind := bind_blind (actIn (P := fun _ => False) blind fun _ no => no.elim).blind
    fun x => (next x).blind
  secure := by
    rintro ⟨world, fuel, calls⟩ secured needed
    rw [Run.bind_apply]
    cases fuel with
    | zero => exact secured
    | succ fuel =>
      have given := gives world secured.world needed
      simp only [Run.ofAction]
      generalize a.runIn world = made at given ⊢
      obtain ⟨result, w₁⟩ := made
      obtain ⟨persists, gives⟩ := given
      have done : Machine.Persists ⟨world, fuel + 1, calls⟩ ⟨w₁, fuel, calls⟩ := ⟨persists, rfl⟩
      cases result with
      | error kind => exact ⟨persists, rfl⟩
      | ok x =>
        have rest := (next x).secure ⟨w₁, fuel, calls⟩ (secured.persists done) (gives x rfl)
        show match (k x : Run β) ⟨w₁, fuel, calls⟩ with
          | (.error .outOfFuel, m') => m'.Secured
          | (_, m') => Machine.Persists ⟨world, fuel + 1, calls⟩ m'
        generalize (k x : Run β) ⟨w₁, fuel, calls⟩ = made at rest ⊢
        obtain ⟨result, m'⟩ := made
        rcases result with (e | _) | x
        · exact done.trans rest
        · exact rest
        · exact done.trans rest

/-- A check that fails or does nothing. -/
theorem check_then [Lasting P] {f : World → Except ErrorKind α} {k : α → Run β}
    (h : World.Blind f) (next : ∀ x, (k x).Steady P) :
    Steady P (Run.ofAction (Action.consult f) >>= k) := act_then (.consult h) (.consult f) next

theorem mapError {r : Run α} (h : r.Steady P) {g : RuntimeError → RuntimeError} :
    Steady P (Run.mapError g r) where
  blind := by
    intro m m' same
    obtain ⟨result, after⟩ := h.blind same
    rw [Run.mapError_apply, Run.mapError_apply]
    generalize r m = made at result after ⊢
    generalize r m' = made' at result after ⊢
    obtain ⟨x, m₁⟩ := made
    obtain ⟨x', m₁'⟩ := made'
    obtain rfl : x' = x := result
    rcases x' with (e | _) | x
    · exact ⟨rfl, after⟩
    · exact ⟨rfl, after⟩
    · exact ⟨rfl, after⟩
  secure := by
    intro m secured needed
    have step := h.secure m secured needed
    rw [Run.mapError_apply]
    generalize r m = made at step ⊢
    obtain ⟨result, m'⟩ := made
    rcases result with (e | _) | x
    · exact step
    · exact step
    · exact step

/-- What is held for a while is held as before when the run has come to an end. -/
theorem holding_blind (cells : List Cell) {r : Run α}
    (h : ∀ ⦃m m' : Machine⦄, m.Reheld m' → (r m').1 = (r m).1 ∧ (r m).2.Reheld (r m').2)
    ⦃m m' : Machine⦄ (same : m.Reheld m') :
    (Run.holding cells r m').1 = (Run.holding cells r m).1 ∧
      (Run.holding cells r m).2.Reheld (Run.holding cells r m').2 := by
  have inside : Machine.Reheld { m with world := m.world.hold cells }
      { m' with world := m'.world.hold cells } := ⟨same.world.hold cells, same.fuel⟩
  obtain ⟨result, after⟩ := h inside
  have restored : ∀ {m₁ m₁' : Machine}, m₁.Reheld m₁' →
      Machine.Reheld { m₁ with world := { m₁.world with held := m.world.held } }
        { m₁' with world := { m₁'.world with held := m'.world.held } } :=
    fun after => ⟨after.world.setHeld same.world.mem_iff, after.fuel⟩
  simp only [Run.holding, Run.andFinally]
  generalize r { m with world := m.world.hold cells } = made at result after ⊢
  generalize r { m' with world := m'.world.hold cells } = made' at result after ⊢
  obtain ⟨x, m₁⟩ := made
  obtain ⟨x', m₁'⟩ := made'
  obtain rfl : x' = x := result
  rcases x' with (e | _) | x
  · exact ⟨rfl, restored after⟩
  · exact ⟨rfl, after⟩
  · exact ⟨rfl, restored after⟩

/-- What is held for a while may be what the run needs. -/
theorem holding_gives [Lasting P] {cells : List Cell} {r : Run α} (none : Scopeless cells)
    (h : r.Steady fun w => P w ∧ ∀ c ∈ cells, c ∈ w.held) : Steady P (Run.holding cells r) where
  blind := holding_blind cells h.blind
  secure := by
    intro m secured needed
    have step := h.secure { m with world := m.world.hold cells } (secured.hold none)
      ⟨Lasting.hold needed, fun c hc => List.mem_append_left _ hc⟩
    simp only [Run.holding, Run.andFinally]
    generalize r { m with world := m.world.hold cells } = made at step ⊢
    obtain ⟨result, m'⟩ := made
    rcases result with (e | _) | x
    · exact ⟨World.Persists.restore step.world, step.calls⟩
    · exact step
    · exact ⟨World.Persists.restore step.world, step.calls⟩

theorem holding [Lasting P] {cells : List Cell} {r : Run α} (none : Scopeless cells)
    (h : r.Steady P) : Steady P (Run.holding cells r) :=
  holding_gives none (h.weaken fun _ given => given.1)

theorem during {i : Invocation} {r : Run α}
    (receiver : ∀ w, P w → ∀ x, i.receiver = some x → x.cell ∈ w.held) (h : r.Steady P) :
    Steady P (Run.during i r) where
  blind := by
    intro m m' same
    have inside : Machine.Reheld { m with calls := i :: m.calls }
        { m' with calls := i :: m'.calls } := ⟨same.world, same.fuel⟩
    obtain ⟨result, after⟩ := h.blind inside
    simp only [Run.during, Run.andFinally]
    generalize r { m with calls := i :: m.calls } = made at result after ⊢
    generalize r { m' with calls := i :: m'.calls } = made' at result after ⊢
    obtain ⟨x, m₁⟩ := made
    obtain ⟨x', m₁'⟩ := made'
    obtain rfl : x' = x := result
    rcases x' with (e | _) | x
    · exact ⟨rfl, after.world, after.fuel⟩
    · exact ⟨rfl, after⟩
    · exact ⟨rfl, after.world, after.fuel⟩
  secure := by
    intro m secured needed
    have step := h.secure { m with calls := i :: m.calls }
      (secured.during (receiver m.world needed)) needed
    simp only [Run.during, Run.andFinally]
    generalize r { m with calls := i :: m.calls } = made at step ⊢
    obtain ⟨result, m'⟩ := made
    rcases result with (e | _) | x
    · exact ⟨step.world, rfl⟩
    · exact step
    · exact ⟨step.world, rfl⟩

/-- What code needs that is run in a scope against a receiver. -/
structure Enterable (t : ScopeId) (receiver : Option InstanceId) (w : World) : Prop where
  founded : w.Founded t
  receiver : ∀ r, receiver = some r → r.cell ∈ w.held

/-- Code that runs in a scope under one that is borne, until the scope is left. -/
theorem leaving {t : ScopeId} {receiver : Option InstanceId} {r : Run α}
    (inside : r.Steady (Frame.Stands ⟨t, receiver⟩)) :
    Steady (Enterable t receiver)
      (Run.followedBy (Run.holding [t.cell] r) fun w => w.removeChild s t) where
  blind := by
    intro m m' same
    obtain ⟨result, after⟩ := holding_blind [t.cell] inside.blind same
    simp only [Run.followedBy, Run.andFinally]
    generalize Run.holding [t.cell] r m = made at result after ⊢
    generalize Run.holding [t.cell] r m' = made' at result after ⊢
    obtain ⟨x, m₁⟩ := made
    obtain ⟨x', m₁'⟩ := made'
    obtain rfl : x' = x := result
    rcases x' with (e | _) | x
    · exact ⟨rfl, World.blind_removeChild s t after.world, after.fuel⟩
    · exact ⟨rfl, after⟩
    · exact ⟨rfl, World.blind_removeChild s t after.world, after.fuel⟩
  secure := by
    intro m secured needed
    have held : Machine.Secured { m with world := m.world.hold [t.cell] } :=
      ⟨secured.world.enter needed.founded,
        fun i hi r e => List.mem_cons_of_mem _ (secured.calls i hi r e)⟩
    have stands : Frame.Stands ⟨t, receiver⟩ (m.world.hold [t.cell]) :=
      ⟨.inl List.mem_cons_self, fun r e => List.mem_cons_of_mem _ (needed.receiver r e)⟩
    have step := inside.secure { m with world := m.world.hold [t.cell] } held stands
    simp only [Run.followedBy, Run.holding, Run.andFinally]
    generalize r { m with world := m.world.hold [t.cell] } = made at step ⊢
    obtain ⟨result, m'⟩ := made
    have left : Machine.Persists { m with world := m.world.hold [t.cell] } m' →
        m.world.Persists (({ m'.world with held := m.world.held } : World).removeChild s t) :=
      fun step => (World.Persists.restore step.world).trans (World.persists_removeChild _ s t)
    rcases result with (e | _) | x
    · exact ⟨left step, step.calls⟩
    · exact step
    · exact ⟨left step, step.calls⟩

/-- Code that runs in a new scope under one that is borne. -/
theorem entering {enter : Action ScopeId} {body : ScopeId → Run α} {receiver : Option InstanceId}
    (inside : ∀ t, (body t).Steady (Frame.Stands ⟨t, receiver⟩)) (blind : Action.Blind enter)
    (enters : ∀ w, w.Secured → P w → match enter.runIn w with
      | (.ok t, w₁) => w.Persists w₁ ∧ w₁.Founded t
      | (.error _, w₁) => w.Persists w₁)
    (holds : ∀ w, P w → ∀ r, receiver = some r → r.cell ∈ w.held) :
    Steady P (Run.ofAction enter >>= fun t =>
      Run.followedBy (Run.holding [t.cell] (body t)) fun w => w.removeChild s t) := by
  refine act_gives (Q := fun t => Enterable t receiver) blind (fun w secured needed => ?_)
    fun t => leaving (inside t)
  have entered := enters w secured needed
  generalize enter.runIn w = made at entered ⊢
  obtain ⟨result, w₁⟩ := made
  cases result with
  | error kind => exact ⟨entered, nofun⟩
  | ok t =>
    obtain ⟨persists, founded⟩ := entered
    refine ⟨persists, fun x same => ?_⟩
    cases same
    exact ⟨founded, fun r e => persists.held ▸ holds w needed r e⟩

end Run.Steady

end ScopeLang
