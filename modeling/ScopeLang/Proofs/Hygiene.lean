/-
# What a block leaves behind

The body of a block runs in a scope of its own, and whatever code it comes to runs
somewhere else again: a call starts from a captured scope or from the scope of an
instance, the body of a class in a scope that is made for it.  So no code in the
course of a block runs in the scope that the block stands in (`World.Elsewhere`),
and only there variables are declared and functions, classes and aliases
registered.  What reaches the scope are assignments, and these keep names, flags
and declared types.

This is about scopes in which statements are run.  Variables of an instance, which
is no such scope, are declared from its methods.
-/
import ScopeLang.Proofs.Constants

namespace ScopeLang

variable {D : Dialect} {w w₀ w₁ : World} {s t : ScopeId} {α β γ : Type}

/-! ## What is left by a run -/

/-- Where a run has a result, `Q` holds of it in the world that it leaves; else `F` does of this
world, be it an error or lack of fuel that ends the run. -/
def Run.Leaves (r : Run α) (Q : α → World → Prop) (F : World → Prop) (m : Machine) : Prop :=
  match r m with
  | (.ok x, m') => Q x m'.world
  | (.error _, m') => F m'.world

namespace Run.Leaves

variable {r : Run α} {Q : α → World → Prop} {R : β → World → Prop} {F : World → Prop} {m : Machine}

theorem stop {h : Halt} (f : F m.world) : (throw h : Run α).Leaves Q F m := f

theorem pure {x : α} (q : Q x m.world) : (Pure.pure x : Run α).Leaves Q F m := q

theorem fail {kind : ErrorKind} (f : F m.world) : (Run.fail kind : Run α).Leaves Q F m := f

theorem look_then {g : World → γ} {k : γ → Run α} (h : (k (g m.world)).Leaves Q F m) :
    (Run.look g >>= k).Leaves Q F m := h

theorem change_then {g : World → γ × World} {k : γ → Run α} (f : F m.world)
    (h : ∀ fuel, (k (g m.world).1).Leaves Q F ⟨(g m.world).2, fuel, m.calls⟩) :
    (Run.change g >>= k).Leaves Q F m := by
  obtain ⟨world, fuel, calls⟩ := m
  cases fuel with
  | zero => exact f
  | succ fuel => exact h fuel

theorem act {a : Action α} (stop : F m.world) (done : ∀ x w, a.runIn m.world = (.ok x, w) → Q x w)
    (failed : ∀ e w, a.runIn m.world = (.error e, w) → F w) :
    (Run.ofAction a).Leaves Q F m := by
  obtain ⟨world, fuel, calls⟩ := m
  cases fuel with
  | zero => exact stop
  | succ fuel =>
    simp only [Leaves, Run.ofAction]
    generalize a.runIn world = made at done failed ⊢
    obtain ⟨result, w⟩ := made
    cases result with
    | ok x => exact done x w rfl
    | error e => exact failed e w rfl

theorem bind {k : α → Run β} (h : r.Leaves Q F m)
    (next : ∀ x m', Q x m'.world → (k x).Leaves R F m') : (r >>= k).Leaves R F m := by
  simp only [Leaves, Run.bind_apply] at h ⊢
  generalize r m = made at h ⊢
  obtain ⟨result, m'⟩ := made
  cases result with
  | ok x => exact next x m' h
  | error e => exact h

theorem mono {R : α → World → Prop} {G : World → Prop} (h : r.Leaves Q F m)
    (done : ∀ x w, Q x w → R x w) (failed : ∀ w, F w → G w) : r.Leaves R G m := by
  simp only [Leaves] at h ⊢
  generalize r m = made at h ⊢
  obtain ⟨result, m'⟩ := made
  cases result with
  | ok x => exact done x m'.world h
  | error e => exact failed m'.world h

theorem and {R : α → World → Prop} {G : World → Prop} (h : r.Leaves Q F m) (i : r.Leaves R G m) :
    r.Leaves (fun x w => Q x w ∧ R x w) (fun w => F w ∧ G w) m := by
  simp only [Leaves] at h i ⊢
  generalize r m = made at h i ⊢
  obtain ⟨result, m'⟩ := made
  cases result <;> exact ⟨h, i⟩

/-- A property of the world alone that a run leaves in any case. -/
theorem of_world (h : F (r m).2.world) : r.Leaves (fun _ => F) F m := by
  simp only [Leaves]
  generalize r m = made at h ⊢
  obtain ⟨result, m'⟩ := made
  cases result <;> exact h

theorem world (h : r.Leaves (fun _ => F) F m) : F (r m).2.world := by
  simp only [Leaves] at h
  generalize r m = made at h ⊢
  obtain ⟨result, m'⟩ := made
  cases result <;> exact h

/-- What is left where the run has a result. -/
theorem done (h : r.Leaves Q F m) (result : (r m).1.isOk = true) : ∃ x, Q x (r m).2.world := by
  simp only [Leaves] at h
  generalize r m = made at h result ⊢
  obtain ⟨x | x, m'⟩ := made
  · cases result
  · exact ⟨x, h⟩

/-- What is left where it has none. -/
theorem failed (h : r.Leaves Q F m) (result : (r m).1.isOk = false) : F (r m).2.world := by
  simp only [Leaves] at h
  generalize r m = made at h result ⊢
  obtain ⟨x | x, m'⟩ := made
  · exact h
  · cases result

theorem mapError {g : RuntimeError → RuntimeError} (h : r.Leaves Q F m) :
    (Run.mapError g r).Leaves Q F m := by
  simp only [Leaves, Run.mapError_apply] at h ⊢
  generalize r m = made at h ⊢
  obtain ⟨result, m'⟩ := made
  rcases result with (_ | _) | x <;> exact h

/-- A run that is followed by a change which makes no difference. -/
theorem followedBy {change : World → World} (h : r.Leaves Q F m)
    (done : ∀ x w, Q x w → Q x (change w)) (failed : ∀ w, F w → F (change w)) :
    (Run.followedBy r change).Leaves Q F m := by
  simp only [Leaves, Run.followedBy, Run.andFinally] at h ⊢
  generalize r m = made at h ⊢
  obtain ⟨result, m'⟩ := made
  rcases result with (_ | _) | x
  · exact failed _ h
  · exact h
  · exact done x _ h

theorem holding {cells : List Cell} (h : r.Leaves Q F { m with world := m.world.hold cells })
    (done : ∀ x w held, Q x w → Q x { w with held }) (failed : ∀ w held, F w → F { w with held }) :
    (Run.holding cells r).Leaves Q F m := by
  simp only [Leaves, Run.holding, Run.andFinally] at h ⊢
  generalize r { m with world := m.world.hold cells } = made at h ⊢
  obtain ⟨result, m'⟩ := made
  rcases result with (_ | _) | x
  · exact failed _ _ h
  · exact h
  · exact done x _ _ h

/-- A statement leaves what its node leaves, whatever the depth of the evaluator. -/
theorem interpret {config : Config} {host : Host} {node : Node} {span : Span} {f : Frame}
    {Q : Outcome → World → Prop} (start : F m.world)
    (h : ∀ n fuel, ((knot config host n).node node f).Leaves Q F { m with fuel }) (n : Nat) :
    ((knot config host n).interpret ⟨node, span⟩ f).Leaves Q F m := by
  cases n with
  | zero => exact stop start
  | succ n =>
    refine change_then (g := fun w => ((), w)) start fun fuel => ?_
    exact look_then (g := fun w => (w.scope f.scope).label) (mapError (h n fuel))

end Run.Leaves

/-- An invariant that holds where a frame has been entered still holds when a run in this frame has
come to anything. -/
theorem Invariant.leaves {I : Frame → List Invocation → World → Prop} (inv : Invariant D I)
    {f : Frame} {r : Run α} {Q : α → World → Prop} {F : World → Prop} {cells : List Cell}
    {fuel : Nat} {calls : List Invocation} (ready : Ready D f calls w) (i : I f calls w)
    (there : ∀ c ∈ cells, c.In w.count) (leads : Leads D f r Q ⟨w.hold cells, fuel, calls⟩)
    (closed : ∀ {f' calls' w'}, Sound D w' → w.Grows w' → I f' calls' w' → F w') :
    r.Leaves (fun _ => F) F ⟨w.hold cells, fuel, calls⟩ := by
  have start : Step D f.scope w (w.hold cells) := .hold there ready.sound
  have ready' := ready.hold there
  obtain ⟨f', reach⟩ := leads.reach ready'
  obtain ⟨inside, g⟩ := reach.kept ready'
  exact .of_world (closed inside.sound ((start.kept ready.sound ready.frame.scope).2.trans g)
    (inv.reach reach ready' (inv.step ready i start)))

/-! ## Scopes that keep their shape -/

/-- The same functions, classes, aliases and globals, and variables of the same names, which have
persisted. -/
structure Scope.SameShape (a b : Scope) : Prop extends a.SameDefinitions b where
  persist : ∀ n, Option.Rel Binding.Persists (a.bindings.get? n) (b.bindings.get? n)

theorem Binding.persists_refl : ∀ o : Option Binding, Option.Rel Binding.Persists o o
  | some a => .some (.refl a)
  | none => .none

theorem Binding.persists_trans : ∀ {o p q : Option Binding}, Option.Rel Binding.Persists o p →
    Option.Rel Binding.Persists p q → Option.Rel Binding.Persists o q
  | _, _, _, .some h, .some i => .some (h.trans i)
  | _, _, _, .none, .none => .none

namespace Scope.SameShape

theorem of_bindings {a b : Scope} (same : a.SameDefinitions b) (bindings : b.bindings = a.bindings) :
    a.SameShape b := ⟨same, fun _ => bindings ▸ Binding.persists_refl _⟩

theorem of_eq {a b : Scope} (h : b = a) : a.SameShape b :=
  of_bindings (.of_eq h) (congrArg Scope.bindings h)

theorem trans {a b c : Scope} (h : a.SameShape b) (i : b.SameShape c) : a.SameShape c :=
  ⟨h.toSameDefinitions.trans i.toSameDefinitions, fun n =>
    Binding.persists_trans (h.persist n) (i.persist n)⟩

end Scope.SameShape

/-- Where nothing is declared, every variable persists and there are no more of them. -/
theorem World.Alters.variables {bindings : Table Binding} (h : w.Alters s t bindings)
    (closed : ¬ w.MayDeclare s t) (n : String) :
    Option.Rel Binding.Persists ((w.scope t).bindings.get? n) (bindings.get? n) := by
  cases h with
  | same => exact Binding.persists_refl _
  | declare may _ => exact absurd may closed
  | @assign m a v _ found variable_ =>
    by_cases same : n = m
    · subst same
      rw [Table.get?_insert_same, show (w.scope t).bindings.get? n = some a from found]
      exact .some (.of_value variable_)
    · rw [Table.get?_insert_other same]
      exact Binding.persists_refl _

/-! ## Code elsewhere -/

namespace ScopeKind

/-- The kinds of scopes in which statements are run: roots, blocks, calls and class bodies. -/
def runsStatements : ScopeKind → Bool
  | root | block | functionCall | methodCall | classScope => true
  | classDef | members | detached | isolated => false

theorem runsStatements_of_isActivation {k : ScopeKind} (h : k.isActivation = true) :
    k.runsStatements = true := by
  cases k <;> first | rfl | cases h

theorem not_runsStatements_of_hidesParent {k : ScopeKind} (h : k.hidesParent = true) :
    k.runsStatements = false := by
  cases k <;> first | rfl | cases h

end ScopeKind

/-- An invocation starts where it is made, or from a scope in which no statement is run. -/
theorem World.Kin.entry_kind (kin : w.Kin D) (sound : Sound D w) {f : Frame} {i : Invocation}
    (hf : f.In w.count) (h : w.Invokes f i) :
    w.entry f.scope i = f.scope ∨
      (w.scope (w.entry f.scope i)).kind.runsStatements = false := by
  have home : ∀ r, i.receiver = some r → (w.scope (w.inst r).scope).kind.runsStatements = false :=
    fun r e => by rw [kin.homeKind (h.receiver_in hf r e)]; rfl
  cases h with
  | @function access g hg =>
    simp only [World.entry]
    split
    · rename_i b body
      obtain ⟨p, hp⟩ := Option.isSome_iff_exists.mp (sound.closed hg body)
      rw [hp, Option.getD_some]
      exact .inr (ScopeKind.not_runsStatements_of_hidesParent (kin.captured hg hp))
    · exact .inl rfl
  | member =>
    simp only [World.entry]
    split
    · rename_i e
      exact .inr (home _ e)
    · exact .inl rfl
  | method =>
    simp only [World.entry]
    split
    · rename_i e
      exact .inr (home _ e)
    · exact .inl rfl

/-- Code that does not run in some scope of an earlier world, which has kept its shape. -/
structure World.Elsewhere (D : Dialect) (w₀ : World) (t : ScopeId) (f : Frame)
    (calls : List Invocation) (w : World) : Prop where
  kin : w.Kin D
  grown : w₀.Grows w
  away : f.scope ≠ t
  inner : (w.scope f.scope).kind ≠ .root
  shape : (w₀.scope t).SameShape (w.scope t)

namespace World.Elsewhere

variable {r : Option InstanceId} {calls : List Invocation}

/-- A new scope for code is elsewhere. -/
theorem child (old : t.In w₀.count) (g : w₀.Grows w) (shape : (w₀.scope t).SameShape (w.scope t))
    {kind : ScopeKind} {label : String} (activation : kind.isActivation = true)
    (kin : (w.makeCallScope s kind label).2.Kin D) :
    w₀.Elsewhere D t ⟨(w.makeCallScope s kind label).1, r⟩ calls
      (w.makeCallScope s kind label).2 := by
  have there := old.mono g.count
  refine ⟨kin, g.trans (w.grows_derive ..), fun here => ?_, fun root => ?_,
    shape.trans (.of_eq (scope_derive_old there _ _ _))⟩
  · rw [← here] at there
    exact w.derive_new s kind label (some s) there
  · rw [makeCallScope, w.scope_derive] at root
    exact ScopeKind.ne_root_of_isActivation activation root

/-- So is the scope in which the body of a new class runs. -/
theorem classBody (old : t.In w₀.count) (g : w₀.Grows w)
    (shape : (w₀.scope t).SameShape (w.scope t)) {name accessor : String}
    (grown : w.Grows (w.addClass s name accessor (some s)).2)
    (kin : (w.addClass s name accessor (some s)).2.Kin D) :
    w₀.Elsewhere D t ⟨(w.makeCallScope s .classScope name).1, r⟩ calls
      (w.addClass s name accessor (some s)).2 := by
  have there := old.mono g.count
  refine ⟨kin, g.trans grown, fun here => ?_, fun root => ?_,
    shape.trans (.of_eq (scope_derive_old there _ _ _))⟩
  · rw [← here] at there
    exact w.derive_new s .classScope name (some s) there
  · have class_ := kin.classKind (w.addClass_in s name accessor (some s))
    rw [w.home_addClass, root] at class_
    cases class_

end World.Elsewhere

section Elsewhere

variable (old : t.In w₀.count) (live : (w₀.scope t).kind.runsStatements = true)

include old live

theorem Step.shape (mute : ¬ D.hostWrites) (h : Step D s w w₁) (sound : Sound D w)
    (hs : s.In w.count) (kin : w.Kin D) (g : w₀.Grows w) (inner : (w.scope s).kind ≠ .root)
    (away : s ≠ t) : (w.scope t).SameShape (w₁.scope t) := by
  have there := old.mono g.count
  refine ⟨h.definitions sound hs inner there away.symm,
    (h.alters mute sound hs there).variables ?_⟩
  rintro (here | ⟨i, hi, rfl⟩)
  · exact away here.symm
  · rw [← (g.scope old).kind, kin.homeKind hi] at live
    cases live

theorem elsewhere_invariant (mute : ¬ D.hostWrites) : Invariant D (w₀.Elsewhere D t) where
  step {f calls w w₁} ready i h := by
    have g := (h.kept ready.sound ready.frame.scope).2
    refine ⟨h.kin ready.sound ready.frame.scope i.kin, i.grown.trans g, i.away, ?_,
      i.shape.trans (h.shape old live mute ready.sound ready.frame.scope i.kin i.grown i.inner
        i.away)⟩
    rw [(g.scope ready.frame.scope).kind]
    exact i.inner
  enter {f calls w f' calls' w₁} ready i h := by
    have kin := kin_invariant.enter ready i.kin h
    have g := (h.kept ready).2
    cases h with
    | scope label activation => exact .child old i.grown i.shape activation kin
    | classBody name accessor _ _ => exact .classBody old i.grown i.shape g kin
    | invocation invokes =>
      rcases i.kin.entry_kind ready.sound ready.frame invokes with same | silent
      · exact ⟨kin, i.grown, fun e => i.away (same.symm.trans e), same.symm ▸ i.inner, i.shape⟩
      · refine ⟨kin, i.grown, fun e => ?_, fun root => ?_, i.shape⟩
        · rw [show w.entry f.scope _ = t from e, (i.grown.scope old).kind, live] at silent
          cases silent
        · rw [show (w.scope (w.entry f.scope _)).kind = .root from root] at silent
          cases silent
    | receiver => exact ⟨kin, i.grown, i.away, i.inner, i.shape⟩
  leave ready i h g ready' i' := by
    have g' := (h.kept ready).2.trans g
    refine ⟨i'.kin, i'.grown, i.away, ?_, i'.shape⟩
    rw [(g'.scope ready.frame.scope).kind]
    exact i.inner

end Elsewhere

/-! ## Blocks -/

/-- The links of a scope are no part of its shape. -/
theorem World.shape_relink (w : World) (u t : ScopeId) (children : List ScopeId)
    (owner : Option ScopeId) :
    (w.scope t).SameShape ((w.setScope u { w.scope u with children, owner }).scope t) := by
  rw [scope_setScope]
  split
  · rename_i here
    rw [here.1]
    exact .of_bindings ⟨rfl, rfl, rfl, rfl⟩ rfl
  · exact .of_eq rfl

theorem World.shape_removeChild (w : World) (s child t : ScopeId) :
    (w.scope t).SameShape ((w.removeChild s child).scope t) := by
  simp only [removeChild]
  split
  · exact (w.shape_relink s t _ _).trans (shape_relink _ child t _ none)
  · exact .of_eq rfl

/-- The scope that a block stands in keeps its shape. -/
theorem Knot.leaves_blockStatement {k : Knot} (sound : k.Sound D) (mute : ¬ D.hostWrites)
    {f : Frame} {m : Machine} (ready : Ready D f m.calls m.world) (kin : m.world.Kin D)
    (live : (m.world.scope f.scope).kind.runsStatements = true) {body : List Statement}
    (marks : D.Admits (blockMarks body)) :
    Run.Leaves (k.blockStatement body f)
      (fun _ w => (m.world.scope f.scope).SameShape (w.scope f.scope))
      (fun w => (m.world.scope f.scope).SameShape (w.scope f.scope)) m := by
  have inv := elsewhere_invariant ready.frame.scope live mute
  have entered : Enter f m.calls m.world _ m.calls _ :=
    .scope (m.world.scope f.scope).label (rfl : ScopeKind.block.isActivation = true)
  obtain ⟨inside, -⟩ := entered.kept ready
  have start : m.world.Elsewhere D f.scope ⟨_, f.receiver⟩ m.calls _ :=
    .child ready.frame.scope (.refl m.world) (.of_eq rfl) rfl (kin_invariant.enter ready kin entered)
  rw [Knot.blockStatement]
  refine .look_then (.change_then (.of_eq rfl) fun fuel => ?_)
  simp only [World.createChild]
  generalize m.world.makeCallScope f.scope .block (m.world.scope f.scope).label = new
    at inside start ⊢
  have listed : Trace D ⟨new.1, f.receiver⟩ m.calls new.2 (new.2.addChild f.scope new.1) :=
    (steps_addChild _ _).trace
  have ready' := listed.ready inside
  refine .followedBy (.holding (inv.leaves ready' (inv.trace listed inside start)
    (fun c hc => List.mem_singleton.mp hc ▸ ready'.frame.scope) (leads_block sound marks)
    fun _ _ i => i.shape) (fun _ _ _ h => h) fun _ _ h => h) (fun _ w h => ?_) fun w h => ?_
  · exact h.trans (w.shape_removeChild ..)
  · exact h.trans (w.shape_removeChild ..)

/-- At every moment of every program, a block that stands in a scope leaves it in the same shape,
with whatever fuel it runs and whatever it comes to. -/
theorem Session.Reachable.blocks_keep_shape {natives : String → Prop} {s : Session}
    (h : s.Reachable (.checked natives)) (obeys : s.host.Obeys (.checked natives)) {fuel : Nat}
    {program : List Statement} {f : Frame} (runs : (s.reached fuel program).Runs f)
    (live : ((s.reached fuel program).world.scope f.scope).kind.runsStatements = true)
    (n left : Nat) (body : List Statement) (span : Span) :
    ((s.reached fuel program).world.scope f.scope).SameShape
      (((knot s.config s.host n).interpret ⟨.block body, span⟩ f
        { s.reached fuel program with fuel := left }).2.world.scope f.scope) := by
  have admitted := Dialect.admits_of_sharing (D := .checked natives) trivial
  obtain ⟨g, ready, kin⟩ := h.reached kin_invariant kin_start obeys (admitted _) fuel
  generalize s.reached fuel program = m at runs live ready kin ⊢
  have here := runs.ready ready
  have left : Run.Leaves ((knot s.config s.host n).interpret ⟨.block body, span⟩ f)
      (fun _ w => (m.world.scope f.scope).SameShape (w.scope f.scope))
      (fun w => (m.world.scope f.scope).SameShape (w.scope f.scope)) { m with fuel := left } := by
    refine .interpret (.of_eq rfl) (fun n fuel => ?_) n
    exact Knot.leaves_blockStatement (m := { m with fuel }) (knot_sound obeys n) id here kin live
      (admitted _)
  exact left.world

/-- A block that assigns to `x`, declares a variable, a function and a class of its own, and then
fails. -/
def halfway : List Statement :=
  [⟨.assign "x" (.ofTerm (.literal (.int 5))), Span.none⟩,
    declaring "y" (.literal (.int 1)),
    ⟨.function (closureNamed "g" []), Span.none⟩,
    ⟨.classDef ⟨"C", none, [methodNamed "construct" []]⟩, Span.none⟩,
    declaring "z" (.variable "missing")]

/-- A session in which programs are run. -/
def shadowed : Session := .start {} Kit.host

/-- What the block comes to at the root of a program that has a variable `x` and a function. -/
def afterHalfway : Except Halt Outcome × Machine :=
  (knot shadowed.config shadowed.host 20).interpret ⟨.block halfway, Span.none⟩ ⟨⟨0⟩, none⟩
    { shadowed.reached 20 shadowing with fuel := 40 }

/-- The block has failed and `x` is no longer zero, but the root has the same shape. -/
theorem halfway_keeps_shape :
    wants "missing" (afterHalfway.1.map Outcome.value) = true ∧
      (afterHalfway.2.world.localBinding? ⟨0⟩ "x").any (fun b => World.empty.isTruthy b.value) =
        true ∧
      ((shadowed.reached 20 shadowing).world.scope ⟨0⟩).SameShape
        (afterHalfway.2.world.scope ⟨0⟩) := by
  refine ⟨by decide +kernel, by decide +kernel, ?_⟩
  have start : shadowed.Reachable (.checked fun _ => False) := .start {} Kit.host
  have obeys : shadowed.host.Obeys (.checked fun _ => False) := Kit.host_obeys fun _ no => no.elim
  have runs : (shadowed.reached 20 shadowing).Runs ⟨⟨0⟩, none⟩ := ⟨by decide +kernel, nofun⟩
  rw [afterHalfway]
  exact start.blocks_keep_shape obeys runs (by decide +kernel) 20 40 halfway Span.none

end ScopeLang
