/-
# Chains that go on after an assignment

An assignment or a declaration may be the head of a chain.  The elements that follow act on the
value that was computed, whereas a chain that starts by reading the variable acts on what the
variable holds.  Storing is the only thing between the two (`Knot.HasStored`): it stamps the
attributes of the variable on the value, and it copies the value unless the variable or the value is
mutable (`Binding.Shares`).  Attributes do not show in what a chain does, only in those of its
result (`ComesToSame`).  So the chains come to the same wherever nothing has been copied.

That a variable which has been assigned is read back takes the way up from the scope, which is
still there because the surroundings of code in progress are held (`Machine.Supports`).
-/
import ScopeLang.Proofs.Eliding
import ScopeLang.Proofs.Independence
import ScopeLang.Proofs.Lenses
import ScopeLang.Proofs.Signals

namespace ScopeLang

variable {D : Dialect} {w w' : World} {d : Datum} {a a' : Attributes} {u v c : Value} {f : Frame}
  {t : ScopeId} {i : InstanceId} {x : String} {α β : Type}

/-! ## Values that differ in attributes -/

/-- Runs that end in the same state, in the same error or with values that differ in attributes
at most. -/
structure ComesToSame (x y : Except Halt Value × Machine) : Prop where
  result : y.1.map Value.datum = x.1.map Value.datum
  state : y.2 = x.2

namespace ComesToSame

variable {m : Machine}

theorem refl (x : Except Halt Value × Machine) : ComesToSame x x := ⟨rfl, rfl⟩

theorem holding {q q' : Run Value} {cells : List Cell}
    (h : ComesToSame (q { m with world := m.world.hold cells })
      (q' { m with world := m.world.hold cells })) :
    ComesToSame (Run.holding cells q m) (Run.holding cells q' m) := by
  obtain ⟨result, state⟩ := h
  simp only [Run.holding, Run.andFinally]
  generalize q { m with world := m.world.hold cells } = x at result state ⊢
  generalize q' { m with world := m.world.hold cells } = y at result state ⊢
  obtain ⟨x, m₁⟩ := x
  obtain ⟨y, m₂⟩ := y
  obtain rfl : m₂ = m₁ := state
  rcases x with (e | _) | x <;> rcases y with (e' | _) | y <;>
    first
    | exact ⟨result, rfl⟩
    | cases result

/-- What follows a run that both begin with. -/
theorem bind {q : Run α} {k k' : α → Run Value}
    (next : ∀ x m₁, ComesToSame (k x m₁) (k' x m₁)) : ComesToSame ((q >>= k) m) ((q >>= k') m) := by
  rw [Run.bind_apply, Run.bind_apply]
  rcases q m with ⟨e | x, m₁⟩
  · exact .refl _
  · exact next x m₁

/-- What makes nothing of the attributes goes on alike. -/
theorem andThen {q q' : Run Value} {k : Value → Run Value} (h : ComesToSame (q m) (q' m))
    (next : ∀ {x y : Value} {m₁}, y.datum = x.datum → ComesToSame (k x m₁) (k y m₁)) :
    ComesToSame ((q >>= k) m) ((q' >>= k) m) := by
  obtain ⟨result, state⟩ := h
  rw [Run.bind_apply, Run.bind_apply]
  generalize q m = x at result state ⊢
  generalize q' m = y at result state ⊢
  obtain ⟨x, m₁⟩ := x
  obtain ⟨y, m₂⟩ := y
  obtain rfl : m₂ = m₁ := state
  rcases x with e | x <;> rcases y with e' | y
  · obtain rfl : e' = e := Except.error.inj result
    exact .refl _
  · cases result
  · cases result
  · exact next (Except.ok.inj result)

/-- Actions that come to the same in a world are steps that do. -/
theorem act {x y : Action Value} (state : (y.runIn m.world).2 = (x.runIn m.world).2)
    (result : (y.runIn m.world).1.map Value.datum = (x.runIn m.world).1.map Value.datum) :
    ComesToSame (Run.ofAction x m) (Run.ofAction y m) := by
  obtain ⟨world, fuel, calls⟩ := m
  cases fuel with
  | zero => exact .refl _
  | succ fuel =>
    simp only [Run.ofAction]
    generalize x.runIn world = p at state result ⊢
    generalize y.runIn world = q at state result ⊢
    obtain ⟨p, w₁⟩ := p
    obtain ⟨q, w₂⟩ := q
    obtain rfl : w₂ = w₁ := state
    rcases p with e | p <;> rcases q with e' | q
    · obtain rfl : e' = e := Except.error.inj result
      exact .refl _
    · cases result
    · cases result
    · exact ⟨congrArg Except.ok (Except.ok.inj result), rfl⟩

end ComesToSame

/-- A deep copy keeps the attributes and makes nothing of them. -/
theorem World.copyWithin_restamp (n : Nat) (d : Datum) (a a' : Attributes) (w : World) :
    (copyWithin n ⟨d, a'⟩ w).2 = (copyWithin n ⟨d, a⟩ w).2 ∧
      (copyWithin n ⟨d, a'⟩ w).1.datum = (copyWithin n ⟨d, a⟩ w).1.datum := by
  cases n with
  | zero => exact ⟨rfl, rfl⟩
  | succ n => cases d <;> exact ⟨rfl, rfl⟩

/-- All operations but copying are the same, whatever the attributes. -/
theorem intrinsic?_restamp {name : String} (other : name ≠ "clone") :
    intrinsic? ⟨d, a'⟩ name = intrinsic? ⟨d, a⟩ name := by
  unfold intrinsic? commonIntrinsic?
  split
  · exact absurd rfl other
  · rfl
  · rfl

namespace Knot

variable {k : Knot} {m : Machine}

theorem applyIntrinsic_restamp (element : Element) (name : String) (arguments : List Value) :
    ComesToSame (applyIntrinsic ⟨d, a⟩ element name arguments m)
      (applyIntrinsic ⟨d, a'⟩ element name arguments m) := by
  by_cases clone : name = "clone"
  · subst clone
    cases arguments with
    | cons first rest => exact .refl _
    | nil =>
      obtain ⟨state, datum⟩ := m.world.copyWithin_restamp (m.world.size + 1) d a a'
      refine ComesToSame.act (x := Action.change fun w => w.deepCopy ⟨d, a⟩)
        (y := Action.change fun w => w.deepCopy ⟨d, a'⟩) state (congrArg Except.ok datum)
  · unfold applyIntrinsic
    rw [intrinsic?_restamp clone]
    exact .refl _

theorem virtual_restamp (element : Element) :
    ComesToSame (k.virtual element ⟨d, a⟩ f m) (k.virtual element ⟨d, a'⟩ f m) := by
  refine .holding ?_
  cases element with
  | read name => exact applyIntrinsic_restamp _ name []
  | call name arguments =>
    refine .bind fun given m₁ => ?_
    split
    · exact .holding (applyIntrinsic_restamp _ name given.positional)
    · exact .refl _
  | assign name value | declare d => exact .refl _

/-- An element acts on the datum of a value. -/
theorem chainStep_restamp (element : Element) :
    ComesToSame (k.chainStep element ⟨d, a⟩ f m) (k.chainStep element ⟨d, a'⟩ f m) := by
  cases d with
  | object i => exact .refl _
  | _ => exact virtual_restamp element

/-- The elements of a chain act on the datum of the value that they go on from. -/
theorem chainSteps_restamp (k : Knot) (f : Frame) (rest : List Element) :
    ∀ {u v : Value} {m : Machine}, v.datum = u.datum →
      ComesToSame (k.chainSteps f u rest m) (k.chainSteps f v rest m) := by
  induction rest with
  | nil => exact fun same => ⟨congrArg Except.ok same, rfl⟩
  | cons element rest ih =>
    rintro ⟨d, a⟩ ⟨d', a'⟩ m same
    obtain rfl : d' = d := same
    exact (chainStep_restamp element).andThen ih

end Knot

/-! ## What a variable holds of a value -/

/-- Whether a variable holds a value that is stored in it itself, and not a copy. -/
def Binding.Shares (b : Binding) (v : Value) : Prop :=
  b.flags.isMutable = true ∨ v.attrs.isMutable = true ∨ v.contents = []

/-- The variable `b` holds `c` of a value that was stored in it in the world `w`: the value as the
variable prepares it.  This is the value itself if one of the two is mutable or there is nothing to
copy, else another container or instance, which was not there before. -/
structure Binding.HoldsOf (b : Binding) (w : World) (v c : Value) : Prop where
  prepared : c = (b.prepare v w).1
  shared : b.Shares v → c.datum = v.datum
  copied : ¬ b.Shares v → c.contents ≠ [] ∧ ∀ x ∈ c.contents, ¬ x.In w.count ∧ x ∉ v.contents

theorem World.spares_duplicateScopeBy {copy : Value → World → Value × World}
    (each : ∀ v w, World.Spares w (copy v w).2) (s : ScopeId) (w : World) :
    w.Spares (duplicateScopeBy copy s w).2 := by
  rw [duplicateScopeBy]
  refine Spares.trans (spares_mapState (fun e w => ?_) _ w) (spares_newScope _ _)
  exact spares_duplicateBy each e.2.value w

/-- A deep copy of a container or an instance is one that was not there. -/
theorem World.deepCopy_new (w : World) (v : Value) :
    ∀ x ∈ (w.deepCopy v).1.contents, ¬ x.In w.count := by
  obtain ⟨d, a⟩ := v
  have item : ∀ v w₁, World.Spares w₁ (copyWithin w.size v w₁).2 := spares_copyWithin w.size
  intro x mem old
  cases d with
  | list h =>
    obtain rfl := List.mem_singleton.mp mem
    have made := spares_mapState item (w.items h) w
    exact newItems_new _ (mapState (copyWithin w.size) (w.items h) w).1
      (Cell.In.mono made.count old)
  | array h =>
    obtain rfl := List.mem_singleton.mp mem
    have made := spares_mapState item (w.items h) w
    exact newItems_new _ (mapState (copyWithin w.size) (w.items h) w).1
      (Cell.In.mono made.count old)
  | dict h =>
    obtain rfl := List.mem_singleton.mp mem
    have made := spares_mapState (f := copyEntry (copyWithin w.size))
      (fun e w₁ => (item e.1 w₁).trans (item e.2 _)) (w.entries h) w
    exact newEntries_new _ (mapState (copyEntry (copyWithin w.size)) (w.entries h) w).1
      (Cell.In.mono made.count old)
  | set h =>
    obtain rfl := List.mem_singleton.mp mem
    have made := spares_mapState item (w.elements h) w
    exact newElements_new _ (mapState (copyWithin w.size) (w.elements h) w).1
      (Cell.In.mono made.count old)
  | object h =>
    obtain rfl := List.mem_singleton.mp mem
    have made := spares_duplicateScopeBy item (w.inst h).scope w
    exact newInstance_new _
      { w.inst h with scope := (duplicateScopeBy (copyWithin w.size) (w.inst h).scope w).1 }
      (Cell.In.mono made.count old)
  | _ => exact List.not_mem_nil mem

/-- What is neither a container nor an instance is its own copy. -/
theorem World.deepCopy_datum (none : v.contents = []) :
    (w.deepCopy v).1.datum = v.datum := by
  obtain ⟨d, a⟩ := v
  cases d with
  | list h | array h | dict h | set h | object h => exact absurd none (List.cons_ne_nil _ _)
  | _ => rfl

/-- The copy of a container or an instance is one again. -/
theorem World.contents_deepCopy (some : v.contents ≠ []) : (w.deepCopy v).1.contents ≠ [] := by
  obtain ⟨d, a⟩ := v
  cases d with
  | list h | array h | dict h | set h | object h => exact List.cons_ne_nil _ _
  | _ => exact absurd rfl some

theorem Binding.prepare_attrs (b : Binding) (v : Value) (w : World) :
    (b.prepare v w).1.attrs = b.stamp v.attrs := by
  have attrs : (w.deepCopy v).1.attrs = v.attrs := World.attrs_copyWithin (w.size + 1) v w
  simp only [Binding.prepare, World.duplicate, duplicateBy]
  split
  · rfl
  · split
    · rfl
    · rw [attrs]

/-- This is how a variable holds what has been prepared for it. -/
theorem Binding.holdsOf_prepare (b : Binding) (there : ∀ x ∈ v.contents, x.In w.count) :
    b.HoldsOf w v (b.prepare v w).1 where
  prepared := rfl
  shared := by
    simp only [Binding.prepare, World.duplicate, duplicateBy]
    rintro (own | shared | none)
    · rw [if_pos own]
    · split
      · rfl
      · rfl
    · split
      · rfl
      · split
        · rfl
        · exact World.deepCopy_datum none
  copied := by
    intro apart
    obtain ⟨own, fixed, some⟩ : b.flags.isMutable = false ∧ v.attrs.isMutable = false ∧
        v.contents ≠ [] := by
      simpa only [Binding.Shares, not_or, Bool.not_eq_true] using apart
    simp only [Binding.prepare, World.duplicate, duplicateBy, own, fixed]
    have new := w.deepCopy_new v
    exact ⟨World.contents_deepCopy some, fun x mem =>
      ⟨new x mem, fun old => new x mem (there x old)⟩⟩

/-- What a variable holds is mutable if the variable or the value is. -/
theorem Binding.HoldsOf.shares {b : Binding} (h : b.HoldsOf w v c)
    (isMutable : c.attrs.isMutable = true) : b.Shares v := by
  rw [h.prepared, prepare_attrs, stamp, Bool.or_eq_true] at isMutable
  exact isMutable.imp_right .inl

/-! ## Storing -/

theorem Value.Ok.contents {n : Census} (ok : v.Ok D n) : ∀ x ∈ v.contents, x.In n :=
  fun x mem => ok.cells x (mem_cells_of_contents mem).1

namespace World

/-- The value `v` has been stored in the variable `x` of a scope, which was `b` for it and holds `c`
since; nothing else has changed. -/
structure Stores (w : World) (t : ScopeId) (x : String) (b : Binding) (v c : Value) (w' : World) :
    Prop where
  held : b.HoldsOf w v c
  assigned : w.Assigned t x { b with value := c } w'

theorem stores_store (there : t.In w.count) (old : ∀ x ∈ v.contents, x.In w.count) (b : Binding) :
    w.Stores t x b v (b.prepare v w).1 (w.store t x b v) where
  held := b.holdsOf_prepare old
  assigned := assigned_store there v

/-- An assignment to a variable of the scope stores the value if it succeeds. -/
theorem stored_here (done : (Action.updateLocalVariable t x v).runIn w = (.ok (), w')) :
    ∃ b, w.localBinding? t x = some b ∧ w' = w.store t x b v := by
  rw [Action.updateLocalVariable, runIn_look_bind] at done
  cases found : w.localBinding? t x with
  | none =>
    rw [found] at done
    cases congrArg Prod.fst done
  | some b =>
    rw [found] at done
    cases const : b.flags.isConst with
    | true =>
      simp only [const, if_true] at done
      cases congrArg Prod.fst done
    | false =>
      simp only [const, Action.consult, bind_assoc] at done
      rw [if_neg Bool.false_ne_true, runIn_get_bind] at done
      cases checked : w.checkType t x b.declared v with
      | error e =>
        rw [checked] at done
        cases congrArg Prod.fst done
      | ok _ =>
        rw [checked] at done
        exact ⟨b, rfl, (congrArg Prod.snd done).symm⟩

/-- And so does a declaration of a variable that the scope does not have. -/
theorem declared_here {b : Binding}
    (done : (Action.declareVariable t x b).runIn w = (.ok (), w')) :
    w.hasLocalVariable t x = false ∧ w' = w.store t x b b.value := by
  rw [runIn_declareVariable] at done
  split at done
  · cases congrArg Prod.fst done
  · rename_i absent
    exact ⟨Bool.eq_false_iff.mpr absent, (congrArg Prod.snd done).symm⟩

namespace Stores

variable {b : Binding} (h : w.Stores t x b v c w')

include h

/-- The scope gets what its variable holds. -/
theorem getVariable_eq (older : w'.ParentsOlder) (there : t.In w.count) :
    w'.getVariable t x = .ok c := by
  have here := h.assigned.localBinding?_eq there x
  rw [if_pos ⟨rfl, rfl⟩] at here
  exact older.getVariable_eq (.here here)

/-- So does a scope that found this variable before, and has the way up that it had. -/
theorem getVariable_found (sound : Sound D w) {s : ScopeId} (there : s.In w.count)
    (same : w'.variableChain s = w.variableChain s) (found : w.Finds x s t b) :
    w'.getVariable s x = .ok c :=
  (h.assigned.rereads sound there same found.found).same found

/-- An instance has the member that was stored in its scope, or in the one of its class if it has
none of its own. -/
theorem member?_eq (sound : Sound D w) (there : i.In w.count)
    (place : t = (w.inst i).scope ∨ w.localBinding? (w.inst i).scope x = none ∧
      t = (w.classOf (w.inst i).classId).scope) : Knot.member? w' i x = some c := by
  have own := h.assigned.localBinding?_eq (sound.home there) x
  have static := h.assigned.localBinding?_eq (sound.classScope (sound.classId there)) x
  have same : w'.inst i = w.inst i := h.assigned.rest.inst there
  have class_ : w'.classOf (w.inst i).classId = w.classOf (w.inst i).classId :=
    congrArg (Store.get · _) h.assigned.rest.classes
  rw [Knot.member?, same, class_, own, static]
  rcases place with rfl | ⟨none, rfl⟩
  · rw [if_pos ⟨rfl, rfl⟩]
    rfl
  · rw [none]
    by_cases here : (w.inst i).scope = (w.classOf (w.inst i).classId).scope
    · rw [if_pos ⟨here, rfl⟩]
      rfl
    · rw [if_neg fun both => here both.1, if_pos ⟨rfl, rfl⟩]
      rfl

end Stores

end World

/-! ## Where elements look for variables -/

/-- What the elements of a chain act on that assign and declare variables. -/
inductive Site where
  /-- The scope of the frame. -/
  | scope
  | member (i : InstanceId)

namespace Site

variable {b : Binding}

/-- What is held while an element acts. -/
def cells : Site → List Cell
  | scope => []
  | member i => [i.cell]

/-- The world that an element leaves, where nothing is held any more on account of it. -/
def leave (before after : World) : Site → World
  | scope => after
  | member _ => { after with held := before.held }

/-- The scope in which variables are declared. -/
def home (f : Frame) (w : World) : Site → ScopeId
  | scope => f.scope
  | member i => (w.inst i).scope

/-- The variable that is assigned under a name: the nearest one in sight, or the one of the
instance, or of its class if it has none of its own. -/
inductive Finds (f : Frame) (w : World) (x : String) : Site → ScopeId → Binding → Prop
  | scope {t : ScopeId} {b : Binding} : w.Finds x f.scope t b → Finds f w x .scope t b
  | own {i : InstanceId} {b : Binding} : w.localBinding? (w.inst i).scope x = some b →
      Finds f w x (.member i) (w.inst i).scope b
  | shared {i : InstanceId} {b : Binding} : w.localBinding? (w.inst i).scope x = none →
      w.localBinding? (w.classOf (w.inst i).classId).scope x = some b →
      Finds f w x (.member i) (w.classOf (w.inst i).classId).scope b

/-- Assigns a value. -/
def put (f : Frame) (x : String) (v : Value) : Site → Action Unit
  | scope => Action.updateVariable f.scope x v
  | member i => Knot.assignMember i x v

theorem Finds.found {site : Site} (h : site.Finds f w x t b) : w.localBinding? t x = some b := by
  cases h with
  | scope found => exact found.found
  | own found | shared _ found => exact found

/-- An assignment that succeeds has stored the value in the variable that is found. -/
theorem put_done {site : Site} (older : w.ParentsOlder)
    (done : (site.put f x v).runIn w = (.ok (), w')) :
    ∃ t b, site.Finds f w x t b ∧ w' = w.store t x b v := by
  cases site with
  | scope =>
    obtain ⟨t, b, found, stored⟩ := World.stored_of_done older done
    exact ⟨t, b, .scope found, stored⟩
  | member i =>
    rw [put, Knot.assignMember, runIn_look_bind] at done
    cases place : Knot.memberScope? w i x with
    | none =>
      rw [place] at done
      cases congrArg Prod.fst done
    | some t =>
      rw [place] at done
      obtain ⟨b, found, stored⟩ := World.stored_here done
      refine ⟨t, b, ?_, stored⟩
      rcases ScopeLang.memberScope?_eq place with rfl | ⟨absent, rfl⟩
      · exact .own found
      · refine .shared ?_ found
        exact Option.not_isSome_iff_eq_none.mp (Bool.eq_false_iff.mp absent)

end Site

/-! ## Runs that come to a result -/

namespace Run

variable {m m₁ : Machine} {y : α}

theorem ofAction_eq_ok {a : Action α} (done : ofAction a m = (.ok y, m₁)) :
    a.runIn m.world = (.ok y, m₁.world) := by
  obtain ⟨world, fuel, calls⟩ := m
  cases fuel with
  | zero => cases congrArg Prod.fst done
  | succ fuel =>
    simp only [ofAction] at done
    generalize a.runIn world = made at done ⊢
    obtain ⟨result, w₁⟩ := made
    cases result with
    | ok result =>
      obtain ⟨ok, rfl⟩ := Prod.mk.inj done
      rw [Except.ok.inj ok]
    | error _ => cases congrArg Prod.fst done

theorem holding_eq_ok {q : Run α} {cells : List Cell}
    (done : holding cells q m = (.ok y, m₁)) :
    ∃ m', q { m with world := m.world.hold cells } = (.ok y, m') ∧
      m₁ = { m' with world := { m'.world with held := m.world.held } } := by
  simp only [holding, andFinally] at done
  generalize q { m with world := m.world.hold cells } = made at done ⊢
  obtain ⟨result, m'⟩ := made
  rcases result with (e | _) | result
  · cases congrArg Prod.fst done
  · cases congrArg Prod.fst done
  · obtain ⟨ok, rfl⟩ := Prod.mk.inj done
    exact ⟨m', by rw [← Except.ok.inj ok], rfl⟩

end Run

/-- An element that stores a value in a variable. -/
inductive Element.Stores : Element → String → Prop
  | assign {x : String} (value : Expr) : Element.Stores (.assign x value) x
  | declare (d : VariableDecl) : Element.Stores (.declare d) d.name

namespace Knot

variable {k : Knot} {m m₁ : Machine} {head : Element}

/-- What a declaration does before it stores: it comes to the value that the variable gets, and to
the type that it is declared with. -/
def declaring (k : Knot) (d : VariableDecl) (f : Frame) (target : ScopeId) :
    Run (Value × SigId) := do
  let declared ← Run.change fun w => w.bindType f.scope d.type
  let v ← match d.initial with
    | some e => do
        let v ← k.evaluate e f
        Action.consult fun w => w.checkType target d.name declared v
        pure v
    | none => pure .null
  let inferred ← Run.change fun w => w.inferType f.scope v
  return ({ v with attrs := { v.attrs with inferred, displayName := some d.name } }, declared)

theorem declareVariable_eq (d : VariableDecl) (target : ScopeId) :
    k.declareVariable d f target = (do
      let made ← k.declaring d f target
      Action.declareVariable target d.name ⟨made.1, d.flags, made.2⟩
      return made.1) := by
  obtain ⟨name, type, initial, flags⟩ := d
  cases initial with
  | none | some _ => simp only [declareVariable, declaring, bind_assoc, pure_bind]

/-- How an element comes to the value that it stores in a variable.  It comes to `v` by the machine
`m'`; there the variable is `b` in the scope `t`, which is the one that an assignment finds, or the
one that a declaration makes. -/
inductive Computes (k : Knot) (f : Frame) (site : Site) (m : Machine) :
    Element → String → Value → Machine → ScopeId → Binding → Prop
  | assign {x : String} {value : Expr} {v : Value} {m' : Machine} {t : ScopeId} {b : Binding} :
      k.evaluate value f m = (.ok v, m') → site.Finds f m'.world x t b →
      Computes k f site m (.assign x value) x v m' t b
  | declare {d : VariableDecl} {v : Value} {declared : SigId} {m' : Machine} :
      k.declaring d f (site.home f m.world) m = (.ok (v, declared), m') →
      m'.world.hasLocalVariable (site.home f m.world) d.name = false →
      Computes k f site m (.declare d) d.name v m' (site.home f m.world) ⟨v, d.flags, declared⟩

/-- An element has come from the machine `m` to `m₁` by storing the value `v` in the variable `x`,
which was `b` for it and holds `c` since.  Between computing `v` and this nothing else happens. -/
def HasStored (k : Knot) (f : Frame) (site : Site) (m m₁ : Machine) (head : Element) (x : String)
    (b : Binding) (v c : Value) : Prop :=
  ∃ m' t w, k.Computes f site { m with world := m.world.hold site.cells } head x v m' t b ∧
    m'.world.Stores t x b v c w ∧ m₁.world = site.leave m.world w

theorem leads_declaring (sound : k.Sound D) {d : VariableDecl} (marks : D.Admits d.marks)
    (target : ScopeId) : Leads D f (k.declaring d f target) (fun made => OkValue D made.1) m := by
  refine .bind (Q := fun _ _ => True)
    (.act (.change (fun _ _ => steps_bindType _ _) fun _ _ => trivial)) ?_
  intro declared m₁ _ _ _ _
  -- what is done with a value, once it has been checked
  have finish : ∀ (u : Value) (m₂ : Machine), u.Ok D m₂.world.count →
      Leads D f (do
        let inferred ← Run.change fun w => w.inferType f.scope u
        return ({ u with attrs := { u.attrs with inferred, displayName := some d.name } },
          declared))
        (fun made => OkValue D made.1) m₂ := by
    intro u m₂ ok
    refine .bind (Q := fun _ _ => True)
      (.act (.change (fun _ _ => steps_inferType _ _) fun _ _ => trivial)) ?_
    intro inferred m₃ _ _ g _
    exact .pure fun _ => ⟨(ok.mono g.count).cells, (ok.mono g.count).shared⟩
  obtain ⟨name, type, initial, flags⟩ := d
  cases initial with
  | none => exact finish .null m₁ Value.ok_null
  | some e =>
    refine .bind (sound.evaluate e f m₁ (Dialect.admits_cons.mp marks).2) ?_
    intro u m₂ _ _ _ ok
    refine .bind (Q := fun _ w => u.Ok D w.count) (.act (.consult fun _ _ _ => ok)) ?_
    intro _ m₃ _ _ _ ok
    exact finish u m₃ ok

/-- A declaration that succeeds has come to a value and stored it. -/
theorem declared_of_ok {d : VariableDecl} {target : ScopeId}
    (done : k.declareVariable d f target m = (.ok v, m₁)) : ∃ declared m',
    k.declaring d f target m = (.ok (v, declared), m') ∧
      (Action.declareVariable target d.name ⟨v, d.flags, declared⟩).runIn m'.world =
        (.ok (), m₁.world) := by
  rw [declareVariable_eq] at done
  obtain ⟨⟨u, declared⟩, m', made, done⟩ := Run.bind_eq_ok done
  obtain ⟨_, m₂, stored, done⟩ := Run.bind_eq_ok done
  have stored := Run.ofAction_eq_ok (a := Action.declareVariable target d.name _) stored
  obtain ⟨same, rfl⟩ := Prod.mk.inj done
  obtain rfl := Except.ok.inj same
  exact ⟨declared, m', made, stored⟩

/-- So has an assignment. -/
theorem assigned_of_ok {value : Expr} (site : Site)
    (done : (do
      let v ← k.evaluate value f
      Run.ofAction (site.put f x v)
      return v) m = (.ok v, m₁)) : ∃ m',
    k.evaluate value f m = (.ok v, m') ∧
      (site.put f x v).runIn m'.world = (.ok (), m₁.world) := by
  obtain ⟨u, m', evaluated, done⟩ := Run.bind_eq_ok done
  obtain ⟨_, m₂, stored, done⟩ := Run.bind_eq_ok done
  have stored := Run.ofAction_eq_ok stored
  obtain ⟨same, rfl⟩ := Prod.mk.inj done
  obtain rfl := Except.ok.inj same
  exact ⟨m', evaluated, stored⟩

/-- What a declaration has stored. -/
theorem declaration_stores (sound : k.Sound D) {d : VariableDecl} (site : Site)
    (marks : D.Admits d.marks) (ready : Ready D f m.calls m.world)
    (there : (site.home f m.world).In m.world.count)
    (done : k.declareVariable d f (site.home f m.world) m = (.ok v, m₁)) : ∃ m' b c,
    k.Computes f site m (.declare d) d.name v m' (site.home f m.world) b ∧
      m'.world.Stores (site.home f m.world) d.name b v c m₁.world ∧ m.world.Grows m'.world ∧
        ScopeLang.Sound D m'.world := by
  obtain ⟨declared, m', made, stored⟩ := declared_of_ok done
  obtain ⟨ready', g, ok⟩ := (leads_declaring sound marks _).of_ok ready made
  obtain ⟨absent, world⟩ := World.declared_here stored
  have into := World.stores_store (x := d.name) (there.mono g.count) (Value.Ok.contents ok)
    ⟨v, d.flags, declared⟩
  rw [← world] at into
  exact ⟨m', _, _, .declare made absent, into, g, ready'.sound⟩

/-- What an assignment has stored. -/
theorem assignment_stores {value : Expr} {site : Site} {m' : Machine}
    (evaluated : k.evaluate value f m = (.ok v, m')) (sound : ScopeLang.Sound D m'.world)
    (ok : v.Ok D m'.world.count)
    (stored : (site.put f x v).runIn m'.world = (.ok (), m₁.world)) : ∃ t b c,
    k.Computes f site m (.assign x value) x v m' t b ∧ site.Finds f m'.world x t b ∧
      m'.world.Stores t x b v c m₁.world := by
  obtain ⟨t, b, found, world⟩ := Site.put_done sound.wellFormed.older stored
  have into := World.stores_store (x := x) (World.in_of_localBinding? found.found) ok.contents b
  rw [← world] at into
  exact ⟨t, b, _, .assign evaluated found, found, into⟩

theorem member_assign (x : String) (value : Expr) :
    k.member (.assign x value) i f = Run.holding [i.cell] (do
      let v ← k.evaluate value f
      Run.ofAction ((Site.member i).put f x v)
      return v) := rfl

theorem member_declare (d : VariableDecl) :
    k.member (.declare d) i f = Run.holding [i.cell]
      (Run.look (fun w => (w.inst i).scope) >>= fun home => k.declareVariable d f home) := rfl

/-- A member that is assigned or declared has been stored, and is one of the instance since. -/
theorem memberStored_of_ok (sound : k.Sound D) (stores : head.Stores x)
    (marks : D.Admits head.marks) (ready : Ready D f m.calls m.world)
    (there : i.In m.world.count) (done : k.member head i f m = (.ok v, m₁)) :
    ∃ b c, k.HasStored f (.member i) m m₁ head x b v c ∧ member? m₁.world i x = some c := by
  have inside : Ready D f m.calls (m.world.hold [i.cell]) :=
    ready.hold fun c mem => List.mem_singleton.mp mem ▸ there
  cases stores with
  | assign value =>
    rw [member_assign] at done
    obtain ⟨m₂, inner, rfl⟩ := Run.holding_eq_ok done
    obtain ⟨m', evaluated, stored⟩ := assigned_of_ok (.member i) inner
    obtain ⟨ready', g, ok⟩ := (sound.evaluate value f _ marks).of_ok inside evaluated
    obtain ⟨t, b, c, computed, found, into⟩ :=
      assignment_stores evaluated ready'.sound ok stored
    refine ⟨b, c, ⟨m', t, m₂.world, computed, into, rfl⟩, ?_⟩
    refine into.member?_eq ready'.sound (there.mono g.count) ?_
    cases found with
    | own _ => exact .inl rfl
    | shared absent _ => exact .inr ⟨absent, rfl⟩
  | declare d =>
    rw [member_declare] at done
    obtain ⟨m₂, inner, rfl⟩ := Run.holding_eq_ok done
    rw [Run.look_bind] at inner
    obtain ⟨m', b, c, computed, into, g, sound'⟩ := declaration_stores
      (m := { m with world := m.world.hold [i.cell] }) sound (.member i) marks inside
      (ready.sound.home there) inner
    refine ⟨b, c, ⟨m', _, m₂.world, computed, into, rfl⟩, ?_⟩
    exact into.member?_eq sound' (there.mono g.count) (.inl (g.home there).symm)

end Knot

/-! ## Machines on which code runs -/

/-- A machine on which code runs whose surroundings are held. -/
structure Machine.Supports (D : Dialect) (m : Machine) (f : Frame) : Prop where
  ready : Ready D f m.calls m.world
  kin : m.world.Kin D
  secured : m.Secured
  stands : f.Stands m.world
  tidy : m.world.Tidy
  listed : ∀ t, ∀ c ∈ (m.world.scope t).children, c.cell ∈ m.world.held

namespace Machine.Supports

variable {m m₁ : Machine} (h : m.Supports D f)

include h

theorem sheltered : m.world.Sheltered D := ⟨h.ready.sound, h.kin, h.secured.world, h.listed⟩

/-- Code goes on after a run that comes to a result. -/
theorem later {q : Run α} {Q : α → World → Prop} (steady : q.Steady f.Stands)
    (keeps : q.Keeps tree (tree.Home f.scope)) (leads : Leads D f q Q m) {y : α}
    (done : q m = (.ok y, m₁)) :
    m₁.Supports D f ∧ m.world.Grows m₁.world ∧ Q y m₁.world := by
  obtain ⟨ready, g, given⟩ := leads.of_ok h.ready done
  have persists := steady.persists_of_ok h.secured h.stands done
  have same : m.world.SameTree m₁.world := by
    have stays := keeps m h.tidy h.ready.frame.scope
    rw [done] at stays
    exact stays
  have trace := leads.led h.ready
  rw [done] at trace
  refine ⟨?_, g, given⟩
  exact
    { ready
      kin := kin_invariant.trace trace.1 h.ready h.kin
      secured := h.secured.persists persists
      stands := World.Lasting.persists persists.world h.stands
      tidy := same.tidy h.tidy
      listed := fun t c mem => by
        rw [same.children] at mem
        rw [same.held]
        exact h.listed t c mem }

/-- What the first element of a chain stores is held by the variable that the scope gets. -/
theorem stored_of_ok {k : Knot} (sound : k.Sound D) (steady : k.Steady) (keeps : k.Keeps tree)
    {head : Element} (stores : head.Stores x) (marks : D.Admits head.marks)
    (done : k.chainHead head f m = (.ok v, m₁)) :
    ∃ b c, k.HasStored f .scope m m₁ head x b v c ∧ m₁.world.getVariable f.scope x = .ok c := by
  cases stores with
  | assign value =>
    obtain ⟨m', evaluated, stored⟩ := Knot.assigned_of_ok .scope done
    obtain ⟨after, g, ok⟩ := h.later (steady.evaluate value f) (keeps.evaluate value f)
      (sound.evaluate value f m marks) evaluated
    obtain ⟨t, b, c, computed, found, into⟩ :=
      Knot.assignment_stores evaluated after.ready.sound ok stored
    refine ⟨b, c, ⟨m', t, m₁.world, computed, into, rfl⟩, ?_⟩
    have there := after.ready.frame.scope
    -- the way up is still there, because the scope of code in progress is
    have borne : m₁.world.Borne f.scope := by
      have persists :=
        Action.within_updateVariable (fun w t b => w.persists_setVariable t x b) f.scope v m'.world
      rw [show (Action.updateVariable f.scope x v).runIn m'.world = (.ok (), m₁.world) from stored]
        at persists
      exact after.stands.scope.persists persists
    have way := after.sheltered.way_of_done there ok stored there
      after.stands.scope.anchored.alive borne.anchored.alive
    cases found with
    | scope found => exact into.getVariable_found after.ready.sound there way found
  | declare d =>
    have there := h.ready.frame.scope
    obtain ⟨m', b, c, computed, into, g, -⟩ :=
      Knot.declaration_stores sound .scope marks h.ready there done
    obtain ⟨after, -, -⟩ := (Knot.leads_chainHead sound marks).of_ok h.ready done
    refine ⟨b, c, ⟨m', f.scope, m₁.world, computed, into, rfl⟩, ?_⟩
    exact into.getVariable_eq after.sound.wellFormed.older (there.mono g.count)

end Machine.Supports

/-! ## Chains -/

/-- Chains whose first element comes to `v` by the machine `m₁` and stores it in a variable, which
was `b` for it.  The other elements go on from `v`; after a read of the variable they would go on
from `c`, which it holds.  This comes to the same if the variable holds `v` itself. -/
structure Knot.Resumes (k : Knot) (f : Frame) (m₁ : Machine) (b : Binding) (v c : Value)
    (whole again : List Element → Except Halt Value × Machine) : Prop where
  goesOn : ∀ rest, whole rest = k.chainSteps f v rest m₁
  rereads : ∀ rest, again rest = k.chainSteps f c rest m₁
  same : b.Shares v → ∀ rest, ComesToSame (whole rest) (again rest)

/-- In a frame on a machine the chains whose first element stores a value in a variable of the
scope, in a member of the receiver or in a member of an instance that was come to. -/
structure Knot.ResumesStored (k : Knot) (f : Frame) (m : Machine) : Prop where
  scope : ∀ {head x v m₁}, head.Stores x → k.chain .scope [head] f m = (.ok v, m₁) →
    ∃ b c, k.HasStored f .scope m m₁ head x b v c ∧ m₁.world.getVariable f.scope x = .ok c ∧
      k.Resumes f m₁ b v c (fun rest => k.chain .scope (head :: rest) f m)
        (fun rest => k.chain .scope (.read x :: rest) f { m₁ with fuel := m₁.fuel + 1 })
  receiver : ∀ {i head x v m₁}, f.receiver = some i → head.Stores x →
    k.chain .receiver [head] f m = (.ok v, m₁) →
    ∃ b c, k.HasStored f (.member i) m m₁ head x b v c ∧ member? m₁.world i x = some c ∧
      k.Resumes f m₁ b v c (fun rest => k.chain .receiver (head :: rest) f m)
        (fun rest => k.chain .receiver (.read x :: rest) f m₁)
  member : ∀ {u i head x v m₁}, u.object? = some i → i.In m.world.count → head.Stores x →
    k.chainSteps f u [head] m = (.ok v, m₁) →
    ∃ b c, k.HasStored f (.member i) m m₁ head x b v c ∧ member? m₁.world i x = some c ∧
      k.Resumes f m₁ b v c (fun rest => k.chainSteps f u (head :: rest) m)
        (fun rest => k.chainSteps f u (.read x :: rest) m₁)

namespace Knot

variable {k : Knot} {m m₁ : Machine} {head : Element} {b : Binding} {site : Site}

/-- What the variable holds of a value that has been stored. -/
theorem HasStored.holds (h : k.HasStored f site m m₁ head x b v c) : ∃ w, b.HoldsOf w v c := by
  obtain ⟨m', t, w, -, into, -⟩ := h
  exact ⟨m'.world, into.held⟩

/-- Elements that follow two first ones, of which one has stored what the other one reads. -/
theorem resumes {first again : Run Value} {m' : Machine}
    (stored : k.HasStored f site m m₁ head x b v c)
    (done : first m = (.ok v, m₁)) (read : again m' = (.ok c, m₁)) :
    k.Resumes f m₁ b v c (fun rest => (first >>= fun u => k.chainSteps f u rest) m)
      (fun rest => (again >>= fun u => k.chainSteps f u rest) m') := by
  have whole : ∀ rest, (first >>= fun u => k.chainSteps f u rest) m = k.chainSteps f v rest m₁ :=
    fun rest => Run.bind_ok done
  have again : ∀ rest, (again >>= fun u => k.chainSteps f u rest) m' = k.chainSteps f c rest m₁ :=
    fun rest => Run.bind_ok read
  refine ⟨whole, again, fun shares rest => ?_⟩
  obtain ⟨w, holds⟩ := stored.holds
  rw [whole, again]
  exact chainSteps_restamp k f rest (holds.shared shares)

theorem member_resumes (sound : k.Sound D) (stores : head.Stores x)
    (marks : D.Admits head.marks) (ready : Ready D f m.calls m.world)
    (there : i.In m.world.count) (done : k.member head i f m = (.ok v, m₁)) :
    ∃ b c, k.HasStored f (.member i) m m₁ head x b v c ∧ member? m₁.world i x = some c ∧
      k.Resumes f m₁ b v c (fun rest => (k.member head i f >>= fun u => k.chainSteps f u rest) m)
        (fun rest => (k.member (.read x) i f >>= fun u => k.chainSteps f u rest) m₁) := by
  obtain ⟨b, c, stored, found⟩ := memberStored_of_ok sound stores marks ready there done
  exact ⟨b, c, stored, found, resumes stored done (member_read found)⟩

theorem resumesStored (h : m.Supports D f) (sound : k.Sound D) (steady : k.Steady)
    (keeps : k.Keeps tree) (marks : ∀ e : Element, D.Admits e.marks) : k.ResumesStored f m := by
  have alone : ∀ q : Run Value, (q >>= fun u => k.chainSteps f u []) = q := bind_pure
  refine ⟨fun {head x v m₁} stores done => ?_, fun {i head x v m₁} receiver stores done => ?_,
    fun {u i head x v m₁} object there stores done => ?_⟩
  · have done : (k.chainHead head f >>= fun u => k.chainSteps f u []) m = (.ok v, m₁) := done
    rw [alone] at done
    obtain ⟨b, c, stored, found⟩ := h.stored_of_ok sound steady keeps stores (marks head) done
    exact ⟨b, c, stored, found, resumes stored done (chainHead_read found)⟩
  · have own : k.receiver f = pure i := by rw [Knot.receiver, receiver]
    have chain : ∀ head rest, k.chain .receiver (head :: rest) f =
        k.member head i f >>= fun u => k.chainSteps f u rest := fun head rest => by
      simp only [Knot.chain, own, pure_bind]
    rw [chain, alone] at done
    simp only [chain]
    exact member_resumes sound stores (marks head) h.ready (h.ready.frame.receiver i receiver) done
  · have steps : ∀ head rest, k.chainSteps f u (head :: rest) =
        k.member head i f >>= fun u => k.chainSteps f u rest := fun head rest => by
      rw [chainSteps, chainStep, object]
    rw [steps, alone] at done
    simp only [steps]
    exact member_resumes sound stores (marks head) h.ready there done

end Knot

/-! ## At every moment of a program -/

/-- At every moment of a program a chain whose first element stores a value in a variable or in a
member goes on from this value.  This comes to the same as what follows does after a read, unless
the variable holds a copy. -/
theorem Session.Reachable.chain_after_store {natives : String → Prop} {S : Session}
    (h : S.Reachable (.full natives)) (obeys : S.host.Obeys (.full natives))
    (keeps : S.host.KeepsTree) (steady : S.host.Steady) {fuel : Nat} {program : List Statement}
    (runs : (S.reached fuel program).Runs f)
    (borne : (S.reached fuel program).world.Borne f.scope) (n left : Nat) :
    (knot S.config S.host n).ResumesStored f { S.reached fuel program with fuel := left } := by
  have marks : ∀ fs : List Flags, (Dialect.full natives).Admits fs := fun fs =>
    Dialect.admits_of_sharing (D := .full natives) trivial fs
  obtain ⟨g, ready, kin⟩ := h.reached kin_invariant kin_start obeys (marks _) fuel
  have secured := h.secured steady fuel program
  have idle := h.idle keeps
  have rests : S.Rests tree := ⟨idle.tidy, idle.root⟩
  obtain ⟨opened, opens⟩ : ∃ opened, S.world.Opens opened (S.reached fuel program).world :=
    rests.stop_reached keeps program fuel
  have knotted : (knot S.config S.host n).Keeps tree := knot_keeps (J := tree) S.config keeps n
  have supports : Machine.Supports (.full natives) { S.reached fuel program with fuel := left } f :=
    { ready := runs.ready ready
      kin
      secured := ⟨secured.world, secured.calls⟩
      stands := ⟨borne, fun r receiver => by
        obtain ⟨i, head, -, same⟩ := runs.receiver r receiver
        exact secured.calls i (List.mem_of_mem_head? head) r same⟩
      tidy := opens.tidy
      listed := fun t c => (opens.stacked idle.activations idle.children).held_of_listed }
  exact Knot.resumesStored supports (knot_sound obeys n) (knot_steady S.config steady n) knotted
    fun e => marks e.marks

/-- A program with two variables, of which the first one is mutable. -/
def twoLists : List Statement :=
  [⟨.declare ⟨"x", none, some (.ofTerm (.sequence .list [])), { isMutable := true }⟩, Span.none⟩,
    declaring "y" (.sequence .list [])]

/-- The machine after that, with some more fuel. -/
def afterTwoLists : Machine := { (Session.start {} Kit.host).reached 20 twoLists with fuel := 20 }

/-- A chain at the root. -/
def chainAtRoot (elements : List Element) (m : Machine) : Except Halt Value × Machine :=
  (knot {} Kit.host 9).chain .scope elements ⟨⟨0⟩, none⟩ m

/-- The assignment of a list with one item, and a call that adds another one. -/
def assigningOne (x : String) : Element :=
  .assign x (.ofTerm (.sequence .list [.ofTerm (.literal (.int 1))]))

def pushingTwo : Element := .call "push" [⟨none, .ofTerm (.literal (.int 2))⟩]

/-- The machine after the assignment alone. -/
def afterAssigningOne (x : String) : Machine := (chainAtRoot [assigningOne x] afterTwoLists).2

/-- The text of a variable of the root. -/
def Machine.textOf (m : Machine) (x : String) : Option String :=
  (m.world.getVariable ⟨0⟩ x).toOption.map m.world.text

/-- In `(x = [1]).push(2)` it is the list that `x` holds to which the item is added. -/
theorem chain_after_store_twoLists :
    (∃ c, (afterAssigningOne "x").world.getVariable ⟨0⟩ "x" = .ok c ∧
      c.attrs.isMutable = true ∧
      ComesToSame (chainAtRoot [assigningOne "x", pushingTwo] afterTwoLists)
        (chainAtRoot [.read "x", pushingTwo]
          { afterAssigningOne "x" with fuel := (afterAssigningOne "x").fuel + 1 })) ∧
      (chainAtRoot [assigningOne "x", pushingTwo] afterTwoLists).2.textOf "x" = some "[1, 2]" := by
  have obeys : Kit.host.Obeys (.full fun _ => True) := Kit.host_obeys fun _ _ => .inl trivial
  have runs : ((Session.start {} Kit.host).reached 20 twoLists).Runs ⟨⟨0⟩, none⟩ :=
    ⟨by decide +kernel, nofun⟩
  have resumes : (knot {} Kit.host 9).ResumesStored ⟨⟨0⟩, none⟩ afterTwoLists :=
    Session.Reachable.chain_after_store (.start {} Kit.host) obeys Kit.host_keepsTree
      Kit.host_steady runs (.inl (by decide +kernel)) 9 20
  refine ⟨?_, by decide +kernel⟩
  have ok : (chainAtRoot [assigningOne "x"] afterTwoLists).1.toOption.isSome = true := by
    decide +kernel
  have shared : ((afterAssigningOne "x").world.getVariable ⟨0⟩ "x").toOption.map
      (·.attrs.isMutable) = some true := by decide +kernel
  obtain ⟨v, done⟩ : ∃ v, chainAtRoot [assigningOne "x"] afterTwoLists =
      (.ok v, afterAssigningOne "x") := by
    cases run : chainAtRoot [assigningOne "x"] afterTwoLists with
    | mk result m₁ =>
      rw [run] at ok
      cases result with
      | error _ => cases ok
      | ok v => exact ⟨v, by rw [afterAssigningOne, run]⟩
  obtain ⟨b, c, stored, found, resumed⟩ := resumes.scope (.assign _) done
  have found : (afterAssigningOne "x").world.getVariable ⟨0⟩ "x" = .ok c := found
  rw [found] at shared
  have shared : c.attrs.isMutable = true := Option.some.inj shared
  obtain ⟨w, holds⟩ := stored.holds
  exact ⟨c, found, shared, resumed.same (holds.shares shared) [pushingTwo]⟩

/-- In `(y = [1]).push(2)` it is not, because `y` holds a copy: after the assignment alone and
`y.push(2)` the variable has both items.  And the result of `x = [1]` is not mutable yet, whereas
what is read of `x` is. -/
theorem not_chain_after_store :
    ((chainAtRoot [assigningOne "y"] afterTwoLists).1.toOption.isSome = true ∧
      (chainAtRoot [assigningOne "y", pushingTwo] afterTwoLists).2.textOf "y" = some "[1]" ∧
      (chainAtRoot [.read "y", pushingTwo]
        { afterAssigningOne "y" with fuel := (afterAssigningOne "y").fuel + 1 }).2.textOf "y" =
          some "[1, 2]") ∧
      (chainAtRoot [assigningOne "x"] afterTwoLists).1.toOption.map (·.attrs.isMutable) =
        some false ∧
      (chainAtRoot [.read "x"]
        { afterAssigningOne "x" with fuel := (afterAssigningOne "x").fuel + 1 }).1.toOption.map
          (·.attrs.isMutable) = some true := by
  decide +kernel

end ScopeLang
