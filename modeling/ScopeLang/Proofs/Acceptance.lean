/-
# What matching promises

The arguments of a call are looked at three times: they are bound to parameters,
the bound slots are scored against the type of the overload, and when the call
goes to the overload the slots become variables of its scope or values for its
native body.  Each of these sorts the parameters for itself, by their place and
their marks.

Here the three are compared.  What binding lays out is of the shape that scoring
expects, so a call is turned down only for a value that does not fit the type of
an enforced parameter, and its score can be read off the slots one by one.  And a
value that fits goes on fitting while the pool of types grows, so that it passes
the check of the call as well, in whatever world that is made.  What is left to
fail this check is the value of a default, which nobody has looked at before.
-/
import ScopeLang.Proofs.Dominance
import ScopeLang.Proofs.Layouts
import ScopeLang.Proofs.Primitives
import ScopeLang.Proofs.Statements
import Mathlib.Algebra.GroupWithZero.Nat

namespace ScopeLang

/-! ## Sums of fits -/

namespace Fit

/-- What a match adds to the score of a call. -/
def points (x : Option Fit) : Nat := (x.map score).getD 0

theorem sum_append (xs ys : List (Option Fit)) :
    sum (xs ++ ys) = (sum xs).bind fun a => (sum ys).map a.add := by
  induction xs with
  | nil =>
    rw [List.nil_append, sum, Option.bind_some]
    cases sum ys with
    | none => rfl
    | some b => simp [add, empty]
  | cons x rest ih =>
    rw [List.cons_append, sum_cons, sum_cons, ih]
    cases x with
    | none => rfl
    | some a =>
      cases sum rest with
      | none => rfl
      | some b =>
        cases sum ys with
        | none => rfl
        | some c => exact congrArg some (a.add_assoc b c).symm

theorem isSome_sum {xs : List (Option Fit)} : (sum xs).isSome ↔ ∀ x ∈ xs, x.isSome := by
  induction xs with
  | nil => simp [sum]
  | cons x rest ih => cases x <;> simp [sum, ih]

theorem score_sum {xs : List (Option Fit)} {a : Fit} (h : sum xs = some a) :
    a.score = (xs.map points).sum := by
  induction xs generalizing a with
  | nil =>
    cases h
    rfl
  | cons x rest ih =>
    obtain ⟨b, c, rfl, restSum, rfl⟩ := sum_cons_eq_some.mp h
    rw [List.map_cons, List.sum_cons, ← ih restSum]
    rfl

end Fit

/-! ## Bound slots -/

namespace Slot

/-- The slot has the arguments that a variadic parameter collects. -/
def isSpread {α : Type} : Slot α → Bool
  | .spread _ => true
  | _ => false

end Slot

/-- The values in the slots of enforced parameters, each with the type that is asked of it. -/
def checkedValues (bound : List (ParameterSpec × Slot Value)) : List (SigId × Value) :=
  bound.flatMap fun b => if b.1.enforced then b.2.values.map (b.1.signature, ·) else []

/-- The number of values in the slots of parameters that are not enforced. -/
def uncheckedCount (bound : List (ParameterSpec × Slot Value)) : Nat :=
  (bound.map fun b => if b.1.enforced then 0 else b.2.values.length).sum

/-- The number of parameters that are left to their defaults. -/
def omittedCount (bound : List (ParameterSpec × Slot Value)) : Nat :=
  bound.countP fun b => b.2.isOmitted

section Shape

variable {parameters : List ParameterSpec} {arguments : CallArguments} {slots : List (Slot Value)}

/-- A place for one argument has it by its number or by its name, or is left over. -/
theorem LaidOut.not_spread (h : LaidOut parameters arguments slots) {i : Nat} {slot : Slot Value}
    (fixed : i < fixedCount parameters) (found : slots[i]? = some slot) : slot.isSpread = false := by
  have is : ∀ {other : Slot Value}, slots[i]? = some other → slot = other := fun other =>
    Option.some.inj (found.symm.trans other)
  by_cases positional : i < arguments.positional.length
  · rw [is (h.positional i _ fixed (List.getElem?_eq_getElem positional))]
    rfl
  · by_cases named : ∃ a ∈ arguments.named, placeOf? parameters a.1 = some i
    · obtain ⟨a, mem, place⟩ := named
      obtain ⟨j, place', value⟩ := h.named a mem
      obtain rfl := Option.some.inj (place.symm.trans place')
      rw [is value]
      rfl
    · have leftOver : LeftOver parameters arguments i :=
        ⟨fixed, Nat.le_of_not_lt positional, fun a mem place => named ⟨a, mem, place⟩⟩
      rw [is ((h.omitted i).mpr leftOver)]
      rfl

/-- Binding makes a spread of the last slot of a variadic list, and of no other. -/
theorem LaidOut.isSpread (h : LaidOut parameters arguments slots) {i : Nat} {slot : Slot Value}
    (found : slots[i]? = some slot) :
    slot.isSpread = (isVariadic parameters && decide (i + 1 = slots.length)) := by
  have below : i < slots.length := (List.getElem?_eq_some_iff.mp found).1
  cases variadic : isVariadic parameters with
  | false =>
    rw [h.not_spread (by rw [fixedCount_of_not_variadic variadic, ← h.length]; exact below) found]
    rfl
  | true =>
    have length : slots.length = fixedCount parameters + 1 := by
      rw [h.length]
      exact fixedCount_of_variadic variadic
    by_cases last : i + 1 = slots.length
    · have rest := h.rest variadic
      rw [List.getLast?_eq_getElem?, ← last, Nat.add_sub_cancel, found] at rest
      rw [Option.some.inj rest, decide_eq_true last]
      rfl
    · rw [h.not_spread (by omega) found, decide_eq_false last]
      rfl

theorem laidOut_of_bindArguments (bound : bindArguments parameters arguments = .ok slots) :
    LaidOut parameters arguments slots := by
  obtain ⟨fits, rfl⟩ := bindArguments_ok_iff.mp bound
  exact fits.laidOut

end Shape

/-! ## The score of bound slots -/

namespace World

variable {w : World} {options : MatchOptions} {p : TypePool} {parameters : List ParameterSpec}
  {slots : List (Slot Value)}

/-- The fits of what is in a slot. -/
def slotFits (w : World) (options : MatchOptions) (p : TypePool) :
    ParameterSpec × Slot Value → List (Option Fit)
  | (_, .omitted) => [some .unchecked]
  | (x, slot) =>
      slot.values.map fun v => p.fitArgument options x.signature x.enforced (w.valueType v)

/-- A slot of the right shape is scored as the sum of what is in it. -/
theorem fitSlot_eq_sum (x : ParameterSpec) {slot : Slot Value} {collects : Bool}
    (shape : slot.isSpread = collects) :
    p.fitSlot options x.signature x.enforced collects (slot.map w.valueType) =
      Fit.sum (w.slotFits options p (x, slot)) := by
  subst shape
  cases slot with
  | omitted => rfl
  | value v =>
    simp only [Slot.map, Slot.isSpread, TypePool.fitSlot, slotFits, Slot.values, List.map_cons,
      List.map_nil, Bool.false_eq_true, if_false]
    cases p.fitArgument options x.signature x.enforced (w.valueType v) with
    | none => rfl
    | some a => exact congrArg some a.add_empty
  | spread vs =>
    simp only [Slot.map, Slot.isSpread, TypePool.fitSlot, slotFits, Slot.values, if_true,
      List.map_map]
    rfl

theorem fitSlots_eq_sum (variadic : Bool) (length : slots.length = parameters.length)
    (shape : ∀ {i : Nat} {slot : Slot Value}, slots[i]? = some slot →
      slot.isSpread = (variadic && decide (i + 1 = slots.length))) :
    p.fitSlots options variadic (parameters.map ParameterSpec.signature)
        (parameters.map ParameterSpec.enforced) (slots.map (Slot.map w.valueType)) =
      Fit.sum ((parameters.zip slots).flatMap (w.slotFits options p)) := by
  induction parameters generalizing slots with
  | nil =>
    obtain rfl := List.eq_nil_of_length_eq_zero length
    rfl
  | cons x parameters ih =>
    cases slots with
    | nil => cases length
    | cons slot slots =>
      have first : slot.isSpread =
          (variadic && (slots.map (Slot.map w.valueType)).isEmpty) := by
        rw [shape (i := 0) rfl]
        cases slots <;> simp
      have rest := ih (Nat.succ.inj length) fun {i later} found => by
        rw [shape (i := i + 1) found]
        simp
      simp only [List.map_cons, List.zip_cons_cons, List.flatMap_cons]
      rw [fitSlots_cons, fitSlot_eq_sum x first, rest, Fit.sum_append]

/-- Every slot of a kind matches if the checked values do. -/
theorem isSome_slotFits {bound : List (ParameterSpec × Slot Value)} :
    (∀ fit ∈ bound.flatMap (w.slotFits options p), fit.isSome) ↔
      ∀ c ∈ checkedValues bound, (p.fit options c.1 (w.valueType c.2)).isSome := by
  induction bound with
  | nil => simp [checkedValues]
  | cons b rest ih =>
    obtain ⟨x, slot⟩ := b
    have here : (∀ fit ∈ w.slotFits options p (x, slot), fit.isSome) ↔
        ∀ c ∈ (if x.enforced then slot.values.map (x.signature, ·) else []),
          (p.fit options c.1 (w.valueType c.2)).isSome := by
      cases slot <;> cases enforced : x.enforced <;>
        simp [slotFits, Slot.values, TypePool.fitArgument, enforced]
    rw [List.flatMap_cons, List.forall_mem_append, ih, here, checkedValues, checkedValues,
      List.flatMap_cons, List.forall_mem_append]

/-- The points of all slots are those of the checked values, one for each other value, and one for
each parameter that is left to its default. -/
theorem sum_points (bound : List (ParameterSpec × Slot Value)) :
    ((bound.flatMap (w.slotFits options p)).map Fit.points).sum =
      ((checkedValues bound).map fun c =>
          Fit.points (p.fit options c.1 (w.valueType c.2))).sum +
        uncheckedCount bound + omittedCount bound := by
  induction bound with
  | nil => rfl
  | cons b rest ih =>
    obtain ⟨x, slot⟩ := b
    have here : ((w.slotFits options p (x, slot)).map Fit.points).sum =
        ((if x.enforced then slot.values.map (x.signature, ·) else []).map fun c =>
            Fit.points (p.fit options c.1 (w.valueType c.2))).sum +
          (if x.enforced then 0 else slot.values.length) + (if slot.isOmitted then 1 else 0) := by
      cases slot <;> cases enforced : x.enforced <;>
        simp [slotFits, Slot.values, Slot.isOmitted, TypePool.fitArgument, Fit.points,
          Fit.unchecked, enforced, Function.comp_def]
    simp only [checkedValues, uncheckedCount, omittedCount] at ih ⊢
    simp only [List.flatMap_cons, List.map_append, List.sum_append, List.map_cons, List.sum_cons,
      List.countP_cons, ih, here]
    omega

/-- The score of a bound call is the sum of what its slots add. -/
theorem fitCall_eq_sum {o : Overload} {arguments : CallArguments}
    (bound : bindArguments (w.parameters o.callable) arguments = .ok slots) :
    (p.invocable (w.invocable o)).2.fitCall options (p.invocable (w.invocable o)).1
        (slots.map (Slot.map w.valueType)) =
      Fit.sum (((w.parameters o.callable).zip slots).flatMap
        (w.slotFits options (p.invocable (w.invocable o)).2)) := by
  have found : (p.invocable (w.invocable o)).2.get? (p.invocable (w.invocable o)).1 =
      some (.invocable (w.invocable o)) := p.get?_internNormal _
  have laidOut := laidOut_of_bindArguments bound
  rw [TypePool.fitCall, found]
  exact fitSlots_eq_sum _ laidOut.length laidOut.isSpread

/-! ## The overload that a call goes to -/

variable {arguments : CallArguments} {name : String} {candidates : List Overload}
  {r : Resolution}

/-- What became of a candidate when it was examined is still in the pool at the end. -/
theorem examineAll_examined {v : Viable} : ∀ {os : List Overload} {p : TypePool},
    .viable v ∈ (w.examineAll options arguments os p).1 →
      ∃ q, (w.examine options arguments v.resolution.overload q).1 = .viable v ∧
        (w.examine options arguments v.resolution.overload q).2.Grows
          (w.examineAll options arguments os p).2
  | [], _, mem => absurd mem List.not_mem_nil
  | o :: rest, p, mem => by
    simp only [examineAll, List.mem_cons] at mem ⊢
    rcases mem with e | mem
    · have same : v.resolution.overload = o :=
        (examine_viable (P := fun _ => True) ⟨fun _ _ => trivial, fun _ _ => trivial⟩ e.symm).1
      rw [same]
      exact ⟨p, e.symm, w.grows_examineAll options arguments rest _⟩
    · exact examineAll_examined mem

/-- A typed overload that a call goes to has been bound and matched, and the pool in which it was
matched is a part of the pool of now. -/
theorem matched_of_resolveOverload
    (resolved : (w.resolveOverload options name candidates arguments p).1 = .ok r)
    (typed : r.overload.isClosure = false) :
    bindArguments (w.parameters r.overload.callable) arguments = .ok r.slots ∧
      ∃ q : TypePool, ((q.invocable (w.invocable r.overload)).2.fitCall options
          (q.invocable (w.invocable r.overload)).1 (r.slots.map (Slot.map w.valueType))).isSome ∧
        (q.invocable (w.invocable r.overload)).2.Grows
          (w.resolveOverload options name candidates arguments p).2 := by
  simp only [resolveOverload] at resolved ⊢
  split at resolved
  · cases resolved
  · rename_i some
    rw [if_neg some]
    obtain ⟨⟨rank, ⟨o, slots⟩⟩, mem, rfl⟩ := choose_viable resolved
    obtain ⟨q, examined, kept⟩ := examineAll_examined mem
    have qualifies : w.Qualifies options arguments q o rank slots := qualifies_iff.mpr examined
    cases qualifies with
    | closure _ closure => exact absurd closure (Bool.eq_false_iff.mp typed)
    | typed bound _ fits =>
      have pool : (w.examine options arguments o q).2 = (q.invocable (w.invocable o)).2 := by
        simp only [examine, bound, typed, Bool.false_eq_true, if_false, fits]
      exact ⟨bound, q, by rw [fits]; rfl, pool ▸ kept⟩

end World

/-! ## Runs that end with a type mismatch -/

variable {D : Dialect} {α β : Type}

/-- The run ends with the error that a value does not have the declared type. -/
def Run.Mismatch (r : Run α) (m : Machine) (e : RuntimeError) : Prop :=
  (r m).1 = .error (.error e) ∧
    ∃ name expected actual, e.kind = .typeMismatch name expected actual

namespace Run.Mismatch

variable {m : Machine} {e : RuntimeError}

theorem not_pure {x : α} : ¬ (Pure.pure x : Run α).Mismatch m e := fun h => nomatch h.1

/-- A sequence of runs ends so in its first part, or in what follows it. -/
theorem of_bind {r : Run α} {k : α → Run β} (h : (r >>= k).Mismatch m e) :
    r.Mismatch m e ∨ ∃ x m', r m = (.ok x, m') ∧ (k x).Mismatch m' e := by
  obtain ⟨failed, mismatch⟩ := h
  rw [Run.bind_apply] at failed
  rcases made : r m with ⟨result, m'⟩
  rw [made] at failed
  cases result with
  | error halt =>
    refine .inl ⟨?_, mismatch⟩
    rw [made]
    exact congrArg _ (Except.error.inj failed)
  | ok x => exact .inr ⟨x, m', rfl, failed, mismatch⟩

/-- An action that is a step of a run fails as the run does. -/
theorem of_action {a : Action α} (h : (Run.ofAction a).Mismatch m e) :
    ∃ name expected actual, (a.runIn m.world).1 = .error (.typeMismatch name expected actual) := by
  obtain ⟨failed, name, expected, actual, kind⟩ := h
  obtain ⟨world, fuel, calls⟩ := m
  cases fuel with
  | zero => cases failed
  | succ fuel =>
    simp only [Run.ofAction] at failed
    cases result : a.runIn world with
    | mk outcome w' =>
      rw [result] at failed
      cases outcome with
      | ok x => cases failed
      | error reason =>
        cases failed
        exact ⟨name, expected, actual, congrArg _ kind⟩

/-- Holding cells makes no difference to how a run ends. -/
theorem of_holding {cells : List Cell} {r : Run α} (h : (Run.holding cells r).Mismatch m e) :
    r.Mismatch { m with world := m.world.hold cells } e := by
  obtain ⟨failed, mismatch⟩ := h
  refine ⟨?_, mismatch⟩
  simp only [Run.holding, Run.andFinally] at failed
  generalize r { m with world := m.world.hold cells } = made at failed ⊢
  obtain ⟨result, m'⟩ := made
  cases result with
  | ok x => cases failed
  | error halt =>
    cases halt with
    | outOfFuel => cases failed
    | error e' => exact failed

/-- A check fails so only where the value is not admitted. -/
theorem of_check {s : ScopeId} {name : String} {declared : SigId} {v : Value}
    (h : (Run.ofAction (Action.consult fun w => w.checkType s name declared v)).Mismatch m e) :
    m.world.admits s declared v = false := by
  obtain ⟨_, _, _, failed⟩ := h.of_action
  refine Bool.eq_false_iff.mpr fun admitted => ?_
  rw [Action.runIn_consult, World.checkType, if_pos admitted] at failed
  cases failed

end Run.Mismatch

/-- Declaring a variable checks no type. -/
theorem Action.declareVariable_mismatch {s : ScopeId} {x : String} {b : Binding} {w : World}
    {name expected actual : String} :
    ((Action.declareVariable s x b).runIn w).1 ≠ .error (.typeMismatch name expected actual) := by
  rw [Action.declareVariable, runIn_look_bind]
  split <;> nofun

/-! ## Installing arguments -/

/-- A parameter and its slot with which a call can go on in a scope: they are sound, and a single
value passes the check of the parameter. -/
structure World.Passes (D : Dialect) (w : World) (s : ScopeId)
    (b : ParameterSpec × Slot Value) : Prop where
  parameter : b.1.Ok D
  values : ∀ v ∈ b.2.values, v.Ok D w.count
  admitted : b.1.enforced = true → ∀ v, b.2 = .value v → w.admits s b.1.signature v = true

theorem World.Passes.later {w w' : World} {s s' : ScopeId} {b : ParameterSpec × Slot Value}
    (h : w.Passes D s b) (sound : Sound D w) (sound' : Sound D w') (g : w.Grows w') :
    w'.Passes D s' b where
  parameter := h.parameter
  values v hv := (h.values v hv).mono g.count
  admitted enforced v single := by
    refine World.admits_later (h.admitted enforced v single) sound sound' g (h.values v ?_)
    rw [single]
    exact List.mem_singleton_self v

namespace Knot

variable {k : Knot} {f : Frame} {m : Machine} {x : ParameterSpec} {slot : Slot Value}
  {e : RuntimeError}

theorem not_mismatch_argument (supplied : slot ≠ .omitted) :
    ¬ (k.argument x f slot).Mismatch m e := by
  intro mismatch
  cases slot with
  | omitted => exact supplied rfl
  | value v => exact Run.Mismatch.not_pure mismatch
  | spread vs =>
    rcases mismatch.of_bind with mismatch | ⟨_, _, _, mismatch⟩
    · obtain ⟨_, _, _, failed⟩ := mismatch.of_action
      cases failed
    · exact Run.Mismatch.not_pure mismatch

/-- A single argument keeps the type of its parameter; what is collected is a new list, which has
no declared type. -/
theorem argument_supplied {v : Value} {declared : SigId} {m' : Machine}
    (supplied : slot ≠ .omitted) (made : k.argument x f slot m = (.ok (v, declared), m')) :
    declared = .invalid ∨ slot = .value v ∧ declared = x.signature ∧ m' = m := by
  cases slot with
  | omitted => exact absurd rfl supplied
  | value v =>
    cases made
    exact .inr ⟨rfl, rfl, rfl⟩
  | spread vs =>
    rw [Knot.argument, Run.bind_apply] at made
    rcases list : (Run.ofAction (Action.newList vs) : Run Value) m with ⟨result, m''⟩
    rw [show (Action.newList vs : Run Value) m = (result, m'') from list] at made
    cases result with
    | ok list =>
      cases made
      exact .inl rfl
    | error halt => cases made

/-- A supplied argument that passes becomes a variable. -/
theorem not_mismatch_install (passes : m.world.Passes D f.scope (x, slot))
    (supplied : slot ≠ .omitted) : ¬ (k.install x f slot).Mismatch m e := by
  intro mismatch
  rcases mismatch.of_bind with mismatch | ⟨⟨v, declared⟩, m', made, mismatch⟩
  · exact not_mismatch_argument supplied mismatch
  rcases mismatch.of_bind with mismatch | ⟨_, _, _, mismatch⟩
  · have refused := mismatch.of_check
    have admitted : m'.world.admits f.scope (if x.enforced then declared else .invalid) v =
        true := by
      rcases argument_supplied supplied made with rfl | ⟨single, rfl, rfl⟩
      · rw [ite_self]
        rfl
      · split
        · exact passes.admitted ‹_› v single
        · rfl
    exact Bool.eq_false_iff.mp refused admitted
  · obtain ⟨_, _, _, failed⟩ := mismatch.of_action
    exact Action.declareVariable_mismatch failed

/-- A supplied argument that passes is handed to a native body. -/
theorem not_mismatch_materialize (passes : m.world.Passes D f.scope (x, slot))
    (supplied : slot ≠ .omitted) : ¬ (k.materialize x f slot).Mismatch m e := by
  intro mismatch
  cases slot with
  | omitted => exact supplied rfl
  | spread vs =>
    obtain ⟨_, _, _, failed⟩ := mismatch.of_action
    cases failed
  | value v =>
    rcases mismatch.of_bind with mismatch | ⟨_, _, _, mismatch⟩
    · cases enforced : x.enforced with
      | false =>
        rw [Knot.checkArgument, enforced] at mismatch
        obtain ⟨_, _, _, failed⟩ := mismatch.of_action
        cases failed
      | true =>
        rw [Knot.checkArgument, enforced] at mismatch
        exact Bool.eq_false_iff.mp mismatch.of_check (passes.admitted enforced _ rfl)
    · exact Run.Mismatch.not_pure mismatch

/-- The default of one parameter leads where it should. -/
theorem Sound.default (sound : k.Sound D) (ok : x.Ok D) {calls : List Invocation} :
    DefaultsLead D k f calls [x] f := fun q hq e he m _ => by
  obtain rfl := List.mem_singleton.mp hq
  exact sound.evaluate e f m (ok.default e he)

/-- If all supplied arguments pass, the fault lies with a parameter that is left to its
default. -/
theorem mismatch_installAll (sound : k.Sound D) : ∀ {ps : List ParameterSpec}
    {slots : List (Slot Value)} {m : Machine}, Ready D f m.calls m.world →
      (∀ b ∈ ps.zip slots, m.world.Passes D f.scope b) → (k.installAll f ps slots).Mismatch m e →
        ∃ x, (x, Slot.omitted) ∈ ps.zip slots ∧
          ∃ m' : Machine, m.world.Grows m'.world ∧ (k.install x f .omitted).Mismatch m' e
  | [], _, _, _, _, mismatch => absurd mismatch Run.Mismatch.not_pure
  | _ :: _, [], _, _, _, mismatch => absurd mismatch Run.Mismatch.not_pure
  | x :: ps, slot :: slots, m, ready, passes, mismatch => by
    rw [List.zip_cons_cons] at passes ⊢
    obtain ⟨here, others⟩ := List.forall_mem_cons.mp passes
    rcases mismatch.of_bind with mismatch | ⟨_, m₁, installed, mismatch⟩
    · by_cases supplied : slot = .omitted
      · subst supplied
        exact ⟨x, List.mem_cons_self, m, .refl _, mismatch⟩
      · exact absurd mismatch (not_mismatch_install here supplied)
    · obtain ⟨ready', g, -⟩ := (leads_install here.parameter (sound.default here.parameter)
        rfl here.values).of_ok ready installed
      obtain ⟨y, left, m', g', mismatch⟩ := mismatch_installAll sound ready'
        (fun b hb => (others b hb).later ready.sound ready'.sound g) mismatch
      exact ⟨y, List.mem_cons_of_mem _ left, m', g.trans g', mismatch⟩

theorem mismatch_materializeAll (sound : k.Sound D) : ∀ {ps : List ParameterSpec}
    {slots : List (Slot Value)} {m : Machine}, Ready D f m.calls m.world →
      (∀ b ∈ ps.zip slots, m.world.Passes D f.scope b) →
        (k.materializeAll f ps slots).Mismatch m e →
          ∃ x, (x, Slot.omitted) ∈ ps.zip slots ∧
            ∃ m' : Machine, m.world.Grows m'.world ∧ (k.materialize x f .omitted).Mismatch m' e
  | [], _, _, _, _, mismatch => absurd mismatch Run.Mismatch.not_pure
  | _ :: _, [], _, _, _, mismatch => absurd mismatch Run.Mismatch.not_pure
  | x :: ps, slot :: slots, m, ready, passes, mismatch => by
    rw [List.zip_cons_cons] at passes ⊢
    obtain ⟨here, others⟩ := List.forall_mem_cons.mp passes
    rcases mismatch.of_bind with mismatch | ⟨v, m₁, made, mismatch⟩
    · by_cases supplied : slot = .omitted
      · subst supplied
        exact ⟨x, List.mem_cons_self, m, .refl _, mismatch⟩
      · exact absurd mismatch (not_mismatch_materialize here supplied)
    · obtain ⟨ready', g, okv⟩ := (leads_materialize (sound.default here.parameter) rfl
        here.values).of_ok ready made
      rcases mismatch.of_bind with mismatch | ⟨_, _, _, mismatch⟩
      · -- the others are made while the value is held
        have held : ScopeLang.Sound D (m₁.world.hold v.cells) :=
          SoundAt.hold okv.cells ready'.sound
        have g₁ : m.world.Grows (m₁.world.hold v.cells) := g.trans (World.grows_setHeld _ _)
        obtain ⟨y, left, m', g', mismatch⟩ := mismatch_materializeAll
          (m := { m₁ with world := m₁.world.hold v.cells }) sound
          (ready'.later held (World.grows_setHeld _ _))
          (fun b hb => (others b hb).later ready.sound held g₁) mismatch.of_holding
        exact ⟨y, List.mem_cons_of_mem _ left, m', g₁.trans g', mismatch⟩
      · exact absurd mismatch Run.Mismatch.not_pure

/-- With these arguments, only the default of an omitted parameter can be of the wrong type. -/
structure RefusesOnlyDefaults (k : Knot) (f : Frame) (m : Machine) (ps : List ParameterSpec)
    (slots : List (Slot Value)) : Prop where
  install : ∀ {x slot e}, (x, slot) ∈ ps.zip slots → slot ≠ .omitted →
    ¬ (k.install x f slot).Mismatch m e
  materialize : ∀ {x slot e}, (x, slot) ∈ ps.zip slots → slot ≠ .omitted →
    ¬ (k.materialize x f slot).Mismatch m e
  installAll : ∀ {e}, (k.installAll f ps slots).Mismatch m e →
    ∃ x, (x, Slot.omitted) ∈ ps.zip slots ∧
      ∃ m' : Machine, m.world.Grows m'.world ∧ (k.install x f .omitted).Mismatch m' e
  materializeAll : ∀ {e}, (k.materializeAll f ps slots).Mismatch m e →
    ∃ x, (x, Slot.omitted) ∈ ps.zip slots ∧
      ∃ m' : Machine, m.world.Grows m'.world ∧ (k.materialize x f .omitted).Mismatch m' e

theorem refusesOnlyDefaults (sound : k.Sound D) {ps : List ParameterSpec} {slots : List (Slot Value)}
    (ready : Ready D f m.calls m.world)
    (passes : ∀ b ∈ ps.zip slots, m.world.Passes D f.scope b) : k.RefusesOnlyDefaults f m ps slots where
  install mem := not_mismatch_install (passes _ mem)
  materialize mem := not_mismatch_materialize (passes _ mem)
  installAll := mismatch_installAll sound ready passes
  materializeAll := mismatch_materializeAll sound ready passes

end Knot

/-! ## From matching to installing -/

theorem SoundAt.parameters {w : World} (sound : Sound D w) {c : Callable}
    (there : c.cell.In w.count) : ∀ x ∈ w.parameters c, x.Ok D := by
  cases c with
  | function h => exact (sound.function there).parameters
  | method h => exact (sound.method there).parameters
  | classObject h => exact fun _ mem => absurd mem List.not_mem_nil

namespace World

variable {w w₁ : World} {s : ScopeId} {name : String} {candidates : List Overload}
  {arguments : CallArguments} {r : Resolution} {parameters : List ParameterSpec}
  {slots : List (Slot Value)}

/-- The options of type checks stay what they are. -/
theorem Grows.optionsOf (g : w.Grows w₁) (sound : Sound D w) (sound₁ : Sound D w₁) (t : ScopeId) :
    w₁.optionsOf t = w.optionsOf t := by
  simp only [World.optionsOf, World.typesOf, (sound.scope t).types, (sound₁.scope t).types]
  exact (g.context sound.context).options

/-- A bound call is turned down only for a checked value that does not fit. -/
theorem fitCall_iff {o : Overload} (p : TypePool) (options : MatchOptions)
    (bound : bindArguments (w.parameters o.callable) arguments = .ok slots) :
    ((p.invocable (w.invocable o)).2.fitCall options (p.invocable (w.invocable o)).1
        (slots.map (Slot.map w.valueType))).isSome ↔
      ∀ c ∈ checkedValues ((w.parameters o.callable).zip slots),
        ((p.invocable (w.invocable o)).2.fit options c.1 (w.valueType c.2)).isSome := by
  rw [fitCall_eq_sum bound, Fit.isSome_sum, isSome_slotFits]

theorem fitCall_score {o : Overload} {p : TypePool} {options : MatchOptions} {fit : Fit}
    (bound : bindArguments (w.parameters o.callable) arguments = .ok slots)
    (accepted : (p.invocable (w.invocable o)).2.fitCall options (p.invocable (w.invocable o)).1
      (slots.map (Slot.map w.valueType)) = some fit) :
    fit.score = ((checkedValues ((w.parameters o.callable).zip slots)).map fun c =>
        Fit.points ((p.invocable (w.invocable o)).2.fit options c.1 (w.valueType c.2))).sum +
      uncheckedCount ((w.parameters o.callable).zip slots) +
        omittedCount ((w.parameters o.callable).zip slots) := by
  rw [fitCall_eq_sum bound] at accepted
  rw [Fit.score_sum accepted, sum_points]

theorem runIn_resolveAmong
    (run : (Action.resolveAmong s name candidates arguments).runIn w = (.ok r, w₁)) :
    (w.resolveOverload (w.optionsOf s) name candidates arguments (w.poolOf s)).1 = .ok r ∧
      w₁ = w.setPool s
        (w.resolveOverload (w.optionsOf s) name candidates arguments (w.poolOf s)).2 := by
  rw [Action.resolveAmong, runIn_change_bind] at run
  simp only [withPool] at run
  split at run
  · rename_i _ resolved
    cases run
    exact ⟨resolved, rfl⟩
  · cases run

/-- The arguments with which a call goes to a typed overload pass in the world that is left. -/
theorem passes_of_resolveAmong (sound : Sound D w) (ok : arguments.Ok D w.count)
    (there : ∀ o ∈ candidates, o.callable.cell.In w.count)
    (run : (Action.resolveAmong s name candidates arguments).runIn w = (.ok r, w₁))
    (typed : r.overload.isClosure = false) :
    Sound D w₁ ∧ w.Grows w₁ ∧ r.overload.callable.cell.In w.count ∧
      ∀ b ∈ (w.parameters r.overload.callable).zip r.slots, w₁.Passes D s b := by
  obtain ⟨resolved, rfl⟩ := runIn_resolveAmong run
  obtain ⟨mem, values⟩ := World.resolveOverload_ok ok.all resolved
  obtain ⟨bound, q, accepted, kept⟩ := matched_of_resolveOverload resolved typed
  have g := w.grows_setPool (w.grows_resolveOverload (w.optionsOf s) arguments name candidates
    (w.poolOf s))
  refine ⟨sound.setPool s _, g, there _ mem, fun b hb => ?_⟩
  obtain ⟨inParameters, inSlots⟩ := List.of_mem_zip hb
  refine ⟨sound.parameters (there _ mem) _ inParameters,
    fun v hv => (values _ inSlots v hv).mono g.count, fun enforced v single => ?_⟩
  have checked : (b.1.signature, v) ∈ checkedValues
      ((w.parameters r.overload.callable).zip r.slots) := by
    refine List.mem_flatMap.mpr ⟨b, hb, ?_⟩
    simp [enforced, single, Slot.values]
  have fits := kept.fit ((fitCall_iff q _ bound).mp accepted _ checked)
  have okv : v.Ok D w.count := values _ inSlots v (by simp [single, Slot.values])
  rw [admits, (sound.setPool s _).poolOf_eq, sound.pool_setPool, g.optionsOf sound (sound.setPool s _),
    g.valueType sound okv, TypePool.admits, fits, Bool.or_true]

/-- A call whose arguments are bound is turned down only for a value of an enforced parameter that
does not match the type of this parameter.  Its score is what these values get, with one point for
every other value and one for every parameter that is left to its default.  And if the call goes
to the overload, then whatever runs in between, none of its arguments is refused where they become
variables or are handed to a native body. -/
theorem bound_call_agrees {o : Overload}
    (bound : bindArguments (w.parameters o.callable) arguments = .ok slots) :
    (∀ (options : MatchOptions) (p : TypePool),
      let typed := p.invocable (w.invocable o)
      let laid := (w.parameters o.callable).zip slots
      let result := typed.2.fitCall options typed.1 (slots.map (Slot.map w.valueType))
      (result.isSome ↔
        ∀ c ∈ checkedValues laid, (typed.2.fit options c.1 (w.valueType c.2)).isSome) ∧
      ∀ fit, result = some fit →
        fit.score =
          ((checkedValues laid).map fun c =>
              Fit.points (typed.2.fit options c.1 (w.valueType c.2))).sum +
            uncheckedCount laid + omittedCount laid) ∧
    ∀ {D : Dialect} {host : Host} {config : Config} {n : Nat} {s : ScopeId} {name : String}
      {candidates : List Overload} {w₁ : World}, host.Obeys D → Sound D w →
      arguments.Ok D w.count → (∀ o ∈ candidates, o.callable.cell.In w.count) →
      (Action.resolveAmong s name candidates arguments).runIn w = (.ok ⟨o, slots⟩, w₁) →
      o.isClosure = false →
      ∀ {f : Frame} {m : Machine}, Ready D f m.calls m.world → w₁.Grows m.world →
        (knot config host n).RefusesOnlyDefaults f m (m.world.parameters o.callable) slots := by
  refine ⟨fun options p => ⟨fitCall_iff p options bound, fun fit => fitCall_score bound⟩, ?_⟩
  intro D host config n s name candidates w₁ obeys sound ok there run typed f m ready later
  obtain ⟨sound₁, g, old, passes⟩ := passes_of_resolveAmong sound ok there run typed
  have same : m.world.parameters o.callable = w.parameters o.callable := by
    rw [parameters, parameters, procedure?_later (g.trans later) old]
  rw [same]
  exact Knot.refusesOnlyDefaults (knot_sound obeys n) ready fun b hb =>
    (passes b hb).later sound₁ ready.sound later

end World

/-- A session whose host has registered a function `f(a: Int, b: Int = "x", c, rest...)`. -/
def Session.withDefault : Session :=
  let s := start {} Kit.host
  let parameters : List Parameter :=
    [⟨"a", some (.named "Int" []), none, false, {}⟩,
      ⟨"b", some (.named "Int" []), some (.ofTerm (.literal (.string "x"))), false, {}⟩,
      ⟨"c", none, none, false, {}⟩, ⟨"rest", none, none, true, {}⟩]
  { s with world := s.world.addNative s.root "f" parameters none "first" }

/-- The arguments of `f(1, c: "y")`. -/
def givenArguments : CallArguments :=
  ⟨[.ofDatum (.number (.int 1))], [("c", .ofDatum (.string "y"))]⟩

/-- What becomes of them. -/
def givenSlots : List (Slot Value) :=
  [.value (.ofDatum (.number (.int 1))), .omitted, .value (.ofDatum (.string "y")), .spread []]

/-- The call `f(1, c: "y")` goes to the function and fails for the default of `b`. -/
theorem World.bound_call_agrees_default :
    bindArguments (Session.withDefault.world.parameters (functionAt 0).callable) givenArguments =
        .ok givenSlots ∧
      omittedCount ((Session.withDefault.world.parameters (functionAt 0).callable).zip givenSlots) =
        1 ∧
      ∃ w₁, (Action.resolveAmong ⟨0⟩ "f" [functionAt 0] givenArguments).runIn
          Session.withDefault.world = (.ok ⟨functionAt 0, givenSlots⟩, w₁) ∧
        (∃ e, ((knot {} Kit.host 5).materializeAll ⟨⟨0⟩, none⟩
          (Session.withDefault.world.parameters (functionAt 0).callable)
          givenSlots).Mismatch ⟨w₁, 20, []⟩ e) ∧
        (knot {} Kit.host 5).RefusesOnlyDefaults ⟨⟨0⟩, none⟩ ⟨w₁, 20, []⟩
          (w₁.parameters (functionAt 0).callable) givenSlots := by
  have obeys : Kit.host.Obeys (.full fun _ => True) := Kit.host_obeys fun _ _ => .inl trivial
  have reachable : Session.withDefault.Reachable (.full fun _ => True) :=
    .act (.start {} Kit.host) (.function "f" none "first"
      ⟨trivial, fun _ _ => Dialect.admits_of_sharing trivial _⟩)
  have ready : Ready (.full fun _ => True) ⟨⟨0⟩, none⟩ [] Session.withDefault.world :=
    reachable.ready obeys
  have ok : givenArguments.Ok (.full fun _ => True) Session.withDefault.world.count :=
    ⟨List.forall_mem_singleton.mpr (Value.ok_scalar rfl rfl),
      List.forall_mem_singleton.mpr (Value.ok_scalar rfl rfl)⟩
  have there : ∀ o ∈ [functionAt 0], o.callable.cell.In Session.withDefault.world.count :=
    List.forall_mem_singleton.mpr (by decide +kernel)
  have bound : bindArguments (Session.withDefault.world.parameters (functionAt 0).callable)
      givenArguments = .ok givenSlots := rfl
  have run : (Action.resolveAmong ⟨0⟩ "f" [functionAt 0] givenArguments).runIn
      Session.withDefault.world = (.ok ⟨functionAt 0, givenSlots⟩,
        ((Action.resolveAmong ⟨0⟩ "f" [functionAt 0] givenArguments).runIn
          Session.withDefault.world).2) := rfl
  have mismatch : ∃ e, ((knot {} Kit.host 5).materializeAll ⟨⟨0⟩, none⟩
      (Session.withDefault.world.parameters (functionAt 0).callable) givenSlots).Mismatch
        ⟨((Action.resolveAmong ⟨0⟩ "f" [functionAt 0] givenArguments).runIn
          Session.withDefault.world).2, 20, []⟩ e := ⟨_, rfl, _, _, _, rfl⟩
  generalize ((Action.resolveAmong ⟨0⟩ "f" [functionAt 0] givenArguments).runIn
    Session.withDefault.world).2 = w₁ at run mismatch
  obtain ⟨sound₁, g, -⟩ := World.passes_of_resolveAmong ready.sound ok there run rfl
  exact ⟨bound, by decide +kernel, w₁, run, mismatch,
    (World.bound_call_agrees bound).2 obeys ready.sound ok there run rfl
      (ready.later sound₁ g) (.refl _)⟩

end ScopeLang
