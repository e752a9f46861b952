/-
# Constants

A variable that has been declared as constant keeps its value for good.  A step
writes to the variables of an old scope in two ways only (`World.Alters`): it declares
one under a name that is free, or it assigns to one that is no constant, and then
it leaves the flags and the declared type alone.  Whatever else code does to variables it
does to new scopes: captured copies, the members of an instance, the variables of a
call.

So flags and declared types last (`World.Steady`), and constants last as they are, however
the program goes on (`Session.Reachable.reached_steady`).  For the same reason every
assignment that finds a constant fails without a trace.
-/
import ScopeLang.Proofs.Captures

namespace ScopeLang

variable {D : Dialect} {w w' w₁ w₂ : World} {s t : ScopeId} {n : String} {a b c : Binding}

/-! ## Variables that persist -/

/-- What becomes of a variable in time: it may be given another value, unless it is constant. -/
structure Binding.Persists (a b : Binding) : Prop where
  flags : b.flags = a.flags
  declared : b.declared = a.declared
  constant : a.flags.isConst = true → b = a

namespace Binding.Persists

theorem refl (a : Binding) : a.Persists a := ⟨rfl, rfl, fun _ => rfl⟩

theorem trans (h : a.Persists b) (i : b.Persists c) : a.Persists c where
  flags := i.flags.trans h.flags
  declared := i.declared.trans h.declared
  constant const := by
    obtain rfl := h.constant const
    exact i.constant const

theorem of_value {v : Value} (variable_ : a.flags.isConst = false) :
    a.Persists { a with value := v } :=
  ⟨rfl, rfl, fun const => absurd (variable_.symm.trans const) Bool.false_ne_true⟩

end Binding.Persists

/-- Every variable is still there, and has persisted. -/
def World.Steady (w w' : World) : Prop :=
  ∀ {t n a}, w.localBinding? t n = some a → ∃ b, w'.localBinding? t n = some b ∧ a.Persists b

namespace World.Steady

theorem refl (w : World) : w.Steady w := fun {_ _ a} found => ⟨a, found, .refl a⟩

theorem trans (h : w.Steady w₁) (i : w₁.Steady w₂) : w.Steady w₂ := by
  intro t n a found
  obtain ⟨b, found', persists⟩ := h found
  obtain ⟨c, found'', persists'⟩ := i found'
  exact ⟨c, found'', persists.trans persists'⟩

end World.Steady

/-! ## What a step writes to variables -/

namespace World

/-- A scope with a variable is there. -/
theorem in_of_localBinding? (found : w.localBinding? t n = some a) : t.In w.count := by
  by_contra new
  rw [localBinding?, scope_default new] at found
  cases found

/-- A variable that is written to persists. -/
theorem Alters.persists {bindings : Table Binding} (h : w.Alters s t bindings)
    (found : w.localBinding? t n = some a) : ∃ b, bindings.get? n = some b ∧ a.Persists b := by
  cases h with
  | same => exact ⟨a, found, .refl a⟩
  | @declare m b _ free =>
    have other : n ≠ m := by
      rintro rfl
      rw [hasLocalVariable, Table.contains] at free
      rw [localBinding?] at found
      simp [found] at free
    exact ⟨a, (Table.get?_insert_other other ..).trans found, .refl a⟩
  | @assign m x v _ here variable_ =>
    by_cases same : n = m
    · subst same
      obtain rfl := Option.some.inj (found.symm.trans here)
      exact ⟨_, Table.get?_insert_same .., .of_value variable_⟩
    · exact ⟨a, (Table.get?_insert_other same ..).trans found, .refl a⟩

end World

/-! ## Constants in time -/

theorem Step.steady (mute : ¬ D.hostWrites) (h : Step D s w w') (sound : Sound D w)
    (hs : s.In w.count) : w.Steady w' := fun found =>
  (h.alters mute sound hs (World.in_of_localBinding? found)).persists found

/-- Whatever comes later, variables persist. -/
theorem World.Later.steady (mute : ¬ D.hostWrites) (h : w.Later D w') (sound : Sound D w) :
    w.Steady w' := by
  induction h with
  | refl => exact World.Steady.refl w
  | step later hs step ih => exact ih.trans (step.steady mute (later.kept sound).1 hs)
  | @enter s w₁ kind label later hs ih =>
    refine ih.trans fun {t n a} found => ⟨a, ?_, .refl a⟩
    have same := World.scope_derive_old (s := s) (World.in_of_localBinding? found) kind label (some s)
    exact (congrArg (fun x => x.bindings.get? n) same).trans found

namespace Action

/-- A constant of a scope cannot be assigned to. -/
theorem updateLocalVariable_constant (found : w.localBinding? t n = some b)
    (const : b.flags.isConst = true) (v : Value) :
    (updateLocalVariable t n v).runIn w = (.error (.constViolation n), w) := by
  simp only [updateLocalVariable, runIn_look_bind, found, const, if_true]
  rfl

/-- Nor can it be assigned to from where it is in sight. -/
theorem updateVariable_constant (target : w.bindingScope? s n = some t)
    (found : w.localBinding? t n = some b) (const : b.flags.isConst = true) (v : Value) :
    (updateVariable s n v).runIn w = (.error (.constViolation n), w) := by
  simp only [updateVariable, runIn_look_bind, target]
  exact updateLocalVariable_constant found const v

end Action

/-! ## Runs of programs -/

/-- From one moment of a program to the next all variables persist. -/
theorem Session.Reachable.reached_steady {natives : String → Prop} {S : Session}
    (h : S.Reachable (.checked natives)) (obeys : S.host.Obeys (.checked natives))
    (program : List Statement) {k m : Nat} (le : k ≤ m) :
    (S.reached k program).world.Steady (S.reached m program).world := by
  have admitted := Dialect.admits_of_sharing (D := .checked natives) trivial (blockMarks program)
  obtain ⟨f, reach⟩ := h.reach obeys admitted k
  have sound := (reach.kept (h.ready obeys)).1.sound
  intro t n a found
  exact (h.reached_later obeys admitted le).steady id sound found

/-- A constant that is there at any moment of any program has the same value, flags and declared
type whatever comes later, and every assignment that comes to it fails and changes nothing. -/
theorem Session.Reachable.constants_last {natives : String → Prop} {S : Session}
    (h : S.Reachable (.checked natives)) (obeys : S.host.Obeys (.checked natives)) (fuel : Nat)
    (program : List Statement)
    (found : (S.reached fuel program).world.localBinding? t n = some b)
    (const : b.flags.isConst = true)
    (later : (S.reached fuel program).world.Later (.checked natives) w') :
    w'.localBinding? t n = some b ∧
      (∀ v, (Action.updateLocalVariable t n v).runIn w' = (.error (.constViolation n), w')) ∧
      ∀ s v, w'.bindingScope? s n = some t →
        (Action.updateVariable s n v).runIn w' = (.error (.constViolation n), w') := by
  have admitted := Dialect.admits_of_sharing (D := .checked natives) trivial
  obtain ⟨f, reach⟩ := h.reach obeys (admitted _) fuel
  have sound := (reach.kept (h.ready obeys)).1.sound
  obtain ⟨b', found', persists⟩ := later.steady id sound found
  obtain rfl := persists.constant const
  exact ⟨found', Action.updateLocalVariable_constant found' const,
    fun s v target => Action.updateVariable_constant target found' const v⟩

/-- A program that declares a constant list. -/
def declareLimit : List Statement :=
  [⟨.declare ⟨"limit", none, some (.ofTerm (.sequence .list [.ofTerm (.literal (.int 5))])),
    { isConst := true }⟩, Span.none⟩]

/-- A program that assigns to it in a block. -/
def assignLimit : List Statement :=
  [⟨.block [⟨.assign "limit" (.ofTerm (.literal (.int 6))), Span.none⟩], Span.none⟩]

/-- The list is the same while the other program runs. -/
theorem constant_limit :
    ∃ b, ((Session.start {} Kit.host).reached 20 declareLimit).world.localBinding? ⟨0⟩ "limit" =
        some b ∧ b.flags.isConst = true ∧
      (((Session.start {} Kit.host).run 20 declareLimit).2.reached 40
        assignLimit).world.localBinding? ⟨0⟩ "limit" = some b := by
  have obeys : Kit.host.Obeys (.checked (· = "first")) := Kit.host_obeys fun body h => .inr (by
    rw [show body = "first" from h]
    decide)
  have start : (Session.start {} Kit.host).Reachable (.checked (· = "first")) := .start {} Kit.host
  have ended : ((Session.start {} Kit.host).run 20 declareLimit).1.isOk = true := by decide +kernel
  have declared : ((Session.start {} Kit.host).run 20 declareLimit).2.Reachable
      (.checked (· = "first")) := by
    refine .act start (.run (Dialect.admits_of_sharing trivial _) fun e => ?_)
    rw [e] at ended
    exact absurd ended Bool.false_ne_true
  obtain ⟨b, found⟩ := Option.isSome_iff_exists.mp
    (show (((Session.start {} Kit.host).reached 20 declareLimit).world.localBinding? ⟨0⟩
      "limit").isSome = true by decide +kernel)
  have const : (((Session.start {} Kit.host).reached 20 declareLimit).world.localBinding? ⟨0⟩
      "limit").all (·.flags.isConst) = true := by decide +kernel
  rw [found, Option.all_some] at const
  exact ⟨b, found, const, (start.constants_last obeys 20 declareLimit found const
    (declared.later obeys trivial .refl 40 assignLimit)).1⟩

end ScopeLang
