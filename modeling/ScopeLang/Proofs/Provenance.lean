/-
# Where errors come from

Nothing in a program catches an error: one that arises leaves every evaluation
that is in progress, the innermost first, and each may fill in what the error
does not say yet.  To see which evaluations those are, the evaluator is given
other markings, each of which may do anything to an error that leaves an evaluation.
An error comes from `Raised` if it arises as `origin`, which names no statement,
and leaves the evaluations of `path`, under every marking alike; there is at
most one such `Raised` (`Raised.ext_under`), so that the markings do observe
what was in progress.

That there is one follows from all variants of the evaluator coming to one ending
(`markedKnots_uniform`).
-/
import ScopeLang.Proofs.Variants
import Mathlib.Data.List.Induction

namespace ScopeLang

variable {α β : Type}

/-! ## What the evaluator makes of errors -/

namespace Raised

theorem kind_own (ev : Evaluation) (e : RuntimeError) : (Marking.own ev e).kind = e.kind := by
  cases ev with
  | expression => rfl
  | statement s owner =>
    simp only [Marking.own, RuntimeError.withContext]
    split <;> rfl

theorem context_own (ev : Evaluation) (e : RuntimeError) :
    (Marking.own ev e).context = e.context.or ev.context? := by
  cases ev with
  | expression =>
    simp only [Marking.own, RuntimeError.orSpan, Evaluation.context?, Option.or_none]
  | statement s owner =>
    obtain ⟨kind, span, context⟩ := e
    cases context <;> rfl

theorem kind_under_own (r : Raised) : (r.under .own).kind = r.origin.kind := by
  obtain ⟨origin, path, _⟩ := r
  suffices kept : ∀ e, (path.foldl (fun e ev => Marking.own ev e) e).kind = e.kind from kept origin
  intro e
  induction path generalizing e with
  | nil => rfl
  | cons ev path ih => exact (ih _).trans (kind_own ev e)

theorem context_foldl_own (path : List Evaluation) (e : RuntimeError) :
    (path.foldl (fun e ev => Marking.own ev e) e).context =
      e.context.or (path.findSome? Evaluation.context?) := by
  induction path generalizing e with
  | nil => simp
  | cons ev path ih =>
    rw [List.foldl_cons, ih, context_own, Option.or_assoc, List.findSome?_cons]
    cases ev.context? <;> simp

/-- The innermost statement that an error leaves is the one it names. -/
theorem context_under_own (r : Raised) :
    (r.under .own).context = r.path.findSome? Evaluation.context? := by
  rw [under, context_foldl_own, r.unnamed, Option.none_or]

/-! ## What markings observe -/

/-- The number that an error of one kind carries. -/
def number (e : RuntimeError) : Nat :=
  match e.kind with
  | .ambiguousOverload _ n => n
  | _ => 0

/-- A number to which a binary digit has been appended; it is a larger one. -/
def append (digit : Evaluation → Bool) (n : Nat) (ev : Evaluation) : Nat :=
  2 * n + 1 + (digit ev).toNat

/-- The marking that appends a digit for each evaluation to the number of an error. -/
def recording (digit : Evaluation → Bool) : Marking := fun ev e =>
  { e with kind := .ambiguousOverload "" (append digit (number e) ev) }

theorem number_foldl_recording (digit : Evaluation → Bool) (path : List Evaluation)
    (e : RuntimeError) :
    number (path.foldl (fun e ev => recording digit ev e) e) =
      path.foldl (append digit) (number e) := by
  induction path generalizing e with
  | nil => rfl
  | cons ev path ih => exact ih (recording digit ev e)

theorem le_foldl_append (digit : Evaluation → Bool) (n : Nat) (path : List Evaluation) :
    n ≤ path.foldl (append digit) n := by
  induction path generalizing n with
  | nil => exact Nat.le_refl n
  | cons ev path ih =>
    refine Nat.le_trans ?_ (ih (append digit n ev))
    simp only [append]
    omega

/-- Appending a digit to a number that has grown from another does not give the other. -/
theorem append_foldl_ne (digit : Evaluation → Bool) (n : Nat) (path : List Evaluation)
    (ev : Evaluation) : append digit (path.foldl (append digit) n) ev ≠ n := by
  have := le_foldl_append digit n path
  simp only [append]
  omega

/-- The numbers that come of two paths by all ways to choose digits tell the paths apart. -/
theorem foldl_append_inj {n : Nat} {p q : List Evaluation}
    (h : ∀ digit, p.foldl (append digit) n = q.foldl (append digit) n) : p = q := by
  classical
  induction p using List.reverseRecOn generalizing q with
  | nil =>
    obtain rfl | ⟨q, ev, rfl⟩ := List.eq_nil_or_concat q
    · rfl
    · refine absurd (h fun _ => true).symm ?_
      simpa using append_foldl_ne _ n q ev
  | append_singleton p ev ih =>
    obtain rfl | ⟨q, ev', rfl⟩ := List.eq_nil_or_concat q
    · refine absurd (h fun _ => true) ?_
      simpa using append_foldl_ne _ n p ev
    -- the last digits agree, and so do the numbers without them
    have last : ∀ digit : Evaluation → Bool, digit ev = digit ev' ∧
        p.foldl (append digit) n = q.foldl (append digit) n := by
      intro digit
      have same := h digit
      simp only [List.concat_eq_append, List.foldl_append, List.foldl_cons, List.foldl_nil,
        append] at same
      have one := (digit ev).toNat_le
      have one' := (digit ev').toNat_le
      have inj : ∀ a b : Bool, a.toNat = b.toNat → a = b := by decide
      exact ⟨inj _ _ (by omega), by omega⟩
    have here : ev' = ev := by
      have := (last fun x => x = ev).1
      simpa using this
    rw [ih fun digit => (last digit).2, here, List.concat_eq_append]

/-- What all markings make of an error tells how it arose and what it left. -/
theorem ext_under {r r' : Raised} (h : ∀ τ, r.under τ = r'.under τ) : r = r' := by
  obtain ⟨origin, path, _⟩ := r
  obtain ⟨origin', path', _⟩ := r'
  have origins : origin = origin' := by
    have same := h fun _ e => e
    simpa [under, List.foldl_fixed] using same
  subst origins
  have paths : path = path' := by
    refine foldl_append_inj (n := number origin) fun digit => ?_
    rw [← number_foldl_recording, ← number_foldl_recording]
    exact congrArg number (h (recording digit))
  subst paths
  rfl

end Raised

/-! ## Programs -/

namespace Run

variable {r : Run α} {m m' : Machine} {e : RuntimeError}

theorem bind_eq_raised {k : α → Run β} (h : (r >>= k) m = (.error (.error e), m')) :
    r m = (.error (.error e), m') ∨
      ∃ x m₁, r m = (.ok x, m₁) ∧ k x m₁ = (.error (.error e), m') := by
  rw [bind_apply] at h
  cases made : r m with
  | mk result m₁ =>
    rw [made] at h
    cases result with
    | ok x => exact .inr ⟨x, m₁, rfl, h⟩
    | error halt =>
      cases h
      exact .inl rfl

theorem holding_eq_raised {cells : List Cell} (h : holding cells r m = (.error (.error e), m')) :
    ∃ m₁, r { m with world := m.world.hold cells } = (.error (.error e), m₁) := by
  simp only [holding, andFinally] at h
  split at h
  · cases h
  · rename_i made
    rw [made]
    cases h
    exact ⟨_, rfl⟩

theorem mapError_eq_raised {g : RuntimeError → RuntimeError}
    (h : mapError g r m = (.error (.error e), m')) :
    ∃ e', r m = (.error (.error e'), m') ∧ g e' = e := by
  rw [mapError_apply] at h
  split at h
  · cases h
  · rename_i e' _ made
    cases h
    exact ⟨e', made, rfl⟩
  · cases h

theorem tick_ne_raised : tick m ≠ (.error (.error e), m') := by
  obtain ⟨w, fuel, calls⟩ := m
  cases fuel <;> exact nofun

end Run

section Top

variable {config : Config} {host : Host} {n : Nat} {m m' : Machine} {e : RuntimeError}

/-- An error that comes out of a statement names one. -/
theorem interpret_named {s : Statement} {f : Frame}
    (h : (knot config host n).interpret s f m = (.error (.error e), m')) : e.context ≠ none := by
  cases n with
  | zero => cases h
  | succ n =>
    obtain ticked | ⟨_, m₁, _, h⟩ := Run.bind_eq_raised h
    · exact absurd ticked Run.tick_ne_raised
    obtain looked | ⟨label, m₂, _, h⟩ := Run.bind_eq_raised h
    · cases looked
    obtain ⟨e', -, rfl⟩ := Run.mapError_eq_raised h
    have named := Raised.context_own (.statement s label) e'
    exact fun none => by simp_all [Marking.own, Evaluation.context?]

/-- The statements of a program settle, one after the other, up to one with an outcome that no
program takes up; the error is the one that this raises. -/
inductive RaisesAtTop (k : Knot) (root : ScopeId) :
    Value → List Statement → Machine → RuntimeError → Prop
  | here {last : Value} {s : Statement} {rest : List Statement} {m m' : Machine} {o : Outcome}
      {e : RuntimeError} :
      Run.holding last.cells (k.interpret s ⟨root, none⟩) m = (.ok o, m') →
      o.atTop s.span = .error (.error e) → RaisesAtTop k root last (s :: rest) m e
  | next {last v : Value} {s : Statement} {rest : List Statement} {m m' : Machine}
      {e : RuntimeError} :
      Run.holding last.cells (k.interpret s ⟨root, none⟩) m = (.ok (.settled v), m') →
      RaisesAtTop k root v rest m' e → RaisesAtTop k root last (s :: rest) m e

/-- What the top level raises names no statement. -/
theorem RaisesAtTop.unnamed {k : Knot} {root : ScopeId} {last : Value} {program : List Statement}
    (h : RaisesAtTop k root last program m e) : e.context = none := by
  induction h with
  | next _ _ ih => exact ih
  | @here _ _ _ _ _ o _ _ top =>
    cases o with
    | settled v => cases top
    | returned v => cases top
    | _ =>
      cases top
      rfl

/-- What a program raises either names a statement or is raised at the top level. -/
theorem programFrom_named {root : ScopeId} {last : Value} {program : List Statement}
    (h : (knot config host n).programFrom root last program m = (.error (.error e), m')) :
    e.context ≠ none ∨ RaisesAtTop (knot config host n) root last program m e := by
  induction program generalizing last m with
  | nil => cases h
  | cons s rest ih =>
    obtain raised | ⟨o, m₁, came, h⟩ := Run.bind_eq_raised h
    · obtain ⟨m₂, raised⟩ := Run.holding_eq_raised raised
      exact .inl (interpret_named raised)
    cases o with
    | settled v => exact (ih h).imp id (.next came)
    | returned v => cases h
    | _ =>
      cases h
      exact .inr (.here came rfl)

end Top

/-! ## Sessions -/

namespace Session

/-- The program raises an error in the session that arises at `r.origin` and leaves the evaluations
of `r.path`, which is seen from what all markings make of it. -/
def Raises (s : Session) (fuel : Nat) (program : List Statement) (r : Raised) : Prop :=
  ∀ τ, (markedKnot τ s.config s.host fuel).programFrom s.root .null program (s.machine fuel) =
    (.error (.error (r.under τ)), s.reached fuel program)

/-- An error that leaves a program has arisen inside of certain evaluations, which the markings
determine.  It has the kind with which it arose, it names the innermost statement among these
evaluations with the label of the scope that the statement was run in, and it names none exactly
if the top level itself has raised it. -/
theorem raises_named (s : Session) (fuel : Nat) (program : List Statement) {e : RuntimeError}
    (failed : (s.run fuel program).1 = .error (.error e)) :
    ∃ r, s.Raises fuel program r ∧ (∀ r', s.Raises fuel program r' → r' = r) ∧
      e.kind = r.origin.kind ∧ e.context = r.path.findSome? Evaluation.context? ∧
      (e.context = none ↔
        RaisesAtTop (knot s.config s.host fuel) s.root .null program (s.machine fuel) e) := by
  have uniform := markedKnots_uniform (τ := id) s.config s.host fun _ => Nat.le_refl fuel
  obtain ⟨ending, m', -, runs⟩ :=
    Knots.programFrom uniform s.root program .null (s.machine fuel) (Nat.le_refl fuel)
  simp only [markedKnots_under, id] at runs
  have own := runs .own
  rw [markedKnot_own] at own
  have came : (knot s.config s.host fuel).programFrom s.root .null program (s.machine fuel) =
      (.error (.error e), s.reached fuel program) := Prod.ext failed rfl
  rw [came] at own
  cases ending with
  | result x => cases own
  | stopped => cases own
  | raised r =>
    obtain ⟨same, rfl⟩ := Prod.mk.inj own
    obtain rfl : e = r.under .own := Halt.error.inj (Except.error.inj same)
    refine ⟨r, runs, fun r' h => Raised.ext_under fun τ => ?_, r.kind_under_own,
      r.context_under_own, fun none => ?_, RaisesAtTop.unnamed⟩
    · have both := (h τ).symm.trans (runs τ)
      exact Halt.error.inj (Except.error.inj (Prod.mk.inj both).1)
    · exact (programFrom_named came).resolve_left fun named => named none

/-- A class in a loop, whose body calls a function that reads a name from nowhere in a block. -/
def failsInCall : List Statement :=
  let at_ (n : Node) : Statement := ⟨n, Span.none⟩
  let body := [at_ (.block [at_ (.return (some (.ofTerm (.variable "missing"))))])]
  let call : Expr := .ofTerm (.call "f" [])
  [at_ (.function ⟨"f", .function, [], none, body⟩),
    at_ (.loop (.ofTerm (.literal (.bool true)))
      [at_ (.classDef ⟨"C", none, [at_ (.declare ⟨"x", none, some call, {}⟩)]⟩)])]

/-- What the error of a run names. -/
def contextOf : Except Halt Value → Option ErrorContext
  | .error (.error e) => e.context
  | _ => none

/-- The error names the `return` in the function, and neither the class nor the loop; the top level
has not raised it. -/
theorem raises_named_failsInCall :
    ∃ e, ((start {} Kit.host).run 40 failsInCall).1 = .error (.error e) ∧
      (∃ r, (start {} Kit.host).Raises 40 failsInCall r ∧
        r.path.findSome? Evaluation.context? = some ⟨.return, "f"⟩) ∧
      ¬ RaisesAtTop (knot {} Kit.host 40) (start {} Kit.host).root .null failsInCall
        ((start {} Kit.host).machine 40) e := by
  have context : contextOf ((start {} Kit.host).run 40 failsInCall).1 = some ⟨.return, "f"⟩ := by
    decide +kernel
  match failed : ((start {} Kit.host).run 40 failsInCall).1, context with
  | .error (.error e), context =>
    have context : e.context = some ⟨.return, "f"⟩ := context
    obtain ⟨r, raises, -, -, names, top⟩ := raises_named (start {} Kit.host) 40 failsInCall failed
    refine ⟨e, rfl, ⟨r, raises, names ▸ context⟩, fun raised => ?_⟩
    have none : e.context = none := top.mpr raised
    rw [none] at context
    cases context

end Session

end ScopeLang
