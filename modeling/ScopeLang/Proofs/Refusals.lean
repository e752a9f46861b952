/-
# Intrinsics are all or nothing

An operation on a value checks everything before it changes anything: first how
many arguments there are, then the positions and the kinds among them, then
whether there is what it asks for.  Only what cannot fail comes after that.  So an
operation that is refused leaves the world exactly as it was, with no cell added
and none changed, whatever it was given, and `Action.Atomic` says this of an
action.  It is composed in two ways: what only looks may come before anything
(`Atomic.after`), and what is certain to succeed may change anything
(`Atomic.certain`).

The operations that ask for something, `queries`, change nothing that was there
even where they succeed.  They may add cells, for the copies, slices and lists of
keys that they answer with.
-/
import ScopeLang.Eval.Expression
import ScopeLang.Host.Native
import ScopeLang.Proofs.Amendments

namespace ScopeLang

open World

variable {γ δ : Type} {query : Prop}

/-! ## What actions do to the world -/

namespace Action

theorem runIn_bind (a : Action γ) (k : γ → Action δ) (w : World) :
    (a >>= k).runIn w = ExceptT.bindCont k (a.runIn w).1 (a.runIn w).2 := rfl

/-- The world stays as it is, whether the action fails or not. -/
def Looks (a : Action γ) : Prop := ∀ w, (a.runIn w).2 = w

/-- The action cannot fail. -/
def Certain (a : Action γ) : Prop := ∀ w, ∃ x, (a.runIn w).1 = .ok x

/-- The action leaves what was there as it is. -/
def Adds (a : Action γ) : Prop := ∀ w : World, w.Amends Nowhere Nowhere (a.runIn w).2

/-- An action that fails has done nothing, and one that makes a query has at most added cells. -/
structure Atomic (query : Prop) (a : Action γ) : Prop where
  refused : ∀ {w kind}, (a.runIn w).1 = .error kind → (a.runIn w).2 = w
  adds : query → a.Adds

theorem Looks.pure (x : γ) : Looks (Pure.pure x) := fun _ => rfl

theorem Looks.throw (kind : ErrorKind) : Looks (throw kind : Action γ) := fun _ => rfl

theorem Looks.look (f : World → γ) : Looks (Action.look f) := fun _ => rfl

theorem Looks.bind {a : Action γ} {k : γ → Action δ} (first : a.Looks) (then_ : ∀ x, (k x).Looks) :
    Looks (a >>= k) := by
  intro w
  rw [runIn_bind, first w]
  cases (a.runIn w).1 with
  | ok x => exact then_ x w
  | error kind => rfl

theorem Certain.change (f : World → γ × World) : Certain (Action.change f) :=
  fun w => ⟨(f w).1, rfl⟩

theorem Certain.bind {a : Action γ} {k : γ → Action δ} (first : a.Certain)
    (then_ : ∀ x, (k x).Certain) : Certain (a >>= k) := by
  intro w
  obtain ⟨x, hx⟩ := first w
  rw [runIn_bind, hx]
  exact then_ x _

namespace Atomic

theorem looks {a : Action γ} (h : a.Looks) : Atomic query a where
  refused _ := h _
  adds _ w := (h w).symm ▸ .refl w

theorem certain {a : Action γ} (sure : a.Certain) (adds : query → a.Adds) : Atomic query a where
  refused {w kind} failed := by
    obtain ⟨x, hx⟩ := sure w
    exact absurd (hx.symm.trans failed) nofun
  adds := adds

/-- What only looks may come first. -/
theorem after {a : Action γ} {k : γ → Action δ} (first : a.Looks) (rest : ∀ x, Atomic query (k x)) :
    Atomic query (a >>= k) := by
  constructor
  · intro w kind failed
    rw [runIn_bind, first w] at failed ⊢
    cases h : (a.runIn w).1 with
    | ok x =>
      rw [h] at failed
      exact (rest x).refused failed
    | error kind => rfl
  · intro q w
    rw [runIn_bind, first w]
    cases (a.runIn w).1 with
    | ok x => exact (rest x).adds q w
    | error kind => exact .refl w

/-- A change that no query makes. -/
theorem change (f : World → γ × World) (command : ¬ query) : Atomic query (Action.change f) :=
  certain (.change f) fun q => absurd q command

/-- The same, of a duplicate of a value. -/
theorem store (v : Value) (f : Value → World → γ × World) (command : ¬ query) :
    Atomic query (Action.duplicate v >>= fun v => Action.change (f v)) :=
  certain (Certain.bind (.change _) fun _ => .change _) fun q => absurd q command

theorem newList (items : List Value) : Atomic query (Action.newList items) :=
  certain (fun _ => ⟨_, rfl⟩) fun _ w => (spares_newItems w items).amends rfl rfl

theorem newArray (items : List Value) : Atomic query (Action.newArray items) :=
  certain (fun _ => ⟨_, rfl⟩) fun _ w => (spares_newItems w items).amends rfl rfl

end Atomic

end Action

/-! ## Operations -/

/-- Whether an operation asks for something and does nothing else. -/
def queries : List String :=
  ["contains", "length", "size", "is_empty", "get", "slice", "substring", "keys", "values",
    "clone", "to_string"]

/-- An operation that is atomic, whatever its arguments. -/
def Intrinsic.Atomic (query : Prop) (run : Intrinsic) : Prop :=
  ∀ arguments, Action.Atomic query (run arguments)

namespace Intrinsic.Atomic

variable {operation : String}

theorem nullary {run : Action Value} (h : Action.Atomic query run) :
    Atomic query (Intrinsic.nullary operation run)
  | [] => h
  | _ :: _ => .looks (.throw _)

theorem unary {run : Value → Action Value} (h : ∀ v, Action.Atomic query (run v)) :
    Atomic query (Intrinsic.unary operation run)
  | [v] => h v
  | [] | _ :: _ :: _ => .looks (.throw _)

theorem binary {run : Value → Value → Action Value} (h : ∀ v v', Action.Atomic query (run v v')) :
    Atomic query (Intrinsic.binary operation run)
  | [v, v'] => h v v'
  | [] | [_] | _ :: _ :: _ :: _ => .looks (.throw _)

theorem ranged {run : Value → Option Value → Action Value}
    (h : ∀ v o, Action.Atomic query (run v o)) :
    Atomic query (Intrinsic.ranged operation run)
  | [v] => h v none
  | [v, v'] => h v (some v')
  | [] | _ :: _ :: _ :: _ => .looks (.throw _)

end Intrinsic.Atomic

section Checks

variable (operation : String) (v : Value)

theorem indexBelow_looks (length limit : Nat) :
    (indexBelow operation v length limit).Looks := by
  simp only [indexBelow]
  split
  · exact .bind (.look _) fun _ => .throw _
  · split
    · exact .pure _
    · exact .throw _

theorem sliceBounds_looks (stop : Option Value) (length : Nat) :
    (sliceBounds operation v stop length).Looks := by
  refine .bind (indexBelow_looks _ _ _ _) fun start => ?_
  have ordered : ∀ (stop : Nat) (text : String),
      Action.Looks (if stop < start then throw (invalidArgument operation text)
        else pure (start, stop)) := by
    intro stop text
    split
    · exact .throw _
    · exact .pure _
  cases stop with
  | none => exact ordered length _
  | some v => exact .bind (indexBelow_looks _ _ _ _) fun stop => ordered stop _

end Checks

section Operations

variable {operation : String} {run : Intrinsic}

theorem atomic_measure {length : World → Nat} (found : measure? operation length = some run) :
    Intrinsic.Atomic query run := by
  simp only [measure?] at found
  split at found
  · exact Option.some.inj found ▸ .nullary (.looks (.look _))
  · exact Option.some.inj found ▸ .nullary (.looks (.look _))
  · exact Option.some.inj found ▸ .nullary (.looks (.look _))
  · cases found

theorem atomic_commonIntrinsic {target : Value}
    (found : commonIntrinsic? target operation = some run) : Intrinsic.Atomic query run := by
  simp only [commonIntrinsic?] at found
  split at found
  · refine Option.some.inj found ▸ .nullary (.certain (.change _) fun _ w => ?_)
    exact amends_copyWithin (w.size + 1) target w
  · exact Option.some.inj found ▸ .nullary (.looks (.look _))
  · cases found

theorem atomic_stringIntrinsic {text : String}
    (found : stringIntrinsic? text operation = some run) : Intrinsic.Atomic query run := by
  simp only [stringIntrinsic?] at found
  split at found
  · refine Option.some.inj found ▸ .ranged fun first second => ?_
    exact .after (sliceBounds_looks _ _ _ _) fun _ => .looks (.pure _)
  · refine Option.some.inj found ▸ .ranged fun first second => ?_
    exact .after (sliceBounds_looks _ _ _ _) fun _ => .looks (.pure _)
  · refine Option.some.inj found ▸ .unary fun v => ?_
    split
    · exact .looks (.pure _)
    · exact .looks (.throw _)
  · refine Option.some.inj found ▸ .unary fun v => ?_
    exact .after (indexBelow_looks _ _ _ _) fun _ => .looks (.pure _)
  · exact atomic_measure found

theorem atomic_sequenceIntrinsic {h : Handle .list} {rebuild : List Value → Action Value}
    (rebuilds : ∀ items, Action.Atomic (operation ∈ queries) (rebuild items))
    (found : sequenceIntrinsic? h rebuild operation = some run) :
    Intrinsic.Atomic (operation ∈ queries) run := by
  simp only [sequenceIntrinsic?] at found
  split at found
  · exact Option.some.inj found ▸ .nullary (.change _ (by decide))
  · refine Option.some.inj found ▸ .ranged fun first second => .after (.look _) fun items => ?_
    exact .after (sliceBounds_looks _ _ _ _) fun bounds => rebuilds _
  · exact Option.some.inj found ▸ .unary fun v => .looks (.look _)
  · refine Option.some.inj found ▸ .unary fun v => .after (.look _) fun items => ?_
    exact .after (indexBelow_looks _ _ _ _) fun i => .looks (.pure _)
  · refine Option.some.inj found ▸ .binary fun first v => .after (.look _) fun items => ?_
    exact .after (indexBelow_looks _ _ _ _) fun i => .store v _ (by decide)
  · exact atomic_measure found

theorem atomic_listIntrinsic {h : Handle .list} (found : listIntrinsic? h operation = some run) :
    Intrinsic.Atomic (operation ∈ queries) run := by
  simp only [listIntrinsic?] at found
  split at found
  · exact Option.some.inj found ▸ .unary fun v => .store v _ (by decide)
  · refine Option.some.inj found ▸ .nullary (.after (.look _) fun items => ?_)
    split
    · exact .change _ (by decide)
    · exact .looks (.throw _)
  · refine Option.some.inj found ▸ .binary fun first v => .after (.look _) fun items => ?_
    exact .after (indexBelow_looks _ _ _ _) fun i => .store v _ (by decide)
  · refine Option.some.inj found ▸ .unary fun v => .after (.look _) fun items => ?_
    exact .after (indexBelow_looks _ _ _ _) fun i => .change _ (by decide)
  · exact atomic_sequenceIntrinsic .newList found

theorem atomic_setIntrinsic {h : Handle .set} (found : setIntrinsic? h operation = some run) :
    Intrinsic.Atomic (operation ∈ queries) run := by
  simp only [setIntrinsic?] at found
  split at found
  · exact Option.some.inj found ▸ .nullary (.change _ (by decide))
  · exact Option.some.inj found ▸ .unary fun v => .looks (.look _)
  · exact Option.some.inj found ▸ .unary fun v => .store v _ (by decide)
  · exact Option.some.inj found ▸ .unary fun v => .change _ (by decide)
  · exact atomic_measure found

theorem certain_putEntry (h : Handle .dict) (key value : Value) :
    (putEntry h key value).Certain :=
  .bind (.change _) fun _ => .bind (.change _) fun _ => .change _

theorem atomic_dictIntrinsic {h : Handle .dict} (found : dictIntrinsic? h operation = some run) :
    Intrinsic.Atomic (operation ∈ queries) run := by
  simp only [dictIntrinsic?] at found
  have put : ∀ {command : String}, command ∉ queries →
      Intrinsic.Atomic (command ∈ queries) (.binary command (putEntry h)) := fun command =>
    .binary fun key value => .certain (certain_putEntry h key value) fun q => absurd q command
  split at found
  · exact Option.some.inj found ▸ .nullary (.change _ (by decide))
  · exact Option.some.inj found ▸ .unary fun v => .looks (.look _)
  · refine Option.some.inj found ▸ .unary fun key => .after (.look _) fun value => ?_
    split
    · exact .looks (.pure _)
    · exact .looks (.bind (.look _) fun _ => .throw _)
  · exact Option.some.inj found ▸ put (by decide)
  · exact Option.some.inj found ▸ put (by decide)
  · exact Option.some.inj found ▸ .unary fun key => .change _ (by decide)
  · exact Option.some.inj found ▸ .nullary (.after (.look _) fun keys => .newList keys)
  · exact Option.some.inj found ▸ .nullary (.after (.look _) fun values => .newList values)
  · exact atomic_measure found

/-- Every operation of every kind of value is atomic. -/
theorem atomic_intrinsic {target : Value} (found : intrinsic? target operation = some run) :
    Intrinsic.Atomic (operation ∈ queries) run := by
  rw [intrinsic?] at found
  cases common : commonIntrinsic? target operation with
  | some f =>
    rw [common] at found
    exact Option.some.inj found ▸ atomic_commonIntrinsic common
  | none =>
    rw [common] at found
    obtain ⟨d, a⟩ := target
    cases d with
    | string text => exact atomic_stringIntrinsic found
    | list h => exact atomic_listIntrinsic found
    | array h => exact atomic_sequenceIntrinsic .newArray found
    | set h => exact atomic_setIntrinsic found
    | dict h => exact atomic_dictIntrinsic found
    | _ => cases found

end Operations

/-! ## Attempts -/

/-- Applies an operation to a value; there is no result if it is not defined for it. -/
def Action.attempt (target : Value) (operation : String) (arguments : List Value) :
    Action (Option Value) :=
  match intrinsic? target operation with
  | some run => return some (← run arguments)
  | none => return none

/-- The host applies operations to the values of variables. -/
theorem Action.applyIntrinsic_eq_attempt (s : ScopeId) (name operation : String)
    (arguments : List Value) :
    Action.applyIntrinsic s name operation arguments = (do
      let target ← Action.consult fun w => w.getVariable s name
      Action.attempt target operation arguments) := by
  refine congrArg (_ >>= ·) (funext fun target => ?_)
  cases found : intrinsic? target operation with
  | none => simp only [Action.attempt, found]
  | some run => simp only [Action.attempt, found]

theorem Action.runIn_attempt {target : Value} {operation : String} {run : Intrinsic}
    (found : intrinsic? target operation = some run) (arguments : List Value) (w : World) :
    (Action.attempt target operation arguments).runIn w =
      (((run arguments).runIn w).1.map some, ((run arguments).runIn w).2) := by
  simp only [Action.attempt, found]
  rw [Action.runIn_bind]
  cases ((run arguments).runIn w).1 <;> rfl

/-- An element of a chain that halts in an operation has changed nothing either. -/
theorem Knot.applyIntrinsic_halts {target : Value} {element : Element} {name : String}
    {arguments : List Value} {m m' : Machine} {halt : Halt}
    (halts : Knot.applyIntrinsic target element name arguments m = (.error halt, m')) :
    m'.world = m.world := by
  rw [Knot.applyIntrinsic] at halts
  cases found : intrinsic? target name with
  | none =>
    rw [found] at halts
    exact (congrArg (fun done => done.2.world) halts).symm
  | some run =>
    rw [found] at halts
    obtain ⟨w, fuel, calls⟩ := m
    cases fuel with
    | zero => exact (congrArg (fun done => done.2.world) halts).symm
    | succ fuel =>
      have step : Run.ofAction (run arguments) ⟨w, fuel + 1, calls⟩ = (.error halt, m') := halts
      simp only [Run.ofAction] at step
      split at step
      · cases step
      · rename_i kind after ended
        have unchanged := (atomic_intrinsic found arguments).refused (congrArg Prod.fst ended)
        exact (congrArg (fun done => done.2.world) step).symm.trans
          ((congrArg Prod.snd ended).symm.trans unchanged)

namespace World

/-- An operation that is not defined for a value or is refused leaves the world as it is,
whatever it was given, and a query leaves all that was there as it is, whatever it answers. -/
theorem attempt_all_or_nothing (w : World) (target : Value) (operation : String)
    (arguments : List Value) :
    let done := (Action.attempt target operation arguments).runIn w
    ((done.1 = .ok none ∨ ∃ kind, done.1 = .error kind) → done.2 = w) ∧
      (operation ∈ queries → w.Amends Nowhere Nowhere done.2) := by
  intro done
  cases found : intrinsic? target operation with
  | none =>
    have idle : done = (.ok none, w) := by
      simp only [done, Action.attempt, found]
      rfl
    exact ⟨fun _ => congrArg Prod.snd idle, fun _ => congrArg Prod.snd idle ▸ .refl w⟩
  | some run =>
    have atomic := atomic_intrinsic found arguments
    have answered : done = _ := Action.runIn_attempt found arguments w
    rw [answered]
    refine ⟨?_, fun asks => atomic.adds asks w⟩
    cases h : ((run arguments).runIn w).1 with
    | ok v => rintro (no | ⟨kind, no⟩) <;> cases no
    | error kind => exact fun _ => atomic.refused h

/-- A list in a world with nothing else. -/
def withList (items : List Value) : World := (empty.newItems items).2

/-- Nothing is put past the end of a list, a number has no last item to give away, and a slice
leaves the list that it is taken from. -/
theorem short_list_all_or_nothing :
    let w := withList [.int 1, .int 2]
    let target : Value := .ofDatum (.list ⟨0⟩)
    let put := (Action.attempt target "insert" [.long 3, .int 0]).runIn w
    let last := (Action.attempt (.int 1) "pop" []).runIn w
    let rest := (Action.attempt target "slice" [.int 1]).runIn w
    ((∃ kind, put.1 = .error kind) ∧ put.2 = w) ∧ (last.1 = .ok none ∧ last.2 = w) ∧
      (∃ v, rest.1 = .ok (some v)) ∧ w.Amends Nowhere Nowhere rest.2 := by
  intro w target put last rest
  have refused : ∃ kind, put.1 = .error kind := ⟨_, rfl⟩
  have undefined : last.1 = .ok none := rfl
  exact ⟨⟨refused, (attempt_all_or_nothing w target "insert" _).1 (.inr refused)⟩,
    ⟨undefined, (attempt_all_or_nothing w (.int 1) "pop" []).1 (.inl undefined)⟩,
    ⟨_, rfl⟩, (attempt_all_or_nothing w target "slice" _).2 (by decide)⟩

end World

end ScopeLang
