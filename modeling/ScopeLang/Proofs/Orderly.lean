/-
# Runs without misplaced control

An action is `Orderly` if in a world where control is well placed it raises no
error about control and leaves such a world behind; a run is if its result also
satisfies `Q`.  Neither speaks of what else the world must be like, so that the
rules below need no more of a part than that it is orderly.  The actions of the
evaluator, its operators and its intrinsics all are: none of them adds code, and
their errors are about variables, types, arguments and scopes.
-/
import ScopeLang.Proofs.Leads
import ScopeLang.Proofs.Placement

namespace ScopeLang

variable {α β : Type}

/-- Whether an error says that control has left its construct. -/
def ErrorKind.isMisplaced : ErrorKind → Bool
  | .misplacedControl _ _ => true
  | _ => false

/-! ## Actions -/

/-- An action that keeps control well placed and raises no error about it. -/
def Action.Orderly (a : Action α) : Prop :=
  ∀ w : World, w.Placed →
    (a.runIn w).2.Placed ∧ ∀ kind, (a.runIn w).1 = .error kind → kind.isMisplaced = false

namespace Action.Orderly

theorem pure (x : α) : Action.Orderly (Pure.pure x) := fun _ placed => ⟨placed, nofun⟩

theorem throw {kind : ErrorKind} (other : kind.isMisplaced = false) :
    Action.Orderly (throw kind : Action α) := by
  intro w placed
  refine ⟨placed, fun kind' e => ?_⟩
  cases e
  exact other

theorem look (f : World → α) : Action.Orderly (Action.look f) := fun _ placed => ⟨placed, nofun⟩

theorem consult {f : World → Except ErrorKind α}
    (other : ∀ w kind, f w = .error kind → kind.isMisplaced = false) :
    Action.Orderly (Action.consult f) := by
  intro w placed
  rw [Action.runIn_consult]
  cases e : f w with
  | ok x => exact ⟨placed, nofun⟩
  | error kind =>
    refine ⟨placed, fun kind' e' => ?_⟩
    cases e'
    exact other w kind e

theorem change {f : World → α × World} (keeps : ∀ w : World, w.Placed → (f w).2.Placed) :
    Action.Orderly (Action.change f) :=
  fun w placed => ⟨keeps w placed, nofun⟩

theorem changeSame {f : World → α × World} (same : ∀ w : World, w.SameCode (f w).2) :
    Action.Orderly (Action.change f) :=
  change fun w placed => (same w).placed placed

theorem update {f : World → World} (keeps : ∀ w : World, w.Placed → (f w).Placed) :
    Action.Orderly (Action.change fun w => ((), f w)) :=
  change keeps

theorem modify {f : World → World} (same : ∀ w : World, w.SameCode (f w)) :
    Action.Orderly (modify f : Action Unit) :=
  changeSame (f := fun w => ((), f w)) same

theorem bind_of {P : α → Prop} {a : Action α} {k : α → Action β} (first : a.Orderly)
    (result : ∀ w x, (a.runIn w).1 = .ok x → P x) (next : ∀ x, P x → (k x).Orderly) :
    (a >>= k).Orderly := by
  intro w placed
  have orderly := first w placed
  have known := result w
  have run : (a >>= k).runIn w = ExceptT.bindCont k (a.runIn w).1 (a.runIn w).2 := rfl
  rw [run]
  generalize a.runIn w = made at orderly known ⊢
  obtain ⟨result, w'⟩ := made
  cases result with
  | ok x => exact next x (known x rfl) w' orderly.1
  | error kind => exact ⟨orderly.1, fun _ e => by cases e; exact orderly.2 kind rfl⟩

theorem bind {a : Action α} {k : α → Action β} (first : a.Orderly) (next : ∀ x, (k x).Orderly) :
    (a >>= k).Orderly :=
  bind_of first (fun _ _ _ => trivial) fun x _ => next x

end Action.Orderly

/-! ## Runs -/

/-- A run that keeps control well placed, raises no error about it, and yields what `Q` allows. -/
def Run.Orderly (r : Run α) (Q : α → Prop) : Prop :=
  ∀ m : Machine, m.world.Placed → (r m).2.world.Placed ∧
    match (r m).1 with
    | .ok x => Q x
    | .error (.error e) => e.kind.isMisplaced = false
    | .error .outOfFuel => True

/-- Any result. -/
abbrev Any : α → Prop := fun _ => True

namespace Run.Orderly

variable {Q : α → Prop} {R : β → Prop}

theorem pure {x : α} (h : Q x) : Orderly (Pure.pure x) Q := fun _ placed => ⟨placed, h⟩

theorem fail {kind : ErrorKind} (other : kind.isMisplaced = false) : Orderly (Run.fail kind) Q :=
  fun _ placed => ⟨placed, other⟩

theorem throw {e : RuntimeError} (other : e.kind.isMisplaced = false) :
    Orderly (throw (.error e) : Run α) Q :=
  fun _ placed => ⟨placed, other⟩

theorem stop : Orderly (MonadExcept.throw Halt.outOfFuel : Run α) Q :=
  fun _ placed => ⟨placed, trivial⟩

theorem look {f : World → α} (h : ∀ w : World, w.Placed → Q (f w)) : Orderly (Run.look f) Q :=
  fun m placed => ⟨placed, h m.world placed⟩

theorem act {a : Action α} (h : a.Orderly) : Orderly (Run.ofAction a) Any := by
  rintro ⟨world, fuel, calls⟩ placed
  cases fuel with
  | zero => exact ⟨placed, trivial⟩
  | succ fuel =>
    have orderly := h world placed
    simp only [Run.ofAction]
    generalize a.runIn world = made at orderly ⊢
    obtain ⟨result, w'⟩ := made
    cases result with
    | ok x => exact ⟨orderly.1, trivial⟩
    | error kind => exact ⟨orderly.1, orderly.2 kind rfl⟩

theorem bind {r : Run α} {k : α → Run β} (first : r.Orderly Q)
    (next : ∀ x, Q x → (k x).Orderly R) : Orderly (r >>= k) R := by
  intro m placed
  have orderly := first m placed
  rw [Run.bind_apply]
  generalize r m = made at orderly ⊢
  obtain ⟨result, m'⟩ := made
  match result with
  | .ok x => exact next x orderly.2 m' orderly.1
  | .error (.error e) => exact orderly
  | .error .outOfFuel => exact orderly

/-- What is looked up does not matter. -/
theorem look_then {f : World → α} {k : α → Run β} (next : ∀ x, (k x).Orderly R) :
    Orderly (Run.look f >>= k) R :=
  bind (Q := Any) (look fun _ _ => trivial) fun x _ => next x

/-- Nor does the result of an action. -/
theorem act_then {a : Action α} {k : α → Run β} (h : a.Orderly) (next : ∀ x, (k x).Orderly R) :
    Orderly (Run.ofAction a >>= k) R :=
  bind (act h) fun x _ => next x

theorem mapError {r : Run α} (h : r.Orderly Q) {g : RuntimeError → RuntimeError}
    (kind : ∀ e, (g e).kind = e.kind) : Orderly (Run.mapError g r) Q := by
  intro m placed
  have orderly := h m placed
  rw [Run.mapError_apply]
  generalize r m = made at orderly ⊢
  obtain ⟨result, m'⟩ := made
  match result with
  | .ok x => exact orderly
  | .error (.error e) => exact ⟨orderly.1, (congrArg _ (kind e)).trans orderly.2⟩
  | .error .outOfFuel => exact orderly

theorem andFinally {r : Run α} {change : Machine → Machine} (h : r.Orderly Q)
    (keeps : ∀ m : Machine, m.world.Placed → (change m).world.Placed) :
    Orderly (Run.andFinally r change) Q := by
  intro m placed
  have orderly := h m placed
  simp only [Run.andFinally]
  generalize r m = made at orderly ⊢
  obtain ⟨result, m'⟩ := made
  rcases result with (e | _) | x
  · exact ⟨keeps m' orderly.1, orderly.2⟩
  · exact orderly
  · exact ⟨keeps m' orderly.1, orderly.2⟩

theorem holding {cells : List Cell} {r : Run α} (h : r.Orderly Q) :
    Orderly (Run.holding cells r) Q := by
  intro m placed
  have keeps : ∀ (m : Machine) (held : List Cell), m.world.Placed →
      ({ m.world with held } : World).Placed := fun _ _ placed => ⟨placed.function, placed.method⟩
  exact andFinally h (fun m' => keeps m' m.world.held) _ (keeps m _ placed)

theorem during {i : Invocation} {r : Run α} (h : r.Orderly Q) : Orderly (Run.during i r) Q := by
  intro m placed
  have keeps : ∀ m' : Machine, m'.world.Placed →
      ({ m' with calls := m.calls } : Machine).world.Placed := fun _ placed => placed
  exact andFinally h keeps { m with calls := i :: m.calls } placed

theorem followedBy {r : Run α} {change : World → World} (h : r.Orderly Q)
    (same : ∀ w : World, w.SameCode (change w)) : Orderly (Run.followedBy r change) Q :=
  andFinally h fun m placed => (same m.world).placed placed

end Run.Orderly

/-! ## The actions of the evaluator -/

namespace Action

theorem orderly_newList (items : List Value) : (newList items).Orderly :=
  .bind (.changeSame fun _ => ⟨rfl, rfl⟩) fun _ => .pure _

theorem orderly_newArray (items : List Value) : (newArray items).Orderly :=
  .bind (.changeSame fun _ => ⟨rfl, rfl⟩) fun _ => .pure _

theorem orderly_newSet (items : List Value) : (newSet items).Orderly :=
  .bind (.look _) fun _ => .bind (.changeSame fun _ => ⟨rfl, rfl⟩) fun _ => .pure _

theorem orderly_newDict (entries : List (Value × Value)) : (newDict entries).Orderly :=
  .bind (.look _) fun _ => .bind (.changeSame fun _ => ⟨rfl, rfl⟩) fun _ => .pure _

theorem orderly_build (items : List Value) : ∀ kind : SequenceKind, (kind.build items).Orderly
  | .list => orderly_newList items
  | .array => orderly_newArray items
  | .set => orderly_newSet items

theorem orderly_duplicate (v : Value) : (duplicate v).Orderly :=
  .changeSame fun w => w.sameCode_duplicate v

theorem orderly_checkType (s : ScopeId) (name : String) (expected : SigId) (v : Value) :
    (consult fun w => w.checkType s name expected v).Orderly := by
  refine .consult fun w kind e => ?_
  simp only [World.checkType] at e
  split at e
  · cases e
  · cases e
    rfl

theorem orderly_declareVariable (s : ScopeId) (name : String) (b : Binding) :
    (declareVariable s name b).Orderly := by
  refine .bind (.look _) fun found => ?_
  have store : (do
      let value ← change (b.prepare b.value)
      modify fun w : World => w.setVariable s name { b with value }).Orderly :=
    .bind (.changeSame fun w => World.sameCode_prepare b _ w) fun _ => .modify fun _ => ⟨rfl, rfl⟩
  cases found with
  | true => exact .throw rfl
  | false => exact store

theorem orderly_updateLocalVariable (s : ScopeId) (name : String) (v : Value) :
    (updateLocalVariable s name v).Orderly := by
  refine .bind (.look _) fun found => ?_
  cases found with
  | none => exact .throw rfl
  | some b =>
    have store : (do
        consult fun w => w.checkType s name b.declared v
        let value ← change (b.prepare v)
        modify fun w : World => w.setVariable s name { b with value }).Orderly := by
      refine .bind (orderly_checkType s name b.declared v) fun _ => ?_
      exact .bind (.changeSame fun w => World.sameCode_prepare b _ w) fun _ =>
        .modify fun _ => ⟨rfl, rfl⟩
    cases const : b.flags.isConst with
    | true =>
      simp only [const]
      exact .throw rfl
    | false =>
      simp only [const]
      exact store

theorem orderly_updateVariable (s : ScopeId) (name : String) (v : Value) :
    (updateVariable s name v).Orderly := by
  refine .bind (.look _) fun found => ?_
  cases found with
  | none => exact .throw rfl
  | some t => exact orderly_updateLocalVariable t name v

/-- The errors of a choice are about overloads and arguments. -/
theorem isMisplaced_choose {name : String} {verdicts : List Verdict} {kind : ErrorKind}
    (e : choose name verdicts = .error kind) : kind.isMisplaced = false := by
  simp only [choose] at e
  split at e
  · cases e
  · split at e
    · cases e
      rfl
    · cases e
      rfl
  · cases e
    rfl

theorem isMisplaced_resolveOverload {w : World} {options : MatchOptions} {name : String}
    {candidates : List Overload} {arguments : CallArguments} {p : TypePool} {kind : ErrorKind}
    (e : (w.resolveOverload options name candidates arguments p).1 = .error kind) :
    kind.isMisplaced = false := by
  simp only [World.resolveOverload] at e
  split at e
  · cases e
    rfl
  · exact isMisplaced_choose e

theorem orderly_resolveAmong (s : ScopeId) (name : String) (candidates : List Overload)
    (arguments : CallArguments) : (resolveAmong s name candidates arguments).Orderly := by
  refine .bind_of (P := fun result => ∀ kind, result = .error kind → kind.isMisplaced = false)
    (.changeSame fun w => w.sameCode_withPool s _) ?_ ?_
  · intro w result e kind failed
    cases e
    exact isMisplaced_resolveOverload failed
  · intro result other
    cases result with
    | ok r => exact .pure r
    | error kind => exact .throw (other kind rfl)

theorem orderly_resolveFunction (s : ScopeId) (name : String) (arguments : CallArguments) :
    (resolveFunction s name arguments).Orderly := by
  refine .bind (.look _) fun found => ?_
  cases found with
  | none => exact .throw rfl
  | some candidates => exact orderly_resolveAmong s name candidates arguments

theorem orderly_appendChild (s child : ScopeId) : (appendChild s child).Orderly := by
  refine .bind (.look _) fun ring => ?_
  cases ring with
  | true => exact .bind (.look _) fun _ => .bind (.throw rfl) fun _ => .modify fun _ => ⟨rfl, rfl⟩
  | false => exact .modify fun _ => ⟨rfl, rfl⟩

theorem orderly_enter (caller parent : ScopeId) (kind : ScopeKind) (label : String) :
    (enter caller parent kind label).Orderly := by
  refine .bind (.changeSame fun _ => ⟨rfl, rfl⟩) fun s => ?_
  refine .bind (.modify fun _ => ⟨rfl, rfl⟩) fun _ => ?_
  exact .bind (orderly_appendChild caller s) fun _ => .pure s

theorem orderly_enterMethod (caller : ScopeId) (receiver : InstanceId) (name : String) :
    (enterMethod caller receiver name).Orderly :=
  .bind (.look _) fun home => orderly_enter caller home .methodCall name

theorem orderly_registerClass (s : ScopeId) (c : ClassId) : (registerClass s c).Orderly := by
  refine .bind (.look _) fun name => .bind (.look _) fun taken => ?_
  cases taken with
  | true => exact .bind (.throw rfl) fun _ => .modify fun w => w.sameCode_setClassTable s _
  | false => exact .modify fun w => w.sameCode_setClassTable s _

/-! ## Operators -/

theorem isMisplaced_supported {w : World} {symbol : String} {operands : List Value}
    {o : Option α} {kind : ErrorKind} (e : w.supported symbol operands o = .error kind) :
    kind.isMisplaced = false := by
  cases o with
  | some x => cases e
  | none =>
    cases e
    rfl

theorem isMisplaced_arithmetic {w : World} {op : Arithmetic} {symbol : String} {a b : Value}
    {kind : ErrorKind} (e : w.arithmetic op symbol a b = .error kind) :
    kind.isMisplaced = false := by
  simp only [World.arithmetic] at e
  split at e
  · cases e
  · cases e
    rfl

theorem isMisplaced_division {w : World} {op : Arithmetic} {symbol : String} {a b : Value}
    {kind : ErrorKind} (e : w.division op symbol a b = .error kind) :
    kind.isMisplaced = false := by
  simp only [World.division] at e
  split at e
  · split at e
    · cases e
      rfl
    · cases e
  · cases e
    rfl

theorem isMisplaced_comparison {w : World} {symbol : String} {holds : Ordering → Bool}
    {a b : Value} {kind : ErrorKind} (e : w.comparison symbol holds a b = .error kind) :
    kind.isMisplaced = false := by
  simp only [World.comparison] at e
  cases ordered : w.supported symbol [a, b] (order? a b) with
  | ok o =>
    rw [ordered] at e
    cases e
  | error kind' =>
    rw [ordered] at e
    cases e
    exact isMisplaced_supported ordered

theorem isMisplaced_product {w : World} {a b : Value} {kind : ErrorKind}
    (e : w.product a b = .error kind) : kind.isMisplaced = false := by
  simp only [World.product] at e
  split at e
  · simp only [repeatText] at e
    split at e
    · cases e
    · cases e
      rfl
  · exact isMisplaced_arithmetic e

theorem isMisplaced_scalarBinary {w : World} {op : BinaryOperator} {a b : Value}
    {kind : ErrorKind} (e : w.scalarBinary op a b = .error kind) : kind.isMisplaced = false := by
  cases op with
  | add =>
    simp only [World.scalarBinary] at e
    split at e
    · cases e
    · exact isMisplaced_arithmetic e
  | subtract => exact isMisplaced_arithmetic e
  | multiply => exact isMisplaced_product e
  | divide | remainder => exact isMisplaced_division e
  | bitAnd | bitOr | bitXor | shiftLeft | shiftRight => exact isMisplaced_supported e
  | less | lessEqual | greater | greaterEqual => exact isMisplaced_comparison e
  | equal | notEqual => cases e

theorem orderly_unary (op : UnaryOperator) (v : Value) :
    (consult fun w => w.unary op v).Orderly := by
  refine .consult fun w kind e => ?_
  simp only [World.unary] at e
  split at e
  · cases e
  · cases e
  · cases e
  · cases e
  · cases e
    rfl

theorem orderly_binary (op : BinaryOperator) (a b : Value) : (Action.binary op a b).Orderly := by
  simp only [Action.binary]
  split
  · exact .bind (.look _) fun items => orderly_newList items
  · exact .consult fun w kind e => isMisplaced_scalarBinary e

end Action

/-! ## Intrinsics -/

/-- An operation that keeps control well placed, whatever its arguments. -/
def Intrinsic.Orderly (run : Intrinsic) : Prop := ∀ arguments, (run arguments).Orderly

namespace Intrinsic.Orderly

variable {operation : String}

theorem nullary {run : Action Value} (h : run.Orderly) : (Intrinsic.nullary operation run).Orderly
  | [] => h
  | _ :: _ => .throw rfl

theorem unary {run : Value → Action Value} (h : ∀ v, (run v).Orderly) :
    (Intrinsic.unary operation run).Orderly
  | [v] => h v
  | [] | _ :: _ :: _ => .throw rfl

theorem binary {run : Value → Value → Action Value} (h : ∀ v v', (run v v').Orderly) :
    (Intrinsic.binary operation run).Orderly
  | [v, v'] => h v v'
  | [] | [_] | _ :: _ :: _ :: _ => .throw rfl

theorem ranged {run : Value → Option Value → Action Value} (h : ∀ v o, (run v o).Orderly) :
    (Intrinsic.ranged operation run).Orderly
  | [v] => h v none
  | [v, v'] => h v (some v')
  | [] | _ :: _ :: _ :: _ => .throw rfl

end Intrinsic.Orderly

section Operations

variable {operation : String} {run : Intrinsic}

theorem orderly_measure {length : World → Nat} (found : measure? operation length = some run) :
    run.Orderly := by
  simp only [measure?] at found
  split at found
  · exact Option.some.inj found ▸ .nullary (.look _)
  · exact Option.some.inj found ▸ .nullary (.look _)
  · exact Option.some.inj found ▸ .nullary (.look _)
  · cases found

theorem orderly_indexBelow (operation : String) (v : Value) (length limit : Nat) :
    (indexBelow operation v length limit).Orderly := by
  simp only [indexBelow]
  split
  · exact .bind (.look _) fun _ => .throw rfl
  · split
    · exact .pure _
    · exact .throw rfl

theorem orderly_sliceBounds (operation : String) (first : Value) (second : Option Value)
    (length : Nat) : (sliceBounds operation first second length).Orderly := by
  refine .bind (orderly_indexBelow _ _ _ _) fun start => ?_
  have ordered : ∀ (stop : Nat) (text : String),
      Action.Orderly (if stop < start then throw (invalidArgument operation text)
        else pure (start, stop)) := by
    intro stop text
    split
    · exact .throw rfl
    · exact .pure _
  cases second with
  | none => exact ordered length _
  | some v => exact .bind (orderly_indexBelow _ _ _ _) fun stop => ordered stop _

theorem orderly_stringIntrinsic {text : String} (found : stringIntrinsic? text operation = some run) :
    run.Orderly := by
  simp only [stringIntrinsic?] at found
  split at found
  · refine Option.some.inj found ▸ .ranged fun first second => ?_
    exact .bind (orderly_sliceBounds _ _ _ _) fun _ => .pure _
  · refine Option.some.inj found ▸ .ranged fun first second => ?_
    exact .bind (orderly_sliceBounds _ _ _ _) fun _ => .pure _
  · refine Option.some.inj found ▸ .unary fun v => ?_
    split
    · exact .pure _
    · exact .throw rfl
  · refine Option.some.inj found ▸ .unary fun v => ?_
    exact .bind (orderly_indexBelow _ _ _ _) fun _ => .pure _
  · exact orderly_measure found

theorem orderly_sequenceIntrinsic {h : Handle .list} {rebuild : List Value → Action Value}
    (rebuilds : ∀ items, (rebuild items).Orderly)
    (found : sequenceIntrinsic? h rebuild operation = some run) : run.Orderly := by
  simp only [sequenceIntrinsic?] at found
  split at found
  · exact Option.some.inj found ▸ .nullary (.changeSame fun _ => ⟨rfl, rfl⟩)
  · refine Option.some.inj found ▸ .ranged fun first second => .bind (.look _) fun items => ?_
    exact .bind (orderly_sliceBounds _ _ _ _) fun bounds => rebuilds _
  · exact Option.some.inj found ▸ .unary fun v => .look _
  · refine Option.some.inj found ▸ .unary fun v => .bind (.look _) fun items => ?_
    exact .bind (orderly_indexBelow _ _ _ _) fun i => .pure _
  · refine Option.some.inj found ▸ .binary fun first v => .bind (.look _) fun items => ?_
    refine .bind (orderly_indexBelow _ _ _ _) fun i => ?_
    exact .bind (Action.orderly_duplicate v) fun v => .changeSame fun _ => ⟨rfl, rfl⟩
  · exact orderly_measure found

theorem orderly_listIntrinsic {h : Handle .list} (found : listIntrinsic? h operation = some run) :
    run.Orderly := by
  simp only [listIntrinsic?] at found
  split at found
  · refine Option.some.inj found ▸ .unary fun v => ?_
    exact .bind (Action.orderly_duplicate v) fun v => .changeSame fun _ => ⟨rfl, rfl⟩
  · refine Option.some.inj found ▸ .nullary (.bind (.look _) fun items => ?_)
    split
    · exact .changeSame fun _ => ⟨rfl, rfl⟩
    · exact .throw rfl
  · refine Option.some.inj found ▸ .binary fun first v => .bind (.look _) fun items => ?_
    refine .bind (orderly_indexBelow _ _ _ _) fun i => ?_
    exact .bind (Action.orderly_duplicate v) fun v => .changeSame fun _ => ⟨rfl, rfl⟩
  · refine Option.some.inj found ▸ .unary fun v => .bind (.look _) fun items => ?_
    exact .bind (orderly_indexBelow _ _ _ _) fun i => .changeSame fun _ => ⟨rfl, rfl⟩
  · exact orderly_sequenceIntrinsic Action.orderly_newList found

theorem orderly_setIntrinsic {h : Handle .set} (found : setIntrinsic? h operation = some run) :
    run.Orderly := by
  simp only [setIntrinsic?] at found
  split at found
  · exact Option.some.inj found ▸ .nullary (.changeSame fun _ => ⟨rfl, rfl⟩)
  · exact Option.some.inj found ▸ .unary fun v => .look _
  · refine Option.some.inj found ▸ .unary fun v => ?_
    exact .bind (Action.orderly_duplicate v) fun v => .changeSame fun _ => ⟨rfl, rfl⟩
  · exact Option.some.inj found ▸ .unary fun v => .changeSame fun _ => ⟨rfl, rfl⟩
  · exact orderly_measure found

theorem orderly_putEntry (h : Handle .dict) (key value : Value) :
    (putEntry h key value).Orderly := by
  refine .bind (Action.orderly_duplicate key) fun key => ?_
  exact .bind (Action.orderly_duplicate value) fun value => .changeSame fun _ => ⟨rfl, rfl⟩

theorem orderly_dictIntrinsic {h : Handle .dict} (found : dictIntrinsic? h operation = some run) :
    run.Orderly := by
  simp only [dictIntrinsic?] at found
  split at found
  · exact Option.some.inj found ▸ .nullary (.changeSame fun _ => ⟨rfl, rfl⟩)
  · exact Option.some.inj found ▸ .unary fun v => .look _
  · refine Option.some.inj found ▸ .unary fun key => .bind (.look _) fun value => ?_
    split
    · exact .pure _
    · exact .bind (.look _) fun _ => .throw rfl
  · exact Option.some.inj found ▸ .binary fun key v => orderly_putEntry h key v
  · exact Option.some.inj found ▸ .binary fun key v => orderly_putEntry h key v
  · exact Option.some.inj found ▸ .unary fun key => .changeSame fun _ => ⟨rfl, rfl⟩
  · refine Option.some.inj found ▸ .nullary (.bind (.look _) fun keys => ?_)
    exact Action.orderly_newList keys
  · refine Option.some.inj found ▸ .nullary (.bind (.look _) fun values => ?_)
    exact Action.orderly_newList values
  · exact orderly_measure found

theorem orderly_commonIntrinsic {target : Value}
    (found : commonIntrinsic? target operation = some run) : run.Orderly := by
  simp only [commonIntrinsic?] at found
  split at found
  · exact Option.some.inj found ▸
      .nullary (.changeSame fun w => World.sameCode_copyWithin _ target w)
  · exact Option.some.inj found ▸ .nullary (.look _)
  · cases found

/-- Every operation is orderly. -/
theorem orderly_intrinsic {target : Value} (found : intrinsic? target operation = some run) :
    run.Orderly := by
  rw [intrinsic?] at found
  cases common : commonIntrinsic? target operation with
  | some f =>
    rw [common] at found
    exact Option.some.inj found ▸ orderly_commonIntrinsic common
  | none =>
    rw [common] at found
    obtain ⟨d, a⟩ := target
    cases d with
    | string text => exact orderly_stringIntrinsic found
    | list h => exact orderly_listIntrinsic found
    | array h => exact orderly_sequenceIntrinsic Action.orderly_newArray found
    | set h => exact orderly_setIntrinsic found
    | dict h => exact orderly_dictIntrinsic found
    | _ => cases found

end Operations

end ScopeLang
