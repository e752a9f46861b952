/-
# Interleaved work on parted scopes

Two parties work in one world, each with scopes of its own, in any order.  What
one of them is answered does not depend on what the other one does: the world
matches one in which the other has done nothing (`Play.Tracks`).

A party reads and assigns variables, applies intrinsics and makes containers, and
uses the answers that it was given before.  It cannot use those of the other, which
is all that keeps containers from getting across.

One thing gets across by itself: a method tells in its text whether its class is still
there, and a variable of the other side may have been all that kept the class
(`not_detach_pure_named`).
-/
import ScopeLang.Eval.Expression
import ScopeLang.Proofs.Applications
import ScopeLang.Proofs.Parting

namespace ScopeLang

open List (Forall₂)

variable {β β₁ : Pairing} {P Q : ScopeId → Prop} {lost mine : Cell → Prop} {w₀ w w' w₁ w₁' : World}

/-! ## Operations -/

/-- The answer to an operation: a value, nothing, or an error. -/
abbrev Answer := Except ErrorKind (Option Value)

/-- The value of an answer, or null. -/
def Answer.value : Answer → Value
  | .ok (some v) => v
  | _ => .null

/-- What an operation is given: a value from elsewhere, or what has been answered before. -/
inductive Operand where
  | constant (v : Value)
  | answer (i : Nat)

namespace Operand

def value (answers : List Answer) : Operand → Value
  | constant v => v
  | answer i => Answer.value (answers.getD i (.ok none))

/-- What comes from elsewhere is shared. -/
def Over (shared : Cell → Prop) : Operand → Prop
  | constant v => ∀ c ∈ v.cells, shared c
  | answer _ => True

end Operand

/-- What a host does with scopes and values. -/
inductive Operation where
  | read (s : ScopeId) (name : String)
  | update (s : ScopeId) (name : String) (v : Operand)
  /-- Applies an intrinsic; there is no answer if it is undefined. -/
  | apply (target : Operand) (operation : String) (arguments : List Operand)
  | gather (kind : SequenceKind) (items : List Operand)
  | pair (entries : List (Operand × Operand))
  /-- The same value with other attributes. -/
  | mark (attrs : Attributes) (v : Operand)

namespace Operation

def run (answers : List Answer) : Operation → Action (Option Value)
  | read s name => do return some (← Action.consult fun w => w.getVariable s name)
  | update s name v => do
      Action.updateVariable s name (v.value answers)
      return none
  | apply target operation arguments => do
      match intrinsic? (target.value answers) operation with
      | some run => return some (← run (arguments.map (Operand.value answers)))
      | none => return none
  | gather kind items => do return some (← kind.build (items.map (Operand.value answers)))
  | pair entries => do
      return some (← Action.newDict (entries.map fun e => (e.1.value answers, e.2.value answers)))
  | mark attrs v => return some { v.value answers with attrs }

/-- An operation that names scopes in `P` only, and is given nothing from elsewhere that is not
shared. -/
def Confined (P : ScopeId → Prop) (shared : Cell → Prop) : Operation → Prop
  | read s _ => P s
  | update s _ v => P s ∧ v.Over shared
  | apply target _ arguments => target.Over shared ∧ ∀ v ∈ arguments, v.Over shared
  | gather _ items => ∀ v ∈ items, v.Over shared
  | pair entries => ∀ e ∈ entries, e.1.Over shared ∧ e.2.Over shared
  | mark _ v => v.Over shared

/-- What an operation shows, compares or copies is finite. -/
def Bounded (w : World) (answers : List Answer) : Operation → Prop
  | update s name v => ∀ b, w.binding? s name = some b →
      b.flags.isMutable = true ∨ (v.value answers).attrs.isMutable = true ∨
        (v.value answers).Finite w
  | apply target operation arguments =>
      w.Bounded (target.value answers) operation (arguments.map (Operand.value answers))
  | gather kind items => kind = .set → ∀ v ∈ items, (v.value answers).Finite w
  | pair entries => ∀ e ∈ entries, (e.1.value answers).Finite w
  | read .. | mark .. => True

end Operation

/-- Two answers: the same error, or matching values. -/
abbrev AnswersMatch (β : Pairing) : Answer → Answer → Prop :=
  Outcomes (Option.Rel (Value.Matches β))

section Operations

variable {answers answers' : List Answer}

theorem AnswersMatch.value {a a' : Answer} (h : AnswersMatch β a a') :
    (Answer.value a).Matches β (Answer.value a') := by
  cases h with
  | error k => exact .scalar rfl
  | ok r =>
    cases r with
    | none => exact .scalar rfl
    | some match_ => exact match_

theorem AnswersMatch.mono {a a' : Answer} (sub : ∀ {c c'}, β c c' → β₁ c c')
    (h : AnswersMatch β a a') : AnswersMatch β₁ a a' := by
  cases h with
  | error k => exact .error k
  | ok r =>
    cases r with
    | none => exact .ok .none
    | some match_ => exact .ok (.some (match_.mono sub))

section Matching

variable (logs : Forall₂ (AnswersMatch β) answers answers') {shared : Cell → Prop}
  (same : ∀ c, shared c → β c c)

include logs same

theorem Operand.Over.matches : ∀ {x : Operand}, x.Over shared →
    (x.value answers).Matches β (x.value answers')
  | .constant _, known => .self fun c hc => same c (known c hc)
  | .answer i, _ => (forall₂_getD logs (.ok .none) i).value

theorem Operand.matches_all {xs : List Operand} (known : ∀ x ∈ xs, x.Over shared) :
    Forall₂ (Value.Matches β) (xs.map (Operand.value answers))
      (xs.map (Operand.value answers')) := by
  rw [List.forall₂_map_left_iff, List.forall₂_map_right_iff, List.forall₂_same]
  exact fun x hx => (known x hx).matches logs same

/-- An operation does the same in worlds that are twins. -/
theorem Operation.concurs (ground : w₀.Ground P) {o : Operation} (confined : o.Confined P shared)
    (bounded : o.Bounded w answers) :
    Concur w₀ P (o.run answers) (o.run answers') (fun β => Option.Rel (Value.Matches β)) β w w' := by
  cases o with
  | read s name =>
    exact .consult_then (fun t => t.getVariable ground confined) fun m => .pure (.some m)
  | update s name v =>
    have match_ := confined.2.matches logs same
    refine .bind ground (concur_updateVariable ground confined.1 match_ bounded) ?_
    exact fun _ _ => .pure .none
  | apply target operation arguments =>
    refine .assume fun t => ?_
    have both := concurs_intrinsic t ground (confined.1.matches logs same) operation
    have args := Operand.matches_all logs same confined.2
    simp only [run]
    generalize intrinsic? (target.value answers) operation = i at both ⊢
    generalize intrinsic? (target.value answers') operation = i' at both ⊢
    cases both with
    | none => exact .pure .none
    | some concurs =>
      exact .bind ground (concurs _ _ args bounded) fun _ m => .pure (.some m)
  | gather kind items =>
    have values := Operand.matches_all logs same confined
    have made : Concur w₀ P (kind.build (items.map (Operand.value answers)))
        (kind.build (items.map (Operand.value answers'))) Value.Matches β w w' := by
      cases kind with
      | list => exact concur_newList values
      | array => exact concur_newArray values
      | set =>
        refine concur_newSet values fun v hv => ?_
        obtain ⟨x, hx, rfl⟩ := List.mem_map.mp hv
        exact bounded rfl x hx
    exact .bind ground made fun _ m => .pure (.some m)
  | pair entries =>
    refine .bind ground (concur_newDict ?_ ?_) fun _ m => .pure (.some m)
    · rw [List.forall₂_map_left_iff, List.forall₂_map_right_iff, List.forall₂_same]
      exact fun e he => ⟨(confined e he).1.matches logs same, (confined e he).2.matches logs same⟩
    · rintro e he
      obtain ⟨x, hx, rfl⟩ := List.mem_map.mp he
      exact bounded x hx
  | mark attrs v => exact .pure (.some ⟨(confined.matches logs same).datum, rfl⟩)

end Matching

end Operations

/-! ## Parts of the world that are out of reach -/

/-- Worlds go on to match when other scopes and other containers are amended in one of them. -/
theorem World.Matches.frame (m : w.Matches P lost β w') (amends : w.Amends Q mine w₁)
    (scopes : ∀ s, P s → ¬ Q s)
    (containers : ∀ c c', β c c' → c.kind.isContainer = true → ¬ mine c)
    (sealed : w₁.Sealed lost) : w₁.Matches P lost β w' where
  there p := ⟨(m.there p).1.mono amends.count, (m.there p).2⟩
  kind := m.kind
  single := m.single
  found := m.found
  values {c c'} p := by
    rw [amends.values_of_ne_scope (m.there p).1 (m.kind p).2 (containers c c' p)]
    exact m.values p
  classId p := by
    rw [amends.inst (m.there p).1]
    exact m.classId p
  scope hs := ⟨(m.scope hs).1.mono amends.count, (m.scope hs).2⟩
  outline hs := by
    rw [amends.outline (m.scope hs).1]
    exact m.outline hs
  bindings hs := by
    rw [amends.scope (m.scope hs).1 (scopes _ hs)]
    exact m.bindings hs
  functions := m.functions.trans amends.functions.symm
  methods := m.methods.trans amends.methods.symm
  classes := m.classes.trans amends.classes.symm
  overloads := m.overloads.trans amends.overloads.symm
  types := m.types.trans amends.types.symm
  sealed := sealed
  sealed' := m.sealed'

/-- Twins hold what they have at hand. -/
theorem Twins.hold (t : Twins w₀ P β w w') {cells cells' : List Cell}
    (present : ∀ c ∈ cells, c.In w.count ∧ ¬ w₀.Gone c)
    (present' : ∀ c ∈ cells', c.In w'.count ∧ ¬ w₀.Gone c) :
    Twins w₀ P β (w.hold cells) (w'.hold cells') :=
  ⟨t.alike.hold cells cells', t.left.hold present, t.right.hold present', t.classes⟩

/-! ## Plays -/

section Plays

variable {ι : Type} {sides : ι → ScopeId → Prop} {shared : Cell → Prop}

/-- A world that several parties work in, and what each of them has been answered. -/
structure Play (ι : Type) where
  world : World
  answers : ι → List Answer

namespace Play

def start (w : World) : Play ι := ⟨w, fun _ => []⟩

section Runs

variable [DecidableEq ι]

/-- One of the parties does something, and holds the value that it is answered. -/
def step (p : Play ι) (i : ι) (o : Operation) : Play ι :=
  let (answer, w) := (o.run (p.answers i)).runIn p.world
  { world := w.hold (Answer.value answer).cells
    answers := Function.update p.answers i (p.answers i ++ [answer]) }

/-- The parties do something one after the other. -/
def run (p : Play ι) : List (ι × Operation) → Play ι
  | [] => p
  | (i, o) :: rest => (p.step i o).run rest

/-- What the operations of a run show, compare or copy is finite when they are done. -/
def Bounded (p : Play ι) : List (ι × Operation) → Prop
  | [] => True
  | (i, o) :: rest => o.Bounded p.world (p.answers i) ∧ (p.step i o).Bounded rest

/-- A play in which all parties have been at work, next to one for each of them in which nobody
else has. -/
structure Tracks (w₀ : World) (sides : ι → ScopeId → Prop) (shared : Cell → Prop)
    (β : ι → Pairing) (p : Play ι) (q : ι → Play ι) : Prop where
  twins : ∀ i, Twins w₀ (sides i) (β i) p.world (q i).world
  answers : ∀ i, Forall₂ (AnswersMatch (β i)) (p.answers i) ((q i).answers i)
  shared : ∀ i c, shared c → β i c c
  apart : ∀ {i j c d e}, i ≠ j → c.kind.isContainer = true → β i c d → ¬ β j c e

theorem Tracks.step (splits : w₀.Splits sides) {β : ι → Pairing} {p : Play ι} {q : ι → Play ι}
    (h : Tracks w₀ sides shared β p q) {i : ι} {o : Operation}
    (confined : o.Confined (sides i) shared) (bounded : o.Bounded p.world (p.answers i)) :
    ∃ β', Tracks w₀ sides shared β' (p.step i o) (Function.update q i ((q i).step i o)) := by
  have ground := splits.ground
  obtain ⟨β₁, onward, outcome⟩ :=
    Operation.concurs (h.answers i) (h.shared i) (ground i) confined bounded (h.twins i)
  have twins := (h.twins i).onward (ground i) onward
  have match_ := AnswersMatch.value outcome
  have present := twins.alike.present match_
  refine ⟨Function.update β i β₁, ?_⟩
  constructor
  case twins =>
    intro j
    by_cases same : j = i
    · subst same
      simp only [Function.update_self]
      exact twins.hold present.1 present.2
    · simp only [Function.update_of_ne same]
      have t := h.twins j
      have still := t.alike.frame onward.left (fun s hs => splits.scopes same hs)
        (fun c c' paired kind ⟨d, taken⟩ => h.apart same kind paired taken) twins.alike.sealed
      have held : Twins w₀ (sides j) (β j) (p.step i o).world ((q j).world.hold []) :=
        (Twins.mk still twins.left t.right t.classes).hold present.1 nofun
      exact held
  case answers =>
    intro j
    by_cases same : j = i
    · subst same
      simp only [Play.step, Function.update_self]
      exact List.rel_append ((h.answers j).imp fun _ _ => AnswersMatch.mono onward.sub)
        (.cons outcome .nil)
    · simp only [Play.step, Function.update_of_ne same]
      exact h.answers j
  case shared =>
    intro j c given
    by_cases same : j = i
    · subst same
      rw [Function.update_self]
      exact onward.sub (h.shared j c given)
    · rw [Function.update_of_ne same]
      exact h.shared j c given
  case apart =>
    -- what is paired now has been paired, or was not there
    have new : ∀ {j c d e}, j ≠ i → c.kind.isContainer = true → β₁ c d → ¬ β j c e := by
      intro j c d e ne kind paired other
      rcases onward.new paired with old | ⟨new, -⟩
      · exact h.apart ne kind other old
      · exact new ((h.twins j).alike.there other).1
    intro j k c d e ne kind paired other
    by_cases first : j = i
    · subst first
      rw [Function.update_self] at paired
      rw [Function.update_of_ne ne.symm] at other
      exact new ne.symm kind paired other
    · rw [Function.update_of_ne first] at paired
      by_cases second : k = i
      · subst second
        rw [Function.update_self] at other
        exact new first kind other paired
      · rw [Function.update_of_ne second] at other
        exact h.apart ne kind paired other

/-- What is left of the work if only one party does its part. -/
def only (i : ι) (script : List (ι × Operation)) : List (ι × Operation) :=
  script.filter fun e => e.1 = i

theorem Tracks.run (splits : w₀.Splits sides) {script : List (ι × Operation)} :
    ∀ {β : ι → Pairing} {p : Play ι} {q : ι → Play ι}, Tracks w₀ sides shared β p q →
      (∀ e ∈ script, e.2.Confined (sides e.1) shared) → p.Bounded script →
        ∃ β', Tracks w₀ sides shared β' (p.run script) fun i => (q i).run (only i script) := by
  induction script with
  | nil => exact fun h _ _ => ⟨_, h⟩
  | cons e rest ih =>
    obtain ⟨i, o⟩ := e
    intro β p q h confined bounded
    obtain ⟨β₁, tracks⟩ := h.step splits (confined _ List.mem_cons_self) bounded.1
    obtain ⟨β₂, tracks⟩ := ih tracks (fun e he => confined e (List.mem_cons_of_mem _ he)) bounded.2
    refine ⟨β₂, ?_⟩
    have same : (fun j => (q j).run (only j ((i, o) :: rest))) =
        fun j => (Function.update q i ((q i).step i o) j).run (only j rest) := by
      funext j
      by_cases mine : j = i
      · subst mine
        simp only [only, List.filter_cons, decide_true, if_true, Function.update_self, Play.run]
      · simp only [only, List.filter_cons, Function.update_of_ne mine, Ne.symm mine, decide_false,
          Bool.false_eq_true, if_false]
    rw [same]
    exact tracks

end Runs

/-- At the start every party is where it would be without the others. -/
theorem Tracks.start (splits : w₀.Splits sides) (shares : w₀.Shares shared)
    (classes : ∀ i (h : Handle .method), w₀.InReach (sides i) h.cell ∨ shared h.cell →
      w₀.Settled (w₀.method h).classId.cell) :
    Tracks w₀ sides shared (fun i => w₀.within (sides i) shared) (.start w₀) fun _ => .start w₀ where
  twins i := (splits.ground i).twins splits.closed shares (classes i)
  answers _ := .nil
  shared _ _ given := ⟨rfl, .inr given⟩
  apart ne kind p q := by
    have reach : ∀ {i c d}, c.kind.isContainer = true → w₀.within (sides i) shared c d →
        w₀.InReach (sides i) c := by
      rintro i c d kind ⟨-, reach | given⟩
      · exact reach
      · rw [(shares.plain given).1] at kind
        cases kind
    exact splits.containers ne kind (reach kind p) (reach kind q)

/-- What one of the parties sees, and what it has been answered, is the same in two plays but for
the names of cells. -/
def Alike (P : ScopeId → Prop) (lost : Cell → Prop) (i : ι) (p q : Play ι) : Prop :=
  ∃ β, p.world.Matches P lost β q.world ∧ Forall₂ (AnswersMatch β) (p.answers i) (q.answers i)

end Play

end Plays

/-! ## Purity -/

/-- Detaching is pure.  A scope that is alive is parted from one with copies of the named
variables.  Whatever is done from then on with the new scope on one side, and with the old one and
its ancestors on the other, each side comes out as if the other had done nothing.

The values that are copied have an end, and so has what the operations copy, show or compare.
From elsewhere a side is given scalars, functions, classes and instances, but no containers.  A
method tells in its text whether its class is still there, but does not keep it: the lives of these
classes do not hang on variables, which the other side might assign. -/
theorem World.WellFormed.detach_pure {s d : ScopeId} {names : List String} {label : String}
    {w u : World} (h : w.WellFormed) (there : s.In w.count) (alive : w.alive s.cell = true)
    (finite : ∀ n ∈ names, ∀ b, w.binding? s n = some b → b.value.Finite w)
    (made : w.part s names label = (d, u)) {shared : Cell → Prop} (shares : u.Shares shared)
    (classes : ∀ side (m : Handle .method), u.InReach (w.sides s d side) m.cell ∨ shared m.cell →
      u.Settled (u.method m).classId.cell)
    {script : List (Side × Operation)}
    (confined : ∀ e ∈ script, e.2.Confined (w.sides s d e.1) shared)
    (bounded : (Play.start u).Bounded script) (side : Side) :
    ((Play.start u).run script).Alike (w.sides s d side) u.Gone side
      ((Play.start u).run (Play.only side script)) := by
  have splits := h.splits there alive finite made
  obtain ⟨β, tracks⟩ := (Play.Tracks.start splits shares classes).run splits confined bounded
  exact ⟨β side, (tracks.twins side).alike, tracks.answers side⟩

/-! A list in a list is shared out: one side adds to the inner one, and the other does not see it. -/

namespace Operand

/-- An operand that is no container, whatever has been answered. -/
def flat : Operand → Bool
  | constant v => v.containers.isEmpty
  | answer _ => false

theorem flat_finite {x : Operand} (flat : x.flat = true) (answers : List Answer) (w : World) :
    (x.value answers).Finite w := by
  cases x with
  | constant v => exact ⟨0, Value.nested_of_containers (List.isEmpty_iff.mp flat)⟩
  | answer i => cases flat

end Operand

/-- An operation that is given no container, and neither shows nor copies its target. -/
def Operation.plain : Operation → Bool
  | update _ _ v => v.flat
  | apply _ operation arguments =>
      operation != "clone" && operation != "to_string" && arguments.all Operand.flat
  | gather _ items => items.all Operand.flat
  | pair entries => entries.all fun e => e.1.flat
  | read .. | mark .. => true

theorem mem_of_compared {target v : Value} {operation : String} {arguments : List Value}
    (hv : v ∈ compared target operation arguments) : v ∈ arguments := by
  rw [compared] at hv
  split at hv
  · split at hv
    · exact hv
    · cases hv
  · split at hv
    · exact hv
    · cases hv
  · exact List.mem_of_mem_take hv
  · exact hv
  · cases hv

theorem World.Bounded.nullary {target : Value} {operation : String} (finite : target.Finite w) :
    w.Bounded target operation [] where
  shown _ := finite
  compared _ hv := absurd (mem_of_compared hv) List.not_mem_nil
  copied _ hv := absurd hv List.not_mem_nil

theorem Operation.bounded_of_plain {o : Operation} (plain : o.plain = true) (w : World)
    (answers : List Answer) : o.Bounded w answers := by
  cases o with
  | read s name => trivial
  | update s name v => exact fun _ _ => .inr (.inr (Operand.flat_finite plain answers w))
  | apply target operation arguments =>
    simp only [Operation.plain, Bool.and_eq_true, bne_iff_ne, List.all_eq_true] at plain
    obtain ⟨⟨clone, show_⟩, flat⟩ := plain
    have finite : ∀ v ∈ arguments.map (Operand.value answers), v.Finite w := by
      intro v hv
      obtain ⟨x, hx, rfl⟩ := List.mem_map.mp hv
      exact Operand.flat_finite (flat x hx) answers w
    exact ⟨fun named => absurd named (not_or.mpr ⟨clone, show_⟩),
      fun v hv => finite v (mem_of_compared hv), fun v hv => .inr (finite v hv)⟩
  | gather kind items =>
    exact fun _ x hx => Operand.flat_finite (List.all_eq_true.mp plain x hx) answers w
  | pair entries =>
    exact fun e he => Operand.flat_finite (List.all_eq_true.mp plain e he) answers w
  | mark attrs v => trivial

theorem Play.bounded_of_plain {ι : Type} [DecidableEq ι] {script : List (ι × Operation)}
    (plain : ∀ e ∈ script, e.2.plain = true) : ∀ p : Play ι, p.Bounded script := by
  induction script with
  | nil => exact fun _ => trivial
  | cons e rest ih =>
    intro p
    exact ⟨Operation.bounded_of_plain (plain e List.mem_cons_self) _ _,
      ih (fun e he => plain e (List.mem_cons_of_mem _ he)) _⟩

/-- A program that keeps a list in a list, and comes to a block. -/
def shelving : List Statement :=
  [⟨.declare ⟨"shelf", none, some (.ofTerm (.sequence .list
      [.ofTerm (.sequence .list [.ofTerm (.literal (.int 1))])])), { isMutable := true }⟩, Span.none⟩,
    ⟨.block [declaring "note" (.literal (.int 2))], Span.none⟩]

/-- The world in which the block has been entered. -/
def shelved : World := ((Session.start {} Kit.host).reached 14 shelving).world

/-- The world in which the list has been detached from the block. -/
def unshelved : World := (shelved.part ⟨1⟩ ["shelf"] "copy").2

/-- Both sides use their lists, and put something else in their places. -/
def sharedOut : List (Side × Operation) :=
  [(.source, .read ⟨1⟩ "shelf"), (.detached, .read ⟨2⟩ "shelf"),
    (.source, .apply (.answer 0) "get" [.constant (.int 0)]),
    (.source, .apply (.answer 1) "push" [.constant (.int 7)]),
    (.detached, .apply (.answer 0) "length" []),
    (.detached, .update ⟨2⟩ "shelf" (.constant .null)),
    (.source, .update ⟨0⟩ "shelf" (.constant (.int 5))), (.detached, .read ⟨2⟩ "shelf")]

/-- Both sides come out as if the other had done nothing. -/
theorem detach_pure_shelved :
    ((Play.start unshelved).run sharedOut).Alike (shelved.sides ⟨1⟩ ⟨2⟩ .detached) unshelved.Gone
        .detached ((Play.start unshelved).run (Play.only .detached sharedOut)) ∧
      ((Play.start unshelved).run sharedOut).Alike (shelved.sides ⟨1⟩ ⟨2⟩ .source) unshelved.Gone
        .source ((Play.start unshelved).run (Play.only .source sharedOut)) := by
  have obeys : Kit.host.Obeys (.full fun _ => True) := Kit.host_obeys fun _ _ => .inl trivial
  have wellFormed : shelved.WellFormed :=
    Session.Reachable.wellFormed (.start {} Kit.host) obeys 14 shelving
  have made : shelved.part ⟨1⟩ ["shelf"] "copy" = (⟨2⟩, unshelved) := by
    have new : (shelved.part ⟨1⟩ ["shelf"] "copy").1 = ⟨2⟩ := by decide +kernel
    rw [unshelved, ← new]
  have finite : ∀ n ∈ ["shelf"], ∀ b, shelved.binding? ⟨1⟩ n = some b → b.value.Finite shelved := by
    intro n hn b found
    have nested : ((shelved.binding? ⟨1⟩ "shelf").all fun b => b.value.Nested shelved 2) = true := by
      decide +kernel
    rw [← List.mem_singleton.mp hn, found] at nested
    exact ⟨2, of_decide_eq_true nested⟩
  -- nothing but lists is within reach
  have classes : ∀ side (m : Handle .method),
      unshelved.InReach (shelved.sides ⟨1⟩ ⟨2⟩ side) m.cell ∨ False →
        unshelved.Settled (unshelved.method m).classId.cell := by
    rintro side m (reach | none)
    · have scopes : ∀ t, shelved.sides ⟨1⟩ ⟨2⟩ side t → t ∈ ([⟨0⟩, ⟨1⟩, ⟨2⟩] : List ScopeId) := by
        cases side with
        | detached =>
          rintro _ rfl
          decide
        | source => exact (show ∀ t ∈ shelved.lookupChain ⟨1⟩, t ∈ _ by decide +kernel)
      have bound : ∀ t ∈ ([⟨0⟩, ⟨1⟩, ⟨2⟩] : List ScopeId), ∀ b ∈ (unshelved.scope t).bindings.values,
          ∀ c ∈ b.value.cells, c ∈ (List.range 6).map (Cell.mk .list) := by decide +kernel
      have inside : ∀ a ∈ (List.range 6).map (Cell.mk .list), ∀ v ∈ unshelved.values a,
          ∀ c ∈ v.cells, c ∈ (List.range 6).map (Cell.mk .list) := by decide +kernel
      have list := reach.mem (fun t ht => bound t (scopes t ht)) inside
      obtain ⟨i, -, e⟩ := List.mem_map.mp list
      exact absurd (congrArg Cell.kind e) nofun
    · exact none.elim
  have root : (⟨0⟩ : ScopeId) ∈ shelved.lookupChain ⟨1⟩ := by decide +kernel
  have confined : ∀ e ∈ sharedOut, e.2.Confined (shelved.sides ⟨1⟩ ⟨2⟩ e.1) fun _ => False := by
    have number : ∀ n, ∀ v ∈ [Operand.constant (.int n)], v.Over fun _ => False := by
      intro n v hv
      rw [List.mem_singleton.mp hv]
      exact List.forall_mem_nil _
    have null : (Operand.constant .null).Over fun _ => False := List.forall_mem_nil _
    have five : (Operand.constant (.int 5)).Over fun _ => False := List.forall_mem_nil _
    simp only [sharedOut, List.forall_mem_cons]
    exact ⟨shelved.mem_lookupChain ⟨1⟩, rfl, ⟨trivial, number 0⟩, ⟨trivial, number 7⟩,
      ⟨trivial, List.forall_mem_nil _⟩, ⟨rfl, null⟩, ⟨root, five⟩, rfl, List.forall_mem_nil _⟩
  have bounded : (Play.start unshelved).Bounded sharedOut :=
    Play.bounded_of_plain (by decide) _
  have pure := wellFormed.detach_pure (by decide +kernel) (by decide +kernel) finite made
    ⟨False.elim, False.elim⟩ classes confined bounded
  exact ⟨pure .detached, pure .source⟩

/-! A method names its class while that is there.  If only a variable keeps the class, assigning this
variable on one side shows on the other. -/

/-- Matching values are the same text, if one of them is a text. -/
theorem Value.Matches.string?_eq {v v' : Value} (h : v.Matches β v') : v'.string? = v.string? := by
  obtain ⟨d, a⟩ := v
  obtain ⟨d', a'⟩ := v'
  have datum := h.datum
  cases datum with
  | scalar _ => rfl
  | _ => rfl

/-- A function that makes an instance of a class of its own; when the program is over only the
variable `b` keeps the class. -/
def keepsake : List Statement :=
  [⟨.function ⟨"make", .function, [], none,
      [⟨.classDef ⟨"B", none, [methodNamed "construct" [], methodNamed "m" []]⟩, Span.none⟩,
        returning (.call "B" [])]⟩, Span.none⟩,
    declaring "b" (.call "make" [])]

/-- The world at the end of it. -/
def afterKeepsake : World := ((Session.start {} Kit.host).reached 60 keepsake).world

/-- A variable that holds the method `m` of the instance. -/
def keptMethod : Binding :=
  match afterKeepsake.lookupFunction (afterKeepsake.inst ⟨1⟩).scope "m" with
  | some (o :: _) => ⟨.ofDatum (.callable o.callable), {}, .invalid⟩
  | _ => ⟨.null, {}, .invalid⟩

/-- The host declares it at the root, under the name `h`. -/
def named : World := ((Action.declareVariable ⟨0⟩ "h" keptMethod).runIn afterKeepsake).2

/-- The world in which `h` has been detached from the root. -/
def unnamed : World := (named.part ⟨0⟩ ["h"] "copy").2

/-- The detached side keeps a list with the method, and then the text that the list is shown as.
Before it is shown the source gives `b` another value. -/
def forgetting : List (Side × Operation) :=
  [(.detached, .read ⟨8⟩ "h"), (.detached, .gather .list [.answer 0]),
    (.detached, .update ⟨8⟩ "h" (.answer 1)), (.source, .update ⟨0⟩ "b" (.constant .null)),
    (.detached, .read ⟨8⟩ "h"), (.detached, .apply (.answer 3) "to_string" []),
    (.detached, .update ⟨8⟩ "h" (.answer 4)), (.detached, .read ⟨8⟩ "h")]

/-- A host that writes to variables may declare one with any value that is there. -/
theorem Sound.declareVariable {D : Dialect} {t : ScopeId} {name : String} {b : Binding}
    (sound : Sound D w) (there : t.In w.count) (writes : D.hostWrites)
    (flags : b.flags.isMutable = true → D.sharing) (ok : b.value.Ok D w.count) :
    Sound D ((Action.declareVariable t name b).runIn w).2 := by
  have acts : Acts D t (Action.declareVariable t name b) (fun _ _ => True) w :=
    acts_declaration fun _ => .hostWrite t name writes flags ok
  exact ((acts sound there).1.kept sound there).1

theorem sound_named : Sound (.full fun _ => True) named := by
  have obeys : Kit.host.Obeys (.full fun _ => True) := Kit.host_obeys fun _ _ => .inl trivial
  have start : (Session.start {} Kit.host).Reachable (.full fun _ => True) := .start {} Kit.host
  obtain ⟨f, ready, -⟩ := start.reached kin_invariant kin_start obeys
    (Dialect.admits_of_sharing trivial (blockMarks keepsake)) 60
  have method : keptMethod.value.Ok (.full fun _ => True) afterKeepsake.count :=
    ⟨by decide +kernel, fun _ => trivial⟩
  have before : Sound (.full fun _ => True) afterKeepsake := ready.sound
  have root : (⟨0⟩ : ScopeId).In afterKeepsake.count := by decide +kernel
  rw [named]
  exact before.declareVariable root trivial (fun _ => trivial) method

/-- No instance is detached and no container is handed across; all the same the detached side reads
another text than without the source. -/
theorem not_detach_pure_named :
    named.WellFormed ∧ (⟨0⟩ : ScopeId).In named.count ∧
      named.alive (⟨0⟩ : ScopeId).cell = true ∧
      (∀ n ∈ ["h"], ∀ b, named.binding? ⟨0⟩ n = some b →
        b.value.Finite named ∧ b.value.object? = none) ∧
      named.part ⟨0⟩ ["h"] "copy" = (⟨8⟩, unnamed) ∧
      (∀ e ∈ forgetting, e.2.Confined (named.sides ⟨0⟩ ⟨8⟩ e.1) fun _ => False) ∧
      (Play.start unnamed).Bounded forgetting ∧
      ¬ ((Play.start unnamed).run forgetting).Alike (named.sides ⟨0⟩ ⟨8⟩ .detached) unnamed.Gone
        .detached ((Play.start unnamed).run (Play.only .detached forgetting)) := by
  have made : named.part ⟨0⟩ ["h"] "copy" = (⟨8⟩, unnamed) := by
    have new : (named.part ⟨0⟩ ["h"] "copy").1 = ⟨8⟩ := by decide +kernel
    rw [unnamed, ← new]
  have values : ∀ n ∈ ["h"], ∀ b, named.binding? ⟨0⟩ n = some b →
      b.value.Finite named ∧ b.value.object? = none := by
    intro n hn b found
    have flat : ((named.binding? ⟨0⟩ "h").all fun b =>
        b.value.containers.isEmpty && b.value.object?.isNone) = true := by decide +kernel
    rw [← List.mem_singleton.mp hn, found] at flat
    simp only [Option.all_some, Bool.and_eq_true, Option.isNone_iff_eq_none] at flat
    exact ⟨⟨0, Value.nested_of_containers (List.isEmpty_iff.mp flat.1)⟩, flat.2⟩
  have confined : ∀ e ∈ forgetting, e.2.Confined (named.sides ⟨0⟩ ⟨8⟩ e.1) fun _ => False := by
    have null : (Operand.constant .null).Over fun _ => False := List.forall_mem_nil _
    simp only [forgetting, List.forall_mem_cons]
    exact ⟨rfl, List.forall_mem_singleton.mpr trivial, ⟨rfl, trivial⟩,
      ⟨named.mem_lookupChain ⟨0⟩, null⟩, rfl, ⟨trivial, List.forall_mem_nil _⟩, ⟨rfl, trivial⟩, rfl,
      List.forall_mem_nil _⟩
  have bounded : (Play.start unnamed).Bounded forgetting := by
    refine ⟨trivial, nofun, fun _ _ => .inr (.inr ⟨1, ?_⟩), Operation.bounded_of_plain rfl _ _,
      trivial, .nullary ⟨1, ?_⟩, fun _ _ => .inr (.inr ⟨0, ?_⟩), trivial, trivial⟩
    · decide +kernel
    · decide +kernel
    · decide +kernel
  refine ⟨sound_named.wellFormed, by decide +kernel, by decide +kernel, values, made, confined,
    bounded, ?_⟩
  rintro ⟨β, -, answers⟩
  have text := (forall₂_getD answers (.ok .none) 6).value.string?_eq
  have before : (Answer.value ((((Play.start unnamed).run
      (Play.only .detached forgetting)).answers .detached).getD 6 (.ok none))).string? =
        some "[<method B.m>]" := by decide +kernel
  have after : (Answer.value ((((Play.start unnamed).run forgetting).answers
      .detached).getD 6 (.ok none))).string? = some "[<method m>]" := by decide +kernel
  rw [before, after] at text
  exact absurd (Option.some.inj text) (by decide)

end ScopeLang
