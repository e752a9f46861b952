/-
# Reading what was assigned

Getting and assigning variables obey the laws of a lens in every graph of scopes
(`Session.Reachable.lens_laws`).  What is got is the value of the nearest variable of the name.  An
assignment that fails changes nothing, and neither does a declaration that fails.  One that succeeds
gives the nearest variable the value as this variable prepares it, and changes nothing else; from
then on whoever finds the variable gets the new value, and all other names lead where they led.

The last part is about all scopes whose way up the assignment leaves alive.  A scope does not keep
its parent, and the value that is replaced may have been the last that kept an instance, and with
it the scope in which a name was found (`not_lens_entered`).  No program comes to this by itself:
while one is running a scope that is alive keeps its way up, because what keeps it accounts for its
parent (`World.Sheltered.parent_anchored`).
-/
import ScopeLang.Proofs.Assignments
import ScopeLang.Proofs.Keepers
import ScopeLang.Proofs.Steadiness

namespace ScopeLang

variable {D : Dialect} {w w' : World} {s t u : ScopeId} {n m : String} {a b : Binding} {v : Value}

/-- What came of an action that has a result. -/
theorem eq_ok_of_toOption {α : Type} {made : Except ErrorKind α × World} {x : α}
    (h : made.1.toOption = some x) : made = (.ok x, made.2) := by
  obtain ⟨result, w⟩ := made
  cases result with
  | ok y => rw [Option.some.inj h]
  | error _ => cases h

namespace World

/-! ## Sheltered worlds -/

/-- What is listed is held while the tree is made of what is in progress. -/
theorem Stacked.held_of_listed (stacked : w.Stacked) {c : ScopeId}
    (listed : c ∈ (w.scope t).children) : c.cell ∈ w.held := by
  rw [stacked.children, enteredFrom, List.mem_reverse, List.mem_filter] at listed
  obtain ⟨h, held, found⟩ := List.mem_filterMap.mp listed.1
  rw [Cell.activation?] at found
  split at found
  · rename_i kind
    obtain rfl := Option.some.inj found
    obtain ⟨k, i⟩ := h
    obtain rfl : k = .scope := kind.1
    exact held
  · cases found

namespace Sheltered

/-- Assigning leaves what keeps scopes as it is. -/
theorem updateVariable (h : w.Sheltered D) (there : s.In w.count) (ok : v.Ok D w.count) :
    ((Action.updateVariable s n v).runIn w).2.Sheltered D := by
  have acts : Acts D s (Action.updateVariable s n v) (fun _ _ => True) w := acts_updateVariable ok
  have steps := (acts h.sound there).1
  have later := Later.of_steps steps h.sound there
  have persists := Action.within_updateVariable (fun w t b => w.persists_setVariable t n b) s v w
  have tree : w.SameTree ((Action.updateVariable s n v).runIn w).2 :=
    Action.within_updateVariable (fun _ _ _ => .setScope _ _ rfl rfl rfl) s v w
  exact
    { sound := (steps.kept h.sound there).1
      kin := later.kin h.sound h.kin
      secured := h.secured.persists persists
      listed := fun t c listed => by
        rw [tree.children] at listed
        exact tree.held ▸ h.listed t c listed }

/-- Where scopes are sheltered before and after an assignment, those that are alive then have the
way up that they had. -/
theorem variableChain_eq (before : w.Sheltered D) (after : w'.Sheltered D)
    (h : w.Assigned t n b w') (old : u.In w.count) (up : w.alive u.cell = true)
    (up' : w'.alive u.cell = true) : w'.variableChain u = w.variableChain u := by
  have parents : ∀ {s p : ScopeId},
      s.In w.count ∧ w.alive s.cell = true ∧ w'.alive s.cell = true →
      (w.scope s).kind.hidesParent = false → (w.scope s).parent = some p →
      w.alive p.cell = true ∧ w'.alive p.cell = true := by
    rintro s p ⟨old, up, up'⟩ shown parent
    have anchored := anchored_of_alive (owner_of_scope old) up
    have anchored' := anchored_of_alive (owner_of_scope (old.mono h.rest.count)) up'
    refine ⟨(before.parent_anchored anchored shown parent).alive, ?_⟩
    rw [← h.kind_eq old] at shown
    rw [← h.parent_eq old] at parent
    exact (after.parent_anchored anchored' shown parent).alive
  refine h.variableChain_eq
    (P := fun s => s.In w.count ∧ w.alive s.cell = true ∧ w'.alive s.cell = true)
    And.left (fun {s p} hs link => ?_) (fun {s p} hs shown parent => ?_) ⟨old, up, up'⟩
  · obtain ⟨shown, parent, -⟩ := variableParent?_eq_some.mp link
    exact ⟨Nat.lt_trans (before.older parent) hs.1, parents hs shown parent⟩
  · obtain ⟨up, up'⟩ := parents hs shown parent
    rw [up, up']

/-- Holding values leaves it as well. -/
theorem hold (h : w.Sheltered D) {cells : List Cell} (values : Scopeless cells)
    (there : ∀ c ∈ cells, c.In w.count) : (w.hold cells).Sheltered D := by
  have root : (⟨0⟩ : ScopeId).In w.count := h.secured.there ⟨0⟩ h.secured.root
  have step : Step D ⟨0⟩ w (w.hold cells) := .hold there h.sound
  exact
    { sound := (step.kept h.sound root).1
      kin := step.kin h.sound root h.kin
      secured := h.secured.hold values
      listed := fun t c mem => List.mem_append_right _ (h.listed t c mem) }

end Sheltered

/-! ## What is alive stays alive or gone -/

/-- Storing a value at hand where code can get at it brings nothing to life again. -/
theorem sequel_store (closed : w.Closed) (there : t.In w.count) (found : ¬ w.Gone t.cell)
    (present : v.Present w.Gone w) : w.Sequel (w.store t n b v) := by
  have sealed := sealed_gone closed
  have prepared : (b.prepare v w).2.Sealed w.Gone ∧
      (b.prepare v w).1.Present w.Gone (b.prepare v w).2 := by
    simp only [Binding.prepare]
    split
    · exact ⟨sealed, present⟩
    · exact (guards_deepCopy.duplicateBy v w sealed present).2
  have amends := amends_prepare b v w
  have copied : w.Sequel (b.prepare v w).2 :=
    (Sequel.refl closed).amend amends (fun _ no => no.elim) (fun _ no => no.elim) prepared.1
  have written : (b.prepare v w).2.Amends (· = t) Nowhere (w.store t n b v) :=
    amends_setVariable (P := (· = t)) rfl
  refine copied.amend written (fun s e => e ▸ found) (fun _ no => no.elim)
    (prepared.1.setScope rfl fun c hc => ?_)
  rcases Table.mem_values_insert hc with rfl | hc
  · exact prepared.2
  · exact prepared.1.binding (there.mono amends.count) found hc

theorem closed_of_sound (sound : Sound D w) : w.Closed where
  values mem owned := (sound.value mem).cells _ owned
  home := sound.home
  held mem := sound.held _ mem

/-- What is found from a scope that is alive is in one that is alive. -/
theorem Finds.alive (h : w.Finds n s t b) (up : w.alive s.cell = true) : w.alive t.cell = true := by
  induction h with
  | here => exact up
  | above _ _ link _ ih => exact ih (parent?_eq_some.mp link).2

/-! ## Laws -/

/-- The laws of getting and assigning variables in a world. -/
structure LensLaws (D : Dialect) (w : World) : Prop where
  /-- The value that is got is the one in the nearest scope that has the variable. -/
  get : ∀ {s t n b}, w.Finds n s t b → w.getVariable s n = .ok b.value
  undefined : ∀ {s n}, w.getVariable s n = .error (.undefinedVariable n) ↔
    ∀ t b, ¬ w.Finds n s t b
  /-- An assignment has one of four outcomes, three of which leave the world as it is. -/
  updates : ∀ s n v, w.Updates s n v ((Action.updateVariable s n v).runIn w)
  /-- The fourth gives one variable a value. -/
  put : ∀ {s n v w'}, (Action.updateVariable s n v).runIn w = (.ok (), w') → ∃ t b,
    w.Finds n s t b ∧ w.Assigned t n { b with value := (b.prepare v w).1 } w'
  /-- It is seen by those that find this variable, and by nobody else, from all scopes whose way up
  is still alive. -/
  rereads : ∀ {s n v w' t b}, w.alive s.cell = true → v.Ok D w.count →
    (∀ c ∈ v.cells, w.alive c = true) → (Action.updateVariable s n v).runIn w = (.ok (), w') →
    w.Finds n s t b → ∀ u, u.In w.count → (∀ p ∈ w.variableChain u, w'.alive p.cell = true) →
      w.Rereads t n (b.prepare v w).1 w' u
  declares : ∀ {s n b e w'}, (Action.declareVariable s n b).runIn w = (.error e, w') → w' = w

/-- An assignment that succeeds is seen in this way from every scope that is alive before and after
it. -/
def SeesAssignments (D : Dialect) (w : World) : Prop :=
  ∀ {s n v w' t b}, s.In w.count → v.Ok D w.count →
    (Action.updateVariable s n v).runIn w = (.ok (), w') → w.Finds n s t b → ∀ u, u.In w.count →
      w.alive u.cell = true → w'.alive u.cell = true → w.Rereads t n (b.prepare v w).1 w' u

/-- An assignment that succeeds stores the value in the variable that is found. -/
theorem stored_of_done (older : w.ParentsOlder)
    (done : (Action.updateVariable s n v).runIn w = (.ok (), w')) :
    ∃ t b, w.Finds n s t b ∧ w' = w.store t n b v := by
  have updates := older.updates s n v
  rw [done] at updates
  cases updates with
  | stored found => exact ⟨_, _, found, rfl⟩

/-- What a success leaves is that one variable has another value. -/
theorem put_of_done (sound : Sound D w)
    (done : (Action.updateVariable s n v).runIn w = (.ok (), w')) : ∃ t b,
    w.Finds n s t b ∧ w.Assigned t n { b with value := (b.prepare v w).1 } w' := by
  obtain ⟨t, b, found, rfl⟩ := stored_of_done sound.wellFormed.older done
  exact ⟨t, b, found, assigned_store (in_of_localBinding? found.found) v⟩

/-- A scope that has the way up that it had sees no more of it than that. -/
theorem rereads_of_done (sound : Sound D w)
    (done : (Action.updateVariable s n v).runIn w = (.ok (), w')) (found : w.Finds n s t b)
    (old : u.In w.count) (same : w'.variableChain u = w.variableChain u) :
    w.Rereads t n (b.prepare v w).1 w' u := by
  obtain ⟨t', b', found', assigned⟩ := put_of_done sound done
  obtain ⟨rfl, rfl⟩ := found.unique found'
  exact assigned.rereads sound old same found.found

/-- Where nothing on the way up is lost, nothing comes to it either. -/
theorem way_of_done (sound : Sound D w) (up : w.alive s.cell = true) (ok : v.Ok D w.count)
    (present : ∀ c ∈ v.cells, w.alive c = true)
    (done : (Action.updateVariable s n v).runIn w = (.ok (), w')) (old : u.In w.count)
    (all : ∀ p ∈ w.variableChain u, w'.alive p.cell = true) :
    w'.variableChain u = w.variableChain u := by
  have older : w.ParentsOlder := sound.wellFormed.older
  obtain ⟨t, b, found, rfl⟩ := stored_of_done older done
  have here : t.In w.count := in_of_localBinding? found.found
  have alive := found.alive up
  have stay : w.Sequel (w.store t n b v) := by
    refine sequel_store (closed_of_sound sound) here ?_ fun c mem => ⟨ok.cells c mem, ?_⟩
    · rintro ⟨-, dead⟩
      cases dead.symm.trans alive
    · rintro ⟨-, dead⟩
      cases dead.symm.trans (present c mem)
  have inside : ∀ {x}, x ∈ w.variableChain u → x.In w.count := fun {x} hx =>
    Nat.lt_of_le_of_lt (index_le_of_mem_variableChain sound hx) old
  refine (assigned_store here v).variableChain_eq (P := (· ∈ w.variableChain u)) inside
    (fun hx link => mem_variableChain_next sound link hx) (fun {x p} hx shown parent => ?_)
    (w.path_variableChain older u).mem_self
  cases life : w.alive p.cell with
  | true =>
    have link := variableParent?_eq_some.mpr ⟨shown, parent, life⟩
    exact all p (mem_variableChain_next sound link hx)
  | false => exact stay.dead ⟨Nat.lt_trans (older parent) (inside hx), life⟩

/-- Every sound world obeys them. -/
theorem lensLaws (sound : Sound D w) : w.LensLaws D := by
  have older : w.ParentsOlder := sound.wellFormed.older
  refine
    { get := fun found => older.getVariable_eq found
      undefined := fun {s n} => ⟨fun fails t b found => ?_, older.getVariable_undefined⟩
      updates := older.updates
      put := put_of_done sound
      rereads := fun up ok present done found u old all =>
        rereads_of_done sound done found old (way_of_done sound up ok present done old all)
      declares := fun {s n b e w'} fails => ?_ }
  · rw [older.getVariable_eq found] at fails
    cases fails
  · rw [runIn_declareVariable] at fails
    split at fails
    · exact (congrArg Prod.snd fails).symm
    · cases congrArg Prod.fst fails

/-- In sheltered worlds a scope that stays alive keeps its way up without more ado. -/
theorem Sheltered.way_of_done (h : w.Sheltered D) (there : s.In w.count) (ok : v.Ok D w.count)
    (done : (Action.updateVariable s n v).runIn w = (.ok (), w')) (old : u.In w.count)
    (up : w.alive u.cell = true) (up' : w'.alive u.cell = true) :
    w'.variableChain u = w.variableChain u := by
  have after := h.updateVariable (n := n) there ok
  rw [done] at after
  obtain ⟨t, b, -, assigned⟩ := put_of_done h.sound done
  exact h.variableChain_eq after assigned old up up'

theorem Sheltered.seesAssignments (h : w.Sheltered D) : w.SeesAssignments D :=
  fun there ok done found _ old up up' =>
    rereads_of_done h.sound done found old (h.way_of_done there ok done old up up')

end World

/-! ## Sessions -/

namespace Session.Reachable

variable {S : Session} {program : List Statement}

/-- At every moment of a program all scopes that are alive see their parents. -/
theorem sheltered (h : S.Reachable D) (obeys : S.host.Obeys D) (keeps : S.host.KeepsTree)
    (steady : S.host.Steady) (marks : D.Admits (blockMarks program)) (fuel : Nat) :
    (S.reached fuel program).world.Sheltered D := by
  obtain ⟨f, ready, kin⟩ := h.reached kin_invariant kin_start obeys marks fuel
  obtain ⟨-, stacked, -⟩ := h.releases keeps program fuel
  exact
    { sound := ready.sound
      kin
      secured := (h.secured steady fuel program).world
      listed := fun t c listed => stacked.held_of_listed listed }

/-- Getting and assigning variables obey the laws of a lens in all graphs of scopes, where an
assignment is seen from the scopes whose way up it leaves alive.  At every moment of a program,
whatever values the host holds besides, these are all scopes that are alive. -/
theorem lens_laws {natives : String → Prop} (h : S.Reachable (.full natives))
    (obeys : S.host.Obeys (.full natives)) (keeps : S.host.KeepsTree) (steady : S.host.Steady)
    (program : List Statement) (fuel : Nat) :
    (∀ w, Sound (.full natives) w → w.LensLaws (.full natives)) ∧
      ∀ cells, World.Scopeless cells →
        (∀ c ∈ cells, c.In (S.reached fuel program).world.count) →
        Sound (.full natives) ((S.reached fuel program).world.hold cells) ∧
          ((S.reached fuel program).world.hold cells).SeesAssignments (.full natives) := by
  have marks : (Dialect.full natives).Admits (blockMarks program) :=
    Dialect.admits_of_sharing (D := .full natives) trivial _
  refine ⟨fun w sound => World.lensLaws sound, fun cells values there => ?_⟩
  have sheltered := (h.sheltered obeys keeps steady marks fuel).hold values there
  exact ⟨sheltered.sound, sheltered.seesAssignments⟩

end Session.Reachable

/-- A program with a variable, and a block with a variable of the same name. -/
def shaded : List Statement :=
  [declaring "x" (.literal (.int 0)),
    ⟨.block [declaring "x" (.literal (.int 0)),
      ⟨.expression (.ofTerm (.variable "x")), Span.none⟩], Span.none⟩]

/-- The world in the block. -/
def duringShaded : World := ((Session.start {} Kit.host).reached 15 shaded).world

/-- The world after an assignment from the root. -/
def afterShaded : World := ((Action.updateVariable ⟨0⟩ "x" (.int 5)).runIn duringShaded).2

/-- The root gets the new value, and the block gets its own one. -/
theorem lens_laws_shaded :
    (∃ b, duringShaded.Finds "x" ⟨0⟩ ⟨0⟩ b ∧
      afterShaded.getVariable ⟨0⟩ "x" = .ok (b.prepare (.int 5) duringShaded).1) ∧
      (∃ b, duringShaded.Finds "x" ⟨1⟩ ⟨1⟩ b) ∧
      afterShaded.getVariable ⟨1⟩ "x" = duringShaded.getVariable ⟨1⟩ "x" := by
  have obeys : Kit.host.Obeys (.full fun _ => True) := Kit.host_obeys fun _ _ => .inl trivial
  obtain ⟨laws, here⟩ := Session.Reachable.lens_laws (.start {} Kit.host) obeys
    Kit.host_keepsTree Kit.host_steady shaded 15
  obtain ⟨sound, sees⟩ := here [] nofun nofun
  have sound : Sound (.full fun _ => True) duringShaded := sound
  have sees : duringShaded.SeesAssignments (.full fun _ => True) := sees
  have ok : ((Action.updateVariable ⟨0⟩ "x" (.int 5)).runIn duringShaded).1.toOption = some () := by
    decide +kernel
  have done : (Action.updateVariable ⟨0⟩ "x" (.int 5)).runIn duringShaded =
      (.ok (), afterShaded) := eq_ok_of_toOption ok
  obtain ⟨outer, own⟩ := Option.isSome_iff_exists.mp
    (show (duringShaded.localBinding? ⟨0⟩ "x").isSome = true by decide +kernel)
  obtain ⟨inner, shade⟩ := Option.isSome_iff_exists.mp
    (show (duringShaded.localBinding? ⟨1⟩ "x").isSome = true by decide +kernel)
  obtain ⟨t, b, found, -⟩ := (laws duringShaded sound).put done
  obtain ⟨rfl, rfl⟩ := found.unique (.here own)
  have rereads := sees (by decide +kernel) (Value.ok_scalar rfl rfl) done found
  have root := rereads ⟨0⟩ (by decide +kernel) (by decide +kernel) (by decide +kernel)
  have block := rereads ⟨1⟩ (by decide +kernel) (by decide +kernel) (by decide +kernel)
  refine ⟨⟨b, found, root.same found⟩, ⟨inner, .here shade⟩, block.other fun c elsewhere => ?_⟩
  cases (elsewhere.unique (.here shade)).1

/-! ## A way up that is lost -/

/-- A program with a class that has a member `n`, and an instance in the variable `x`. -/
def housed : List Statement :=
  [⟨.classDef ⟨"A", none,
      [declaring "n" (.literal (.int 1)), methodNamed "construct" [], methodNamed "m" []]⟩,
      Span.none⟩,
    declaring "x" (.call "A" [])]

/-- At the end of it the host enters the method of the instance from the root. -/
def enteredHoused : Except ErrorKind ScopeId × World :=
  (Action.enterMethod ⟨0⟩ ⟨1⟩ "m").runIn ((Session.start {} Kit.host).reached 40 housed).world

/-- Then null is assigned to `x`. -/
def emptiedHoused : Except ErrorKind Unit × World :=
  (Action.updateVariable ⟨0⟩ "x" .null).runIn enteredHoused.2

/-- The scope of the call is alive all the time, and `n` was not found in the variable that was
assigned to; but it is found no more, since the variable had the instance. -/
theorem not_lens_entered :
    Sound (.full fun _ => True) enteredHoused.2 ∧
      enteredHoused.1.toOption = some ⟨6⟩ ∧ emptiedHoused.1.toOption = some () ∧
      enteredHoused.2.alive (⟨6⟩ : ScopeId).cell = true ∧
      emptiedHoused.2.alive (⟨6⟩ : ScopeId).cell = true ∧
      (∃ b, enteredHoused.2.Finds "x" ⟨0⟩ ⟨0⟩ b) ∧
      (∃ b, enteredHoused.2.Finds "n" ⟨6⟩ ⟨5⟩ b) ∧
      emptiedHoused.2.getVariable ⟨6⟩ "n" = .error (.undefinedVariable "n") ∧
      ∀ v, ¬ enteredHoused.2.Rereads ⟨0⟩ "x" v emptiedHoused.2 ⟨6⟩ := by
  have obeys : Kit.host.Obeys (.full fun _ => True) := Kit.host_obeys fun _ _ => .inl trivial
  have start : (Session.start {} Kit.host).Reachable (.full fun _ => True) := .start {} Kit.host
  have before : Sound (.full fun _ => True) ((Session.start {} Kit.host).reached 40 housed).world :=
    (start.sheltered obeys Kit.host_keepsTree Kit.host_steady
      (Dialect.admits_of_sharing trivial _) 40).sound
  have entered : enteredHoused.1.toOption = some ⟨6⟩ := by decide +kernel
  have sound : Sound (.full fun _ => True) enteredHoused.2 := by
    have run := eq_ok_of_toOption entered
    generalize enteredHoused.2 = w' at run ⊢
    rw [enteredHoused, Action.enterMethod, runIn_look_bind] at run
    have call := entered_of_enter before (before.home (by decide +kernel)) rfl run
    exact (call.later.kept before).1
  have found : enteredHoused.2.bindingScope? ⟨6⟩ "n" = some ⟨5⟩ := by decide +kernel
  have older : enteredHoused.2.ParentsOlder := sound.wellFormed.older
  obtain ⟨b, finds⟩ := older.bindingScope?_eq_some.mp found
  have undefined : emptiedHoused.2.getVariable ⟨6⟩ "n" = .error (.undefinedVariable "n") := by
    rw [World.getVariable, Option.not_isSome_iff_eq_none.mp
      (show ¬ (emptiedHoused.2.binding? ⟨6⟩ "n").isSome = true by decide +kernel)]
  refine ⟨sound, entered, by decide +kernel, by decide +kernel, by decide +kernel,
    older.bindingScope?_eq_some.mp (by decide +kernel), ⟨b, finds⟩, undefined, fun v rereads => ?_⟩
  have same := rereads.other (m := "n") fun _ _ => by decide
  rw [undefined, older.getVariable_eq finds] at same
  cases same

end ScopeLang
