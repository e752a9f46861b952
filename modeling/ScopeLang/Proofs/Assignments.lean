/-
# Assigning to variables

A variable is looked for in a scope, and as long as it is not found in the scope above, up to
a scope that hides its parent.  `World.Finds` says this once, for reading and for
assigning, which go through the chain each in its own way.

An assignment that succeeds gives one variable of one scope another value
(`World.Assigned`); its flags and its declared type stay, and so does all else that there is.
What is looked up afterwards is found where it was found before.  Only links to parents need an
argument, since they are followed only while the parent is alive and the value that is
replaced may have owned something (`World.Upward`).
-/
import ScopeLang.Proofs.Captures
import ScopeLang.Proofs.Constants
import ScopeLang.Proofs.Parallel
import ScopeLang.Proofs.Paths

namespace ScopeLang

variable {w w' : World} {s t u p : ScopeId} {l : List ScopeId} {m n : String} {a b : Binding}
  {v : Value} {P : ScopeId → Prop} {D : Dialect}

/-! ## Finding a variable -/

/-- The variable that a scope sees under a name: its own one, else the one that its parent sees,
unless the scope hides it. -/
inductive World.Finds (w : World) (n : String) : ScopeId → ScopeId → Binding → Prop
  | here {s : ScopeId} {b : Binding} (found : w.localBinding? s n = some b) : Finds w n s s b
  | above {s p t : ScopeId} {b : Binding} (absent : w.localBinding? s n = none)
      (shown : (w.scope s).kind.hidesParent = false) (up : w.parent? s = some p)
      (rest : Finds w n p t b) : Finds w n s t b

namespace World

theorem Finds.found (h : w.Finds n s t b) : w.localBinding? t n = some b := by
  induction h with
  | here found => exact found
  | above _ _ _ _ ih => exact ih

theorem Finds.unique (h : w.Finds n s t a) (h' : w.Finds n s u b) : t = u ∧ a = b := by
  induction h with
  | here found =>
    cases h' with
    | here found' => exact ⟨rfl, Option.some.inj (found.symm.trans found')⟩
    | above absent => cases found.symm.trans absent
  | above absent _ up _ ih =>
    cases h' with
    | here found => cases absent.symm.trans found
    | above _ _ up' rest' =>
      obtain rfl := Option.some.inj (up.symm.trans up')
      exact ih rest'

/-- The first scope on the way up that has the name is the one that is found. -/
theorem exists_finds (h : Path w.variableParent? s l)
    (first : l.find? (fun t => w.hasLocalVariable t n) = some t) : ∃ b, w.Finds n s t b := by
  induction h with
  | @last s done =>
    rw [List.find?_singleton] at first
    split at first
    · rename_i has
      cases first
      obtain ⟨b, own⟩ := Option.isSome_iff_exists.mp has
      exact ⟨b, .here own⟩
    · cases first
  | @step s p l link rest ih =>
    rw [List.find?_cons] at first
    split at first
    · rename_i has
      cases first
      obtain ⟨b, own⟩ := Option.isSome_iff_exists.mp has
      exact ⟨b, .here own⟩
    · rename_i absent
      obtain ⟨b, found⟩ := ih first
      obtain ⟨shown, parent⟩ := variableParent?_eq_some.mp link
      have none : w.localBinding? s n = none := by
        rw [← Option.not_isSome_iff_eq_none]
        exact Bool.eq_false_iff.mp absent
      exact ⟨b, .above none shown (parent?_eq_some.mpr parent) found⟩

/-- What no scope on the way up has is not found. -/
theorem not_finds (h : Path w.variableParent? s l)
    (absent : l.find? (fun t => w.hasLocalVariable t n) = none) (found : w.Finds n s t b) :
    False := by
  rw [List.find?_eq_none] at absent
  induction h with
  | @last s done =>
    cases found with
    | here own => exact absent _ (List.mem_singleton_self _) (congrArg Option.isSome own)
    | above _ shown up _ =>
      rw [variableParent?, shown, if_neg Bool.false_ne_true, up] at done
      cases done
  | @step s p l link rest ih =>
    cases found with
    | here own => exact absent _ List.mem_cons_self (congrArg Option.isSome own)
    | above _ shown up others =>
      obtain ⟨-, parent⟩ := variableParent?_eq_some.mp link
      obtain rfl := Option.some.inj (up.symm.trans (parent?_eq_some.mpr parent))
      exact ih (fun u hu => absent u (List.mem_cons_of_mem _ hu)) others

/-- A variable is read from the scope in which it is assigned. -/
theorem binding?_eq_bind (w : World) (s : ScopeId) (n : String) :
    w.binding? s n = (w.bindingScope? s n).bind fun t => w.localBinding? t n := by
  cases scope : w.bindingScope? s n with
  | some t => exact binding?_of_bindingScope? scope
  | none =>
    rw [binding?, Option.bind_none, List.findSome?_eq_none_iff]
    rw [bindingScope?, List.find?_eq_none] at scope
    exact fun t mem => Option.not_isSome_iff_eq_none.mp (scope t mem)

namespace ParentsOlder

variable (older : w.ParentsOlder)

include older

theorem bindingScope?_eq_some : w.bindingScope? s n = some t ↔ ∃ b, w.Finds n s t b := by
  have path := path_variableChain older s
  constructor
  · exact exists_finds path
  · rintro ⟨b, found⟩
    cases scope : w.bindingScope? s n with
    | none => exact (not_finds path scope found).elim
    | some u =>
      obtain ⟨c, first⟩ := exists_finds path scope
      rw [(first.unique found).1]

theorem bindingScope?_eq_none : w.bindingScope? s n = none ↔ ∀ t b, ¬ w.Finds n s t b := by
  rw [Option.eq_none_iff_forall_ne_some]
  constructor
  · intro none t b found
    exact none t (older.bindingScope?_eq_some.mpr ⟨b, found⟩)
  · intro absent t some
    obtain ⟨b, found⟩ := older.bindingScope?_eq_some.mp some
    exact absent t b found

/-- The value in the nearest scope that has the variable. -/
theorem getVariable_eq (found : w.Finds n s t b) : w.getVariable s n = .ok b.value := by
  have scope := older.bindingScope?_eq_some.mpr ⟨b, found⟩
  rw [getVariable, binding?_of_bindingScope? scope, found.found]

/-- Nothing else is an error. -/
theorem getVariable_undefined (absent : ∀ t b, ¬ w.Finds n s t b) :
    w.getVariable s n = .error (.undefinedVariable n) := by
  rw [getVariable, binding?_eq_bind, older.bindingScope?_eq_none.mpr absent, Option.bind_none]

end ParentsOlder

/-! ## Storing a value -/

/-- A world in which a variable of a scope is `b`, and no other variable, no other part of a scope
and nothing else that was there has changed. -/
structure Assigned (w : World) (t : ScopeId) (n : String) (b : Binding) (w' : World) : Prop where
  there : w'.scope t = { w.scope t with bindings := (w.scope t).bindings.insert n b }
  rest : w.Amends (· = t) Nowhere w'

/-- A value that is prepared is copied at most. -/
theorem amends_prepare (b : Binding) (v : Value) (w : World) :
    w.Amends Nowhere Nowhere (b.prepare v w).2 := by
  simp only [Binding.prepare]
  split
  · exact .refl w
  · exact w.amends_duplicate v

theorem assigned_store (there : t.In w.count) (v : Value) :
    w.Assigned t n { b with value := (b.prepare v w).1 } (w.store t n b v) := by
  have amends := amends_prepare b v w
  constructor
  · rw [store, setVariable, scope_setScope, if_pos ⟨rfl, there.mono amends.count⟩,
      amends.scope there id]
  · have written : (b.prepare v w).2.Amends (· = t) Nowhere (w.store t n b v) :=
      amends_setVariable (P := (· = t)) rfl
    exact (amends.mono (fun _ no => no.elim) fun _ no => no.elim).trans written fun _ _ no => no

namespace Assigned

variable (h : w.Assigned t n b w')

include h

/-- The scopes that are there differ in one variable. -/
theorem localBinding?_eq (old : u.In w.count) (m : String) :
    w'.localBinding? u m = if u = t ∧ m = n then some b else w.localBinding? u m := by
  rw [localBinding?]
  by_cases here : u = t
  · subst here
    rw [h.there]
    by_cases same : m = n
    · rw [if_pos ⟨rfl, same⟩, same]
      exact Table.get?_insert_same ..
    · rw [if_neg fun both => same both.2]
      exact Table.get?_insert_other same ..
  · rw [if_neg fun both => here both.1, h.rest.scope old here]
    rfl

theorem kind_eq (old : u.In w.count) : (w'.scope u).kind = (w.scope u).kind := by
  by_cases here : u = t
  · rw [here, h.there]
  · rw [h.rest.scope old here]

theorem parent_eq (old : u.In w.count) : (w'.scope u).parent = (w.scope u).parent := by
  by_cases here : u = t
  · rw [here, h.there]
  · rw [h.rest.scope old here]

end Assigned

/-! ## Outcomes -/

/-- What comes of an assignment to the nearest variable of a name. -/
inductive Updates (w : World) (s : ScopeId) (n : String) (v : Value) :
    Except ErrorKind Unit × World → Prop
  | undefined : (∀ t b, ¬ w.Finds n s t b) →
      Updates w s n v (.error (.undefinedVariable n), w)
  | constant {t : ScopeId} {b : Binding} : w.Finds n s t b → b.flags.isConst = true →
      Updates w s n v (.error (.constViolation n), w)
  | mismatch {t : ScopeId} {b : Binding} : w.Finds n s t b → b.flags.isConst = false →
      w.admits t b.declared v = false →
      Updates w s n v
        (.error (.typeMismatch n (w.signatureText t b.declared) (w.typeName v)), w)
  | stored {t : ScopeId} {b : Binding} : w.Finds n s t b → b.flags.isConst = false →
      w.admits t b.declared v = true → Updates w s n v (.ok (), w.store t n b v)

/-- Every assignment comes to one of these. -/
theorem ParentsOlder.updates (older : w.ParentsOlder) (s : ScopeId) (n : String) (v : Value) :
    w.Updates s n v ((Action.updateVariable s n v).runIn w) := by
  rw [Action.updateVariable, runIn_look_bind]
  cases scope : w.bindingScope? s n with
  | none => exact .undefined (older.bindingScope?_eq_none.mp scope)
  | some t =>
    obtain ⟨b, found⟩ := older.bindingScope?_eq_some.mp scope
    show w.Updates s n v ((Action.updateLocalVariable t n v).runIn w)
    rw [Action.updateLocalVariable, runIn_look_bind, found.found]
    cases const : b.flags.isConst with
    | true =>
      simp only [const, if_true]
      exact .constant found const
    | false =>
      simp only [const, Action.consult, bind_assoc]
      rw [if_neg Bool.false_ne_true, runIn_get_bind, checkType]
      cases admitted : w.admits t b.declared v with
      | true => exact .stored found const admitted
      | false => exact .mismatch found const admitted

/-- A variable is declared once in a scope. -/
theorem runIn_declareVariable (w : World) (s : ScopeId) (n : String) (b : Binding) :
    (Action.declareVariable s n b).runIn w =
      if w.hasLocalVariable s n = true then (.error (.redeclaration n), w)
      else (.ok (), w.store s n b b.value) := by
  rw [Action.declareVariable, runIn_look_bind]
  split
  · rfl
  · rfl

/-! ## Looking up afterwards -/

/-- What is got after the variable `n` of the scope `t` has been given the value `v`. -/
structure Rereads (w : World) (t : ScopeId) (n : String) (v : Value) (w' : World) (u : ScopeId) :
    Prop where
  same : ∀ {a}, w.Finds n u t a → w'.getVariable u n = .ok v
  other : ∀ {m}, (∀ a, w.Finds m u t a → m ≠ n) → w'.getVariable u m = w.getVariable u m

namespace Assigned

section Afterwards

variable (h : w.Assigned t n b w') (sound : Sound D w) (old : u.In w.count)

include h

/-- The way up from a scope is the same if the parents on it are alive as before. -/
theorem variableChain_eq (there : ∀ {s}, P s → s.In w.count)
    (closed : ∀ {s p}, P s → w.variableParent? s = some p → P p)
    (alive : ∀ {s p}, P s → (w.scope s).kind.hidesParent = false →
      (w.scope s).parent = some p → w'.alive p.cell = w.alive p.cell) (hu : P u) :
    w'.variableChain u = w.variableChain u := by
  refine (follow_eq (fun s hs => ?_) (fun s p => closed) u.index u hu).1
  refine Option.ext fun p => ?_
  rw [variableParent?_eq_some, variableParent?_eq_some, h.kind_eq (there hs),
    h.parent_eq (there hs)]
  constructor
  · rintro ⟨shown, parent, up⟩
    exact ⟨shown, parent, (alive hs shown parent).symm.trans up⟩
  · rintro ⟨shown, parent, up⟩
    exact ⟨shown, parent, (alive hs shown parent).trans up⟩

variable (same : w'.variableChain u = w.variableChain u)

include sound old same

/-- A variable that is found keeps its name: it is found from everywhere that it was found from. -/
theorem bindingScope?_eq (found : w.localBinding? t n = some a) (m : String) :
    w'.bindingScope? u m = w.bindingScope? u m := by
  rw [bindingScope?, bindingScope?, same]
  refine List.find?_congr fun x hx => ?_
  show (w'.localBinding? x m).isSome = (w.localBinding? x m).isSome
  have there : x.In w.count := Nat.lt_of_le_of_lt (index_le_of_mem_variableChain sound hx) old
  rw [h.localBinding?_eq there]
  by_cases here : x = t ∧ m = n
  · rw [if_pos here, here.1, here.2, found]
    rfl
  · rw [if_neg here]

/-- Whoever finds the variable gets the new value, and all other names lead where they led. -/
theorem rereads (found : w.localBinding? t n = some a) : w.Rereads t n b.value w' u := by
  have older : w.ParentsOlder := sound.wellFormed.older
  have read : ∀ m, w'.binding? u m = (w.bindingScope? u m).bind fun x => w'.localBinding? x m :=
    fun m => by rw [binding?_eq_bind, h.bindingScope?_eq sound old same found]
  constructor
  · intro c here
    have scope := older.bindingScope?_eq_some.mpr ⟨c, here⟩
    have there : t.In w.count := in_of_localBinding? found
    rw [getVariable, read, scope, Option.bind_some, h.localBinding?_eq there, if_pos ⟨rfl, rfl⟩]
  · intro m elsewhere
    rw [getVariable, getVariable, read, binding?_eq_bind]
    cases scope : w.bindingScope? u m with
    | none => rfl
    | some x =>
      obtain ⟨c, here⟩ := older.bindingScope?_eq_some.mp scope
      have apart : ¬ (x = t ∧ m = n) := by
        rintro ⟨rfl, rfl⟩
        exact elsewhere c here rfl
      rw [Option.bind_some, Option.bind_some, h.localBinding?_eq (in_of_localBinding? here.found),
        if_neg apart]

end Afterwards

end Assigned

end World

end ScopeLang
