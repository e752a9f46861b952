/-
# Actions in matching worlds

An action that is done in two matching worlds fails in both with the same error,
or yields matching results; either way the worlds go on in the same way
(`Concur`).  Each construct out of which actions are put together has a rule, and
the continuation of a sequence is judged in worlds that match again.

Names are looked up along the links to parents, which depend on what is alive.
The worlds are therefore sequels of a common one, in which the links are settled
(`World.Ground`, `Twins`).
-/
import Mathlib.Data.List.Find
import ScopeLang.Proofs.Actions
import ScopeLang.Proofs.Replicas

namespace ScopeLang

open List (Forall₂)

variable {β β₁ : Pairing} {P : ScopeId → Prop} {lost : Cell → Prop} {w₀ w w' w₁ w₁' : World}
  {s : ScopeId} {name : String}

/-! ## Common ground -/

/-- Scopes whose chains of variables stay among them and end at settled links. -/
structure World.Ground (w : World) (P : ScopeId → Prop) : Prop where
  there : ∀ {s}, P s → s.In w.count
  found : ∀ {s}, P s → ¬ w.Gone s.cell
  parent : ∀ {s p}, P s → (w.scope s).kind.hidesParent = false → (w.scope s).parent = some p →
    w.Settled p.cell
  closed : ∀ {s t}, P s → w.variableParent? s = some t → P t

/-- Two matching sequels of a world in which the classes of paired methods are settled. -/
structure Twins (w₀ : World) (P : ScopeId → Prop) (β : Pairing) (w w' : World) : Prop where
  alike : w.Matches P w₀.Gone β w'
  left : w₀.Sequel w
  right : w₀.Sequel w'
  classes : ∀ {h : Handle .method}, β h.cell h.cell → w₀.Settled (w₀.method h).classId.cell

namespace Twins

/-- Twins go on as twins. -/
theorem onward (t : Twins w₀ P β w w') (ground : w₀.Ground P)
    (o : World.Onward P w₀.Gone β w w' β₁ w₁ w₁') : Twins w₀ P β₁ w₁ w₁' where
  alike := o.after
  left := t.left.amend o.left (fun _ => ground.found) (fun _ ⟨_, p⟩ => (t.alike.found p).1)
    o.after.sealed
  right := t.right.amend o.right (fun _ => ground.found) (fun _ ⟨_, p⟩ => (t.alike.found p).2)
    o.after.sealed'
  classes {h} p := by
    rcases o.new p with old | ⟨new, -⟩
    · exact t.classes old
    · -- no methods are added
      have there : h.In w₁.count := (o.after.there p).1
      rw [Handle.In, World.count, o.left.methods] at there
      exact absurd there new

/-- Methods name the same classes in both worlds. -/
theorem sameClasses (t : Twins w₀ P β w w') {cells cells' : List Cell}
    (present : ∀ c ∈ cells, c.In w.count ∧ ¬ w₀.Gone c)
    (present' : ∀ c ∈ cells', c.In w'.count ∧ ¬ w₀.Gone c) :
    World.Matches.SameClasses β (w.hold cells) (w'.hold cells') := by
  intro h p
  have settled := t.classes p
  have method : (w.hold cells).method h = w₀.method h := by
    simp only [World.method, World.hold, t.left.methods]
  rw [method, (t.left.hold present).upgrade_eq settled, (t.right.hold present').upgrade_eq settled]

end Twins

/-! ## Looking names up -/

theorem follow_eq {next next' : ScopeId → Option ScopeId} (same : ∀ s, P s → next' s = next s)
    (closed : ∀ s t, P s → next s = some t → P t) :
    ∀ n s, P s → follow next' n s = follow next n s ∧ ∀ t ∈ follow next n s, P t
  | 0, s, hs => ⟨rfl, fun t ht => List.mem_singleton.mp ht ▸ hs⟩
  | n + 1, s, hs => by
    rw [follow, follow, same s hs]
    cases found : next s with
    | none => exact ⟨rfl, fun t ht => List.mem_singleton.mp ht ▸ hs⟩
    | some u =>
      obtain ⟨rest, all⟩ := follow_eq same closed n u (closed s u hs found)
      refine ⟨congrArg (s :: ·) rest, fun t ht => ?_⟩
      rcases List.mem_cons.mp ht with rfl | ht
      · exact hs
      · exact all t ht

namespace World.Sequel

variable (h : w₀.Sequel w) (ground : w₀.Ground P)

include h ground

theorem variableParent?_eq (hs : P s) : w.variableParent? s = w₀.variableParent? s := by
  have outline := h.outline (ground.there hs)
  have kind : (w.scope s).kind = (w₀.scope s).kind := (congrArg Scope.kind outline :)
  have parent : (w.scope s).parent = (w₀.scope s).parent := (congrArg Scope.parent outline :)
  rw [variableParent?, variableParent?, parent?, parent?, kind, parent]
  split
  · rfl
  · rename_i shown
    cases link : (w₀.scope s).parent with
    | none => rfl
    | some p => exact h.upgrade_eq (ground.parent hs (Bool.not_eq_true _ ▸ shown) link)

/-- A chain of variables does not change. -/
theorem variableChain_eq (hs : P s) :
    w.variableChain s = w₀.variableChain s ∧ ∀ t ∈ w₀.variableChain s, P t :=
  follow_eq (fun _ => h.variableParent?_eq ground) (fun _ _ => ground.closed) s.index s hs

end World.Sequel

theorem lookup_of_forall₂ {es es' : List (String × Binding)}
    (h : Forall₂ (VariablesMatch β) es es') :
    Option.Rel (Binding.Matches β) (es.lookup name) (es'.lookup name) := by
  induction h with
  | nil => exact .none
  | @cons e e' _ _ first _ ih =>
    obtain ⟨key, b⟩ := e
    obtain ⟨key', b'⟩ := e'
    obtain rfl : key' = key := first.1
    rw [List.lookup_cons, List.lookup_cons]
    split
    · exact .some first.2
    · exact ih

theorem findSome?_rel {α γ : Type} {R : γ → γ → Prop} {f g : α → Option γ} :
    ∀ {xs : List α}, (∀ a ∈ xs, Option.Rel R (f a) (g a)) →
      Option.Rel R (xs.findSome? f) (xs.findSome? g)
  | [], _ => .none
  | a :: rest, each => by
    have first := each a List.mem_cons_self
    rw [List.findSome?_cons, List.findSome?_cons]
    generalize f a = o at first ⊢
    generalize g a = o' at first ⊢
    cases first with
    | none => exact findSome?_rel fun a ha => each a (List.mem_cons_of_mem _ ha)
    | some r => exact .some r

namespace World.Matches

theorem localBinding? (m : w.Matches P lost β w') (hs : P s) (name : String) :
    Option.Rel (Binding.Matches β) (w.localBinding? s name) (w'.localBinding? s name) :=
  lookup_of_forall₂ (m.bindings hs)

theorem hasLocalVariable_eq (m : w.Matches P lost β w') (hs : P s) (name : String) :
    w.hasLocalVariable s name = w'.hasLocalVariable s name := by
  have found : Option.Rel (Binding.Matches β) ((w.scope s).bindings.get? name)
    ((w'.scope s).bindings.get? name) := m.localBinding? hs name
  rw [hasLocalVariable, hasLocalVariable, Table.contains, Table.contains]
  generalize (w.scope s).bindings.get? name = o at found ⊢
  generalize (w'.scope s).bindings.get? name = o' at found ⊢
  cases found with
  | none => rfl
  | some _ => rfl

/-- A check against a declared type. -/
theorem checkType_eq (m : w.Matches P lost β w') (hs : P s) {declared : SigId} {v v' : Value}
    (h : v.Matches β v') : w.checkType s name declared v = w'.checkType s name declared v' := by
  have types : w'.typesOf s = w.typesOf s := by
    have same : (w'.scope s).types = (w.scope s).types :=
      (congrArg Scope.types (m.outline hs) :)
    rw [typesOf, typesOf, same, typeContext, typeContext, m.types]
  simp only [checkType, admits, signatureText, poolOf, optionsOf, types, m.valueType_eq h,
    m.typeName_eq h]

end World.Matches

namespace Twins

variable (t : Twins w₀ P β w w') (ground : w₀.Ground P)

include t ground

/-- Both worlds find a variable in the same scope. -/
theorem bindingScope?_eq (hs : P s) (name : String) : w.bindingScope? s name = w'.bindingScope? s name ∧
    ∀ u, w.bindingScope? s name = some u → P u := by
  obtain ⟨chain, all⟩ := t.left.variableChain_eq ground hs
  obtain ⟨chain', -⟩ := t.right.variableChain_eq ground hs
  rw [World.bindingScope?, World.bindingScope?, chain, chain']
  refine ⟨List.find?_congr fun u hu => t.alike.hasLocalVariable_eq (all u hu) name, fun u found => ?_⟩
  exact all u (List.mem_of_find?_eq_some found)

theorem binding? (hs : P s) (name : String) :
    Option.Rel (Binding.Matches β) (w.binding? s name) (w'.binding? s name) := by
  obtain ⟨chain, all⟩ := t.left.variableChain_eq ground hs
  obtain ⟨chain', -⟩ := t.right.variableChain_eq ground hs
  rw [World.binding?, World.binding?, chain, chain']
  exact findSome?_rel fun u hu => t.alike.localBinding? (all u hu) name

end Twins

/-! ## Actions -/

/-- Two outcomes: the same error, or results that are related. -/
inductive Outcomes {α : Type} (R : α → α → Prop) : Except ErrorKind α → Except ErrorKind α → Prop
  | ok {x x' : α} : R x x' → Outcomes R (.ok x) (.ok x')
  | error (k : ErrorKind) : Outcomes R (.error k) (.error k)

theorem Outcomes.refl {α : Type} (o : Except ErrorKind α) : Outcomes Eq o o := by
  cases o with
  | ok x => exact .ok rfl
  | error k => exact .error k

/-- Done in two worlds that are twins, two actions go on in the same way, and fail alike or yield
related results. -/
def Concur {α : Type} (w₀ : World) (P : ScopeId → Prop) (a a' : Action α)
    (R : Pairing → α → α → Prop) (β : Pairing) (w w' : World) : Prop :=
  Twins w₀ P β w w' →
    ∃ β₁, World.Onward P w₀.Gone β w w' β₁ (a.runIn w).2 (a'.runIn w').2 ∧
      Outcomes (R β₁) (a.runIn w).1 (a'.runIn w').1

/-- Results of which nothing is known. -/
abbrev Anyhow {α : Type} : Pairing → α → α → Prop := fun _ _ _ => True

namespace Concur

variable {α γ : Type} {R : Pairing → α → α → Prop} {a a' : Action α}

/-- What is true of the worlds may be assumed. -/
theorem assume (h : Twins w₀ P β w w' → Concur w₀ P a a' R β w w') : Concur w₀ P a a' R β w w' :=
  fun t => h t t

theorem pure {x x' : α} (h : R β x x') : Concur w₀ P (Pure.pure x) (Pure.pure x') R β w w' :=
  fun t => ⟨β, .refl t.alike, .ok h⟩

theorem throw {k : ErrorKind} : Concur w₀ P (throw k) (throw k) R β w w' :=
  fun t => ⟨β, .refl t.alike, .error k⟩

theorem look {f f' : World → α} (h : Twins w₀ P β w w' → R β (f w) (f' w')) :
    Concur w₀ P (Action.look f) (Action.look f') R β w w' :=
  fun t => ⟨β, .refl t.alike, .ok (h t)⟩

/-- What follows when something has been looked up. -/
theorem look_then {δ : Type} {f : World → γ} {f' : World → δ} {k : γ → Action α}
    {k' : δ → Action α} (h : Concur w₀ P (k (f w)) (k' (f' w')) R β w w') :
    Concur w₀ P (Action.look f >>= k) (Action.look f' >>= k') R β w w' := h

/-- What follows when something has been read that may be an error. -/
theorem consult_then {Q : γ → γ → Prop} {f f' : World → Except ErrorKind γ} {k k' : γ → Action α}
    (h : Twins w₀ P β w w' → Outcomes Q (f w) (f' w'))
    (next : ∀ {x x'}, Q x x' → Concur w₀ P (k x) (k' x') R β w w') :
    Concur w₀ P (Action.consult f >>= k) (Action.consult f' >>= k') R β w w' := by
  intro t
  have outcomes := h t
  have run : (Action.consult f >>= k).runIn w = ExceptT.bindCont k ((Action.consult f).runIn w).1
    ((Action.consult f).runIn w).2 := rfl
  have run' : (Action.consult f' >>= k').runIn w' =
    ExceptT.bindCont k' ((Action.consult f').runIn w').1 ((Action.consult f').runIn w').2 := rfl
  rw [run, run', Action.runIn_consult, Action.runIn_consult]
  generalize f w = e at outcomes ⊢
  generalize f' w' = e' at outcomes ⊢
  cases outcomes with
  | ok q => exact next q t
  | error k => exact ⟨β, .refl t.alike, .error k⟩

theorem change {f g : World → α × World}
    (h : Twins w₀ P β w w' → Replicates P w₀.Gone β w w' R (f w) (g w')) :
    Concur w₀ P (Action.change f) (Action.change g) R β w w' := by
  intro t
  obtain ⟨β₁, onward, r⟩ := h t
  exact ⟨β₁, onward, .ok r⟩

theorem modify {f f' : World → World} {R : Pairing → Unit → Unit → Prop}
    (h : Twins w₀ P β w w' → Replicates P w₀.Gone β w w' R ((), f w) ((), f' w')) :
    Concur w₀ P (modify f) (modify f') R β w w' :=
  change (f := fun w => ((), f w)) (g := fun w => ((), f' w)) h

theorem bind (ground : w₀.Ground P) {Q : Pairing → γ → γ → Prop} {b b' : Action γ}
    {k k' : γ → Action α} (first : Concur w₀ P b b' Q β w w')
    (next : ∀ {β₁ w₁ w₁' x x'}, World.Onward P w₀.Gone β w w' β₁ w₁ w₁' → Q β₁ x x' →
      Concur w₀ P (k x) (k' x') R β₁ w₁ w₁') :
    Concur w₀ P (b >>= k) (b' >>= k') R β w w' := by
  intro t
  obtain ⟨β₁, onward, outcomes⟩ := first t
  have run : (b >>= k).runIn w = ExceptT.bindCont k (b.runIn w).1 (b.runIn w).2 := rfl
  have run' : (b' >>= k').runIn w' = ExceptT.bindCont k' (b'.runIn w').1 (b'.runIn w').2 := rfl
  rw [run, run']
  generalize b.runIn w = made at onward outcomes ⊢
  generalize b'.runIn w' = made' at onward outcomes ⊢
  obtain ⟨result, w₁⟩ := made
  obtain ⟨result', w₁'⟩ := made'
  cases outcomes with
  | ok q =>
    obtain ⟨β₂, onward', outcomes⟩ := next onward q (t.onward ground onward)
    exact ⟨β₂, onward.trans onward', outcomes⟩
  | error k => exact ⟨β₁, onward, .error k⟩

/-- What follows when a value has been duplicated. -/
theorem duplicate_then (ground : w₀.Ground P) {v v' : Value} (h : v.Matches β v')
    (finite : v.attrs.isMutable = true ∨ v.Finite w) {k k' : Value → Action α}
    (next : ∀ {β₁ w₁ w₁' x x'}, World.Onward P w₀.Gone β w w' β₁ w₁ w₁' →
      w.Amends Nowhere Nowhere w₁ → x.Matches β₁ x' → (v.Finite w → x.Finite w₁) →
        Concur w₀ P (k x) (k' x') R β₁ w₁ w₁') :
    Concur w₀ P (Action.duplicate v >>= k) (Action.duplicate v' >>= k') R β w w' := by
  intro t
  obtain ⟨β₁, onward, match_⟩ := t.alike.duplicate h finite
  obtain ⟨β₂, onward', outcomes⟩ := next onward (World.amends_duplicate v w) match_
    (t.alike.sealed.finite_duplicate (t.alike.present h).1) (t.onward ground onward)
  exact ⟨β₂, onward.trans onward', outcomes⟩

end Concur

/-! ## Reading and assigning variables -/

/-- A variable has a value, or both worlds report that there is none. -/
theorem Twins.getVariable (t : Twins w₀ P β w w') (ground : w₀.Ground P) (hs : P s) :
    Outcomes (Value.Matches β) (w.getVariable s name) (w'.getVariable s name) := by
  have found := t.binding? ground hs name
  rw [World.getVariable, World.getVariable]
  generalize w.binding? s name = o at found ⊢
  generalize w'.binding? s name = o' at found ⊢
  cases found with
  | none => exact .error _
  | some hb => exact .ok hb.value

/-- A value is prepared for matching variables; it is copied if neither is mutable. -/
theorem World.Matches.prepare (m : w.Matches P lost β w') {b b' : Binding} (hb : b.Matches β b')
    {v v' : Value} (h : v.Matches β v')
    (finite : b.flags.isMutable = true ∨ v.attrs.isMutable = true ∨ v.Finite w) :
    Replicates P lost β w w' Value.Matches (b.prepare v w) (b'.prepare v' w') := by
  have stamped : ∀ {β : Pairing} {x x' : Value}, x.Matches β x' →
      Value.Matches β { x with attrs := b.stamp x.attrs } { x' with attrs := b'.stamp x'.attrs } := by
    intro β x x' match_
    refine ⟨match_.datum, ?_⟩
    simp only [Binding.stamp, hb.flags, hb.declared, match_.attrs]
  simp only [Binding.prepare, hb.flags]
  split
  · exact ⟨β, .refl m, stamped h⟩
  · rename_i immutable
    obtain ⟨β₁, onward, match_⟩ := m.duplicate h (finite.resolve_left immutable)
    exact ⟨β₁, onward, stamped match_⟩

theorem concur_updateLocalVariable (ground : w₀.Ground P) (hs : P s) {v v' : Value}
    (h : v.Matches β v') (finite : ∀ b, w.localBinding? s name = some b →
      b.flags.isMutable = true ∨ v.attrs.isMutable = true ∨ v.Finite w) :
    Concur w₀ P (Action.updateLocalVariable s name v) (Action.updateLocalVariable s name v') Anyhow
      β w w' := by
  refine .assume fun t => .look_then ?_
  have found := t.alike.localBinding? hs name
  generalize w.localBinding? s name = o at found finite ⊢
  generalize w'.localBinding? s name = o' at found ⊢
  cases found with
  | none => exact .throw
  | @some b b' hb =>
    have store : Concur w₀ P (do
        Action.consult fun w => w.checkType s name b.declared v
        let value ← Action.change (b.prepare v)
        modify fun w : World => w.setVariable s name { b with value }) (do
        Action.consult fun w => w.checkType s name b'.declared v'
        let value ← Action.change (b'.prepare v')
        modify fun w : World => w.setVariable s name { b' with value }) Anyhow β w w' := by
      refine .consult_then (Q := Eq) (fun t => ?_) fun _ => ?_
      · rw [hb.declared, t.alike.checkType_eq hs h]
        exact .refl _
      · refine .bind ground (.change fun t => t.alike.prepare hb h (finite b rfl)) ?_
        intro β₁ w₁ w₁' x x' onward match_
        refine .modify fun t => ?_
        exact ⟨_, t.alike.setVariable hs ⟨match_, hb.flags, hb.declared⟩, trivial⟩
    have same : b'.flags.isConst = b.flags.isConst := by rw [hb.flags]
    cases const : b.flags.isConst with
    | true =>
      simp only [const, same]
      exact .throw
    | false =>
      simp only [const, same]
      exact store

/-- The nearest binding is the one in the nearest scope that has one. -/
theorem World.binding?_of_bindingScope? {u : ScopeId} (h : w.bindingScope? s name = some u) :
    w.binding? s name = w.localBinding? u name := by
  simp only [bindingScope?, binding?] at h ⊢
  generalize w.variableChain s = chain at h ⊢
  induction chain with
  | nil => cases h
  | cons t rest ih =>
    rw [List.find?_cons] at h
    rw [List.findSome?_cons]
    have has : w.hasLocalVariable t name = (w.localBinding? t name).isSome := rfl
    rw [has] at h
    cases found : w.localBinding? t name with
    | none =>
      rw [found] at h
      exact ih h
    | some b =>
      rw [found] at h
      rw [← Option.some.inj h, found]

theorem concur_updateVariable (ground : w₀.Ground P) (hs : P s) {v v' : Value}
    (h : v.Matches β v') (finite : ∀ b, w.binding? s name = some b →
      b.flags.isMutable = true ∨ v.attrs.isMutable = true ∨ v.Finite w) :
    Concur w₀ P (Action.updateVariable s name v) (Action.updateVariable s name v') Anyhow β w w' := by
  refine .assume fun t => .look_then ?_
  obtain ⟨same, inside⟩ := t.bindingScope?_eq ground hs name
  rw [← same]
  cases found : w.bindingScope? s name with
  | none => exact .throw
  | some u =>
    refine concur_updateLocalVariable ground (inside u found) h fun b hb => finite b ?_
    rw [World.binding?_of_bindingScope? found, hb]

end ScopeLang
