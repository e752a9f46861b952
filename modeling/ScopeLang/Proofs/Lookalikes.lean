/-
# Worlds that look alike

Two runs that do the same give their cells different names.  A `Pairing` says
which cells of one world stand for which cells of the other, and two worlds match
if it is one to one and paired cells have matching contents.  Only some cells are
paired, those that one side of a program can get at: what the rest of the world
looks like is left open, so that other parts of a program may have been at work
in one of the worlds and not in the other.

`World.Onward` is what one operation does, made in both worlds: they match
afterwards, new cells are paired with new cells, and no cell that is not paired
has been touched.  An instance is paired as a whole.  What its members hold is
not compared, since nothing here looks into it.
-/
import ScopeLang.Proofs.Lost

namespace ScopeLang

open List (Forall₂)

/-- Which cells of one world stand for which cells of another one. -/
abbrev Pairing := Cell → Cell → Prop

/-- One more pair. -/
def Pairing.add (β : Pairing) (c c' : Cell) : Pairing := fun a a' => β a a' ∨ a = c ∧ a' = c'

variable {β β₁ β₂ : Pairing} {P : ScopeId → Prop} {lost : Cell → Prop} {c c' : Cell}
  {w w' w₁ w₁' w₂ w₂' : World}

theorem Handle.cell_injective {k : CellKind} {h h' : Handle k} (e : h.cell = h'.cell) : h = h' :=
  congrArg (fun c : Cell => Handle.mk c.index) e

theorem exists_of_mem_left {α γ : Type} {R : α → γ → Prop} {xs : List α} {ys : List γ}
    (h : Forall₂ R xs ys) {a : α} (ha : a ∈ xs) : ∃ b ∈ ys, R a b := by
  induction h with
  | nil => cases ha
  | @cons x y _ _ first _ ih =>
    rcases List.mem_cons.mp ha with rfl | ha
    · exact ⟨y, List.mem_cons_self, first⟩
    · obtain ⟨b, hb, r⟩ := ih ha
      exact ⟨b, List.mem_cons_of_mem y hb, r⟩

theorem exists_of_mem_right {α γ : Type} {R : α → γ → Prop} {xs : List α} {ys : List γ}
    (h : Forall₂ R xs ys) {b : γ} (hb : b ∈ ys) : ∃ a ∈ xs, R a b :=
  exists_of_mem_left (R := fun b a => R a b) h.flip hb

/-! ## Matching values -/

/-- Two data of the same kind: the same scalar, the same callable, or paired cells. -/
inductive Datum.Matches (β : Pairing) : Datum → Datum → Prop
  | scalar {d : Datum} : d.cell? = none → Matches β d d
  | list {h h' : Handle .list} : β h.cell h'.cell → Matches β (.list h) (.list h')
  | array {h h' : Handle .list} : β h.cell h'.cell → Matches β (.array h) (.array h')
  | dict {h h' : Handle .dict} : β h.cell h'.cell → Matches β (.dict h) (.dict h')
  | set {h h' : Handle .set} : β h.cell h'.cell → Matches β (.set h) (.set h')
  | object {h h' : InstanceId} : β h.cell h'.cell → Matches β (.object h) (.object h')
  | callable {k : Callable} : β k.cell k.cell → Matches β (.callable k) (.callable k)
  | overloads {h : Handle .overloads} : β h.cell h.cell → Matches β (.overloads h) (.overloads h)

structure Value.Matches (β : Pairing) (v v' : Value) : Prop where
  datum : v.datum.Matches β v'.datum
  attrs : v'.attrs = v.attrs

structure Binding.Matches (β : Pairing) (b b' : Binding) : Prop where
  value : b.value.Matches β b'.value
  flags : b'.flags = b.flags
  declared : b'.declared = b.declared

/-- Two variables of one name. -/
def VariablesMatch (β : Pairing) (e e' : String × Binding) : Prop := e'.1 = e.1 ∧ e.2.Matches β e'.2

/-- Two entries of dictionaries. -/
def EntriesMatch (β : Pairing) (e e' : Value × Value) : Prop :=
  e.1.Matches β e'.1 ∧ e.2.Matches β e'.2

section Values

variable {v v' : Value}

theorem Datum.Matches.mono {d d' : Datum} (sub : ∀ {c c'}, β c c' → β₁ c c')
    (h : d.Matches β d') : d.Matches β₁ d' := by
  cases h with
  | scalar none => exact .scalar none
  | list p => exact .list (sub p)
  | array p => exact .array (sub p)
  | dict p => exact .dict (sub p)
  | set p => exact .set (sub p)
  | object p => exact .object (sub p)
  | callable p => exact .callable (sub p)
  | overloads p => exact .overloads (sub p)

namespace Value.Matches

theorem mono (sub : ∀ {c c'}, β c c' → β₁ c c') (h : v.Matches β v') : v.Matches β₁ v' :=
  ⟨h.datum.mono sub, h.attrs⟩

theorem scalar (none : v.cells = []) : v.Matches β v := by
  refine ⟨.scalar ?_, rfl⟩
  cases e : v.datum.cell? with
  | none => rfl
  | some c =>
    rw [Value.cells, e] at none
    cases none

/-- The cells of matching values are paired. -/
theorem cells (h : v.Matches β v') : Forall₂ β v.cells v'.cells := by
  obtain ⟨d, a⟩ := v
  obtain ⟨d', a'⟩ := v'
  obtain ⟨datum, -⟩ := h
  simp only [Value.cells] at datum ⊢
  cases datum with
  | scalar none =>
    rw [none]
    exact .nil
  | _ p => exact .cons p .nil

/-- The containers of matching values are paired. -/
theorem containers (h : v.Matches β v') : Forall₂ β v.containers v'.containers := by
  obtain ⟨d, a⟩ := v
  obtain ⟨d', a'⟩ := v'
  obtain ⟨datum, -⟩ := h
  simp only [Value.containers, Value.cells] at datum ⊢
  cases datum with
  | scalar none =>
    rw [none]
    exact .nil
  | list p | array p | dict p | set p => exact .cons p .nil
  | @callable k p =>
    cases k with
    | _ => exact .nil
  | _ p => exact .nil

theorem paired (h : v.Matches β v') (hc : c ∈ v.cells) : ∃ c', β c c' := by
  obtain ⟨c', -, p⟩ := exists_of_mem_left h.cells hc
  exact ⟨c', p⟩

theorem paired_right (h : v.Matches β v') (hc : c' ∈ v'.cells) : ∃ c, β c c' := by
  obtain ⟨c, -, p⟩ := exists_of_mem_right h.cells hc
  exact ⟨c, p⟩

end Value.Matches

end Values

/-! ## Matching worlds -/

/-- Two worlds in which the scopes in `P` have matching variables and paired cells have matching
contents.  Everything else that both have in common is the same, and no paired cell is lost. -/
structure World.Matches (P : ScopeId → Prop) (lost : Cell → Prop) (β : Pairing) (w w' : World) :
    Prop where
  there : ∀ {c c'}, β c c' → c.In w.count ∧ c'.In w'.count
  kind : ∀ {c c'}, β c c' → c'.kind = c.kind ∧ c.kind ≠ .scope
  single : ∀ {c c' d d'}, β c c' → β d d' → (c = d ↔ c' = d')
  found : ∀ {c c'}, β c c' → ¬ lost c ∧ ¬ lost c'
  values : ∀ {c c'}, β c c' → Forall₂ (Value.Matches β) (w.values c) (w'.values c')
  classId : ∀ {h h' : InstanceId}, β h.cell h'.cell → (w'.inst h').classId = (w.inst h).classId
  scope : ∀ {s}, P s → s.In w.count ∧ s.In w'.count
  outline : ∀ {s}, P s → (w'.scope s).outline = (w.scope s).outline
  bindings : ∀ {s}, P s →
    Forall₂ (VariablesMatch β) (w.scope s).bindings.entries (w'.scope s).bindings.entries
  functions : w'.functions = w.functions
  methods : w'.methods = w.methods
  classes : w'.classes = w.classes
  overloads : w'.overloads = w.overloads
  types : w'.types = w.types
  sealed : w.Sealed lost
  sealed' : w'.Sealed lost

/-- Two worlds that have gone on in the same way from two that match. -/
structure World.Onward (P : ScopeId → Prop) (lost : Cell → Prop) (β : Pairing) (w w' : World)
    (β₁ : Pairing) (w₁ w₁' : World) : Prop where
  after : w₁.Matches P lost β₁ w₁'
  sub : ∀ {c c'}, β c c' → β₁ c c'
  new : ∀ {c c'}, β₁ c c' → β c c' ∨ ¬ c.In w.count ∧ ¬ c'.In w'.count
  left : w.Amends P (fun c => ∃ c', β c c') w₁
  right : w'.Amends P (fun c' => ∃ c, β c c') w₁'

namespace World.Onward

theorem refl (m : w.Matches P lost β w') : Onward P lost β w w' β w w' :=
  ⟨m, id, .inl, .refl w, .refl w'⟩

theorem trans (h : Onward P lost β w w' β₁ w₁ w₁') (i : Onward P lost β₁ w₁ w₁' β₂ w₂ w₂') :
    Onward P lost β w w' β₂ w₂ w₂' where
  after := i.after
  sub p := i.sub (h.sub p)
  new {c c'} p := by
    rcases i.new p with q | ⟨new, new'⟩
    · exact h.new q
    · exact .inr ⟨fun old => new (old.mono h.left.count), fun old => new' (old.mono h.right.count)⟩
  left := by
    refine h.left.trans i.left ?_
    rintro c old ⟨c', p⟩
    rcases h.new p with q | ⟨new, -⟩
    · exact ⟨c', q⟩
    · exact absurd old new
  right := by
    refine h.right.trans i.right ?_
    rintro c' old ⟨c, p⟩
    rcases h.new p with q | ⟨-, new⟩
    · exact ⟨c, q⟩
    · exact absurd old new

end World.Onward

namespace World.Matches

theorem present {v v' : Value} (m : w.Matches P lost β w') (h : v.Matches β v') :
    v.Present lost w ∧ v'.Present lost w' := by
  constructor
  · intro c hc
    obtain ⟨c', p⟩ := h.paired hc
    exact ⟨(m.there p).1, (m.found p).1⟩
  · intro c' hc
    obtain ⟨c, p⟩ := h.paired_right hc
    exact ⟨(m.there p).2, (m.found p).2⟩

theorem present_all {vs vs' : List Value} (m : w.Matches P lost β w')
    (h : Forall₂ (Value.Matches β) vs vs') :
    (∀ v ∈ vs, v.Present lost w) ∧ ∀ v ∈ vs', v.Present lost w' := by
  constructor
  · intro v hv
    obtain ⟨v', -, match_⟩ := exists_of_mem_left h hv
    exact (m.present match_).1
  · intro v' hv
    obtain ⟨v, -, match_⟩ := exists_of_mem_right h hv
    exact (m.present match_).2

/-- The paired cells of one of the worlds, with all containers that they enclose. -/
theorem region (m : w.Matches P lost β w') : w.Region fun c => ∃ c', β c c' where
  there := fun ⟨_, p⟩ => (m.there p).1
  encloses := by
    rintro c d ⟨c', p⟩ ⟨v, hv, hd⟩
    obtain ⟨v', -, match_⟩ := exists_of_mem_left (m.values p) hv
    exact match_.paired (Value.mem_containers.mp hd).1

theorem region' (m : w.Matches P lost β w') : w'.Region fun c' => ∃ c, β c c' where
  there := fun ⟨_, p⟩ => (m.there p).2
  encloses := by
    rintro c' d' ⟨c, p⟩ ⟨v', hv, hd⟩
    obtain ⟨v, -, match_⟩ := exists_of_mem_right (m.values p) hv
    exact match_.paired_right (Value.mem_containers.mp hd).1

/-- Paired containers nest equally deep. -/
theorem nests_iff (m : w.Matches P lost β w') :
    ∀ {n : Nat} {c c' : Cell}, β c c' → (w.Nests n c ↔ w'.Nests n c')
  | 0, _, _, _ => Iff.rfl
  | n + 1, c, c', p => by
    constructor
    · rintro nests d' ⟨v', hv', hd'⟩
      obtain ⟨v, hv, match_⟩ := exists_of_mem_right (m.values p) hv'
      obtain ⟨d, hd, q⟩ := exists_of_mem_right match_.containers hd'
      exact (m.nests_iff q).mp (nests d ⟨v, hv, hd⟩)
    · rintro nests d ⟨v, hv, hd⟩
      obtain ⟨v', hv', match_⟩ := exists_of_mem_left (m.values p) hv
      obtain ⟨d', hd', q⟩ := exists_of_mem_left match_.containers hd
      exact (m.nests_iff q).mpr (nests d' ⟨v', hv', hd'⟩)

theorem nested_iff (m : w.Matches P lost β w') {v v' : Value} (h : v.Matches β v') {n : Nat} :
    v.Nested w n ↔ v'.Nested w' n := by
  constructor
  · intro nested c' hc'
    obtain ⟨c, hc, p⟩ := exists_of_mem_right h.containers hc'
    exact (m.nests_iff p).mp (nested c hc)
  · intro nested c hc
    obtain ⟨c', hc', p⟩ := exists_of_mem_left h.containers hc
    exact (m.nests_iff p).mpr (nested c' hc')

/-- A finite value nests less deep than there are cells in either of the worlds. -/
theorem exists_depth (m : w.Matches P lost β w') {v v' : Value} (h : v.Matches β v')
    (finite : v.Finite w) : ∃ k, k ≤ w.size ∧ k ≤ w'.size ∧ v.Nested w k := by
  have nested : v.Nested w w.size := finite.nested m.region fun c hc =>
    h.paired (Value.mem_containers.mp hc).1
  have finite' : v'.Finite w' := ⟨_, (m.nested_iff h).mp nested⟩
  have nested' : v'.Nested w' w'.size := finite'.nested m.region' fun c hc =>
    h.paired_right (Value.mem_containers.mp hc).1
  rcases Nat.le_total w.size w'.size with le | le
  · exact ⟨w.size, Nat.le_refl _, le, nested⟩
  · exact ⟨w'.size, le, Nat.le_refl _, (m.nested_iff h).mpr nested'⟩

/-- Cells are added that are not paired. -/
theorem grow (m : w.Matches P lost β w') (left : w.Amends Nowhere Nowhere w₁)
    (right : w'.Amends Nowhere Nowhere w₁') (sealed : w₁.Sealed lost) (sealed' : w₁'.Sealed lost) :
    Onward P lost β w w' β w₁ w₁' where
  after :=
    { there := fun p => ⟨(m.there p).1.mono left.count, (m.there p).2.mono right.count⟩
      kind := m.kind
      single := m.single
      found := m.found
      values := fun p => by
        rw [left.all_values (m.there p).1, right.all_values (m.there p).2]
        exact m.values p
      classId := fun p => by
        rw [left.inst (m.there p).1, right.inst (m.there p).2]
        exact m.classId p
      scope := fun p => ⟨(m.scope p).1.mono left.count, (m.scope p).2.mono right.count⟩
      outline := fun p => by
        rw [left.outline (m.scope p).1, right.outline (m.scope p).2]
        exact m.outline p
      bindings := fun p => by
        rw [left.scope (m.scope p).1 id, right.scope (m.scope p).2 id]
        exact m.bindings p
      functions := by rw [left.functions, right.functions, m.functions]
      methods := by rw [left.methods, right.methods, m.methods]
      classes := by rw [left.classes, right.classes, m.classes]
      overloads := by rw [left.overloads, right.overloads, m.overloads]
      types := by rw [left.types, right.types, m.types]
      sealed := sealed
      sealed' := sealed' }
  sub := id
  new := .inl
  left := left.mono (fun _ => False.elim) fun _ => False.elim
  right := right.mono (fun _ => False.elim) fun _ => False.elim

section Pairs

variable (m : w.Matches P lost β w')
  (pair : β c c' ∨ ¬ c.In w.count ∧ ¬ c'.In w'.count)

include m pair

/-- A pair is one of the pairs, or has nothing to do with them. -/
theorem same_iff {a a' : Cell} (p : β a a') : a = c ↔ a' = c' := by
  rcases pair with q | ⟨new, new'⟩
  · exact m.single p q
  · constructor
    · rintro rfl
      exact absurd (m.there p).1 new
    · rintro rfl
      exact absurd (m.there p).2 new'

theorem single_add {a a' d d' : Cell} (p : β.add c c' a a') (q : β.add c c' d d') :
    a = d ↔ a' = d' := by
  rcases p with p | ⟨rfl, rfl⟩
  · rcases q with q | ⟨rfl, rfl⟩
    · exact m.single p q
    · exact m.same_iff pair p
  · rcases q with q | ⟨rfl, rfl⟩
    · exact eq_comm.trans ((m.same_iff pair q).trans eq_comm)
    · exact iff_of_true rfl rfl

theorem found_add {a a' : Cell} (p : β.add c c' a a') : ¬ lost a ∧ ¬ lost a' := by
  rcases p with p | ⟨rfl, rfl⟩
  · exact m.found p
  · rcases pair with q | ⟨new, new'⟩
    · exact m.found q
    · exact ⟨m.sealed.new new, m.sealed'.new new'⟩

omit m in
theorem new_add {a a' : Cell} (p : β.add c c' a a') :
    β a a' ∨ ¬ a.In w.count ∧ ¬ a'.In w'.count := by
  rcases p with p | ⟨rfl, rfl⟩
  · exact .inl p
  · exact pair

end Pairs

/-- Paired or new containers are filled with matching values. -/
theorem fill (m : w.Matches P lost β w') {vs vs' : List Value}
    (pair : β c c' ∨ ¬ c.In w.count ∧ ¬ c'.In w'.count) (kind : c.kind.isContainer = true)
    (same : c'.kind = c.kind) (f : w.Fills c vs w₁) (f' : w'.Fills c' vs' w₁')
    (match_ : Forall₂ (Value.Matches β) vs vs') : Onward P lost β w w' (β.add c c') w₁ w₁' where
  after := by
    have kind' : c'.kind.isContainer = true := same ▸ kind
    have later : ∀ {v v'}, Value.Matches β v v' → Value.Matches (β.add c c') v v' :=
      fun h => h.mono .inl
    have unmade : ∀ {h : InstanceId}, h.cell ≠ c := by
      rintro h rfl
      cases kind
    have scope : ∀ s, w₁.scope s = w.scope s := fun s => by
      rw [World.scope, f.scopes]
      rfl
    have scope' : ∀ s, w₁'.scope s = w'.scope s := fun s => by
      rw [World.scope, f'.scopes]
      rfl
    constructor
    case there =>
      rintro a a' (p | ⟨rfl, rfl⟩)
      · exact ⟨(m.there p).1.mono f.count, (m.there p).2.mono f'.count⟩
      · exact ⟨f.only.mpr (.inr rfl), f'.only.mpr (.inr rfl)⟩
    case kind =>
      rintro a a' (p | ⟨rfl, rfl⟩)
      · exact m.kind p
      · refine ⟨same, fun scope => ?_⟩
        rw [scope] at kind
        cases kind
    case single => exact m.single_add pair
    case found => exact m.found_add pair
    case values =>
      rintro a a' (p | ⟨rfl, rfl⟩)
      · by_cases filled : a = c
        · rw [filled, (m.same_iff pair p).mp filled, f.values, f'.values]
          exact match_.imp fun _ _ => later
        · rw [f.other filled, f'.other fun e => filled ((m.same_iff pair p).mpr e)]
          exact (m.values p).imp fun _ _ => later
      · rw [f.values, f'.values]
        exact match_.imp fun _ _ => later
    case classId =>
      rintro h h' (p | ⟨e, -⟩)
      · rw [World.inst, World.inst, f.instances, f'.instances]
        exact m.classId p
      · exact absurd e unmade
    case scope => exact fun p => ⟨(m.scope p).1.mono f.count, (m.scope p).2.mono f'.count⟩
    case outline =>
      intro s p
      rw [scope, scope']
      exact m.outline p
    case bindings =>
      intro s p
      rw [scope, scope']
      exact (m.bindings p).imp fun _ _ e => ⟨e.1, later e.2.value, e.2.flags, e.2.declared⟩
    case functions => rw [f.functions, f'.functions, m.functions]
    case methods => rw [f.methods, f'.methods, m.methods]
    case classes => rw [f.classes, f'.classes, m.classes]
    case overloads => rw [f.overloads, f'.overloads, m.overloads]
    case types => rw [f.types, f'.types, m.types]
    case sealed => exact m.sealed.fill f kind (m.present_all match_).1
    case sealed' => exact m.sealed'.fill f' kind' (m.present_all match_).2
  sub := .inl
  new := new_add pair
  left := f.amends (pair.imp (fun p => ⟨c', p⟩) And.left)
  right := f'.amends (pair.imp (fun p => ⟨c, p⟩) And.right)

/-- Two new instances of one class. -/
theorem newInstance (m : w.Matches P lost β w') {x x' : Instance}
    (sealed : (w.newInstance x).2.Sealed lost) (sealed' : (w'.newInstance x').2.Sealed lost)
    (classId : x'.classId = x.classId) :
    Onward P lost β w w' (β.add (w.newInstance x).1.cell (w'.newInstance x').1.cell)
      (w.newInstance x).2 (w'.newInstance x').2 where
  after := by
    have pair : β (w.newInstance x).1.cell (w'.newInstance x').1.cell ∨
        ¬ (w.newInstance x).1.cell.In w.count ∧ ¬ (w'.newInstance x').1.cell.In w'.count :=
      .inr ⟨World.newInstance_new w x, World.newInstance_new w' x'⟩
    have later : ∀ {v v'}, Value.Matches β v v' →
        Value.Matches (β.add (w.newInstance x).1.cell (w'.newInstance x').1.cell) v v' :=
      fun h => h.mono .inl
    have count := (w.spares_newInstance x).count
    have count' := (w'.spares_newInstance x').count
    constructor
    case there =>
      rintro a a' (p | ⟨rfl, rfl⟩)
      · exact ⟨(m.there p).1.mono count, (m.there p).2.mono count'⟩
      · exact ⟨World.newInstance_in w x, World.newInstance_in w' x'⟩
    case kind =>
      rintro a a' (p | ⟨rfl, rfl⟩)
      · exact m.kind p
      · exact ⟨rfl, nofun⟩
    case single => exact m.single_add pair
    case found => exact m.found_add pair
    case values =>
      rintro a a' (p | ⟨rfl, rfl⟩)
      · exact (m.values p).imp fun _ _ => later
      · exact .nil
    case classId =>
      rintro h h' (p | ⟨e, e'⟩)
      · rw [World.inst_newInstance, World.inst_newInstance,
          if_neg (Census.ne_next (h := h) (m.there p).1),
          if_neg (Census.ne_next (h := h') (m.there p).2)]
        exact m.classId p
      · obtain rfl : h = (w.newInstance x).1 := Handle.cell_injective e
        obtain rfl : h' = (w'.newInstance x').1 := Handle.cell_injective e'
        have read : ∀ (v : World) y, (v.newInstance y).2.inst (v.newInstance y).1 = y := fun v y =>
          (v.inst_newInstance y _).trans (if_pos rfl)
        rw [read, read]
        exact classId
    case scope => exact fun p => ⟨(m.scope p).1.mono count, (m.scope p).2.mono count'⟩
    case outline => exact fun p => m.outline p
    case bindings =>
      exact fun p => (m.bindings p).imp fun _ _ e => ⟨e.1, later e.2.value, e.2.flags, e.2.declared⟩
    case functions => exact m.functions
    case methods => exact m.methods
    case classes => exact m.classes
    case overloads => exact m.overloads
    case types => exact m.types
    case sealed => exact sealed
    case sealed' => exact sealed'
  sub := .inl
  new := new_add (.inr ⟨World.newInstance_new w x, World.newInstance_new w' x'⟩)
  left := ((w.spares_newInstance x).amends rfl rfl).mono (fun _ => False.elim) fun _ => False.elim
  right := ((w'.spares_newInstance x').amends rfl rfl).mono (fun _ => False.elim) fun _ => False.elim

/-- A variable of matching tables is set to matching values. -/
theorem variablesMatch_put (name : String) {b b' : Binding} (h : b.Matches β b')
    {es es' : List (String × Binding)} (entries : Forall₂ (VariablesMatch β) es es') :
    Forall₂ (VariablesMatch β) (Table.put name b es) (Table.put name b' es') := by
  induction entries with
  | nil => exact .cons ⟨rfl, h⟩ .nil
  | @cons e e' rest rest' first others ih =>
    obtain ⟨key, c⟩ := e
    obtain ⟨key', c'⟩ := e'
    obtain rfl : key' = key := first.1
    rw [Table.put, Table.put]
    split
    · exact .cons ⟨rfl, h⟩ others
    · exact .cons first ih

/-- Variables of matching tables have matching values, at hand in both worlds. -/
theorem present_bindings (m : w.Matches P lost β w') {t t' : Table Binding}
    (entries : Forall₂ (VariablesMatch β) t.entries t'.entries) :
    (∀ b ∈ t.values, b.value.Present lost w) ∧ ∀ b ∈ t'.values, b.value.Present lost w' := by
  constructor
  · intro b hb
    obtain ⟨e, he, rfl⟩ := List.mem_map.mp hb
    obtain ⟨e', -, match_⟩ := exists_of_mem_left entries he
    exact (m.present match_.2.value).1
  · intro b hb
    obtain ⟨e', he, rfl⟩ := List.mem_map.mp hb
    obtain ⟨e, -, match_⟩ := exists_of_mem_right entries he
    exact (m.present match_.2.value).2

/-- A variable of a scope in `P` is set to matching values. -/
theorem setVariable (m : w.Matches P lost β w') {s : ScopeId} (hs : P s) {name : String}
    {b b' : Binding} (h : b.Matches β b') :
    Onward P lost β w w' β (w.setVariable s name b) (w'.setVariable s name b') := by
  have entries := variablesMatch_put name h (m.bindings hs)
  have present : (∀ x ∈ ((w.scope s).bindings.insert name b).values, x.value.Present lost w) ∧
      ∀ x ∈ ((w'.scope s).bindings.insert name b').values, x.value.Present lost w' :=
    m.present_bindings entries
  refine ⟨?_, id, .inl, amends_setVariable hs, amends_setVariable hs⟩
  constructor
  case there => exact fun p => by simpa only [World.setVariable, World.count_setScope] using m.there p
  case kind => exact m.kind
  case single => exact m.single
  case found => exact m.found
  case values =>
    intro a a' p
    have other : ∀ {v : World} {x : Scope}, (v.setScope s x).values a = v.values a := by
      intro v x
      rw [World.values_setScope, if_neg]
      rintro ⟨rfl, -⟩
      exact (m.kind p).2 rfl
    have other' : ∀ {v : World} {x : Scope}, (v.setScope s x).values a' = v.values a' := by
      intro v x
      rw [World.values_setScope, if_neg]
      rintro ⟨rfl, -⟩
      exact (m.kind p).2 (m.kind p).1.symm
    rw [World.setVariable, World.setVariable, other, other']
    exact m.values p
  case classId => exact m.classId
  case scope => exact fun p => by simpa only [World.setVariable, World.count_setScope] using m.scope p
  case outline =>
    intro t ht
    simp only [World.setVariable, World.scope_setScope]
    by_cases same : t = s
    · subst same
      rw [if_pos ⟨rfl, (m.scope hs).2⟩, if_pos ⟨rfl, (m.scope hs).1⟩]
      exact m.outline ht
    · rw [if_neg fun e => same e.1, if_neg fun e => same e.1]
      exact m.outline ht
  case bindings =>
    intro t ht
    simp only [World.setVariable, World.scope_setScope]
    by_cases same : t = s
    · subst same
      rw [if_pos ⟨rfl, (m.scope hs).1⟩, if_pos ⟨rfl, (m.scope hs).2⟩]
      exact entries
    · rw [if_neg fun e => same e.1, if_neg fun e => same e.1]
      exact m.bindings ht
  case functions => exact m.functions
  case methods => exact m.methods
  case classes => exact m.classes
  case overloads => exact m.overloads
  case types => exact m.types
  case sealed => exact m.sealed.setScope rfl present.1
  case sealed' => exact m.sealed'.setScope rfl present.2

end World.Matches

end ScopeLang
