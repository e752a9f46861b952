/-
# Worlds in which the same is alive

A scope sees the aliases of its parents as long as these are alive, so what it
sees depends on what is owned, far away from it.  A world `Upholds` an earlier
one if nothing that was alive has lost an owner, and nothing that was gone has
found one.  For the second it is enough that what is not gone owns nothing that
is: cells are made from what is at hand, and that is not gone.

Entering a call upholds the world, and so does defining a function or a method.
Scopes and copies are made, types are added, a cell is registered in a table
and held; each of these is one lemma, which says what it may own.
-/
import ScopeLang.Proofs.Parting

namespace ScopeLang

variable {D : Dialect} {w w₁ w₂ : World} {s t : ScopeId} {a c d : Cell}

theorem Scope.cells_derived (x : Scope) (s : ScopeId) (kind : ScopeKind) (label : String)
    (parent : Option ScopeId) : (x.derived s kind label parent).cells = [] :=
  Globals.cells_share x.globals s

/-! ## Tables -/

theorem Table.mem_values_put {α : Type} {name : String} {a b : α} {entries : List (String × α)}
    (h : b ∈ entries.map (·.2)) :
    b ∈ (Table.put name a entries).map (·.2) ∨ entries.lookup name = some b := by
  induction entries with
  | nil => cases h
  | cons e rest ih =>
    obtain ⟨other, x⟩ := e
    by_cases same : name == other
    · simp only [Table.put, same, if_true, List.lookup_cons]
      rcases List.mem_cons.mp h with rfl | h
      · exact .inr rfl
      · exact .inl (List.mem_cons_of_mem _ h)
    · simp only [Table.put, same, Bool.false_eq_true, if_false, List.lookup_cons]
      rcases List.mem_cons.mp h with rfl | h
      · exact .inl List.mem_cons_self
      · exact (ih h).imp_left (List.mem_cons_of_mem _)

/-- The table lists what it listed, and the new overload. -/
theorem FunctionTable.mem_cells_append {f : FunctionTable} {name : String} {o : Overload} :
    c ∈ FunctionTable.cells (Table.append f name o) ↔
      c = o.callable.cell ∨ c ∈ FunctionTable.cells f := by
  simp only [FunctionTable.mem_cells]
  constructor
  · rintro ⟨p, listed, rfl⟩
    rcases FunctionTable.lists_append listed with rfl | old
    · exact .inl rfl
    · exact .inr ⟨p, old, rfl⟩
  · have new : ∀ p ∈ (Table.get? f name).getD [] ++ [o],
        FunctionTable.Lists (Table.append f name o) p := fun p hp =>
      ⟨_, Table.mem_values_of_get? (Table.get?_insert_same f name _), hp⟩
    rintro (rfl | ⟨p, ⟨os, hos, hp⟩, rfl⟩)
    · exact ⟨o, new o (List.mem_append_right _ (List.mem_singleton_self o)), rfl⟩
    · rcases Table.mem_values_put hos with kept | replaced
      · exact ⟨p, ⟨os, kept, hp⟩, rfl⟩
      · refine ⟨p, new p (List.mem_append_left _ ?_), rfl⟩
        rw [Table.get?, replaced]
        exact hp

/-! ## Only types and methods -/

namespace World

/-- Nothing but types and methods is changed or added. -/
structure Aside (w w₁ : World) : Prop where
  count : w.count ≤ w₁.count
  scopes : w₁.scopes = w.scopes
  lists : w₁.lists = w.lists
  dicts : w₁.dicts = w.dicts
  sets : w₁.sets = w.sets
  instances : w₁.instances = w.instances
  functions : w₁.functions = w.functions
  classes : w₁.classes = w.classes
  overloads : w₁.overloads = w.overloads
  held : w₁.held = w.held

namespace Aside

theorem refl (w : World) : w.Aside w := ⟨le_refl _, rfl, rfl, rfl, rfl, rfl, rfl, rfl, rfl, rfl⟩

theorem trans (h : w.Aside w₁) (i : w₁.Aside w₂) : w.Aside w₂ where
  count := le_trans h.count i.count
  scopes := i.scopes.trans h.scopes
  lists := i.lists.trans h.lists
  dicts := i.dicts.trans h.dicts
  sets := i.sets.trans h.sets
  instances := i.instances.trans h.instances
  functions := i.functions.trans h.functions
  classes := i.classes.trans h.classes
  overloads := i.overloads.trans h.overloads
  held := i.held.trans h.held

theorem scope_eq (h : w.Aside w₁) (s : ScopeId) : w₁.scope s = w.scope s := by
  rw [scope, h.scopes, scope]

theorem values_eq (h : w.Aside w₁) (c : Cell) : w₁.values c = w.values c := by
  obtain ⟨k, i⟩ := c
  cases k with
  | scope => simp only [values, scope, h.scopes]
  | list => simp only [values, items, h.lists]
  | dict => simp only [values, entries, h.dicts]
  | set => simp only [values, elements, h.sets]
  | _ => rfl

theorem owned_eq (h : w.Aside w₁) (c : Cell) : w₁.owned c = w.owned c :=
  owned_congr h.functions h.classes h.overloads (fun _ => h.scope_eq _) (fun _ => h.values_eq c)
    fun _ => by rw [inst, h.instances, inst]

/-- A cell that owns something has been there. -/
theorem in_of_owned (h : w.Aside w₁) (there : a.In w₁.count) (owned : d ∈ w.owned a) :
    a.In w.count := by
  obtain ⟨k, i⟩ := a
  cases k with
  | method | types => cases owned
  | scope => simpa only [Cell.In, World.count, h.scopes] using there
  | list => simpa only [Cell.In, World.count, h.lists] using there
  | dict => simpa only [Cell.In, World.count, h.dicts] using there
  | set => simpa only [Cell.In, World.count, h.sets] using there
  | object => simpa only [Cell.In, World.count, h.instances] using there
  | function => simpa only [Cell.In, World.count, h.functions] using there
  | classObject => simpa only [Cell.In, World.count, h.classes] using there
  | overloads => simpa only [Cell.In, World.count, h.overloads] using there

theorem sealed {lost : Cell → Prop} (h : w.Aside w₁) (sealed : w.Sealed lost) :
    w₁.Sealed lost where
  old l := (sealed.old l).mono h.count
  owned {a d} there found owned := by
    rw [h.owned_eq] at owned
    exact sealed.owned (h.in_of_owned there owned) found owned
  values hv hd := (sealed.values (h.values_eq _ ▸ hv) hd).mono h.count
  home {i} there := by
    have same : w₁.inst i = w.inst i := by rw [inst, h.instances, inst]
    have old : i.In w.count := by simpa only [Handle.In, World.count, h.instances] using there
    rw [same]
    exact (sealed.home old).mono h.count

theorem setTypeContext (w : World) (h : Handle .types) (t : TypeContext) :
    w.Aside (w.setTypeContext h t) :=
  ⟨le_of_eq (w.count_setTypeContext h t).symm, rfl, rfl, rfl, rfl, rfl, rfl, rfl, rfl, rfl⟩

theorem newTypes (w : World) (t : TypeContext) : w.Aside (w.newTypes t).2 := by
  refine ⟨fun k => ?_, rfl, rfl, rfl, rfl, rfl, rfl, rfl, rfl, rfl⟩
  cases k with
  | types =>
    show w.types.size ≤ (w.types.alloc t).2.size
    rw [Store.size_alloc]
    exact Nat.le_succ _
  | _ => exact le_rfl

theorem newMethod (w : World) (m : Method) : w.Aside (w.newMethod m).2 :=
  ⟨w.count_newMethod m ▸ Census.le_grow _ _, rfl, rfl, rfl, rfl, rfl, rfl, rfl, rfl, rfl⟩

theorem bindType (w : World) (s : ScopeId) (T : Option TypeExpr) : w.Aside (w.bindType s T).2 :=
  setTypeContext w _ _

end Aside

theorem aside_bindParameters (s : ScopeId) : ∀ (ps : List Parameter) (w : World),
    w.Aside (mapState (bindParameter s) ps w).2
  | [], w => .refl w
  | p :: rest, w => (Aside.bindType w s p.type).trans (aside_bindParameters s rest _)

theorem aside_bindProcedure (s : ScopeId) (name : String) (ps : List Parameter)
    (returns : Option TypeExpr) (body : Body) (w : World) :
    w.Aside (bindProcedure s name ps returns body w).2 :=
  (aside_bindParameters s ps w).trans (.bindType _ s returns)

/-! ## Upholding -/

/-- A later world in which what was alive still is, and nothing else that was there; the scopes
that were there have their aliases. -/
structure Upholds (w w₁ : World) : Prop where
  closed : w.Closed
  count : w.count ≤ w₁.count
  held : ∀ {c}, c ∈ w.held → c ∈ w₁.held
  owned : ∀ {a c}, a.In w.count → c ∈ w.owned a → c ∈ w₁.owned a
  gone : ∀ {a c}, w.Gone a → w.Gone c → c ∈ w₁.owned a → c ∈ w.owned a
  sealed : w₁.Sealed w.Gone
  present : ∀ {c}, c ∈ w₁.held → c.In w₁.count ∧ ¬ w.Gone c
  aliases : ∀ {s}, s.In w.count → (w₁.scope s).aliases = (w.scope s).aliases

namespace Upholds

theorem refl (closed : w.Closed) : w.Upholds w where
  closed := closed
  count := le_refl _
  held := id
  owned _ := id
  gone _ _ := id
  sealed := sealed_gone closed
  present mem := ⟨closed.held mem, not_gone_of_held mem⟩
  aliases _ := rfl

/-- What was alive is alive. -/
theorem anchored (h : w.Upholds w₁) (anchored : w.Anchored c) : w₁.Anchored c := by
  have each : ∀ n {c}, w.aliveWithin n c = true → w₁.aliveWithin n c = true := by
    intro n
    induction n with
    | zero => exact fun _ => rfl
    | succ n ih =>
      intro c alive
      rw [aliveWithin_succ] at alive ⊢
      refine alive.imp h.held fun ⟨o, there, owned, up⟩ => ?_
      have there : o.In w.count := there.elim h.closed.held fun owner => (mem_owners.mp owner).2
      have owned := h.owned there owned
      exact ⟨o, .inr (owner_of_owned (there.mono h.count) owned), owned, ih up⟩
  exact fun n => each n (anchored n)

theorem dead (h : w.Upholds w₁) (gone : w.Gone c) : w₁.alive c = false :=
  dead_of_sealed h.count h.sealed h.present h.gone gone

/-- A scope that was there is alive if it was. -/
theorem alive_eq (h : w.Upholds w₁) (there : s.In w.count) :
    w₁.alive s.cell = w.alive s.cell := by
  cases alive : w.alive s.cell with
  | true => exact (h.anchored (anchored_of_alive (owner_of_scope there) alive)).alive
  | false => exact h.dead ⟨there, alive⟩

theorem not_gone (h : w.Upholds w₁) (alive : w₁.alive c = true) : ¬ w.Gone c := fun gone =>
  Bool.false_ne_true ((h.dead gone).symm.trans alive)

/-! ### What upholds a world -/

theorem aside (h : w.Upholds w₁) (i : w₁.Aside w₂) : w.Upholds w₂ where
  closed := h.closed
  count := le_trans h.count i.count
  held mem := i.held ▸ h.held mem
  owned there mem := i.owned_eq _ ▸ h.owned there mem
  gone gone lost mem := h.gone gone lost (i.owned_eq _ ▸ mem)
  sealed := i.sealed h.sealed
  present mem := by
    obtain ⟨there, found⟩ := h.present (i.held ▸ mem)
    exact ⟨there.mono i.count, found⟩
  aliases there := (congrArg Scope.aliases (i.scope_eq _)).trans (h.aliases there)

/-- Values have been copied. -/
theorem copied (h : w.Upholds w₁) (amends : w₁.Amends Nowhere Nowhere w₂)
    (sealed : w₂.Sealed w.Gone) : w.Upholds w₂ := by
  have owned : ∀ {c : Cell}, c.In w.count → w₂.owned c = w₁.owned c := by
    intro c there
    have there := there.mono h.count
    obtain ⟨k, i⟩ := c
    exact owned_congr amends.functions amends.classes amends.overloads
      (fun kind => by subst kind; exact amends.scope (s := ⟨i⟩) there id)
      (fun kind => amends.values there kind id)
      fun kind => by subst kind; exact amends.inst (i := ⟨i⟩) there
  exact
    { closed := h.closed
      count := le_trans h.count amends.count
      held := fun mem => amends.held ▸ h.held mem
      owned := fun there mem => owned there ▸ h.owned there mem
      gone := fun gone lost mem => h.gone gone lost (owned gone.1 ▸ mem)
      sealed
      present := fun mem => by
        obtain ⟨there, found⟩ := h.present (amends.held ▸ mem)
        exact ⟨there.mono amends.count, found⟩
      aliases := fun there =>
        (congrArg Scope.aliases (amends.scope (there.mono h.count) id)).trans (h.aliases there) }

/-- Cells are held that are not gone. -/
theorem hold (h : w.Upholds w₁) {cells : List Cell}
    (present : ∀ c ∈ cells, c.In w₁.count ∧ ¬ w.Gone c) : w.Upholds (w₁.hold cells) where
  closed := h.closed
  count := h.count
  held mem := List.mem_append_right _ (h.held mem)
  owned := h.owned
  gone := h.gone
  sealed := h.sealed.hold
  present mem := (List.mem_append.mp mem).elim (present _) h.present
  aliases := h.aliases

/-- A new scope that owns nothing. -/
theorem newScope (h : w.Upholds w₁) {x : Scope} (bare : x.cells = []) :
    w.Upholds (w₁.newScope x).2 := by
  have none : ∀ d, d ∉ x.cells := fun d hd => List.not_mem_nil (bare ▸ hd)
  refine h.copied ((w₁.spares_newScope x).amends rfl rfl) (h.sealed.newScope ?_ ?_)
  · exact fun d hd => absurd (mem_cells_scope.mpr (.inl hd)) (none d)
  · exact fun b hb d hd => absurd (mem_cells_scope.mpr (.inr ⟨b, hb, hd⟩)) (none d)

/-- A scope is given more cells, none of which is gone. -/
theorem setScope (h : w.Upholds w₁) {x : Scope}
    (kept : t.In w.count → ∀ d ∈ (w₁.scope t).cells, d ∈ x.cells)
    (found : ∀ d ∈ x.cells, d ∈ (w₁.scope t).cells ∨ ¬ w.Gone d)
    (there : ∀ b ∈ x.bindings.values, ∀ d ∈ b.value.cells, d.In w₁.count)
    (aliases : t.In w.count → x.aliases = (w₁.scope t).aliases) :
    w.Upholds (w₁.setScope t x) := by
  have other : ∀ {a : Cell}, a ≠ t.cell → (w₁.setScope t x).owned a = w₁.owned a := by
    intro a ne
    obtain ⟨k, i⟩ := a
    refine owned_congr rfl rfl rfl (fun kind => ?_) (fun kind => ?_) fun _ => rfl
    · subst kind
      rw [scope_setScope, if_neg fun e => ne (congrArg Handle.cell e.1)]
    · rw [values_setScope, if_neg fun e => ne e.1]
  constructor
  case closed => exact h.closed
  case count => exact w₁.count_setScope t x ▸ h.count
  case held => exact h.held
  case owned =>
    intro a c inside mem
    have mem := h.owned inside mem
    by_cases same : a = t.cell
    · subst same
      have read := w₁.scope_setScope t t x
      rw [if_pos ⟨rfl, inside.mono h.count⟩] at read
      have kept := kept inside c mem
      rw [← read] at kept
      exact kept
    · rwa [other same]
  case gone =>
    intro a c gone lost mem
    refine h.gone gone lost ?_
    by_cases same : a = t.cell
    · subst same
      have read := w₁.scope_setScope t t x
      rw [if_pos ⟨rfl, Cell.In.mono h.count gone.1⟩] at read
      have mem : c ∈ ((w₁.setScope t x).scope t).cells := mem
      rw [read] at mem
      exact (found c mem).resolve_right fun new => new lost
    · rwa [other same] at mem
  case sealed =>
    refine h.sealed.putScope (fun inside live d hd => ?_) there
    rcases found d hd with old | new
    · exact h.sealed.owned (a := t.cell) inside live old
    · exact new
  case present => exact fun mem => w₁.count_setScope t x ▸ h.present mem
  case aliases =>
    intro u inside
    rw [← h.aliases inside, scope_setScope]
    split
    · rename_i same
      obtain ⟨rfl, -⟩ := same
      exact aliases inside
    · rfl

/-- A new scope is given variables and tables with what is not gone. -/
theorem furnish (h : w.Upholds w₁) {x : Scope} (new : ¬ t.In w.count)
    (outline : ∀ d ∈ x.outline.cells, ¬ w.Gone d)
    (present : ∀ b ∈ x.bindings.values, b.value.Present w.Gone w₁) :
    w.Upholds (w₁.setScope t x) := by
  refine h.setScope (fun old => absurd old new) (fun d hd => .inr ?_)
    (fun b hb d hd => (present b hb d hd).1) fun old => absurd old new
  rcases mem_cells_scope.mp hd with mem | ⟨b, hb, hd⟩
  · exact outline d mem
  · exact (present b hb d hd).2

/-- A scope is linked to others that it does not own. -/
theorem relink (h : w.Upholds w₁) {x : Scope} (cells : x.cells = (w₁.scope t).cells)
    (bindings : x.bindings = (w₁.scope t).bindings) (aliases : x.aliases = (w₁.scope t).aliases) :
    w.Upholds (w₁.setScope t x) := by
  refine h.setScope (fun _ d hd => cells ▸ hd) (fun d hd => .inl (cells ▸ hd)) (fun b hb d hd => ?_)
    fun _ => aliases
  exact h.sealed.values (a := t.cell) (List.mem_map_of_mem (bindings ▸ hb)) hd

/-- A new cell that owns none that is gone. -/
theorem newOwner (h : w.Upholds w₁) {k : CellKind} (grown : w₂.count = w₁.count.grow k)
    (other : ∀ {a : Cell}, a ≠ ⟨k, w₁.count k⟩ → w₂.owned a = w₁.owned a)
    (found : ∀ d ∈ w₂.owned ⟨k, w₁.count k⟩, ¬ w.Gone d)
    (values : ∀ c, w₂.values c = w₁.values c) (scopes : w₂.scopes = w₁.scopes)
    (instances : w₂.instances = w₁.instances) (held : w₂.held = w₁.held) : w.Upholds w₂ := by
  have count : w₁.count ≤ w₂.count := grown ▸ Census.le_grow _ _
  have old : ∀ {a : Cell}, a.In w.count → a ≠ ⟨k, w₁.count k⟩ := by
    rintro a inside rfl
    exact absurd (inside.mono h.count) (Nat.lt_irrefl _)
  constructor
  case closed => exact h.closed
  case count => exact le_trans h.count count
  case held => exact fun mem => held ▸ h.held mem
  case owned => exact fun inside mem => other (old inside) ▸ h.owned inside mem
  case gone => exact fun gone lost mem => h.gone gone lost (other (old gone.1) ▸ mem)
  case sealed =>
    constructor
    case old => exact fun l => (h.sealed.old l).mono count
    case owned =>
      intro a d inside kept mem
      by_cases made : a = ⟨k, w₁.count k⟩
      · exact found d (made ▸ mem)
      · rw [other made] at mem
        rw [grown, Census.in_grow] at inside
        exact h.sealed.owned (inside.resolve_right made) kept mem
    case values => exact fun hv hd => (h.sealed.values (values _ ▸ hv) hd).mono count
    case home =>
      intro i inside
      have same : w₂.inst i = w₁.inst i := by rw [inst, instances, inst]
      have there : i.In w₁.count := by
        simpa only [Handle.In, World.count, instances] using inside
      rw [same]
      exact (h.sealed.home there).mono count
  case present =>
    intro c mem
    obtain ⟨inside, found⟩ := h.present (held ▸ mem)
    exact ⟨inside.mono count, found⟩
  case aliases =>
    intro s there
    rw [scope, scopes]
    exact h.aliases there

/-- A new function that captures a scope which is not gone. -/
theorem newFunction (h : w.Upholds w₁) {f : Function} (found : ∀ d ∈ f.cells, ¬ w.Gone d) :
    w.Upholds (w₁.newFunction f).2 := by
  refine h.newOwner (w₁.count_newFunction f) (fun {a} ne => ?_) (fun d hd => found d ?_)
    (fun _ => rfl) rfl rfl rfl
  · obtain ⟨k, i⟩ := a
    cases k with
    | function =>
      have read := w₁.function_newFunction f ⟨i⟩
      rw [if_neg fun e => ne (congrArg (Cell.mk .function) e)] at read
      exact congrArg Function.cells read
    | _ => rfl
  · have read := w₁.function_newFunction f ⟨w₁.count .function⟩
    rw [if_pos rfl] at read
    exact read ▸ hd

/-- A new class whose scopes are not gone. -/
theorem newClass (h : w.Upholds w₁) {x : Class} (found : ∀ d ∈ x.cells, ¬ w.Gone d) :
    w.Upholds (w₁.newClass x).2 := by
  refine h.newOwner (w₁.count_newClass x) (fun {a} ne => ?_) (fun d hd => found d ?_)
    (fun _ => rfl) rfl rfl rfl
  · obtain ⟨k, i⟩ := a
    cases k with
    | classObject =>
      have read := w₁.classOf_newClass x ⟨i⟩
      rw [if_neg fun e => ne (congrArg (Cell.mk .classObject) e)] at read
      exact congrArg Class.cells read
    | _ => rfl
  · have read := w₁.classOf_newClass x ⟨w₁.count .classObject⟩
    rw [if_pos rfl] at read
    exact read ▸ hd

/-- A callable that is not gone is registered. -/
theorem registerFunction (h : w.Upholds w₁) (name : String) {o : Overload}
    (found : ¬ w.Gone o.callable.cell) : w.Upholds (w₁.registerFunction s name o) := by
  have bindings : ∀ {t : ScopeId}, ∀ b ∈ (w₁.scope t).bindings.values, ∀ d ∈ b.value.cells,
      d.In w₁.count := fun {t} b hb d hd =>
    h.sealed.values (a := t.cell) (List.mem_map_of_mem hb) hd
  simp only [World.registerFunction]
  split
  · rename_i root _
    have globals : ∀ d, d ∈ (Globals.owned ((w₁.globalFunctions root).append name o)
        (w₁.globalClasses root)).cells ↔
        d = o.callable.cell ∨ d ∈ (w₁.scope root).globals.cells := by
      intro d
      simp only [Globals.cells, List.mem_append, FunctionTable.mem_cells_append, globalFunctions,
        globalClasses]
      cases (w₁.scope root).globals with
      | owned functions classes => simp only [or_assoc, List.mem_append]
      | shared _ => simp [FunctionTable.cells, ClassTable.cells, Table.values, Table.empty]
    refine h.setScope (fun _ d hd => ?_) (fun d hd => ?_) bindings fun _ => rfl
    · simp only [Scope.cells, List.mem_append, globals] at hd ⊢
      exact hd.imp_right .inr
    · simp only [Scope.cells, List.mem_append, globals] at hd ⊢
      rcases hd with hd | rfl | hd
      · exact .inl (.inl hd)
      · exact .inr found
      · exact .inl (.inr hd)
  · refine h.setScope (fun _ d hd => ?_) (fun d hd => ?_) bindings fun _ => rfl
    · simp only [Scope.cells, List.mem_append, FunctionTable.mem_cells_append] at hd ⊢
      exact hd.imp_left (.imp_left (.imp_right .inr))
    · simp only [Scope.cells, List.mem_append, FunctionTable.mem_cells_append] at hd ⊢
      rcases hd with (((hd | rfl | hd) | hd) | hd)
      · exact .inl (.inl (.inl (.inl hd)))
      · exact .inr found
      · exact .inl (.inl (.inl (.inr hd)))
      · exact .inl (.inl (.inr hd))
      · exact .inl (.inr hd)

/-- A scope that is not gone is listed as a child. -/
theorem addChild (h : w.Upholds w₁) {child : ScopeId} (found : ¬ w.Gone child.cell) :
    w.Upholds (w₁.addChild s child) := by
  have owned := h.relink (t := child) (x := { w₁.scope child with owner := some s }) rfl rfl rfl
  refine owned.setScope (fun _ d hd => ?_) (fun d hd => ?_) (fun b hb d hd => ?_) fun _ => rfl
  · simp only [Scope.cells, List.map_append, List.mem_append] at hd ⊢
    exact hd.imp_left (.imp_left (.imp_left (.imp_left .inl)))
  · simp only [Scope.cells, List.map_append, List.mem_append, List.map_cons, List.map_nil,
      List.mem_singleton] at hd ⊢
    rcases hd with ((((hd | rfl) | hd) | hd) | hd) | hd
    · exact .inl (.inl (.inl (.inl (.inl hd))))
    · exact .inr found
    · exact .inl (.inl (.inl (.inl (.inr hd))))
    · exact .inl (.inl (.inl (.inr hd)))
    · exact .inl (.inl (.inr hd))
    · exact .inl (.inr hd)
  · exact owned.sealed.values (a := s.cell) (List.mem_map_of_mem hb) hd

/-- A call is entered. -/
theorem enter (h : w.Upholds w₁) {caller parent x : ScopeId} {kind : ScopeKind} {label : String}
    (run : (Action.enter caller parent kind label).runIn w₁ = (.ok x, w₂)) : w.Upholds w₂ := by
  have made : w.Upholds (w₁.makeCallScope parent kind label).2 :=
    h.newScope (Scope.cells_derived _ _ _ _ _)
  have new : ¬ (w₁.makeCallScope parent kind label).1.In w.count := fun inside =>
    w₁.derive_new _ _ _ _ (inside.mono h.count)
  rw [Action.enter, runIn_change_bind] at run
  generalize w₁.makeCallScope parent kind label = m at made new run
  have called : w.Upholds (m.2.setCaller m.1 caller) := made.relink rfl rfl rfl
  rw [runIn_modify_bind, Action.appendChild, bind_assoc, runIn_look_bind] at run
  by_cases ring : ((m.2.setCaller m.1 caller).ownerChain caller).contains m.1 = true
  · rw [if_pos ring] at run
    cases run
  · rw [if_neg ring] at run
    obtain ⟨rfl, rfl⟩ : m.1 = x ∧ (m.2.setCaller m.1 caller).addChild caller m.1 = w₂ := by
      have both := Prod.mk.inj run
      exact ⟨Except.ok.inj both.1, both.2⟩
    exact called.addChild fun gone => new gone.1

/-! ### Captures -/

/-- Copies of variables that are in sight of a scope which is not gone. -/
theorem captureVariables (h : w.Upholds w₁)
    (older : ∀ {u p}, (w₁.scope u).parent = some p → p.index < u.index) (there : s.In w₁.count)
    (live : ¬ w.Gone s.cell) : ∀ names,
      w₁.Amends Nowhere Nowhere (w₁.captureVariables s names).2 ∧
        (w₁.captureVariables s names).2.Sealed w.Gone ∧
        ∀ b ∈ (w₁.captureVariables s names).1.values,
          b.value.Present w.Gone (w₁.captureVariables s names).2
  | [] => ⟨.refl w₁, h.sealed, fun _ hb => absurd hb List.not_mem_nil⟩
  | name :: rest => by
    have captured := captureVariables h older there live rest
    simp only [World.captureVariables]
    generalize w₁.captureVariables s rest = made at captured ⊢
    obtain ⟨table, w₂⟩ := made
    obtain ⟨amends, sealed, present⟩ := captured
    have upholds : w.Upholds w₂ := h.copied amends sealed
    cases found : w₂.binding? s name with
    | none => exact ⟨amends, sealed, present⟩
    | some b =>
      -- the scopes in sight are there and alive
      obtain ⟨t, mem, here⟩ := World.localBinding?_of_binding? found
      obtain ⟨ht, liveT⟩ : t.In w₁.count ∧ ¬ w.Gone t.cell := by
        refine of_mem_follow (P := fun u => u.In w₁.count ∧ ¬ w.Gone u.cell) ?_ ⟨there, live⟩ mem
        rintro u p ⟨hu, -⟩ next
        obtain ⟨-, parent, alive⟩ := variableParent?_eq_some.mp next
        rw [amends.scope hu id] at parent
        exact ⟨Nat.lt_trans (older parent) hu, upholds.not_gone alive⟩
      have value : b.value.Present w.Gone w₂ :=
        sealed.binding (ht.mono amends.count) liveT (World.mem_values_of_localBinding? here)
      obtain ⟨more, sealed', copy⟩ := guards_deepCopy b.value w₂ sealed value
      refine ⟨amends.also more, sealed', fun b' hb' => ?_⟩
      rcases Table.mem_values_insert hb' with rfl | old
      · exact copy
      · exact (present b' old).mono more.count

end Upholds

end World

/-! ## Definitions -/

/-- A definition captures a new scope. -/
theorem World.functionDefScope_new (w : World) (s : ScopeId) (f : FunctionDecl) :
    ¬ (w.functionDefScope s f).1.In w.count := by
  simp only [functionDefScope]
  split
  · exact w.derive_new s .isolated f.name none
  · exact w.derive_new s .detached f.name (some s)

namespace World.WellFormed

variable (formed : w.WellFormed) (hs : s.In w.count) (alive : w.alive s.cell = true)

include formed

/-- A scope that is derived is newer than its parent, too. -/
theorem older_derive (s : ScopeId) (kind : ScopeKind) (label : String) {parent : Option ScopeId}
    (older : ∀ p, parent = some p → p.In w.count) {u p : ScopeId}
    (link : ((w.derive s kind label parent).2.scope u).parent = some p) : p.index < u.index := by
  rw [World.derive_eq, World.scope_newScope] at link
  split at link
  · rename_i new
    exact (older p link).trans_eq new.symm
  · exact formed.older link

include hs alive

/-- Copies of variables that are to be put into a new scope. -/
theorem upholds_captures (kind : ScopeKind) (label : String) {parent : Option ScopeId}
    (older : ∀ p, parent = some p → p.In w.count) (names : List String) :
    (w.derive s kind label parent).2.Amends Nowhere Nowhere
        ((w.derive s kind label parent).2.captureVariables s names).2 ∧
      w.Upholds ((w.derive s kind label parent).2.captureVariables s names).2 ∧
        ∀ b ∈ ((w.derive s kind label parent).2.captureVariables s names).1.values,
          b.value.Present w.Gone ((w.derive s kind label parent).2.captureVariables s names).2 := by
  have live : ¬ w.Gone s.cell := not_gone_of_alive alive
  have made : w.Upholds (w.derive s kind label parent).2 :=
    (World.Upholds.refl formed.toClosed).newScope (Scope.cells_derived _ _ _ _ _)
  obtain ⟨amends, sealed, present⟩ := made.captureVariables
    (formed.older_derive s kind label older) (hs.mono made.count) live names
  exact ⟨amends, made.copied amends sealed, present⟩

theorem upholds_detachAs (kind : ScopeKind) (names : List String) (label : String) :
    w.Upholds (w.detachAs s kind names label).2 := by
  have older : ∀ p, some s = some p → p.In w.count := fun p hp => Option.some.inj hp ▸ hs
  have new := w.derive_new s kind label (some s)
  obtain ⟨amends, upholds, present⟩ := formed.upholds_captures hs alive kind label older names
  have fresh := (amends.scope (w.derive_in s kind label (some s)) id).trans
    (w.scope_derive s kind label (some s))
  simp only [World.detachAs_eq]
  generalize w.derive s kind label (some s) = derived at new fresh upholds present ⊢
  generalize derived.2.captureVariables s names = copied at fresh upholds present ⊢
  refine upholds.furnish new (fun d hd => ?_) present
  have none : d ∈ ((w.scope s).derived s kind label (some s)).cells := by
    rw [← fresh]
    exact mem_cells_scope.mpr (.inl hd)
  rw [Scope.cells_derived] at none
  cases none

/-- The tables of an isolated scope are those of a scope that is not gone. -/
theorem upholds_isolate (names : List String) (label : String) :
    w.Upholds (w.isolate s names label).2 := by
  have older : ∀ p, (none : Option ScopeId) = some p → p.In w.count := fun p hp => absurd hp nofun
  have new := w.derive_new s .isolated label none
  have grown : w.Grows (w.derive s .isolated label none).2 := w.grows_derive _ _ _ _
  obtain ⟨amends, upholds, present⟩ := formed.upholds_captures hs alive .isolated label older names
  have fresh := (amends.scope (w.derive_in s .isolated label none) id).trans
    (w.scope_derive s .isolated label none)
  have there : s.In ((w.derive s .isolated label none).2.captureVariables s names).2.count :=
    (hs.mono grown.count).mono amends.count
  simp only [World.isolate_eq]
  generalize w.derive s .isolated label none = derived at new fresh there upholds present ⊢
  generalize derived.2.captureVariables s names = copied at fresh there upholds present ⊢
  have live : ¬ w.Gone s.cell := not_gone_of_alive alive
  have source : ∀ d ∈ (copied.2.scope s).cells, ¬ w.Gone d := fun d hd =>
    upholds.sealed.owned (a := s.cell) there live hd
  refine upholds.furnish new (fun d hd => source d ?_) present
  simp only [Scope.outline, fresh, Scope.cells, Scope.derived, Globals.cells_share, List.map_nil,
    List.nil_append, List.append_nil, List.mem_append, Table.values, Table.empty,
    List.flatMap_nil] at hd
  simp only [Scope.cells, List.mem_append]
  exact .inl (hd.imp_left .inr)

end World.WellFormed

namespace Sound

variable (sound : Sound D w) (hs : s.In w.count) (alive : w.alive s.cell = true)

include sound hs alive

theorem upholds_functionDefScope (f : FunctionDecl) : w.Upholds (w.functionDefScope s f).2 := by
  simp only [World.functionDefScope]
  split
  · exact sound.wellFormed.upholds_isolate hs alive [] f.name
  · exact sound.wellFormed.upholds_detachAs hs alive .detached f.freeNames f.name

theorem upholds_defineFunction (f : FunctionDecl) : w.Upholds (w.defineFunction s f) := by
  have captures := sound.upholds_functionDefScope hs alive f
  have new := w.functionDefScope_new s f
  simp only [World.defineFunction]
  generalize w.functionDefScope s f = captured at captures new ⊢
  have bound := captures.aside
    (World.aside_bindProcedure s f.name f.parameters f.returns (.user f.body) captured.2)
  generalize bindProcedure s f.name f.parameters f.returns (.user f.body) captured.2 = p at bound ⊢
  have made : w.Upholds (p.2.newFunction ⟨p.1, some captured.1⟩).2 := by
    refine bound.newFunction fun d hd gone => ?_
    obtain rfl : d = captured.1.cell := List.mem_singleton.mp hd
    exact new gone.1
  exact made.registerFunction f.name fun gone =>
    Census.not_in_next p.2.count .function (Cell.In.mono bound.count gone.1)

/-- A new class is opened in two new scopes. -/
theorem upholds_openClass (d : ClassDecl) (accessor : String) :
    w.Upholds (w.openClass s d accessor).2 ∧ ¬ (w.openClass s d accessor).1.In w.count := by
  have outer : w.Upholds (w.classDefScope s d).2 :=
    sound.wellFormed.upholds_detachAs hs alive .classDef d.freeNames d.name
  have new : ¬ (w.classDefScope s d).1.In w.count := w.derive_new s .classDef d.name (some s)
  simp only [World.openClass]
  generalize w.classDefScope s d = captured at outer new ⊢
  have made : w.Upholds (captured.2.classScope captured.1 d.name).2 :=
    outer.newScope (Scope.cells_derived (captured.2.scope captured.1) _ _ _ _)
  have fresh : ¬ (captured.2.classScope captured.1 d.name).1.In w.count := fun inside =>
    captured.2.derive_new captured.1 .classScope d.name (some captured.1) (inside.mono outer.count)
  generalize captured.2.classScope captured.1 d.name = home at made fresh ⊢
  have typed : w.Upholds (home.2.declareType s d.name).2 := made.aside (.setTypeContext _ _ _)
  refine ⟨typed.newClass fun c hc gone => ?_, fun inside =>
    Census.not_in_next _ .classObject (inside.mono typed.count)⟩
  rcases List.mem_cons.mp hc with rfl | hc
  · exact fresh gone.1
  · obtain rfl : c = captured.1.cell := List.mem_singleton.mp hc
    exact new gone.1

omit hs alive in
theorem upholds_defineMethod (k : ClassId) (f : FunctionDecl) : w.Upholds (w.defineMethod k f) := by
  simp only [World.defineMethod]
  generalize stripBlock (w.classOf k).accessor f.body = body
  have bound := (World.Upholds.refl sound.wellFormed.toClosed).aside
    (World.aside_bindProcedure (w.classOf k).scope f.name f.parameters f.returns (.user body) w)
  generalize bindProcedure (w.classOf k).scope f.name f.parameters f.returns (.user body) w = p
    at bound ⊢
  exact (bound.aside (.newMethod p.2 ⟨p.1, k⟩)).registerFunction f.name fun gone =>
    Census.not_in_next p.2.count .method (Cell.In.mono bound.count gone.1)

end Sound

end ScopeLang
