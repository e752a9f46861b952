/-
# Classes in the making

A class is made before its body is run and registered after it.  In between only the
body runs in the scope of the class, and nothing that it could get hold of is the
class: no value and no table has it, and no instance belongs to it
(`World.Discreet`).  So the scope of a class is given new variables only while there
are no instances of the class, and every instance that is made later, or copied
from another one, has a variable for each member that is not static
(`World.Furnished`).

Neither half could be shown on its own.  A world that has both is `Tended`, and
there is one lemma for each way in which the evaluator writes to it.
-/
import ScopeLang.Proofs.Activations
import ScopeLang.Proofs.Upholding

namespace ScopeLang

/-- The classes whose bodies are being run. -/
abbrev Making := ClassId → Prop

variable {Z : Making} {w w₁ w₂ : World} {s t : ScopeId} {c : ClassId} {v : Value}

/-! ## Public cells -/

/-- A cell that is there and is no class in the making. -/
def Cell.Public (Z : Making) (n : Census) (c : Cell) : Prop :=
  c.In n ∧ ∀ z : ClassId, c = z.cell → ¬ Z z

/-- A value that stands for public cells. -/
def Value.Public (Z : Making) (n : Census) (v : Value) : Prop := ∀ c ∈ v.cells, c.Public Z n

section Public

variable {n n' : Census} {d : Cell}

theorem Cell.Public.mono (le : n ≤ n') (h : d.Public Z n) : d.Public Z n' := ⟨h.1.mono le, h.2⟩

theorem Cell.Public.weaken {Z' : Making} (h : d.Public Z n) (fewer : ∀ z, Z' z → Z z) :
    d.Public Z' n := ⟨h.1, fun z same hz => h.2 z same (fewer z hz)⟩

theorem Cell.public_of_kind (there : d.In n) (kind : d.kind ≠ .classObject) : d.Public Z n :=
  ⟨there, fun _ same => absurd (congrArg Cell.kind same) kind⟩

theorem Value.Public.mono (le : n ≤ n') (h : v.Public Z n) : v.Public Z n' := fun c hc =>
  (h c hc).mono le

theorem Value.public_of_cells (cells : v.cells = []) : v.Public Z n := fun c hc => by
  rw [cells] at hc
  exact absurd hc List.not_mem_nil

theorem Value.Plain.public (h : v.Plain) : v.Public Z n := Value.public_of_cells h.cells

theorem Value.public_null : Value.null.Public Z n := Value.public_of_cells rfl

/-- A value that stands for one cell. -/
theorem Value.public_of_cell (cells : v.cells = [d]) (h : d.Public Z n) : v.Public Z n :=
  fun c hc => by
    rw [cells, List.mem_singleton] at hc
    exact hc ▸ h

/-- A value that stands for a container or an instance. -/
theorem Value.public_of_kind (cells : v.cells = [d]) (there : d.In n)
    (kind : d.kind ≠ .classObject) : v.Public Z n :=
  Value.public_of_cell cells (Cell.public_of_kind there kind)

end Public

/-! ## Tended worlds -/

/-- The classes that a root registers. -/
def Globals.classes : Globals → ClassTable
  | .owned _ classes => classes
  | .shared _ => .empty

/-- A class that is registered in a scope, or in its globals. -/
def Scope.Registers (x : Scope) (c : ClassId) : Prop :=
  c ∈ x.classes.values ∨ c ∈ x.globals.classes.values

/-- Nothing leads to a class in the making. -/
structure World.Discreet (Z : Making) (w : World) : Prop where
  there : ∀ {z}, Z z → z.In w.count
  value : ∀ {a v}, v ∈ w.values a → v.Public Z w.count
  registered : ∀ {s c}, (w.scope s).Registers c → c.cell.Public Z w.count
  classId : ∀ {i}, i.In w.count → (w.inst i).classId.cell.Public Z w.count

/-- Instances have a variable for each member of their class that is not static. -/
structure World.Furnished (w : World) : Prop where
  home : ∀ {i}, i.In w.count → (w.inst i).scope.In w.count
  homeKind : ∀ {i}, i.In w.count → (w.scope (w.inst i).scope).kind = .members
  classScope : ∀ {c}, c.In w.count → (w.classOf c).scope.In w.count
  classKind : ∀ {c}, c.In w.count → (w.scope (w.classOf c).scope).kind = .classScope
  /-- No two classes have the same scope. -/
  apart : ∀ {c c'}, c.In w.count → c'.In w.count →
    (w.classOf c).scope = (w.classOf c').scope → c = c'
  members : ∀ {i name b}, i.In w.count →
    w.localBinding? (w.classOf (w.inst i).classId).scope name = some b →
      b.flags.isStatic = false → w.hasLocalVariable (w.inst i).scope name = true

/-- A world in which classes in the making are kept to themselves. -/
structure World.Tended (Z : Making) (w : World) : Prop
    extends w.Discreet Z, w.Furnished

namespace World.Tended

/-- The class of an instance is there. -/
theorem classThere (h : w.Tended Z) {i : InstanceId} (hi : i.In w.count) :
    (w.inst i).classId.In w.count := (h.classId hi).1

/-- The scope of a class in the making has no instances. -/
theorem unmade (h : w.Tended Z) {z : ClassId} (making : Z z) : w.Unmade (w.classOf z).scope := by
  intro i hi same
  have sameClass := h.apart (h.classThere hi) (h.there making) same
  exact (h.classId hi).2 z (congrArg Handle.cell sameClass) making

/-- Only the scopes of classes can have instances. -/
theorem unmade_of_kind (h : w.Tended Z) (kind : (w.scope t).kind ≠ .classScope) : w.Unmade t := by
  rintro i hi rfl
  exact kind (h.classKind (h.classThere hi))

/-- Fewer classes are in the making. -/
theorem weaken {Z' : Making} (h : w.Tended Z) (fewer : ∀ z, Z' z → Z z) : w.Tended Z' :=
  { h.toFurnished with
    there := fun hz => h.there (fewer _ hz)
    value := fun hv c hc => (h.value hv c hc).weaken fewer
    registered := fun hc => (h.registered hc).weaken fewer
    classId := fun hi => (h.classId hi).weaken fewer }

theorem binding (h : w.Tended Z) {b : Binding} (hb : b ∈ (w.scope s).bindings.values) :
    b.value.Public Z w.count :=
  h.value (a := s.cell) (List.mem_map_of_mem hb)

/-! ### Containers, types and callables -/

/-- Scopes, instances and classes are as they were. -/
theorem unmoved (h : w.Tended Z) (count : w.count ≤ w₁.count) (scopes : w₁.scopes = w.scopes)
    (instances : w₁.instances = w.instances) (classes : w₁.classes = w.classes)
    (values : ∀ {a v}, v ∈ w₁.values a → v.Public Z w₁.count) : w₁.Tended Z := by
  have scope : ∀ s, w₁.scope s = w.scope s := fun s => by rw [World.scope, scopes]; rfl
  have inst : ∀ i, w₁.inst i = w.inst i := fun i => by rw [World.inst, instances]; rfl
  have classOf : ∀ c, w₁.classOf c = w.classOf c := fun c => by rw [World.classOf, classes]; rfl
  have oldI : ∀ {i : InstanceId}, i.In w₁.count → i.In w.count := fun hi => by
    simpa only [Handle.In, World.count, instances] using hi
  have oldC : ∀ {c : ClassId}, c.In w₁.count → c.In w.count := fun hc => by
    simpa only [Handle.In, World.count, classes] using hc
  constructor
  case toDiscreet =>
    refine ⟨fun hz => (h.there hz).mono count, values, fun {s c} hc => ?_, fun {i} hi => ?_⟩
    · rw [scope] at hc
      exact (h.registered hc).mono count
    · rw [inst]
      exact (h.classId (oldI hi)).mono count
  case toFurnished =>
    constructor
    case home =>
      intro i hi
      rw [inst]
      exact (h.home (oldI hi)).mono count
    case homeKind =>
      intro i hi
      rw [inst, scope]
      exact h.homeKind (oldI hi)
    case classScope =>
      intro c hc
      rw [classOf]
      exact (h.classScope (oldC hc)).mono count
    case classKind =>
      intro c hc
      rw [classOf, scope]
      exact h.classKind (oldC hc)
    case apart =>
      intro c c' hc hc' same
      rw [classOf, classOf] at same
      exact h.apart (oldC hc) (oldC hc') same
    case members =>
      intro i name b hi
      simp only [World.localBinding?, World.hasLocalVariable, inst, classOf, scope]
      exact h.members (oldI hi)

theorem fill (h : w.Tended Z) {a : Cell} {vs : List Value} (fills : w.Fills a vs w₁)
    (public_ : ∀ v ∈ vs, v.Public Z w.count) : w₁.Tended Z := by
  refine h.unmoved fills.count fills.scopes fills.instances fills.classes fun {d v} hv => ?_
  by_cases filled : d = a
  · rw [filled, fills.values] at hv
    exact (public_ v hv).mono fills.count
  · rw [fills.other filled] at hv
    exact (h.value hv).mono fills.count

theorem aside (h : w.Tended Z) (i : w.Aside w₁) : w₁.Tended Z :=
  h.unmoved i.count i.scopes i.instances i.classes fun hv =>
    (h.value (i.values_eq _ ▸ hv)).mono i.count

theorem setHeld (h : w.Tended Z) (cells : List Cell) :
    ({ w with held := cells } : World).Tended Z :=
  h.unmoved (le_refl _) rfl rfl rfl h.value

theorem newFunction (h : w.Tended Z) (f : Function) : (w.newFunction f).2.Tended Z := by
  have count := (w.grows_newFunction f).count
  exact h.unmoved count rfl rfl rfl fun hv => (h.value hv).mono count

theorem newOverloads (h : w.Tended Z) (o : OverloadSet) : (w.newOverloads o).2.Tended Z := by
  have count := (w.grows_newOverloads o).count
  exact h.unmoved count rfl rfl rfl fun hv => (h.value hv).mono count

/-! ### Scopes -/

/-- A new scope, that of an instance or a class still to be made among others. -/
theorem newScope (h : w.Tended Z) {x : Scope}
    (public_ : ∀ b ∈ x.bindings.values, b.value.Public Z w.count)
    (registers : ∀ c, x.Registers c → c.cell.Public Z w.count) : (w.newScope x).2.Tended Z := by
  have count := (w.grows_newScope x).count
  have old : ∀ {s : ScopeId}, s.In w.count → (w.newScope x).2.scope s = w.scope s := fun hs => by
    rw [scope_newScope, if_neg (Census.ne_next hs)]
  constructor
  case toDiscreet =>
    refine ⟨fun hz => (h.there hz).mono count, fun {a v} hv => ?_, fun {s c} hc => ?_,
      fun hi => (h.classId hi).mono count⟩
    · rw [values_newScope] at hv
      split at hv
      · obtain ⟨b, hb, rfl⟩ := List.mem_map.mp hv
        exact (public_ b hb).mono count
      · exact (h.value hv).mono count
    · rw [scope_newScope] at hc
      split at hc
      · exact (registers c hc).mono count
      · exact (h.registered hc).mono count
  case toFurnished =>
    constructor
    case home => exact fun hi => (h.home hi).mono count
    case homeKind =>
      intro i hi
      exact (congrArg Scope.kind (old (h.home hi))).trans (h.homeKind hi)
    case classScope => exact fun hc => (h.classScope hc).mono count
    case classKind =>
      intro c hc
      exact (congrArg Scope.kind (old (h.classScope hc))).trans (h.classKind hc)
    case apart => exact h.apart
    case members =>
      intro i name b hi found static
      have here : i.In w.count := hi
      have home : (w.newScope x).2.scope (w.inst i).scope = w.scope (w.inst i).scope :=
        old (h.home here)
      have source : (w.newScope x).2.scope (w.classOf (w.inst i).classId).scope =
          w.scope (w.classOf (w.inst i).classId).scope := old (h.classScope (h.classThere here))
      rw [localBinding?] at found
      rw [hasLocalVariable]
      exact (congrArg (fun y : Scope => y.bindings.contains name) home).trans
        (h.members here ((congrArg (fun y : Scope => y.bindings.get? name) source).symm.trans found)
          static)

/-- A scope is written.  It loses no variables, and that of a class with instances is given no
members. -/
theorem setScope (h : w.Tended Z) {x : Scope} (kind : x.kind = (w.scope s).kind)
    (public_ : ∀ b ∈ x.bindings.values, b.value.Public Z w.count)
    (registers : ∀ c, x.Registers c → c.cell.Public Z w.count)
    (bound : ∀ name, w.hasLocalVariable s name = true → x.bindings.contains name = true)
    (members : ¬ w.Unmade s → ∀ name b, x.bindings.get? name = some b → b.flags.isStatic = false →
      ∃ b', w.localBinding? s name = some b' ∧ b'.flags.isStatic = false) :
    (w.setScope s x).Tended Z := by
  have count := w.count_setScope s x
  have kinds : ∀ t, ((w.setScope s x).scope t).kind = (w.scope t).kind := by
    intro t
    rw [scope_setScope]
    split
    · rename_i set
      rw [set.1, kind]
    · rfl
  constructor
  case toDiscreet =>
    refine ⟨fun hz => count ▸ h.there hz, fun {a v} hv => ?_, fun {t c} hc => ?_,
      fun {i} hi => ?_⟩
    · rw [count]
      rw [values_setScope] at hv
      split at hv
      · obtain ⟨b, hb, rfl⟩ := List.mem_map.mp hv
        exact public_ b hb
      · exact h.value hv
    · rw [count]
      rw [scope_setScope] at hc
      split at hc
      · exact registers c hc
      · exact h.registered hc
    · rw [count] at hi ⊢
      exact h.classId hi
  case toFurnished =>
    constructor
    case home =>
      intro i hi
      rw [count] at hi ⊢
      exact h.home hi
    case homeKind =>
      intro i hi
      rw [count] at hi
      exact (kinds _).trans (h.homeKind hi)
    case classScope =>
      intro c hc
      rw [count] at hc ⊢
      exact h.classScope hc
    case classKind =>
      intro c hc
      rw [count] at hc
      exact (kinds _).trans (h.classKind hc)
    case apart =>
      intro c c' hc hc'
      rw [count] at hc hc'
      exact h.apart hc hc'
    case members =>
      intro i name b hi found static
      rw [count] at hi
      -- the member has been there before the scope was written
      obtain ⟨b', before, static'⟩ : ∃ b',
          w.localBinding? (w.classOf (w.inst i).classId).scope name = some b' ∧
            b'.flags.isStatic = false := by
        simp only [localBinding?, scope_setScope] at found
        split at found
        · rename_i set
          have made : ¬ w.Unmade s := fun unmade => unmade i hi set.1
          rw [show (w.classOf (w.inst i).classId).scope = s from set.1]
          exact members made name b found static
        · exact ⟨b, found, static⟩
      have has := h.members hi before static'
      simp only [hasLocalVariable, scope_setScope]
      split
      · rename_i set
        exact bound name (set.1 ▸ has)
      · exact has

/-- A scope keeps its variables and is given other links or tables. -/
theorem relabel (h : w.Tended Z) {x : Scope} (kind : x.kind = (w.scope s).kind)
    (bindings : x.bindings = (w.scope s).bindings)
    (registers : ∀ c, x.Registers c → c.cell.Public Z w.count) : (w.setScope s x).Tended Z := by
  refine h.setScope kind (fun b hb => ?_) registers (fun name has => ?_)
    fun _ name b found static => ?_
  · rw [bindings] at hb
    exact h.binding hb
  · rw [bindings]
    exact has
  · rw [bindings] at found
    exact ⟨b, found, static⟩

/-- A variable is set where there was one with the same flags, or where there are no instances. -/
theorem setVariable (h : w.Tended Z) {name : String} {b : Binding}
    (public_ : b.value.Public Z w.count)
    (may : w.Unmade s ∨ ∃ b', w.localBinding? s name = some b' ∧ b'.flags = b.flags) :
    (w.setVariable s name b).Tended Z := by
  refine h.setScope rfl (fun d hd => ?_) (fun c hc => h.registered hc)
    (fun _ has => Table.contains_insert has) fun made other d found static => ?_
  · rcases Table.mem_values_insert hd with rfl | hd
    · exact public_
    · exact h.binding hd
  · obtain ⟨b', before, same⟩ := may.resolve_left made
    by_cases this : other = name
    · subst this
      rw [Table.get?_insert_same] at found
      obtain rfl := Option.some.inj found
      exact ⟨b', before, same ▸ static⟩
    · rw [Table.get?_insert_other this] at found
      exact ⟨d, found, static⟩

/-! ### Instances and classes -/

/-- A new instance of a class that is not in the making, furnished with the members. -/
theorem newInstance (h : w.Tended Z) {x : Instance} (public_ : x.classId.cell.Public Z w.count)
    (home : x.scope.In w.count) (kind : (w.scope x.scope).kind = .members)
    (members : ∀ name b, w.localBinding? (w.classOf x.classId).scope name = some b →
      b.flags.isStatic = false → w.hasLocalVariable x.scope name = true) :
    (w.newInstance x).2.Tended Z := by
  have count := (w.grows_newInstance x).count
  have inst : ∀ {i : InstanceId}, i.In (w.newInstance x).2.count →
      i.In w.count ∧ (w.newInstance x).2.inst i = w.inst i ∨ (w.newInstance x).2.inst i = x := by
    intro i hi
    rw [count_newInstance] at hi
    rw [inst_newInstance]
    split
    · exact .inr rfl
    · exact .inl ⟨Census.in_of_grow hi ‹_›, rfl⟩
  constructor
  case toDiscreet =>
    refine ⟨fun hz => (h.there hz).mono count, fun hv => (h.value hv).mono count,
      fun hc => (h.registered hc).mono count, fun {i} hi => ?_⟩
    rcases inst hi with ⟨old, same⟩ | same
    · rw [same]
      exact (h.classId old).mono count
    · rw [same]
      exact public_.mono count
  case toFurnished =>
    constructor
    case home =>
      intro i hi
      rcases inst hi with ⟨old, same⟩ | same
      · rw [same]
        exact (h.home old).mono count
      · rw [same]
        exact home.mono count
    case homeKind =>
      intro i hi
      rcases inst hi with ⟨old, same⟩ | same
      · rw [same]
        exact h.homeKind old
      · rw [same]
        exact kind
    case classScope => exact fun hc => (h.classScope hc).mono count
    case classKind => exact h.classKind
    case apart => exact h.apart
    case members =>
      intro i name b hi
      rcases inst hi with ⟨old, same⟩ | same
      · rw [same]
        exact h.members old
      · rw [same]
        exact members name b

/-- A new class is in the making: what there was before does not lead to it. -/
theorem newClass (h : w.Tended Z) {x : Class} (home : x.scope.In w.count)
    (kind : (w.scope x.scope).kind = .classScope)
    (fresh : ∀ c, c.In w.count → (w.classOf c).scope ≠ x.scope) :
    (w.newClass x).2.Tended fun z => Z z ∨ z = (w.newClass x).1 := by
  have count := (w.grows_newClass x).count
  have public_ : ∀ {c : Cell}, c.Public Z w.count →
      c.Public (fun z => Z z ∨ z = (w.newClass x).1) (w.newClass x).2.count := by
    rintro c ⟨there, open_⟩
    refine ⟨there.mono count, fun z same making => ?_⟩
    subst same
    rcases making with making | rfl
    · exact open_ z rfl making
    · exact w.newClass_new x there
  have classOf : ∀ {c : ClassId}, c.In (w.newClass x).2.count →
      c.In w.count ∧ (w.newClass x).2.classOf c = w.classOf c ∨
        c = (w.newClass x).1 ∧ (w.newClass x).2.classOf c = x := by
    intro c hc
    rw [count_newClass] at hc
    rw [classOf_newClass]
    split
    · rename_i new
      exact .inr ⟨congrArg Handle.mk new, rfl⟩
    · exact .inl ⟨Census.in_of_grow hc ‹_›, rfl⟩
  constructor
  case toDiscreet =>
    refine ⟨fun {z} hz => ?_, fun hv c hc => public_ (h.value hv c hc),
      fun hc => public_ (h.registered hc), fun hi => public_ (h.classId hi)⟩
    rcases hz with hz | rfl
    · exact (h.there hz).mono count
    · exact w.newClass_in x
  case toFurnished =>
    constructor
    case home => exact fun hi => (h.home hi).mono count
    case homeKind => exact h.homeKind
    case classScope =>
      intro c hc
      rcases classOf hc with ⟨old, same⟩ | ⟨-, same⟩
      · rw [same]
        exact (h.classScope old).mono count
      · rw [same]
        exact home.mono count
    case classKind =>
      intro c hc
      rcases classOf hc with ⟨old, same⟩ | ⟨-, same⟩
      · rw [same]
        exact h.classKind old
      · rw [same]
        exact kind
    case apart =>
      intro c c' hc hc' same
      rcases classOf hc with ⟨old, e⟩ | ⟨rfl, e⟩
      · rcases classOf hc' with ⟨old', e'⟩ | ⟨rfl, e'⟩
        · rw [e, e'] at same
          exact h.apart old old' same
        · rw [e, e'] at same
          exact absurd same (fresh c old)
      · rcases classOf hc' with ⟨old', e'⟩ | ⟨rfl, -⟩
        · rw [e, e'] at same
          exact absurd same.symm (fresh c' old')
        · rfl
    case members =>
      intro i name b hi
      have there : (w.inst i).classId.In w.count := h.classThere hi
      have same : (w.newClass x).2.classOf (w.inst i).classId = w.classOf (w.inst i).classId :=
        (w.grows_newClass x).classOf there
      have members : w.localBinding? (w.classOf (w.inst i).classId).scope name = some b →
          b.flags.isStatic = false → w.hasLocalVariable (w.inst i).scope name = true := h.members hi
      rw [← same] at members
      exact members

end World.Tended

/-! ## What later worlds have -/

/-- A later world has the scopes of an earlier one, with their kinds, and its classes. -/
structure World.Precedes (w w₁ : World) : Prop where
  count : w.count ≤ w₁.count
  kind : ∀ {s}, s.In w.count → (w₁.scope s).kind = (w.scope s).kind
  classOf : ∀ {c}, c.In w.count → w₁.classOf c = w.classOf c

namespace World.Precedes

theorem refl (w : World) : w.Precedes w := ⟨le_refl _, fun _ => rfl, fun _ => rfl⟩

theorem trans (h : w.Precedes w₁) (i : w₁.Precedes w₂) : w.Precedes w₂ where
  count := le_trans h.count i.count
  kind there := (i.kind (there.mono h.count)).trans (h.kind there)
  classOf there := (i.classOf (there.mono h.count)).trans (h.classOf there)

theorem of_grows (h : w.Grows w₁) : w.Precedes w₁ :=
  ⟨h.count, fun hs => (h.scope hs).kind, h.classOf⟩

theorem of_amends {P : ScopeId → Prop} {mine : Cell → Prop} (h : w.Amends P mine w₁) :
    w.Precedes w₁ where
  count := h.count
  kind hs := by
    have same := congrArg Scope.kind (h.outline hs)
    exact same
  classOf _ := congrArg (Store.get · _) h.classes

/-- Scopes and classes are as they were. -/
theorem unmoved (count : w.count ≤ w₁.count) (scopes : w₁.scopes = w.scopes)
    (classes : w₁.classes = w.classes) : w.Precedes w₁ where
  count := count
  kind {s} _ := congrArg (fun scopes => (Store.get scopes s).kind) scopes
  classOf _ := congrArg (Store.get · _) classes

theorem of_aside (h : w.Aside w₁) : w.Precedes w₁ := unmoved h.count h.scopes h.classes

theorem fill {a : Cell} {vs : List Value} (h : w.Fills a vs w₁) : w.Precedes w₁ :=
  unmoved h.count h.scopes h.classes

theorem setScope {x : Scope} (kind : x.kind = (w.scope s).kind) : w.Precedes (w.setScope s x) where
  count := le_of_eq (w.count_setScope s x).symm
  kind {t} _ := by
    rw [scope_setScope]
    split
    · rename_i set
      rw [set.1, kind]
    · rfl
  classOf _ := rfl

end World.Precedes

/-! ## Copies -/

/-- A way of copying that keeps classes in the making to themselves. -/
def Minds (Z : Making) (copy : Value → World → Value × World) : Prop :=
  ∀ v w, w.Tended Z → v.Public Z w.count →
    w.Amends Nowhere Nowhere (copy v w).2 ∧ (copy v w).2.Tended Z ∧
      (copy v w).1.Public Z (copy v w).2.count

theorem Table.get?_filter {α : Type} {t : Table α} {p : α → Bool} {name : String} {a : α}
    (found : t.get? name = some a) (good : p a = true) : (t.filter p).get? name = some a := by
  obtain ⟨entries⟩ := t
  simp only [get?, filter] at found ⊢
  induction entries with
  | nil => exact found
  | cons e rest ih =>
    obtain ⟨other, b⟩ := e
    rw [List.lookup_cons] at found
    by_cases same : (name == other) = true
    · simp only [same] at found
      obtain rfl := Option.some.inj found
      rw [List.filter_cons, if_pos good, List.lookup_cons, same]
    · simp only [Bool.not_eq_true] at same
      simp only [same] at found
      by_cases keep : p b = true
      · rw [List.filter_cons, if_pos keep, List.lookup_cons, same]
        exact ih found
      · rw [List.filter_cons, if_neg keep]
        exact ih found

/-- Variables whose values have been changed have the names that they had. -/
theorem contains_mapBindings (f : Value → World → Value × World) (t : Table Binding) (w : World)
    (name : String) : (mapBindings f t w).1.contains name = t.contains name := by
  obtain ⟨entries⟩ := t
  simp only [mapBindings, Table.contains, Table.get?]
  induction entries generalizing w with
  | nil => rfl
  | cons e rest ih =>
    obtain ⟨other, b⟩ := e
    simp only [mapState, List.lookup_cons]
    cases name == other with
    | true => rfl
    | false => exact ih _

namespace Minds

variable {copy : Value → World → Value × World}

theorem duplicateBy (h : Minds Z copy) : Minds Z (duplicateBy copy) := by
  intro v w tended public_
  simp only [ScopeLang.duplicateBy]
  split
  · exact ⟨.refl w, tended, public_⟩
  · exact h v w tended public_

theorem values (h : Minds Z copy) (tended : w.Tended Z) {vs : List Value}
    (public_ : ∀ v ∈ vs, v.Public Z w.count) :
    (mapState copy vs w).2.Tended Z ∧
      ∀ v ∈ (mapState copy vs w).1, v.Public Z (mapState copy vs w).2.count :=
  (mapState_kept (I := World.Tended Z) (Q := fun w (v : Value) => v.Public Z w.count)
    (fun _ g p => p.mono g.count) vs
    (fun v hv w₁ g t => h v w₁ t ((public_ v hv).mono g.count)) (.refl w) tended).2

theorem entry (h : Minds Z copy) {e : Value × Value} (tended : w.Tended Z)
    (key : e.1.Public Z w.count) (value : e.2.Public Z w.count) :
    w.Amends Nowhere Nowhere (copyEntry copy e w).2 ∧ (copyEntry copy e w).2.Tended Z ∧
      (copyEntry copy e w).1.1.Public Z (copyEntry copy e w).2.count ∧
        (copyEntry copy e w).1.2.Public Z (copyEntry copy e w).2.count := by
  obtain ⟨g, tended, first⟩ := h e.1 w tended key
  obtain ⟨g', tended, second⟩ := h e.2 _ tended (value.mono g.count)
  exact ⟨g.also g', tended, first.mono g'.count, second⟩

theorem bindings (h : Minds Z copy) (tended : w.Tended Z) {t : Table Binding}
    (public_ : ∀ b ∈ t.values, b.value.Public Z w.count) :
    w.Amends Nowhere Nowhere (mapBindings copy t w).2 ∧ (mapBindings copy t w).2.Tended Z ∧
      ∀ b ∈ (mapBindings copy t w).1.values, b.value.Public Z (mapBindings copy t w).2.count := by
  have made := mapState_kept (I := World.Tended Z)
    (Q := fun w (e : String × Binding) => e.2.value.Public Z w.count)
    (fun _ g p => p.mono g.count) t.entries
    (f := fun e w => ((e.1, { e.2 with value := (copy e.2.value w).1 }), (copy e.2.value w).2))
    (fun e he w₁ g t₁ =>
      h e.2.value w₁ t₁ ((public_ e.2 (List.mem_map_of_mem he)).mono g.count)) (.refl w) tended
  refine ⟨made.1, made.2.1, fun b hb => ?_⟩
  obtain ⟨e, he, rfl⟩ := List.mem_map.mp hb
  exact made.2.2 e he

/-- The copy of an instance has all the members that the instance has. -/
theorem object (h : Minds Z copy) (tended : w.Tended Z) {i : InstanceId} (there : i.In w.count) :
    w.Amends Nowhere Nowhere (duplicateScopeBy copy (w.inst i).scope w).2 ∧
      ((duplicateScopeBy copy (w.inst i).scope w).2.newInstance
        { w.inst i with scope := (duplicateScopeBy copy (w.inst i).scope w).1 }).2.Tended Z := by
  have home := tended.home there
  have homeKind := tended.homeKind there
  obtain ⟨amends, tended₁, public_⟩ := h.duplicateBy.bindings tended fun b hb =>
    tended.binding (s := (w.inst i).scope) hb
  have names := contains_mapBindings (ScopeLang.duplicateBy copy)
    (w.scope (w.inst i).scope).bindings w
  simp only [duplicateScopeBy]
  generalize mapBindings (ScopeLang.duplicateBy copy) (w.scope (w.inst i).scope).bindings w = made
    at amends tended₁ public_ names ⊢
  obtain ⟨bindings, w₁⟩ := made
  have registers : ∀ c, ((w.scope (w.inst i).scope).twin (w.inst i).scope bindings).Registers c →
      c.cell.Public Z w₁.count := by
    intro c hc
    refine (tended.registered (s := (w.inst i).scope) ?_).mono amends.count
    refine hc.imp_right fun hc => ?_
    simp only [Scope.twin] at hc
    cases e : (w.scope (w.inst i).scope).globals with
    | owned | shared =>
      rw [e] at hc
      exact absurd hc List.not_mem_nil
  have tended₂ := tended₁.newScope public_ registers
  have here := w₁.newScope_in ((w.scope (w.inst i).scope).twin (w.inst i).scope bindings)
  have self := Store.get_alloc_new w₁.scopes
    ((w.scope (w.inst i).scope).twin (w.inst i).scope bindings)
  have all := amends.also ((w₁.spares_newScope
    ((w.scope (w.inst i).scope).twin (w.inst i).scope bindings)).amends rfl rfl)
  generalize made : w₁.newScope ((w.scope (w.inst i).scope).twin (w.inst i).scope bindings) = twin
    at tended₂ here all ⊢
  have self : twin.2.scope twin.1 =
      (w.scope (w.inst i).scope).twin (w.inst i).scope bindings := made ▸ self
  refine ⟨all, tended₂.newInstance ((tended.classId there).mono all.count) here
    (self ▸ homeKind) fun name b found static => ?_⟩
  -- the class has the members that it had before
  have class_ := (World.Precedes.of_amends all).classOf (tended.classThere there)
  have source := all.scope (tended.classScope (tended.classThere there)) id
  rw [class_, World.localBinding?, source] at found
  rw [World.hasLocalVariable, self]
  exact (names name).trans (tended.members there found static)

end Minds

/-- Deep copies keep classes in the making to themselves. -/
theorem minds_copyWithin : ∀ n, Minds Z (World.copyWithin n)
  | 0 => fun _ w tended public_ => ⟨.refl w, tended, public_⟩
  | n + 1 => by
    have ih : Minds Z (World.copyWithin n) := minds_copyWithin n
    intro v w tended public_
    refine ⟨World.amends_copyWithin _ v w, ?_⟩
    obtain ⟨d, a⟩ := v
    have inside : ∀ {a : Cell}, ∀ v ∈ w.values a, v.Public Z w.count := fun v hv => tended.value hv
    cases d with
    | list h =>
      obtain ⟨made, good⟩ := ih.values tended (inside (a := h.cell))
      rw [World.copyWithin_list]
      exact ⟨made.fill (World.fills_newItems _ _) good,
        Value.public_of_kind rfl (World.newItems_in _ _) nofun⟩
    | array h =>
      obtain ⟨made, good⟩ := ih.values tended (inside (a := h.cell))
      rw [World.copyWithin_array]
      exact ⟨made.fill (World.fills_newItems _ _) good,
        Value.public_of_kind rfl (World.newItems_in _ _) nofun⟩
    | dict h =>
      have entries := mapState_kept (I := World.Tended Z)
        (Q := fun w (e : Value × Value) => e.1.Public Z w.count ∧ e.2.Public Z w.count)
        (fun _ g p => ⟨p.1.mono g.count, p.2.mono g.count⟩) (w.entries h)
        (f := copyEntry (World.copyWithin n)) (fun e he w₁ g tended₁ => by
          obtain ⟨key, value⟩ := World.mem_values_of_entry he
          exact ih.entry tended₁ ((tended.value key).mono g.count)
            ((tended.value value).mono g.count)) (.refl w) tended
      obtain ⟨-, made, good⟩ := entries
      rw [World.copyWithin_dict]
      refine ⟨made.fill (World.fills_newEntries _ _) fun v hv => ?_,
        Value.public_of_kind rfl (World.newEntries_in _ _) nofun⟩
      obtain ⟨e, he, hv⟩ := List.mem_flatMap.mp hv
      simp only [List.mem_cons, List.not_mem_nil, or_false] at hv
      rcases hv with rfl | rfl
      · exact (good e he).1
      · exact (good e he).2
    | set h =>
      obtain ⟨made, good⟩ := ih.values tended (inside (a := h.cell))
      rw [World.copyWithin_set]
      exact ⟨made.fill (World.fills_newElements _ _) good,
        Value.public_of_kind rfl (World.newElements_in _ _) nofun⟩
    | object h =>
      have there : h.In w.count := (public_ h.cell (List.mem_singleton_self _)).1
      rw [World.copyWithin_object]
      exact ⟨(ih.object tended there).2,
        Value.public_of_kind rfl (World.newInstance_in _ _) nofun⟩
    | _ => exact ⟨tended, public_⟩

theorem minds_duplicate : Minds Z fun v w => w.duplicate v :=
  Minds.duplicateBy fun v w => minds_copyWithin (w.size + 1) v w

/-- A value that is prepared for a variable. -/
theorem Binding.prepare_minds (b : Binding) : Minds Z b.prepare := by
  intro v w tended public_
  simp only [Binding.prepare]
  split
  · exact ⟨.refl w, tended, public_⟩
  · exact minds_duplicate v w tended public_

end ScopeLang
