/-
# What copying does to a world

Copying makes new cells and leaves the old ones alone.  The new containers are
nobody's business, but the new scopes and instances are: each looks like an old
one, with the same kind, the same parent, the same functions, and variables of
the same declarations whose values have the same types.  `Quiet` says this of
two worlds without mentioning a copy, so that it can also be asked of bodies
that the host supplies.

`copyWithin` is by recursion on its depth; the induction carries `Kindred`, which
says of the result that it is sound and of the same type.  What the copies hold is not
compared here but in `Resembles`.
-/
import ScopeLang.Proofs.Sound
import ScopeLang.Proofs.Tables

namespace ScopeLang

/-! ## Values that look alike -/

/-- Two values, each in a world of its own, of the same kind and the same type. -/
structure Value.Alike (w : World) (v : Value) (w' : World) (v' : Value) : Prop where
  kind : v'.kind = v.kind
  type : w'.valueType v' = w.valueType v

/-- Two variables of the same declaration whose values look alike. -/
structure Binding.Alike (w : World) (a : Binding) (w' : World) (b : Binding) : Prop where
  flags : b.flags = a.flags
  declared : b.declared = a.declared
  value : a.value.Alike w w' b.value

/-- A scope that looks like another one: each of its variables looks like one of the other. -/
structure Scope.Alike (w : World) (a : Scope) (w' : World) (b : Scope) : Prop where
  root : a.SameRoot b
  functions : b.functions = a.functions
  bindings : ∀ y ∈ b.bindings.values, ∃ x ∈ a.bindings.values, x.Alike w w' y

namespace Value.Alike

theorem refl (w : World) (v : Value) : v.Alike w w v := ⟨rfl, rfl⟩

theorem trans {w₁ w₂ w₃ : World} {v₁ v₂ v₃ : Value} (h : v₁.Alike w₁ w₂ v₂)
    (i : v₂.Alike w₂ w₃ v₃) : v₁.Alike w₁ w₃ v₃ :=
  ⟨i.kind.trans h.kind, i.type.trans h.type⟩

end Value.Alike

/-- A value keeps its type while the world grows. -/
theorem World.Grows.valueType {D : Dialect} {w w' : World} (g : w.Grows w') (s : Sound D w)
    {v : Value} (ok : v.Ok D w.count) : w'.valueType v = w.valueType v := by
  obtain ⟨d, a⟩ := v
  simp only [World.valueType, World.typeId]
  cases d with
  | object h =>
    have old : h.In w.count := ok.cells h.cell (by simp [Value.cells, Datum.cell?])
    simp only [g.classId old, g.classOf (s.classId old)]
  | _ => rfl

theorem World.Grows.alike {D : Dialect} {w w' : World} (g : w.Grows w') (s : Sound D w)
    {v : Value} (ok : v.Ok D w.count) : v.Alike w w' v :=
  ⟨rfl, g.valueType s ok⟩

/-! ## Quiet changes -/

/-- Scopes, instances and callables are as before, and the new scopes and instances look like
old ones. -/
structure Quiet (w w' : World) : Prop where
  count : w.count ≤ w'.count
  scope : ∀ {s}, s.In w.count → w'.scope s = w.scope s
  copy : ∀ {s}, s.In w'.count → ¬ s.In w.count →
    ∃ t, t.In w.count ∧ (w.scope t).Alike w w' (w'.scope s)
  classId : ∀ {i}, i.In w.count → (w'.inst i).classId = (w.inst i).classId
  home : ∀ {i}, i.In w.count → (w'.inst i).scope = (w.inst i).scope
  /-- A new instance has a new scope, which looks like the one of an old instance. -/
  instance_ : ∀ {i}, i.In w'.count → ¬ i.In w.count → ∃ j, j.In w.count ∧
    (w'.inst i).classId = (w.inst j).classId ∧ ¬ (w'.inst i).scope.In w.count ∧
      (w.scope (w.inst j).scope).Alike w w' (w'.scope (w'.inst i).scope)
  functions : w'.functions = w.functions
  methods : w'.methods = w.methods
  classes : w'.classes = w.classes
  overloads : w'.overloads = w.overloads
  types : w'.types = w.types

namespace Quiet

variable {D : Dialect} {w w₁ w₂ : World}

theorem grows (q : Quiet w w₁) : w.Grows w₁ where
  count := q.count
  scope old := by rw [q.scope old]; exact .refl _
  named old has := by rw [World.hasLocalFunction, q.scope old]; exact has
  bound old has := by rw [World.hasLocalVariable, q.scope old]; exact has
  classId := q.classId
  home := q.home
  function _ := by rw [World.function, q.functions]; rfl
  method _ := by rw [World.method, q.methods]; rfl
  classOf _ := by rw [World.classOf, q.classes]; rfl
  overloads _ := by rw [World.overloadSet, q.overloads]; rfl
  context _ := by simp only [World.typeContext, q.types]; exact ⟨rfl, .refl _⟩

/-- A change of containers and of what is held. -/
theorem of_containers (count : w.count ≤ w₁.count) (scopes : w₁.scopes = w.scopes)
    (instances : w₁.instances = w.instances) (functions : w₁.functions = w.functions)
    (methods : w₁.methods = w.methods) (classes : w₁.classes = w.classes)
    (overloads : w₁.overloads = w.overloads) (types : w₁.types = w.types) : Quiet w w₁ where
  count := count
  scope _ := by rw [World.scope, scopes]; rfl
  copy new old := by
    refine absurd ?_ old
    simpa [Handle.In, World.count, scopes] using new
  classId _ := by rw [World.inst, instances]; rfl
  home _ := by rw [World.inst, instances]; rfl
  instance_ new old := by
    refine absurd ?_ old
    simpa [Handle.In, World.count, instances] using new
  functions := functions
  methods := methods
  classes := classes
  overloads := overloads
  types := types

theorem refl (w : World) : Quiet w w :=
  of_containers (fun _ => Nat.le_refl _) rfl rfl rfl rfl rfl rfl rfl

theorem held (w : World) (cells : List Cell) : Quiet w { w with held := cells } :=
  of_containers (fun _ => Nat.le_refl _) rfl rfl rfl rfl rfl rfl rfl

end Quiet

/-- The value of a variable is one of the values of its scope. -/
theorem SoundAt.binding {D : Dialect} {n : Census} {w : World} (s : SoundAt D n w) {t : ScopeId}
    {b : Binding} (hb : b ∈ (w.scope t).bindings.values) : b.value.Ok D n :=
  s.value (c := t.cell) (List.mem_map_of_mem hb)

/-- The type of a value depends on the instances and the classes only. -/
theorem World.valueType_congr {w w' : World} (instances : w'.instances = w.instances)
    (classes : w'.classes = w.classes) (v : Value) : w'.valueType v = w.valueType v := by
  obtain ⟨d, a⟩ := v
  cases d <;> simp only [World.valueType, World.typeId, World.inst, World.classOf, instances,
    classes]

namespace SoundAt

variable {D : Dialect} {n : Census} {w : World}

theorem item (s : SoundAt D n w) {h : Handle .list} {v : Value} (hv : v ∈ w.items h) : v.Ok D n :=
  s.value (c := h.cell) hv

theorem element (s : SoundAt D n w) {h : Handle .set} {v : Value} (hv : v ∈ w.elements h) :
    v.Ok D n :=
  s.value (c := h.cell) hv

theorem entry (s : SoundAt D n w) {h : Handle .dict} {e : Value × Value} (he : e ∈ w.entries h) :
    e.1.Ok D n ∧ e.2.Ok D n := by
  have mem : ∀ v ∈ [e.1, e.2], v.Ok D n := fun v hv =>
    s.value (c := h.cell) (List.mem_flatMap.mpr ⟨e, he, hv⟩)
  exact ⟨mem e.1 (by simp), mem e.2 (by simp)⟩

end SoundAt

namespace Scope.Alike

variable {D : Dialect} {w w₁ w₂ : World} {a : Scope} {t : ScopeId}

theorem congr {b : Scope} (h : a.Alike w w₁ b) (instances : w₂.instances = w₁.instances)
    (classes : w₂.classes = w₁.classes) : a.Alike w w₂ b where
  root := h.root
  functions := h.functions
  bindings y hy := by
    obtain ⟨x, hx, l⟩ := h.bindings y hy
    refine ⟨x, hx, l.flags, l.declared, l.value.kind, ?_⟩
    rw [World.valueType_congr instances classes]
    exact l.value.type

/-- What looks alike goes on looking alike. -/
theorem later (h : a.Alike w w₁ (w₁.scope t)) (g : w₁.Grows w₂) (s : Sound D w₁) :
    a.Alike w w₂ (w₁.scope t) where
  root := h.root
  functions := h.functions
  bindings y hy := by
    obtain ⟨x, hx, l⟩ := h.bindings y hy
    exact ⟨x, hx, l.flags, l.declared, l.value.trans (g.alike s (s.binding hy))⟩

/-- A copy of a scope as it is now is a copy of the scope as it was. -/
theorem earlier {b : Scope} (h : (w.scope t).Alike w₁ w₂ b) (g : w.Grows w₁) (s : Sound D w) :
    (w.scope t).Alike w w₂ b where
  root := h.root
  functions := h.functions
  bindings y hy := by
    obtain ⟨x, hx, l⟩ := h.bindings y hy
    exact ⟨x, hx, l.flags, l.declared, (g.alike s (s.binding hx)).trans l.value⟩

theorem trans {b c : Scope} (h : a.Alike w w₁ b) (i : b.Alike w₁ w₂ c) : a.Alike w w₂ c where
  root := h.root.trans i.root
  functions := i.functions.trans h.functions
  bindings z hz := by
    obtain ⟨y, hy, m⟩ := i.bindings z hz
    obtain ⟨x, hx, l⟩ := h.bindings y hy
    exact ⟨x, hx, m.flags.trans l.flags, m.declared.trans l.declared, l.value.trans m.value⟩

end Scope.Alike

namespace Quiet

variable {D : Dialect} {w w₁ w₂ : World}

/-- A copy of a scope of `w₁` is a copy of a scope of `w`. -/
theorem copy_of_copy (q : Quiet w w₁) (s : Sound D w) {t : ScopeId} {b : Scope}
    (ht : t.In w₁.count) (h : (w₁.scope t).Alike w₁ w₂ b) :
    ∃ u, u.In w.count ∧ (w.scope u).Alike w w₂ b := by
  by_cases old : t.In w.count
  · rw [q.scope old] at h
    exact ⟨t, old, h.earlier q.grows s⟩
  · obtain ⟨u, hu, l⟩ := q.copy ht old
    exact ⟨u, hu, l.trans h⟩

theorem trans (q : Quiet w w₁) (r : Quiet w₁ w₂) (s : Sound D w) (s₁ : Sound D w₁) :
    Quiet w w₂ where
  count k := Nat.le_trans (q.count k) (r.count k)
  scope old := (r.scope (old.mono q.count)).trans (q.scope old)
  copy {t} new fresh := by
    by_cases old : t.In w₁.count
    · obtain ⟨u, hu, l⟩ := q.copy old fresh
      rw [r.scope old]
      exact ⟨u, hu, l.later r.grows s₁⟩
    · obtain ⟨u, hu, l⟩ := r.copy new old
      exact q.copy_of_copy s hu l
  classId old := (r.classId (old.mono q.count)).trans (q.classId old)
  home old := (r.home (old.mono q.count)).trans (q.home old)
  instance_ {i} new fresh := by
    by_cases old : i.In w₁.count
    · obtain ⟨j, hj, c, h, l⟩ := q.instance_ old fresh
      rw [r.classId old, r.home old, r.scope (s₁.home old)]
      exact ⟨j, hj, c, h, l.later r.grows s₁⟩
    · obtain ⟨j, hj, c, h, l⟩ := r.instance_ new old
      have fresh : ¬ (w₂.inst i).scope.In w.count := fun o => h (o.mono q.count)
      by_cases first : j.In w.count
      · rw [q.classId first] at c
        rw [q.home first, q.scope (s.home first)] at l
        exact ⟨j, first, c, fresh, l.earlier q.grows s⟩
      · obtain ⟨j', hj', c', -, l'⟩ := q.instance_ hj first
        exact ⟨j', hj', c.trans c', fresh, l'.trans l⟩
  functions := r.functions.trans q.functions
  methods := r.methods.trans q.methods
  classes := r.classes.trans q.classes
  overloads := r.overloads.trans q.overloads
  types := r.types.trans q.types

/-- One more scope that looks like an old one. -/
theorem newScope (q : Quiet w w₁) (s₁ : Sound D w₁) {t : ScopeId} {x : Scope}
    (ht : t.In w.count) (like : (w.scope t).Alike w w₁ x) : Quiet w (w₁.newScope x).2 where
  count k := Nat.le_trans (q.count k) ((w₁.grows_newScope x).count k)
  scope old := by
    rw [World.scope_newScope, if_neg (Census.ne_next (old.mono q.count))]
    exact q.scope old
  copy {u} new fresh := by
    rw [World.scope_newScope]
    split
    · exact ⟨t, ht, like.congr rfl rfl⟩
    · rename_i ne
      rw [World.count_newScope] at new
      obtain ⟨r, hr, l⟩ := q.copy (Census.in_of_grow new ne) fresh
      exact ⟨r, hr, l.congr rfl rfl⟩
  classId := q.classId
  home := q.home
  instance_ {i} new fresh := by
    rw [World.count_newScope] at new
    have old : i.In w₁.count := by simpa [Handle.In, Census.grow] using new
    obtain ⟨j, hj, c, h, l⟩ := q.instance_ old fresh
    refine ⟨j, hj, c, h, ?_⟩
    show (w.scope (w.inst j).scope).Alike w _ ((w₁.newScope x).2.scope (w₁.inst i).scope)
    rw [World.scope_newScope, if_neg (Census.ne_next (s₁.home old))]
    exact l.congr rfl rfl
  functions := q.functions
  methods := q.methods
  classes := q.classes
  overloads := q.overloads
  types := q.types

/-- One more instance of the class of an old one, in a scope that looks like its scope. -/
theorem newInstance (q : Quiet w w₁) (s₁ : Sound D w₁) {j : InstanceId} {x : Instance}
    (hj : j.In w.count) (c : x.classId = (w.inst j).classId) (fresh : ¬ x.scope.In w.count)
    (like : (w.scope (w.inst j).scope).Alike w w₁ (w₁.scope x.scope)) :
    Quiet w (w₁.newInstance x).2 where
  count k := Nat.le_trans (q.count k) ((w₁.grows_newInstance x).count k)
  scope := q.scope
  copy {u} new old := by
    rw [World.count_newInstance] at new
    have new : u.In w₁.count := by simpa [Handle.In, Census.grow] using new
    obtain ⟨r, hr, l⟩ := q.copy new old
    exact ⟨r, hr, l.later (w₁.grows_newInstance x) s₁⟩
  classId old := by
    rw [World.inst_newInstance, if_neg (Census.ne_next (old.mono q.count))]
    exact q.classId old
  home old := by
    rw [World.inst_newInstance, if_neg (Census.ne_next (old.mono q.count))]
    exact q.home old
  instance_ {i} new old := by
    rw [World.count_newInstance] at new
    rw [World.inst_newInstance]
    split
    · exact ⟨j, hj, c, fresh, like.later (w₁.grows_newInstance x) s₁⟩
    · rename_i ne
      obtain ⟨k, hk, c, h, l⟩ := q.instance_ (Census.in_of_grow new ne) old
      exact ⟨k, hk, c, h, l.later (w₁.grows_newInstance x) s₁⟩
  functions := q.functions
  methods := q.methods
  classes := q.classes
  overloads := q.overloads
  types := q.types

theorem newItems (q : Quiet w w₁) (s : Sound D w) (s₁ : Sound D w₁) (xs : List Value) :
    Quiet w (w₁.newItems xs).2 :=
  q.trans (of_containers (w₁.grows_newItems xs).count rfl rfl rfl rfl rfl rfl rfl) s s₁

theorem newEntries (q : Quiet w w₁) (s : Sound D w) (s₁ : Sound D w₁)
    (es : List (Value × Value)) : Quiet w (w₁.newEntries es).2 :=
  q.trans (of_containers (w₁.grows_newEntries es).count rfl rfl rfl rfl rfl rfl rfl) s s₁

theorem newElements (q : Quiet w w₁) (s : Sound D w) (s₁ : Sound D w₁) (xs : List Value) :
    Quiet w (w₁.newElements xs).2 :=
  q.trans (of_containers (w₁.grows_newElements xs).count rfl rfl rfl rfl rfl rfl rfl) s s₁

end Quiet

/-! ## Copying -/

/-- A quiet change to a sound world. -/
structure Copying (D : Dialect) (w w' : World) : Prop where
  sound : Sound D w'
  quiet : Quiet w w'

/-- A sound value of the same kind and the same type as another one, with its attributes. -/
structure Value.Kindred (D : Dialect) (w : World) (v : Value) (w' : World) (v' : Value) : Prop where
  ok : v'.Ok D w'.count
  attrs : v'.attrs = v.attrs
  alike : v.Alike w w' v'

/-- A variable of the same declaration as another one, whose value is kindred. -/
structure Binding.Kindred (D : Dialect) (w : World) (a : Binding) (w' : World) (b : Binding) :
    Prop where
  flags : b.flags = a.flags
  declared : b.declared = a.declared
  value : a.value.Kindred D w w' b.value

/-- A way of copying values. -/
def Copies (D : Dialect) (copy : Value → World → Value × World) : Prop :=
  ∀ v w, Sound D w → v.Ok D w.count →
    Copying D w (copy v w).2 ∧ v.Kindred D w (copy v w).2 (copy v w).1

/-- A dictionary entry whose key and value have been copied. -/
def copyEntry (copy : Value → World → Value × World) (e : Value × Value) (w : World) :
    (Value × Value) × World :=
  let key := copy e.1 w
  let value := copy e.2 key.2
  ((key.1, value.1), value.2)

section Copying

variable {D : Dialect} {w₀ w w' : World}

theorem Copying.refl (s : Sound D w) : Copying D w w := ⟨s, .refl w⟩

theorem Copying.trans {w₁ w₂ w₃ : World} (s : Sound D w₁) (h : Copying D w₁ w₂)
    (i : Copying D w₂ w₃) : Copying D w₁ w₃ :=
  ⟨i.sound, h.quiet.trans i.quiet s h.sound⟩

namespace Copying

variable {w₁ : World}

theorem newItems (c : Copying D w w₁) (s : Sound D w) {xs : List Value}
    (ok : ∀ v ∈ xs, v.Ok D w₁.count) : Copying D w (w₁.newItems xs).2 := by
  refine ⟨?_, c.quiet.newItems s c.sound xs⟩
  rw [Sound, World.count_newItems]
  exact (c.sound.mono (Census.le_grow _ _)).newItems
    fun v hv => (ok v hv).mono (Census.le_grow _ _)

theorem newElements (c : Copying D w w₁) (s : Sound D w) {xs : List Value}
    (ok : ∀ v ∈ xs, v.Ok D w₁.count) : Copying D w (w₁.newElements xs).2 := by
  refine ⟨?_, c.quiet.newElements s c.sound xs⟩
  rw [Sound, World.count_newElements]
  exact (c.sound.mono (Census.le_grow _ _)).newElements
    fun v hv => (ok v hv).mono (Census.le_grow _ _)

theorem newEntries (c : Copying D w w₁) (s : Sound D w) {es : List (Value × Value)}
    (ok : ∀ e ∈ es, e.1.Ok D w₁.count ∧ e.2.Ok D w₁.count) :
    Copying D w (w₁.newEntries es).2 := by
  refine ⟨?_, c.quiet.newEntries s c.sound es⟩
  rw [Sound, World.count_newEntries]
  exact (c.sound.mono (Census.le_grow _ _)).newEntries fun e he =>
    ⟨(ok e he).1.mono (Census.le_grow _ _), (ok e he).2.mono (Census.le_grow _ _)⟩

/-- An instance like `j` in a new scope that looks like the one of `j`. -/
theorem newInstance (c : Copying D w w₁) (s : Sound D w) {j : InstanceId} {home : ScopeId}
    (hj : j.In w.count) (new : home.In w₁.count) (fresh : ¬ home.In w.count)
    (like : (w.scope (w.inst j).scope).Alike w w₁ (w₁.scope home)) :
    Copying D w (w₁.newInstance { w.inst j with scope := home }).2 := by
  refine ⟨?_, c.quiet.newInstance c.sound hj rfl fresh like⟩
  rw [Sound, World.count_newInstance]
  exact (c.sound.mono (Census.le_grow _ _)).newInstance
    (((s.classId hj).mono c.quiet.count).mono (Census.le_grow _ _))
    (new.mono (Census.le_grow _ _))

end Copying

theorem Value.Kindred.refl {v : Value} (ok : v.Ok D w.count) : v.Kindred D w w v :=
  ⟨ok, rfl, .refl w v⟩

theorem Value.Kindred.later {v v' : Value} (h : v.Kindred D w₀ w v') (s : Sound D w)
    (g : w.Grows w') : v.Kindred D w₀ w' v' :=
  ⟨h.ok.mono g.count, h.attrs, h.alike.trans (g.alike s h.ok)⟩

theorem Value.Kindred.earlier {v v' : Value} (h : v.Kindred D w w' v') (s : Sound D w₀)
    (g : w₀.Grows w) (ok : v.Ok D w₀.count) : v.Kindred D w₀ w' v' :=
  ⟨h.ok, h.attrs, (g.alike s ok).trans h.alike⟩

/-- Items copied one after the other; `R` relates an item to its copy. -/
theorem mapState_copies {α β : Type} {f : α → World → β × World} {R : α → World → β → Prop}
    (s₀ : Sound D w₀) (items : List α)
    (each : ∀ a ∈ items, ∀ w, Copying D w₀ w → Copying D w (f a w).2 ∧ R a (f a w).2 (f a w).1)
    (later : ∀ a b w w', R a w b → Sound D w → w.Grows w' → R a w' b) :
    ∀ {w}, Copying D w₀ w → Copying D w (mapState f items w).2 ∧
      ∀ b ∈ (mapState f items w).1, ∃ a ∈ items, R a (mapState f items w).2 b := by
  induction items with
  | nil =>
    intro w c
    exact ⟨.refl c.sound, fun b hb => absurd hb List.not_mem_nil⟩
  | cons a rest ih =>
    intro w c
    obtain ⟨c₁, r₁⟩ := each a List.mem_cons_self w c
    obtain ⟨c₂, r₂⟩ := ih (fun x hx => each x (List.mem_cons_of_mem a hx)) (c.trans s₀ c₁)
    refine ⟨c₁.trans c.sound c₂, ?_⟩
    intro b hb
    simp only [mapState, List.mem_cons] at hb ⊢
    rcases hb with rfl | hb
    · exact ⟨a, .inl rfl, later _ _ _ _ r₁ c₁.sound c₂.quiet.grows⟩
    · obtain ⟨x, hx, r⟩ := r₂ b hb
      exact ⟨x, .inr hx, r⟩

variable {copy : Value → World → Value × World}

/-- The items of a container, each copied. -/
theorem mapState_values (h : Copies D copy) (s : Sound D w) {items : List Value}
    (ok : ∀ v ∈ items, v.Ok D w.count) :
    Copying D w (mapState copy items w).2 ∧
      ∀ v' ∈ (mapState copy items w).1, v'.Ok D (mapState copy items w).2.count := by
  obtain ⟨c, r⟩ := mapState_copies (R := fun (v : Value) w' v' => v.Kindred D w w' v') s items
    (fun v hv w₁ c => by
      obtain ⟨c₁, r₁⟩ := h v w₁ c.sound ((ok v hv).mono c.quiet.count)
      exact ⟨c₁, r₁.earlier s c.quiet.grows (ok v hv)⟩)
    (fun v v' w₁ w₂ r s₁ g => r.later s₁ g) (.refl s)
  refine ⟨c, fun v' hv' => ?_⟩
  obtain ⟨v, -, r⟩ := r v' hv'
  exact r.ok

/-- The entries of a dictionary, each copied. -/
theorem mapState_entries (h : Copies D copy) (s : Sound D w) {es : List (Value × Value)}
    (ok : ∀ e ∈ es, e.1.Ok D w.count ∧ e.2.Ok D w.count) :
    Copying D w (mapState (copyEntry copy) es w).2 ∧
      ∀ e' ∈ (mapState (copyEntry copy) es w).1,
        e'.1.Ok D (mapState (copyEntry copy) es w).2.count ∧
          e'.2.Ok D (mapState (copyEntry copy) es w).2.count := by
  obtain ⟨c, r⟩ := mapState_copies (f := copyEntry copy)
    (R := fun _ w' e' => e'.1.Ok D w'.count ∧ e'.2.Ok D w'.count) s es
    (fun e he w₁ c => by
      obtain ⟨c₁, r₁⟩ := h e.1 w₁ c.sound ((ok e he).1.mono c.quiet.count)
      obtain ⟨c₂, r₂⟩ := h e.2 _ c₁.sound
        (((ok e he).2.mono c.quiet.count).mono c₁.quiet.count)
      exact ⟨c₁.trans c.sound c₂, r₁.ok.mono c₂.quiet.count, r₂.ok⟩)
    (fun e e' w₁ w₂ r _ g => ⟨r.1.mono g.count, r.2.mono g.count⟩) (.refl s)
  refine ⟨c, fun e' he' => ?_⟩
  obtain ⟨e, -, r⟩ := r e' he'
  exact r

/-- The variables of a table, each with its value copied. -/
theorem mapBindings_copies (h : Copies D copy) (s : Sound D w) {t : Table Binding}
    (ok : ∀ b ∈ t.values, b.value.Ok D w.count) :
    Copying D w (mapBindings copy t w).2 ∧
      ∀ b ∈ (mapBindings copy t w).1.values, ∃ a ∈ t.values,
        a.Kindred D w (mapBindings copy t w).2 b := by
  obtain ⟨c, r⟩ := mapState_copies (R := fun e w' e' => e.2.Kindred D w w' e'.2) s t.entries
    (f := fun e w =>
      ((e.1, { e.2 with value := (copy e.2.value w).1 }), (copy e.2.value w).2))
    (fun e he w₁ c => by
      have he : e.2.value.Ok D w.count := ok e.2 (List.mem_map_of_mem he)
      obtain ⟨c₁, r₁⟩ := h e.2.value w₁ c.sound (he.mono c.quiet.count)
      exact ⟨c₁, rfl, rfl, r₁.earlier s c.quiet.grows he⟩)
    (fun e e' w₁ w₂ r s₁ g => ⟨r.flags, r.declared, r.value.later s₁ g⟩) (.refl s)
  refine ⟨c, fun b hb => ?_⟩
  obtain ⟨e', he', rfl⟩ := List.mem_map.mp hb
  obtain ⟨e, he, r⟩ := r e' he'
  exact ⟨e.2, List.mem_map_of_mem he, r⟩

theorem duplicateBy_copies (h : Copies D copy) : Copies D (duplicateBy copy) := by
  intro v w s ok
  simp only [duplicateBy]
  split
  · exact ⟨.refl s, .refl ok⟩
  · exact h v w s ok

/-- The twin of a sound scope is sound wherever it is put, with sound flags. -/
theorem Scope.Ok.twin {n n' : Census} {i j : Nat} {x : Scope} {h : ScopeId} {t : Table Binding}
    (ok : x.Ok D n i) (le : n ≤ n') (newer : i ≤ j)
    (flags : ∀ b ∈ t.values, b.flags.isMutable = true → D.sharing) : (x.twin h t).Ok D n' j where
  flags := flags
  callable c hc := by
    refine (ok.callable c ?_).mono le
    simp only [Scope.callables, Scope.twin, List.mem_append] at hc ⊢
    refine hc.imp_right fun hg => ?_
    cases e : x.globals with
    | owned fs cs => rw [e] at hg; exact absurd hg List.not_mem_nil
    | shared root => rw [e] at hg; exact absurd hg List.not_mem_nil
  older p hp := Nat.lt_of_lt_of_le (ok.older p hp) newer
  types := ok.types

/-- A copy of a scope is new and looks like the scope. -/
theorem duplicateScopeBy_copies (h : Copies D copy) (s : Sound D w) {t : ScopeId}
    (ht : t.In w.count) :
    Copying D w (duplicateScopeBy copy t w).2 ∧
      (duplicateScopeBy copy t w).1.In (duplicateScopeBy copy t w).2.count ∧
      ¬ (duplicateScopeBy copy t w).1.In w.count ∧
      (w.scope t).Alike w (duplicateScopeBy copy t w).2
        ((duplicateScopeBy copy t w).2.scope (duplicateScopeBy copy t w).1) := by
  obtain ⟨c, r⟩ := mapBindings_copies (duplicateBy_copies h) s (t := (w.scope t).bindings)
    (fun b hb => s.binding hb)
  generalize e : mapBindings (duplicateBy copy) (w.scope t).bindings w = made at c r
  obtain ⟨bindings, w₁⟩ := made
  simp only at c r
  have unfolded : duplicateScopeBy copy t w = w₁.newScope ((w.scope t).twin t bindings) := by
    rw [duplicateScopeBy, e]
  have flags : ∀ b ∈ bindings.values, b.flags.isMutable = true → D.sharing := by
    intro b hb hm
    obtain ⟨a, ha, r⟩ := r b hb
    exact (s.scope t).flags a ha (r.flags ▸ hm)
  have like : (w.scope t).Alike w w₁ ((w.scope t).twin t bindings) := by
    refine ⟨⟨rfl, rfl, rfl, rfl, rfl⟩, rfl, fun b hb => ?_⟩
    obtain ⟨a, ha, r⟩ := r b hb
    exact ⟨a, ha, r.flags, r.declared, r.value.alike⟩
  have le : w.count ≤ w₁.count := c.quiet.count
  rw [unfolded]
  refine ⟨⟨?_, c.quiet.newScope c.sound ht like⟩, ?_, ?_, ?_⟩
  · rw [Sound, World.count_newScope]
    refine (c.sound.mono (Census.le_grow _ _)).newScope ?_ ?_
    · refine (s.scope t).twin (fun k => Nat.le_trans (le k) (Census.le_grow _ _ k)) ?_ flags
      exact Nat.le_of_lt (Nat.lt_of_lt_of_le ht (le _))
    · intro b hb
      obtain ⟨a, -, r⟩ := r b hb
      exact r.value.ok.mono (Census.le_grow _ _)
  · rw [World.count_newScope]
    exact Census.next_in_grow w₁.count .scope
  · intro old
    exact Census.not_in_next _ _ (old.mono le)
  · rw [World.scope_newScope]
    exact (if_pos rfl : _) ▸ like.congr rfl rfl

/-- A value that stands for a new container of the same kind. -/
theorem Value.Kindred.container {v : Value} {d : Datum} {c : Cell} (ok : v.Ok D w.count)
    (cell : d.cell? = some c) (new : c.In w'.count) (kind : d.kind = v.datum.kind)
    (type : w'.valueType { v with datum := d } = w.valueType v) :
    v.Kindred D w w' { v with datum := d } where
  ok := by
    refine ⟨fun c' hc' => ?_, ok.shared⟩
    rw [Value.cells, cell, Option.toList_some, List.mem_singleton] at hc'
    exact hc' ▸ new
  attrs := rfl
  alike := ⟨kind, type⟩

/-! ### One level of a deep copy -/

namespace World

variable (n : Nat) (a : Attributes) (w : World)

theorem copyWithin_list (h : Handle .list) :
    copyWithin (n + 1) ⟨.list h, a⟩ w =
      let items := mapState (copyWithin n) (w.items h) w
      let made := items.2.newItems items.1
      (⟨.list made.1, a⟩, made.2) := rfl

theorem copyWithin_array (h : Handle .list) :
    copyWithin (n + 1) ⟨.array h, a⟩ w =
      let items := mapState (copyWithin n) (w.items h) w
      let made := items.2.newItems items.1
      (⟨.array made.1, a⟩, made.2) := rfl

theorem copyWithin_dict (h : Handle .dict) :
    copyWithin (n + 1) ⟨.dict h, a⟩ w =
      let entries := mapState (copyEntry (copyWithin n)) (w.entries h) w
      let made := entries.2.newEntries entries.1
      (⟨.dict made.1, a⟩, made.2) := rfl

theorem copyWithin_set (h : Handle .set) :
    copyWithin (n + 1) ⟨.set h, a⟩ w =
      let elements := mapState (copyWithin n) (w.elements h) w
      let made := elements.2.newElements elements.1
      (⟨.set made.1, a⟩, made.2) := rfl

theorem copyWithin_object (h : InstanceId) :
    copyWithin (n + 1) ⟨.object h, a⟩ w =
      let home := duplicateScopeBy (copyWithin n) (w.inst h).scope w
      let made := home.2.newInstance { w.inst h with scope := home.1 }
      (⟨.object made.1, a⟩, made.2) := rfl

end World

/-- A deep copy is quiet, and its result is sound and of the same type. -/
theorem copyWithin_copies : ∀ n, Copies D (World.copyWithin n)
  | 0 => by
    intro v w s ok
    exact ⟨.refl s, .refl ok⟩
  | n + 1 => by
    have ih : Copies D (World.copyWithin n) := copyWithin_copies n
    intro v w s ok
    obtain ⟨d, a⟩ := v
    cases d with
    | list h =>
      obtain ⟨c, r⟩ := mapState_values ih s (fun v (hv : v ∈ w.items h) => s.item hv)
      rw [World.copyWithin_list]
      exact ⟨c.newItems s r, .container ok rfl (World.newItems_in _ _) rfl rfl⟩
    | array h =>
      obtain ⟨c, r⟩ := mapState_values ih s (fun v (hv : v ∈ w.items h) => s.item hv)
      rw [World.copyWithin_array]
      exact ⟨c.newItems s r, .container ok rfl (World.newItems_in _ _) rfl rfl⟩
    | dict h =>
      obtain ⟨c, r⟩ := mapState_entries ih s (fun e (he : e ∈ w.entries h) => s.entry he)
      rw [World.copyWithin_dict]
      exact ⟨c.newEntries s r, .container ok rfl (World.newEntries_in _ _) rfl rfl⟩
    | set h =>
      obtain ⟨c, r⟩ := mapState_values ih s (fun v (hv : v ∈ w.elements h) => s.element hv)
      rw [World.copyWithin_set]
      exact ⟨c.newElements s r, .container ok rfl (World.newElements_in _ _) rfl rfl⟩
    | object h =>
      have old : h.In w.count := ok.cells h.cell (by simp [Value.cells, Datum.cell?])
      obtain ⟨c, new, fresh, like⟩ := duplicateScopeBy_copies ih s (s.home old)
      rw [World.copyWithin_object]
      have q := c.newInstance s old new fresh like
      refine ⟨q, .container ok rfl (World.newInstance_in _ _) rfl ?_⟩
      have class_ := q.quiet.grows.classOf (s.classId old)
      have made := World.inst_newInstance_self
        (duplicateScopeBy (World.copyWithin n) (w.inst h).scope w).2
        { w.inst h with scope := (duplicateScopeBy (World.copyWithin n) (w.inst h).scope w).1 }
      simp only [World.valueType, World.typeId, made, class_]
      rfl
    | _ => exact ⟨.refl s, .refl ok⟩

/-- The copy of a value that is stored in its place. -/
theorem duplicate_copies : Copies D fun v w => w.duplicate v :=
  duplicateBy_copies fun v w s ok => copyWithin_copies _ v w s ok

/-! ## What a copy leaves alone -/

/-- There are more containers, scopes and instances; everything else is as it was. -/
structure World.Spares (w w' : World) : Prop where
  count : w.count ≤ w'.count
  scope : ∀ {s}, s.In w.count → w'.scope s = w.scope s
  items : ∀ {h}, h.In w.count → w'.items h = w.items h
  entries : ∀ {h}, h.In w.count → w'.entries h = w.entries h
  elements : ∀ {h}, h.In w.count → w'.elements h = w.elements h
  inst : ∀ {i}, i.In w.count → w'.inst i = w.inst i
  functions : w'.functions = w.functions
  classes : w'.classes = w.classes
  overloads : w'.overloads = w.overloads
  held : w'.held = w.held

namespace World

namespace Spares

theorem refl (w : World) : w.Spares w :=
  ⟨fun _ => Nat.le_refl _, fun _ => rfl, fun _ => rfl, fun _ => rfl, fun _ => rfl, fun _ => rfl,
    rfl, rfl, rfl, rfl⟩

theorem trans {w w₁ w₂ : World} (h : w.Spares w₁) (i : w₁.Spares w₂) : w.Spares w₂ where
  count k := Nat.le_trans (h.count k) (i.count k)
  scope old := (i.scope (old.mono h.count)).trans (h.scope old)
  items old := (i.items (old.mono h.count)).trans (h.items old)
  entries old := (i.entries (old.mono h.count)).trans (h.entries old)
  elements old := (i.elements (old.mono h.count)).trans (h.elements old)
  inst old := (i.inst (old.mono h.count)).trans (h.inst old)
  functions := i.functions.trans h.functions
  classes := i.classes.trans h.classes
  overloads := i.overloads.trans h.overloads
  held := i.held.trans h.held

end Spares

variable (w : World)

theorem spares_newItems (xs : List Value) : w.Spares (w.newItems xs).2 :=
  { Spares.refl w with
    count := by rw [count_newItems]; exact Census.le_grow _ _
    items := by
      intro h old
      rw [items_newItems, if_neg (Census.ne_next old)] }

theorem spares_newEntries (es : List (Value × Value)) : w.Spares (w.newEntries es).2 :=
  { Spares.refl w with
    count := by rw [count_newEntries]; exact Census.le_grow _ _
    entries := by
      intro h old
      rw [entries_newEntries, if_neg (Census.ne_next old)] }

theorem spares_newElements (xs : List Value) : w.Spares (w.newElements xs).2 :=
  { Spares.refl w with
    count := by rw [count_newElements]; exact Census.le_grow _ _
    elements := by
      intro h old
      rw [elements_newElements, if_neg (Census.ne_next old)] }

theorem spares_newScope (x : Scope) : w.Spares (w.newScope x).2 :=
  { Spares.refl w with
    count := by rw [count_newScope]; exact Census.le_grow _ _
    scope := by
      intro s old
      rw [scope_newScope, if_neg (Census.ne_next old)] }

theorem spares_newInstance (x : Instance) : w.Spares (w.newInstance x).2 :=
  { Spares.refl w with
    count := by rw [count_newInstance]; exact Census.le_grow _ _
    inst := by
      intro i old
      rw [inst_newInstance, if_neg (Census.ne_next old)] }

theorem spares_mapState {α β : Type} {f : α → World → β × World}
    (each : ∀ a w, Spares w (f a w).2) : ∀ (items : List α) w, Spares w (mapState f items w).2
  | [], w => .refl w
  | a :: rest, w => (each a w).trans (spares_mapState each rest _)

theorem spares_duplicateBy {copy : Value → World → Value × World}
    (each : ∀ v w, Spares w (copy v w).2) (v : Value) (w : World) :
    w.Spares (duplicateBy copy v w).2 := by
  simp only [duplicateBy]
  split
  · exact .refl w
  · exact each v w

theorem spares_copyWithin : ∀ n v w, Spares w (copyWithin n v w).2
  | 0, _, w => .refl w
  | n + 1, ⟨d, a⟩, w => by
    have ih : ∀ v w, Spares w (copyWithin n v w).2 := spares_copyWithin n
    cases d with
    | list h =>
      rw [copyWithin_list]
      exact (spares_mapState ih _ w).trans (spares_newItems _ _)
    | array h =>
      rw [copyWithin_array]
      exact (spares_mapState ih _ w).trans (spares_newItems _ _)
    | dict h =>
      rw [copyWithin_dict]
      refine (spares_mapState (fun e w => ?_) _ w).trans (spares_newEntries _ _)
      exact (ih e.1 w).trans (ih e.2 _)
    | set h =>
      rw [copyWithin_set]
      exact (spares_mapState ih _ w).trans (spares_newElements _ _)
    | object h =>
      rw [copyWithin_object]
      refine Spares.trans ?_ (spares_newInstance _ _)
      refine (spares_mapState (fun e w => ?_) _ w).trans (spares_newScope _ _)
      exact spares_duplicateBy ih e.2.value w
    | _ => exact .refl w

theorem spares_duplicate (v : Value) : w.Spares (w.duplicate v).2 :=
  spares_duplicateBy (fun v w => spares_copyWithin _ v w) v w

end World

/-! ## Tables of copied variables -/

/-- A table whose variables are kindred to variables of the world it was made in. -/
structure Seeds (D : Dialect) (w : World) (t : Table Binding) (w' : World) : Prop where
  copying : Copying D w w'
  source : ∀ b ∈ t.values, ∃ s, ∃ a ∈ (w.scope s).bindings.values, a.Kindred D w w' b

/-- A scope in sight is no newer than the scope that sees it. -/
theorem index_le_of_mem_variableChain {n : Census} (s : SoundAt D n w) {t u : ScopeId}
    (h : u ∈ w.variableChain t) : u.index ≤ t.index := by
  refine of_mem_follow (P := fun u => u.index ≤ t.index) ?_ (Nat.le_refl _) h
  intro a b ha hb
  simp only [World.variableParent?] at hb
  split at hb
  · exact absurd hb nofun
  · obtain ⟨p, hp, up⟩ := Option.bind_eq_some_iff.mp hb
    simp only [World.upgrade] at up
    split at up
    · rw [← Option.some.inj up]
      exact Nat.le_trans (Nat.le_of_lt ((s.scope a).older p hp)) ha
    · exact absurd up nofun

/-- The variables that a capture copies are variables in sight. -/
theorem captureVariables_seeds (s : Sound D w) {t : ScopeId} (ht : t.In w.count) :
    ∀ names, Seeds D w (w.captureVariables t names).1 (w.captureVariables t names).2 := by
  intro names
  induction names with
  | nil => exact ⟨.refl s, fun b hb => absurd hb List.not_mem_nil⟩
  | cons name rest ih =>
    simp only [World.captureVariables]
    generalize e : w.captureVariables t rest = made at ih
    obtain ⟨captured, w₁⟩ := made
    obtain ⟨c, source⟩ := ih
    cases found : w₁.binding? t name with
    | none => exact ⟨c, source⟩
    | some a =>
      obtain ⟨u, hu, local_⟩ := World.localBinding?_of_binding? found
      have old : u.In w.count :=
        Nat.lt_of_le_of_lt (index_le_of_mem_variableChain c.sound hu) ht
      have ha : a ∈ (w.scope u).bindings.values := by
        rw [← c.quiet.scope old]
        exact World.mem_values_of_localBinding? local_
      obtain ⟨c₁, r₁⟩ := copyWithin_copies (w₁.size + 1) a.value w₁ c.sound
        ((s.binding ha).mono c.quiet.count)
      refine ⟨c.trans s c₁, fun b hb => ?_⟩
      rcases Table.mem_values_insert hb with rfl | hb
      · exact ⟨u, a, ha, rfl, rfl, r₁.earlier s c.quiet.grows (s.binding ha)⟩
      · obtain ⟨v, x, hx, r⟩ := source b hb
        exact ⟨v, x, hx, r.flags, r.declared, r.value.later c.sound c₁.quiet.grows⟩

/-- The variables of a new instance are copies of variables of the class. -/
theorem members_seeds (s : Sound D w) (t : ScopeId) (p : Binding → Bool) :
    Seeds D w (mapBindings (fun v w => w.duplicate v) ((w.scope t).bindings.filter p) w).1
      (mapBindings (fun v w => w.duplicate v) ((w.scope t).bindings.filter p) w).2 := by
  obtain ⟨c, r⟩ := mapBindings_copies duplicate_copies s (t := (w.scope t).bindings.filter p)
    (fun b hb => s.binding (Table.mem_values_filter hb))
  refine ⟨c, fun b hb => ?_⟩
  obtain ⟨a, ha, r⟩ := r b hb
  exact ⟨t, a, Table.mem_values_filter ha, r⟩

end Copying

end ScopeLang
