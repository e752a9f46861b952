/-
# Keys

A dictionary looks for an equal key before it takes a new one in, and a set does
the same with its elements.  That alone does not keep the keys apart: `keys` hands
out the keys themselves, and a list among them can still be changed in place until
it equals another one.

What cannot be changed in place keeps its equality in every world (`alike`).  Keys
without contents are therefore apart in every dictionary there is, whether it was
filled or copied.  Instances equal only themselves, and where variables share
nothing no instance is a key twice.  Only containers are left.
-/
import Mathlib.Data.List.Forall2
import ScopeLang.Proofs.Unshared

namespace ScopeLang

variable {D : Dialect} {w w₁ : World} {a b v : Value} {xs ys : List Value}

/-! ## Equality that no step can change -/

/-- Equality of data without contents. -/
def Datum.alike : Datum → Datum → Bool
  | .null, .null => true
  | .bool x, .bool y => x == y
  | .number x, .number y => x.looselyEqual y
  | .char x, .char y => x == y
  | .string x, .string y => x == y
  | .callable x, .callable y => x == y
  | .overloads x, .overloads y => x == y
  | _, _ => false

namespace Value

def alike (a b : Value) : Bool := a.datum.alike b.datum

/-- Whether a value is a list, an array, a dictionary or a set. -/
def isContainer (v : Value) : Bool :=
  match v.datum with
  | .list _ | .array _ | .dict _ | .set _ => true
  | _ => false

/-- Whether a value is a floating point number. -/
def isFloating (v : Value) : Bool :=
  match v.datum with
  | .number (.float _) | .number (.double _) => true
  | _ => false

theorem contents_of_alike (h : a.alike b = true) : a.contents = [] ∧ b.contents = [] := by
  obtain ⟨d, _⟩ := a
  obtain ⟨e, _⟩ := b
  cases d <;> cases e <;> first | exact ⟨rfl, rfl⟩ | cases h

end Value

theorem Number.looselyEqual_comm {x y : Number}
    (hx : (Value.number x).isFloating = false) (hy : (Value.number y).isFloating = false) :
    x.looselyEqual y = y.looselyEqual x := by
  cases x with
  | int a =>
    cases y with
    | int b => exact Bool.beq_comm
    | long b => exact Bool.beq_comm
    | float b => cases hy
    | double b => cases hy
  | long a =>
    cases y with
    | int b => exact Bool.beq_comm
    | long b => exact Bool.beq_comm
    | float b => cases hy
    | double b => cases hy
  | float a => cases hx
  | double a => cases hx

theorem Value.alike_comm (ha : a.isFloating = false) (hb : b.isFloating = false) :
    a.alike b = b.alike a := by
  obtain ⟨d, _⟩ := a
  obtain ⟨e, _⟩ := b
  cases d <;> cases e <;> first | rfl | exact Bool.beq_comm | exact Number.looselyEqual_comm ha hb

namespace World

theorem looseEq_of_alike (h : a.alike b = true) : w.looseEq a b = true := by
  obtain ⟨d, _⟩ := a
  obtain ⟨e, _⟩ := b
  cases d <;> cases e <;> first | exact h | cases h

/-- Values are loosely equal for what they are, as the same instance, or as containers. -/
theorem looseEq_cases (h : w.looseEq a b = true) :
    a.alike b = true ∨ (∃ c ∈ a.contents, c ∈ b.contents) ∨
      a.isContainer = true ∧ b.isContainer = true := by
  obtain ⟨d, _⟩ := a
  obtain ⟨e, _⟩ := b
  -- of data of different kinds only containers leave anything open
  cases d <;> cases e <;> first | exact .inl h | exact .inr (.inr ⟨rfl, rfl⟩) | skip
  case object.object x y =>
    have same : x = y := eq_of_beq h
    exact .inr (.inl ⟨x.cell, List.mem_singleton_self _, same ▸ List.mem_singleton_self _⟩)

end World

/-! ## Keys that are apart -/

/-- No value is equal to a later one for what both are. -/
def Unlike (vs : List Value) : Prop := vs.Pairwise fun a b => a.alike b = false

section Insertion

variable {equal : Value → Value → Bool}

theorem insertElement_cons {k key : Value} (other : equal k key = false) (ks : List Value) :
    insertElement equal (k :: ks) key = k :: insertElement equal ks key := by
  have found : hasElement equal (k :: ks) key = hasElement equal ks key := by
    simp [hasElement, other]
  rw [insertElement, insertElement, found]
  split <;> rfl

/-- A key is taken in like an element. -/
theorem keys_insertEntry (key value : Value) (es : List (Value × Value)) :
    (insertEntry equal key value es).map (·.1) = insertElement equal (es.map (·.1)) key := by
  induction es with
  | nil => rfl
  | cons e rest ih =>
    obtain ⟨k, v⟩ := e
    by_cases same : equal k key = true
    · have found : hasElement equal (k :: rest.map (·.1)) key = true := by simp [hasElement, same]
      rw [insertEntry, if_pos same, List.map_cons, List.map_cons, insertElement, if_pos found]
    · have other : equal k key = false := Bool.eq_false_iff.mpr same
      rw [insertEntry, if_neg same, List.map_cons, List.map_cons, ih, insertElement_cons other]

variable (finds : ∀ a b : Value, a.alike b = true → equal a b = true)

include finds

theorem Unlike.insertElement (h : Unlike xs) (v : Value) : Unlike (insertElement equal xs v) := by
  simp only [ScopeLang.insertElement]
  split
  · exact h
  · rename_i absent
    refine List.pairwise_append.mpr ⟨h, List.pairwise_singleton _ _, fun a ha b hb => ?_⟩
    rw [List.mem_singleton.mp hb, Bool.eq_false_iff]
    exact fun same => absent (List.any_eq_true.mpr ⟨a, ha, finds a v same⟩)

theorem Unlike.foldl_insertElement (h : Unlike xs) :
    ∀ {vs : List Value}, Unlike (vs.foldl (ScopeLang.insertElement equal) xs) := by
  intro vs
  induction vs generalizing xs with
  | nil => exact h
  | cons v rest ih => exact ih (h.insertElement finds v)

theorem Unlike.insertEntry {es : List (Value × Value)} (h : Unlike (es.map (·.1)))
    (key value : Value) : Unlike ((insertEntry equal key value es).map (·.1)) := by
  rw [keys_insertEntry]
  exact h.insertElement finds key

theorem Unlike.foldl_insertEntry {es : List (Value × Value)} (h : Unlike (es.map (·.1))) :
    ∀ {news : List (Value × Value)}, Unlike
      ((news.foldl (fun done e => ScopeLang.insertEntry equal e.1 e.2 done) es).map (·.1)) := by
  intro news
  induction news generalizing es with
  | nil => exact h
  | cons e rest ih => exact ih (h.insertEntry finds e.1 e.2)

end Insertion

/-- The keys of every dictionary, and the elements of every set, are apart. -/
structure World.KeysApart (w : World) : Prop where
  entries : ∀ h, Unlike ((w.entries h).map (·.1))
  elements : ∀ h, Unlike (w.elements h)

namespace World.KeysApart

/-- Dictionaries and sets are as before. -/
theorem of_same (h : w.KeysApart) (dicts : w₁.dicts = w.dicts) (sets : w₁.sets = w.sets) :
    w₁.KeysApart := by
  constructor
  case entries =>
    intro i
    rw [World.entries, dicts]
    exact h.entries i
  case elements =>
    intro i
    rw [World.elements, sets]
    exact h.elements i

theorem newEntries (h : w.KeysApart) {es : List (Value × Value)} (new : Unlike (es.map (·.1))) :
    (w.newEntries es).2.KeysApart where
  entries i := by
    rw [World.entries_newEntries]
    split
    · exact new
    · exact h.entries i
  elements := h.elements

theorem newElements (h : w.KeysApart) (new : Unlike xs) : (w.newElements xs).2.KeysApart where
  entries := h.entries
  elements i := by
    rw [World.elements_newElements]
    split
    · exact new
    · exact h.elements i

theorem setEntries (h : w.KeysApart) (i : Handle .dict) {es : List (Value × Value)}
    (new : Unlike (es.map (·.1))) : (w.setEntries i es).KeysApart where
  entries j := by
    rw [World.entries_setEntries]
    split
    · exact new
    · exact h.entries j
  elements := h.elements

theorem setElements (h : w.KeysApart) (i : Handle .set) (new : Unlike xs) :
    (w.setElements i xs).KeysApart where
  entries := h.entries
  elements j := by
    rw [World.elements_setElements]
    split
    · exact new
    · exact h.elements j

end World.KeysApart

/-! ## Copying -/

/-- A value and a copy of it: the same datum, or contents in place of contents. -/
def Value.Mirrors (a b : Value) : Prop := b.datum = a.datum ∨ a.contents ≠ [] ∧ b.contents ≠ []

theorem Value.Mirrors.alike {a' b' : Value} (ha : a.Mirrors a') (hb : b.Mirrors b')
    (h : a'.alike b' = true) : a.alike b = true := by
  obtain ⟨emptyA, emptyB⟩ := Value.contents_of_alike h
  have sameA : a'.datum = a.datum := ha.resolve_right fun both => both.2 emptyA
  have sameB : b'.datum = b.datum := hb.resolve_right fun both => both.2 emptyB
  rwa [Value.alike, sameA, sameB] at h

theorem Unlike.mirror (h : Unlike xs) (copies : List.Forall₂ Value.Mirrors xs ys) : Unlike ys := by
  obtain ⟨length, each⟩ := List.forall₂_iff_get.mp copies
  refine List.pairwise_iff_getElem.mpr fun i j hi hj lt => Bool.eq_false_iff.mpr fun same => ?_
  have apart := List.pairwise_iff_getElem.mp h i j (length ▸ hi) (length ▸ hj) lt
  have like := (each i (length ▸ hi) hi).alike (each j (length ▸ hj) hj) same
  exact absurd (like.symm.trans apart) Bool.noConfusion

/-- A way of copying under which the keys of dictionaries stay apart. -/
def KeepsKeys (copy : Value → World → Value × World) : Prop :=
  ∀ v w, w.KeysApart → (copy v w).2.KeysApart ∧ v.Mirrors (copy v w).1

theorem mapState_keeps {α β : Type} {f : α → World → β × World} {R : α → β → Prop}
    (each : ∀ a w, w.KeysApart → (f a w).2.KeysApart ∧ R a (f a w).1) (items : List α) :
    ∀ {w}, w.KeysApart →
      (mapState f items w).2.KeysApart ∧ List.Forall₂ R items (mapState f items w).1 := by
  induction items with
  | nil => exact fun apart => ⟨apart, .nil⟩
  | cons a rest ih =>
    intro w apart
    obtain ⟨first, r⟩ := each a w apart
    obtain ⟨others, rs⟩ := ih first
    exact ⟨others, .cons r rs⟩

section Copying

variable {copy : Value → World → Value × World}

theorem KeepsKeys.duplicateBy (h : KeepsKeys copy) : KeepsKeys (duplicateBy copy) := by
  intro v w apart
  rw [ScopeLang.duplicateBy]
  split
  · exact ⟨apart, .inl rfl⟩
  · exact h v w apart

theorem KeepsKeys.copyEntry (h : KeepsKeys copy) (e : Value × Value) (w : World)
    (apart : w.KeysApart) :
    (copyEntry copy e w).2.KeysApart ∧ e.1.Mirrors (copyEntry copy e w).1.1 := by
  obtain ⟨first, key⟩ := h e.1 w apart
  exact ⟨(h e.2 _ first).1, key⟩

theorem KeepsKeys.mapBindings (h : KeepsKeys copy) (t : Table Binding) (apart : w.KeysApart) :
    (mapBindings copy t w).2.KeysApart :=
  (mapState_keeps (R := fun _ _ => True) (fun e w apart => ⟨(h e.2.value w apart).1, trivial⟩)
    t.entries apart).1

theorem KeepsKeys.duplicateScopeBy (h : KeepsKeys copy) (s : ScopeId) (apart : w.KeysApart) :
    (duplicateScopeBy copy s w).2.KeysApart :=
  (h.duplicateBy.mapBindings _ apart).of_same rfl rfl

theorem copyWithin_keepsKeys : ∀ n, KeepsKeys (World.copyWithin n)
  | 0 => fun _ _ apart => ⟨apart, .inl rfl⟩
  | n + 1 => by
    have ih : KeepsKeys (World.copyWithin n) := copyWithin_keepsKeys n
    rintro ⟨d, a⟩ w apart
    cases d with
    | list h =>
      rw [World.copyWithin_list]
      have items := (mapState_keeps ih (w.items h) apart).1
      exact ⟨items.of_same rfl rfl, .inr ⟨List.cons_ne_nil _ _, List.cons_ne_nil _ _⟩⟩
    | array h =>
      rw [World.copyWithin_array]
      have items := (mapState_keeps ih (w.items h) apart).1
      exact ⟨items.of_same rfl rfl, .inr ⟨List.cons_ne_nil _ _, List.cons_ne_nil _ _⟩⟩
    | dict h =>
      rw [World.copyWithin_dict]
      obtain ⟨kept, keys⟩ := mapState_keeps
        (R := fun e e' : Value × Value => e.1.Mirrors e'.1) ih.copyEntry (w.entries h) apart
      have new := (apart.entries h).mirror
        (List.forall₂_map_left_iff.mpr (List.forall₂_map_right_iff.mpr keys))
      exact ⟨kept.newEntries new, .inr ⟨List.cons_ne_nil _ _, List.cons_ne_nil _ _⟩⟩
    | set h =>
      rw [World.copyWithin_set]
      obtain ⟨kept, copies⟩ := mapState_keeps ih (w.elements h) apart
      exact ⟨kept.newElements ((apart.elements h).mirror copies),
        .inr ⟨List.cons_ne_nil _ _, List.cons_ne_nil _ _⟩⟩
    | object h =>
      rw [World.copyWithin_object]
      have scope := ih.duplicateScopeBy (w.inst h).scope apart
      exact ⟨scope.of_same rfl rfl, .inr ⟨List.cons_ne_nil _ _, List.cons_ne_nil _ _⟩⟩
    | _ => exact ⟨apart, .inl rfl⟩

end Copying

namespace World.KeysApart

theorem deepCopy (h : w.KeysApart) (v : Value) : (w.deepCopy v).2.KeysApart :=
  (copyWithin_keepsKeys _ v w h).1

theorem deepCopy_keeps : KeepsKeys fun v w => w.deepCopy v := fun v w h =>
  copyWithin_keepsKeys _ v w h

theorem duplicate (h : w.KeysApart) (v : Value) : (w.duplicate v).2.KeysApart :=
  (deepCopy_keeps.duplicateBy v w h).1

theorem store (h : w.KeysApart) (t : ScopeId) (name : String) (b : Binding) (v : Value) :
    (w.store t name b v).KeysApart := by
  have prepared : (b.prepare v w).2.KeysApart := by
    simp only [Binding.prepare]
    split
    · exact h
    · exact h.duplicate v
  exact prepared.of_same rfl rfl

theorem captureVariables (h : w.KeysApart) (s : ScopeId) (names : List String) :
    (w.captureVariables s names).2.KeysApart := by
  induction names with
  | nil => exact h
  | cons name rest ih =>
    simp only [World.captureVariables]
    split
    · exact ih
    · exact ih.deepCopy _

theorem makeInstance (h : w.KeysApart) (c : ClassId) : (w.makeInstance c).2.KeysApart := by
  have duplicating : KeepsKeys fun v w => w.duplicate v := deepCopy_keeps.duplicateBy
  have emptied : (w.emptyMembers c).2.KeysApart := h.of_same rfl rfl
  have members : (w.members c).2.KeysApart := duplicating.mapBindings _ emptied
  rw [World.makeInstance_eq]
  exact members.of_same rfl rfl

end World.KeysApart

/-! ## Steps -/

theorem Contents.keysApart (h : Contents D w w₁) (apart : w.KeysApart) : w₁.KeysApart := by
  cases h with
  | held => exact apart.of_same rfl rfl
  | newItems => exact apart.of_same rfl rfl
  | newSet =>
    have empty : Unlike [] := .nil
    exact apart.newElements (empty.foldl_insertElement fun _ _ => World.looseEq_of_alike)
  | newDict =>
    have empty : Unlike (([] : List (Value × Value)).map (·.1)) := .nil
    exact apart.newEntries (empty.foldl_insertEntry fun _ _ => World.looseEq_of_alike)
  | copy => exact apart.deepCopy _
  | dropItems => exact apart.of_same rfl rfl
  | storeItem => exact (apart.duplicate _).of_same rfl rfl
  | dropElements i sub => exact apart.setElements i ((apart.elements i).sublist sub)
  | @storeElement i v =>
    have copied := apart.duplicate v
    exact copied.setElements i
      ((copied.elements i).insertElement (fun _ _ => World.looseEq_of_alike) _)
  | dropEntries i sub => exact apart.setEntries i ((apart.entries i).sublist (sub.map _))
  | @storeEntry i key value k v _ _ _ first second =>
    have copied : v.2.KeysApart := second ▸ (first ▸ apart.duplicate key).duplicate value
    exact copied.setEntries i
      ((copied.entries i).insertEntry (fun _ _ => World.looseEq_of_alike) _ _)

theorem Step.keysApart {s : ScopeId} (h : Step D s w w₁) (alone : ∀ body, ¬ D.natives body)
    (apart : w.KeysApart) : w₁.KeysApart := by
  cases h with
  | contents h => exact h.keysApart apart
  | native body => exact absurd body (alone _)
  | hostWrite t name => exact apart.store t name _ _
  | overloads => exact apart.of_same rfl rfl
  | pool => exact apart.of_same rfl rfl
  | addAlias => exact apart.of_same rfl rfl
  | relink => exact apart.of_same rfl rfl
  | declare => exact apart.store _ _ _ _
  | assign => exact apart.store _ _ _ _
  | @detach kind names label =>
    have derived : (w.derive s kind label (some s)).2.KeysApart := apart.of_same rfl rfl
    exact (derived.captureVariables s names).of_same rfl rfl
  | isolate names label =>
    have derived : (w.derive s .isolated label none).2.KeysApart := apart.of_same rfl rfl
    exact (derived.captureVariables s names).of_same rfl rfl
  | newFunction => exact apart.of_same rfl rfl
  | newMethod => exact apart.of_same rfl rfl
  | newClass => exact apart.of_same rfl rfl
  | register =>
    simp only [World.registerFunction]
    split
    · exact apart.of_same rfl rfl
    · exact apart.of_same rfl rfl
  | registerClass =>
    simp only [World.setClassTable]
    split
    · exact apart.of_same rfl rfl
    · exact apart.of_same rfl rfl
  | makeInstance => exact apart.makeInstance _

theorem keysApart_invariant (alone : ∀ body, ¬ D.natives body) :
    Invariant D fun _ _ w => w.KeysApart := by
  refine .of_world (fun _ apart h => h.keysApart alone apart) ?_
  intro f calls w f' calls' w' _ apart h
  cases h with
  | scope => exact apart.of_same rfl rfl
  | classBody => exact apart.of_same rfl rfl
  | invocation => exact apart
  | receiver => exact apart

theorem keysApart_start (config : Config) (host : Host) :
    (Session.start config host).world.KeysApart :=
  ⟨fun _ => .nil, fun _ => .nil⟩

/-! ## Reached worlds -/

namespace World

/-- Neither of two values is loosely equal to the other, unless both are containers.  Of floating
point numbers only the earlier one is compared with the later one, as a dictionary does it. -/
def Differ (w : World) (a b : Value) : Prop :=
  a.isContainer = true ∧ b.isContainer = true ∨
    w.looseEq a b = false ∧
      (a.isFloating = false → b.isFloating = false → w.looseEq b a = false)

/-- In the dictionaries and sets that variables lead to, keys and elements differ. -/
structure KeysDiffer (w : World) : Prop where
  keys : ∀ {h : Handle .dict}, w.Stored h.cell → ((w.entries h).map (·.1)).Pairwise w.Differ
  elements : ∀ {h : Handle .set}, w.Stored h.cell → (w.elements h).Pairwise w.Differ

theorem Differ.of_unlike (unlike : a.alike b = false) (disjoint : a.contents.Disjoint b.contents) :
    w.Differ a b := by
  by_cases containers : a.isContainer = true ∧ b.isContainer = true
  · exact .inl containers
  · refine .inr ⟨Bool.eq_false_iff.mpr fun same => ?_, fun fixedA fixedB =>
      Bool.eq_false_iff.mpr fun same => ?_⟩
    · obtain alike | ⟨c, ha, hb⟩ | both := looseEq_cases same
      · exact absurd (alike.symm.trans unlike) Bool.noConfusion
      · exact disjoint ha hb
      · exact containers both
    · obtain alike | ⟨c, hb, ha⟩ | both := looseEq_cases same
      · rw [Value.alike_comm fixedB fixedA, unlike] at alike
        exact absurd alike Bool.noConfusion
      · exact disjoint ha hb
      · exact containers both.symm

theorem Apart.to_keysDiffer {kept : Cell → Prop} (h : w.Apart kept) (apart : w.KeysApart) :
    w.KeysDiffer := by
  constructor
  case keys =>
    intro i stored
    have nodup := h.nodup (h.stored stored)
    rw [slots_dict, List.nodup_flatMap] at nodup
    have disjoint : ((w.entries i).map (·.1)).Pairwise fun a b =>
        a.contents.Disjoint b.contents := by
      refine List.pairwise_map.mpr (nodup.2.imp fun apart c ha hb => ?_)
      exact apart (List.mem_append_left _ ha) (List.mem_append_left _ hb)
    exact ((apart.entries i).and disjoint).imp fun both => .of_unlike both.1 both.2
  case elements =>
    intro i stored
    have nodup := h.nodup (h.stored stored)
    rw [slots_set, List.nodup_flatMap] at nodup
    exact ((apart.elements i).and nodup.2).imp fun both => .of_unlike both.1 both.2

end World

/-- At every moment of a program that declares nothing as mutable, and with hosts without bodies,
two keys of a dictionary are loosely equal only if both are containers. -/
theorem Session.Reachable.keysDiffer {s : Session} (h : s.Reachable .copying)
    {program : List Statement} (fixed : ∀ f ∈ blockMarks program, f.isMutable = false)
    (fuel : Nat) : (s.reached fuel program).world.KeysDiffer := by
  have unshared : Invariant .copying fun _ _ w => w.Unshared :=
    unshared_invariant id (fun _ => id) id
  have keys : Invariant .copying fun _ _ w => w.KeysApart := keysApart_invariant fun _ => id
  obtain ⟨-, kept, apart⟩ := h.reached_fixed unshared unshared_start fixed fuel
  obtain ⟨-, keysApart⟩ := h.reached_fixed keys keysApart_start fixed fuel
  exact apart.to_keysDiffer keysApart

/-- An integer literal. -/
def integer (n : Int32) : Expr := .ofTerm (.literal (.int n))

/-- A program that declares `d` as `{1: 0, 2: 0}` and puts another value in at `1`. -/
def refill : List Statement :=
  [⟨.declare ⟨"d", none, some (.ofTerm (.dict [⟨integer 1, integer 0⟩, ⟨integer 2, integer 0⟩])), {}⟩,
      Span.none⟩,
    ⟨.expression (.ofTerm (.chain .scope [.read "d",
      .call "insert" [⟨none, integer 1⟩, ⟨none, integer 5⟩]])), Span.none⟩]

/-- The dictionary in `d` still has two entries, with different keys. -/
theorem keysDiffer_refill :
    (∀ f ∈ blockMarks refill, f.isMutable = false) ∧
    (((Session.start {} Kit.host).reached 60 refill).world.localBinding? ⟨0⟩ "d").any
      (fun b => b.value.contents.any fun c =>
        (((Session.start {} Kit.host).reached 60 refill).world.entries ⟨c.index⟩).length == 2) = true ∧
    ((Session.start {} Kit.host).reached 60 refill).world.KeysDiffer := by
  have fixed : ∀ f ∈ blockMarks refill, f.isMutable = false := by decide +kernel
  exact ⟨fixed, by decide +kernel, Session.Reachable.keysDiffer (.start {} Kit.host) fixed 60⟩

/-- A program that declares `d` as `{[1]: 0, [1, 2]: 0}` and pushes `2` to the first key. -/
def pushToKey : List Statement :=
  let list (items : List Expr) : Expr := .ofTerm (.sequence .list items)
  [⟨.declare ⟨"d", none, some (.ofTerm (.dict [⟨list [integer 1], integer 0⟩,
      ⟨list [integer 1, integer 2], integer 0⟩])), {}⟩, Span.none⟩,
    ⟨.expression (.ofTerm (.chain .scope [.read "d", .call "keys" [],
      .call "get" [⟨none, integer 0⟩], .call "push" [⟨none, integer 2⟩]])), Span.none⟩]

/-- A list that is a key can come to equal another key. -/
theorem not_keys_unequal_pushToKey :
    (∀ f ∈ blockMarks pushToKey, f.isMutable = false) ∧
    ∃ h : Handle .dict, ((Session.start {} Kit.host).reached 60 pushToKey).world.Stored h.cell ∧
      ¬ ((((Session.start {} Kit.host).reached 60 pushToKey).world.entries h).map (·.1)).Pairwise
        fun a b => ((Session.start {} Kit.host).reached 60 pushToKey).world.looseEq a b = false := by
  refine ⟨by decide +kernel, ⟨1⟩, ?_, by decide +kernel⟩
  have there : (⟨0⟩ : ScopeId).In
      ((Session.start {} Kit.host).reached 60 pushToKey).world.count := by decide +kernel
  exact .slot (.scope there) (by decide +kernel)

end ScopeLang
