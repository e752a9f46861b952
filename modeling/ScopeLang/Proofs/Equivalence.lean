/-
# Loose equality is an equivalence

Loose equality looks for a first equal key, and of two sets it goes through one only.
`KeyEquality` says what it comes to on keys, and these hold no instances: a copy of an instance is
another instance, and a dictionary copies its keys.  For the equality alone an instance is no
trouble.  It equals itself and nothing else, whatever is in it, and so does an overload set.  A
world with overload sets in place of the instances (`World.plain`) therefore compares its values
as before (`looseEq_plain`), and what is known of keys holds of all comparable values.

What has to be shown anew is what strict equality has to do with it.  It passes two handles of one
container without a look at the contents, which is right for values that equal themselves, and it
goes through a set as loose equality does, but from the other side.

Of equal keys either can be put for the other, be it the one that is looked for or one that is
there (`Interchangeable`).  The one thing that is not found but left behind is the new key of an
insertion, and it is left behind only where no equal key was.
-/
import ScopeLang.Proofs.Dictionaries

namespace ScopeLang

open List (Forall₂)

variable {w : World} {a b c k k' v : Value} {mine mine' : Cell → Prop}

/-! ## Comparable values -/

/-- Neither a container nor a floating point number. -/
def Datum.isDiscrete : Datum → Bool
  | .number (.float _) | .number (.double _) | .list _ | .array _ | .dict _ | .set _ => false
  | _ => true

/-- A value of a world that has no floating point number in it and does not hold itself, and in
which no key of a dictionary and no element of a set is equal to a later one: insertion would not
have put the later one in. -/
inductive Comparable (w : World) : Value → Prop
  | discrete {d : Datum} {s : Attributes} (discrete : d.isDiscrete = true) : Comparable w ⟨d, s⟩
  | list {x : Handle .list} {s : Attributes} (here : x.In w.count)
      (items : ∀ v ∈ w.items x, Comparable w v) : Comparable w ⟨.list x, s⟩
  | array {x : Handle .list} {s : Attributes} (here : x.In w.count)
      (items : ∀ v ∈ w.items x, Comparable w v) : Comparable w ⟨.array x, s⟩
  | dict {x : Handle .dict} {s : Attributes} (here : x.In w.count)
      (keys : ∀ e ∈ w.entries x, Comparable w e.1)
      (values : ∀ e ∈ w.entries x, Comparable w e.2)
      (apart : (w.entries x).Pairwise fun e f => ¬ w.looseEq e.1 f.1 = true) :
      Comparable w ⟨.dict x, s⟩
  | set {x : Handle .set} {s : Attributes} (here : x.In w.count)
      (elements : ∀ v ∈ w.elements x, Comparable w v)
      (apart : (w.elements x).Pairwise fun u v => ¬ w.looseEq u v = true) :
      Comparable w ⟨.set x, s⟩

/-! ## Overload sets in place of instances -/

/-- The datum with an overload set for an instance.  Overload sets that are there make room. -/
def Datum.plain : Datum → Datum
  | .object h => .overloads ⟨2 * h.index + 1⟩
  | .overloads h => .overloads ⟨2 * h.index⟩
  | d => d

def Value.plain (v : Value) : Value := { v with datum := v.datum.plain }

/-- The world with overload sets for the instances in its containers. -/
def World.plain (w : World) : World :=
  { w with
    lists := ⟨w.lists.cells.map (List.map Value.plain)⟩
    dicts := ⟨w.dicts.cells.map (List.map (Prod.map Value.plain Value.plain))⟩
    sets := ⟨w.sets.cells.map (List.map Value.plain)⟩ }

namespace World

theorem items_plain (x : Handle .list) : w.plain.items x = (w.items x).map Value.plain := by
  simp only [items, Store.get, plain, Array.getD_eq_getD_getElem?, Array.getElem?_map]
  cases w.lists.cells[x.index]? <;> rfl

theorem entries_plain (x : Handle .dict) :
    w.plain.entries x = (w.entries x).map (Prod.map Value.plain Value.plain) := by
  simp only [entries, Store.get, plain, Array.getD_eq_getD_getElem?, Array.getElem?_map]
  cases w.dicts.cells[x.index]? <;> rfl

theorem elements_plain (x : Handle .set) :
    w.plain.elements x = (w.elements x).map Value.plain := by
  simp only [elements, Store.get, plain, Array.getD_eq_getD_getElem?, Array.getElem?_map]
  cases w.sets.cells[x.index]? <;> rfl

theorem count_plain : w.plain.count = w.count := by
  funext k
  cases k <;> simp [count, plain, Store.size]

theorem size_plain : w.plain.size = w.size := by
  simp [size, plain, Store.size]

end World

theorem beq_handles {k l : CellKind} {f : Nat → Nat} (x y : Handle k)
    (injective : ∀ i j, f i = f j → i = j) :
    ((⟨f x.index⟩ : Handle l) == ⟨f y.index⟩) = (x == y) := by
  obtain ⟨i⟩ := x
  obtain ⟨j⟩ := y
  rw [Bool.eq_iff_iff, beq_iff_eq, beq_iff_eq, Handle.mk.injEq, Handle.mk.injEq]
  exact ⟨injective i j, congrArg f⟩

section Found

variable {p q : Value → Value → Bool}

theorem allPairs_map {α β : Type} (p : β → β → Bool) (f : α → β) (xs ys : List α) :
    allPairs p (xs.map f) (ys.map f) = allPairs (fun x y => p (f x) (f y)) xs ys := by
  simp only [allPairs, List.length_map, List.zip_map, List.all_map, Function.comp_def,
    Prod.map_fst, Prod.map_snd]

theorem hasElement_plain (same : ∀ a b : Value, p a.plain b.plain = q a b) (xs : List Value) :
    hasElement p (xs.map Value.plain) v.plain = hasElement q xs v := by
  simp only [hasElement, List.any_map, Function.comp_def, same]

theorem lookupEntry_plain (same : ∀ a b : Value, p a.plain b.plain = q a b)
    (es : List (Value × Value)) :
    lookupEntry p (es.map (Prod.map Value.plain Value.plain)) v.plain =
      (lookupEntry q es v).map Value.plain := by
  simp only [lookupEntry, List.find?_map, Function.comp_def, Prod.map_fst, same, Option.map_map]
  rfl

end Found

namespace World

theorem strictEqWithin_plain (n : Nat) (a b : Value) :
    w.plain.strictEqWithin n a.plain b.plain = w.strictEqWithin n a b := by
  induction n generalizing a b with
  | zero => rfl
  | succ n ih =>
    obtain ⟨d, s⟩ := a
    obtain ⟨e, t⟩ := b
    have lists : ∀ x y : Handle .list,
        allPairs (w.plain.strictEqWithin n) (w.plain.items x) (w.plain.items y) =
          allPairs (w.strictEqWithin n) (w.items x) (w.items y) := by
      intro x y
      simp only [items_plain, allPairs_map, ih]
    cases d <;> cases e <;> try rfl
    case list.list x y => exact congrArg (x == y || ·) (lists x y)
    case array.array x y => exact congrArg (x == y || ·) (lists x y)
    case dict.dict x y =>
      refine congrArg (x == y || ·) ?_
      rw [entries_plain, entries_plain, allPairs_map]
      simp only [Prod.map_fst, Prod.map_snd, ih]
    case set.set x y =>
      refine congrArg (x == y || ·) ?_
      simp only [elements_plain, List.length_map, List.all_map, Function.comp_def,
        hasElement_plain ih]
    -- an instance has become an odd overload set, and an overload set an even one
    case object.object x y =>
      refine beq_handles x y (f := fun i => 2 * i + 1) fun i j same => ?_
      omega
    case overloads.overloads x y =>
      refine beq_handles x y (f := fun i => 2 * i) fun i j same => ?_
      omega
    case object.overloads x y =>
      refine beq_eq_false_iff_ne.mpr fun same => ?_
      have index := congrArg Handle.index same
      simp only at index
      omega
    case overloads.object x y =>
      refine beq_eq_false_iff_ne.mpr fun same => ?_
      have index := congrArg Handle.index same
      simp only at index
      omega

theorem strictEq_plain (a b : Value) : w.plain.strictEq a.plain b.plain = w.strictEq a b := by
  rw [strictEq, size_plain, strictEqWithin_plain, strictEq]

theorem looseEqWithin_plain (n : Nat) (a b : Value) :
    w.plain.looseEqWithin n a.plain b.plain = w.looseEqWithin n a b := by
  induction n generalizing a b with
  | zero => rfl
  | succ n ih =>
    obtain ⟨d, s⟩ := a
    obtain ⟨e, t⟩ := b
    have strict := strictEq_plain (w := w) ⟨d, s⟩ ⟨e, t⟩
    have lists : ∀ x y : Handle .list,
        allPairs (w.plain.looseEqWithin n) (w.plain.items x) (w.plain.items y) =
          allPairs (w.looseEqWithin n) (w.items x) (w.items y) := by
      intro x y
      simp only [items_plain, allPairs_map, ih]
    cases d <;> cases e <;> try exact strict
    case number.number x y => rfl
    case list.list x y => exact lists x y
    case array.array x y => exact lists x y
    case dict.dict x y =>
      show w.plain.looseEqWithin (n + 1) ⟨.dict x, s⟩ ⟨.dict y, t⟩ = _
      simp only [looseEqWithin_dict, entries_plain, List.length_map, List.all_map,
        Function.comp_def, Prod.map_fst, Prod.map_snd, lookupEntry_plain ih, Option.any_map, ih]
    case set.set x y =>
      show (_ && _) = (_ && _)
      simp only [elements_plain, List.length_map, List.all_map, Function.comp_def,
        hasElement_plain ih]

theorem looseEq_plain (a b : Value) : w.plain.looseEq a.plain b.plain = w.looseEq a b := by
  rw [looseEq, size_plain, looseEqWithin_plain, looseEq]

end World

/-! ## Strict equality -/

theorem Agree.of_datum {w : World} (h : Discerned mine w a) (same : a.datum = b.datum) :
    Agree w w a b := by
  obtain ⟨d, s⟩ := a
  obtain ⟨e, t⟩ := b
  obtain rfl : d = e := same
  have self := Agree.refl h
  cases self with
  | atom hd he => exact .atom hd he
  | list items => exact .list items
  | array items => exact .array items
  | dict partner length there keys values => exact .dict partner length there keys values
  | set partner length there elements => exact .set partner length there elements

section Containers

variable {n : Nat} (ih : ∀ {mine mine' : Cell → Prop} {a b : Value}, Discerned mine w a →
  Discerned mine' w b → w.strictEqWithin n a b = true → Agree w w a b)

include ih

theorem agree_items {us vs : List Value} (first : ∀ u ∈ us, Discerned mine w u)
    (second : ∀ v ∈ vs, Discerned mine' w v) (pairs : allPairs (w.strictEqWithin n) us vs = true) :
    Forall₂ (Agree w w) us vs :=
  forall₂_imp_mem (allPairs_iff.mp pairs) fun u hu v hv => ih (first u hu) (second v hv)

theorem agree_dict {x y : Handle .dict} {s t : Attributes} (ha : Discerned mine w ⟨.dict x, s⟩)
    (hb : Discerned mine' w ⟨.dict y, t⟩)
    (pairs : allPairs (fun e f => w.strictEqWithin n e.1 f.1 && w.strictEqWithin n e.2 f.2)
      (w.entries x) (w.entries y) = true) : Agree w w ⟨.dict x, s⟩ ⟨.dict y, t⟩ := by
  have first := (ha.container (List.mem_singleton_self _)).2
  have second := (hb.container (List.mem_singleton_self _)).2
  refine Agree.dict_iff.mpr (.of_forall₂ (forall₂_imp_mem (allPairs_iff.mp pairs) ?_))
  intro e he f hf both
  obtain ⟨key, value⟩ := (Bool.and_eq_true_iff).mp both
  obtain ⟨hek, hev⟩ := World.mem_values_of_entry he
  obtain ⟨hfk, hfv⟩ := World.mem_values_of_entry hf
  exact ⟨ih (first _ hek) (second _ hfk) key, ih (first _ hev) (second _ hfv) value⟩

/-- The elements are looked for from the other side. -/
theorem agree_set {x y : Handle .set} {s t : Attributes} (ha : Discerned mine w ⟨.set x, s⟩)
    (hb : Discerned mine' w ⟨.set y, t⟩)
    (length : (w.elements x).length = (w.elements y).length)
    (each : (w.elements x).all (hasElement (w.strictEqWithin n) (w.elements y)) = true) :
    Agree w w ⟨.set x, s⟩ ⟨.set y, t⟩ := by
  have first := (ha.container (List.mem_singleton_self _)).2
  have second := (hb.container (List.mem_singleton_self _)).2
  refine Agree.set_iff.mpr ⟨length, fun u hu => ?_⟩
  obtain ⟨v, hv, equal⟩ := List.any_eq_true.mp (List.all_eq_true.mp each u hu)
  exact ⟨v, hv, .symm (second v hv) (first u hu) (ih (second v hv) (first u hu) equal)⟩

end Containers

/-- Numbers that are the same and are no floating point numbers are one. -/
theorem Number.eq_of_same {x y : Number} {l : Atom} (reads : (Datum.number x).atom? = some l)
    (same : x.same y = true) : x = y := by
  cases x <;> cases y <;> first | exact absurd same Bool.false_ne_true | skip
  case int.int x y => exact congrArg _ (eq_of_beq same)
  case long.long x y => exact congrArg _ (eq_of_beq same)
  case float.float => cases reads
  case double.double => cases reads

/-- Values that are strictly equal mean the same. -/
theorem agree_of_strictEqWithin {n : Nat} (ha : Discerned mine w a) (hb : Discerned mine' w b)
    (same : w.strictEqWithin n a b = true) : Agree w w a b := by
  induction n generalizing a b mine mine' with
  | zero => cases same
  | succ n ih =>
    obtain ⟨d, s⟩ := a
    obtain ⟨e, t⟩ := b
    -- equal data agree, and so do two containers that are one
    have equal : d = e → Agree w w ⟨d, s⟩ ⟨e, t⟩ := fun same => .of_datum ha same
    cases d <;> cases e <;> first | exact absurd same Bool.false_ne_true | skip
    case null.null => exact equal rfl
    case bool.bool x y => exact equal (congrArg _ (eq_of_beq same))
    case number.number x y =>
      cases ha with
      | atom reads => exact equal (congrArg _ (Number.eq_of_same reads same))
    case char.char x y => exact equal (congrArg _ (eq_of_beq same))
    case string.string x y => exact equal (congrArg _ (eq_of_beq same))
    case callable.callable x y => exact equal (congrArg _ (eq_of_beq same))
    case object.object x y => exact equal (congrArg _ (eq_of_beq same))
    case overloads.overloads x y => exact equal (congrArg _ (eq_of_beq same))
    case list.list x y =>
      rcases Bool.or_eq_true_iff.mp same with one | pairs
      · exact equal (congrArg _ (eq_of_beq one))
      · exact .list (agree_items ih (ha.container (List.mem_singleton_self _)).2
          (hb.container (List.mem_singleton_self _)).2 pairs)
    case array.array x y =>
      rcases Bool.or_eq_true_iff.mp same with one | pairs
      · exact equal (congrArg _ (eq_of_beq one))
      · exact .array (agree_items ih (ha.container (List.mem_singleton_self _)).2
          (hb.container (List.mem_singleton_self _)).2 pairs)
    case dict.dict x y =>
      rcases Bool.or_eq_true_iff.mp same with one | pairs
      · exact equal (congrArg _ (eq_of_beq one))
      · exact agree_dict ih ha hb pairs
    case set.set x y =>
      rcases Bool.or_eq_true_iff.mp same with one | found
      · exact equal (congrArg _ (eq_of_beq one))
      · obtain ⟨length, each⟩ := Bool.and_eq_true_iff.mp found
        exact agree_set ih ha hb (eq_of_beq length) each

/-! ## An equivalence -/

theorem Datum.isDiscrete_iff {d : Datum} : d.isDiscrete = true ↔ ∃ l, d.plain.atom? = some l := by
  rcases d with _ | _ | (_ | _ | _ | _) | _ | _ | _ | _ | _ | _ | _ | _ | _ <;>
    simp [Datum.isDiscrete, Datum.plain, Datum.atom?]

/-- Keeping apart is the same with overload sets in place of instances. -/
theorem World.apart_plain {u v : Value} :
    ¬ w.plain.looseEq u.plain v.plain = true ↔ ¬ w.looseEq u v = true := by
  rw [looseEq_plain]

/-- A comparable value is a key once overload sets stand for the instances in it. -/
theorem Comparable.isKey (h : Comparable w v) : IsKey (fun _ => True) w.plain v.plain := by
  induction h with
  | discrete discrete =>
    obtain ⟨l, reads⟩ := Datum.isDiscrete_iff.mp discrete
    exact .atom reads
  | list here _ ih =>
    refine .list ⟨trivial, World.count_plain.symm ▸ here⟩ ?_
    rw [World.items_plain]
    exact List.forall_mem_map.mpr ih
  | array here _ ih =>
    refine .array ⟨trivial, World.count_plain.symm ▸ here⟩ ?_
    rw [World.items_plain]
    exact List.forall_mem_map.mpr ih
  | dict here _ _ apart keys values =>
    refine .dict ⟨trivial, World.count_plain.symm ▸ here⟩ ?_ ?_ ?_ <;> rw [World.entries_plain]
    · exact List.forall_mem_map.mpr keys
    · exact List.forall_mem_map.mpr values
    · exact List.pairwise_map.mpr (apart.imp World.apart_plain.mpr)
  | set here _ apart ih =>
    refine .set ⟨trivial, World.count_plain.symm ▸ here⟩ ?_ ?_ <;> rw [World.elements_plain]
    · exact List.forall_mem_map.mpr ih
    · exact List.pairwise_map.mpr (apart.imp World.apart_plain.mpr)

/-- Nothing else is one. -/
theorem comparable_of_isKey (h : IsKey (fun _ => True) w.plain v.plain) : Comparable w v := by
  generalize same : v.plain = p at h
  induction h generalizing v with
  | atom reads =>
    obtain ⟨d, s⟩ := v
    cases same
    exact .discrete (Datum.isDiscrete_iff.mpr ⟨_, reads⟩)
  | list here _ ih =>
    obtain ⟨d, s⟩ := v
    cases d <;> cases same
    rw [World.items_plain] at ih
    exact .list (World.count_plain ▸ here.2) fun v hv => List.forall_mem_map.mp ih v hv rfl
  | array here _ ih =>
    obtain ⟨d, s⟩ := v
    cases d <;> cases same
    rw [World.items_plain] at ih
    exact .array (World.count_plain ▸ here.2) fun v hv => List.forall_mem_map.mp ih v hv rfl
  | dict here _ _ apart keys values =>
    obtain ⟨d, s⟩ := v
    cases d <;> cases same
    rw [World.entries_plain] at keys values apart
    exact .dict (World.count_plain ▸ here.2)
      (fun e he => List.forall_mem_map.mp keys e he rfl)
      (fun e he => List.forall_mem_map.mp values e he rfl)
      ((List.pairwise_map.mp apart).imp World.apart_plain.mp)
  | set here _ apart ih =>
    obtain ⟨d, s⟩ := v
    cases d <;> cases same
    rw [World.elements_plain] at ih apart
    exact .set (World.count_plain ▸ here.2) (fun v hv => List.forall_mem_map.mp ih v hv rfl)
      ((List.pairwise_map.mp apart).imp World.apart_plain.mp)

namespace Comparable

theorem discerned (h : Comparable w v) : Discerned (fun _ => True) w.plain v.plain :=
  isKey_iff.mp h.isKey

/-- Loose equality of comparable values is what they mean. -/
theorem looseEq_iff (ha : Comparable w a) (hb : Comparable w b) :
    w.looseEq a b = true ↔ Agree w.plain w.plain a.plain b.plain := by
  rw [← World.looseEq_plain]
  exact World.looseEq_iff ha.discerned hb.discerned

theorem refl (ha : Comparable w a) : w.looseEq a a = true :=
  (ha.looseEq_iff ha).mpr (.refl ha.discerned)

theorem symm (ha : Comparable w a) (hb : Comparable w b) (h : w.looseEq a b = true) :
    w.looseEq b a = true :=
  (hb.looseEq_iff ha).mpr (.symm ha.discerned hb.discerned ((ha.looseEq_iff hb).mp h))

theorem trans (ha : Comparable w a) (hb : Comparable w b) (hc : Comparable w c)
    (h : w.looseEq a b = true) (i : w.looseEq b c = true) : w.looseEq a c = true :=
  (ha.looseEq_iff hc).mpr
    (.trans ha.discerned ((ha.looseEq_iff hb).mp h) ((hb.looseEq_iff hc).mp i))

theorem of_strictEq (ha : Comparable w a) (hb : Comparable w b) (h : w.strictEq a b = true) :
    w.looseEq a b = true := by
  refine (ha.looseEq_iff hb).mpr ?_
  rw [← World.strictEq_plain] at h
  exact agree_of_strictEqWithin ha.discerned hb.discerned h

/-- Of two equal values either both are equal to a third one or neither is. -/
theorem looseEq_congr {c c' : Value} (ha : Comparable w a) (hb : Comparable w b)
    (hc : Comparable w c) (hc' : Comparable w c') (left : w.looseEq a b = true)
    (right : w.looseEq c c' = true) : w.looseEq a c = w.looseEq b c' := by
  rw [Bool.eq_iff_iff]
  constructor
  · intro equal
    exact hb.trans hc hc' (hb.trans ha hc (ha.symm hb left) equal) right
  · intro equal
    exact ha.trans hc' hc (ha.trans hb hc' left equal) (hc.symm hc' right)

end Comparable

/-! ## Equal keys -/

section Substitution

variable {equal : Value → Value → Bool} {es fs : List (Value × Value)} {xs ys : List Value}
  {E : Value → Value → Prop}

/-- Entries with related keys and the same values, in the same order. -/
def Rekeyed (E : Value → Value → Prop) (es fs : List (Value × Value)) : Prop :=
  Forall₂ (fun e f => E e.1 f.1 ∧ e.2 = f.2) es fs

theorem rekeyed_eq : Rekeyed (· = ·) es fs ↔ es = fs := by
  constructor
  · intro h
    induction h with
    | nil => rfl
    | cons first _ ih => exact congrArg₂ _ (Prod.ext first.1 first.2) ih
  · rintro rfl
    exact List.forall₂_same.mpr fun _ _ => ⟨rfl, rfl⟩

variable (alike : ∀ e ∈ es, ∀ f ∈ fs, E e.1 f.1 → equal e.1 k = equal f.1 k')

include alike

theorem Rekeyed.lookupEntry (h : Rekeyed E es fs) :
    lookupEntry equal es k = lookupEntry equal fs k' := by
  induction h with
  | nil => rfl
  | @cons e f es fs first others ih =>
    have same := alike e List.mem_cons_self f List.mem_cons_self first.1
    have ih := ih fun e he f hf => alike e (List.mem_cons_of_mem _ he) f (List.mem_cons_of_mem _ hf)
    simp only [ScopeLang.lookupEntry, List.find?_cons] at ih ⊢
    rw [← same]
    cases equal e.1 k with
    | true => exact congrArg some first.2
    | false => exact ih

theorem Rekeyed.insertEntry (h : Rekeyed E es fs) (key : E k k') (value : Value) :
    Rekeyed E (insertEntry equal k value es) (insertEntry equal k' value fs) := by
  induction h with
  | nil => exact .cons ⟨key, rfl⟩ .nil
  | @cons e f es fs first others ih =>
    have same := alike e List.mem_cons_self f List.mem_cons_self first.1
    have ih := ih fun e he f hf => alike e (List.mem_cons_of_mem _ he) f (List.mem_cons_of_mem _ hf)
    simp only [ScopeLang.insertEntry]
    rw [← same]
    split
    · exact .cons ⟨first.1, rfl⟩ others
    · exact .cons first ih

theorem Rekeyed.eraseP (h : Rekeyed E es fs) :
    Rekeyed E (es.eraseP fun e => equal e.1 k) (fs.eraseP fun f => equal f.1 k') := by
  induction h with
  | nil => exact .nil
  | @cons e f es fs first others ih =>
    have same := alike e List.mem_cons_self f List.mem_cons_self first.1
    have ih := ih fun e he f hf => alike e (List.mem_cons_of_mem _ he) f (List.mem_cons_of_mem _ hf)
    rw [List.eraseP_cons, List.eraseP_cons, ← same]
    cases equal e.1 k with
    | true => exact others
    | false => exact .cons first ih

omit alike in
/-- Where an equal key is found it is kept, so the new one does not matter. -/
theorem insertEntry_eq (alike : ∀ e ∈ es, equal e.1 k = equal e.1 k') (value : Value) :
    insertEntry equal k value es =
      if (lookupEntry equal es k).isSome then insertEntry equal k' value es
      else es ++ [(k, value)] := by
  induction es with
  | nil => rfl
  | cons e es ih =>
    obtain ⟨key, old⟩ := e
    have same := alike (key, old) List.mem_cons_self
    have ih := ih fun e he => alike e (List.mem_cons_of_mem _ he)
    by_cases found : equal key k = true
    · have found' : equal key k' = true := same ▸ found
      simp [insertEntry, lookupEntry, found, found']
    · have missed : equal key k = false := Bool.eq_false_iff.mpr found
      have missed' : equal key k' = false := same ▸ missed
      have later : lookupEntry equal ((key, old) :: es) k = lookupEntry equal es k := by
        simp [lookupEntry, missed]
      rw [later]
      simp only [insertEntry, missed, missed', ih, Bool.false_eq_true, if_false]
      split <;> rfl

omit alike in
theorem hasElement_congr (h : Forall₂ (fun u v => equal u k = equal v k') xs ys) :
    hasElement equal xs k = hasElement equal ys k' := by
  induction h with
  | nil => rfl
  | cons first _ ih => exact congrArg₂ (· || ·) first ih

end Substitution

/-- Whatever is looked for as a key, put in or taken out, either of two values does: the same is
found in the same entries, and also when other keys in them are replaced by equal ones. -/
structure World.Interchangeable (w : World) (k k' : Value) : Prop where
  get : ∀ {es : List (Value × Value)}, (∀ e ∈ es, Comparable w e.1) →
    lookupEntry w.looseEq es k = lookupEntry w.looseEq es k'
  insert : ∀ {es : List (Value × Value)}, (∀ e ∈ es, Comparable w e.1) → ∀ value,
    insertEntry w.looseEq k value es =
      if (lookupEntry w.looseEq es k).isSome then insertEntry w.looseEq k' value es
      else es ++ [(k, value)]
  remove : ∀ {es : List (Value × Value)}, (∀ e ∈ es, Comparable w e.1) →
    (es.eraseP fun e => w.looseEq e.1 k) = es.eraseP fun e => w.looseEq e.1 k'
  contains : ∀ {xs : List Value}, (∀ v ∈ xs, Comparable w v) →
    hasElement w.looseEq xs k = hasElement w.looseEq xs k'
  rekeyed : ∀ {es fs : List (Value × Value)}, (∀ e ∈ es, Comparable w e.1) →
    (∀ f ∈ fs, Comparable w f.1) → Rekeyed (fun a b => w.looseEq a b = true) es fs →
      lookupEntry w.looseEq es k = lookupEntry w.looseEq fs k' ∧
      (∀ value, Rekeyed (fun a b => w.looseEq a b = true) (insertEntry w.looseEq k value es)
        (insertEntry w.looseEq k' value fs)) ∧
      Rekeyed (fun a b => w.looseEq a b = true) (es.eraseP fun e => w.looseEq e.1 k)
        (fs.eraseP fun f => w.looseEq f.1 k')
  replaced : ∀ {xs ys : List Value}, (∀ v ∈ xs, Comparable w v) → (∀ v ∈ ys, Comparable w v) →
    Forall₂ (fun u v => w.looseEq u v = true) xs ys →
      hasElement w.looseEq xs k = hasElement w.looseEq ys k'

theorem Comparable.interchangeable (hk : Comparable w k) (hk' : Comparable w k')
    (same : w.looseEq k k' = true) : w.Interchangeable k k' := by
  have alike : ∀ {a b}, Comparable w a → Comparable w b → w.looseEq a b = true →
      w.looseEq a k = w.looseEq b k' := by
    intro a b ha hb equal
    exact ha.looseEq_congr hb hk hk' equal same
  have itself : ∀ {a b}, Comparable w a → a = b → w.looseEq a k = w.looseEq b k' := by
    rintro a _ ha rfl
    exact alike ha ha ha.refl
  constructor
  case get =>
    intro es keys
    exact (rekeyed_eq.mpr rfl).lookupEntry fun e he _ _ equal => itself (keys e he) equal
  case insert =>
    intro es keys value
    exact insertEntry_eq (fun e he => itself (keys e he) rfl) value
  case remove =>
    intro es keys
    refine rekeyed_eq.mp ((rekeyed_eq.mpr rfl).eraseP fun e he _ _ equal => ?_)
    exact itself (keys e he) equal
  case contains =>
    intro xs elements
    exact hasElement_congr (List.forall₂_same.mpr fun v hv => itself (elements v hv) rfl)
  case rekeyed =>
    intro es fs keys keys' h
    have alike := fun e he f hf equal => alike (keys e he) (keys' f hf) equal
    exact ⟨h.lookupEntry alike, h.insertEntry alike same, h.eraseP alike⟩
  case replaced =>
    intro xs ys elements elements' h
    refine hasElement_congr (forall₂_imp_mem h fun u hu v hv equal => ?_)
    exact alike (elements u hu) (elements' v hv) equal

/-- Loose equality is an equivalence of the comparable values of a world.  It is implied by strict
equality, and equal values are interchangeable as keys. -/
theorem World.looseEq_equivalence (w : World) :
    (∀ {a}, Comparable w a → w.looseEq a a = true) ∧
    (∀ {a b}, Comparable w a → Comparable w b → w.looseEq a b = true → w.looseEq b a = true) ∧
    (∀ {a b c}, Comparable w a → Comparable w b → Comparable w c → w.looseEq a b = true →
      w.looseEq b c = true → w.looseEq a c = true) ∧
    (∀ {a b}, Comparable w a → Comparable w b → w.strictEq a b = true → w.looseEq a b = true) ∧
    ∀ {k k'}, Comparable w k → Comparable w k' → w.looseEq k k' = true →
      w.Interchangeable k k' :=
  ⟨Comparable.refl, Comparable.symm, Comparable.trans, Comparable.of_strictEq,
    Comparable.interchangeable⟩

/-- A world with three dictionaries `{1: {p}, [1, 2]: "x"}`, where `p` is an instance.  The last of
them has its entries in another order and longs for the integers. -/
def reordered : World :=
  let entry (key : Value) (n : Nat) : Value × Value := (key, .ofDatum (.set ⟨n⟩))
  let named (n : Nat) : Value × Value := (.ofDatum (.list ⟨n⟩), .string "x")
  { World.empty with
    lists := ⟨#[[.int 1, .int 2], [.int 1, .int 2], [.long 1, .int 2]]⟩
    sets := ⟨.replicate 3 [.ofDatum (.object ⟨0⟩)]⟩
    dicts := ⟨#[[entry (.int 1) 0, named 0], [entry (.int 1) 1, named 1],
      [named 2, entry (.long 1) 2]]⟩
    instances := ⟨#[default]⟩ }

/-- The first two are strictly equal and each is equal to the third, so that either is found in a
dictionary that has the other one as a key. -/
theorem looseEq_equivalence_reordered :
    let first := Value.ofDatum (.dict ⟨0⟩)
    let again := Value.ofDatum (.dict ⟨1⟩)
    let other := Value.ofDatum (.dict ⟨2⟩)
    (Comparable reordered first ∧ Comparable reordered again ∧ Comparable reordered other) ∧
      (reordered.strictEq first again = true ∧ reordered.strictEq again other = false) ∧
      reordered.looseEq first first = true ∧ reordered.looseEq first again = true ∧
      reordered.looseEq other first = true ∧ reordered.looseEq again other = true ∧
      reordered.Interchangeable first other := by
  intro first again other
  have comparable : ∀ v ∈ [first, again, other], Comparable reordered v := by
    have checked : ([first, again, other].all fun v =>
        reordered.plain.isKeyWithin reordered.plain.looseEq ⟨.scope, 0⟩ 4 v.plain) = true := by
      decide +kernel
    intro v hv
    have key := World.isKeyWithin_keylike (List.all_eq_true.mp checked v hv)
    exact comparable_of_isKey (key.mono fun _ _ => trivial)
  have one : Comparable reordered first := comparable _ (by simp)
  have two : Comparable reordered again := comparable _ (by simp)
  have three : Comparable reordered other := comparable _ (by simp)
  obtain ⟨refl, symm, trans, strict, interchangeable⟩ := World.looseEq_equivalence reordered
  have copies : reordered.strictEq first again = true := by decide +kernel
  have other : reordered.looseEq first other = true := by decide +kernel
  have same := strict one two copies
  exact ⟨⟨one, two, three⟩, ⟨copies, by decide +kernel⟩, refl one, same, symm one three other,
    trans two one three (symm one two same) other, interchangeable one three other⟩

end ScopeLang
