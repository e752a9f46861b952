/-
# Slices

The items of a sequence are the characters of a text, or what a list or an array
holds (`World.sequence?`).  A slice checks its bounds and then makes a new sequence of the
same kind (`exists_cutter`); all that is said of slices follows from what the check
yields (`sliceBounds_of_le`, `sliceBounds_refused`) and from what is known of `drop` and
`take`.

An index is an integer of either kind, and a negative one is out of range like one
past the end.  There are as many positions between items as there are items, and one
more, while an item has to be one of those that are there.
-/
import ScopeLang.Proofs.Integers
import ScopeLang.Proofs.Refusals
import ScopeLang.Proofs.SelfEquality

namespace ScopeLang

open World

variable {w w' : World} {v a b : Value} {xs ys : List Value} {k l : IntegerKind} {i j : Int}

/-! ## Sequences -/

/-- The items of a sequence. -/
def World.sequence? (w : World) (v : Value) : Option (List Value) :=
  match v.datum with
  | .string text => some (text.toList.map .char)
  | .list h | .array h => some (w.items h)
  | _ => none

/-- The value is there. -/
def Value.There (v : Value) (w : World) : Prop := ∀ c ∈ v.cells, c.In w.count

/-- A sequence of the same kind as another one, with the given items, and what was there before
it is as it was. -/
structure World.Cut (w : World) (v : Value) (ys : List Value) (v' : Value) (w' : World) : Prop where
  kind : v'.kind = v.kind
  items : w'.sequence? v' = some ys
  there : v'.There w'
  amends : w.Amends Nowhere Nowhere w'

/-- A sequence that is there keeps its items when cells are added. -/
theorem World.sequence?_later (there : v.There w) (amends : w.Amends Nowhere Nowhere w') :
    w'.sequence? v = w.sequence? v := by
  have items : ∀ h : Handle .list, h.cell ∈ v.cells → w'.items h = w.items h :=
    fun h mem => amends.all_values (c := h.cell) (there _ mem)
  obtain ⟨d, attrs⟩ := v
  cases d with
  | list h => exact congrArg some (items h (List.mem_singleton_self _))
  | array h => exact congrArg some (items h (List.mem_singleton_self _))
  | _ => rfl

/-! ## Slices of lists -/

section Lists

variable {α : Type} {items : List α} {i j m n : Nat}

theorem length_slice (most : j ≤ items.length) : (slice items (i, j)).length = j - i := by
  simp only [slice, List.length_take, List.length_drop]
  omega

theorem getElem?_slice (inside : m < j - i) : (slice items (i, j))[m]? = items[i + m]? := by
  rw [slice, List.getElem?_take_of_lt inside, List.getElem?_drop]

theorem slice_slice (inside : n ≤ j - i) :
    slice (slice items (i, j)) (m, n) = slice items (i + m, i + n) := by
  have shorter : min (n - m) (j - i - m) = i + n - (i + m) := by omega
  simp only [slice, List.drop_take, List.drop_drop, List.take_take, shorter]

theorem slice_succ (inside : i < items.length) : slice items (i, i + 1) = [items[i]] := by
  simp only [slice, List.drop_eq_getElem_cons inside, Nat.add_sub_cancel_left, List.take_succ_cons,
    List.take_zero]

theorem slice_append_slice :
    slice items (0, i) ++ slice items (i, items.length) = items := by
  simp only [slice, List.drop_zero, Nat.sub_zero]
  rw [List.take_of_length_le (Nat.le_of_eq List.length_drop), List.take_append_drop]

end Lists

/-! ## Bounds -/

section Bounds

variable (operation : String) (length : Nat)

theorem boundOf_of_le (h : v.Holds k i) (least : 0 ≤ i) (most : i ≤ length) (w : World) :
    (boundOf operation v length).runIn w = (.ok i.toNat, w) := by
  obtain ⟨n, hn, rfl⟩ := h.integer?
  have inside : 0 ≤ n.toInt ∧ n.toInt < (length + 1 : Nat) := ⟨least, by omega⟩
  simp only [boundOf, indexBelow, hn, if_pos inside]
  rfl

theorem boundOf_refused (h : v.Holds k i) (out : ¬ (0 ≤ i ∧ i ≤ length)) (w : World) :
    ∃ kind, (boundOf operation v length).runIn w = (.error kind, w) := by
  obtain ⟨n, hn, rfl⟩ := h.integer?
  have outside : ¬ (0 ≤ n.toInt ∧ n.toInt < (length + 1 : Nat)) := by omega
  simp only [boundOf, indexBelow, hn, if_neg outside]
  exact ⟨_, rfl⟩

theorem indexOf_of_lt (h : v.Holds k i) (least : 0 ≤ i) (most : i < length) (w : World) :
    (indexOf operation v length).runIn w = (.ok i.toNat, w) := by
  obtain ⟨n, hn, rfl⟩ := h.integer?
  simp only [indexOf, indexBelow, hn, if_pos (And.intro least most)]
  rfl

theorem indexOf_refused (h : v.Holds k i) (out : ¬ (0 ≤ i ∧ i < length)) (w : World) :
    ∃ kind, (indexOf operation v length).runIn w = (.error kind, w) := by
  obtain ⟨n, hn, rfl⟩ := h.integer?
  simp only [indexOf, indexBelow, hn, if_neg out]
  exact ⟨_, rfl⟩

theorem sliceBounds_of_le (ha : a.Holds k i) (hb : b.Holds l j)
    (ordered : 0 ≤ i ∧ i ≤ j ∧ j ≤ length) (w : World) :
    (sliceBounds operation a (some b) length).runIn w = (.ok (i.toNat, j.toNat), w) := by
  obtain ⟨least, order, most⟩ := ordered
  have start := boundOf_of_le operation length ha least (by omega) w
  have stop := boundOf_of_le operation length hb (by omega) most w
  rw [sliceBounds, runIn_bind_of_done start]
  show (boundOf operation b length >>= _).runIn w = _
  rw [runIn_bind_of_done stop]
  beta_reduce
  rw [if_neg (by omega)]
  rfl

theorem sliceBounds_refused (ha : a.Holds k i) (hb : b.Holds l j)
    (out : ¬ (0 ≤ i ∧ i ≤ j ∧ j ≤ length)) (w : World) :
    ∃ kind, (sliceBounds operation a (some b) length).runIn w = (.error kind, w) := by
  rw [sliceBounds]
  by_cases first : 0 ≤ i ∧ i ≤ length
  · rw [runIn_bind_of_done (boundOf_of_le operation length ha first.1 first.2 w)]
    show ∃ kind, (boundOf operation b length >>= _).runIn w = _
    by_cases second : 0 ≤ j ∧ j ≤ length
    · rw [runIn_bind_of_done (boundOf_of_le operation length hb second.1 second.2 w)]
      beta_reduce
      rw [if_pos (by omega)]
      exact ⟨_, rfl⟩
    · obtain ⟨kind, refused⟩ := boundOf_refused operation length hb second w
      rw [Action.runIn_bind, refused]
      exact ⟨kind, rfl⟩
  · obtain ⟨kind, refused⟩ := boundOf_refused operation length ha first w
    rw [Action.runIn_bind, refused]
    exact ⟨kind, rfl⟩

theorem sliceBounds_rest (ha : a.Holds k i) (inside : 0 ≤ i ∧ i ≤ length) (w : World) :
    (sliceBounds operation a none length).runIn w = (.ok (i.toNat, length), w) := by
  rw [sliceBounds, runIn_bind_of_done (boundOf_of_le operation length ha inside.1 inside.2 w)]
  show Action.runIn (if length < i.toNat then throw _ else pure (i.toNat, length)) w = _
  rw [if_neg (by omega)]
  rfl

/-- Without a second bound a slice goes to the end. -/
theorem sliceBounds_to_end (hb : b.Holds l length) (w : World) :
    (sliceBounds operation a none length).runIn w =
      (sliceBounds operation a (some b) length).runIn w := by
  have rest : ∀ start : Nat, ∀ w : World, _ := fun start w =>
    runIn_bind_of_done (g := fun stop => if stop < start then
      throw (invalidArgument operation
        ("start " ++ toString start ++ " is past end " ++ toString stop))
      else return (start, stop))
    (boundOf_of_le operation length hb (Int.natCast_nonneg length) (Int.le_refl _) w)
  rw [sliceBounds, sliceBounds, Action.runIn_bind, Action.runIn_bind]
  cases (Action.runIn (boundOf operation a length) w).1 with
  | ok start => exact (rest start _).symm
  | error kind => rfl

end Bounds

/-! ## Cutting -/

theorem World.cut_newItems {v' : Value} (kind : v'.kind = v.kind)
    (cells : v'.cells = [(w.newItems ys).1.cell])
    (holds : ∀ w' : World, w'.sequence? v' = some (w'.items (w.newItems ys).1)) :
    w.Cut v ys v' (w.newItems ys).2 where
  kind := kind
  items := by
    rw [holds, items_newItems]
    exact congrArg some (if_pos rfl)
  there c hc := by
    rw [cells] at hc
    exact List.mem_singleton.mp hc ▸ newItems_in w ys
  amends := (spares_newItems w ys).amends rfl rfl

/-- What a slice does once its bounds have been checked. -/
theorem exists_cutter (h : w.sequence? v = some xs) :
    ∃ make : Nat × Nat → Action (Option Value),
      (∀ first second, (Action.attempt v "slice" (first :: second.toList)).runIn w =
        (sliceBounds "slice" first second xs.length >>= make).runIn w) ∧
      ∀ bounds, ∃ v' w', (make bounds).runIn w = (.ok (some v'), w') ∧
        w.Cut v (slice xs bounds) v' w' := by
  have ranged : ∀ {f : Value → Option Value → Action Value} (first second),
      intrinsic? v "slice" = some (.ranged "slice" f) →
      Action.attempt v "slice" (first :: second.toList) = some <$> f first second := by
    intro f first second found
    simp only [Action.attempt, found]
    cases second <;> rfl
  obtain ⟨d, attrs⟩ := v
  cases d with
  | string text =>
    obtain rfl : text.toList.map Value.char = xs := Option.some.inj h
    refine ⟨fun bounds => pure (some (.string (String.ofList (slice text.toList bounds)))),
      fun first second => ?_, fun bounds =>
        ⟨_, w, rfl, rfl, ?_, fun c hc => absurd hc List.not_mem_nil, .refl w⟩⟩
    · rw [ranged first second rfl, List.length_map, String.length_toList, map_bind]
      rfl
    · simp only [World.sequence?, Value.string, Value.ofDatum, String.toList_ofList, slice,
        List.map_take, List.map_drop]
  | list h' =>
    obtain rfl : w.items h' = xs := Option.some.inj h
    refine ⟨fun bounds => some <$> Action.newList (slice (w.items h') bounds),
      fun first second => ?_, fun bounds => ⟨_, _, rfl, cut_newItems rfl rfl fun _ => rfl⟩⟩
    rw [ranged first second rfl, map_bind, runIn_look_bind, map_bind]
  | array h' =>
    obtain rfl : w.items h' = xs := Option.some.inj h
    refine ⟨fun bounds => some <$> Action.newArray (slice (w.items h') bounds),
      fun first second => ?_, fun bounds => ⟨_, _, rfl, cut_newItems rfl rfl fun _ => rfl⟩⟩
    rw [ranged first second rfl, map_bind, runIn_look_bind, map_bind]
  | _ => cases h

theorem attempt_slice_of_bounds (h : w.sequence? v = some xs) {first : Value}
    {second : Option Value} {bounds : Nat × Nat}
    (checked : (sliceBounds "slice" first second xs.length).runIn w = (.ok bounds, w)) :
    ∃ v' w', (Action.attempt v "slice" (first :: second.toList)).runIn w = (.ok (some v'), w') ∧
      w.Cut v (slice xs bounds) v' w' := by
  obtain ⟨make, run, cut⟩ := exists_cutter h
  obtain ⟨v', w', done, result⟩ := cut bounds
  refine ⟨v', w', ?_, result⟩
  rw [run, runIn_bind_of_done checked, done]

theorem attempt_slice (h : w.sequence? v = some xs) (ha : a.Holds k i) (hb : b.Holds l j)
    (ordered : 0 ≤ i ∧ i ≤ j ∧ j ≤ xs.length) :
    ∃ v' w', (Action.attempt v "slice" [a, b]).runIn w = (.ok (some v'), w') ∧
      w.Cut v (slice xs (i.toNat, j.toNat)) v' w' :=
  attempt_slice_of_bounds h (sliceBounds_of_le "slice" xs.length ha hb ordered w)

theorem attempt_slice_rest (h : w.sequence? v = some xs) (ha : a.Holds k i)
    (inside : 0 ≤ i ∧ i ≤ xs.length) :
    ∃ v' w', (Action.attempt v "slice" [a]).runIn w = (.ok (some v'), w') ∧
      w.Cut v (slice xs (i.toNat, xs.length)) v' w' :=
  attempt_slice_of_bounds h (sliceBounds_rest "slice" xs.length ha inside w)

theorem attempt_slice_refused (h : w.sequence? v = some xs) (ha : a.Holds k i) (hb : b.Holds l j)
    (out : ¬ (0 ≤ i ∧ i ≤ j ∧ j ≤ xs.length)) :
    ∃ kind, (Action.attempt v "slice" [a, b]).runIn w = (.error kind, w) := by
  obtain ⟨make, checked, -⟩ := exists_cutter h
  obtain ⟨kind, refused⟩ := sliceBounds_refused "slice" xs.length ha hb out w
  refine ⟨kind, (checked a (some b)).trans ?_⟩
  rw [Action.runIn_bind, refused]
  rfl

theorem attempt_slice_to_end (h : w.sequence? v = some xs) (hb : b.Holds l xs.length) (a : Value) :
    (Action.attempt v "slice" [a]).runIn w = (Action.attempt v "slice" [a, b]).runIn w := by
  obtain ⟨make, checked, -⟩ := exists_cutter h
  refine (checked a none).trans (Eq.trans ?_ (checked a (some b)).symm)
  rw [Action.runIn_bind, Action.runIn_bind, sliceBounds_to_end "slice" xs.length hb w]

/-- What reading an item does once its position has been checked. -/
theorem exists_reader (h : w.sequence? v = some xs) :
    ∃ item : Nat → Value, (∀ i (inside : i < xs.length), item i = xs[i]) ∧
      ∀ a, (Action.attempt v "get" [a]).runIn w =
        (indexOf "get" a xs.length >>= fun i => pure (some (item i))).runIn w := by
  have unary : ∀ {f : Value → Action Value} (a), intrinsic? v "get" = some (.unary "get" f) →
      Action.attempt v "get" [a] = some <$> f a := by
    intro f a found
    simp only [Action.attempt, found]
    rfl
  obtain ⟨d, attrs⟩ := v
  cases d with
  | string text =>
    obtain rfl : text.toList.map Value.char = xs := Option.some.inj h
    refine ⟨fun i => .char (text.toList.getD i default), fun i inside => ?_, fun a => ?_⟩
    · rw [List.length_map] at inside
      rw [List.getElem_map]
      exact congrArg Value.char (List.getD_eq_getElem _ _ inside)
    · rw [unary a rfl, List.length_map, String.length_toList, map_bind]
      rfl
  | list h' | array h' =>
    obtain rfl : w.items h' = xs := Option.some.inj h
    refine ⟨fun i => (w.items h').getD i .null, fun i inside => List.getD_eq_getElem _ _ inside,
      fun a => ?_⟩
    rw [unary a rfl, map_bind, runIn_look_bind, map_bind]
    rfl
  | _ => cases h

theorem attempt_get (h : w.sequence? v = some xs) (ha : a.Holds k i) (least : 0 ≤ i)
    (most : i.toNat < xs.length) :
    (Action.attempt v "get" [a]).runIn w = (.ok (some xs[i.toNat]), w) := by
  obtain ⟨item, items, read⟩ := exists_reader h
  rw [read, runIn_bind_of_done (indexOf_of_lt "get" xs.length ha least (by omega) w), items _ most]
  rfl

theorem attempt_get_refused (h : w.sequence? v = some xs) (ha : a.Holds k i)
    (out : i < 0 ∨ xs.length ≤ i) :
    ∃ kind, (Action.attempt v "get" [a]).runIn w = (.error kind, w) := by
  obtain ⟨item, -, read⟩ := exists_reader h
  obtain ⟨kind, refused⟩ := indexOf_refused "get" xs.length ha (by omega) w
  refine ⟨kind, ?_⟩
  rw [read, Action.runIn_bind, refused]
  rfl

/-! ## Joining -/

/-- Texts and lists add up to what has the items of both. -/
theorem runIn_add {u : Value} (joinable : v.kind = .string ∨ v.kind = .list)
    (kind : u.kind = v.kind) (hv : w.sequence? v = some xs) (hu : w.sequence? u = some ys) :
    ∃ v' w', (Action.binary .add v u).runIn w = (.ok v', w') ∧ w.Cut v (xs ++ ys) v' w' := by
  obtain ⟨d, attrs⟩ := v
  obtain ⟨e, attrs'⟩ := u
  have like := Datum.like_of_kind kind
  cases d with
  | string text =>
    obtain ⟨text', rfl⟩ := like
    obtain rfl : text.toList.map Value.char = xs := Option.some.inj hv
    obtain rfl : text'.toList.map Value.char = ys := Option.some.inj hu
    refine ⟨.string (text ++ text'), w, rfl, rfl, ?_, fun c hc => absurd hc List.not_mem_nil,
      .refl w⟩
    simp only [World.sequence?, Value.string, Value.ofDatum, String.toList_append, List.map_append]
  | list h =>
    obtain ⟨h', rfl⟩ := like
    obtain rfl : w.items h = xs := Option.some.inj hv
    obtain rfl : w.items h' = ys := Option.some.inj hu
    exact ⟨_, _, rfl, cut_newItems rfl rfl fun _ => rfl⟩
  | array h => rcases joinable with no | no <;> cases no
  | _ => cases hv

/-- Sequences of one kind with the same items are equal, if none of these differs from itself. -/
theorem strictEq_of_sequence {u : Value} (kind : u.kind = v.kind)
    (hu : w.sequence? u = some xs) (hv : w.sequence? v = some xs)
    (numbers : ∀ x ∈ xs, x.isNaN = false) (there : v.There w) : w.strictEq u v = true := by
  obtain ⟨d, attrs⟩ := u
  obtain ⟨e, attrs'⟩ := v
  have parts : ∀ h : Handle .list, h.In w.count →
      allPairs (w.strictEqWithin w.size) xs xs = true := by
    intro h old
    have size : w.size = w.size - 1 + 1 := by
      simp only [Handle.In, World.count] at old
      simp only [World.size]
      omega
    rw [size]
    exact allPairs_self fun x hx => w.strictEqWithin_self _ (numbers x hx)
  have like := Datum.like_of_kind kind.symm
  cases d with
  | string text =>
    obtain ⟨text', rfl⟩ := like
    have inj : Function.Injective Value.char := by
      intro c c' h
      cases h
      rfl
    have same := Option.some.inj (hu.trans hv.symm)
    exact beq_iff_eq.mpr (String.toList_injective (List.map_injective_iff.mpr inj same))
  | list h | array h =>
    obtain ⟨h', rfl⟩ := like
    obtain rfl : w.items h = xs := Option.some.inj hu
    have same : w.items h' = w.items h := Option.some.inj hv
    simp only [strictEq, strictEqWithin, same, parts h' (there _ (List.mem_singleton_self _)),
      Bool.or_true]
  | _ => cases hu

/-- The sum of what is before a position and of what is after it. -/
def Action.rejoin (v zero position : Value) : Action (Option Value) := do
  match ← Action.attempt v "slice" [zero, position], ← Action.attempt v "slice" [position] with
  | some front, some back => return some (← Action.binary .add front back)
  | _, _ => return none

theorem runIn_rejoin {zero : Value} (h : w.sequence? v = some xs) (there : v.There w)
    (joinable : v.kind = .string ∨ v.kind = .list) (hz : zero.Holds l 0) (ha : a.Holds k i)
    (inside : 0 ≤ i ∧ i ≤ xs.length) :
    ∃ v' w', (Action.rejoin v zero a).runIn w = (.ok (some v'), w') ∧ w.Cut v xs v' w' := by
  obtain ⟨front, w₁, done₁, cut₁⟩ := attempt_slice h hz ha ⟨Int.le_refl 0, inside⟩
  have h₁ : w₁.sequence? v = some xs := (sequence?_later there cut₁.amends).trans h
  obtain ⟨back, w₂, done₂, cut₂⟩ := attempt_slice_rest h₁ ha inside
  have hf := (sequence?_later cut₁.there cut₂.amends).trans cut₁.items
  obtain ⟨v', w₃, done₃, cut₃⟩ := runIn_add (cut₁.kind ▸ joinable)
    (cut₂.kind.trans cut₁.kind.symm) hf cut₂.items
  refine ⟨v', w₃, ?_, cut₃.kind.trans cut₁.kind, ?_, cut₃.there,
    (cut₁.amends.also cut₂.amends).also cut₃.amends⟩
  · rw [Action.rejoin, runIn_bind_of_done done₁, runIn_bind_of_done done₂]
    show (Action.binary .add front back >>= fun v => pure (some v)).runIn w₂ = _
    rw [runIn_bind_of_done done₃]
    rfl
  · rw [cut₃.items]
    exact congrArg some slice_append_slice

/-! ## Slicing -/

/-- What slicing a sequence with the given items comes to. -/
structure World.Slicing (w : World) (v : Value) (xs : List Value) : Prop where
  /-- A slice whose bounds are in order has the items between them and is of the same kind. -/
  between : ∀ {a b : Value} {k l} {i j : Int}, a.Holds k i → b.Holds l j →
    0 ≤ i ∧ i ≤ j ∧ j ≤ xs.length →
      ∃ v' w' ys, (Action.attempt v "slice" [a, b]).runIn w = (.ok (some v'), w') ∧
        v'.kind = v.kind ∧ w'.sequence? v' = some ys ∧ (ys.length : Int) = j - i ∧
          ∀ n, n < ys.length → ys[n]? = xs[i.toNat + n]?
  /-- Any other slice is refused. -/
  refused : ∀ {a b : Value} {k l} {i j : Int}, a.Holds k i → b.Holds l j →
    ¬ (0 ≤ i ∧ i ≤ j ∧ j ≤ xs.length) →
      ∃ kind, (Action.attempt v "slice" [a, b]).runIn w = (.error kind, w)
  /-- A slice without a second bound is the one that goes to the end. -/
  rest : ∀ {a b : Value} {l}, b.Holds l xs.length →
    (Action.attempt v "slice" [a]).runIn w = (Action.attempt v "slice" [a, b]).runIn w
  /-- A slice of a slice is a slice: it has the same items and is of the same kind. -/
  again : ∀ {a b c d a' b' : Value} {k l k' l' k₁ l₁} {i j m n : Int}, a.Holds k i → b.Holds l j →
    c.Holds k' m → d.Holds l' n → a'.Holds k₁ (i + m) → b'.Holds l₁ (i + n) →
    0 ≤ i ∧ i ≤ j ∧ j ≤ xs.length → 0 ≤ m ∧ m ≤ n ∧ n ≤ j - i →
    ∃ v' w' u w₁ u' w₁', (Action.attempt v "slice" [a, b]).runIn w = (.ok (some v'), w') ∧
      (Action.attempt v' "slice" [c, d]).runIn w' = (.ok (some u), w₁) ∧
      (Action.attempt v "slice" [a', b']).runIn w = (.ok (some u'), w₁') ∧
      u'.kind = u.kind ∧ ∃ ys, w₁.sequence? u = some ys ∧ w₁'.sequence? u' = some ys
  /-- Texts and lists are equal to the sum of what is before a position and of what is after it. -/
  rejoined : ∀ {zero a : Value} {k l} {i : Int}, v.kind = .string ∨ v.kind = .list →
    (∀ x ∈ xs, x.isNaN = false) → zero.Holds k 0 → a.Holds l i → 0 ≤ i ∧ i ≤ xs.length →
    ∃ u w', (Action.rejoin v zero a).runIn w = (.ok (some u), w') ∧ u.kind = v.kind ∧
      w'.strictEq u v = true ∧ w'.strictEq v u = true
  /-- An item is the only one of the slice that is as long as one item. -/
  item : ∀ {a b : Value} {k l} {i : Int}, a.Holds k i → b.Holds l (i + 1) → 0 ≤ i ∧ i < xs.length →
    ∃ x, (Action.attempt v "get" [a]).runIn w = (.ok (some x), w) ∧
      ∃ v' w', (Action.attempt v "slice" [a, b]).runIn w = (.ok (some v'), w') ∧
        w'.sequence? v' = some [x]
  /-- There is an item wherever the index is in range, and nowhere else. -/
  items : ∀ {a : Value} {k} {i : Int}, a.Holds k i →
    ((∃ kind, (Action.attempt v "get" [a]).runIn w = (.error kind, w)) ↔ i < 0 ∨ xs.length ≤ i)

theorem slicing (h : w.sequence? v = some xs) (there : v.There w) : w.Slicing v xs where
  between {a b k l i j} ha hb ordered := by
    obtain ⟨v', w', done, cut⟩ := attempt_slice h ha hb ordered
    have length : (slice xs (i.toNat, j.toNat)).length = j.toNat - i.toNat :=
      length_slice (by omega)
    exact ⟨v', w', _, done, cut.kind, cut.items, by omega,
      fun n inside => getElem?_slice (length ▸ inside)⟩
  refused ha hb out := attempt_slice_refused h ha hb out
  rest {a b l} hb := attempt_slice_to_end h hb a
  again {a b c d a' b' k l k' l' k₁ l₁ i j m n} ha hb hc hd ha' hb' outer inner := by
    have length : (slice xs (i.toNat, j.toNat)).length = j.toNat - i.toNat :=
      length_slice (by omega)
    obtain ⟨v', w', first, cut⟩ := attempt_slice h ha hb outer
    obtain ⟨u, w₁, second, cut₁⟩ := attempt_slice cut.items hc hd (by omega)
    obtain ⟨u', w₁', direct, cut'⟩ := attempt_slice h ha' hb' (by omega)
    refine ⟨v', w', u, w₁, u', w₁', first, second, direct,
      cut'.kind.trans (cut₁.kind.trans cut.kind).symm, _, cut₁.items, ?_⟩
    rw [cut'.items, slice_slice (by omega), Int.toNat_add outer.1 inner.1,
      Int.toNat_add outer.1 (by omega)]
  rejoined {zero a k l i} joinable numbers hz ha inside := by
    obtain ⟨u, w', done, cut⟩ := runIn_rejoin h there joinable hz ha inside
    have hv := (sequence?_later there cut.amends).trans h
    have there' : v.There w' := fun c hc => (there c hc).mono cut.amends.count
    exact ⟨u, w', done, cut.kind, strictEq_of_sequence cut.kind cut.items hv numbers there',
      strictEq_of_sequence cut.kind.symm hv cut.items numbers cut.there⟩
  item {a b k l i} ha hb inside := by
    have most : i.toNat < xs.length := by omega
    obtain ⟨v', w', done, cut⟩ := attempt_slice h ha hb (by omega)
    refine ⟨_, attempt_get h ha inside.1 most, v', w', done, ?_⟩
    rw [cut.items, Int.toNat_add inside.1 (by decide)]
    exact congrArg some (slice_succ most)
  items {a k i} ha := by
    refine ⟨fun ⟨kind, failed⟩ => ?_, attempt_get_refused h ha⟩
    by_contra inside
    have got := attempt_get h ha (by omega) (by omega)
    cases got.symm.trans failed

/-- A list of three values that differ in kind. -/
theorem slicing_three :
    let xs : List Value := [.int 1, .string "é", .null]
    let w := withList xs
    let v : Value := .ofDatum (.list ⟨0⟩)
    w.sequence? v = some xs ∧ v.There w ∧ w.Slicing v xs ∧
      ∃ u w', (Action.rejoin v (.int 0) (.long 2)).runIn w = (.ok (some u), w') ∧
        w'.strictEq u v = true := by
  intro xs w v
  have there : v.There w := fun c hc => List.mem_singleton.mp hc ▸ Nat.zero_lt_one
  have all : w.Slicing v xs := slicing rfl there
  have numbers : ∀ x ∈ xs, x.isNaN = false := by
    simp [xs, Value.isNaN, Value.number?, Value.int, Value.string, Value.null, Value.ofDatum,
      Number.isNaN]
  have zero : (Value.int 0).Holds .int 0 := ⟨_, rfl, .int 0⟩
  have two : (Value.long 2).Holds .long 2 := ⟨_, rfl, .long 2⟩
  obtain ⟨u, w', done, -, equal, -⟩ := all.rejoined (.inr rfl) numbers zero two (by decide)
  exact ⟨rfl, there, all, u, w', done, equal⟩

end ScopeLang
