/-
# Line numbers

The line of an offset is one more than the number of line feeds before it.  The
ranges of a line table are consecutive and none of them is empty, and all offsets of the
range at position `k` have `k` line feeds before them (`Tiles`); reading the bytes of a text
one by one keeps that up (`tiles_scan`).  The line feeds before an offset are then known from
the range that holds it, and there is exactly one such range (`Tiles.range_at`).

How the range is found does not matter: a search that answers only with what compares
equal, and that answers where exactly one element does, leaves no choice (`Seeks`).  The
search by halving is one of them (`seeks_binarySearch`).
-/
import Mathlib.Algebra.Order.Group.Nat
import ScopeLang.Span

namespace ScopeLang

/-! ## Searches -/

section Search

variable {α : Type} {compare : α → Ordering} {elements : Array α} {base size i j k : Nat}

/-- The elements that compare less come first and those that compare greater come last. -/
def Orders (compare : α → Ordering) (elements : Array α) : Prop :=
  elements.toList.Pairwise fun a b =>
    (compare a = .gt → compare b = .gt) ∧ (compare b = .lt → compare a = .lt)

/-- How the element at a position compares. -/
def verdict (compare : α → Ordering) (elements : Array α) (i : Nat) : Option Ordering :=
  elements[i]?.map compare

/-- A search of ordered arrays answers with the position of an element that compares equal, and
has an answer if there is exactly one. -/
structure Seeks (search : (α → Ordering) → Array α → Option Nat) : Prop where
  sound : ∀ {compare elements i}, Orders compare elements →
    search compare elements = some i → verdict compare elements i = some .eq
  complete : ∀ {compare elements}, Orders compare elements →
    (∃! i, verdict compare elements i = some .eq) → (search compare elements).isSome

theorem verdict_of_lt (inside : i < elements.size) :
    verdict compare elements i = some (compare elements[i]) := by
  rw [verdict, Array.getElem?_eq_getElem inside, Option.map_some]

theorem lt_of_verdict {o : Ordering} (eq : verdict compare elements i = some o) :
    i < elements.size := by
  obtain ⟨x, found, -⟩ := Option.map_eq_some_iff.mp eq
  exact (Array.getElem?_eq_some_iff.mp found).1

/-- What comes after an element that compares greater compares greater. -/
theorem Orders.greater (orders : Orders compare elements) (before : i < j)
    (inside : j < elements.size) (gt : verdict compare elements i = some .gt) :
    verdict compare elements j = some .gt := by
  have earlier := Nat.lt_trans before inside
  have pair := List.pairwise_iff_getElem.mp orders i j earlier inside before
  rw [verdict_of_lt earlier] at gt
  rw [verdict_of_lt inside]
  exact congrArg some (pair.1 (Option.some.inj gt))

/-- What comes before an element that compares less compares less. -/
theorem Orders.less (orders : Orders compare elements) (before : i < j)
    (lt : verdict compare elements j = some .lt) : verdict compare elements i = some .lt := by
  have inside := lt_of_verdict lt
  have earlier := Nat.lt_trans before inside
  have pair := List.pairwise_iff_getElem.mp orders i j earlier inside before
  rw [verdict_of_lt inside] at lt
  rw [verdict_of_lt earlier]
  exact congrArg some (pair.2 (Option.some.inj lt))

/-- Halving ends at the one element that compares equal: each half that is given up lies on
the other side of it. -/
theorem narrow_eq (orders : Orders compare elements) (eq : verdict compare elements k = some .eq)
    (only : ∀ j, verdict compare elements j = some .eq → j = k) (first : base ≤ k)
    (last : k < base + size) (inside : base + size ≤ elements.size) :
    narrow compare elements base size = k := by
  fun_induction narrow compare elements base size with
  | case1 base size one => omega
  | case2 base size many half middle past ih =>
    have middleInside : middle < elements.size := by omega
    have seen : verdict compare elements middle = some (compare elements[middle]) :=
      verdict_of_lt middleInside
    simp only [dite_eq_ite] at ih ⊢
    by_cases gt : past
    · -- what is searched for does not lie from the middle on
      have below : k < middle := by
        rcases Nat.lt_trichotomy k middle with below | rfl | above
        · exact below
        · exact absurd (eq.symm.trans gt) (by decide)
        · exact absurd (eq.symm.trans (orders.greater above (lt_of_verdict eq) gt)) (by decide)
      rw [if_pos gt] at ih ⊢
      exact ih first (by omega) (by omega)
    · -- nor before it
      have above : middle ≤ k := by
        refine Nat.le_of_not_lt fun below => ?_
        cases side : compare elements[middle] with rw [side] at seen
        | lt => exact absurd (eq.symm.trans (orders.less below seen)) (by decide)
        | eq => exact Nat.ne_of_lt below (only middle seen).symm
        | gt => exact gt seen
      rw [if_neg gt] at ih ⊢
      exact ih above (by omega) (by omega)

/-- The search by halving answers only with what compares equal, and finds what is the only one to
do so. -/
theorem seeks_binarySearch : Seeks (binarySearch (α := α)) where
  sound := by
    intro compare elements i orders found
    rw [binarySearch] at found
    split at found
    case isTrue eq => exact Option.some.inj found ▸ eq
    case isFalse => exact nomatch found
  complete := by
    rintro compare elements orders ⟨k, eq, only⟩
    have inside := lt_of_verdict eq
    have ends : narrow compare elements 0 elements.size = k :=
      narrow_eq orders eq only (Nat.zero_le k) (by omega) (by omega)
    simp only [binarySearch, ends]
    exact (if_pos eq).symm ▸ rfl

end Search

namespace LineTable

variable {bytes rest : List UInt8} {ranges : List Span} {feeds : Nat → Nat} {a b i k o n : Nat}
  {cursor offset last : UInt32} {byte : UInt8} {r : Span} {text : String} {t : LineTable}
  {search : (Span → Ordering) → Array Span → Option Nat}

/-! ## Consecutive ranges -/

/-- The ranges are consecutive and not empty, from `a` up to `b`, and the offsets of the range at
position `k` have `i + k` line feeds before them. -/
inductive Tiles (feeds : Nat → Nat) : Nat → Nat → List Span → Nat → Prop
  | nil {i a : Nat} : Tiles feeds i a [] a
  | cons {i a b : Nat} {r : Span} {ranges : List Span} (start : r.start.toNat = a)
      (some : a < r.stop.toNat)
      (count : ∀ o, a ≤ o → o < r.stop.toNat → feeds o = i)
      (tail : Tiles feeds (i + 1) r.stop.toNat ranges b) : Tiles feeds i a (r :: ranges) b

/-- There is no more room than for as many ranges as there are offsets. -/
theorem Tiles.length_le (tiles : Tiles feeds i a ranges b) : a + ranges.length ≤ b := by
  induction tiles with
  | nil => exact Nat.le_refl _
  | cons start some count tail ih => rw [List.length_cons]; omega

/-- All ranges lie between the ends, and none is empty. -/
theorem Tiles.within (tiles : Tiles feeds i a ranges b) :
    ∀ r ∈ ranges, a ≤ r.start.toNat ∧ r.start.toNat < r.stop.toNat ∧ r.stop.toNat ≤ b := by
  induction tiles with
  | nil => exact fun r mem => nomatch mem
  | cons start some count tail ih =>
    intro r mem
    have least := tail.length_le
    rcases List.mem_cons.mp mem with rfl | mem
    · omega
    · have := ih r mem
      omega

/-- Each range ends where the next one starts, or before. -/
theorem Tiles.sorted (tiles : Tiles feeds i a ranges b) :
    ranges.Pairwise fun r r' => r.stop.toNat ≤ r'.start.toNat := by
  induction tiles with
  | nil => exact .nil
  | cons start some count tail ih => exact .cons (fun r mem => (tail.within r mem).1) ih

/-- One more range at the end. -/
theorem Tiles.snoc (tiles : Tiles feeds i a ranges b) (start : r.start.toNat = b)
    (some : b < r.stop.toNat)
    (count : ∀ o, b ≤ o → o < r.stop.toNat → feeds o = i + ranges.length) :
    Tiles feeds i a (ranges ++ [r]) r.stop.toNat := by
  induction tiles with
  | nil => exact .cons start some count .nil
  | cons first before counted tail ih =>
    refine .cons first before counted (ih start some fun o least most => ?_)
    rw [count o least most, List.length_cons, Nat.add_right_comm, Nat.add_assoc]

/-- An offset between the ends lies in a range, whose position tells the line feeds before it. -/
theorem Tiles.range_at (tiles : Tiles feeds i a ranges b) (least : a ≤ o) (most : o < b) :
    ∃ k r, ranges[k]? = some r ∧ r.start.toNat ≤ o ∧ o < r.stop.toNat ∧ feeds o = i + k := by
  induction tiles with
  | nil => omega
  | @cons i a b r ranges start some count tail ih =>
    by_cases here : o < r.stop.toNat
    · exact ⟨0, r, rfl, Nat.le_trans (Nat.le_of_eq start) least, here, count o least here⟩
    · obtain ⟨k, r', at', from', to', counted⟩ := ih (Nat.not_lt.mp here) most
      exact ⟨k + 1, r', at', from', to', by omega⟩

/-! ## Ranges as seen from an offset -/

theorem side_eq_gt : side offset r = .gt ↔ offset.toNat < r.start.toNat := by
  unfold side
  simp only [UInt32.lt_iff_toNat_lt]
  grind

theorem side_eq_eq :
    side offset r = .eq ↔ r.start.toNat ≤ offset.toNat ∧ offset.toNat < r.stop.toNat := by
  unfold side
  simp only [UInt32.lt_iff_toNat_lt, UInt32.le_iff_toNat_le]
  grind

theorem side_eq_lt :
    side offset r = .lt ↔ r.start.toNat ≤ offset.toNat ∧ r.stop.toNat ≤ offset.toNat := by
  unfold side
  simp only [UInt32.lt_iff_toNat_lt, UInt32.le_iff_toNat_le]
  grind

/-- Consecutive ranges are ordered, as seen from any offset. -/
theorem Tiles.orders (tiles : Tiles feeds i a ranges b) (offset : UInt32) :
    Orders (side offset) ranges.toArray := by
  refine tiles.sorted.imp_of_mem fun {r r'} mem mem' next => ?_
  have some := (tiles.within r mem).2.1
  have some' := (tiles.within r' mem').2.1
  simp only [side_eq_gt, side_eq_lt]
  omega

/-- At most one of them holds the offset. -/
theorem Tiles.only_one (tiles : Tiles feeds i a ranges b) {j : Nat}
    (here : verdict (side offset) ranges.toArray j = some .eq)
    (there : verdict (side offset) ranges.toArray k = some .eq) : j = k := by
  have apart : ∀ {j k}, j < k → verdict (side offset) ranges.toArray j = some .eq →
      verdict (side offset) ranges.toArray k = some .eq → False := by
    intro j k before here there
    have inside := lt_of_verdict there
    have earlier := Nat.lt_trans before inside
    have next := List.pairwise_iff_getElem.mp tiles.sorted j k earlier inside before
    rw [verdict_of_lt earlier, Option.some_inj, side_eq_eq] at here
    rw [verdict_of_lt inside, Option.some_inj, side_eq_eq] at there
    simp only [List.getElem_toArray] at here there
    omega
  rcases Nat.lt_trichotomy j k with before | same | after
  · exact (apart before here there).elim
  · exact same
  · exact (apart after there here).elim

theorem toNat_toUInt32 (small : n < 2 ^ 32) : n.toUInt32.toNat = n :=
  UInt32.toNat_ofNat_of_lt' small

/-- The table of the ranges finds the line of an offset between the ends by any search. -/
theorem Tiles.lineBy_of_lt (tiles : Tiles feeds 0 0 ranges b) (seeks : Seeks search)
    (few : ranges.length < 2 ^ 32 - 1) (most : offset.toNat < b) :
    (lineBy search ⟨ranges.toArray⟩ offset).toNat = 1 + feeds offset.toNat := by
  obtain ⟨k, r, found, least, before, count⟩ := tiles.range_at (Nat.zero_le _) most
  have here : verdict (side offset) ranges.toArray k = some .eq := by
    rw [verdict, List.getElem?_toArray, found, Option.map_some, side_eq_eq.mpr ⟨least, before⟩]
  have answered := seeks.complete (tiles.orders offset)
    ⟨k, here, fun j there => tiles.only_one there here⟩
  obtain ⟨j, answer⟩ := Option.isSome_iff_exists.mp answered
  obtain rfl := tiles.only_one here (seeks.sound (tiles.orders offset) answer)
  have inside : k < ranges.length := lt_of_verdict here
  simp only [lineBy, answer]
  rw [UInt32.toNat_add, toNat_toUInt32 (by omega), count, UInt32.toNat_one]
  omega

/-- And it finds none for the offsets past the end. -/
theorem Tiles.lineBy_of_le (tiles : Tiles feeds 0 0 ranges b) (seeks : Seeks search)
    (past : b ≤ offset.toNat) :
    lineBy search ⟨ranges.toArray⟩ offset = lastLine ⟨ranges.toArray⟩ := by
  cases answer : search (side offset) ranges.toArray with
  | none => simp only [lineBy, answer]
  | some j =>
    have here := seeks.sound (tiles.orders offset) answer
    have inside := lt_of_verdict here
    rw [verdict_of_lt inside, Option.some_inj, side_eq_eq] at here
    have stop := (tiles.within ranges[j] (List.getElem_mem inside)).2.2
    rw [List.getElem_toArray] at here
    omega

/-! ## Reading the bytes -/

/-- The number of line feeds before an offset. -/
def feedsBefore (bytes : List UInt8) (offset : Nat) : Nat := (bytes.take offset).count 10

theorem feedsBefore_succ (at' : bytes[n]? = some byte) :
    feedsBefore bytes (n + 1) = feedsBefore bytes n + if byte = 10 then 1 else 0 := by
  rw [feedsBefore, List.take_add_one, at', List.count_append]
  simp only [feedsBefore, Option.toList_some, List.count_singleton, beq_iff_eq]

theorem feedsBefore_mono (le : n ≤ o) : feedsBefore bytes n ≤ feedsBefore bytes o :=
  ((List.take_prefix_take_left le).sublist).count_le 10

theorem feedsBefore_le : feedsBefore bytes n ≤ n :=
  List.count_le_length.trans (List.length_take_le n bytes)

theorem drop_eq_cons (left : bytes.drop n = byte :: rest) :
    bytes[n]? = some byte ∧ bytes.drop (n + 1) = rest := by
  constructor
  · rw [← Nat.add_zero n, ← List.getElem?_drop, left, List.getElem?_cons_zero]
  · rw [← List.drop_drop, left, List.drop_one, List.tail_cons]

/-- What has been found when the bytes from an offset on have been read: the ranges up to the last
line feed, and how many line feeds come before what is left. -/
theorem tiles_scan (small : bytes.length < 2 ^ 32) (left : bytes.drop n = rest)
    (inside : n ≤ bytes.length) (le : cursor.toNat ≤ n)
    (count : ∀ o, cursor.toNat ≤ o → o ≤ n → feedsBefore bytes o = i)
    (scanned : scan cursor n rest = (ranges, last)) :
    Tiles (feedsBefore bytes) i cursor.toNat ranges last.toNat ∧ last.toNat ≤ bytes.length ∧
      ∀ o, last.toNat ≤ o → o ≤ bytes.length → feedsBefore bytes o = i + ranges.length := by
  induction rest generalizing n i cursor ranges with
  | nil =>
    obtain ⟨rfl, rfl⟩ := Prod.mk.inj scanned
    obtain rfl : n = bytes.length := Nat.le_antisymm inside (List.drop_eq_nil_iff.mp left)
    exact ⟨.nil, le, count⟩
  | cons byte rest ih =>
    obtain ⟨here, left⟩ := drop_eq_cons left
    obtain ⟨inside, -⟩ := List.getElem?_eq_some_iff.mp here
    have stop : (n + 1).toUInt32.toNat = n + 1 := toNat_toUInt32 (by omega)
    have passed := feedsBefore_succ here
    rw [count n le (Nat.le_refl n)] at passed
    by_cases feed : byte = 10
    · -- a line ends here, and the next one starts
      rw [if_pos feed] at passed
      simp only [scan, if_pos feed] at scanned
      obtain ⟨rfl, rfl⟩ := Prod.mk.inj scanned
      obtain ⟨tiles, most, after⟩ := ih (i := i + 1) left inside stop.le
        (fun o least most => by rwa [Nat.le_antisymm most (stop.ge.trans least)]) rfl
      refine ⟨.cons rfl (Nat.lt_of_le_of_lt le stop.ge) (fun o least before => ?_) tiles, most,
        fun o least most => ?_⟩
      · exact count o least (Nat.le_of_lt_succ (before.trans_le stop.le))
      · rw [after o least most, List.length_cons, Nat.add_right_comm, Nat.add_assoc]
    · -- the line goes on
      rw [if_neg feed] at passed
      simp only [scan, if_neg feed] at scanned
      refine ih left inside (Nat.le_succ_of_le le) (fun o least most => ?_) scanned
      rcases Nat.lt_or_eq_of_le most with before | rfl
      · exact count o least (Nat.le_of_lt_succ before)
      · exact passed

theorem rangesOf_of_ne_nil (some : bytes ≠ []) : rangesOf bytes =
    if bytes.getLast? = .some 10 then (scan 0 0 bytes).1
    else (scan 0 0 bytes).1 ++ [⟨(scan 0 0 bytes).2, (bytes.length + 1).toUInt32⟩] := by
  rw [rangesOf, List.isEmpty_eq_false_iff.mpr some]
  rfl

/-- There are fewer line feeds than bytes, if the last byte is none. -/
theorem feedsBefore_lt (some : bytes ≠ []) (feed : bytes.getLast? ≠ .some 10) :
    feedsBefore bytes bytes.length < bytes.length := by
  obtain ⟨n, length⟩ := Nat.exists_eq_succ_of_ne_zero (mt List.length_eq_zero_iff.mp some)
  have last : bytes[n]? = .some (bytes.getLast some) := by
    rw [← List.getLast?_eq_some_getLast some, List.getLast?_eq_getElem?, length, Nat.succ_sub_one]
  have other : bytes.getLast some ≠ 10 :=
    fun same => feed (same ▸ List.getLast?_eq_some_getLast some)
  rw [length, feedsBefore_succ last, if_neg other]
  exact Nat.lt_succ_of_le feedsBefore_le

/-- The ranges of a text start with its first byte and reach over all of them, and one offset
further at the most. The offsets they leave out come after all line feeds. -/
theorem tiles_rangesOf (bytes : List UInt8) (small : bytes.length < 2 ^ 32 - 1) :
    ∃ b, Tiles (feedsBefore bytes) 0 0 (rangesOf bytes) b ∧ b ≤ bytes.length + 1 ∧
      (∀ o, b ≤ o → o ≤ bytes.length → feedsBefore bytes o = (rangesOf bytes).length) ∧
      (rangesOf bytes).length < 2 ^ 32 - 1 := by
  by_cases some : bytes = []
  · subst some
    refine ⟨1, .cons rfl Nat.one_pos (fun o _ _ => ?_) .nil, le_rfl, fun o le most => ?_, by decide⟩
    · rw [feedsBefore, List.take_nil, List.count_nil]
    · exact absurd (le.trans most) (by decide)
  obtain ⟨tiles, most, after⟩ := tiles_scan (i := 0) (by omega) List.drop_zero (Nat.zero_le _)
    le_rfl (fun o _ le => by rw [Nat.le_zero.mp le]; rfl) (Eq.refl (scan 0 0 bytes))
  simp only [Nat.zero_add] at after
  have all := after bytes.length most le_rfl
  by_cases feed : bytes.getLast? = .some 10
  · rw [rangesOf_of_ne_nil some, if_pos feed, ← all]
    exact ⟨_, tiles, most.trans (Nat.le_succ _), all ▸ after, feedsBefore_le.trans_lt small⟩
  · rw [rangesOf_of_ne_nil some, if_neg feed, List.length_append, List.length_singleton, ← all]
    have stop : (bytes.length + 1).toUInt32.toNat = bytes.length + 1 := toNat_toUInt32 (by omega)
    have longer := tiles.snoc (r := ⟨(scan 0 0 bytes).2, (bytes.length + 1).toUInt32⟩) rfl
      ((Nat.lt_succ_of_le most).trans_eq stop.symm) fun o least before => by
        rw [Nat.zero_add]
        exact after o least (Nat.le_of_lt_succ (before.trans_eq stop))
    have fewer := feedsBefore_lt some feed
    exact ⟨_, longer, stop.le, fun o le most => by simp only [stop] at le; omega, by omega⟩

/-! ## Exactness -/

/-- What the line of an offset within a text is. -/
theorem lineBy_ofText (seeks : Seeks search) (small : text.utf8ByteSize < 2 ^ 32 - 1)
    (inside : offset.toNat ≤ text.utf8ByteSize) :
    ((ofText text).lineBy search offset).toNat = 1 + feedsBefore (bytesOf text) offset.toNat := by
  obtain ⟨b, tiles, most, after, few⟩ := tiles_rangesOf (bytesOf text) small
  rcases Nat.lt_or_ge offset.toNat b with before | past
  · exact tiles.lineBy_of_lt seeks few before
  · have room : (ofText text).ranges.size + 1 < 2 ^ 32 := Nat.add_lt_of_lt_sub few
    rw [ofText, tiles.lineBy_of_le seeks past, after _ past inside, Nat.add_comm]
    exact toNat_toUInt32 room

/-- An offset past a text has the last line. -/
theorem lineBy_ofText_of_lt (seeks : Seeks search) (small : text.utf8ByteSize < 2 ^ 32 - 1)
    (past : text.utf8ByteSize < offset.toNat) :
    (ofText text).lineBy search offset = (ofText text).lastLine := by
  obtain ⟨b, tiles, most, -⟩ := tiles_rangesOf (bytesOf text) small
  exact tiles.lineBy_of_le seeks (most.trans past)

/-- No line comes after the last line. -/
theorem lineBy_ofText_le (seeks : Seeks search) (small : text.utf8ByteSize < 2 ^ 32 - 1) :
    (ofText text).lineBy search offset ≤ (ofText text).lastLine := by
  obtain ⟨b, tiles, -, -, few⟩ := tiles_rangesOf (bytesOf text) small
  rcases Nat.lt_or_ge offset.toNat b with before | past
  · obtain ⟨k, r, found, -, -, count⟩ := tiles.range_at (Nat.zero_le _) before
    have inside := (List.getElem?_eq_some_iff.mp found).1
    have last : (ofText text).lastLine.toNat = (rangesOf (bytesOf text)).length + 1 :=
      toNat_toUInt32 (Nat.add_lt_of_lt_sub few)
    rw [UInt32.le_iff_toNat_le, last, ofText, tiles.lineBy_of_lt seeks few before, count]
    omega
  · rw [ofText, tiles.lineBy_of_le seeks past]
    exact UInt32.le_refl _

/-- A function from offsets to lines is exact: the line of an offset within the text, or at its
end, is one more than the number of line feeds before it, the offsets past it have the last line,
and a later offset has no earlier line. -/
structure Exact (text : String) (lineOf : UInt32 → UInt32) : Prop where
  within : ∀ offset, offset.toNat ≤ text.utf8ByteSize →
    (lineOf offset).toNat = 1 + feedsBefore (bytesOf text) offset.toNat
  past : ∀ offset, text.utf8ByteSize < offset.toNat → lineOf offset = (ofText text).lastLine
  monotone : ∀ offset offset', offset ≤ offset' → lineOf offset ≤ lineOf offset'

theorem exact_lineBy (seeks : Seeks search) (small : text.utf8ByteSize < 2 ^ 32 - 1) :
    Exact text ((ofText text).lineBy search) where
  within _ inside := lineBy_ofText seeks small inside
  past _ past := lineBy_ofText_of_lt seeks small past
  monotone offset offset' le := by
    rcases Nat.lt_or_ge text.utf8ByteSize offset'.toNat with past | inside'
    · exact lineBy_ofText_of_lt seeks small past ▸ lineBy_ofText_le seeks small
    · have le := UInt32.le_iff_toNat_le.mp le
      rw [UInt32.le_iff_toNat_le, lineBy_ofText seeks small inside',
        lineBy_ofText seeks small (le.trans inside')]
      exact Nat.add_le_add_left (feedsBefore_mono le) 1

/-- Line numbers are exact for every text whose offsets fit, with the search by halving and with
every other search that finds the only element to compare equal. -/
theorem line_lookup_exact (small : text.utf8ByteSize < 2 ^ 32 - 1) :
    Exact text (ofText text).lineAt ∧
      ∀ search, Seeks search → Exact text ((ofText text).lineBy search) :=
  ⟨exact_lineBy seeks_binarySearch small, fun _ seeks => exact_lineBy seeks small⟩

theorem line_lookup_exact_of_two_lines :
    "a\nb".utf8ByteSize < 2 ^ 32 - 1 ∧ Exact "a\nb" (ofText "a\nb").lineAt :=
  ⟨by decide, (line_lookup_exact (by decide)).1⟩

end LineTable
end ScopeLang
