/-
# How arguments are laid out

Binding goes over the parameter list four times: positional arguments, named
ones, the rest for a variadic parameter, defaults.  Each pass works on what the one
before has left open.  `Fits` says which calls come through, and `LaidOut` where
their arguments end up, both without the passes: a place belongs to the
positional argument of its number, or to the argument that names it, or it is left
over, and no two of these overlap.

A name stands for the first parameter that has it.  A parameter in the middle that is
flagged variadic takes one positional argument like any other, but none by name.
-/
import ScopeLang.Call.Arguments
import Mathlib.Data.List.Perm.Basic
import Mathlib.Data.List.Flatten

namespace ScopeLang

/-! ## The layout of a call -/

/-- The place of the first parameter of a name. -/
def placeOf? (parameters : List ParameterSpec) (name : String) : Option Nat :=
  parameters.findIdx? fun p => p.name = name

/-- A place that takes one argument and is given none. -/
structure LeftOver (parameters : List ParameterSpec) (arguments : CallArguments) (i : Nat) :
    Prop where
  fixed : i < fixedCount parameters
  positional : arguments.positional.length ≤ i
  named : ∀ a ∈ arguments.named, placeOf? parameters a.1 ≠ some i

/-- Arguments that fit a parameter list. -/
structure Fits (parameters : List ParameterSpec) (arguments : CallArguments) : Prop where
  enough : arguments.positional.length ≤ fixedCount parameters ∨ isVariadic parameters = true
  named : ∀ a ∈ arguments.named, ∃ i p, placeOf? parameters a.1 = some i ∧
    parameters[i]? = some p ∧ p.variadic = false ∧ arguments.positional.length ≤ i
  apart : arguments.named.Pairwise fun a b => placeOf? parameters a.1 ≠ placeOf? parameters b.1
  defaults : ∀ i p, LeftOver parameters arguments i → parameters[i]? = some p →
    p.default.isSome = true

/-- One slot for each parameter, each argument at its place, and nothing else. -/
structure LaidOut (parameters : List ParameterSpec) (arguments : CallArguments)
    (slots : List (Slot Value)) : Prop where
  length : slots.length = parameters.length
  positional : ∀ i v, i < fixedCount parameters → arguments.positional[i]? = some v →
    slots[i]? = some (.value v)
  rest : isVariadic parameters = true →
    slots.getLast? = some (.spread (arguments.positional.drop (fixedCount parameters)))
  named : ∀ a ∈ arguments.named, ∃ i, placeOf? parameters a.1 = some i ∧
    slots[i]? = some (.value a.2)
  omitted : ∀ i, slots[i]? = some .omitted ↔ LeftOver parameters arguments i
  once : (slots.flatMap Slot.values).Perm (arguments.positional ++ arguments.named.map (·.2))

variable {parameters : List ParameterSpec} {arguments : CallArguments} {slots : Filling}
  {i : Nat}

theorem fixedCount_le (parameters : List ParameterSpec) :
    fixedCount parameters ≤ parameters.length := by
  rw [fixedCount]
  split <;> omega

/-- A variadic list ends with its variadic parameter. -/
theorem fixedCount_of_variadic (h : isVariadic parameters = true) :
    parameters.length = fixedCount parameters + 1 := by
  have some : parameters ≠ [] := by
    rintro rfl
    cases h
  have positive := List.length_pos_of_ne_nil some
  rw [fixedCount, if_pos h]
  omega

theorem fixedCount_of_not_variadic (h : isVariadic parameters = false) :
    fixedCount parameters = parameters.length := by
  simp [fixedCount, h]

theorem variadic_of_last {p : ParameterSpec} (h : isVariadic parameters = true)
    (found : parameters[fixedCount parameters]? = some p) : p.variadic = true := by
  have last : parameters.getLast? = parameters[fixedCount parameters]? := by
    rw [List.getLast?_eq_getElem?, fixedCount_of_variadic h, Nat.add_sub_cancel]
  rw [isVariadic, last, found] at h
  exact h

/-- A parameter that is not flagged variadic takes one argument. -/
theorem lt_fixedCount {p : ParameterSpec} (found : parameters[i]? = some p)
    (single : p.variadic = false) : i < fixedCount parameters := by
  have below : i < parameters.length := (List.getElem?_eq_some_iff.mp found).1
  cases variadic : isVariadic parameters with
  | false => rwa [fixedCount_of_not_variadic variadic]
  | true =>
    have length := fixedCount_of_variadic variadic
    have other : i ≠ fixedCount parameters := by
      rintro rfl
      rw [variadic_of_last variadic found] at single
      cases single
    omega

/-! ## Positional arguments -/

/-- The slots of a call before its named arguments are looked at. -/
def positionalFilling (parameters : List ParameterSpec) (arguments : CallArguments) : Filling :=
  let filled := (arguments.positional.take (fixedCount parameters)).map fun v => some (.value v)
  filled ++ List.replicate (parameters.length - filled.length) none

theorem fillPositional_eq (parameters : List ParameterSpec) (arguments : CallArguments) :
    fillPositional parameters arguments =
      if fixedCount parameters < arguments.positional.length ∧ isVariadic parameters = false then
        .error (.tooManyArguments (fixedCount parameters) arguments.count)
      else .ok (positionalFilling parameters arguments) := by
  simp only [fillPositional, positionalFilling, Bool.not_eq_true']

theorem length_positionalFilling (parameters : List ParameterSpec) (arguments : CallArguments) :
    (positionalFilling parameters arguments).length = parameters.length := by
  have le := fixedCount_le parameters
  simp only [positionalFilling, List.length_append, List.length_map, List.length_take,
    List.length_replicate]
  omega

theorem positionalFilling_of_lt {v : Value} (fixed : i < fixedCount parameters)
    (found : arguments.positional[i]? = some v) :
    (positionalFilling parameters arguments)[i]? = some (some (.value v)) := by
  have below := (List.getElem?_eq_some_iff.mp found).1
  rw [positionalFilling, List.getElem?_append_left (by simp; omega), List.getElem?_map,
    List.getElem?_take_of_lt fixed, found]
  rfl

theorem positionalFilling_of_le (h : min arguments.positional.length (fixedCount parameters) ≤ i)
    (below : i < parameters.length) :
    (positionalFilling parameters arguments)[i]? = some none := by
  have after : ((arguments.positional.take (fixedCount parameters)).map fun v =>
      some (Slot.value v)).length ≤ i := by simp; omega
  rw [positionalFilling, List.getElem?_append_right after, List.getElem?_replicate, if_pos (by omega)]

/-- What is open after the positional arguments. -/
theorem positionalFilling_none_iff (below : i < fixedCount parameters) :
    (positionalFilling parameters arguments)[i]? = some none ↔ arguments.positional.length ≤ i := by
  constructor
  · intro h
    by_contra more
    have there : i < arguments.positional.length := by omega
    rw [positionalFilling_of_lt below (List.getElem?_eq_getElem there)] at h
    cases h
  · intro h
    exact positionalFilling_of_le (by omega) (Nat.lt_of_lt_of_le below (fixedCount_le _))

/-! ## Named arguments -/

/-- Puts a named argument at its place. -/
def putNamed (parameters : List ParameterSpec) (slots : Filling) (a : String × Value) : Filling :=
  match placeOf? parameters a.1 with
  | some i => slots.set i (some (.value a.2))
  | none => slots

/-- A named argument whose place takes one and is open. -/
def Open (parameters : List ParameterSpec) (slots : Filling) (a : String × Value) : Prop :=
  ∃ i p, placeOf? parameters a.1 = some i ∧ parameters[i]? = some p ∧ p.variadic = false ∧
    slots[i]? = some none

theorem placeOf?_lt {name : String} (h : placeOf? parameters name = some i) :
    i < parameters.length :=
  (List.findIdx?_eq_some_iff_getElem.mp h).1

theorem fillNamed_ok_iff (length : slots.length = parameters.length) {a : String × Value}
    {slots' : Filling} : fillNamed parameters slots a = .ok slots' ↔
      Open parameters slots a ∧ putNamed parameters slots a = slots' := by
  have search : parameters.findIdx? (fun p => p.name = a.1) = placeOf? parameters a.1 := rfl
  simp only [fillNamed, Open, putNamed, search]
  cases place : placeOf? parameters a.1 with
  | none => simp
  | some i =>
    have below := placeOf?_lt place
    have slot : slots[i]? = some (slots.getD i none) := by
      rw [List.getD_eq_getElem?_getD, List.getElem?_eq_getElem (length ▸ below), Option.getD_some]
    have param : parameters[i]? = some (parameters.getD i default) := by
      rw [List.getD_eq_getElem?_getD, List.getElem?_eq_getElem below, Option.getD_some]
    generalize parameters.getD i default = p at param
    generalize slots.getD i none = s at slot
    cases variadic : p.variadic with
    | true => simp [param, variadic]
    | false => cases s <;> simp [param, variadic, slot]

theorem length_putNamed (a : String × Value) :
    (putNamed parameters slots a).length = slots.length := by
  rw [putNamed]
  split
  · exact List.length_set
  · rfl

theorem putNamed_same {a : String × Value} (place : placeOf? parameters a.1 = some i)
    (below : i < slots.length) : (putNamed parameters slots a)[i]? = some (some (.value a.2)) := by
  simp [putNamed, place, below]

theorem putNamed_other {a : String × Value} (place : placeOf? parameters a.1 ≠ some i) :
    (putNamed parameters slots a)[i]? = slots[i]? := by
  rw [putNamed]
  split
  · rename_i j found
    exact List.getElem?_set_ne (show j ≠ i from fun e => place (e ▸ found))
  · rfl

/-- The argument that comes next is open after another one if it is before and has a place of
its own. -/
theorem Open.after_iff {a b : String × Value} (first : Open parameters slots a) :
    Open parameters (putNamed parameters slots a) b ↔
      Open parameters slots b ∧ placeOf? parameters a.1 ≠ placeOf? parameters b.1 := by
  obtain ⟨i, -, place, -, -, vacant⟩ := first
  have below : i < slots.length := (List.getElem?_eq_some_iff.mp vacant).1
  constructor
  · rintro ⟨j, p, found, param, single, still⟩
    have other : placeOf? parameters a.1 ≠ some j := by
      intro same
      rw [putNamed_same same ((length_putNamed a) ▸ (List.getElem?_eq_some_iff.mp still).1)] at still
      cases still
    rw [putNamed_other other] at still
    exact ⟨⟨j, p, found, param, single, still⟩, found ▸ other⟩
  · rintro ⟨⟨j, p, found, param, single, still⟩, other⟩
    exact ⟨j, p, found, param, single, (putNamed_other (found ▸ other)).trans still⟩

/-- Named arguments are put in if all are open and have places of their own. -/
theorem foldlM_fillNamed_ok_iff : ∀ {named : List (String × Value)} {slots slots' : Filling},
    slots.length = parameters.length →
      (named.foldlM (fillNamed parameters) slots = .ok slots' ↔
        (∀ a ∈ named, Open parameters slots a) ∧
          (named.Pairwise fun a b => placeOf? parameters a.1 ≠ placeOf? parameters b.1) ∧
            named.foldl (putNamed parameters) slots = slots')
  | [], slots, slots', _ => by
    rw [List.foldlM_nil, List.foldl_nil]
    constructor
    · intro h
      exact ⟨nofun, .nil, Except.ok.inj h⟩
    · rintro ⟨-, -, rfl⟩
      rfl
  | a :: rest, slots, slots', length => by
    have step : (a :: rest).foldlM (fillNamed parameters) slots = .ok slots' ↔
        ∃ slots₁, fillNamed parameters slots a = .ok slots₁ ∧
          rest.foldlM (fillNamed parameters) slots₁ = .ok slots' := by
      rw [List.foldlM_cons]
      cases first : fillNamed parameters slots a with
      | error reason => simp [bind, Except.bind]
      | ok slots₁ => simp [bind, Except.bind]
    rw [step]
    constructor
    · rintro ⟨slots₁, first, others⟩
      obtain ⟨vacant, rfl⟩ := (fillNamed_ok_iff length).mp first
      obtain ⟨all, apart, done⟩ :=
        (foldlM_fillNamed_ok_iff ((length_putNamed a).trans length)).mp others
      refine ⟨?_, .cons (fun b hb => (vacant.after_iff.mp (all b hb)).2) apart, done⟩
      rintro b (_ | ⟨_, hb⟩)
      · exact vacant
      · exact (vacant.after_iff.mp (all b hb)).1
    · rintro ⟨all, apart, done⟩
      have vacant := all a List.mem_cons_self
      obtain ⟨other, apart⟩ := List.pairwise_cons.mp apart
      refine ⟨_, (fillNamed_ok_iff length).mpr ⟨vacant, rfl⟩, ?_⟩
      refine (foldlM_fillNamed_ok_iff ((length_putNamed a).trans length)).mpr ⟨?_, apart, done⟩
      exact fun b hb => vacant.after_iff.mpr ⟨all b (List.mem_cons_of_mem a hb), other b hb⟩

theorem length_foldl_putNamed (named : List (String × Value)) (slots : Filling) :
    (named.foldl (putNamed parameters) slots).length = slots.length := by
  induction named generalizing slots with
  | nil => rfl
  | cons a rest ih => rw [List.foldl_cons, ih, length_putNamed]

/-- A place that no argument names is left as it is. -/
theorem foldl_putNamed_other {named : List (String × Value)} {slots : Filling}
    (other : ∀ a ∈ named, placeOf? parameters a.1 ≠ some i) :
    (named.foldl (putNamed parameters) slots)[i]? = slots[i]? := by
  induction named generalizing slots with
  | nil => rfl
  | cons a rest ih =>
    rw [List.foldl_cons, ih fun b hb => other b (List.mem_cons_of_mem a hb)]
    exact putNamed_other (other a List.mem_cons_self)

theorem foldl_putNamed_same {named : List (String × Value)} {slots : Filling}
    (apart : named.Pairwise fun a b => placeOf? parameters a.1 ≠ placeOf? parameters b.1)
    {a : String × Value} (mem : a ∈ named) (place : placeOf? parameters a.1 = some i)
    (below : i < slots.length) :
    (named.foldl (putNamed parameters) slots)[i]? = some (some (.value a.2)) := by
  induction named generalizing slots with
  | nil => cases mem
  | cons b rest ih =>
    obtain ⟨others, apart⟩ := List.pairwise_cons.mp apart
    rw [List.foldl_cons]
    rcases List.mem_cons.mp mem with rfl | mem
    · rw [foldl_putNamed_other fun c hc => place ▸ (others c hc).symm]
      exact putNamed_same place below
    · exact ih apart mem ((length_putNamed b).symm ▸ below)

/-! ## All values -/

/-- The values in the slots that are filled. -/
def Filling.values (slots : Filling) : List Value :=
  slots.flatMap fun slot => (slot.map Slot.values).getD []

/-- Filling an open slot adds the values of the new one. -/
theorem Filling.values_set (slots : Filling) (h : slots[i]? = some none) (slot : Slot Value) :
    (Filling.values (slots.set i (some slot))).Perm (slot.values ++ slots.values) := by
  obtain ⟨below, e⟩ := List.getElem?_eq_some_iff.mp h
  have split := List.take_append_drop i slots
  rw [List.drop_eq_getElem_cons below, e] at split
  have set : slots.set i (some slot) = slots.take i ++ some slot :: slots.drop (i + 1) :=
    List.set_eq_take_append_cons_drop.trans (if_pos below)
  rw [set]
  conv => rhs; rw [← split]
  simp only [Filling.values, List.flatMap_append, List.flatMap_cons, Option.map_some,
    Option.getD_some, Option.map_none, Option.getD_none, List.nil_append]
  exact List.perm_append_comm_assoc _ _ _

theorem values_positionalFilling (parameters : List ParameterSpec) (arguments : CallArguments) :
    Filling.values (positionalFilling parameters arguments) =
      arguments.positional.take (fixedCount parameters) := by
  have one : ∀ values : List Value,
      (values.map fun v => some (Slot.value v)).flatMap (fun slot => (slot.map Slot.values).getD [])
        = values := fun values => by
    rw [List.flatMap_map]
    exact List.flatMap_singleton' values
  have none : ∀ n, (List.replicate n (none : Option (Slot Value))).flatMap
      (fun slot => (slot.map Slot.values).getD []) = [] := fun n => by simp
  rw [Filling.values, positionalFilling, List.flatMap_append, one, none, List.append_nil]

theorem values_foldl_putNamed {named : List (String × Value)} {slots : Filling}
    (all : ∀ a ∈ named, Open parameters slots a)
    (apart : named.Pairwise fun a b => placeOf? parameters a.1 ≠ placeOf? parameters b.1) :
    (Filling.values (named.foldl (putNamed parameters) slots)).Perm
      (slots.values ++ named.map (·.2)) := by
  induction named generalizing slots with
  | nil => simp
  | cons a rest ih =>
    obtain ⟨others, apart⟩ := List.pairwise_cons.mp apart
    have first := all a List.mem_cons_self
    have later : ∀ b ∈ rest, Open parameters (putNamed parameters slots a) b := fun b hb =>
      first.after_iff.mpr ⟨all b (List.mem_cons_of_mem a hb), others b hb⟩
    obtain ⟨i, -, place, -, -, vacant⟩ := first
    have put : (Filling.values (putNamed parameters slots a)).Perm (a.2 :: slots.values) := by
      rw [putNamed, place]
      exact Filling.values_set slots vacant (.value a.2)
    rw [List.foldl_cons, List.map_cons]
    exact ((ih later apart).trans (put.append_right _)).trans List.perm_middle.symm

/-! ## The remaining slots -/

theorem finishSlot_ok_iff {p : ParameterSpec} {slot : Option (Slot Value)} {s : Slot Value} :
    finishSlot p slot = .ok s ↔
      (slot = none → p.default.isSome = true) ∧ slot.getD .omitted = s := by
  cases slot with
  | some filled => simp [finishSlot]
  | none => cases default : p.default.isSome <;> simp [finishSlot, default]

/-- The slots that are open are left to defaults. -/
theorem finishSlots_ok_iff : ∀ {parameters : List ParameterSpec} {filled : Filling}
    {slots : List (Slot Value)}, filled.length = parameters.length →
      (finishSlots parameters filled = .ok slots ↔
        (∀ (i : Nat) p, filled[i]? = some none → parameters[i]? = some p → p.default.isSome = true) ∧
          filled.map (fun slot => slot.getD .omitted) = slots)
  | [], [], slots, _ => by simp [finishSlots]
  | p :: parameters, slot :: filled, slots, length => by
    have rest := @finishSlots_ok_iff parameters filled
    have step : finishSlots (p :: parameters) (slot :: filled) = .ok slots ↔
        ∃ s others, finishSlot p slot = .ok s ∧ finishSlots parameters filled = .ok others ∧
          s :: others = slots := by
      rw [finishSlots]
      cases finishSlot p slot with
      | error reason => simp [bind, Except.bind]
      | ok s =>
        cases finishSlots parameters filled with
        | error reason => simp [bind, Except.bind]
        | ok others => simp [bind, Except.bind, pure, Except.pure]
    rw [step]
    constructor
    · rintro ⟨s, others, one, more, rfl⟩
      obtain ⟨has, rfl⟩ := finishSlot_ok_iff.mp one
      obtain ⟨all, rfl⟩ := (rest (Nat.succ.inj length)).mp more
      refine ⟨fun i q hi hq => ?_, rfl⟩
      cases i with
      | zero => exact Option.some.inj hq ▸ has (Option.some.inj hi)
      | succ i => exact all i q hi hq
    · rintro ⟨all, rfl⟩
      refine ⟨_, _, finishSlot_ok_iff.mpr ⟨fun e => all 0 p (by simp [e]) rfl, rfl⟩,
        (rest (Nat.succ.inj length)).mpr ⟨fun i q => all (i + 1) q, rfl⟩, rfl⟩

theorem values_map_getD (filled : Filling) :
    (filled.map fun slot => slot.getD .omitted).flatMap Slot.values = Filling.values filled := by
  rw [List.flatMap_map]
  refine congrArg (filled.flatMap ·) (funext fun slot => ?_)
  cases slot <;> rfl

/-! ## Binding -/

/-- The slots that the arguments fill. -/
def suppliedFilling (parameters : List ParameterSpec) (arguments : CallArguments) : Filling :=
  fillSpread parameters arguments
    (arguments.named.foldl (putNamed parameters) (positionalFilling parameters arguments))

theorem length_suppliedFilling (parameters : List ParameterSpec) (arguments : CallArguments) :
    (suppliedFilling parameters arguments).length = parameters.length := by
  have length : (arguments.named.foldl (putNamed parameters)
      (positionalFilling parameters arguments)).length = parameters.length :=
    (length_foldl_putNamed arguments.named _).trans (length_positionalFilling parameters arguments)
  rw [suppliedFilling, fillSpread]
  split
  · exact List.length_set.trans length
  · exact length

theorem suppliedFilling_of_lt (fixed : i < fixedCount parameters) :
    (suppliedFilling parameters arguments)[i]? =
      (arguments.named.foldl (putNamed parameters)
        (positionalFilling parameters arguments))[i]? := by
  rw [suppliedFilling, fillSpread]
  split
  · exact List.getElem?_set_ne (Nat.ne_of_gt fixed)
  · rfl

theorem suppliedFilling_last (variadic : isVariadic parameters = true) :
    (suppliedFilling parameters arguments)[fixedCount parameters]? =
      some (some (.spread (arguments.positional.drop (fixedCount parameters)))) := by
  have length := fixedCount_of_variadic variadic
  rw [suppliedFilling, fillSpread, if_pos variadic]
  refine List.getElem?_set_self ?_
  rw [length_foldl_putNamed, length_positionalFilling]
  omega

/-- An argument is open after the positional ones if its place lies past them. -/
theorem open_positionalFilling_iff {a : String × Value} :
    Open parameters (positionalFilling parameters arguments) a ↔
      ∃ i p, placeOf? parameters a.1 = some i ∧ parameters[i]? = some p ∧ p.variadic = false ∧
        arguments.positional.length ≤ i := by
  constructor
  · rintro ⟨i, p, place, found, single, vacant⟩
    exact ⟨i, p, place, found, single,
      (positionalFilling_none_iff (lt_fixedCount found single)).mp vacant⟩
  · rintro ⟨i, p, place, found, single, past⟩
    exact ⟨i, p, place, found, single,
      (positionalFilling_none_iff (lt_fixedCount found single)).mpr past⟩

/-- What is open at the end is left over. -/
theorem suppliedFilling_none_iff (apart : arguments.named.Pairwise fun a b =>
      placeOf? parameters a.1 ≠ placeOf? parameters b.1) :
    (suppliedFilling parameters arguments)[i]? = some none ↔ LeftOver parameters arguments i := by
  by_cases fixed : i < fixedCount parameters
  · rw [suppliedFilling_of_lt fixed]
    by_cases taken : ∃ a ∈ arguments.named, placeOf? parameters a.1 = some i
    · obtain ⟨a, mem, place⟩ := taken
      rw [foldl_putNamed_same apart mem place
        ((length_positionalFilling parameters arguments).symm ▸ placeOf?_lt place)]
      exact ⟨nofun, fun spare => absurd place (spare.named a mem)⟩
    · have other : ∀ a ∈ arguments.named, placeOf? parameters a.1 ≠ some i := fun a mem place =>
        taken ⟨a, mem, place⟩
      rw [foldl_putNamed_other other, positionalFilling_none_iff fixed]
      exact ⟨fun past => ⟨fixed, past, other⟩, fun spare => spare.positional⟩
  · refine ⟨fun none => ?_, fun spare => absurd spare.fixed fixed⟩
    -- past the fixed places there is only the one of a variadic parameter, which is filled
    have below := (List.getElem?_eq_some_iff.mp none).1
    rw [length_suppliedFilling] at below
    cases variadic : isVariadic parameters with
    | false =>
      rw [fixedCount_of_not_variadic variadic] at fixed
      exact absurd below fixed
    | true =>
      have length := fixedCount_of_variadic variadic
      obtain rfl : i = fixedCount parameters := by omega
      rw [suppliedFilling_last variadic] at none
      cases none

/-- The outcome of binding, pass by pass. -/
theorem bindArguments_ok_iff {slots : List (Slot Value)} :
    bindArguments parameters arguments = .ok slots ↔
      Fits parameters arguments ∧
        (suppliedFilling parameters arguments).map (fun slot => slot.getD .omitted) = slots := by
  rw [bindArguments, fillPositional_eq]
  by_cases tooMany : fixedCount parameters < arguments.positional.length ∧
      isVariadic parameters = false
  · rw [if_pos tooMany]
    refine ⟨nofun, fun ⟨fits, _⟩ => ?_⟩
    rcases fits.enough with few | variadic
    · exact absurd tooMany.1 (Nat.not_lt.mpr few)
    · exact absurd variadic (by simp [tooMany.2])
  · rw [if_neg tooMany]
    have enough : arguments.positional.length ≤ fixedCount parameters ∨
        isVariadic parameters = true := by
      rcases Nat.lt_or_ge (fixedCount parameters) arguments.positional.length with more | few
      · exact .inr (Bool.not_eq_false _ ▸ fun none => tooMany ⟨more, none⟩)
      · exact .inl few
    have passes : (do
          let slots ← arguments.named.foldlM (fillNamed parameters)
            (positionalFilling parameters arguments)
          finishSlots parameters (fillSpread parameters arguments slots)) = .ok slots ↔
        ∃ filled, arguments.named.foldlM (fillNamed parameters)
            (positionalFilling parameters arguments) = .ok filled ∧
          finishSlots parameters (fillSpread parameters arguments filled) = .ok slots := by
      cases arguments.named.foldlM (fillNamed parameters)
          (positionalFilling parameters arguments) with
      | error reason => simp [bind, Except.bind]
      | ok filled => simp [bind, Except.bind]
    have length := length_positionalFilling parameters arguments
    have finish := @finishSlots_ok_iff parameters (suppliedFilling parameters arguments) slots
      (length_suppliedFilling parameters arguments)
    refine passes.trans ⟨?_, ?_⟩
    · rintro ⟨filled, named, finished⟩
      obtain ⟨all, apart, rfl⟩ := (foldlM_fillNamed_ok_iff length).mp named
      obtain ⟨defaults, done⟩ := finish.mp finished
      refine ⟨⟨enough, fun a mem => open_positionalFilling_iff.mp (all a mem), apart, ?_⟩, done⟩
      exact fun i p spare => defaults i p ((suppliedFilling_none_iff apart).mpr spare)
    · rintro ⟨fits, done⟩
      have all := fun a mem => open_positionalFilling_iff.mpr (fits.named a mem)
      refine ⟨_, (foldlM_fillNamed_ok_iff length).mpr ⟨all, fits.apart, rfl⟩, finish.mpr ⟨?_, done⟩⟩
      exact fun i p none => fits.defaults i p ((suppliedFilling_none_iff fits.apart).mp none)

/-- No slot that is filled is one that is left to a default. -/
theorem suppliedFilling_ne_omitted (parameters : List ParameterSpec) (arguments : CallArguments) :
    some .omitted ∉ suppliedFilling parameters arguments := by
  have set : ∀ {slots : Filling} (i : Nat) {slot : Slot Value}, some .omitted ∉ slots →
      slot ≠ .omitted → some .omitted ∉ List.set slots i (some slot) := by
    intro slots i slot old new mem
    rcases List.mem_or_eq_of_mem_set mem with mem | e
    · exact old mem
    · exact new (Option.some.inj e).symm
  have positional : some .omitted ∉ positionalFilling parameters arguments := by
    intro mem
    rcases List.mem_append.mp mem with mem | mem
    · obtain ⟨v, -, e⟩ := List.mem_map.mp mem
      cases e
    · cases (List.mem_replicate.mp mem).2
  have named : ∀ {named : List (String × Value)} {slots : Filling}, some .omitted ∉ slots →
      some .omitted ∉ named.foldl (putNamed parameters) slots := by
    intro named
    induction named with
    | nil => exact id
    | cons a rest ih =>
      intro slots old
      refine ih ?_
      rw [putNamed]
      split
      · exact set _ old nofun
      · exact old
  rw [suppliedFilling, fillSpread]
  split
  · exact set _ (named positional) nofun
  · exact named positional

/-- The filled slots hold every argument once. -/
theorem Fits.values (fits : Fits parameters arguments) :
    (suppliedFilling parameters arguments).values.Perm
      (arguments.positional ++ arguments.named.map (·.2)) := by
  have all := fun a mem => open_positionalFilling_iff.mpr (fits.named a mem)
  have named := values_foldl_putNamed all fits.apart
  rw [values_positionalFilling] at named
  rw [suppliedFilling, fillSpread]
  split
  · rename_i variadic
    have length := fixedCount_of_variadic variadic
    have other : ∀ a ∈ arguments.named, placeOf? parameters a.1 ≠ some (fixedCount parameters) := by
      intro a mem place
      obtain ⟨i, p, place', found, single, -⟩ := fits.named a mem
      rw [place, Option.some.injEq] at place'
      exact absurd (lt_fixedCount found single) (by omega)
    have vacant : (arguments.named.foldl (putNamed parameters)
        (positionalFilling parameters arguments))[fixedCount parameters]? = some none := by
      rw [foldl_putNamed_other other]
      exact positionalFilling_of_le (by omega) (by omega)
    refine (Filling.values_set _ vacant _).trans ((named.append_left _).trans ?_)
    rw [← List.append_assoc]
    refine List.Perm.append_right _ (List.perm_append_comm.trans (.of_eq ?_))
    exact List.take_append_drop _ _
  · rename_i single
    rcases fits.enough with few | variadic
    · rwa [List.take_of_length_le few] at named
    · exact absurd variadic single

/-- Binding lays every argument out. -/
theorem Fits.laidOut (fits : Fits parameters arguments) :
    LaidOut parameters arguments
      ((suppliedFilling parameters arguments).map fun slot => slot.getD .omitted) := by
  have all := fun a mem => open_positionalFilling_iff.mpr (fits.named a mem)
  have length := length_suppliedFilling parameters arguments
  have filled : ∀ (i : Nat) (slot : Slot Value),
      (suppliedFilling parameters arguments)[i]? = some (some slot) →
        ((suppliedFilling parameters arguments).map fun slot => slot.getD .omitted)[i]? =
          some slot := fun i slot e => by
    rw [List.getElem?_map, e, Option.map_some, Option.getD_some]
  refine ⟨(List.length_map _).trans length, fun i v fixed found => filled i _ ?_, fun variadic => ?_,
    fun a mem => ?_, fun i => ?_, ?_⟩
  case refine_1 =>
    -- a place before the end of the positional arguments is named by none
    have below := (List.getElem?_eq_some_iff.mp found).1
    have other : ∀ a ∈ arguments.named, placeOf? parameters a.1 ≠ some i := fun a mem place => by
      obtain ⟨j, -, place', -, -, past⟩ := fits.named a mem
      rw [place, Option.some.injEq] at place'
      omega
    rw [suppliedFilling_of_lt fixed, foldl_putNamed_other other]
    exact positionalFilling_of_lt fixed found
  case refine_2 =>
    rw [List.getLast?_eq_getElem?, List.length_map, length, fixedCount_of_variadic variadic,
      Nat.add_sub_cancel]
    exact filled _ _ (suppliedFilling_last variadic)
  case refine_3 =>
    obtain ⟨i, p, place, found, single, -⟩ := fits.named a mem
    refine ⟨i, place, filled i _ ?_⟩
    rw [suppliedFilling_of_lt (lt_fixedCount found single)]
    exact foldl_putNamed_same fits.apart mem place
      ((length_positionalFilling parameters arguments).symm ▸ placeOf?_lt place)
  case refine_4 =>
    rw [← suppliedFilling_none_iff fits.apart, List.getElem?_map]
    have other : (suppliedFilling parameters arguments)[i]? ≠ some (some .omitted) := fun e =>
      suppliedFilling_ne_omitted parameters arguments (List.mem_of_getElem? e)
    match slot : (suppliedFilling parameters arguments)[i]? with
    | none => simp
    | some none => simp
    | some (some s) =>
      have ne : s ≠ .omitted := fun e => other (slot.trans (by rw [e]))
      simp [ne]
  case refine_5 =>
    rw [values_map_getD]
    exact fits.values

/-! ## Positional calls -/

section Positional

variable {values : List Value}

/-- Without defaults, every place that takes one argument has to be given one. -/
theorem fits_positional_iff (bare : ∀ p ∈ parameters, p.default = none) :
    Fits parameters ⟨values, []⟩ ↔ fixedCount parameters ≤ values.length ∧
      (values.length ≤ fixedCount parameters ∨ isVariadic parameters = true) := by
  constructor
  · intro fits
    refine ⟨Nat.le_of_not_lt fun few => ?_, fits.enough⟩
    have below := Nat.lt_of_lt_of_le few (fixedCount_le parameters)
    have default := fits.defaults values.length _ ⟨few, Nat.le_refl _, nofun⟩
      (List.getElem?_eq_getElem below)
    rw [bare _ (List.getElem_mem below)] at default
    cases default
  · rintro ⟨all, enough⟩
    refine ⟨enough, nofun, .nil, fun i p spare _ => ?_⟩
    exact absurd (Nat.lt_of_lt_of_le spare.fixed all) (Nat.not_lt.mpr spare.positional)

theorem suppliedFilling_positional (all : fixedCount parameters ≤ values.length) :
    (suppliedFilling parameters ⟨values, []⟩).map (fun slot => slot.getD .omitted) =
      (values.take (fixedCount parameters)).map .value ++
        if isVariadic parameters then [.spread (values.drop (fixedCount parameters))] else [] := by
  have length : (values.take (fixedCount parameters)).length = fixedCount parameters :=
    List.length_take_of_le all
  have filled : ((values.take (fixedCount parameters)).map fun v => some (Slot.value v)).map
      (fun slot => slot.getD .omitted) = (values.take (fixedCount parameters)).map .value := by
    rw [List.map_map]
    rfl
  simp only [suppliedFilling, List.foldl_nil, fillSpread, positionalFilling, List.length_map, length]
  cases variadic : isVariadic parameters with
  | true =>
    rw [fixedCount_of_variadic variadic, Nat.add_sub_cancel_left, if_pos rfl, if_pos rfl,
      List.set_append_right _ _ (Nat.le_of_eq ((List.length_map _).trans length))]
    simp only [List.length_map, length, Nat.sub_self, List.replicate_one, List.set_cons_zero,
      List.map_append, filled, List.map_cons, List.map_nil, Option.getD_some]
  | false =>
    rw [fixedCount_of_not_variadic variadic] at filled ⊢
    rw [if_neg Bool.false_ne_true, if_neg Bool.false_ne_true, Nat.sub_self, List.replicate_zero,
      List.append_nil, List.append_nil]
    exact filled

/-- Where there are no defaults, positional arguments are laid out by their number alone. -/
theorem bindArguments_positional (bare : ∀ p ∈ parameters, p.default = none) :
    (bindArguments parameters ⟨values, []⟩).toOption =
      Slot.positional? values parameters.length (isVariadic parameters) := by
  have iff : Fits parameters ⟨values, []⟩ ↔ fixedCount parameters ≤ values.length ∧
      (values.length ≤ fixedCount parameters ∨ isVariadic parameters = true) :=
    fits_positional_iff bare
  have le := fixedCount_le parameters
  cases bound : bindArguments parameters ⟨values, []⟩ with
  | ok slots =>
    obtain ⟨fits, rfl⟩ := bindArguments_ok_iff.mp bound
    obtain ⟨all, enough⟩ := iff.mp fits
    rw [suppliedFilling_positional all, Slot.positional?]
    cases variadic : isVariadic parameters with
    | true =>
      have length := fixedCount_of_variadic variadic
      rw [if_pos rfl, if_pos rfl, if_neg (by omega), length, Nat.add_sub_cancel]
      rfl
    | false =>
      have length := fixedCount_of_not_variadic variadic
      have same : values.length = parameters.length := by
        rcases enough with few | collects
        · omega
        · rw [variadic] at collects
          cases collects
      rw [if_neg Bool.false_ne_true, if_neg Bool.false_ne_true, if_pos same, List.append_nil,
        List.take_of_length_le (by omega)]
      rfl
  | error reason =>
    have unfit : ¬ Fits parameters ⟨values, []⟩ := fun fits => by
      rw [bindArguments_ok_iff.mpr ⟨fits, rfl⟩] at bound
      cases bound
    rw [iff, not_and_or] at unfit
    rw [Slot.positional?]
    cases variadic : isVariadic parameters with
    | true =>
      have length := fixedCount_of_variadic variadic
      rw [if_pos rfl, if_pos ?_]
      · rfl
      · rcases unfit with few | many
        · omega
        · exact absurd (.inr variadic) many
    | false =>
      have length := fixedCount_of_not_variadic variadic
      rw [if_neg Bool.false_ne_true, if_neg ?_]
      · rfl
      · intro same
        rcases unfit with few | many
        · omega
        · exact many (.inl (by omega))

end Positional

/-- Arguments bind to a parameter list exactly if they fit it, and are then laid out as they are
written, each once; positional ones alone as their number tells. -/
theorem bindArguments_exact (parameters : List ParameterSpec) (arguments : CallArguments) :
    ((∃ slots, bindArguments parameters arguments = .ok slots) ↔ Fits parameters arguments) ∧
      (∀ slots, bindArguments parameters arguments = .ok slots →
        LaidOut parameters arguments slots) ∧
      (arguments.named = [] → (∀ p ∈ parameters, p.default = none) →
        (bindArguments parameters arguments).toOption =
          Slot.positional? arguments.positional parameters.length (isVariadic parameters)) := by
  refine ⟨⟨?_, fun fits => ⟨_, bindArguments_ok_iff.mpr ⟨fits, rfl⟩⟩⟩, ?_, ?_⟩
  · rintro ⟨slots, bound⟩
    exact (bindArguments_ok_iff.mp bound).1
  · intro slots bound
    obtain ⟨fits, rfl⟩ := bindArguments_ok_iff.mp bound
    exact fits.laidOut
  · intro none bare
    obtain ⟨values, named⟩ := arguments
    obtain rfl : named = [] := none
    exact bindArguments_positional bare

/-- A parameter without a type. -/
def plainParameter (name : String) (default : Option Expr) (variadic : Bool) : ParameterSpec :=
  ⟨name, .any, false, default, variadic, {}⟩

/-- In a list with a default, a name that comes twice and a variadic end: one argument goes to
the first place, one by name to the third, the second is left to its default and nothing is
collected. -/
theorem bindArguments_exact_mixed :
    let parameters := [plainParameter "a" none false,
      plainParameter "b" (some ⟨.literal .null, .none⟩) false, plainParameter "c" none false,
      plainParameter "a" none true]
    let slots : List (Slot Value) := [.value (.int 1), .omitted, .value (.int 3), .spread []]
    bindArguments parameters ⟨[.int 1], [("c", .int 3)]⟩ = .ok slots ∧
      LaidOut parameters ⟨[.int 1], [("c", .int 3)]⟩ slots ∧
      ¬ Fits parameters ⟨[.int 1], [("c", .int 3), ("a", .int 4)]⟩ ∧
      (bindArguments [plainParameter "a" none false, plainParameter "b" none true]
          ⟨[.int 1, .int 2, .int 3], []⟩).toOption =
        Slot.positional? [.int 1, .int 2, .int 3] 2 true := by
  refine ⟨rfl, (bindArguments_exact _ _).2.1 _ rfl, fun fits => ?_, ?_⟩
  · obtain ⟨slots, bound⟩ := (bindArguments_exact _ _).1.mpr fits
    cases bound
  · exact (bindArguments_exact _ ⟨_, []⟩).2.2 rfl (by simp [plainParameter])

end ScopeLang
