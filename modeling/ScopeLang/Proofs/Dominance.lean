/-
# Dominance between overloads

An overload is ranked by a total over its slots, while a reader compares two
overloads argument by argument.  The two agree as far as the supplied arguments
go: the total of a positional call is the sum of the fits of its arguments, each
to the parameter that takes it, and the lexicographic order on totals is
additive, so being as good everywhere and better somewhere is being better.

What the arguments do not decide is that each parameter left to its default adds
to the total as well.  Hence an overload can win by the defaults it leaves, and
dominance is a property of the overloads that leave no more than the others.
-/
import ScopeLang.Proofs.Ranking
import ScopeLang.Proofs.Unions

namespace ScopeLang

/-! ## Fits of single arguments -/

namespace Fit

/-- The order in which a reader ranks the matches of one argument. -/
inductive Beats : Fit → Fit → Prop
  | exact_widened (d : Nat) : Beats exact (widened d)
  | exact_unchecked : Beats exact unchecked
  | widened_unchecked (d : Nat) : Beats (widened d) unchecked
  | nearer {d e : Nat} : d < e → Beats (widened d) (widened e)

variable {a b c d : Fit}

theorem Beats.better (h : a.Beats b) : a.better b = true := by
  cases h with
  | exact_widened d => rfl
  | exact_unchecked => rfl
  | widened_unchecked d => rfl
  | nearer lt => exact better_iff.mpr (.inr ⟨rfl, lt⟩)

theorem not_better_add (h : b.better a = false) (i : d.better c = false) :
    (b.add d).better (a.add c) = false := by
  rw [not_better_iff] at *
  simp only [add]
  omega

theorem better_add_left (h : a.better b = true) (i : d.better c = false) :
    (a.add c).better (b.add d) = true := by
  rw [better_iff] at *
  rw [not_better_iff] at i
  simp only [add]
  omega

theorem better_add_right (h : b.better a = false) (i : c.better d = true) :
    (a.add c).better (b.add d) = true := by
  rw [better_iff] at *
  rw [not_better_iff] at h
  simp only [add]
  omega

theorem add_assoc (a b c : Fit) : (a.add b).add c = a.add (b.add c) := by
  simp [add, Nat.add_assoc]

theorem add_empty (a : Fit) : a.add empty = a := rfl

theorem sum_cons (x : Option Fit) (rest : List (Option Fit)) :
    sum (x :: rest) = x.bind fun a => (sum rest).map a.add := by
  cases x <;> rfl

theorem sum_cons_eq_some {x : Option Fit} {rest : List (Option Fit)} :
    sum (x :: rest) = some c ↔ ∃ a b, x = some a ∧ sum rest = some b ∧ a.add b = c := by
  simp [sum_cons, Option.bind_eq_some_iff]

/-- A sum of fits no worse is no worse. -/
theorem not_better_sum : ∀ {xs ys : List (Option Fit)} {a b : Fit}, xs.length = ys.length →
    sum xs = some a → sum ys = some b →
    (∀ {i : Nat} {x y : Fit}, xs[i]? = some (some x) → ys[i]? = some (some y) →
      y.better x = false) →
    b.better a = false
  | [], [], _, _, _, ea, eb, _ => by
    cases ea
    cases eb
    rfl
  | _ :: _, _ :: _, _, _, length, ea, eb, asGood => by
    obtain ⟨x, a, rfl, restA, rfl⟩ := sum_cons_eq_some.mp ea
    obtain ⟨y, b, rfl, restB, rfl⟩ := sum_cons_eq_some.mp eb
    have rest : b.better a = false :=
      not_better_sum (Nat.succ.inj length) restA restB fun {i _ _} hx hy => asGood (i := i + 1) hx hy
    exact not_better_add (asGood (i := 0) rfl rfl) rest

/-- A sum of fits no worse, one of which is better, is better. -/
theorem better_sum : ∀ {xs ys : List (Option Fit)} {a b : Fit} {i : Nat} {x y : Fit},
    xs.length = ys.length → sum xs = some a → sum ys = some b →
    (∀ {i : Nat} {x y : Fit}, xs[i]? = some (some x) → ys[i]? = some (some y) →
      y.better x = false) →
    xs[i]? = some (some x) → ys[i]? = some (some y) → x.better y = true →
    a.better b = true
  | [], _, _, _, _, _, _, _, _, _, _, found, _, _ => by cases found
  | _ :: xs, _ :: ys, _, _, i, _, _, length, ea, eb, asGood, foundX, foundY, better => by
    obtain ⟨x, a, rfl, restA, rfl⟩ := sum_cons_eq_some.mp ea
    obtain ⟨y, b, rfl, restB, rfl⟩ := sum_cons_eq_some.mp eb
    have later : ∀ {i : Nat} {x y : Fit}, xs[i]? = some (some x) → ys[i]? = some (some y) →
        y.better x = false := fun {i _ _} hx hy => asGood (i := i + 1) hx hy
    cases i with
    | zero =>
      cases foundX
      cases foundY
      exact better_add_left better (not_better_sum (Nat.succ.inj length) restA restB later)
    | succ i =>
      have rest := better_sum (Nat.succ.inj length) restA restB later foundX foundY better
      exact better_add_right (asGood (i := 0) rfl rfl) rest

end Fit

/-! ## Where positional arguments go -/

def Slot.isOmitted {α : Type} : Slot α → Bool
  | .omitted => true
  | _ => false

/-- The parameter that takes the positional argument at a place. -/
def taker? (parameters : List ParameterSpec) (i : Nat) : Option ParameterSpec :=
  if isVariadic parameters then parameters[min i (parameters.length - 1)]? else parameters[i]?

/-- Positional arguments laid out over parameters: one each from the left, then defaults, and what
is left over at the end goes to the parameter that collects. -/
inductive Laid : List ParameterSpec → List Value → List (Slot Value) → Prop
  | done : Laid [] [] []
  | value {x : ParameterSpec} {parameters : List ParameterSpec} {v : Value} {values : List Value}
      {slots : List (Slot Value)} : (parameters = [] → x.variadic = false) →
      Laid parameters values slots → Laid (x :: parameters) (v :: values) (.value v :: slots)
  | omitted {x : ParameterSpec} {parameters : List ParameterSpec} {slots : List (Slot Value)} :
      (parameters = [] → x.variadic = false) → x.default.isSome = true →
      Laid parameters [] slots → Laid (x :: parameters) [] (.omitted :: slots)
  | collected {x : ParameterSpec} {values : List Value} : x.variadic = true →
      Laid [x] values [.spread values]

section Layout

variable {x : ParameterSpec} {parameters : List ParameterSpec} {values : List Value}
  {slots : List (Slot Value)}

theorem isVariadic_cons (inner : parameters = [] → x.variadic = false) :
    isVariadic (x :: parameters) = isVariadic parameters := by
  cases parameters with
  | nil => exact inner rfl
  | cons y rest => simp [isVariadic]

theorem fixedCount_cons (inner : parameters = [] → x.variadic = false) :
    fixedCount (x :: parameters) = fixedCount parameters + 1 := by
  simp only [fixedCount, isVariadic_cons inner, List.length_cons]
  cases parameters with
  | nil => rfl
  | cons y rest => split <;> simp

theorem taker?_zero : taker? (x :: parameters) 0 = some x := by
  simp [taker?]

theorem taker?_succ (inner : parameters = [] → x.variadic = false) (i : Nat) :
    taker? (x :: parameters) (i + 1) = taker? parameters i := by
  simp only [taker?, isVariadic_cons inner]
  cases parameters with
  | nil => rfl
  | cons y rest =>
    have next : min (i + 1) (rest.length + 1) = min i rest.length + 1 := by omega
    simp [next]

/-- The parameter list filled with positional arguments only. -/
def filling (parameters : List ParameterSpec) (values : List Value) : Filling :=
  let filled := (values.take (fixedCount parameters)).map fun v => some (.value v)
  fillSpread parameters ⟨values, []⟩
    (filled ++ List.replicate (parameters.length - filled.length) none)

theorem filling_cons (inner : parameters = [] → x.variadic = false) (v : Value) :
    filling (x :: parameters) (v :: values) = some (.value v) :: filling parameters values := by
  simp only [filling, fillSpread, fixedCount_cons inner, isVariadic_cons inner]
  split <;> simp

theorem filling_none (inner : parameters = [] → x.variadic = false) :
    filling (x :: parameters) [] = none :: filling parameters [] := by
  simp only [filling, fillSpread, fixedCount_cons inner, isVariadic_cons inner]
  split <;> simp [List.replicate_succ]

theorem filling_collected (collects : x.variadic = true) :
    filling [x] values = [some (.spread values)] := by
  simp [filling, fillSpread, isVariadic, fixedCount, collects]

theorem finishSlots_cons {filled : Filling} {slot : Slot Value}
    (e : (do return slot :: (← finishSlots parameters filled)) = Except.ok slots) :
    ∃ rest, finishSlots parameters filled = .ok rest ∧ slots = slot :: rest := by
  cases others : finishSlots parameters filled with
  | error reason =>
    rw [others] at e
    cases e
  | ok rest =>
    rw [others] at e
    cases e
    exact ⟨rest, rfl, rfl⟩

/-- Binding lays positional arguments out. -/
theorem laid_of_bindArguments :
    bindArguments parameters ⟨values, []⟩ = .ok slots → Laid parameters values slots := by
  intro bound
  simp only [bindArguments, fillPositional] at bound
  split at bound
  · cases bound
  · rename_i enough
    replace bound : finishSlots parameters (filling parameters values) = .ok slots := bound
    induction parameters generalizing values slots with
    | nil =>
      have none : values = [] := by
        simpa [fixedCount, isVariadic] using enough
      cases bound
      exact none ▸ .done
    | cons x parameters ih =>
      by_cases last : parameters = [] ∧ x.variadic = true
      · obtain ⟨rfl, collects⟩ := last
        rw [filling_collected collects] at bound
        cases bound
        exact .collected collects
      · have inner : parameters = [] → x.variadic = false := fun nil =>
          Bool.eq_false_iff.mpr fun collects => last ⟨nil, collects⟩
        rw [fixedCount_cons inner, isVariadic_cons inner] at enough
        cases values with
        | nil =>
          rw [filling_none inner, finishSlots, finishSlot] at bound
          split at bound
          · rename_i defaulted
            obtain ⟨rest, others, rfl⟩ := finishSlots_cons bound
            exact .omitted inner defaulted (ih (by simp) others)
          · cases bound
        | cons v values =>
          rw [filling_cons inner, finishSlots, finishSlot] at bound
          obtain ⟨rest, others, rfl⟩ := finishSlots_cons bound
          refine .value inner (ih (fun more => enough ⟨?_, more.2⟩) others)
          exact Nat.succ_lt_succ more.1

end Layout

/-! ## The total of a call -/

namespace World

variable {w : World} {options : MatchOptions} {p : TypePool} {o : Overload} {x : ParameterSpec}
  {parameters : List ParameterSpec} {values : List Value} {slots : List (Slot Value)}
  {rank : Rank}

/-- How well the positional argument `v` at a place fits the parameter that takes it. -/
def argumentFit? (w : World) (options : MatchOptions) (p : TypePool)
    (parameters : List ParameterSpec) (i : Nat) (v : Value) : Option Fit :=
  (taker? parameters i).bind fun x =>
    p.fitArgument options x.signature x.enforced (w.valueType v)

theorem fitSlots_cons (variadic : Bool) (s : SigId) (parameters : List SigId) (e : Bool)
    (enforced : List Bool) (slot : Slot ValueType) (slots : List (Slot ValueType)) :
    p.fitSlots options variadic (s :: parameters) (e :: enforced) (slot :: slots) =
      (p.fitSlot options s e (variadic && slots.isEmpty) slot).bind fun fit =>
        (p.fitSlots options variadic parameters enforced slots).map fit.add := by
  simp only [TypePool.fitSlots, List.headD_cons, List.tail_cons]
  cases p.fitSlot options s e (variadic && slots.isEmpty) slot <;> rfl

/-- The fits of all arguments, in order. -/
def argumentFits (w : World) (options : MatchOptions) (p : TypePool)
    (parameters : List ParameterSpec) (values : List Value) : List (Option Fit) :=
  values.mapIdx (w.argumentFit? options p parameters)

theorem argumentFits_cons (inner : parameters = [] → x.variadic = false) (v : Value) :
    w.argumentFits options p (x :: parameters) (v :: values) =
      p.fitArgument options x.signature x.enforced (w.valueType v) ::
        w.argumentFits options p parameters values := by
  have first : w.argumentFit? options p (x :: parameters) 0 v =
      p.fitArgument options x.signature x.enforced (w.valueType v) := by
    rw [argumentFit?, taker?_zero, Option.bind_some]
  have later (i : Nat) : w.argumentFit? options p (x :: parameters) (i + 1) =
      w.argumentFit? options p parameters i := by
    funext v
    rw [argumentFit?, taker?_succ inner, argumentFit?]
  simp only [argumentFits, List.mapIdx_cons, first, later]

theorem argumentFits_collected (collects : x.variadic = true) :
    w.argumentFits options p [x] values =
      values.map fun v => p.fitArgument options x.signature x.enforced (w.valueType v) := by
  have only (i : Nat) : w.argumentFit? options p [x] i =
      fun v => p.fitArgument options x.signature x.enforced (w.valueType v) := by
    funext v
    simp [argumentFit?, taker?, isVariadic, collects]
  exact List.ext_getElem? fun i => by simp [argumentFits, only]

theorem argumentFits_getElem? {i : Nat} {fit : Option Fit} :
    (w.argumentFits options p parameters values)[i]? = some fit ↔
      ∃ v, values[i]? = some v ∧ w.argumentFit? options p parameters i v = fit := by
  simp [argumentFits]

/-- The fit of a positional call is the sum of those of its arguments, and one more for each
parameter that is left to its default. -/
theorem fitSlots_laid (h : Laid parameters values slots) :
    p.fitSlots options (isVariadic parameters) (parameters.map ParameterSpec.signature)
        (parameters.map ParameterSpec.enforced) (slots.map (Slot.map w.valueType)) =
      (Fit.sum (w.argumentFits options p parameters values)).map
        fun fit => fit.add ⟨slots.countP Slot.isOmitted, 0⟩ := by
  induction h with
  | done => rfl
  | @value x parameters v values slots inner rest ih =>
    have alone : (isVariadic (x :: parameters) && (slots.map (Slot.map w.valueType)).isEmpty) =
        false := by
      cases rest with
      | done => simp [isVariadic, inner rfl]
      | _ => simp
    rw [isVariadic_cons inner] at alone ⊢
    simp only [List.map_cons, Slot.map]
    rw [fitSlots_cons, alone, ih, argumentFits_cons inner, Fit.sum_cons,
      List.countP_cons_of_neg Bool.false_ne_true]
    simp only [TypePool.fitSlot, if_neg Bool.false_ne_true]
    cases p.fitArgument options x.signature x.enforced (w.valueType v) with
    | none => rfl
    | some a =>
      cases Fit.sum (w.argumentFits options p parameters values) with
      | none => rfl
      | some b => exact congrArg some (a.add_assoc b _).symm
  | @omitted x parameters slots inner defaulted rest ih =>
    simp only [List.map_cons, Slot.map]
    rw [isVariadic_cons inner, fitSlots_cons, ih, List.countP_cons_of_pos rfl]
    simp [TypePool.fitSlot, argumentFits, Fit.sum, Fit.unchecked, Fit.empty, Fit.add, Nat.add_comm]
  | @collected x values collects =>
    have variadic : isVariadic [x] = true := by simp [isVariadic, collects]
    simp only [List.map_cons, List.map_nil, Slot.map]
    rw [fitSlots_cons, argumentFits_collected collects, variadic]
    simp only [TypePool.fitSlot, List.isEmpty_nil, Bool.and_self, if_true, List.map_map]
    exact Option.map_eq_bind.symm

/-- The fit of a typed overload to a positional call. -/
theorem Qualifies.fit (h : w.Qualifies options ⟨values, []⟩ p o rank slots)
    (typed : o.isClosure = false) (grounded : p.Grounded)
    (known : ∀ x ∈ w.parameters o.callable, p.Knows x.signature) :
    ∃ fit, Fit.sum (w.argumentFits options p (w.parameters o.callable) values) = some fit ∧
      rank = ⟨true, fit.add ⟨slots.countP Slot.isOmitted, 0⟩⟩ := by
  cases h with
  | closure bound closure => exact absurd (closure.symm.trans typed) Bool.noConfusion
  | @typed _ fit bound typed fits =>
    have known' : ∀ s ∈ (w.invocable o).parameters, p.Knows s := by
      intro s mem
      obtain ⟨x, hx, rfl⟩ := List.mem_map.mp mem
      exact known x hx
    rw [grounded.fitCall_invocable (.refl p) known'] at fits
    obtain ⟨fit, sum, rfl⟩ := Option.map_eq_some_iff.mp
      ((fitSlots_laid (laid_of_bindArguments bound)).symm.trans fits)
    exact ⟨fit, sum, rfl⟩

/-! ## Dominance -/

variable {a b : Overload} {rankA rankB : Rank} {slotsA slotsB : List (Slot Value)}
  {candidates : List Overload} {name : String}

/-- Every argument fits one overload at least as well as the other, and some argument better. -/
structure Dominates (w : World) (options : MatchOptions) (p : TypePool) (values : List Value)
    (a b : Overload) : Prop where
  asGood : ∀ {i : Nat} {v : Value} {x y : Fit}, values[i]? = some v →
    w.argumentFit? options p (w.parameters a.callable) i v = some x →
    w.argumentFit? options p (w.parameters b.callable) i v = some y → x = y ∨ x.Beats y
  better : ∃ (i : Nat) (v : Value) (x y : Fit), values[i]? = some v ∧
    w.argumentFit? options p (w.parameters a.callable) i v = some x ∧
    w.argumentFit? options p (w.parameters b.callable) i v = some y ∧ x.Beats y

theorem Dominates.sum_better (h : w.Dominates options p values a b) {x y : Fit}
    (sumA : Fit.sum (w.argumentFits options p (w.parameters a.callable) values) = some x)
    (sumB : Fit.sum (w.argumentFits options p (w.parameters b.callable) values) = some y) :
    x.better y = true := by
  have length : (w.argumentFits options p (w.parameters a.callable) values).length =
      (w.argumentFits options p (w.parameters b.callable) values).length := by
    simp [argumentFits]
  obtain ⟨i, v, fitA, fitB, found, ofA, ofB, beats⟩ := h.better
  refine Fit.better_sum length sumA sumB ?_ (argumentFits_getElem?.mpr ⟨v, found, ofA⟩)
    (argumentFits_getElem?.mpr ⟨v, found, ofB⟩) beats.better
  intro j c d hc hd
  obtain ⟨u, found, ofA⟩ := argumentFits_getElem?.mp hc
  obtain ⟨u', found', ofB⟩ := argumentFits_getElem?.mp hd
  obtain rfl := Option.some.inj (found.symm.trans found')
  rcases h.asGood found ofA ofB with rfl | beats
  · exact Fit.not_better_iff.mpr ⟨Nat.le_refl _, fun _ => Nat.le_refl _⟩
  · have better := Fit.better_iff.mp beats.better
    exact Fit.not_better_iff.mpr (by omega)

/-- A typed overload is not chosen if another one dominates it and leaves at least as many
parameters to their defaults. -/
theorem resolveOverload_dominated (grounded : p.Grounded)
    (known : ∀ o ∈ candidates, ∀ x ∈ w.parameters o.callable, p.Knows x.signature)
    (memA : a ∈ candidates) (memB : b ∈ candidates) (typedA : a.isClosure = false)
    (typedB : b.isClosure = false) (acceptsA : w.Qualifies options ⟨values, []⟩ p a rankA slotsA)
    (acceptsB : w.Qualifies options ⟨values, []⟩ p b rankB slotsB)
    (dominates : w.Dominates options p values a b)
    (defaults : slotsB.countP Slot.isOmitted ≤ slotsA.countP Slot.isOmitted)
    {r : Resolution}
    (chosen : (w.resolveOverload options name candidates ⟨values, []⟩ p).1 = .ok r) :
    r.overload ≠ b := by
  rintro rfl
  have best : w.Best options ⟨values, []⟩ p candidates r.overload := by
    rw [resolveOverload_eq_choose grounded known (List.ne_nil_of_mem memA) (.refl _)
      (.refl p)] at chosen
    have resolves : w.Resolves options ⟨values, []⟩ p name candidates (.ok r) :=
      chosen ▸ resolves_choose
    cases resolves with
    | unique _ best => exact best
  obtain ⟨rank, slots, qualifies, top⟩ := best
  have notAbove := top a memA rankA slotsA acceptsA
  obtain ⟨rfl, rfl⟩ : rank = rankB ∧ slots = slotsB := by
    have same := (qualifies_iff.mp qualifies).symm.trans (qualifies_iff.mp acceptsB)
    cases same
    exact ⟨rfl, rfl⟩
  obtain ⟨x, sumA, rfl⟩ := acceptsA.fit typedA grounded (known a memA)
  obtain ⟨y, sumB, rfl⟩ := acceptsB.fit typedB grounded (known r.overload memB)
  have better := dominates.sum_better sumA sumB
  have fewer : (⟨slots.countP Slot.isOmitted, 0⟩ : Fit).better
      ⟨slotsA.countP Slot.isOmitted, 0⟩ = false :=
    Fit.not_better_iff.mpr ⟨defaults, fun _ => Nat.le_refl 0⟩
  have total := Fit.better_add_left better fewer
  simp [Rank.above, total] at notAbove

/-- Of one argument, the better fit dominates. -/
theorem dominates_one {v : Value} {x y : Fit}
    (ofA : w.argumentFit? options p (w.parameters a.callable) 0 v = some x)
    (ofB : w.argumentFit? options p (w.parameters b.callable) 0 v = some y) (beats : x.Beats y) :
    w.Dominates options p [v] a b where
  asGood {i _ _ _} found ofA' ofB' := by
    cases i with
    | zero =>
      cases found
      obtain rfl := Option.some.inj (ofA.symm.trans ofA')
      obtain rfl := Option.some.inj (ofB.symm.trans ofB')
      exact .inr beats
    | succ i => cases found
  better := ⟨0, v, x, y, rfl, ofA, ofB, beats⟩

/-- Four functions of a parameter `x` and some with defaults: in the first and the third `x` is an
`Int`, and the last has three defaults where the third has none. -/
def defaulting : World :=
  let zero : Expr := .ofTerm (.literal (.int 0))
  let general (name : String) (default : Option Expr) : ParameterSpec :=
    ⟨name, .any, false, default, false, {}⟩
  let int : ParameterSpec := ⟨"x", ⟨2⟩, true, none, false, {}⟩
  let takes (parameters : List ParameterSpec) : Function := ⟨⟨"f", parameters, .any, .user []⟩, none⟩
  { World.empty with functions := ⟨#[takes [int, general "y" zero],
      takes [general "x" none, general "y" zero], takes [int],
      takes [general "x" none, general "y" zero, general "z" zero, general "w" zero]]⟩ }

/-- The function at a place in the store. -/
def functionAt (i : Nat) : Overload := ⟨.function ⟨i⟩, .function, none⟩

/-- With one default each, an integer goes to the function that takes an `Int`. -/
theorem dominated_sameDefaults :
    let p := (TypePool.initial.nominal Primitive.int.id).2
    let one : Value := .ofDatum (.number (.int 1))
    p.Grounded ∧ defaulting.Dominates {} p [one] (functionAt 0) (functionAt 1) ∧
      ∃ r, (defaulting.resolveOverload {} "f" [functionAt 1, functionAt 0] ⟨[one], []⟩ p).1 =
        .ok r ∧ r.overload ≠ functionAt 1 := by
  intro p one
  have int : TypePool.initial.Describes (.nominal Primitive.int.id) :=
    ⟨nofun, fun _ mem => List.mem_singleton.mp mem ▸ ⟨"Int", rfl⟩⟩
  have grounded : p.Grounded := (TypePool.regular_initial.intern int).regular.grounded
  have known : ∀ o ∈ [functionAt 1, functionAt 0], ∀ x ∈ defaulting.parameters o.callable,
      p.Knows x.signature := by
    simp only [TypePool.Knows]
    decide +kernel
  have dominates : defaulting.Dominates {} p [one] (functionAt 0) (functionAt 1) :=
    dominates_one rfl rfl .exact_unchecked
  have special : defaulting.Qualifies {} ⟨[one], []⟩ p (functionAt 0) ⟨true, ⟨4, 0⟩⟩
      [.value one, .omitted] := qualifies_iff.mpr rfl
  have general : defaulting.Qualifies {} ⟨[one], []⟩ p (functionAt 1) ⟨true, ⟨2, 0⟩⟩
      [.value one, .omitted] := qualifies_iff.mpr rfl
  have chosen : (defaulting.resolveOverload {} "f" [functionAt 1, functionAt 0] ⟨[one], []⟩ p).1 =
      .ok ⟨functionAt 0, [.value one, .omitted]⟩ := rfl
  have listed : functionAt 0 ∈ [functionAt 1, functionAt 0] ∧
      functionAt 1 ∈ [functionAt 1, functionAt 0] := by simp
  have other := resolveOverload_dominated grounded known listed.1 listed.2 rfl rfl special general
    dominates (Nat.le_refl _) chosen
  exact ⟨grounded, dominates, _, chosen, other⟩

/-- An integer goes to the function with three defaults and not to the one that takes an `Int`. -/
theorem not_dominated_moreDefaults :
    let p := (TypePool.initial.nominal Primitive.int.id).2
    let one : Value := .ofDatum (.number (.int 1))
    (functionAt 2).isClosure = false ∧ (functionAt 3).isClosure = false ∧
      defaulting.Qualifies {} ⟨[one], []⟩ p (functionAt 2) ⟨true, ⟨3, 0⟩⟩ [.value one] ∧
      defaulting.Qualifies {} ⟨[one], []⟩ p (functionAt 3) ⟨true, ⟨4, 0⟩⟩
        [.value one, .omitted, .omitted, .omitted] ∧
      defaulting.Dominates {} p [one] (functionAt 2) (functionAt 3) ∧
      (defaulting.resolveOverload {} "f" [functionAt 2, functionAt 3] ⟨[one], []⟩ p).1 =
        .ok ⟨functionAt 3, [.value one, .omitted, .omitted, .omitted]⟩ := by
  intro p one
  refine ⟨rfl, rfl, qualifies_iff.mpr rfl, qualifies_iff.mpr rfl, ?_, rfl⟩
  exact dominates_one rfl rfl .exact_unchecked

end World

end ScopeLang
