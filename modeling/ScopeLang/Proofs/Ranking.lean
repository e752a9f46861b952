/-
# The choice of an overload

A call goes to the candidate that is ranked above all others, and the choice is
described here without the pass that makes it.  `Qualifies` says what makes a
candidate eligible and with what rank, `Best` compares it with every other one,
and `Resolves` lists what a call can come to: the only best candidate, the
number of them if there are several, or the error of a call that no candidate
is eligible for.

The pass interns the type of each typed candidate before it looks at the next
one, so a verdict could depend on what came earlier.  It does not: the type is
read back from where it was just put, and the types of the parameters are older
than the call.  Hence the verdicts are those of any earlier pool, and what is
left to prove is about a list of verdicts.
-/
import ScopeLang.Proofs.Interning
import ScopeLang.Proofs.Resolution

namespace ScopeLang

/-! ## Ranks -/

namespace Rank

theorem above_iff {a b : Rank} : a.above b = true ↔
    a.typed = true ∧ b.typed = false ∨ a.typed = b.typed ∧ (b.fit.score < a.fit.score ∨
      a.fit.score = b.fit.score ∧ a.fit.cost < b.fit.cost) := by
  simp [above, Fit.better]

theorem not_above_self (a : Rank) : a.above a = false := by
  simp [above, Fit.better]

theorem above_trans {a b c : Rank} (h : a.above b = true) (i : b.above c = true) :
    a.above c = true := by
  rw [above_iff] at *
  grind

end Rank

/-! ## Fits and later pools -/

namespace TypePool

variable {p q : TypePool} {options : MatchOptions}

namespace Grounded

theorem fitArgument_grows (h : p.Grounded) (g : p.Grows q) {s : SigId} (known : p.Knows s)
    (enforced : Bool) (v : ValueType) :
    q.fitArgument options s enforced v = p.fitArgument options s enforced v := by
  simp only [fitArgument, h.fit_grows g known]

theorem fitSlot_grows (h : p.Grounded) (g : p.Grows q) {s : SigId} (known : p.Knows s)
    (enforced collects : Bool) (slot : Slot ValueType) :
    q.fitSlot options s enforced collects slot = p.fitSlot options s enforced collects slot := by
  have same : q.fitArgument options s enforced = p.fitArgument options s enforced :=
    funext (h.fitArgument_grows g known enforced)
  cases slot <;> simp only [fitSlot, same]

theorem fitSlots_grows (h : p.Grounded) (g : p.Grows q) (variadic : Bool) :
    ∀ {parameters : List SigId} (enforced : List Bool) (slots : List (Slot ValueType)),
      (∀ s ∈ parameters, p.Knows s) →
        q.fitSlots options variadic parameters enforced slots =
          p.fitSlots options variadic parameters enforced slots
  | [], _, [], _ => rfl
  | [], _, _ :: _, _ => rfl
  | _ :: _, _, [], _ => rfl
  | s :: rest, enforced, slot :: slots, known => by
    simp only [fitSlots, h.fitSlot_grows g (known s List.mem_cons_self),
      h.fitSlots_grows g variadic enforced.tail slots
        fun t mem => known t (List.mem_cons_of_mem s mem)]

/-- A call is matched against the type that has been interned for it, as the pool read its
parameters before. -/
theorem fitCall_invocable (h : p.Grounded) (g : p.Grows q) {type : Invocable}
    (known : ∀ s ∈ type.parameters, p.Knows s) (slots : List (Slot ValueType)) :
    (q.invocable type).2.fitCall options (q.invocable type).1 slots =
      p.fitSlots options type.variadic type.parameters type.enforced slots := by
  have found : (q.invocable type).2.get? (q.invocable type).1 = some (.invocable type) :=
    q.get?_internNormal _
  rw [fitCall, found]
  exact h.fitSlots_grows (g.trans (q.grows_intern _)) _ _ _ known

end Grounded

end TypePool

/-! ## Candidates -/

namespace World

variable {w : World} {options : MatchOptions} {arguments : CallArguments} {p q : TypePool}
  {o : Overload} {rank : Rank} {slots : List (Slot Value)} {name : String}
  {candidates others : List Overload}

/-- A candidate to which the arguments bind, and which is a closure or whose type they match. -/
inductive Qualifies (w : World) (options : MatchOptions) (arguments : CallArguments)
    (p : TypePool) (o : Overload) : Rank → List (Slot Value) → Prop
  | closure {slots : List (Slot Value)} :
      bindArguments (w.parameters o.callable) arguments = .ok slots → o.isClosure = true →
      Qualifies w options arguments p o ⟨false, .empty⟩ slots
  | typed {slots : List (Slot Value)} {fit : Fit} :
      bindArguments (w.parameters o.callable) arguments = .ok slots → o.isClosure = false →
      (p.invocable (w.invocable o)).2.fitCall options (p.invocable (w.invocable o)).1
        (slots.map (Slot.map w.valueType)) = some fit →
      Qualifies w options arguments p o ⟨true, fit⟩ slots

/-- A candidate that qualifies, and none of those that do is ranked above it. -/
def Best (w : World) (options : MatchOptions) (arguments : CallArguments) (p : TypePool)
    (candidates : List Overload) (o : Overload) : Prop :=
  ∃ rank slots, w.Qualifies options arguments p o rank slots ∧
    ∀ o' ∈ candidates, ∀ rank' slots', w.Qualifies options arguments p o' rank' slots' →
      rank'.above rank = false

/-- What the pass finds out about a candidate. -/
def verdict (w : World) (options : MatchOptions) (arguments : CallArguments) (p : TypePool)
    (o : Overload) : Verdict :=
  (w.examine options arguments o p).1

theorem qualifies_iff : w.Qualifies options arguments p o rank slots ↔
    w.verdict options arguments p o = .viable ⟨rank, o, slots⟩ := by
  constructor
  · intro h
    cases h with
    | closure bound closure => simp [verdict, examine, bound, closure]
    | typed bound typed fits => simp [verdict, examine, bound, typed, fits]
  · intro h
    simp only [verdict, examine] at h
    split at h
    · cases h
    · rename_i slots bound
      split at h
      · rename_i closure
        cases h
        exact .closure bound closure
      · rename_i typed
        split at h
        · rename_i fit fits
          cases h
          exact .typed bound (Bool.eq_false_iff.mpr typed) fits
        · cases h

theorem verdict_eq_unbound {reason : BindingFailure} :
    w.verdict options arguments p o = .unbound reason ↔
      bindArguments (w.parameters o.callable) arguments = .error reason := by
  simp only [verdict, examine]
  split
  · rename_i bound
    rw [bound]
    exact ⟨fun h => by cases h; rfl, fun h => by cases h; rfl⟩
  · rename_i bound
    rw [bound]
    refine ⟨fun h => ?_, fun h => by cases h⟩
    split at h
    · cases h
    · split at h <;> cases h

/-- A candidate that is viable is the one that was examined. -/
theorem verdict_viable {v : Viable} (h : w.verdict options arguments p o = .viable v) :
    w.Qualifies options arguments p o v.rank v.resolution.slots ∧ v.resolution.overload = o := by
  have same : v.resolution.overload = o :=
    (examine_viable (P := fun _ => True) ⟨fun _ _ => trivial, fun _ _ => trivial⟩ h).1
  obtain ⟨rank, o', slots⟩ := v
  obtain rfl : o' = o := same
  exact ⟨qualifies_iff.mpr h, rfl⟩

/-! ## The pass -/

/-- A verdict is the same in every later pool. -/
theorem verdict_grows (h : p.Grounded) (g : p.Grows q)
    (known : ∀ x ∈ w.parameters o.callable, p.Knows x.signature) :
    w.verdict options arguments q o = w.verdict options arguments p o := by
  have known' : ∀ s ∈ (w.invocable o).parameters, p.Knows s := by
    intro s mem
    obtain ⟨x, hx, rfl⟩ := List.mem_map.mp mem
    exact known x hx
  simp only [verdict, examine]
  cases bindArguments (w.parameters o.callable) arguments with
  | error reason => rfl
  | ok slots =>
    simp only [h.fitCall_invocable g known', h.fitCall_invocable (.refl p) known']
    split
    · rfl
    · cases p.fitSlots options (w.invocable o).variadic (w.invocable o).parameters
        (w.invocable o).enforced (slots.map (Slot.map w.valueType)) <;> rfl

theorem examineAll_verdicts (h : p.Grounded) : ∀ {candidates : List Overload} {q : TypePool},
    p.Grows q → (∀ o ∈ candidates, ∀ x ∈ w.parameters o.callable, p.Knows x.signature) →
      (w.examineAll options arguments candidates q).1 =
        candidates.map (w.verdict options arguments p)
  | [], _, _, _ => rfl
  | o :: rest, q, g, known => by
    have first : w.verdict options arguments q o = w.verdict options arguments p o :=
      verdict_grows h g (known o List.mem_cons_self)
    have later := g.trans (w.grows_examine options arguments o q)
    simp only [examineAll, List.map_cons, ← first,
      examineAll_verdicts h later fun o' mem => known o' (List.mem_cons_of_mem o mem)]
    rfl

end World

/-! ## The highest candidates -/

/-- Of some candidates one at least has no other above it. -/
theorem exists_highest : ∀ {vs : List Viable}, vs ≠ [] →
    ∃ c ∈ vs, ∀ d ∈ vs, d.rank.above c.rank = false
  | [v], _ => ⟨v, List.mem_singleton_self v, fun d hd => by
      rw [List.mem_singleton.mp hd]
      exact v.rank.not_above_self⟩
  | v :: u :: rest, _ => by
    have some : u :: rest ≠ [] := List.cons_ne_nil u rest
    obtain ⟨c, mem, top⟩ := exists_highest some
    by_cases above : v.rank.above c.rank = true
    · refine ⟨v, List.mem_cons_self, fun d hd => ?_⟩
      rcases List.mem_cons.mp hd with rfl | hd
      · exact d.rank.not_above_self
      · refine Bool.eq_false_iff.mpr fun higher => ?_
        exact absurd (Rank.above_trans higher above) (Bool.eq_false_iff.mp (top d hd))
    · refine ⟨c, List.mem_cons_of_mem v mem, fun d hd => ?_⟩
      rcases List.mem_cons.mp hd with rfl | hd
      · exact Bool.eq_false_iff.mpr above
      · exact top d hd

theorem mem_highest {vs : List Viable} {c : Viable} :
    c ∈ highest vs ↔ c ∈ vs ∧ ∀ d ∈ vs, d.rank.above c.rank = false := by
  simp [highest, List.mem_filter]

theorem highest_eq_nil {vs : List Viable} : highest vs = [] ↔ vs = [] := by
  constructor
  · intro none
    by_contra some
    obtain ⟨c, mem, top⟩ := exists_highest some
    exact absurd (mem_highest.mpr ⟨mem, top⟩) (none ▸ List.not_mem_nil)
  · rintro rfl
    rfl

theorem highest_perm {vs us : List Viable} (h : vs.Perm us) : (highest vs).Perm (highest us) := by
  have same : (fun c : Viable => vs.all fun d => !d.rank.above c.rank) =
      fun c => us.all fun d => !d.rank.above c.rank := funext fun _ => h.all_eq
  rw [highest, highest, same]
  exact h.filter _

/-- The order of the verdicts does not matter to the choice. -/
theorem choose_perm {name : String} {vs us : List Verdict} (h : vs.Perm us) :
    choose name vs = choose name us := by
  have top := highest_perm (h.filterMap Verdict.viable?)
  simp only [choose]
  generalize highest (vs.filterMap Verdict.viable?) = xs at top
  generalize highest (us.filterMap Verdict.viable?) = ys at top
  rcases xs with _ | ⟨x, _ | ⟨x', xs⟩⟩
  · obtain rfl := top.nil_eq
    rcases vs with _ | ⟨v, _ | ⟨v', vs⟩⟩
    · rw [h.nil_eq]
    · rw [List.singleton_perm.mp h]
    · have length := h.length_eq
      rcases us with _ | ⟨u, _ | ⟨u', us⟩⟩
      · cases length
      · cases length
      · simp only [length]
  · have same := List.singleton_perm.mp top
    subst same
    rfl
  · have length := top.length_eq
    rcases ys with _ | ⟨y, _ | ⟨y', ys⟩⟩
    · cases length
    · cases length
    · simp only [length]

/-! ## What a call comes to -/

namespace World

variable {w : World} {options : MatchOptions} {arguments : CallArguments} {p q : TypePool}
  {o : Overload} {rank : Rank} {slots : List (Slot Value)} {name : String}
  {candidates others : List Overload}

/-- The candidates that qualify, with their ranks. -/
def viables (w : World) (options : MatchOptions) (arguments : CallArguments) (p : TypePool)
    (candidates : List Overload) : List Viable :=
  candidates.filterMap fun o => (w.verdict options arguments p o).viable?

theorem viable?_eq_some {v : Viable} :
    (w.verdict options arguments p o).viable? = some v ↔
      w.verdict options arguments p o = .viable v := by
  cases w.verdict options arguments p o <;> simp [Verdict.viable?]

theorem best_iff : w.Best options arguments p candidates o ↔
    ((w.verdict options arguments p o).viable?.any fun v =>
      (w.viables options arguments p candidates).all fun d => !d.rank.above v.rank) = true := by
  simp only [Option.any_eq_true, List.all_eq_true, viables, List.mem_filterMap, Bool.not_eq_true',
    viable?_eq_some]
  constructor
  · rintro ⟨rank, slots, qualifies, top⟩
    refine ⟨⟨rank, o, slots⟩, qualifies_iff.mp qualifies, ?_⟩
    rintro d ⟨o', mem, found⟩
    exact top o' mem d.rank d.resolution.slots (verdict_viable found).1
  · rintro ⟨v, found, top⟩
    refine ⟨v.rank, v.resolution.slots, (verdict_viable found).1, ?_⟩
    intro o' mem rank' slots' qualifies
    exact top ⟨rank', o', slots'⟩ ⟨o', mem, qualifies_iff.mp qualifies⟩

instance : DecidablePred (w.Best options arguments p candidates) := fun _ =>
  decidable_of_iff _ best_iff.symm

theorem count_best : candidates.countP (w.Best options arguments p candidates) =
    (highest (w.viables options arguments p candidates)).length := by
  rw [highest, ← List.countP_eq_length_filter]
  nth_rewrite 2 [viables]
  rw [List.countP_filterMap]
  refine List.countP_congr fun o _ => ?_
  rw [decide_eq_true_iff, best_iff]
  cases (w.verdict options arguments p o).viable? <;> simp

theorem mem_viables {v : Viable} : v ∈ w.viables options arguments p candidates ↔
    v.resolution.overload ∈ candidates ∧
      w.Qualifies options arguments p v.resolution.overload v.rank v.resolution.slots := by
  simp only [viables, List.mem_filterMap, viable?_eq_some]
  constructor
  · rintro ⟨o, mem, found⟩
    obtain ⟨qualifies, rfl⟩ := verdict_viable found
    exact ⟨mem, qualifies⟩
  · rintro ⟨mem, qualifies⟩
    exact ⟨_, mem, qualifies_iff.mp qualifies⟩

theorem Qualifies.bound (h : w.Qualifies options arguments p o rank slots) :
    bindArguments (w.parameters o.callable) arguments = .ok slots := by
  cases h with
  | closure bound => exact bound
  | typed bound => exact bound

/-- What a call to one of some candidates comes to. -/
inductive Resolves (w : World) (options : MatchOptions) (arguments : CallArguments)
    (p : TypePool) (name : String) (candidates : List Overload) :
    Except ErrorKind Resolution → Prop
  | unique {o : Overload} {slots : List (Slot Value)} :
      o ∈ candidates → w.Best options arguments p candidates o →
      bindArguments (w.parameters o.callable) arguments = .ok slots →
      candidates.countP (w.Best options arguments p candidates) = 1 →
      Resolves w options arguments p name candidates (.ok ⟨o, slots⟩)
  | ambiguous {n : Nat} :
      candidates.countP (w.Best options arguments p candidates) = n → 2 ≤ n →
      Resolves w options arguments p name candidates (.error (.ambiguousOverload name n))
  /-- The only candidate has no place for the arguments. -/
  | unbound {o : Overload} {reason : BindingFailure} :
      candidates = [o] →
      bindArguments (w.parameters o.callable) arguments = .error reason →
      Resolves w options arguments p name candidates (.error (.argumentBinding name reason))
  | unmatched :
      (∀ o ∈ candidates, ∀ rank slots, ¬ w.Qualifies options arguments p o rank slots) →
      (∀ o reason, candidates = [o] →
        bindArguments (w.parameters o.callable) arguments ≠ .error reason) →
      Resolves w options arguments p name candidates
        (.error (.noMatchingOverload name candidates.length))

theorem viables_eq_nil : w.viables options arguments p candidates = [] ↔
    ∀ o ∈ candidates, ∀ rank slots, ¬ w.Qualifies options arguments p o rank slots := by
  rw [List.eq_nil_iff_forall_not_mem]
  constructor
  · intro none o mem rank slots qualifies
    exact none ⟨rank, o, slots⟩ (mem_viables.mpr ⟨mem, qualifies⟩)
  · intro none v mem
    exact none _ (mem_viables.mp mem).1 _ _ (mem_viables.mp mem).2

/-- The candidate that is left alone at the top is the best one. -/
theorem best_of_highest {v : Viable}
    (top : v ∈ highest (w.viables options arguments p candidates)) :
    v.resolution.overload ∈ candidates ∧
      w.Best options arguments p candidates v.resolution.overload := by
  obtain ⟨mem, above⟩ := mem_highest.mp top
  obtain ⟨listed, qualifies⟩ := mem_viables.mp mem
  refine ⟨listed, v.rank, v.resolution.slots, qualifies, ?_⟩
  intro o' mem' rank' slots' qualifies'
  exact above ⟨rank', o', slots'⟩ (mem_viables.mpr ⟨mem', qualifies'⟩)

theorem highest_of_best (mem : o ∈ candidates) (best : w.Best options arguments p candidates o) :
    ∃ v ∈ highest (w.viables options arguments p candidates), v.resolution.overload = o := by
  obtain ⟨rank, slots, qualifies, above⟩ := best
  refine ⟨⟨rank, o, slots⟩, mem_highest.mpr ⟨mem_viables.mpr ⟨mem, qualifies⟩, ?_⟩, rfl⟩
  intro d found
  obtain ⟨listed, qualifies'⟩ := mem_viables.mp found
  exact above _ listed _ _ qualifies'

theorem filterMap_verdicts :
    (candidates.map (w.verdict options arguments p)).filterMap Verdict.viable? =
      w.viables options arguments p candidates := by
  rw [List.filterMap_map]
  rfl

/-- The choice among the verdicts on some candidates resolves the call. -/
theorem resolves_choose : w.Resolves options arguments p name candidates
    (choose name (candidates.map (w.verdict options arguments p))) := by
  have count : candidates.countP (w.Best options arguments p candidates) =
      (highest (w.viables options arguments p candidates)).length := count_best
  simp only [choose, filterMap_verdicts]
  split
  · rename_i winner top
    obtain ⟨mem, best⟩ := best_of_highest (top ▸ List.mem_singleton_self winner)
    have listed := (mem_highest.mp (top ▸ List.mem_singleton_self winner)).1
    exact .unique mem best (mem_viables.mp listed).2.bound (count.trans (by rw [top]; rfl))
  · rename_i top
    have none := viables_eq_nil.mp (highest_eq_nil.mp top)
    split
    · rename_i reason same
      obtain ⟨o, rfl, unbound⟩ := List.map_eq_singleton_iff.mp same
      exact .unbound rfl (verdict_eq_unbound.mp unbound)
    · rename_i other
      rw [List.length_map]
      refine .unmatched none ?_
      rintro o reason rfl unbound
      exact other reason (congrArg (fun v => [v]) (verdict_eq_unbound.mpr unbound))
  · rename_i single nil
    refine .ambiguous count ?_
    rcases tops : highest (w.viables options arguments p candidates) with _ | ⟨winner, _ | ⟨_, rest⟩⟩
    · exact absurd tops nil
    · exact absurd tops (single winner)
    · exact Nat.le_add_left 2 rest.length

/-- A call comes to one thing only. -/
theorem Resolves.choose_eq {outcome : Except ErrorKind Resolution}
    (h : w.Resolves options arguments p name candidates outcome) :
    choose name (candidates.map (w.verdict options arguments p)) = outcome := by
  simp only [choose, filterMap_verdicts]
  cases h with
  | unique mem best bound count =>
    obtain ⟨v, top, rfl⟩ := highest_of_best mem best
    rw [count_best] at count
    obtain ⟨u, tops⟩ := List.length_eq_one_iff.mp count
    rw [tops] at top ⊢
    obtain rfl := List.mem_singleton.mp top
    have listed := (mem_highest.mp (tops ▸ List.mem_singleton_self v)).1
    have same := (mem_viables.mp listed).2.bound.symm.trans bound
    obtain ⟨rank, o, slots⟩ := v
    cases same
    rfl
  | ambiguous count many =>
    rw [count_best] at count
    generalize highest (w.viables options arguments p candidates) = tops at count
    rcases tops with _ | ⟨_, _ | ⟨_, rest⟩⟩
    · exact absurd many (count ▸ Nat.not_succ_le_zero 1)
    · exact absurd many (count ▸ Nat.not_succ_le_self 1)
    · simp only [count]
  | unbound same failed =>
    subst same
    have none : w.viables options arguments p [_] = [] := viables_eq_nil.mpr fun o mem rank slots
        qualifies => by
      rw [List.mem_singleton.mp mem] at qualifies
      cases qualifies.bound.symm.trans failed
    rw [highest_eq_nil.mpr none, List.map_singleton, verdict_eq_unbound.mpr failed]
  | unmatched none other =>
    rw [highest_eq_nil.mpr (viables_eq_nil.mpr none)]
    dsimp only
    split
    · rename_i reason same
      obtain ⟨o, rfl, unbound⟩ := List.map_eq_singleton_iff.mp same
      exact absurd (verdict_eq_unbound.mp unbound) (other o reason rfl)
    · rw [List.length_map]

/-- The call chooses among the verdicts of an earlier pool, in any order of the candidates. -/
theorem resolveOverload_eq_choose (grounded : p.Grounded)
    (known : ∀ o ∈ candidates, ∀ x ∈ w.parameters o.callable, p.Knows x.signature)
    (some : candidates ≠ []) (order : candidates.Perm others) (later : p.Grows q) :
    (w.resolveOverload options name others arguments q).1 =
      choose name (candidates.map (w.verdict options arguments p)) := by
  have others_ne : others.isEmpty = false := by
    rw [List.isEmpty_eq_false_iff]
    rintro rfl
    exact some order.eq_nil
  have known' : ∀ o ∈ others, ∀ x ∈ w.parameters o.callable, p.Knows x.signature :=
    fun o mem => known o (order.mem_iff.mpr mem)
  simp only [resolveOverload, others_ne]
  rw [choose_perm (order.map _), ← examineAll_verdicts grounded later known']
  rfl

/-- Whatever the order of the candidates, and whatever was interned since, a call goes to the only
best candidate, or fails with the number of best ones, or as no candidate is eligible. -/
theorem resolveOverload_iff (grounded : p.Grounded)
    (known : ∀ o ∈ candidates, ∀ x ∈ w.parameters o.callable, p.Knows x.signature)
    (some : candidates ≠ []) (order : candidates.Perm others) (later : p.Grows q)
    (outcome : Except ErrorKind Resolution) :
    (w.resolveOverload options name others arguments q).1 = outcome ↔
      w.Resolves options arguments p name candidates outcome := by
  rw [resolveOverload_eq_choose grounded known some order later]
  constructor
  · rintro rfl
    exact resolves_choose
  · intro resolves
    exact resolves.choose_eq

/-- Two functions of one parameter `x`, of which the first takes an `Int`. -/
def takers : World :=
  let takes (signature : SigId) (enforced : Bool) : Function :=
    ⟨⟨"f", [⟨"x", signature, enforced, none, false, {}⟩], .any, .user []⟩, none⟩
  { World.empty with functions := ⟨#[takes ⟨2⟩ true, takes .any false]⟩ }

/-- An integer goes to the function that takes an `Int`, in whatever order the two are listed. -/
theorem takers_resolves :
    let p := (TypePool.initial.nominal Primitive.int.id).2
    let general : Overload := ⟨.function ⟨1⟩, .function, none⟩
    let special : Overload := ⟨.function ⟨0⟩, .function, none⟩
    let one : Value := .ofDatum (.number (.int 1))
    p.Grounded ∧
      (∀ o ∈ [general, special], ∀ x ∈ takers.parameters o.callable, p.Knows x.signature) ∧
      takers.Resolves {} ⟨[one], []⟩ p "f" [general, special] (.ok ⟨special, [.value one]⟩) := by
  intro p general special one
  have known : ∀ o ∈ [general, special], ∀ x ∈ takers.parameters o.callable,
      p.Knows x.signature := by
    simp only [TypePool.Knows]
    decide +kernel
  have int : TypePool.initial.Describes (.nominal Primitive.int.id) :=
    ⟨fun _ mem => absurd mem List.not_mem_nil, fun _ mem => List.mem_singleton.mp mem ▸ ⟨"Int", rfl⟩⟩
  have grounded : p.Grounded := (TypePool.regular_initial.intern int).regular.grounded
  refine ⟨grounded, known, ?_⟩
  exact (resolveOverload_iff grounded known (List.cons_ne_nil _ _) (List.Perm.swap _ _ _)
    (TypePool.grows_intern p (.nominal Primitive.string.id)) _).mp rfl

end World

end ScopeLang
