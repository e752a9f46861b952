/-
# What a call resolves to

The overload that is chosen is one of the candidates, and its slots hold values
of the arguments and nothing else.  Both are read off the way a choice is made:
binding only moves arguments into slots, a viable verdict names its candidate,
and the choice is among the viable verdicts.
-/
import ScopeLang.Proofs.Sound

namespace ScopeLang

/-! ## Slots hold arguments -/

/-- A property of every value that the arguments hold. -/
def CallArguments.All (P : Value → Prop) (a : CallArguments) : Prop :=
  (∀ v ∈ a.positional, P v) ∧ ∀ e ∈ a.named, P e.2

/-- A property of every value that the slots hold. -/
def SlotsAll (P : Value → Prop) (slots : List (Slot Value)) : Prop :=
  ∀ slot ∈ slots, ∀ v ∈ slot.values, P v

/-- A property of every value in the slots that are filled already. -/
def Filling.All (P : Value → Prop) (slots : Filling) : Prop :=
  ∀ slot, some slot ∈ slots → ∀ v ∈ slot.values, P v

variable {P : Value → Prop} {parameters : List ParameterSpec} {arguments : CallArguments}

theorem Filling.All.set {slots : Filling} (h : Filling.All P slots) {i : Nat} {slot : Slot Value}
    (new : ∀ v ∈ slot.values, P v) : Filling.All P (List.set slots i (some slot)) := by
  intro other mem v hv
  rcases List.mem_or_eq_of_mem_set mem with mem | e
  · exact h other mem v hv
  · exact new v (Option.some.inj e ▸ hv)

theorem fillPositional_all {slots : Filling} (h : arguments.All P)
    (e : fillPositional parameters arguments = .ok slots) : Filling.All P slots := by
  simp only [fillPositional] at e
  split at e
  · exact absurd e nofun
  · rw [← Except.ok.inj e]
    intro slot mem v hv
    rcases List.mem_append.mp mem with mem | mem
    · obtain ⟨x, hx, ex⟩ := List.mem_map.mp mem
      rw [← Option.some.inj ex, Slot.values, List.mem_singleton] at hv
      exact hv ▸ h.1 x (List.mem_of_mem_take hx)
    · exact absurd (List.eq_of_mem_replicate mem) nofun

theorem fillNamed_all {slots slots' : Filling} {argument : String × Value}
    (h : Filling.All P slots) (new : P argument.2)
    (e : fillNamed parameters slots argument = .ok slots') : Filling.All P slots' := by
  simp only [fillNamed] at e
  split at e
  · exact absurd e nofun
  · split at e
    · exact absurd e nofun
    · split at e
      · exact absurd e nofun
      · rw [← Except.ok.inj e]
        refine h.set fun v hv => ?_
        rw [Slot.values, List.mem_singleton] at hv
        exact hv ▸ new

theorem foldlM_fillNamed_all :
    ∀ {named : List (String × Value)} {slots slots' : Filling}, (∀ e ∈ named, P e.2) →
      Filling.All P slots → named.foldlM (fillNamed parameters) slots = .ok slots' →
        Filling.All P slots'
  | [], _, _, _, h, e => by
    rw [List.foldlM_nil] at e
    exact Except.ok.inj e ▸ h
  | a :: rest, slots, _, new, h, e => by
    rw [List.foldlM_cons] at e
    cases first : fillNamed parameters slots a with
    | error reason =>
      rw [first] at e
      exact absurd e nofun
    | ok slots₁ =>
      rw [first] at e
      exact foldlM_fillNamed_all (fun x hx => new x (List.mem_cons_of_mem a hx))
        (fillNamed_all h (new a List.mem_cons_self) first) e

theorem fillSpread_all {slots : Filling} (h : Filling.All P slots) (ok : arguments.All P) :
    Filling.All P (fillSpread parameters arguments slots) := by
  simp only [fillSpread]
  split
  · exact h.set fun v hv => ok.1 v (List.mem_of_mem_drop hv)
  · exact h

theorem finishSlot_all {parameter : ParameterSpec} {slot : Option (Slot Value)}
    {done : Slot Value} (h : ∀ s, slot = some s → ∀ v ∈ s.values, P v)
    (e : finishSlot parameter slot = .ok done) : ∀ v ∈ done.values, P v := by
  cases slot with
  | some s => exact Except.ok.inj e ▸ h s rfl
  | none =>
    simp only [finishSlot] at e
    split at e
    · rw [← Except.ok.inj e]
      exact fun v hv => absurd hv List.not_mem_nil
    · exact absurd e nofun

theorem finishSlots_all :
    ∀ {parameters : List ParameterSpec} {filled : Filling} {slots : List (Slot Value)},
      Filling.All P filled → finishSlots parameters filled = .ok slots → SlotsAll P slots
  | [], _, _, _, e => by
    rw [finishSlots] at e
    · rw [← Except.ok.inj e]
      exact fun s hs => absurd hs List.not_mem_nil
    · exact fun _ _ _ _ c => absurd c nofun
  | _ :: _, [], _, _, e => by
    rw [finishSlots] at e
    · rw [← Except.ok.inj e]
      exact fun s hs => absurd hs List.not_mem_nil
    · exact fun _ _ _ _ _ c => absurd c nofun
  | parameter :: parameters, slot :: filled, _, h, e => by
    rw [finishSlots] at e
    cases first : finishSlot parameter slot with
    | error reason =>
      rw [first] at e
      exact absurd e nofun
    | ok done =>
      cases others : finishSlots parameters filled with
      | error reason =>
        rw [first, others] at e
        exact absurd e nofun
      | ok dones =>
        rw [first, others] at e
        rw [← Except.ok.inj e]
        intro s hs
        rcases List.mem_cons.mp hs with rfl | hs
        · exact finishSlot_all (fun s e => h s (e ▸ List.mem_cons_self)) first
        · exact finishSlots_all (fun s hs => h s (List.mem_cons_of_mem slot hs)) others s hs

/-- Every value in a slot is an argument. -/
theorem bindArguments_all {slots : List (Slot Value)} (h : arguments.All P)
    (e : bindArguments parameters arguments = .ok slots) : SlotsAll P slots := by
  simp only [bindArguments] at e
  cases first : fillPositional parameters arguments with
  | error reason =>
    rw [first] at e
    exact absurd e nofun
  | ok filled =>
    rw [first] at e
    cases second : arguments.named.foldlM (fillNamed parameters) filled with
    | error reason =>
      simp only [Bind.bind, Except.bind] at e second
      rw [second] at e
      exact absurd e nofun
    | ok filled' =>
      simp only [Bind.bind, Except.bind] at e second
      rw [second] at e
      exact finishSlots_all
        (fillSpread_all (foldlM_fillNamed_all h.2 (fillPositional_all h first) second) h) e

/-! ## The choice -/

namespace World

variable {w : World} {options : MatchOptions}

theorem examine_viable {o : Overload} {pool : TypePool} {v : Viable} (h : arguments.All P)
    (e : (w.examine options arguments o pool).1 = .viable v) :
    v.resolution.overload = o ∧ SlotsAll P v.resolution.slots := by
  simp only [examine] at e
  split at e
  · cases e
  · rename_i slots bound
    have all := bindArguments_all h bound
    split at e
    · cases e
      exact ⟨rfl, all⟩
    · split at e
      · cases e
        exact ⟨rfl, all⟩
      · cases e

theorem examineAll_viable {v : Viable} (h : arguments.All P) :
    ∀ {os : List Overload} {pool : TypePool},
      .viable v ∈ (w.examineAll options arguments os pool).1 →
        v.resolution.overload ∈ os ∧ SlotsAll P v.resolution.slots
  | [], _, mem => absurd mem List.not_mem_nil
  | o :: rest, pool, mem => by
    simp only [examineAll, List.mem_cons] at mem
    rcases mem with e | mem
    · obtain ⟨same, all⟩ := examine_viable h e.symm
      exact ⟨same ▸ List.mem_cons_self, all⟩
    · obtain ⟨found, all⟩ := examineAll_viable h mem
      exact ⟨List.mem_cons_of_mem o found, all⟩

end World

theorem choose_viable {name : String} {verdicts : List Verdict} {r : Resolution}
    (e : choose name verdicts = .ok r) : ∃ v, .viable v ∈ verdicts ∧ v.resolution = r := by
  simp only [choose] at e
  split at e
  · rename_i winner top
    have mem : winner ∈ highest (verdicts.filterMap Verdict.viable?) := by
      rw [top]
      exact List.mem_cons_self
    obtain ⟨verdict, hv, found⟩ := List.mem_filterMap.mp (List.mem_filter.mp mem).1
    cases verdict with
    | viable v =>
      refine ⟨v, hv, ?_⟩
      rw [Verdict.viable?] at found
      rw [Option.some.inj found]
      exact Except.ok.inj e
    | unbound => exact absurd found nofun
    | rejected => exact absurd found nofun
  · split at e
    · exact absurd e nofun
    · exact absurd e nofun
  · exact absurd e nofun

/-- The chosen overload is a candidate, and its slots hold arguments. -/
theorem World.resolveOverload_ok {w : World} {options : MatchOptions} {name : String}
    {candidates : List Overload} {pool : TypePool} {r : Resolution} (h : arguments.All P)
    (e : (w.resolveOverload options name candidates arguments pool).1 = .ok r) :
    r.overload ∈ candidates ∧ SlotsAll P r.slots := by
  simp only [World.resolveOverload] at e
  split at e
  · cases e
  · obtain ⟨v, mem, rfl⟩ := choose_viable e
    exact World.examineAll_viable h mem

end ScopeLang
