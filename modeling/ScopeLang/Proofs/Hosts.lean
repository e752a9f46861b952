/-
# The kit keeps to a dialect

What the bodies of the kit change is new, or is a container, or is the stack that
an instance keeps for the host.  Only two of them write to variables, in the
scope that they are given.

Another host (`Host.handing`) only reads, but hands out the class of a method that is in
sight, also while the body of this class is being run.
-/
import ScopeLang.Proofs.Expressions
import ScopeLang.Host.Kit

namespace ScopeLang

variable {D : Dialect} {w : World} {s : ScopeId}

/-! ## The stack of an instance -/

/-- The stack that an instance keeps for the host is no part of its scope. -/
theorem Copying.setNative {w₁ : World} (c : Copying D w w₁) (sound : Sound D w) (i : InstanceId)
    (h : Handle .list) :
    Copying D w (w₁.setInstance i { w₁.inst i with native := some h }) := by
  have same : ∀ j : InstanceId,
      ((w₁.setInstance i { w₁.inst i with native := some h }).inst j).classId =
          (w₁.inst j).classId ∧
        ((w₁.setInstance i { w₁.inst i with native := some h }).inst j).scope =
          (w₁.inst j).scope := by
    intro j
    rw [World.inst_setInstance]
    split
    · rename_i e
      rw [e.1]
      exact ⟨rfl, rfl⟩
    · exact ⟨rfl, rfl⟩
  refine ⟨?_, c.quiet.trans ?_ sound c.sound⟩
  · rw [Sound, World.count_setInstance]
    exact
      { c.sound with
        classId := fun {j} hj => by
          rw [(same j).1]
          exact c.sound.classId (by rwa [World.count_setInstance] at hj)
        home := fun {j} hj => by
          rw [(same j).2]
          exact c.sound.home (by rwa [World.count_setInstance] at hj) }
  · exact
      { Quiet.refl w₁ with
        count := fun k => Nat.le_of_eq (congrFun (World.count_setInstance _ _ _).symm k)
        copy := fun new old => absurd (by rwa [World.count_setInstance] at new) old
        classId := fun {j} _ => (same j).1
        home := fun {j} _ => (same j).2
        instance_ := fun new old => absurd (by rwa [World.count_setInstance] at new) old }

/-! ## The kit -/

namespace Kit

variable {c : NativeCall} {body : String}

theorem ok_argument (ok : OkValues D c.arguments w) (i : Nat) : (c.argument i).Ok D w.count := by
  rw [NativeCall.argument, List.getD_eq_getElem?_getD]
  cases e : c.arguments[i]? with
  | none => exact Value.ok_null
  | some v => exact ok v (List.mem_of_getElem? e)

/-- Values added up from left to right. -/
theorem acts_foldlM_add : ∀ {vs : List Value} {v : Value} {w : World}, v.Ok D w.count →
    Acts D s (vs.foldlM (Action.binary .add) v) (OkValue D) w
  | [], _, _, ok => .pure ok
  | x :: rest, v, w, _ => by
    rw [List.foldlM_cons]
    exact .bind acts_binary fun y w' _ _ ok => acts_foldlM_add ok

theorem acts_sum (ok : OkValues D c.arguments w) : Acts D s (sum c) (OkValue D) w := by
  simp only [sum]
  split
  · exact .pure Value.ok_null
  · rename_i first rest e
    exact acts_foldlM_add (ok first (by rw [e]; exact List.mem_cons_self))

theorem acts_newStack (natives : D.natives body) : Acts D s (newStack c) (OkValue D) w := by
  simp only [newStack]
  split
  · exact .pure Value.ok_null
  · rename_i i _
    refine .change (fun sound _ => .one (.native natives ?_)) fun _ _ => Value.ok_null
    have none : ∀ v ∈ ([] : List Value), v.Ok D w.count := nofun
    exact ((Copying.refl sound).newItems sound none).setNative sound i _

/-- What follows when the stack of the receiver has been found. -/
theorem acts_stack {k : Handle .list → Action Value} (h : ∀ l, Acts D s (k l) (OkValue D) w) :
    Acts D s (c.stack >>= k) (OkValue D) w := by
  refine .bind (Q := fun _ w' => w' = w) ?_ fun l w' _ _ e => e ▸ h l
  intro sound hs
  rw [NativeCall.stack, runIn_get_bind]
  cases c.receiver.bind fun i => (w.inst i).native with
  | some l => exact ⟨.refl, fun _ _ => rfl⟩
  | none => exact ⟨.refl, fun _ e => absurd e nofun⟩

theorem acts_push (natives : D.natives body) (ok : OkValues D c.arguments w) :
    Acts D s (push c) (OkValue D) w := by
  refine acts_stack fun l => .change (fun sound _ => .one (.native natives ?_))
    fun _ _ => Value.ok_null
  refine (Copying.refl sound).setItems sound fun v hv => ?_
  rcases List.mem_append.mp hv with hv | hv
  · exact sound.item hv
  · exact List.mem_singleton.mp hv ▸ ok_argument ok 0

theorem acts_pop : Acts D s (pop c) (OkValue D) w := by
  refine acts_stack fun l => .change
    (fun _ _ => .one (.contents (.dropItems l (List.dropLast_sublist _)))) fun sound _ => ?_
  rw [OkValue, World.count_setItems]
  cases last : (w.items l).getLast? with
  | none => exact Value.ok_null
  | some v => exact sound.item (List.mem_of_getLast? last)

theorem acts_size : Acts D s (size c) (OkValue D) w :=
  acts_stack fun _ => .look fun _ => Value.ok_scalar rfl rfl

/-- A body that assigns to a variable in sight. -/
theorem acts_update {name : String} {v : Value} (writes : D.hostWrites) (ok : v.Ok D w.count)
    (t : ScopeId) : Acts D s (Action.updateVariable t name v) (fun _ _ => True) w := by
  refine .bind (Q := fun _ w' => w' = w) (.look fun _ => rfl) ?_
  rintro found w sound _ rfl
  cases found with
  | none => exact .throw
  | some u =>
    refine acts_assignment fun b found _ _ => .hostWrite u name writes ?_ ok
    exact (sound.scope u).flags b (World.mem_values_of_localBinding? found)

/-- The kit keeps to every dialect that lets its two bodies write to variables, or has neither of
them. -/
theorem host_obeys
    (apart : ∀ body, D.natives body → D.hostWrites ∨ body ≠ "update" ∧ body ≠ "declare") :
    host.Obeys D := by
  intro body natives c w ok _ receiver s
  have writes := apart body natives
  simp only [host, run]
  split
  · exact acts_newList ok
  · exact acts_sum ok
  · exact .pure (ok_argument ok 0)
  · exact .pure (ok_argument ok 2)
  · exact .throw
  · exact .look fun _ => (plain_string _).ok
  · exact .look fun _ => (plain_string _).ok
  · refine .pure ?_
    cases e : c.receiver with
    | none => exact Value.ok_null
    | some i => exact Value.ok_cell rfl (receiver i e)
  · exact .consult fun sound v e => Knot.ok_getVariable sound e
  · have writes := writes.resolve_right fun h => h.1 rfl
    exact .bind (acts_update writes (ok_argument ok 1) c.scope) fun _ _ _ _ _ =>
      .pure Value.ok_null
  · have writes := writes.resolve_right fun h => h.2 rfl
    refine .bind (acts_declaration fun _ => .hostWrite c.scope c.text writes nofun
      (ok_argument ok 1)) fun _ _ _ _ _ => .pure Value.ok_null
  · exact acts_newStack natives
  · exact acts_push natives ok
  · exact acts_pop
  · exact acts_size
  · exact .pure Value.ok_null

end Kit

/-! ## A host that hands out classes -/

/-- The class of the method that a scope sees under a name. -/
def World.classBehind (w : World) (s : ScopeId) (name : String) : Value :=
  match w.lookupFunction s name with
  | some (⟨.method h, _, _⟩ :: _) => .ofDatum (.callable (.classObject (w.method h).classId))
  | _ => .null

/-- A host that hands out such classes. -/
def Host.handing : Host := ⟨fun _ c => Action.look fun w => w.classBehind c.scope c.text⟩

/-- A session in which `classOf(name)` does so. -/
def Session.handing : Session :=
  let s := start {} Host.handing
  let parameters : List Parameter := [⟨"name", none, none, false, {}⟩]
  { s with world := s.world.addNative s.root "classOf" parameters none "classOf" }

/-- Such a host changes nothing itself. -/
theorem Host.handing_obeys (D : Dialect) : handing.Obeys D := by
  intro body _ c w _ _ _ s
  refine .look fun sound => ?_
  simp only [World.classBehind]
  split
  · rename_i h _ _ _ found
    obtain ⟨t, listed | listed⟩ := World.lists_of_lookupFunction found List.mem_cons_self
    · exact Value.ok_cell rfl (sound.methodClass (sound.listed listed))
    · exact Value.ok_cell rfl (sound.methodClass (sound.globallyListed listed))
  · exact Value.ok_null

end ScopeLang
