import Mtrace.Tracer.Changes

/-!
# The logic of the event loop

`Does x s Q`: from the sane state `s` the function `x` goes on by changes, and returns with `Q`.  A
function that is busy with some tasks leaves the others as they are as far as they are stopped
(`Frame`); it may find that one of them comes to its end.
-/

namespace Mtrace.Tracer

open State Hoare

/-- The functions whose assertions are looked at. -/
def Place.serious : Place → Bool
  | .queueEvent | .handleEvent | .continueTask => true
  | _ => false

def Minor : Halt → Prop
  | .assertion place _ => place.serious = false
  | _ => True

/-- The marks with which a task is continued that is running. -/
def Mark.runs : Mark → Bool
  | .newUnexpected | .closedRunning | .repliedRunning => true
  | _ => false

/-- What a failed assertion says.  A task in the hands of the server is stopped unless a branch was
taken that continues a task in the wrong place. -/
def Fault : Halt → State → Prop
  | .assertion .continueTask _, s =>
    (∃ m : Mark, m.runs = true ∧ m ∈ s.marks) ∨ ∃ t ∈ s.owned, (s.task t).stopped = false
  | .assertion .handleEvent _, s =>
    .newUnexpected ∈ s.marks ∨ ∃ t ∈ s.owned, (s.task t).stopped = false
  | _, _ => False

/-- The event loop by its changes. -/
def tracer : Logic Halt State := ⟨Change, Sane, Minor, Fault, fun h hs => hs.change h⟩

abbrev Changes : State → State → Prop := tracer.Changes

abbrev Does {α : Type} (x : Act α) (s : State) (Q : α → State → Prop) : Prop := tracer.Does x s Q

variable {α β : Type} {s s' s'' : State} {t n p : TaskId} {b : BpId} {R : β → State → Prop}

theorem sane_of_changes (h : Changes s s') (hs : Sane s) : Sane s' := inv_of_changes h hs

theorem marks_of_changes (h : Changes s s') {m : Mark} (hm : m ∈ s.marks) : m ∈ s'.marks :=
  keeps_of_change (I := (m ∈ ·.marks)) (fun _ _ h hm => marks_of_change h m hm) h hm

theorem next_of_changes (h : Changes s s') : s.next ≤ s'.next := by
  refine keeps_of_change (I := (s.next ≤ ·.next)) (fun _ _ h hle => ?_) h le_rfl
  exact hle.trans (next_of_change h)

theorem markIf_changes (s : State) (c : Prop) [Decidable c] (m : Mark)
    (h : c → m.Says s := by exact fun _ => trivial) :
    Changes s (s.markIf c m) := by
  unfold State.markIf
  split_ifs with hc
  · exact .single (.marked m (h hc))
  · exact .refl

section Rules

theorem does_getTask {f : Task → Act β} (h : t ∈ s.live → Does (f (s.task t)) s R) :
    Does (getTask t >>= f) s R := by
  have heq : getTask t s = if t ∈ s.live then .ok (s.task t) s else .error .crash s := by
    show (if t ∈ s.live then pure (s.task t) else throw .crash : Act Task) s = _
    split_ifs <;> rfl
  by_cases ht : t ∈ s.live
  · rw [if_pos ht] at heq
    exact Logic.Does.bind_ok heq .refl (h ht)
  · rw [if_neg ht] at heq
    exact Logic.Does.bind_error heq (.inl trivial)

theorem does_getBp {f : Breakpoint → Act β} (h : (s.bp b).refcnt ≠ 0 → Does (f (s.bp b)) s R) :
    Does (getBp b >>= f) s R := by
  have heq : getBp b s = if (s.bp b).refcnt ≠ 0 then .ok (s.bp b) s else .error .crash s := by
    show (if (s.bp b).refcnt ≠ 0 then pure (s.bp b) else throw .crash : Act Breakpoint) s = _
    split_ifs <;> rfl
  by_cases hb : (s.bp b).refcnt ≠ 0
  · rw [if_pos hb] at heq
    exact Logic.Does.bind_ok heq .refl (h hb)
  · rw [if_neg hb] at heq
    exact Logic.Does.bind_error heq (.inl trivial)

theorem does_touchLeaders {leaders : List TaskId} {f : Unit → Act β} (h : Does (f ()) s R) :
    Does (touchLeaders leaders >>= f) s R := by
  have heq : touchLeaders leaders s =
      if leaders.any s.freed then .error .crash s else .ok () s := by
    show (if leaders.any s.freed then throw .crash else pure () : Act Unit) s = _
    split_ifs <;> rfl
  by_cases hfreed : leaders.any s.freed
  · rw [if_pos hfreed] at heq
    exact Logic.Does.bind_error heq (.inl trivial)
  · rw [if_neg hfreed] at heq
    exact Logic.Does.bind_ok heq .refl h

theorem does_check {holds : Bool} {place : Place} {expr : String} {f : Unit → Act β}
    (hfails : holds = false → Minor (.assertion place expr) ∨ Fault (.assertion place expr) s)
    (h : holds = true → Does (f ()) s R) : Does (check holds place expr >>= f) s R := by
  cases holds with
  | true => exact Logic.Does.bind_ok (a := ()) rfl .refl (h rfl)
  | false => exact Logic.Does.bind_error (e := .assertion place expr) rfl (hfails rfl)

theorem does_check_end {holds : Bool} {place : Place} {expr : String} {R : Unit → State → Prop}
    (hfails : holds = false → Minor (.assertion place expr) ∨ Fault (.assertion place expr) s)
    (h : holds = true → R () s) : Does (check holds place expr) s R := by
  have heq : check holds place expr s = (check holds place expr >>= pure) s := by
    cases holds <;> rfl
  exact Logic.Does.goes heq .refl (does_check hfails fun hholds => Logic.Does.pure (h hholds))

/-- An assertion that is not looked at. -/
theorem does_assert {holds : Bool} {place : Place} {expr : String} {f : Unit → Act β}
    (hplace : place.serious = false) (h : holds = true → Does (f ()) s R) :
    Does (check holds place expr >>= f) s R :=
  does_check (fun _ => .inl hplace) h

theorem nextInput_nil (hs : s.inputs = []) : nextInput s = .error .blocked s := by
  cases s
  cases hs
  rfl

theorem nextInput_cons {i : Input} {inputs : List Input} (hs : s.inputs = i :: inputs) :
    nextInput s = .ok i { s with inputs } := by
  cases s
  cases hs
  rfl

theorem does_nextInput {f : Input → Act β} (h : ∀ i inputs, Does (f i) { s with inputs } R) :
    Does (nextInput >>= f) s R := by
  cases hs : s.inputs with
  | nil => exact Logic.Does.bind_error (nextInput_nil hs) (.inl trivial)
  | cons i inputs =>
    have heq : nextInput s = .ok i { s with inputs } := nextInput_cons hs
    refine Logic.Does.bind_ok heq (.single (.alike ?_)) (h i inputs)
    exact ⟨fun _ => rfl, fun _ _ => rfl, fun _ => rfl, fun _ _ => rfl, rfl, rfl, rfl, rfl, rfl, rfl,
      rfl, rfl⟩

end Rules

/-! ## What stays -/

/-- The fields of a task that only the handling of its own hits changes. -/
structure Kept (t : TaskId) (s s' : State) : Prop where
  bpSkipped : (s'.task t).bpSkipped = (s.task t).bpSkipped
  skipBp : (s'.task t).skipBp = (s.task t).skipBp

/-- A task nothing was done to. -/
structure Same (t : TaskId) (s s' : State) : Prop extends Kept t s s' where
  stopped : (s.task t).stopped = true → (s'.task t).stopped = true
  event : (s.task t).stopped = true →
    (s'.task t).event = (s.task t).event ∨ (s'.task t).event.ends = true
  owned : (s.task t).stopped = true → t ∈ s.owned → t ∈ s'.owned

/-- Only the tasks of `T` were worked on, and those that are gone. -/
structure Frame (T : Set TaskId) (s s' : State) : Prop where
  next : s.next ≤ s'.next
  marks : ∀ m ∈ s.marks, m ∈ s'.marks
  handling : s'.handling = s.handling
  live : ∀ t < s.next, t ∈ s'.live → t ∈ s.live
  leader : ∀ t < s.next, (s'.task t).leader = (s.task t).leader
  young : ∀ t < s.next, (s.task t).isNew = false → (s'.task t).isNew = false
  same : ∀ t < s.next, t ∉ T → t ∈ s'.live → Same t s s'

/-- No task is gone, and the dictionaries are as they were. -/
structure Still (s s' : State) : Prop where
  live : ∀ t ∈ s.live, t ∈ s'.live
  dict : ∀ l < s.next, (s'.task l).breakpoints = (s.task l).breakpoints
  deleted : ∀ b, (s'.bp b).deleted = (s.bp b).deleted
  owner : ∀ b, (s'.bp b).owner = (s.bp b).owner
  nextBp : s'.nextBp = s.nextBp

theorem Kept.refl (t : TaskId) (s : State) : Kept t s s := ⟨rfl, rfl⟩

theorem Kept.trans (h : Kept t s s') (h' : Kept t s' s'') : Kept t s s'' :=
  ⟨h'.bpSkipped.trans h.bpSkipped, h'.skipBp.trans h.skipBp⟩

theorem Same.refl (t : TaskId) (s : State) : Same t s s :=
  ⟨.refl t s, fun h => h, fun _ => .inl rfl, fun _ h => h⟩

theorem Same.trans (h : Same t s s') (h' : Same t s' s'') : Same t s s'' := by
  refine ⟨h.toKept.trans h'.toKept, fun hs => h'.stopped (h.stopped hs), fun hs => ?_,
    fun hs ho => h'.owned (h.stopped hs) (h.owned hs ho)⟩
  obtain heq | hends := h'.event (h.stopped hs)
  · rw [heq]
    exact h.event hs
  · exact .inr hends

section Frame

variable {T U : Set TaskId}

theorem Frame.refl (T : Set TaskId) (s : State) : Frame T s s :=
  ⟨le_rfl, fun _ hm => hm, rfl, fun _ _ ht => ht, fun _ _ => rfl, fun _ _ h => h,
    fun t _ _ _ => .refl t s⟩

theorem Frame.mono (h : Frame T s s') (hT : T ⊆ U) : Frame U s s' :=
  { h with same := fun t ht hmem => h.same t ht fun hT' => hmem (hT hT') }

/-- What works on no task of its own. -/
theorem Frame.weaken (h : Frame ∅ s s') : Frame T s s' := h.mono (Set.empty_subset T)

theorem Frame.trans (h : Frame T s s') (h' : Frame T s' s'') : Frame T s s'' where
  next := h.next.trans h'.next
  marks m hm := h'.marks m (h.marks m hm)
  handling := h'.handling.trans h.handling
  live t ht hmem := h.live t ht (h'.live t (ht.trans_le h.next) hmem)
  leader t ht := (h'.leader t (ht.trans_le h.next)).trans (h.leader t ht)
  young t ht hy := h'.young t (ht.trans_le h.next) (h.young t ht hy)
  same t ht hT hmem :=
    (h.same t ht hT (h'.live t (ht.trans_le h.next) hmem)).trans
      (h'.same t (ht.trans_le h.next) hT hmem)

/-- A task that is gone, or that nothing was done to after all. -/
theorem Frame.shrink (h : Frame {t} s s') (ht : t < s.next → t ∈ s'.live → Same t s s') :
    Frame ∅ s s' where
  __ := h
  same p hp _ hmem := by
    by_cases heq : p = t
    · subst heq
      exact ht hp hmem
    · exact h.same p hp heq hmem

theorem Frame.setTask (s : State) (t : TaskId) {f : Task → Task}
    (hleader : ∀ k, (f k).leader = k.leader) (hnew : ∀ k, k.isNew = false → (f k).isNew = false) :
    Frame {t} s (s.setTask t f) where
  __ := Frame.refl {t} s
  leader p _ := by
    rw [setTask_task]
    split_ifs with h
    · rw [h, hleader]
    · rfl
  young p _ hy := by
    rw [setTask_task]
    split_ifs with h
    · exact hnew _ (h ▸ hy)
    · exact hy
  same p _ hp _ := by
    have heq : (s.setTask t f).task p = s.task p := setTask_task_of_ne _ _ _ _ hp
    refine ⟨⟨?_, ?_⟩, fun h => ?_, fun _ => .inl ?_, fun _ ho => ho⟩
    all_goals rw [heq]
    exact h

/-- An update that only touches counters, dictionaries and the like. -/
theorem Frame.setTask_same (s : State) (t : TaskId) {f : Task → Task}
    (hleader : ∀ k, (f k).leader = k.leader) (hnew : ∀ k, (f k).isNew = k.isNew)
    (hskipped : ∀ k, (f k).bpSkipped = k.bpSkipped) (hskip : ∀ k, (f k).skipBp = k.skipBp)
    (hstopped : ∀ k, (f k).stopped = k.stopped) (hevent : ∀ k, (f k).event = k.event) :
    Frame ∅ s (s.setTask t f) := by
  refine (Frame.setTask s t hleader fun k hk => (hnew k).trans hk).shrink fun _ _ => ?_
  refine ⟨⟨?_, ?_⟩, fun h => ?_, fun _ => .inl ?_, fun _ ho => ho⟩
  all_goals rw [setTask_task_self]
  · exact hskipped _
  · exact hskip _
  · exact (hstopped _).trans h
  · exact hevent _

/-- Changes outside of the tasks. -/
theorem Frame.rest (htask : s'.task = s.task) (hnext : s'.next = s.next)
    (hlive : ∀ t ∈ s'.live, t ∈ s.live) (howned : ∀ t ∈ s.owned, t ∈ s'.owned ∨ t ∈ T)
    (hhandling : s'.handling = s.handling) (hmarks : ∀ m ∈ s.marks, m ∈ s'.marks) :
    Frame T s s' where
  next := hnext.ge
  marks := hmarks
  handling := hhandling
  live t _ := hlive t
  leader t _ := by rw [htask]
  young t _ h := by rw [htask]; exact h
  same t _ hT _ := by
    refine ⟨⟨by rw [htask], by rw [htask]⟩, fun h => by rw [htask]; exact h,
      fun _ => .inl (by rw [htask]), fun _ ho => ?_⟩
    exact (howned t ho).resolve_right hT

theorem Frame.setBp (s : State) (b : BpId) (g : Breakpoint → Breakpoint) :
    Frame ∅ s (s.setBp b g) :=
  .rest rfl rfl (fun _ h => h) (fun _ h => .inl h) rfl fun _ h => h

theorem Frame.mark (s : State) (m : Mark) : Frame ∅ s (s.mark m) :=
  .rest rfl rfl (fun _ h => h) (fun _ h => .inl h) rfl fun _ h => List.mem_cons_of_mem m h

theorem Frame.take (s : State) (t : TaskId) : Frame ∅ s (s.take t) :=
  .rest rfl rfl (fun _ h => h) (fun _ h => .inl (List.mem_cons_of_mem t h)) rfl fun _ h => h

theorem Frame.drop (s : State) (t : TaskId) : Frame {t} s (s.drop t) := by
  refine .rest rfl rfl (fun _ h => h) (fun p h => ?_) rfl fun _ h => h
  by_cases heq : p = t
  · exact .inr heq
  · exact .inl ((mem_drop_owned s t p).mpr ⟨h, heq⟩)

theorem Frame.inputs (s : State) (inputs : List Input) : Frame ∅ s { s with inputs } :=
  .rest rfl rfl (fun _ h => h) (fun _ h => .inl h) rfl fun _ h => h

theorem Frame.queue (s : State) (queue : Links TaskId) : Frame ∅ s { s with queue } :=
  .rest rfl rfl (fun _ h => h) (fun _ h => .inl h) rfl fun _ h => h

theorem Frame.isNew (h : Frame T s s') (hs : Sane s) (ht : t ∈ s.live)
    (hold : (s.task t).isNew = false ∨ .newUnexpected ∈ s.marks) :
    (s'.task t).isNew = false ∨ .newUnexpected ∈ s'.marks :=
  hold.imp (h.young t (hs.live t ht)) (h.marks _)

end Frame

theorem Still.refl (s : State) : Still s s :=
  ⟨fun _ h => h, fun _ _ => rfl, fun _ => rfl, fun _ => rfl, rfl⟩

theorem Still.trans (h : Still s s') (h' : Still s' s'') (hnext : s.next ≤ s'.next) :
    Still s s'' :=
  ⟨fun t ht => h'.live t (h.live t ht),
    fun l hl => (h'.dict l (hl.trans_le hnext)).trans (h.dict l hl),
    fun b => (h'.deleted b).trans (h.deleted b), fun b => (h'.owner b).trans (h.owner b),
    h'.nextBp.trans h.nextBp⟩

end Mtrace.Tracer
