import Mtrace.Tracer.Frame

/-!
# What waiting does

A wait leaves the stopped tasks alone, but for their ends; the task it returns is stopped, has an
event and is in the hands of the server.  So `stop_threads` changes nothing for a task that is being
handled.
-/

namespace Mtrace.Tracer

open State Hoare

variable {s s' s'' : State} {t n : TaskId} {b : BpId}

/-- Nothing was done to the tasks that were stopped. -/
structure Waits (s s' : State) : Prop where
  frame : Frame ∅ s s'
  still : Still s s'
  held : s'.held = s.held

/-- Nothing was done to the other tasks that were stopped. -/
structure Works (t : TaskId) (s s' : State) : Prop where
  frame : Frame {t} s s'
  kept : Kept t s s'
  still : Still s s'
  held : s'.held = s.held

theorem Waits.refl (s : State) : Waits s s := ⟨.refl _ s, .refl s, rfl⟩

theorem Waits.trans (h : Waits s s') (h' : Waits s' s'') : Waits s s'' :=
  ⟨h.frame.trans h'.frame, h.still.trans h'.still h.frame.next, h'.held.trans h.held⟩

theorem Works.refl (t : TaskId) (s : State) : Works t s s := ⟨.refl _ s, .refl t s, .refl s, rfl⟩

theorem Works.trans (h : Works t s s') (h' : Works t s' s'') : Works t s s'' :=
  ⟨h.frame.trans h'.frame, h.kept.trans h'.kept, h.still.trans h'.still h.frame.next,
    h'.held.trans h.held⟩

theorem Waits.same (h : Waits s s') (hs : Sane s) (ht : t ∈ s.live) : Same t s s' :=
  h.frame.same t (hs.live t ht) (Set.notMem_empty t) (h.still.live t ht)

theorem Waits.works (h : Waits s s') (hs : Sane s) (ht : t ∈ s.live) : Works t s s' :=
  ⟨h.frame.weaken, (h.same hs ht).toKept, h.still, h.held⟩

/-- Work on a task that was running, or that is new. -/
theorem Works.waits (h : Works t s s') (ht : t < s.next → (s.task t).stopped = false) :
    Waits s s' := by
  refine ⟨h.frame.shrink fun hlt _ => ?_, h.still, h.held⟩
  have hrun := ht hlt
  refine ⟨h.kept, fun hs => ?_, fun hs => ?_, fun hs => ?_⟩
  all_goals
    rw [hrun] at hs
    cases hs

/-- The task whose hit is handled is stopped, unless it was continued before the end. -/
def Steady (s : State) : Prop :=
  ∀ t b, s.handling = some (t, b) → t ∈ s.live → (s.task t).stopped = true ∨ .skippedEntry ∈ s.marks

theorem Steady.frame (hst : Steady s) (hs : Sane s) (h : Frame ∅ s s') : Steady s' := by
  intro t b hh ht
  rw [h.handling] at hh
  have hlt := (hs.handling t b hh).2.2
  exact (hst t b hh (h.live t hlt ht)).imp (h.same t hlt (Set.notMem_empty t) ht).stopped
    (h.marks _)

theorem Steady.waits (hst : Steady s) (hs : Sane s) (h : Waits s s') : Steady s' :=
  hst.frame hs h.frame

theorem steady_of_none (h : s.handling = none) : Steady s := by
  intro t b hh
  rw [h] at hh
  cases hh

/-! ## New tasks -/

theorem pid2task_mem {pid : UInt32} (h : s.pid2task pid = some t) : t ∈ s.live :=
  List.mem_of_find?_eq_some h

theorem created_task (s : State) (pid : UInt32) (leader p : TaskId) :
    ∃ threads, (s.created pid leader).task p = { (s.inserted pid leader).task p with threads } := by
  unfold State.created
  by_cases hp : p = leader
  · rw [hp, setTask_task_self]
    exact ⟨_, rfl⟩
  · rw [setTask_task_of_ne _ _ _ _ hp]
    exact ⟨_, rfl⟩

theorem created_task_of_lt (pid : UInt32) (leader : TaskId) {p : TaskId} (hp : p < s.next) :
    ∃ threads, (s.created pid leader).task p = { s.task p with threads } := by
  have hold : (s.inserted pid leader).task p = s.task p :=
    Function.update_of_ne (Nat.ne_of_lt hp) _ _
  rw [← hold]
  exact created_task s pid leader p

theorem created_task_next (s : State) (pid : UInt32) (leader : TaskId) :
    ∃ threads, (s.created pid leader).task s.next = { pid, leader, isNew := true, threads } := by
  have hnew : (s.inserted pid leader).task s.next = { pid, leader, isNew := true } :=
    Function.update_self _ _ _
  obtain ⟨threads, h⟩ := created_task s pid leader s.next
  rw [hnew] at h
  exact ⟨threads, h⟩

theorem created_waits {pid : UInt32} {leader : TaskId} : Waits s (s.created pid leader) := by
  have htask : ∀ p < s.next, ∃ threads,
      (s.created pid leader).task p = { s.task p with threads } :=
    fun p hp => created_task_of_lt pid leader hp
  refine ⟨⟨Nat.le_succ _, fun _ hm => hm, rfl, fun p hp hmem => ?_, fun p hp => ?_,
    fun p hp hy => ?_, fun p hp _ _ => ?_⟩, ⟨fun p hp => List.mem_append_left _ hp, fun l hl => ?_,
    fun _ => rfl, fun _ => rfl, rfl⟩, rfl⟩
  · obtain hmem | hmem := List.mem_append.mp hmem
    · exact hmem
    · exact absurd (List.mem_singleton.mp hmem) (Nat.ne_of_lt hp)
  · obtain ⟨threads, h⟩ := htask p hp
    rw [h]
  · obtain ⟨threads, h⟩ := htask p hp
    rw [h]
    exact hy
  · obtain ⟨threads, h⟩ := htask p hp
    refine ⟨⟨?_, ?_⟩, fun hs => ?_, fun _ => .inl ?_, fun _ ho => ho⟩
    all_goals rw [h]
    exact hs
  · obtain ⟨threads, h⟩ := htask l hl
    rw [h]

/-- A task that `task_new` returned. -/
structure Newborn (t : TaskId) (s : State) : Prop where
  live : t ∈ s.live
  stopped : (s.task t).stopped = false
  event : (s.task t).event = .none
  leader : (s.task t).leader ≤ t
  skipBp : (s.task t).skipBp = none
  alone : ∀ p ∈ s.live, (s.task p).leader = t → p = t

/-- No task stops, goes on or gets an event. -/
def Calm (s s' : State) : Prop :=
  ∀ t < s.next, (s'.task t).stopped = (s.task t).stopped ∧ (s'.task t).event = (s.task t).event ∧
    (t ∈ s.owned → t ∈ s'.owned)

theorem created_calm {pid : UInt32} {leader : TaskId} : Calm s (s.created pid leader) := by
  intro p hp
  obtain ⟨threads, h⟩ := created_task_of_lt pid leader hp
  rw [h]
  exact ⟨rfl, rfl, fun h => h⟩

theorem taskNew_does {pid tgid : UInt32} (hpid : pid ≠ 0) (hnew : s.pid2task pid = none) :
    Does (taskNew pid tgid) s fun r s' =>
      Waits s s' ∧ Calm s s' ∧ ∀ t, r = some t → Newborn t s' ∧ t = s.next := by
  refine Logic.Does.inv fun hs => ?_
  have hnewborn : ∀ leader, leader ≤ s.next → Newborn s.next (s.created pid leader) := by
    intro leader hle
    obtain ⟨threads, h⟩ := created_task_next s pid leader
    refine ⟨List.mem_append_right _ List.mem_cons_self, ?_, ?_, ?_, ?_, fun p hp hl => ?_⟩
    · rw [h]
    · rw [h]
    · rw [h]
      exact hle
    · rw [h]
    · obtain hp | hp := List.mem_append.mp hp
      · obtain ⟨threads, hold⟩ := created_task_of_lt pid leader (hs.live p hp)
        rw [hold] at hl
        exact absurd hl (Nat.ne_of_lt (hs.leader p (hs.live p hp)))
      · exact List.mem_singleton.mp hp
  unfold taskNew
  refine Logic.Does.get_bind ?_
  split_ifs with htgid heq
  · exact Logic.Does.pure ⟨.refl s, fun _ _ => ⟨rfl, rfl, fun h => h⟩, nofun⟩
  · refine does_touchLeaders ?_
    refine Logic.Does.changed_bind (Change.created pid s.next hpid hnew (.inr rfl)) ?_
    refine Logic.Does.pure ⟨created_waits, created_calm, fun t ht => ?_⟩
    cases ht
    exact ⟨hnewborn s.next le_rfl, rfl⟩
  · cases hfind : s.pid2task tgid with
    | none => exact Logic.Does.pure ⟨.refl s, fun _ _ => ⟨rfl, rfl, fun h => h⟩, nofun⟩
    | some leader =>
      have hlive := pid2task_mem hfind
      dsimp only
      split_ifs with hhead
      · refine Logic.Does.changed_bind
          (Change.created pid leader hpid hnew (.inl ⟨hlive, hhead⟩)) ?_
        refine Logic.Does.pure ⟨created_waits, created_calm, fun t ht => ?_⟩
        cases ht
        exact ⟨hnewborn leader (hs.live leader hlive).le, rfl⟩
      · exact Logic.Does.throw (.inl trivial)

/-! ## Single assignments -/

theorem Works.setTask (s : State) (t : TaskId) {f : Task → Task}
    (hleader : ∀ k, (f k).leader = k.leader) (hnew : ∀ k, k.isNew = false → (f k).isNew = false)
    (hskipped : ∀ k, (f k).bpSkipped = k.bpSkipped) (hskip : ∀ k, (f k).skipBp = k.skipBp)
    (hdict : ∀ k, (f k).breakpoints = k.breakpoints) : Works t s (s.setTask t f) := by
  refine ⟨Frame.setTask s t hleader hnew, ⟨?_, ?_⟩, ⟨fun _ h => h, fun l _ => ?_, fun _ => rfl,
    fun _ => rfl, rfl⟩, rfl⟩
  · rw [setTask_task_self, hskipped]
  · rw [setTask_task_self, hskip]
  · rw [setTask_task]
    split_ifs with h
    · rw [h, hdict]
    · rfl

/-- Changes outside of the tasks and breakpoints, but for `owned`. -/
theorem Works.rest (htask : s'.task = s.task) (hbp : s'.bp = s.bp) (hnext : s'.next = s.next)
    (hlive : s'.live = s.live) (howned : ∀ p ∈ s.owned, p ≠ t → p ∈ s'.owned)
    (hnextBp : s'.nextBp = s.nextBp) (hhandling : s'.handling = s.handling)
    (hheld : s'.held = s.held)
    (hmarks : ∀ m ∈ s.marks, m ∈ s'.marks) : Works t s s' := by
  refine ⟨Frame.rest htask hnext (fun p hp => hlive ▸ hp) (fun p hp => ?_) hhandling hmarks,
    ⟨?_, ?_⟩,
    ⟨fun p hp => hlive ▸ hp, fun l _ => by rw [htask], fun b => by rw [hbp],
      fun b => by rw [hbp], hnextBp⟩, hheld⟩
  · exact (em (p = t)).symm.imp_left (howned p hp)
  · rw [htask]
  · rw [htask]

/-- The counters of a leader. -/
theorem Waits.setLeader (s : State) (l : TaskId) (threads threadsStopped : Task → UInt32) :
    Waits s (s.setTask l fun k =>
      { k with threads := threads k, threadsStopped := threadsStopped k }) := by
  refine ⟨Frame.setTask_same s l (fun _ => rfl) (fun _ => rfl) (fun _ => rfl) (fun _ => rfl)
    (fun _ => rfl) fun _ => rfl,
      ⟨fun _ h => h, fun p _ => ?_, fun _ => rfl, fun _ => rfl, rfl⟩, rfl⟩
  rw [setTask_task]
  split_ifs with h
  · rw [h]
  · rfl

theorem setLeader_task (s : State) (l t : TaskId) (threads threadsStopped : Task → UInt32) :
    ∃ m n, (s.setTask l fun k =>
      { k with threads := threads k, threadsStopped := threadsStopped k }).task t =
        { s.task t with threads := m, threadsStopped := n } := by
  by_cases h : t = l
  · rw [h, setTask_task_self]
    exact ⟨_, _, rfl⟩
  · rw [setTask_task_of_ne _ _ _ _ h]
    exact ⟨_, _, rfl⟩

theorem setUp_task (s : State) (t : TaskId) (signum : ℕ) : ∃ m n, (s.setUp t signum).task t =
    { s.task t with
      attached := true, stopped := true, event := .new signum, threads := m,
        threadsStopped := n } := by
  obtain ⟨m, n, h⟩ := setLeader_task s (s.task t).leader t (·.threads) (·.threadsStopped + 1)
  refine ⟨m, n, (setTask_task_self (s.countStopped t) t fun k =>
    { k with attached := true, stopped := true, event := .new signum }).trans ?_⟩
  rw [State.countStopped, h]

theorem setUp_works (hs : Sane s) (ht : t ∈ s.live) (signum : ℕ) :
    Works t s (s.setUp t signum) := by
  have h1 := (Waits.setLeader s (s.task t).leader (·.threads) (·.threadsStopped + 1)).works hs ht
  have h2 : Works t (s.countStopped t) ((s.countStopped t).setTask t fun k =>
      { k with attached := true, stopped := true, event := .new signum }) :=
    .setTask _ t (fun _ => rfl) (fun _ h => h) (fun _ => rfl) (fun _ => rfl) fun _ => rfl
  refine (h1.trans h2).trans
    (Works.rest rfl rfl rfl rfl (fun p hp _ => ?_) rfl rfl rfl fun _ h => h)
  exact List.mem_cons_of_mem t hp

theorem arrived_task (s : State) (t : TaskId) : ∃ m n, (s.arrived t).task t =
    { s.task t with stopped := true, threads := m, threadsStopped := n } := by
  obtain ⟨m, n, h⟩ := setLeader_task s (s.task t).leader t (·.threads) (·.threadsStopped + 1)
  refine ⟨m, n,
    (setTask_task_self (s.countStopped t) t fun k => { k with stopped := true }).trans ?_⟩
  rw [State.countStopped, h]

theorem arrived_works (hs : Sane s) (ht : t ∈ s.live) : Works t s (s.arrived t) := by
  have h1 := (Waits.setLeader s (s.task t).leader (·.threads) (·.threadsStopped + 1)).works hs ht
  have h2 : Works t (s.countStopped t)
      ((s.countStopped t).setTask t fun k => { k with stopped := true }) :=
    .setTask _ t (fun _ => rfl) (fun _ h => h) (fun _ => rfl) (fun _ => rfl) fun _ => rfl
  refine (h1.trans h2).trans
    (Works.rest rfl rfl rfl rfl (fun p hp _ => ?_) rfl rfl rfl fun _ h => h)
  exact List.mem_cons_of_mem t hp

theorem continued_task (s : State) (t : TaskId) : ∃ m n, (s.continued t).task t =
    { s.task t with stopped := false, event := .none, threads := m, threadsStopped := n } := by
  obtain ⟨m, n, h⟩ := setLeader_task s (s.task t).leader t (·.threads) (·.threadsStopped - 1)
  refine ⟨m, n,
    (setTask_task_self _ t fun k => { k with stopped := false, event := .none }).trans ?_⟩
  rw [h]

theorem continued_works (hs : Sane s) (ht : t ∈ s.live) : Works t s (s.continued t) := by
  have h1 := (Waits.setLeader s (s.task t).leader (·.threads) (·.threadsStopped - 1)).works hs ht
  have h2 : Works t (s.setTask (s.task t).leader fun l =>
        { l with threadsStopped := l.threadsStopped - 1 })
      ((s.setTask (s.task t).leader fun l =>
        { l with threadsStopped := l.threadsStopped - 1 }).setTask t
          fun k => { k with stopped := false, event := .none }) :=
    .setTask _ t (fun _ => rfl) (fun _ h => h) (fun _ => rfl) (fun _ => rfl) fun _ => rfl
  refine (h1.trans h2).trans
    (Works.rest rfl rfl rfl rfl (fun p hp hne => ?_) rfl rfl rfl fun _ h => h)
  exact (mem_drop_owned _ t p).mpr ⟨hp, hne⟩

theorem setEvent_task (s : State) (t : TaskId) (event : Event) :
    (s.setEvent t event).task t = { s.task t with event } :=
  setTask_task_self _ _ _

theorem setEvent_works (s : State) (t : TaskId) (event : Event) : Works t s (s.setEvent t event) :=
  .setTask s t (fun _ => rfl) (fun _ h => h) (fun _ => rfl) (fun _ => rfl) fun _ => rfl

theorem setBp_waits (s : State) (b : BpId) {g : Breakpoint → Breakpoint}
    (hdeleted : ∀ bp, (g bp).deleted = bp.deleted) (howner : ∀ bp, (g bp).owner = bp.owner) :
    Waits s (s.setBp b g) := by
  refine ⟨Frame.setBp s b g, ⟨fun _ h => h, fun _ _ => rfl, fun c => ?_, fun c => ?_, rfl⟩, rfl⟩
  · rw [setBp_bp]
    split_ifs with h
    · rw [h, hdeleted]
    · rfl
  · rw [setBp_bp]
    split_ifs with h
    · rw [h, howner]
    · rfl

theorem mark_waits (s : State) (m : Mark) : Waits s (s.mark m) :=
  ⟨Frame.mark s m, ⟨fun _ h => h, fun _ _ => rfl, fun _ => rfl, fun _ => rfl, rfl⟩, rfl⟩

theorem markIf_waits (s : State) (c : Prop) [Decidable c] (m : Mark) :
    Waits s (s.markIf c m) := by
  unfold State.markIf
  split_ifs
  · exact mark_waits s m
  · exact .refl s

/-- Nothing was done but to note which branches are taken. -/
structure Noted (s s' : State) : Prop where
  changes : Changes s s'
  waits : Waits s s'
  task : s'.task = s.task
  live : s'.live = s.live
  queue : s'.queue = s.queue
  owned : s'.owned = s.owned
  handling : s'.handling = s.handling

theorem markIf_noted (s : State) (c : Prop) [Decidable c] (m : Mark)
    (h : c → m.Says s := by exact fun _ => trivial) : Noted s (s.markIf c m) :=
  ⟨markIf_changes s c m h, markIf_waits s c m, markIf_task s m c, markIf_live s m c,
    markIf_queue s m c, markIf_owned s m c, markIf_handling s m c⟩

theorem Noted.trans (h : Noted s s') (h' : Noted s' s'') : Noted s s'' :=
  ⟨h.changes.trans h'.changes, h.waits.trans h'.waits, h'.task.trans h.task, h'.live.trans h.live,
    h'.queue.trans h.queue, h'.owned.trans h.owned, h'.handling.trans h.handling⟩

theorem Noted.marks (h : Noted s s') {m : Mark} (hm : m ∈ s.marks) : m ∈ s'.marks :=
  h.waits.frame.marks m hm

theorem Noted.unhandled (h : Noted s s') (t : TaskId) : s'.unhandled t = s.unhandled t := by
  unfold State.unhandled
  rw [h.task, h.handling]

theorem Noted.parent (h : Noted s s') (t : TaskId) : s'.Parent t ↔ s.Parent t := by
  unfold State.Parent
  rw [h.live, h.task]

theorem inputs_waits (s : State) (inputs : List Input) : Waits s { s with inputs } :=
  ⟨Frame.inputs s inputs, ⟨fun _ h => h, fun _ _ => rfl, fun _ => rfl, fun _ => rfl, rfl⟩, rfl⟩

theorem alike_setTask (ht : t < s.next) {f : Task → Task}
    (hcore : (f (s.task t)).core = (s.task t).core) : Alike s (s.setTask t f) := by
  refine ⟨fun p => ?_, fun p hp => ?_, fun _ => rfl, fun _ _ => rfl, rfl, rfl, rfl, rfl, rfl, rfl,
    rfl, rfl⟩
  · rw [setTask_task]
    split_ifs with h
    · rw [h, hcore]
    · rfl
  · have hne : p ≠ t := fun heq => absurd ht (not_lt.mpr (heq ▸ hp))
    exact setTask_task_of_ne _ _ _ _ hne

theorem alike_setBp (hb : b < s.nextBp) {g : Breakpoint → Breakpoint}
    (hcore : ∀ bp, (g bp).core = bp.core) : Alike s (s.setBp b g) := by
  refine ⟨fun _ => rfl, fun _ _ => rfl, fun c => ?_, fun c hc => ?_, rfl, rfl, rfl, rfl, rfl, rfl,
    rfl, rfl⟩
  · rw [setBp_bp]
    split_ifs with h
    · rw [h, hcore]
    · rfl
  · have hne : c ≠ b := fun heq => absurd hb (not_lt.mpr (heq ▸ hc))
    rw [setBp_bp, if_neg hne]

/-- An update of fields that no invariant of a run depends on. -/
theorem Alike.waits (h : Alike s s') : Waits s s' ∧ Calm s s' := by
  have htask : ∀ {β : Type} (g : Task → β), (∀ k, g k.core = g k) → ∀ p,
      g (s'.task p) = g (s.task p) := by
    intro β g hg p
    rw [← hg, h.task, hg]
  have hstopped := htask Task.stopped fun _ => rfl
  have hevent := htask Task.event fun _ => rfl
  refine ⟨⟨⟨h.next.ge, fun m hm => h.marks ▸ hm, h.handling, fun p _ hp => h.live ▸ hp,
    fun p _ => htask Task.leader (fun _ => rfl) p, fun p _ hy => ?_, fun p _ _ _ => ?_⟩,
    ⟨fun p hp => h.live ▸ hp, fun l _ => htask Task.breakpoints (fun _ => rfl) l, fun b => ?_,
      fun b => ?_, h.nextBp⟩, h.held⟩, fun p _ => ⟨hstopped p, hevent p, fun ho => h.owned ▸ ho⟩⟩
  · exact (htask Task.isNew (fun _ => rfl) p).trans hy
  · exact ⟨⟨htask Task.bpSkipped (fun _ => rfl) p, htask Task.skipBp (fun _ => rfl) p⟩,
      fun hs => (hstopped p).trans hs,
      fun _ => .inl (hevent p), fun _ ho => h.owned ▸ ho⟩
  · exact congrArg (fun c : ℕ × Bool × TaskId => c.2.1) (h.bp b)
  · exact congrArg (fun c : ℕ × Bool × TaskId => c.2.2) (h.bp b)

/-! ## What is known of a new task -/

theorem Calm.trans (h : Calm s s') (h' : Calm s' s'') (hnext : s.next ≤ s'.next) : Calm s s'' := by
  intro t ht
  obtain ⟨hstopped, hevent, howned⟩ := h t ht
  obtain ⟨hstopped', hevent', howned'⟩ := h' t (ht.trans_le hnext)
  exact ⟨hstopped'.trans hstopped, hevent'.trans hevent, fun ho => howned' (howned ho)⟩

/-- A new task, with or without what `trace_setup` does to it. -/
structure Tried (t : TaskId) (s : State) : Prop where
  live : t ∈ s.live
  alone : ∀ p ∈ s.live, (s.task p).leader = t → p = t
  event : (s.task t).event.isBreakpoint = false
  skipBp : (s.task t).skipBp = none
  free : t ∈ s.owned ∨ (s.task t).stopped = false

theorem Newborn.tried (h : Newborn t s) : Tried t s := by
  refine ⟨h.live, h.alone, ?_, h.skipBp, .inr h.stopped⟩
  rw [h.event]
  rfl

theorem Newborn.setUp (h : Newborn t s) (hs : Sane s) (signum : ℕ) :
    Tried t (s.setUp t signum) := by
  have hworks := setUp_works hs h.live signum
  refine ⟨h.live, fun p hp hl => h.alone p hp ?_, ?_, hworks.kept.skipBp.trans h.skipBp,
    .inl List.mem_cons_self⟩
  · rw [← hworks.frame.leader p (hs.live p hp)]
    exact hl
  · obtain ⟨m, n, htask⟩ := setUp_task s t signum
    rw [htask]
    rfl

theorem traceSetup_does {status : Status} {signum : ℕ} (ht : Newborn t s) :
    Does (traceSetup t status signum) s fun r s' => Works t s s' ∧ Tried t s' ∧ (r = true →
      t ∈ s'.owned ∧ (s'.task t).stopped = true ∧ (s'.task t).event ≠ .none) := by
  refine Logic.Does.inv fun hs => ?_
  unfold traceSetup
  cases status with
  | stopped sig ev =>
    refine Logic.Does.changed_bind (Change.setUp t _ ht.live ht.stopped ht.event) ?_
    refine Logic.Does.pure ⟨setUp_works hs ht.live _, ht.setUp hs _,
      fun _ => ⟨List.mem_cons_self, ?_⟩⟩
    obtain ⟨m, n, h⟩ := setUp_task s t (if sig ≠ signum then sig else 0)
    rw [h]
    exact ⟨rfl, nofun⟩
  | _ => exact Logic.Does.pure ⟨.refl t s, ht.tried, nofun⟩

theorem announce_does {newpid newTgid : UInt32} (hpid : newpid ≠ 0) :
    Does (announce newpid newTgid) s fun _ s' => Waits s s' ∧ Calm s s' := by
  unfold announce
  refine Logic.Does.get_bind ?_
  cases hfind : s.pid2task newpid with
  | some t => exact Logic.Does.pure ⟨.refl s, fun _ _ => ⟨rfl, rfl, fun h => h⟩⟩
  | none =>
    refine (taskNew_does hpid hfind).bind fun r s₁ _ h₁ => ?_
    obtain ⟨hwaits, hcalm, hnew⟩ := h₁
    cases r with
    | none => exact Logic.Does.pure ⟨hwaits, hcalm⟩
    | some child =>
      refine Logic.Does.inv fun hs₁ => ?_
      have halike : Alike s₁ (s₁.setTask child fun k => { k with attached := true }) :=
        alike_setTask (hs₁.live child (hnew child rfl).1.live) rfl
      obtain ⟨hwaits', hcalm'⟩ := halike.waits
      refine Logic.Does.changed_bind (.alike halike) (Logic.Does.pure ⟨hwaits.trans hwaits', ?_⟩)
      exact hcalm.trans hcalm' hwaits.frame.next

/-! ## The event of a task -/

/-- A stopped task without an event may get one. -/
structure Gets (t : TaskId) (got : Bool) (s s' : State) : Prop where
  works : Works t s s'
  stopped : (s'.task t).stopped = (s.task t).stopped
  owned : t ∈ s.owned → t ∈ s'.owned
  none : got = false → (s'.task t).event = .none
  event : got = true → (s'.task t).event ≠ .none ∧ (s'.task t).event.isBreakpoint = false

theorem not_unhandled (h : (s.task t).event.isBreakpoint = false) : ¬ s.unhandled t = true := by
  unfold State.unhandled
  rw [h]
  exact Bool.false_ne_true

theorem setEvent_does {event : Event} {β : Type} {f : Unit → Act β} {R : β → State → Prop}
    (ht : t ∈ s.live) (hold : (s.task t).event.isBreakpoint = false) (hnone : event ≠ .none)
    (hbreak : event.isBreakpoint = false)
    (h : Gets t true s (s.setEvent t event) → Does (f ()) (s.setEvent t event) R) :
    Does (modify (·.setEvent t event) >>= f) s R := by
  have hchange : Change s (s.setEvent t event) := by
    refine .event t event ht (fun heq => absurd heq hnone) (fun h => absurd h (not_unhandled hold))
      fun b heq => ?_
    rw [heq] at hbreak
    cases hbreak
  refine Logic.Does.changed_bind hchange (h ⟨setEvent_works s t event, ?_, fun ho => ho, nofun, ?_⟩)
  · rw [setEvent_task]
  · intro _
    rw [setEvent_task]
    exact ⟨hnone, hbreak⟩

theorem childEvent_does {newpid newTgid : UInt32} (ht : t ∈ s.live)
    (hnone : (s.task t).event = .none) :
    Does (childEvent t newpid newTgid) s fun r s' => Gets t r s s' := by
  refine Logic.Does.inv fun hs => ?_
  unfold childEvent
  split_ifs with hpid
  · exact Logic.Does.pure ⟨.refl t s, rfl, fun h => h, fun _ => hnone, nofun⟩
  · refine (announce_does hpid).bind fun r s₁ _ h₁ => ?_
    obtain ⟨hwaits, hcalm⟩ := h₁
    obtain ⟨hstopped, hevent, howned⟩ := hcalm t (hs.live t ht)
    have hworks := hwaits.works hs ht
    cases r with
    | false => exact Logic.Does.pure ⟨hworks, hstopped, howned, fun _ => hevent.trans hnone, nofun⟩
    | true =>
      have hold : (s₁.task t).event.isBreakpoint = false := by
        rw [hevent, hnone]
        rfl
      refine setEvent_does (hwaits.still.live t ht) hold nofun rfl fun h => ?_
      exact Logic.Does.pure ⟨hworks.trans h.works, h.stopped.trans hstopped,
        fun ho => h.owned (howned ho), nofun, h.event⟩

theorem classify_does {w : Wait} :
    Does (classify t w) s fun r s' => t ∈ s.live ∧ Gets t r.isSome s s' := by
  unfold classify
  refine does_getTask fun ht => does_assert rfl fun hnone => ?_
  have hnone : (s.task t).event = .none := of_decide_eq_true hnone
  have hold : (s.task t).event.isBreakpoint = false := by
    rw [hnone]
    rfl
  have hsome : ∀ {event : Event} {sig : ℕ}, event ≠ .none → event.isBreakpoint = false →
      Does (do modify (·.setEvent t event); return some sig : Act (Option ℕ)) s
        fun r s' => t ∈ s.live ∧ Gets t r.isSome s s' := by
    intro event sig hne hbreak
    exact setEvent_does ht hold hne hbreak fun h => Logic.Does.pure ⟨ht, h⟩
  have hidle : Gets t false s s := ⟨.refl t s, rfl, fun h => h, fun _ => hnone, nofun⟩
  cases hstatus : w.status with
  | signaled => exact hsome nofun rfl
  | exited => exact hsome nofun rfl
  | other => exact Logic.Does.pure ⟨ht, hidle⟩
  | stopped sig ev =>
    dsimp only
    by_cases hnew : (s.task t).isNew = true ∧ sig = sigstop ∧ ev = .none
    · rw [if_pos hnew]
      exact hsome nofun rfl
    · rw [if_neg hnew]
      cases ev with
      | child newpid =>
        refine (childEvent_does ht hnone).bind fun r s₁ _ h₁ => ?_
        cases r with
        | true => exact Logic.Does.pure ⟨ht, h₁⟩
        | false => exact Logic.Does.pure ⟨ht, h₁⟩
      | exec => exact hsome nofun rfl
      | exit => exact hsome nofun rfl
      | none => exact hsome nofun rfl
      | unknown => exact hsome nofun rfl

/-- What `continue_task` does to a task in the hands of the server, if it is there at all. -/
theorem continueTask_does (howned : t ∈ s.live → t ∈ s.owned)
    (hlost : t ∈ s.live → s.unhandled t = true → .droppedEvent ∈ s.marks) :
    Does (continueTask t) s fun _ s' =>
      Works t s s' ∧ (s'.task t).stopped = false ∧ (s'.task t).event = .none := by
  refine Logic.Does.inv fun hs => ?_
  unfold continueTask
  refine does_getTask fun ht => ?_
  refine does_check (fun hrun => .inr (.inr ⟨t, howned ht, hrun⟩)) fun hstopped => ?_
  have hnoted : Noted s (s.noteContinued t) := markIf_noted s _ _ fun hq => ⟨t, howned ht, hq⟩
  refine Logic.Does.modified_bind hnoted.changes ?_
  have hs₁ := sane_of_changes hnoted.changes hs
  have ht₁ := hnoted.live ▸ ht
  refine Logic.Does.changed (Change.continued t ht₁ ?_ ?_ fun h => ?_)
    ⟨(hnoted.waits.works hs ht).trans (continued_works hs₁ ht₁), ?_⟩
  · rw [hnoted.task]
    exact hstopped
  · rw [hnoted.owned]
    exact howned ht
  · rw [hnoted.unhandled] at h
    exact hnoted.marks (hlost ht h)
  · obtain ⟨m, n, h⟩ := continued_task (s.noteContinued t) t
    rw [h]
    exact ⟨rfl, rfl⟩

theorem breakpointFind_mem {addr : UInt64}
    (h : (s.task (s.task t).leader).breakpoints.find? (fun b => (s.bp b).addr = addr) = some b) :
    b ∈ (s.task (s.task t).leader).breakpoints :=
  List.mem_of_find?_eq_some h

/-- `breakpoint_find` finds breakpoints of the dictionary. -/
theorem does_breakpointFind {addr : UInt64} {β : Type} {f : Option BpId → Act β}
    {R : β → State → Prop} (hnone : Does (f none) s R)
    (hsome : ∀ b ∈ (s.task (s.task t).leader).breakpoints, Does (f (some b)) s R) :
    Does (breakpointFind t addr >>= f) s R := by
  have heq : breakpointFind t addr s = .ok
      ((s.task (s.task t).leader).breakpoints.find? fun b => (s.bp b).addr = addr) s := rfl
  refine Logic.Does.bind_ok heq .refl ?_
  cases hfind : (s.task (s.task t).leader).breakpoints.find? fun b => (s.bp b).addr = addr with
  | none => exact hnone
  | some b => exact hsome b (breakpointFind_mem hfind)

theorem hit_task (s : State) (t : TaskId) (b : BpId) :
    (s.hit t b).task t = { s.task t with event := .breakpoint b } :=
  setEvent_task _ _ _

theorem hit_works (s : State) (ht : t ∈ s.live) (hs : Sane s) (b : BpId) :
    Works t s (s.hit t b) := by
  have h1 : Waits s (s.setBp b fun bp => { bp with refcnt := bp.refcnt + 1 }) :=
    setBp_waits s b (fun _ => rfl) fun _ => rfl
  exact (h1.works hs ht).trans (setEvent_works _ t _)

/-- The rest of `process_event`. -/
theorem findHit_does {w : Wait} {r : Option ℕ} (hlive : t ∈ s.live) (howned : t ∈ s.owned)
    (hstopped : (s.task t).stopped = true) (hnone : r.isSome = false → (s.task t).event = .none)
    (hevent : r.isSome = true → (s.task t).event ≠ .none ∧ (s.task t).event.isBreakpoint = false)
    (hhandling : s.handling.map Prod.fst = some t → .skippedEntry ∈ s.marks) :
    Does (findHit t w r) s fun got s' => Works t s s' ∧ (got = true →
      t ∈ s'.owned ∧ (s'.task t).stopped = true ∧ (s'.task t).event ≠ .none) := by
  refine Logic.Does.inv fun hs => ?_
  cases r with
  | none =>
    have hlost : ¬ s.unhandled t = true := not_unhandled (by rw [hnone rfl]; rfl)
    refine (continueTask_does (fun _ => howned) fun _ h => absurd h hlost).bind
      fun _ s₁ _ h₁ => ?_
    exact Logic.Does.pure ⟨h₁.1, nofun⟩
  | some sig =>
    obtain ⟨hne, hbreak⟩ := hevent rfl
    have hfound : t ∈ s.owned ∧ (s.task t).stopped = true ∧ (s.task t).event ≠ .none :=
      ⟨howned, hstopped, hne⟩
    unfold findHit
    dsimp only
    by_cases hsig : sig ≠ sigtrap
    · rw [if_pos hsig]
      exact Logic.Does.pure ⟨.refl t s, fun _ => hfound⟩
    rw [if_neg hsig]
    by_cases hcontext : ¬ w.context = true
    · rw [if_pos hcontext]
      refine Logic.Does.changed_bind (Change.event t .none hlive (fun _ => howned)
        (fun h => absurd h (not_unhandled hbreak)) nofun) ?_
      have hlost : ¬ (s.setEvent t .none).unhandled t = true :=
        not_unhandled (by rw [setEvent_task]; rfl)
      refine (continueTask_does (s := s.setEvent t .none) (fun _ => howned)
        fun _ h => absurd h hlost).bind fun _ s₁ _ h₁ => ?_
      exact Logic.Does.pure ⟨(setEvent_works s t .none).trans h₁.1, nofun⟩
    · rw [if_neg hcontext]
      refine does_breakpointFind (Logic.Does.pure ⟨.refl t s, fun _ => hfound⟩) fun b hb => ?_
      refine does_getBp fun hbp => does_assert rfl fun _ => ?_
      refine Logic.Does.changed_bind (Change.hit t b hlive hbreak hb hhandling) ?_
      refine Logic.Does.pure ⟨hit_works s hlive hs b, fun _ => ⟨howned, ?_, ?_⟩⟩
      · rw [hit_task]
        exact hstopped
      · rw [hit_task]
        nofun

/-- What `wait_event` returns. -/
structure Returned (t : TaskId) (s s' : State) : Prop where
  running : (s.task t).stopped = false
  known : t ∈ s.live
  owned : t ∈ s'.owned
  stopped : (s'.task t).stopped = true
  event : (s'.task t).event ≠ .none

theorem processEvent_does {w : Wait} (hst : Steady s) :
    Does (processEvent t w) s fun got s' => Waits s s' ∧ (got = true → Returned t s s') := by
  refine Logic.Does.inv fun hs => ?_
  unfold processEvent
  refine does_getTask fun ht => does_assert rfl fun hrun => ?_
  have hrun : (s.task t).stopped = false := by simpa using hrun
  -- the two assignments are one change
  have heq : ∀ f : PUnit → Act Bool, (modify (fun s => (s.countStopped t).take t) >>= f) s =
      f ⟨⟩ ((s.countStopped t).take t) := fun _ => rfl
  have heq' : (_processEvent t w >>= findHit t w) ((s.countStopped t).take t) =
      (classify t w >>= findHit t w) (s.arrived t) := rfl
  refine Logic.Does.goes ((heq _).trans heq') (.single (Change.arrived t ht hrun)) ?_
  have hworks := arrived_works hs ht
  have hlive : t ∈ (s.arrived t).live := ht
  have hhandling : s.handling.map Prod.fst = some t → .skippedEntry ∈ s.marks := by
    intro h
    obtain ⟨⟨p, b⟩, hpb, rfl⟩ := Option.map_eq_some_iff.mp h
    refine (hst p b hpb ht).resolve_left fun hs => ?_
    exact absurd (hrun.symm.trans hs) Bool.false_ne_true
  refine classify_does.bind fun r s₁ _ h₁ => ?_
  obtain ⟨-, hgets⟩ := h₁
  have hstopped : (s₁.task t).stopped = true := by
    rw [hgets.stopped]
    obtain ⟨m, n, h⟩ := arrived_task s t
    rw [h]
  have howned : t ∈ s₁.owned := hgets.owned List.mem_cons_self
  refine (findHit_does (hgets.works.still.live t hlive) howned hstopped hgets.none hgets.event
    fun h => hgets.works.frame.marks _ (hhandling (hgets.works.frame.handling ▸ h))).mono
    fun got s' _ _ h => ⟨?_, fun hgot => ?_⟩
  · exact ((hworks.trans hgets.works).trans h.1).waits fun _ => hrun
  · obtain ⟨ho, hst, hev⟩ := h.2 hgot
    exact ⟨hrun, ht, ho, hst, hev⟩

/-- The end of a stopped task takes the place of its event. -/
theorem overwrite_does {event : Event} (hlive : t ∈ s.live) (hends : event.ends = true) :
    Does (overwrite t event) s fun r s' => Waits s s' ∧ ∀ p, r = some p → Returned p s s' := by
  refine Logic.Does.inv fun hs => ?_
  have hnone : event ≠ .none := fun h => by rw [h] at hends; cases hends
  have hbreak : ∀ b, event ≠ .breakpoint b := fun b h => by rw [h] at hends; cases hends
  have hset : ∀ s₁ : State, t ∈ s₁.live → Waits s₁ (s₁.setEvent t event) := by
    intro s₁ hlive₁
    have hworks := setEvent_works s₁ t event
    refine ⟨hworks.frame.shrink fun _ _ => ⟨hworks.kept, fun h => ?_, fun _ => .inr ?_,
      fun _ ho => ho⟩, hworks.still, hworks.held⟩
    · rw [setEvent_task]
      exact h
    · rw [setEvent_task]
      exact hends
  unfold overwrite
  refine Logic.Does.modified_bind (markIf_changes _ _ _) ?_
  have hlive' : t ∈ (s.markIf (s.unhandled t) .overwritten).live := by
    rw [markIf_live]
    exact hlive
  have hsame : (s.markIf (s.unhandled t) .overwritten).unhandled t = s.unhandled t := by
    unfold State.unhandled
    rw [markIf_task, markIf_handling]
  have hchange := Change.event t event hlive' (fun h => absurd h hnone)
    (fun h => mem_markIf s _ (hsame ▸ h)) fun b h => absurd h (hbreak b)
  refine Logic.Does.changed_bind hchange (Logic.Does.pure ⟨?_, nofun⟩)
  exact (markIf_waits s _ _).trans (hset _ hlive')

theorem waitTask_does {w : Wait} (hst : Steady s) :
    Does (waitTask t w) s fun r s' => Waits s s' ∧ ∀ p, r = some p → Returned p s s' := by
  unfold waitTask
  refine does_getTask fun ht => ?_
  have hprocess : Does (do if ← processEvent t w then pure (some t) else pure none) s
      fun r s' => Waits s s' ∧ ∀ p, r = some p → Returned p s s' := by
    refine (processEvent_does hst).bind fun got s₁ _ h₁ => ?_
    cases got with
    | false => exact Logic.Does.pure ⟨h₁.1, nofun⟩
    | true =>
      refine Logic.Does.pure ⟨h₁.1, fun p hp => ?_⟩
      cases hp
      exact h₁.2 rfl
  split
  · exact overwrite_does ht rfl
  · exact overwrite_does ht rfl
  · exact overwrite_does ht rfl
  · exact hprocess

theorem waitEvent_does (hst : Steady s) :
    Does waitEvent s fun r s' => Waits s s' ∧ ∀ p, r = some p → Returned p s s' := by
  unfold waitEvent
  refine does_nextInput fun i inputs => ?_
  have hin := inputs_waits s inputs
  have hreturned : ∀ {p : TaskId} {s' : State}, Returned p { s with inputs } s' → Returned p s s' :=
    fun h => ⟨h.running, h.known, h.owned, h.stopped, h.event⟩
  cases i with
  | wakeup => exact Logic.Does.pure ⟨hin, nofun⟩
  | wait w =>
    dsimp only
    split_ifs with hpid
    · exact Logic.Does.pure ⟨hin, nofun⟩
    refine Logic.Does.get_bind ?_
    cases hfind : State.pid2task { s with inputs } w.pid with
    | some t =>
      refine (waitTask_does (s := { s with inputs }) hst).mono fun r s' _ _ h => ?_
      exact ⟨hin.trans h.1, fun p hp => hreturned (h.2 p hp)⟩
    | none =>
      refine (taskNew_does hpid hfind).bind fun r s₁ _ h₁ => ?_
      obtain ⟨hwaits, -, hnew⟩ := h₁
      have hwaits := hin.trans hwaits
      cases r with
      | none => exact Logic.Does.pure ⟨hwaits, nofun⟩
      | some t =>
        obtain ⟨hborn, hnext⟩ := hnew t rfl
        refine (traceSetup_does hborn).bind fun r s₂ _ h₂ => Logic.Does.pure ⟨?_, nofun⟩
        -- the new task is none of those that were stopped
        refine ⟨(hwaits.frame.weaken.trans h₂.1.frame).shrink fun hlt _ => ?_,
          hwaits.still.trans h₂.1.still hwaits.frame.next, h₂.1.held.trans hwaits.held⟩
        exact absurd hnext (Nat.ne_of_lt hlt)
  | _ => exact Logic.Does.throw (.inl trivial)

/-! ## The queue -/

theorem queued_works (s : State) (t : TaskId) : Works t s (s.queued t) :=
  .rest rfl rfl rfl rfl (fun p hp hne => (mem_drop_owned _ t p).mpr ⟨hp, hne⟩) rfl rfl rfl
    fun _ h => h

theorem queueEvent_does (howned : t ∈ s.owned) (hstopped : (s.task t).stopped = true)
    (hevent : (s.task t).event ≠ .none) :
    Does (queueEvent t) s fun _ s' => s' = s.queued t ∧ Works t s s' := by
  unfold queueEvent
  refine does_getTask fun ht => does_check (fun h => ?_) fun _ =>
    does_check (fun h => ?_) fun _ => ?_
  · exact absurd hevent (of_decide_eq_false h)
  · exact absurd (h.symm.trans hstopped) Bool.false_ne_true
  · exact Logic.Does.changed (Change.queued t ht hstopped howned hevent) ⟨rfl, queued_works s t⟩

theorem stopLoop_does {leader : TaskId} (fuel : ℕ) (hst : Steady s) :
    Does (stopLoop leader fuel) s fun _ s' => Waits s s' := by
  induction fuel generalizing s with
  | zero => exact Logic.Does.throw (.inl trivial)
  | succ fuel ih =>
    refine Logic.Does.inv fun hs => ?_
    unfold stopLoop
    refine Logic.Does.get_bind ?_
    dsimp only
    split_ifs with heq
    · exact Logic.Does.pure (.refl s)
    refine does_assert rfl fun _ => ?_
    refine (waitEvent_does hst).bind fun r s₁ hto₁ h₁ => ?_
    obtain ⟨hwaits, hreturned⟩ := h₁
    have hqueue : Does (queueReturned r) s₁ fun _ s' => Waits s s' := by
      cases r with
      | none => exact Logic.Does.pure hwaits
      | some t =>
        have hr := hreturned t rfl
        refine (queueEvent_does hr.owned hr.stopped hr.event).mono fun _ s₂ _ _ h₂ => ?_
        exact ((hwaits.works hs hr.known).trans h₂.2).waits fun _ => hr.running
    refine hqueue.bind fun _ s₂ _ h₂ => ?_
    exact (ih (hst.waits hs h₂)).mono fun _ s₃ _ _ h₃ => h₂.trans h₃

/-- `stop_threads` leaves the stopped tasks as they are. -/
theorem stopThreads_does (hst : Steady s) : Does (stopThreads t) s fun _ s' => Waits s s' := by
  unfold stopThreads
  exact Logic.Does.get_bind (stopLoop_does _ hst)

/-- The next task is in the hands of the server. -/
theorem nextEvent_does (hst : Steady s) :
    Does nextEvent s fun r s' =>
      s'.handling = s.handling ∧ s'.held = s.held ∧ ∀ t, r = some t → t ∈ s'.owned := by
  unfold nextEvent
  refine Logic.Does.get_bind ?_
  cases hhead : s.queue.next none with
  | none =>
    exact (waitEvent_does hst).mono fun r s' _ _ h =>
      ⟨h.1.frame.handling, h.1.held, fun t ht => (h.2 t ht).owned⟩
  | some t =>
    refine Logic.Does.changed_bind (Change.dequeued t hhead)
      (Logic.Does.pure ⟨rfl, rfl, fun p hp => ?_⟩)
    cases hp
    exact List.mem_cons_self

end Mtrace.Tracer
