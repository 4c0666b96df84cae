import Mathlib.Data.UInt
import Mtrace.Tally
import Mtrace.Tracer.Runs

/-!
# The counters of a thread group

`leader->threads` and `leader->threads_stopped` count the tasks of a group and those of them that
are stopped, as long as no task is destroyed while it is running: `task_destroy` counts every task
as stopped.  The counters cannot overflow, because the tasks have different pids.
-/

namespace Mtrace.Tracer

open State Hoare

/-- Where the code counts: `process_event`, `continue_task` and `task_destroy` on their own, beside
the steps of the main loop. -/
inductive GroupStep where
  | main (w : World) (e : Step)
  | destroy (t : TaskId)
  | detach (leader : TaskId)
  | stop (t : TaskId)

def groupAct : GroupStep → Act Unit
  | .main w e => act w e
  | .destroy t => taskDestroy t
  | .detach leader => detachProc leader
  | .stop t => stopThreads t

def groupStep (s : State) (e : GroupStep) : Except Halt State :=
  match groupAct e s with
  | .ok _ s' => .ok s'
  | .error h _ => .error h

/-- The tasks of a group. -/
def State.group (s : State) (l : TaskId) : List TaskId :=
  s.live.filter fun t => (s.task t).leader = l

/-- The number of tasks of a group with a property. -/
def State.count (s : State) (l : TaskId) (p : Task → Bool) : ℕ :=
  s.live.countP fun t => (s.task t).leader = l ∧ p (s.task t)

/-- The fields that are counted, and the counters. -/
def Task.counted (k : Task) : TaskId × Bool × UInt32 × UInt32 :=
  (k.leader, k.stopped, k.threads, k.threadsStopped)

/-- The counters of all leaders are right, modulo their size. -/
structure Counted (s : State) : Prop where
  threads : ∀ l, (s.task l).threads = .ofNat (s.count l fun _ => true)
  stopped : ∀ l, (s.task l).threadsStopped = .ofNat (s.count l Task.stopped)

variable {s s' : State} {t l n p : TaskId} {b : BpId} {q : Task → Bool} {inputs : List Input}

/-! ## One change -/

theorem counted_inj {k k' : Task} (h : k'.counted = k.counted) : k'.leader = k.leader ∧
    k'.stopped = k.stopped ∧ k'.threads = k.threads ∧ k'.threadsStopped = k.threadsStopped := by
  unfold Task.counted at h
  simpa using h

theorem Counted.same (h : Counted s) (hlive : s'.live = s.live)
    (htask : ∀ t, (s'.task t).counted = (s.task t).counted) : Counted s' := by
  have hcount : ∀ l (q : Task → Bool), (∀ t, q (s'.task t) = q (s.task t)) →
      s'.count l q = s.count l q := by
    intro l q hq
    unfold State.count
    rw [hlive]
    refine List.countP_congr fun t _ => ?_
    rw [(counted_inj (htask t)).1, hq]
  refine ⟨fun l => ?_, fun l => ?_⟩
  · rw [(counted_inj (htask l)).2.2.1, hcount l _ fun _ => rfl]
    exact h.threads l
  · rw [(counted_inj (htask l)).2.2.2, hcount l _ fun t => (counted_inj (htask t)).2.1]
    exact h.stopped l

theorem Counted.setTask (h : Counted s) (t : TaskId) {f : Task → Task}
    (hf : ∀ k, (f k).counted = k.counted) : Counted (s.setTask t f) :=
  h.same rfl (setTask_field Task.counted (hf _))

theorem setThreadsStopped (s : State) (l p : TaskId) (g : Task → UInt32) :
    ((s.setTask l fun k => { k with threadsStopped := g k }).task p).threadsStopped =
      if l = p then g (s.task p) else (s.task p).threadsStopped := by
  rw [setTask_task]
  by_cases h : p = l
  · rw [if_pos h, if_pos h.symm, h]
  · rw [if_neg h, if_neg (Ne.symm h)]

/-- One task of a group stops or goes on, and its leader counts it. -/
theorem Counted.move (h : Counted s) (hs : Sane s) (ht : t ∈ s.live) (hlive : s'.live = s.live)
    (hleader : ∀ p, (s'.task p).leader = (s.task p).leader)
    (hthreads : ∀ p, (s'.task p).threads = (s.task p).threads)
    (hothers : ∀ p, p ≠ t → (s'.task p).stopped = (s.task p).stopped)
    (hcount : ∀ l, (s'.task l).threadsStopped +
        .ofNat (if (s.task t).leader = l ∧ (s.task t).stopped = true then 1 else 0) =
      (s.task l).threadsStopped +
        .ofNat (if (s.task t).leader = l ∧ (s'.task t).stopped = true then 1 else 0)) :
    Counted s' := by
  refine ⟨fun l => ?_, fun l => ?_⟩
  · have heq : s'.count l (fun _ => true) = s.count l fun _ => true := by
      unfold State.count
      rw [hlive]
      exact List.countP_congr fun p _ => by rw [hleader]
    rw [hthreads, heq]
    exact h.threads l
  · have hchange := List.countP_change hs.once ht
      (p := fun p => (s.task p).leader = l ∧ (s.task p).stopped)
      (q := fun p => (s'.task p).leader = l ∧ (s'.task p).stopped)
      fun p _ hp => by rw [hleader, hothers p hp]
    simp only [decide_eq_true_eq, hleader t] at hchange
    have hl := hcount l
    rw [h.stopped l, ← UInt32.ofNat_add] at hl
    have hcount' : s.count l Task.stopped +
        (if (s.task t).leader = l ∧ (s'.task t).stopped = true then 1 else 0) =
        s'.count l Task.stopped +
          (if (s.task t).leader = l ∧ (s.task t).stopped = true then 1 else 0) := by
      unfold State.count
      rw [hlive]
      exact hchange.symm
    rw [hcount', UInt32.ofNat_add] at hl
    exact (UInt32.add_left_inj _).mp hl

/-- A running task stops, with other fields that are not counted. -/
theorem Counted.stops (h : Counted s) (hs : Sane s) (ht : t ∈ s.live)
    (hrun : (s.task t).stopped = false) {f : Task → Task}
    (hf : ∀ k, (f k).counted = { k with stopped := true }.counted) :
    Counted (((s.countStopped t).setTask t f).take t) := by
  have hf := fun k => counted_inj (hf k)
  have hleader := fun p => setTask_field (s := s) (t := (s.task t).leader) Task.leader
    (f := fun l => { l with threadsStopped := l.threadsStopped + 1 }) rfl p
  have hthreads := fun p => setTask_field (s := s) (t := (s.task t).leader) Task.threads
    (f := fun l => { l with threadsStopped := l.threadsStopped + 1 }) rfl p
  have hstopped := fun p => setTask_field (s := s) (t := (s.task t).leader) Task.stopped
    (f := fun l => { l with threadsStopped := l.threadsStopped + 1 }) rfl p
  refine h.move hs ht rfl (fun p => ?_) (fun p => ?_) (fun p hp => ?_) fun l => ?_
  · exact (setTask_field (s := s.countStopped t) Task.leader (hf _).1 p).trans (hleader p)
  · exact (setTask_field (s := s.countStopped t) Task.threads (hf _).2.2.1 p).trans (hthreads p)
  · exact (congrArg Task.stopped
      (setTask_task_of_ne (s.countStopped t) t p f hp)).trans (hstopped p)
  · have hself : ((((s.countStopped t).setTask t f).take t).task t).stopped = true := by
      rw [take_task, setTask_task_self, (hf _).2.1]
    have hcount : ((((s.countStopped t).setTask t f).take t).task l).threadsStopped =
        if (s.task t).leader = l then (s.task l).threadsStopped + 1
        else (s.task l).threadsStopped :=
      (setTask_field (s := s.countStopped t) Task.threadsStopped (hf _).2.2.2 l).trans
        (setThreadsStopped s _ l fun k => k.threadsStopped + 1)
    rw [hself, hrun, hcount]
    by_cases hl : (s.task t).leader = l
    · simp [hl]
    · simp [hl]

theorem Counted.continued (h : Counted s) (hs : Sane s) (ht : t ∈ s.live)
    (hstopped : (s.task t).stopped = true) : Counted (s.continued t) := by
  have hleader := fun p => setTask_field (s := s) (t := (s.task t).leader) Task.leader
    (f := fun l => { l with threadsStopped := l.threadsStopped - 1 }) rfl p
  have hthreads := fun p => setTask_field (s := s) (t := (s.task t).leader) Task.threads
    (f := fun l => { l with threadsStopped := l.threadsStopped - 1 }) rfl p
  have hothers := fun p => setTask_field (s := s) (t := (s.task t).leader) Task.stopped
    (f := fun l => { l with threadsStopped := l.threadsStopped - 1 }) rfl p
  let s₁ := s.setTask (s.task t).leader fun l => { l with threadsStopped := l.threadsStopped - 1 }
  let f : Task → Task := fun k => { k with stopped := false, event := .none }
  show Counted ((s₁.setTask t f).drop t)
  refine h.move hs ht rfl (fun p => ?_) (fun p => ?_)
    (fun p hp => ?_) fun l => ?_
  · exact (setTask_field (s := s₁) (t := t) Task.leader (f := f) rfl p).trans (hleader p)
  · exact (setTask_field (s := s₁) (t := t) Task.threads (f := f) rfl p).trans (hthreads p)
  · exact (congrArg Task.stopped (setTask_task_of_ne s₁ t p f hp)).trans (hothers p)
  · have hself : (((s₁.setTask t f).drop t).task t).stopped = false := by
      rw [drop_task, setTask_task_self]
    have hcount : (((s₁.setTask t f).drop t).task l).threadsStopped =
        if (s.task t).leader = l then (s.task l).threadsStopped - 1
        else (s.task l).threadsStopped :=
      (setTask_field (s := s₁) (t := t) Task.threadsStopped (f := f) rfl l).trans
        (setThreadsStopped s _ l fun k => k.threadsStopped - 1)
    rw [hself, hstopped, hcount]
    by_cases hl : (s.task t).leader = l
    · simp [hl]
    · simp [hl]

/-- A stopped task is gone. -/
theorem Counted.retired (h : Counted s) (ht : t ∈ s.live)
    (hstopped : (s.task t).stopped = true) : Counted (s.retired t) := by
  let s₁ := s.setTask t fun k => { k with deleted := true }
  let f : Task → Task := fun l =>
    { l with threads := l.threads - 1, threadsStopped := l.threadsStopped - 1 }
  have hleader : ∀ p, ((s.retired t).task p).leader = (s.task p).leader := fun p =>
    (setTask_field (s := s₁) (t := (s.task t).leader) Task.leader (f := f) rfl p).trans
      (setTask_field (s := s) (t := t) Task.leader (f := fun k => { k with deleted := true }) rfl p)
  have hstop : ∀ p, ((s.retired t).task p).stopped = (s.task p).stopped := fun p =>
    (setTask_field (s := s₁) (t := (s.task t).leader) Task.stopped (f := f) rfl p).trans
      (setTask_field (s := s) (t := t) Task.stopped
        (f := fun k => { k with deleted := true }) rfl p)
  have hthreads : ∀ l, ((s.retired t).task l).threads +
      .ofNat (if (s.task t).leader = l then 1 else 0) = (s.task l).threads := by
    intro l
    have hold := setTask_field (s := s) (t := t) Task.threads
      (f := fun k => { k with deleted := true }) rfl l
    rw [← hold]
    show ((s₁.setTask (s.task t).leader f).task l).threads + _ = _
    rw [setTask_task]
    by_cases hl : (s.task t).leader = l
    · simp [hl, f, s₁]
    · simp [hl, Ne.symm hl, s₁]
  have hcount : ∀ l, ((s.retired t).task l).threadsStopped +
      .ofNat (if (s.task t).leader = l then 1 else 0) = (s.task l).threadsStopped := by
    intro l
    have hold := setTask_field (s := s) (t := t) Task.threadsStopped
      (f := fun k => { k with deleted := true }) rfl l
    rw [← hold]
    show ((s₁.setTask (s.task t).leader f).task l).threadsStopped + _ = _
    rw [setTask_task]
    by_cases hl : (s.task t).leader = l
    · simp [hl, f, s₁]
    · simp [hl, Ne.symm hl, s₁]
  have herase : ∀ l (q : Task → Bool), (∀ p, q ((s.retired t).task p) = q (s.task p)) →
      q (s.task t) = true →
      s.count l q = (s.retired t).count l q + if (s.task t).leader = l then 1 else 0 := by
    intro l q hq hqt
    have := List.countP_eq_countP_erase_add ht (p := fun p => (s.task p).leader = l ∧ q (s.task p))
    simp only [hqt, and_true, decide_eq_true_eq] at this
    refine this.trans (congrArg (· + _) (List.countP_congr fun p _ => ?_))
    rw [hleader, hq]
  refine ⟨fun l => ?_, fun l => ?_⟩
  · have hl := hthreads l
    rw [h.threads l, herase l _ (fun _ => rfl) rfl, UInt32.ofNat_add] at hl
    exact (UInt32.add_left_inj _).mp hl
  · have hl := hcount l
    rw [h.stopped l, herase l _ hstop hstopped, UInt32.ofNat_add] at hl
    exact (UInt32.add_left_inj _).mp hl

/-- A leader without other threads is gone, and its counters with it. -/
theorem Counted.abandoned (h : Counted s) (hleader : (s.task t).leader = t)
    (halone : ∀ p ∈ s.live, (s.task p).leader = t → p = t) (hs : Sane s) :
    Counted (s.abandoned t) := by
  let s₁ := (s.setEvent t .none).drop t
  let f : Task → Task := fun k => { k with threads := 0, threadsStopped := 0 }
  have hevent : ∀ p, (s₁.task p).counted = (s.task p).counted :=
    setTask_field (s := s) (t := t) Task.counted (f := fun k => { k with event := .none }) rfl
  have hothers : ∀ p, p ≠ t → ((s.abandoned t).task p).counted = (s.task p).counted := fun p hp =>
    (congrArg Task.counted (setTask_task_of_ne s₁ t p f hp)).trans (hevent p)
  have hself : (s.abandoned t).task t = f (s₁.task t) := setTask_task_self s₁ t f
  have hne : ∀ p ∈ (s.abandoned t).live, p ≠ t := fun p hp => (hs.once.mem_erase_iff.mp hp).1
  have hcount : ∀ l (q : Task → Bool), l ≠ t →
      (∀ p ≠ t, q ((s.abandoned t).task p) = q (s.task p)) →
      (s.abandoned t).count l q = s.count l q := by
    intro l q hl hq
    have hsame : (s.abandoned t).count l q =
        (s.live.erase t).countP fun p => (s.task p).leader = l ∧ q (s.task p) :=
      List.countP_congr fun p hp => by
        rw [(counted_inj (hothers p (hne p hp))).1, hq p (hne p hp)]
    by_cases ht : t ∈ s.live
    · have herase := List.countP_eq_countP_erase_add ht
        (p := fun p => (s.task p).leader = l ∧ q (s.task p))
      rw [hleader, if_neg (by simp [Ne.symm hl])] at herase
      exact hsame.trans herase.symm
    · rw [hsame, List.erase_of_not_mem ht]
      rfl
  have hnone : ∀ q : Task → Bool, (s.abandoned t).count t q = 0 := by
    intro q
    refine List.countP_eq_zero.mpr fun p hp hgroup =>
      hne p hp (halone p (List.mem_of_mem_erase hp) ?_)
    rw [decide_eq_true_eq, (counted_inj (hothers p (hne p hp))).1] at hgroup
    exact hgroup.1
  refine ⟨fun l => ?_, fun l => ?_⟩
  · by_cases hl : l = t
    · rw [hl, hself, hnone]
      rfl
    · rw [(counted_inj (hothers l hl)).2.2.1, hcount l _ hl fun _ _ => rfl]
      exact h.threads l
  · by_cases hl : l = t
    · rw [hl, hself, hnone]
      rfl
    · rw [(counted_inj (hothers l hl)).2.2.2,
        hcount l _ hl fun p hp => (counted_inj (hothers p hp)).2.1]
      exact h.stopped l

/-- A new task, which is running. -/
theorem Counted.created (h : Counted s) (hs : Sane s) (pid : UInt32) (l : TaskId) :
    Counted (s.created pid l) := by
  have hfresh : s.task s.next = {} := hs.fresh s.next le_rfl
  have hnew : (s.inserted pid l).task s.next = { pid, leader := l, isNew := true } :=
    Function.update_self _ _ _
  have hold : ∀ p, p ≠ s.next → (s.inserted pid l).task p = s.task p :=
    fun p hp => Function.update_of_ne hp _ _
  let f : Task → Task := fun k => { k with threads := if l = s.next then 1 else k.threads + 1 }
  have hleader : ∀ p, ((s.created pid l).task p).leader = ((s.inserted pid l).task p).leader :=
    setTask_field (s := s.inserted pid l) (t := l) Task.leader (f := f) rfl
  have hstopped : ∀ p, ((s.created pid l).task p).stopped = ((s.inserted pid l).task p).stopped :=
    setTask_field (s := s.inserted pid l) (t := l) Task.stopped (f := f) rfl
  have hthreads : ∀ p, ((s.created pid l).task p).threads =
      (s.task p).threads + .ofNat (if l = p then 1 else 0) := by
    intro p
    show (((s.inserted pid l).setTask l f).task p).threads = _
    rw [setTask_task]
    by_cases hp : p = l
    · subst hp
      by_cases hn : p = s.next
      · simp [f, hn, hfresh]
      · simp [f, hn, hold p hn]
    · rw [if_neg hp, if_neg (Ne.symm hp)]
      by_cases hn : p = s.next
      · simp [hn, hfresh, hnew]
      · simp [hold p hn]
  have hts : ∀ p, ((s.created pid l).task p).threadsStopped = (s.task p).threadsStopped := by
    intro p
    refine (setTask_field (s := s.inserted pid l) (t := l) Task.threadsStopped
      (f := f) rfl p).trans ?_
    by_cases hn : p = s.next
    · rw [hn, hnew, hfresh]
    · rw [hold p hn]
  have hcount : ∀ (m : TaskId) (q : Task → Bool),
      (∀ p, q ((s.created pid l).task p) = q ((s.inserted pid l).task p)) →
      (s.created pid l).count m q =
        s.count m q + if l = m ∧ q { pid, leader := l, isNew := true } = true then 1 else 0 := by
    intro m q hq
    show (s.live ++ [s.next]).countP _ = _
    rw [List.countP_append, List.countP_singleton]
    congr 1
    · refine List.countP_congr fun p hp => ?_
      have hne : p ≠ s.next := Nat.ne_of_lt (hs.live p hp)
      rw [hleader, hq, hold p hne]
    · rw [hleader, hq, hnew]
      simp
  refine ⟨fun m => ?_, fun m => ?_⟩
  · rw [hthreads, hcount m _ fun _ => rfl, h.threads, UInt32.ofNat_add]
    simp
  · rw [hts, hcount m _ hstopped, h.stopped]
    simp

theorem counted_core (k : Task) : k.core.counted = k.counted := rfl

/-- The counters stay right as long as no running task is destroyed. -/
theorem Counted.change (h : Counted s) (hs : Sane s) (hc : Change s s')
    (hmark : .destroyedRunning ∉ s'.marks) : Counted s' := by
  have hset : ∀ (t : TaskId) (f : Task → Task) (s' : State), (∀ k, (f k).counted = k.counted) →
      s'.task = (s.setTask t f).task → s'.live = s.live → Counted s' := by
    intro t f s' hf htask hlive
    exact (h.setTask t hf).same hlive fun p => by rw [htask]
  cases hc with
  | alike ha =>
    refine h.same ha.live fun t => ?_
    rw [← counted_core, ha.task, counted_core]
  | created pid leader => exact h.created hs pid leader
  | setUp t signum ht hrun => exact h.stops hs ht hrun fun _ => rfl
  | arrived t ht hrun => exact h.stops hs ht hrun fun _ => rfl
  | halted t ht hdestroyed => exact absurd hdestroyed hmark
  | event t event => exact hset t (fun k => { k with event }) _ (fun _ => rfl) rfl rfl
  | hit t b => exact hset t (fun k => { k with event := .breakpoint b }) _ (fun _ => rfl) rfl rfl
  | continued t ht hstopped => exact h.continued hs ht hstopped
  | deferredTo n t => exact hset n (fun k => { k with deferred := some t }) _ (fun _ => rfl) rfl rfl
  | adopted n t => exact hset n (fun k => { k with deferred := none }) _ (fun _ => rfl) rfl rfl
  | announced t => exact hset t (fun k => { k with aboutExit := true }) _ (fun _ => rfl) rfl rfl
  | withdrawn t => exact hset t (fun k => { k with aboutExit := false }) _ (fun _ => rfl) rfl rfl
  | grown t => exact hset t (fun k => { k with isNew := false }) _ (fun _ => rfl) rfl rfl
  | skipped t b => exact hset t (fun k => { k with skipBp := some b }) _ (fun _ => rfl) rfl rfl
  | unskipped t b => exact hset t (fun k => { k with skipBp := none }) _ (fun _ => rfl) rfl rfl
  | pends t b => exact hset t (fun k => { k with breakpoint := some b }) _ (fun _ => rfl) rfl rfl
  | unpends t => exact hset t (fun k => { k with breakpoint := none }) _ (fun _ => rfl) rfl rfl
  | addedBp l bp =>
    exact hset l (fun k => { k with breakpoints := k.breakpoints ++ [s.nextBp] }) _ (fun _ => rfl)
      rfl rfl
  | removedBp l b =>
    exact hset l (fun k => { k with breakpoints := k.breakpoints.erase b }) _ (fun _ => rfl) rfl rfl
  | leaves t => exact hset t (fun k => { k with bpSkipped := true }) _ (fun _ => rfl) rfl rfl
  | left t => exact hset t (fun k => { k with bpSkipped := false }) _ (fun _ => rfl) rfl rfl
  | unqueued t => exact hset t (fun k => { k with event := .none }) _ (fun _ => rfl) rfl rfl
  | retired t ht hstopped => exact h.retired ht (hstopped.resolve_right hmark)
  | abandoned t ht hleader halone => exact h.abandoned hleader halone hs
  | marked | took | queued | dequeued | joined | released | handles | handled =>
    exact h.same rfl fun _ => rfl

theorem start_counted (inputs : List Input) : Counted (.start inputs) :=
  ⟨fun _ => rfl, fun _ => rfl⟩

/-! ## No overflow -/

/-- The tasks have different pids. -/
structure Distinct (s : State) : Prop where
  ne_zero : ∀ t ∈ s.live, (s.task t).pid ≠ 0
  inj : ∀ t ∈ s.live, ∀ p ∈ s.live, (s.task t).pid = (s.task p).pid → t = p

theorem Distinct.same (h : Distinct s) (hlive : ∀ t ∈ s'.live, t ∈ s.live)
    (hpid : ∀ t ∈ s.live, (s'.task t).pid = (s.task t).pid) : Distinct s' := by
  refine ⟨fun t ht => ?_, fun t ht p hp heq => ?_⟩
  · rw [hpid t (hlive t ht)]
    exact h.ne_zero t (hlive t ht)
  · rw [hpid t (hlive t ht), hpid p (hlive p hp)] at heq
    exact h.inj t (hlive t ht) p (hlive p hp) heq

theorem pid2task_none {pid : UInt32} (h : s.pid2task pid = none) (ht : t ∈ s.live) :
    (s.task t).pid ≠ pid := by
  have := List.find?_eq_none.mp h t ht
  simpa using this

theorem Distinct.created (h : Distinct s) (hs : Sane s) {pid : UInt32} (hpid : pid ≠ 0)
    (hnew : s.pid2task pid = none) (l : TaskId) : Distinct (s.created pid l) := by
  let f : Task → Task := fun k => { k with threads := if l = s.next then 1 else k.threads + 1 }
  have hset : ∀ p, ((s.created pid l).task p).pid = ((s.inserted pid l).task p).pid :=
    setTask_field (s := s.inserted pid l) (t := l) Task.pid (f := f) rfl
  have hself : ((s.created pid l).task s.next).pid = pid := by
    rw [hset]
    exact congrArg Task.pid (Function.update_self s.next _ s.task)
  have hold : ∀ p ∈ s.live, ((s.created pid l).task p).pid = (s.task p).pid := by
    intro p hp
    rw [hset]
    exact congrArg Task.pid (Function.update_of_ne (Nat.ne_of_lt (hs.live p hp)) _ _)
  have hcases : ∀ p ∈ (s.created pid l).live, p ∈ s.live ∨ p = s.next := fun p hp =>
    (List.mem_append.mp hp).imp_right List.mem_singleton.mp
  refine ⟨fun t ht => ?_, fun t ht p hp heq => ?_⟩
  · obtain ht | rfl := hcases t ht
    · rw [hold t ht]
      exact h.ne_zero t ht
    · rw [hself]
      exact hpid
  · obtain ht | rfl := hcases t ht
    · obtain hp | rfl := hcases p hp
      · rw [hold t ht, hold p hp] at heq
        exact h.inj t ht p hp heq
      · rw [hold t ht, hself] at heq
        exact absurd heq (pid2task_none hnew ht)
    · obtain hp | rfl := hcases p hp
      · rw [hold p hp, hself] at heq
        exact absurd heq.symm (pid2task_none hnew hp)
      · rfl

/-- No task gets another pid. -/
theorem pid_of_change (hc : Change s s') (ht : t < s.next) :
    (s'.task t).pid = (s.task t).pid := by
  have hset : ∀ (s : State) (p : TaskId) (f : Task → Task), (∀ k, (f k).pid = k.pid) →
      ((s.setTask p f).task t).pid = (s.task t).pid :=
    fun s p f hf => setTask_field Task.pid (hf _) t
  cases hc with
  | alike ha =>
    have hcore := congrArg Task.pid (ha.task t)
    exact hcore
  | created pid leader =>
    obtain ⟨threads, h⟩ := created_task_of_lt pid leader ht
    rw [h]
  | marked | took | queued | dequeued | joined | released | handles | handled => rfl
  | _ =>
    simp [State.setUp, State.arrived, State.continued, State.countStopped, State.setEvent,
      State.hit, State.deferredTo, State.adopted, State.announced, State.withdrawn, State.skipped,
      State.unskipped, State.pends, State.addedBp, State.removedBp, State.retired, State.unqueued,
      State.abandoned, hset]

theorem Distinct.change (h : Distinct s) (hs : Sane s) (hc : Change s s') : Distinct s' := by
  have hpid : ∀ t ∈ s.live, (s'.task t).pid = (s.task t).pid :=
    fun t ht => pid_of_change hc (hs.live t ht)
  cases hc with
  | created pid leader hne hnew => exact h.created hs hne hnew leader
  | retired t | abandoned t => exact h.same (fun p hp => List.mem_of_mem_erase hp) hpid
  | alike ha => exact h.same (fun p hp => ha.live ▸ hp) hpid
  | _ => exact h.same (fun p hp => hp) hpid

/-- There are fewer tasks than the counters can count. -/
theorem Distinct.length_lt (h : Distinct s) (hs : Sane s) : s.live.length < UInt32.size := by
  have hnodup : (s.live.map fun t => (s.task t).pid.toNat).Nodup := by
    refine hs.once.map_on fun t ht p hp heq => ?_
    exact h.inj t ht p hp (UInt32.toNat_inj.mp heq)
  have hsub : (s.live.map fun t => (s.task t).pid.toNat) ⊆ List.range' 1 (UInt32.size - 1) := by
    intro n hn
    obtain ⟨t, ht, rfl⟩ := List.mem_map.mp hn
    have hpos : 0 < (s.task t).pid.toNat :=
      Nat.pos_of_ne_zero fun h0 => h.ne_zero t ht (UInt32.toNat_inj.mp h0)
    have hlt := (s.task t).pid.toNat_lt
    rw [List.mem_range'_1]
    unfold UInt32.size
    omega
  have hle := (hnodup.subperm hsub).length_le
  rw [List.length_map, List.length_range'] at hle
  exact hle.trans_lt (Nat.sub_lt (by decide) Nat.one_pos)

/-! ## Whole runs -/

theorem groupAct_does {e : GroupStep} {rest : List BpId} (h : Idle rest s) :
    Does (groupAct e) s fun _ s' => Idle rest s' := by
  cases e with
  | main w e => exact act_does h
  | destroy t => exact (taskDestroy_does h.handling).mono fun _ _ _ _ h' => h.removes h'.1
  | detach leader => exact (detachProc_does h.handling).mono fun _ _ _ _ h' => h.removes h'
  | stop t => exact (stopThreads_does h.steady).mono fun _ _ _ _ h' => h.waits h'

/-- The states after any number of steps and calls. -/
abbrev GroupReached (inputs : List Input) : State → Prop :=
  Machine.Reach groupStep (fun _ _ => True) (.start inputs)

theorem GroupReached.sound (hr : GroupReached inputs s) :
    Changes (.start inputs) s ∧ Idle [] s := by
  refine Machine.Reach.invariant (P := fun s => Changes (.start inputs) s ∧ Idle [] s)
    ⟨.refl, rfl, .inl rfl⟩ (fun s e s' hP _ he => ?_) hr
  obtain ⟨hto, hidle⟩ := hP
  have hs : Sane s := sane_of_changes hto (start_sane inputs)
  have hdoes := groupAct_does (e := e) hidle hs
  unfold groupStep at he
  cases hact : groupAct e s with
  | error h s₁ =>
    rw [hact] at he
    cases he
  | ok u s₁ =>
    rw [hact] at he hdoes
    cases he
    exact ⟨hto.trans hdoes.1, hdoes.2⟩

/-- What holds of every state, in the middle of a step too. -/
theorem counted_of_changes (h : Changes (.start inputs) s) (hmark : .destroyedRunning ∉ s.marks) :
    Sane s ∧ Counted s ∧ Distinct s := by
  have hinv : Sane s ∧ Distinct s ∧ (.destroyedRunning ∉ s.marks → Counted s) := by
    refine keeps_of_change (I := fun s => Sane s ∧ Distinct s ∧
      (.destroyedRunning ∉ s.marks → Counted s)) (fun s s' hc hI => ?_) h ?_
    · obtain ⟨hs, hdistinct, hcounted⟩ := hI
      refine ⟨hs.change hc, hdistinct.change hs hc, fun hmark => ?_⟩
      exact (hcounted fun h => hmark (marks_of_change hc _ h)).change hs hc hmark
    · exact ⟨start_sane inputs, ⟨nofun, nofun⟩, fun _ => start_counted inputs⟩
  exact ⟨hinv.1, hinv.2.2 hmark, hinv.2.1⟩

theorem group_length (s : State) (l : TaskId) : (s.group l).length = s.count l fun _ => true := by
  unfold State.group State.count
  rw [← List.countP_eq_length_filter]
  exact List.countP_congr fun t _ => by simp

theorem group_stopped_length (s : State) (l : TaskId) :
    (s.group l).countP (fun t => (s.task t).stopped) = s.count l Task.stopped := by
  unfold State.group State.count
  rw [List.countP_filter]
  exact List.countP_congr fun t _ => by simp [and_comm]

/-- As long as no task is destroyed while it is running, `threads_stopped` is the number of stopped
tasks of the group and at most `threads`, and `stop_threads` has nothing to wait for exactly if
every task is stopped. -/
theorem threads_stopped_exact (hr : GroupReached inputs s) (hmark : .destroyedRunning ∉ s.marks)
    (l : TaskId) :
    (s.task l).threadsStopped.toNat = (s.group l).countP (fun t => (s.task t).stopped) ∧
      (s.task l).threadsStopped ≤ (s.task l).threads ∧
      ((s.task l).threads = (s.task l).threadsStopped ↔
        ∀ t ∈ s.group l, (s.task t).stopped = true) := by
  obtain ⟨hs, hcounted, hdistinct⟩ := counted_of_changes hr.sound.1 hmark
  have hlt := hdistinct.length_lt hs
  have hgroup : (s.group l).length < UInt32.size := (List.length_filter_le _ _).trans_lt hlt
  have hle : (s.group l).countP (fun t => (s.task t).stopped) ≤ (s.group l).length :=
    List.countP_le_length
  have hthreads : (s.task l).threads.toNat = (s.group l).length := by
    rw [hcounted.threads, ← group_length]
    exact UInt32.toNat_ofNat_of_lt' hgroup
  have hstopped : (s.task l).threadsStopped.toNat =
      (s.group l).countP (fun t => (s.task t).stopped) := by
    rw [hcounted.stopped, ← group_stopped_length]
    exact UInt32.toNat_ofNat_of_lt' (hle.trans_lt hgroup)
  refine ⟨hstopped, ?_, ?_⟩
  · rw [UInt32.le_iff_toNat_le, hstopped, hthreads]
    exact hle
  · rw [← UInt32.toNat_inj, hstopped, hthreads, eq_comm, List.countP_eq_length]

/-- A process with two threads, both of which go on. -/
def twoThreads : List GroupStep :=
  [.main .plain (.attach 100 [101] (some .bare)), .main .plain (.event {}),
    .main .plain (.event {})]

def twoThreadsInputs : List Input := [.wait (.first 100), .wait (.first 101)]

theorem threads_stopped_exact_two : ∃ s, GroupReached twoThreadsInputs s ∧
    (s.group 0).length = 2 ∧ (s.task 0).threadsStopped ≤ (s.task 0).threads := by
  obtain ⟨s, hr, hs⟩ : ∃ s, GroupReached twoThreadsInputs s ∧
      (s.marks, (s.group 0).length) = ([], 2) :=
    Machine.reach_of_observed groupStep _ twoThreads (fun s => (s.marks, (s.group 0).length))
      (by decide +kernel)
  have hmark : .destroyedRunning ∉ s.marks := by
    rw [(Prod.mk.inj hs).1]
    exact List.not_mem_nil
  exact ⟨s, hr, (Prod.mk.inj hs).2, (threads_stopped_exact hr hmark 0).2.1⟩

/-- Without breakpoints `detach_proc` stops no thread, and `task_destroy` counts the second thread
as one that was stopped: the leader is left with more stopped threads than threads. -/
theorem threads_stopped_wraps : ∃ s, GroupReached (twoThreadsInputs ++ [.halted (.first 101)]) s ∧
    s.group 0 = [0] ∧ (s.task 0).stopped = false ∧ (s.task 0).threads = 1 ∧
    (s.task 0).threadsStopped = 0xffffffff := by
  obtain ⟨s, hr, hs⟩ : ∃ s, GroupReached (twoThreadsInputs ++ [.halted (.first 101)]) s ∧
      (s.group 0, (s.task 0).stopped, (s.task 0).threads, (s.task 0).threadsStopped) =
        ([0], false, 1, 0xffffffff) :=
    Machine.reach_of_observed groupStep _ (twoThreads ++ [.destroy 1])
      (fun s => (s.group 0, (s.task 0).stopped, (s.task 0).threads, (s.task 0).threadsStopped))
      (by decide +kernel)
  simp only [Prod.mk.injEq] at hs
  exact ⟨s, hr, hs⟩

end Mtrace.Tracer
