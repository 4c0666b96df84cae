import Mtrace.Tracer.Roles

/-!
# Queued, announced and deferred tasks in whole runs

What `Roles` says about the event queue, about the leaders whose end was announced to the client,
and about the parents that deferred children point to: in every state between the steps, and where
a step fails.
-/

namespace Mtrace.Tracer

open State Hoare

variable {exits : Bool} {s s' : State} {t n : TaskId} {r : Option Halt} {inputs : List Input}

/-! ## The queue -/

theorem Roles.no_fault (h : Roles exits s) (hclean : s.Clean exits) {place : Place} {expr : String}
    (hplace : place = .queueEvent ∨ place = .handleEvent) : ¬ Fault (.assertion place expr) s := by
  obtain rfl | rfl := hplace
  · exact fun h => h
  · rintro (hmark | ⟨t, ht, hrun⟩)
    · exact Bool.false_ne_true ((hclean _ hmark).symm.trans rfl)
    · exact Bool.false_ne_true (hrun.symm.trans (h.owned t ht).1)

/-- Unless a task was released that was in another place, every queued task is there once, stopped
and with an event; none was continued, and the assertions about queued events hold. -/
theorem queue_sound (hm : Met inputs r s) (hclean : s.Clean false) :
    (∃ xs, s.queue.Represents xs ∧ ∀ t ∈ xs,
      t ∈ s.live ∧ (s.task t).stopped = true ∧ (s.task t).event ≠ .none) ∧
    .continuedQueued ∉ s.marks ∧
    ∀ expr, r ≠ some (.assertion .queueEvent expr) ∧ r ≠ some (.assertion .handleEvent expr) := by
  have hroles := roles_of_changes hm.changes hclean
  obtain ⟨xs, hxs⟩ := hroles.queue
  refine ⟨⟨xs, hxs, fun t ht => hroles.queued t (hxs.linked_iff.mpr ht)⟩, hroles.quiet.queued,
    fun expr => ⟨?_, ?_⟩⟩
  · rintro rfl
    obtain hminor | hfault := hm.fault
    · exact absurd hminor Bool.noConfusion
    · exact hroles.no_fault hclean (.inl rfl) hfault
  · rintro rfl
    obtain hminor | hfault := hm.fault
    · exact absurd hminor Bool.noConfusion
    · exact hroles.no_fault hclean (.inr rfl) hfault

theorem queue_sound_attach : ∃ s, Met [.wait (.first 100), .wait (.first 101)] none s ∧
    ∃ xs, s.queue.Represents xs ∧ ∀ t ∈ xs, (s.task t).event ≠ .none := by
  obtain ⟨s, hr, hs⟩ : ∃ s, Reached [.wait (.first 100), .wait (.first 101)] s ∧ s.marks = [] :=
    Machine.reach_of_observed step _ [(.plain, .attach 100 [101] (some .bare))]
      State.marks (by decide)
  have hclean : s.Clean false := by
    unfold State.Clean
    rw [hs]
    exact nofun
  obtain ⟨⟨xs, hxs, hqueued⟩, -⟩ := queue_sound (.reached hr) hclean
  exact ⟨s, .reached hr, xs, hxs, fun t ht => (hqueued t ht).2.2⟩

/-- The break instruction below a breakpoint: the task is queued after the single step, and
`skip_breakpoint` continues it. -/
theorem queue_breakInsn : ∃ s, Reached [.wait (.first 100), .wait (.stop 100 sigtrap .none 0x1000),
      .halted (.stop 100 sigtrap .none 0)] s ∧
    s.queue.linked 0 = true ∧ (s.task 0).stopped = false ∧ (s.task 0).event = .none ∧
    .continuedQueued ∈ s.marks := by
  let w : World := { World.plain with breakInsn := fun _ _ => true }
  obtain ⟨s, hr, hs⟩ := Machine.reach_of_observed step
    (.start [.wait (.first 100), .wait (.stop 100 sigtrap .none 0x1000),
      .halted (.stop 100 sigtrap .none 0)])
    [(w, .attach 100 [] (some (.traced 0x1000))), (w, .event {}), (w, .event {})]
    (fun s => (s.queue.linked 0, (s.task 0).stopped, (s.task 0).event,
      decide (.continuedQueued ∈ s.marks)))
    (a := (true, false, .none, true)) (by decide +kernel)
  simp only [Prod.mk.injEq, decide_eq_true_eq] at hs
  exact ⟨s, hr, hs⟩

/-! ## Leaders whose end was announced -/

/-- Unless a leader is released twice, it is stopped as long as its end is announced, and every task
is stopped when it is continued. -/
theorem announced_stopped (hm : Met inputs r s) (hclean : s.Clean true) :
    (∀ t ∈ s.live, (s.task t).aboutExit = true → (s.task t).stopped = true) ∧
    ∀ expr, r ≠ some (.assertion .continueTask expr) := by
  have hroles := roles_of_changes hm.changes hclean
  refine ⟨fun t ht hexit => (hroles.exit rfl t ht hexit).1, ?_⟩
  rintro expr rfl
  obtain hminor | hfault := hm.fault
  · exact absurd hminor Bool.noConfusion
  · obtain ⟨m, hruns, hmark⟩ | ⟨t, ht, hrun⟩ := hfault
    · cases m with
      | newUnexpected | repliedRunning =>
        exact Bool.false_ne_true ((hclean _ hmark).symm.trans rfl)
      | closedRunning => exact hroles.quiet.closed rfl hmark
      | _ => cases hruns
    · exact Bool.false_ne_true (hrun.symm.trans (hroles.owned t ht).1)

/-- A process whose end is announced. -/
def ending : List (World × Step) :=
  [(.plain, .attach 100 [] (some .bare)), (.plain, .event {}), (.plain, .event {})]

def endingInputs : List Input := [.wait (.first 100), .wait (.stop 100 sigtrap .exit 0)]

theorem announced_stopped_ending : ∃ s, Met endingInputs none s ∧
    (s.task 0).aboutExit = true ∧ (s.task 0).stopped = true := by
  obtain ⟨s, hr, hs⟩ : ∃ s, Reached endingInputs s ∧
      (s.marks, s.live, (s.task 0).aboutExit) = ([], [0], true) :=
    Machine.reach_of_observed step _ ending (fun s => (s.marks, s.live, (s.task 0).aboutExit))
      (by decide)
  simp only [Prod.mk.injEq] at hs
  obtain ⟨hmarks, hlive, hexit⟩ := hs
  have hclean : s.Clean true := by
    unfold State.Clean
    rw [hmarks]
    exact nofun
  have hmem : 0 ∈ s.live := hlive ▸ List.mem_cons_self
  exact ⟨s, .reached hr, hexit, (announced_stopped (.reached hr) hclean).1 0 hmem hexit⟩

/-- The client answers, and then the connection ends: the leader is running by then, but nothing
took the announcement back. -/
theorem announced_replied : ∃ s, Reached endingInputs s ∧
    (s.task 0).aboutExit = true ∧ (s.task 0).stopped = false ∧
    ∃ s', act .plain .close s = .error (.assertion .continueTask "task->stopped") s' := by
  obtain ⟨s, hr, hs⟩ := Machine.reach_of_observed step (.start endingInputs)
    (ending ++ [(.plain, .command 100 .aboutExit)])
    (fun s => ((s.task 0).aboutExit, (s.task 0).stopped,
      match act .plain .close s with
      | .error h _ => some h
      | .ok _ _ => none))
    (a := (true, false, some (.assertion .continueTask "task->stopped"))) (by decide +kernel)
  simp only [Prod.mk.injEq] at hs
  obtain ⟨hexit, hrun, hclose⟩ := hs
  refine ⟨s, hr, hexit, hrun, ?_⟩
  cases hact : act .plain .close s with
  | ok u s' =>
    rw [hact] at hclose
    cases hclose
  | error h s' =>
    rw [hact] at hclose
    exact ⟨s', by rw [Option.some.inj hclose]⟩

/-! ## Parents -/

/-- Every parent exists. -/
def Parents (s : State) : Prop := ∀ t, s.Parent t → t ∈ s.live

theorem Parents.same (h : Parents s) (hlive : ∀ n ∈ s'.live, n ∈ s.live)
    (hdeferred : ∀ n ∈ s.live, (s'.task n).deferred = (s.task n).deferred)
    (hstill : ∀ t ∈ s.live, s.Parent t → t ∈ s'.live) : Parents s' := by
  rintro t ⟨n, hn, hdef⟩
  have hpar : s.Parent t := ⟨n, hlive n hn, hdeferred n (hlive n hn) ▸ hdef⟩
  exact hstill t (h t hpar) hpar

theorem Parents.change (h : Parents s) (hs : Sane s) (hc : Change s s')
    (hmark : .destroyedParent ∉ s'.marks) : Parents s' := by
  have hset : ∀ (s : State) (p n : TaskId) (f : Task → Task),
      (∀ k, (f k).deferred = k.deferred) →
      ((s.setTask p f).task n).deferred = (s.task n).deferred :=
    fun s p n f hf => setTask_field Task.deferred (hf _) n
  cases hc with
  | alike ha =>
    have hcore : ∀ k : Task, k.core.deferred = k.deferred := fun _ => rfl
    refine h.same (fun n hn => ha.live ▸ hn) (fun n _ => ?_) fun t ht _ => ha.live ▸ ht
    rw [← hcore, ha.task, hcore]
  | created pid leader =>
    obtain ⟨threads, hnew⟩ := created_task_next s pid leader
    rintro t ⟨n, hn, hdef⟩
    obtain hn | hn := List.mem_append.mp hn
    · obtain ⟨threads, hold⟩ := created_task_of_lt pid leader (hs.live n hn)
      rw [hold] at hdef
      exact List.mem_append_left _ (h t ⟨n, hn, hdef⟩)
    · rw [List.mem_singleton.mp hn, hnew] at hdef
      cases hdef
  | deferredTo n t hn hne ht =>
    rintro p ⟨m, hm, hdef⟩
    have htask : ((s.deferredTo n t).task m).deferred =
        if m = n then some t else (s.task m).deferred := by
      unfold State.deferredTo
      rw [drop_task, setTask_task]
      split_ifs <;> rfl
    rw [htask] at hdef
    split_ifs at hdef with heq
    · exact Option.some.inj hdef ▸ ht
    · exact h p ⟨m, hm, hdef⟩
  | adopted n t hn =>
    rintro p ⟨m, hm, hdef⟩
    have htask : ((s.adopted n t).task m).deferred =
        if m = n then none else (s.task m).deferred := by
      unfold State.adopted
      rw [take_task, setTask_task]
      split_ifs <;> rfl
    rw [htask] at hdef
    split_ifs at hdef
    exact h p ⟨m, hm, hdef⟩
  | retired t ht hstopped hevent hskip hqueue howned hparent =>
    refine h.same (fun n hn => List.mem_of_mem_erase hn)
      (fun n _ => (role_inj (retired_role s t n)).2.2.2.1) fun p hp hpar => ?_
    refine (List.mem_erase_of_ne ?_).mpr hp
    rintro rfl
    exact hmark (hparent hpar)
  | abandoned t ht hleader halone hevent hskip hfree hparent =>
    refine h.same (fun n hn => List.mem_of_mem_erase hn)
      (fun n _ => by simp [State.abandoned, State.setEvent, hset]) fun p hp hpar => ?_
    refine (List.mem_erase_of_ne ?_).mpr hp
    rintro rfl
    exact hmark (hparent hpar)
  | marked | took | queued | dequeued | joined | released | handles | handled =>
    exact h.same (fun _ hn => hn) (fun _ _ => rfl) fun _ ht _ => ht
  | _ =>
    refine h.same (fun _ hn => hn) (fun n _ => ?_) fun _ ht _ => ht
    simp [State.setUp, State.arrived, State.continued, State.countStopped, State.setEvent,
      State.hit, State.announced, State.withdrawn, State.skipped, State.unskipped, State.pends,
      State.addedBp, State.removedBp, State.unqueued, hset]

theorem parents_of_changes (h : Changes (.start inputs) s) (hmark : .destroyedParent ∉ s.marks) :
    Parents s := by
  have hinv : Sane s ∧ (.destroyedParent ∉ s.marks → Parents s) := by
    refine keeps_of_change (I := fun s => Sane s ∧ (.destroyedParent ∉ s.marks → Parents s))
      (fun s s' hc hI => ?_) h ⟨start_sane inputs, fun _ _ ⟨_, hn, _⟩ => nomatch hn⟩
    obtain ⟨hs, hparents⟩ := hI
    refine ⟨hs.change hc, fun hmark => ?_⟩
    exact (hparents fun h => hmark (marks_of_change hc _ h)).change hs hc hmark
  exact hinv.2 hmark

/-- Unless a task is destroyed that waits for its child, or is released in the meantime, the parent
of a deferred task exists and is stopped. -/
theorem deferred_sound (hm : Met inputs r s) (hclean : s.Clean false)
    (hmark : .destroyedParent ∉ s.marks) :
    ∀ n ∈ s.live, ∀ t, (s.task n).deferred = some t →
      t ∈ s.live ∧ (s.task t).deleted = false ∧ (s.task t).stopped = true := by
  intro n hn t hdef
  have hpar : s.Parent t := ⟨n, hn, hdef⟩
  have hs : Sane s := sane_of_changes hm.changes (start_sane inputs)
  have ht := parents_of_changes hm.changes hmark t hpar
  exact ⟨ht, hs.alive t ht, ((roles_of_changes hm.changes hclean).parent t hpar).1⟩

/-- A thread forks, and the new process has not stopped yet. -/
def forking : List (World × Step) :=
  [(.plain, .attach 100 [101] (some .bare)), (.plain, .event {}), (.plain, .event {}),
    (.plain, .event {})]

def forkingInputs : List Input :=
  [.wait (.first 100), .wait (.first 101),
    .wait { Wait.stop 101 sigtrap (.child 102) 0 with newTgid := 102 }]

theorem deferred_sound_forking : ∃ s, Met forkingInputs none s ∧
    (s.task 2).deferred = some 1 ∧ (s.task 1).stopped = true := by
  obtain ⟨s, hr, hs⟩ : ∃ s, Reached forkingInputs s ∧
      (s.marks, s.live, (s.task 2).deferred) = ([], [0, 1, 2], some 1) :=
    Machine.reach_of_observed step _ forking (fun s => (s.marks, s.live, (s.task 2).deferred))
      (by decide +kernel)
  simp only [Prod.mk.injEq] at hs
  obtain ⟨hmarks, hlive, hdef⟩ := hs
  have hclean : s.Clean false := by
    unfold State.Clean
    rw [hmarks]
    exact nofun
  have hmark : .destroyedParent ∉ s.marks := hmarks ▸ List.not_mem_nil
  have hmem : 2 ∈ s.live := by
    rw [hlive]
    decide
  exact ⟨s, .reached hr, hdef, (deferred_sound (.reached hr) hclean hmark 2 hmem 1 hdef).2.2⟩

/-- The process of the parent is killed before the new process stops. -/
theorem deferred_killed : ∃ s, Reached (forkingInputs ++ [.wait (.killed 100)]) s ∧
    2 ∈ s.live ∧ (s.task 2).deferred = some 1 ∧ 1 ∉ s.live := by
  obtain ⟨s, hr, hs⟩ := Machine.reach_of_observed step
    (.start (forkingInputs ++ [.wait (.killed 100)])) (forking ++ [(.plain, .event {})])
    (fun s => (s.live, (s.task 2).deferred)) (a := ([2], some 1)) (by decide +kernel)
  simp only [Prod.mk.injEq] at hs
  obtain ⟨hlive, hdef⟩ := hs
  refine ⟨s, hr, ?_, hdef, ?_⟩
  all_goals
    rw [hlive]
    decide

end Mtrace.Tracer
