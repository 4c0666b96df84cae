import Mtrace.Machine
import Mtrace.Tracer.Handles
import Mtrace.Tracer.Loop

/-!
# What a run does

Every step of the main loop goes by changes from an idle state to an idle state, and so does every
run: what the changes keep holds in every state reached.
-/

namespace Mtrace.Tracer

open State Hoare

variable {w : World} {a : Answers} {s s' s'' : State} {t l n p : TaskId} {rest : List BpId}

theorem Idle.spares (h : Idle rest s) (h' : Spares s s') : Idle rest s' := h.removes h'.removes

theorem Idle.waits (h : Idle rest s) (h' : Waits s s') : Idle rest s' := h.removes h'.removes

/-! ## Commands -/

theorem startTrace_does (h : Idle rest s) : Does (startTrace l) s fun _ s' => Idle rest s' :=
  (breakpointEnableAllNonlocked_does h.steady).mono fun _ _ _ _ h' => h.waits h'

theorem resetBp_does (h : Idle rest s) : Does (taskResetBp t) s fun _ s' => Idle rest s' :=
  taskResetBp_does.mono fun _ _ _ _ h' => h.frame h'.frame (.inl h'.held)

theorem stopTrace_does (h : Idle rest s) : Does (stopTrace l) s fun _ s' => Idle rest s' := by
  unfold stopTrace
  refine (breakpointDisableAllNonlocked_does h.steady).bind fun _ s₁ _ h₁ => ?_
  refine Logic.Does.get_bind ?_
  refine Logic.Does.bind (Logic.Does.forM (J := Idle rest) (fun t _ s h => resetBp_does h)
    (h.waits h₁)) fun _ s₂ _ h₂ => resetBp_does h₂

theorem noteClosed_noted (ht : t ∈ s.live) (hexit : (s.task t).aboutExit = true) :
    Noted s (s.noteClosed t) :=
  (markIf_noted s _ .closedRunning fun hrun => ⟨t, ht, hexit, hrun⟩).trans (markIf_noted _ _ _)

/-- The end of `fix_about_exit`. -/
theorem release_does (h : Idle rest s) (ht : t ∈ s.live) (hexit : (s.task t).aboutExit = true)
    (hlost : s.unhandled t = true → .droppedEvent ∈ s.marks)
    (hrun : (s.task t).stopped = false → .closedRunning ∈ s.marks)
    (hheld : s.queue.linked t = true ∨ s.Parent t → .closedHeld ∈ s.marks) :
    Does (do modify (·.withdrawn t); continueTask t) s fun _ s' => Idle rest s' := by
  refine Logic.Does.changed_bind (Change.withdrawn t ht hexit hheld) ?_
  have htask : (s.withdrawn t).task t = { s.task t with aboutExit := false } :=
    setTask_task_self s t fun k => { k with aboutExit := false }
  have hunhandled : (s.withdrawn t).unhandled t = s.unhandled t := by
    unfold State.unhandled
    rw [htask]
    rfl
  by_cases hstopped : (s.task t).stopped = true
  · have hidle : Idle rest (s.withdrawn t) := ⟨h.handling, h.held⟩
    have howned : t ∈ (s.withdrawn t).owned := by
      unfold State.withdrawn
      rw [if_pos hstopped]
      exact List.mem_cons_self
    exact (continueTask_does (fun _ => howned) fun _ h => hlost (hunhandled ▸ h)).mono
      fun _ s' _ _ h' => hidle.works h'.1
  · -- the assertion of `continue_task` fails
    rw [Bool.not_eq_true] at hstopped
    have hmark : .closedRunning ∈ (s.withdrawn t).marks := hrun hstopped
    refine continueRunning_does (fun _ => ?_) rfl hmark
    rw [htask]
    exact hstopped

theorem fixAboutExit_does (h : Idle rest s) :
    Does (fixAboutExit t) s fun _ s' => Idle rest s' := by
  unfold fixAboutExit
  refine does_getTask fun ht => ?_
  split_ifs with hexit
  swap
  · exact Logic.Does.pure h
  have hclosed := noteClosed_noted ht hexit
  refine Logic.Does.modified_bind hclosed.changes ?_
  have hdropped := noteDropped_noted (s.noteClosed t) t
  refine Logic.Does.modified_bind hdropped.changes ?_
  have hlost := mem_noteDropped (s := s.noteClosed t) (t := t)
  have hnoted := hclosed.trans hdropped
  have hrun : (s.task t).stopped = false →
      .closedRunning ∈ ((s.noteClosed t).noteDropped t).marks :=
    fun h => hdropped.marks ((markIf_noted _ _ _).marks (mem_markIf s _ h))
  have hheld : s.queue.linked t = true ∨ s.Parent t →
      .closedHeld ∈ ((s.noteClosed t).noteDropped t).marks :=
    fun h => hdropped.marks (mem_markIf (s.markIf _ _) _ h)
  generalize (s.noteClosed t).noteDropped t = s₁ at hnoted hlost hrun hheld ⊢
  have hparent := hnoted.parent t
  refine release_does (h.waits hnoted.waits) (hnoted.live ▸ ht) ?_ hlost ?_ fun h => hheld ?_
  · rw [hnoted.task]
    exact hexit
  · rw [hnoted.task]
    exact hrun
  · rw [hnoted.queue, hparent] at h
    exact h

theorem eachProcess_does {cb : TaskId → Act Unit}
    (hcb : ∀ t s, Idle rest s → Does (cb t) s fun _ s' => Idle rest s') (h : Idle rest s) :
    Does (eachProcess cb) s fun _ s' => Idle rest s' := by
  unfold eachProcess
  exact Logic.Does.get_bind (Logic.Does.forM (J := Idle rest)
    (fun t _ s h => does_touchLeaders (hcb t s h)) h)

theorem serverClose_does (h : Idle rest s) : Does serverClose s fun _ s' => Idle rest s' := by
  unfold serverClose
  refine (eachProcess_does (fun _ _ h => stopTrace_does h) h).bind fun _ s₁ _ h₁ => ?_
  exact Logic.Does.get_bind
    (Logic.Does.forM (J := Idle rest) (fun t _ s h => fixAboutExit_does h) h₁)

theorem says_reply (s : State) (t : TaskId) : (s.reply t).Says s := by
  unfold State.reply
  split_ifs <;> trivial

/-- `continue_task` of a task that the client asks for. -/
theorem takeStopped_does (h : Idle rest s) (ht : t ∈ s.live)
    (hlost : s.unhandled t = true → .droppedEvent ∈ s.marks)
    (hrun : (s.task t).stopped = false → .repliedRunning ∈ s.marks)
    (hspare : (s.task t).stopped = true →
      Spare s t ∨ ∃ m : Mark, m.takes = true ∧ m ∈ s.marks) :
    Does (do modify (·.takeStopped t); continueTask t) s fun _ s' => Idle rest s' := by
  by_cases hstopped : (s.task t).stopped = true
  · have heq : s.takeStopped t = s.take t := if_pos hstopped
    have hchange : Change s (s.takeStopped t) := heq ▸ .took t ht (hspare hstopped)
    refine Logic.Does.changed_bind hchange ?_
    rw [heq]
    have hidle : Idle rest (s.take t) := ⟨h.handling, h.held⟩
    exact (continueTask_does (s := s.take t) (fun _ => List.mem_cons_self) fun _ h => hlost h).mono
      fun _ s' _ _ h' => hidle.works h'.1
  · -- the assertion of `continue_task` fails
    rw [Bool.not_eq_true] at hstopped
    have heq : s.takeStopped t = s := if_neg (by rw [hstopped]; exact Bool.false_ne_true)
    have hgoes : (do modify (·.takeStopped t); continueTask t : Act Unit) s = continueTask t s := by
      show continueTask t (s.takeStopped t) = _
      rw [heq]
    exact Logic.Does.goes hgoes .refl
      (continueRunning_does (fun _ => hstopped) rfl (hrun hstopped))

/-- `MT_ABOUT_EXIT` for a leader. -/
theorem aboutExit_does (ht : t ∈ s.live) (h : Idle rest s) :
    Does (operate t .aboutExit) s fun _ s' => Idle rest s' := by
  unfold operate
  have h₁ : Idle rest (s.mark (s.reply t)) := h.waits (mark_waits s _)
  refine Logic.Does.changed_bind (Change.marked (s.reply t) (says_reply s t)) ?_
  have hdropped := noteDropped_noted (s.mark (s.reply t)) t
  refine Logic.Does.modified_bind hdropped.changes ?_
  have hlost := mem_noteDropped (s := s.mark (s.reply t)) (t := t)
  have hmark := hdropped.marks (m := s.reply t) List.mem_cons_self
  have h₂ := h₁.waits hdropped.waits
  have hparent := hdropped.parent t
  have htask := hdropped.task
  have hqueue := hdropped.queue
  have hlive := hdropped.live
  generalize (s.mark (s.reply t)).noteDropped t = s₂ at hlost hmark h₂ hparent htask hqueue hlive ⊢
  refine takeStopped_does h₂ (hlive ▸ ht) hlost (fun hrun => ?_) fun hrun => ?_
  · have hreply : s.reply t = .repliedRunning := if_pos (htask ▸ hrun)
    exact hreply ▸ hmark
  · unfold State.reply at hmark
    split_ifs at hmark with hstopped hheld hexit
    · rw [htask] at hrun
      exact absurd (hstopped.symm.trans hrun) Bool.noConfusion
    · exact .inr ⟨_, rfl, hmark⟩
    · rw [not_or, Bool.not_eq_true] at hheld
      exact .inl ⟨hrun, hqueue ▸ hheld.1, fun h => hheld.2 (hparent.mp h), fun _ => hmark⟩
    · rw [not_or, Bool.not_eq_true] at hheld
      refine .inl ⟨hrun, hqueue ▸ hheld.1, fun h => hheld.2 (hparent.mp h), fun h => ?_⟩
      rw [htask] at h
      exact absurd h hexit

theorem operate_does {op : Operation} (ht : t ∈ s.live) (h : Idle rest s) :
    Does (operate t op) s fun _ s' => Idle rest s' := by
  cases op with
  | scan => exact (stopThreads_does h.steady).mono fun _ _ _ _ h' => h.waits h'
  | start => exact startTrace_does h
  | stop => exact stopTrace_does h
  | detach => exact (detachProc_does h.handling).mono fun _ _ _ _ h' => h.removes h'
  | aboutExit => exact aboutExit_does ht h

theorem serverHandleCommand_does {pid : UInt32} {op : Operation} (h : Idle rest s) :
    Does (serverHandleCommand pid op) s fun _ s' => Idle rest s' := by
  unfold serverHandleCommand
  refine Logic.Does.get_bind ?_
  cases hfind : s.pid2task pid with
  | none => exact Logic.Does.pure h
  | some t =>
    dsimp only
    split_ifs
    · exact operate_does (pid2task_mem hfind) h
    · exact Logic.Does.pure h

/-! ## The first tasks -/

/-- A task that stopped for the first time. -/
structure Waited (t : TaskId) (s s' : State) : Prop where
  works : Works t s s'
  owned : t ∈ s'.owned
  stopped : (s'.task t).stopped = true
  event : (s'.task t).event ≠ .none

theorem traceWait_does {pid : UInt32} {signum : ℕ} (ht : Newborn t s) :
    Does (traceWait t pid signum) s fun r s' =>
      Works t s s' ∧ Tried t s' ∧ (r = true → Waited t s s') := by
  refine Logic.Does.inv fun hs => ?_
  unfold traceWait
  refine does_nextInput fun i inputs => ?_
  have hin := (inputs_waits s inputs).works hs ht.live
  have ht₁ : Newborn t { s with inputs } := { ht with }
  cases i with
  | lost => exact Logic.Does.pure ⟨hin, ht₁.tried, nofun⟩
  | wait r =>
    dsimp only
    split_ifs
    · refine (traceSetup_does ht₁).bind fun got s₁ _ h₁ => ?_
      have hworks := hin.trans h₁.1
      cases got with
      | false => exact Logic.Does.pure ⟨hworks, h₁.2.1, nofun⟩
      | true =>
        obtain ⟨howned, hstopped, hevent⟩ := h₁.2.2 rfl
        exact Logic.Does.pure ⟨hworks, h₁.2.1, fun _ => ⟨hworks, howned, hstopped, hevent⟩⟩
    · exact Logic.Does.throw (.inl trivial)
  | _ => exact Logic.Does.throw (.inl trivial)

theorem deleteTask_does (ht : Tried t s) (h : Idle rest s) :
    Does (deleteTask t) s fun _ s' => Idle rest s' := by
  unfold deleteTask
  refine does_getTask fun _ => ?_
  split_ifs with hleader
  · have hnoted := markIf_noted s (s.Parent t) .destroyedParent
    refine Logic.Does.modified_bind hnoted.changes ?_
    have hparent : s.Parent t → .destroyedParent ∈ (s.markIf (s.Parent t) .destroyedParent).marks :=
      mem_markIf s _
    generalize s.markIf (s.Parent t) .destroyedParent = s₁ at hnoted hparent ⊢
    have h₁ := h.waits hnoted.waits
    have hchange : Change s₁ (s₁.abandoned t) := by
      refine .abandoned t (hnoted.live ▸ ht.live) ?_ (fun p hp hl => ?_) ?_ ?_ ?_
        fun h => hparent ((hnoted.parent t).mp h)
      · rw [hnoted.task, hleader]
      · rw [hnoted.task] at hl
        exact ht.alone p (hnoted.live ▸ hp) hl
      · rw [hnoted.task]
        exact ht.event
      · rw [hnoted.task]
        exact ht.skipBp
      · rw [hnoted.owned, hnoted.task]
        exact ht.free
    exact Logic.Does.changed hchange ⟨h₁.handling, h₁.held⟩
  · exact Logic.Does.throw (.inl trivial)

theorem openOnePid_does {pid tgid : UInt32} (hpid : pid ≠ 0) (hnew : s.pid2task pid = none)
    (h : Idle rest s) : Does (openOnePid pid tgid) s fun r s' =>
      Idle rest s' ∧ ∀ t, r = some t → t < s'.next := by
  refine Logic.Does.inv fun hs => ?_
  unfold openOnePid
  refine (taskNew_does hpid hnew).bind fun r s₁ hto₁ h₁ => ?_
  have hs₁ := sane_of_changes hto₁ hs
  have hidle₁ := h.waits h₁.1
  cases r with
  | none => exact Logic.Does.pure ⟨hidle₁, nofun⟩
  | some t =>
    have hborn := (h₁.2.2 t rfl).1
    refine (traceWait_does hborn).bind fun got s₂ _ h₂ => ?_
    obtain ⟨hworks₂, htried, hwaited⟩ := h₂
    have hidle₂ := hidle₁.works hworks₂
    cases got with
    | false =>
      exact (deleteTask_does htried hidle₂).bind fun _ s₃ _ h₃ => Logic.Does.pure ⟨h₃, nofun⟩
    | true =>
      obtain ⟨-, howned, hstopped, hevent⟩ := hwaited rfl
      refine (queueEvent_does howned hstopped hevent).bind fun _ s₃ _ h₃ =>
        Logic.Does.pure ⟨hidle₂.works h₃.2, fun p hp => ?_⟩
      cases hp
      exact (hs₁.live t hborn.live).trans_le (hworks₂.frame.next.trans h₃.2.frame.next)

theorem openThread_does {pid tgid : UInt32} (h : Idle rest s) :
    Does (openThread tgid pid) s fun _ s' => Idle rest s' := by
  unfold openThread
  refine Logic.Does.get_bind ?_
  split_ifs with hknown
  · exact Logic.Does.pure h
  · rw [not_or] at hknown
    refine (openOnePid_does hknown.1 (Option.not_isSome_iff_eq_none.mp hknown.2) h).bind
      fun _ s₁ _ h₁ => Logic.Does.pure h₁.1

/-- `open_pid`. -/
theorem openPid_does {pid : UInt32} {tids : List UInt32} {setup : Option Setup} (h : Idle rest s) :
    Does (openPid w pid tids setup) s fun _ s' => Idle rest s' := by
  unfold openPid
  refine Logic.Does.get_bind ?_
  split_ifs with hknown
  · exact Logic.Does.pure h
  rw [not_or] at hknown
  refine (openOnePid_does hknown.1 (Option.not_isSome_iff_eq_none.mp hknown.2) h).bind
    fun r s₁ _ h₁ => ?_
  cases r with
  | none => exact Logic.Does.pure h₁.1
  | some leader =>
    have hlt := h₁.2 leader rfl
    refine Logic.Does.bind (Logic.Does.forM (J := Idle rest) (fun t _ s h => openThread_does h)
      h₁.1) fun _ s₂ hto₂ h₂ => ?_
    have hlt₂ := hlt.trans_le (next_of_changes hto₂)
    cases setup with
    | none => exact (removeProc_does h₂.handling).mono fun _ _ _ _ h' => h₂.removes h'.1
    | some setup =>
      refine (leaderSetup_does h₂.steady hlt₂).bind fun _ s₃ _ h₃ => ?_
      refine Logic.Does.get_bind (Logic.Does.inv fun hs₃ => ?_)
      refine (Logic.Does.forM (J := fun s' => Idle rest s' ∧ s₃.next ≤ s'.next)
        (fun t ht s₄ h₄ => ?_)
        ⟨h₂.spares h₃, le_rfl⟩).mono fun _ _ _ _ h => h.1
      have hlt₄ := (hs₃.live t (List.mem_of_mem_filter ht)).trans_le h₄.2
      have halike : Alike s₄ (s₄.setTask t fun k =>
          { k with is64bit := (s₃.task leader).is64bit }) := alike_setTask hlt₄ rfl
      exact Logic.Does.changed (.alike halike) ⟨h₄.1.waits halike.waits.1, h₄.2⟩

/-- `task_create`. -/
theorem taskCreate_does {pid : UInt32} {setup : Option Setup} {started : Bool} (h : Idle rest s) :
    Does (taskCreate w a pid setup started) s fun _ s' => Idle rest s' := by
  have hexit : ∀ {t : TaskId} {s : State}, Idle rest s → Does (do removeProc t; throw .exit) s
      fun (_ : Unit) s' => Idle rest s' :=
    fun h => (removeProc_does h.handling).bind fun _ _ _ _ => Logic.Does.throw (.inl trivial)
  refine Logic.Does.inv fun hs => ?_
  unfold taskCreate
  refine Logic.Does.get_bind ?_
  by_cases hknown : pid = 0 ∨ (s.pid2task pid).isSome
  · rw [if_pos hknown]
    exact Logic.Does.throw (.inl trivial)
  rw [if_neg hknown]
  rw [not_or] at hknown
  refine (taskNew_does hknown.1 (Option.not_isSome_iff_eq_none.mp hknown.2)).bind
    fun r s₁ hto₁ h₁ => ?_
  have hs₁ := sane_of_changes hto₁ hs
  have hidle₁ := h.waits h₁.1
  cases r with
  | none => exact Logic.Does.throw (.inl trivial)
  | some t =>
    have hborn := (h₁.2.2 t rfl).1
    refine (traceWait_does hborn).bind fun got s₂ hto₂ h₂ => ?_
    obtain ⟨hworks₂, htried, hwaited⟩ := h₂
    have hs₂ := sane_of_changes hto₂ hs₁
    have hidle₂ := hidle₁.works hworks₂
    have ht₂ := hworks₂.still.live t hborn.live
    cases got with
    | false =>
      exact (deleteTask_does htried hidle₂).bind fun _ _ _ _ => Logic.Does.throw (.inl trivial)
    | true =>
      obtain ⟨-, howned, hstopped, -⟩ := hwaited rfl
      cases setup with
      | none => exact hexit hidle₂
      | some setup =>
        refine (leaderSetup_does hidle₂.steady (hs₂.live t ht₂)).bind fun _ s₃ _ h₃ => ?_
        refine (handleEvent_does (hidle₂.spares h₃)
          ((h₃.same hs₂ ht₂).owned hstopped howned)).bind fun _ s₄ _ h₄ => ?_
        cases started with
        | true => exact Logic.Does.pure h₄
        | false => exact hexit h₄

/-! ## Steps and runs -/

theorem mtraceExit_does (h : Idle rest s) : Does mtraceExit s fun _ s' => Idle rest s' := by
  unfold mtraceExit
  refine (eachProcess_does (fun t s h => ?_) h).bind fun _ s₁ _ h₁ => ?_
  · exact (stopThreads_does h.steady).mono fun _ _ _ _ h' => h.waits h'
  refine (eachProcess_does (fun t s h => ?_) h₁).bind fun _ s₂ _ h₂ => ?_
  · exact (removeProc_does h.handling).mono fun _ _ _ _ h' => h.removes h'.1
  refine Logic.Does.get_bind (Logic.Does.forM (J := Idle rest) (fun t _ s h => ?_) h₂)
  exact (taskDestroy_does h.handling).mono fun _ _ _ _ h' => h.removes h'.1

/-- Every step goes by changes from an idle state to an idle state. -/
theorem act_does {e : Step} (h : Idle rest s) : Does (act w e) s fun _ s' => Idle rest s' := by
  cases e with
  | event a =>
    refine (nextEvent_does h.steady).bind fun r s₁ hto₁ h₁ => ?_
    obtain ⟨hhandling, hheld, howned⟩ := h₁
    have hidle : Idle rest s₁ := by
      refine ⟨hhandling.trans h.handling, ?_⟩
      rw [hheld]
      exact h.held.imp_right (marks_of_changes hto₁)
    cases r with
    | none => exact Logic.Does.pure hidle
    | some t => exact handleEvent_does hidle (howned t rfl)
  | command pid op => exact serverHandleCommand_does h
  | accept => exact eachProcess_does (fun _ _ h => startTrace_does h) h
  | close => exact serverClose_does h
  | attach pid tids setup => exact openPid_does h
  | create pid setup a started => exact taskCreate_does h
  | exit => exact mtraceExit_does h

section Reached

variable {inputs : List Input} {h : Halt} {e : World × Step}

/-- The states after any number of steps. -/
abbrev Reached (inputs : List Input) : State → Prop :=
  Machine.Reach step (fun _ _ => True) (.start inputs)

theorem act_of_step_ok (he : step s e = .ok s') : act e.1 e.2 s = .ok () s' := by
  unfold step at he
  cases hact : act e.1 e.2 s with
  | ok u s₁ =>
    rw [hact] at he
    cases he
    rfl
  | error h s₁ =>
    rw [hact] at he
    cases he

theorem Reached.sound (hr : Reached inputs s) : Changes (.start inputs) s ∧ Idle [] s := by
  refine Machine.Reach.invariant (P := fun s => Changes (.start inputs) s ∧ Idle [] s)
    ⟨.refl, rfl, .inl rfl⟩ (fun s e s' hP _ he => ?_) hr
  obtain ⟨hto, hidle⟩ := hP
  have hs : Sane s := sane_of_changes hto (start_sane inputs)
  obtain ⟨hto', hidle'⟩ := (act_does hidle).of_ok hs (act_of_step_ok he)
  exact ⟨hto.trans hto', hidle'⟩

/-- A failure for good says something about the state it happens in, unless it is a minor one. -/
theorem Reached.fails (hr : Reached inputs s) (he : act e.1 e.2 s = .error h s') :
    Changes (.start inputs) s' ∧ (Minor h ∨ Fault h s') := by
  obtain ⟨hto, hidle⟩ := hr.sound
  have hs : Sane s := sane_of_changes hto (start_sane inputs)
  exact ((act_does hidle).of_error hs he).imp_left hto.trans

/-- The states between the steps, and those in which a step fails. -/
inductive Met (inputs : List Input) : Option Halt → State → Prop
  | reached {s : State} (hr : Reached inputs s) : Met inputs none s
  | failed {s s' : State} {h : Halt} {e : World × Step} (hr : Reached inputs s)
      (he : act e.1 e.2 s = .error h s') : Met inputs (some h) s'

theorem Met.changes {r : Option Halt} (hm : Met inputs r s) : Changes (.start inputs) s := by
  cases hm with
  | reached hr => exact hr.sound.1
  | failed hr he => exact (hr.fails he).1

theorem Met.fault (hm : Met inputs (some h) s) : Minor h ∨ Fault h s := by
  cases hm with
  | failed hr he => exact (hr.fails he).2

end Reached

/-! ## Concrete runs -/

/-- Every breakpoint sits in the text, on an instruction of its own. -/
def World.plain : World where
  nohwbp := false
  nocpp := true
  follow := true
  followExec := true
  logfile := false
  connected _ := true
  sw _ _ := true
  breakInsn _ _ := false
  reorders _ _ := false

/-- A task of the process 100 stops, or has the address of a breakpoint. -/
def Wait.stop (pid : UInt32) (sig : ℕ) (ev : PtraceEvent) (trap : UInt64) : Wait :=
  { pid, status := .stopped sig ev, own := true, tgid := 100, newTgid := 100, trap }

/-- The first stop of a task. -/
def Wait.first (pid : UInt32) : Wait := .stop pid sigstop .none 0

/-- The end of a task. -/
def Wait.killed (pid : UInt32) : Wait := { pid, status := .signaled }

/-- A process without libraries. -/
def Setup.bare : Setup := ⟨true, [], .none⟩

/-- A process with one traced function. -/
def Setup.traced (addr : UInt64) : Setup := ⟨true, [[(addr, ⟨true, true⟩)]], .none⟩

end Mtrace.Tracer
