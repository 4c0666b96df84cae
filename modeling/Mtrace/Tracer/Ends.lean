import Mtrace.Tracer.Steps

/-!
# What the end of a task does

A task that is destroyed leaves its references behind, and `task_destroy` gives them up one after
the other.  No breakpoint event is being handled meanwhile. -/

namespace Mtrace.Tracer

open State Hoare

variable {w : World} {s s' s'' : State} {t l p : TaskId} {b : BpId} {rest : List BpId}

/-- Some tasks are gone, and nothing was done to the others that were stopped. -/
structure Removes (s s' : State) : Prop where
  frame : Frame ∅ s s'
  held : s'.held = s.held

theorem Removes.refl (s : State) : Removes s s := ⟨.refl _ s, rfl⟩

theorem Removes.trans (h : Removes s s') (h' : Removes s' s'') : Removes s s'' :=
  ⟨h.frame.trans h'.frame, h'.held.trans h.held⟩

theorem Spares.removes (h : Spares s s') : Removes s s' := ⟨h.frame, h.held⟩

theorem Waits.removes (h : Waits s s') : Removes s s' := h.spares.removes

theorem Frame.idle {T : Set TaskId} (h : Frame T s s') (hidle : s.handling = none) :
    s'.handling = none :=
  h.handling.trans hidle

/-! ## Stopping and forgetting a task -/

theorem stopTask_does (hmark : (s.task t).stopped = false → .destroyedRunning ∈ s.marks) :
    Does (stopTask t) s fun _ s' => t ∈ s.live ∧ Works t s s' ∧
      ((s'.task t).stopped = true ∨ .destroyedRunning ∈ s'.marks) := by
  unfold stopTask
  refine does_getTask fun hlive => does_assert rfl fun _ => ?_
  split_ifs with hstopped
  · exact Logic.Does.pure ⟨hlive, .refl t s, .inl hstopped⟩
  have hmark := hmark (Bool.not_eq_true _ ▸ hstopped)
  refine does_nextInput fun i inputs => ?_
  have hin : Works t s { s with inputs } :=
    .rest rfl rfl rfl rfl (fun _ h _ => h) rfl rfl rfl fun _ h => h
  cases i with
  | lost => exact Logic.Does.pure ⟨hlive, hin, .inr hmark⟩
  | halted r =>
    refine Logic.Does.bind (Q := fun _ s' => Works t s s' ∧ .destroyedRunning ∈ s'.marks) ?_
      fun _ s₁ _ h => Logic.Does.pure ⟨hlive, h.1, .inr h.2⟩
    unfold _processEvent
    refine Logic.Does.changed_bind (Change.halted t hlive hmark)
      (classify_does.mono fun _ s' _ _ h => ?_)
    have hset := Works.setTask { s with inputs } t (f := fun k => { k with stopped := true })
      (fun _ => rfl) (fun _ h => h) (fun _ => rfl) (fun _ => rfl) fun _ => rfl
    have hworks := hin.trans (hset.trans h.2.works)
    exact ⟨hworks, hworks.frame.marks _ hmark⟩
  | _ => exact Logic.Does.throw (.inl trivial)

theorem retired_frame (s : State) (t : TaskId) : Frame {t} s (s.retired t) := by
  have h1 : Frame {t} s (s.setTask t fun k => { k with deleted := true }) :=
    .setTask s t (fun _ => rfl) fun _ h => h
  have h2 := Frame.setTask_same (s.setTask t fun k => { k with deleted := true }) (s.task t).leader
    (f := fun l => { l with threads := l.threads - 1, threadsStopped := l.threadsStopped - 1 })
    (fun _ => rfl) (fun _ => rfl) (fun _ => rfl) (fun _ => rfl) (fun _ => rfl) fun _ => rfl
  exact h1.trans (h2.weaken.trans
    (.rest rfl rfl (fun _ h => List.mem_of_mem_erase h) (fun _ h => .inl h) rfl fun _ h => h))

/-! ## Its references -/

theorem unqueued_frame (s : State) (t : TaskId) : Frame {t} s (s.unqueued t) := by
  have h := Frame.setTask { s with queue := s.queue.del t } t
    (f := fun k => { k with event := .none })
    (fun _ => rfl) fun _ h => h
  exact (Frame.queue s _).weaken.trans (h.trans ((Frame.drop _ t).trans
    (.rest rfl rfl (fun _ h => h) (fun _ h => .inl h) rfl fun _ h => h)))

theorem unqueued_task (s : State) (t : TaskId) :
    (s.unqueued t).task t = { s.task t with event := .none } :=
  setTask_task_self _ t fun k => { k with event := .none }

/-- A task that left the queue and the hands of the server. -/
structure Unqueued (t : TaskId) (s : State) : Prop where
  event : (s.task t).event = .none
  queue : s.queue.linked t = false
  owned : t ∉ s.owned

theorem unqueued_unqueued (s : State) (t : TaskId) : Unqueued t (s.unqueued t) := by
  refine ⟨?_, ?_, fun h => ((mem_drop_owned _ t t).mp h).2 rfl⟩
  · rw [unqueued_task]
  · have hself : (s.queue.del t).next (some t) = some t := Function.update_self _ _ _
    show decide ((s.queue.del t).next (some t) ≠ some t) = false
    rw [hself]
    exact decide_eq_false (not_not_intro rfl)

/-- What `task_reset_bp` does to its task, and to no other. -/
structure Resets (t : TaskId) (s s' : State) : Prop where
  frame : Frame {t} s s'
  live : s'.live = s.live
  held : s'.held = s.held
  task : s'.task t = { s.task t with skipBp := none, breakpoint := none }
  queue : s'.queue = s.queue
  owned : s'.owned = s.owned

theorem putEvent_does (hidle : s.handling = none) (ht : t ∈ s.live) :
    Does (putEvent t) s fun _ s' => Frame {t} s s' ∧ s'.live = s.live ∧ s'.held = s.held ∧
      s'.task t = { s.task t with event := .none } ∧ Unqueued t s' := by
  unfold putEvent
  refine Logic.Does.get_bind ?_
  have hhandling : s.handling.map Prod.fst ≠ some t := by
    rw [hidle]
    exact nofun
  refine Logic.Does.changed_bind (Change.unqueued t ht hhandling) ?_
  have hunqueued := unqueued_unqueued s t
  cases hevent : (s.task t).event.bp with
  | none =>
    refine Logic.Does.pure ⟨unqueued_frame s t, rfl, ?_, unqueued_task s t, hunqueued⟩
    show (s.task t).event.bp.toList ++ s.held = s.held
    rw [hevent]
    rfl
  | some b =>
    have hheld : (s.unqueued t).held = b :: s.held := by
      show (s.task t).event.bp.toList ++ s.held = b :: s.held
      rw [hevent]
      rfl
    refine (breakpointPut_does (hheld ▸ List.mem_cons_self)).mono fun _ s' _ _ h => ?_
    subst h
    refine ⟨(unqueued_frame s t).trans (released_frame _ b).weaken, rfl, ?_, unqueued_task s t,
      hunqueued.event, hunqueued.queue, hunqueued.owned⟩
    exact (congrArg (List.erase · b) hheld).trans (List.erase_cons_head b s.held)

theorem unskipped_frame (s : State) (t : TaskId) (b : BpId) : Frame {t} s (s.unskipped t b) := by
  have h : Frame {t} s (s.setTask t fun k => { k with skipBp := none }) :=
    .setTask s t (fun _ => rfl) fun _ h => h
  exact h.trans (.rest rfl rfl (fun _ h => h) (fun _ h => .inl h) rfl fun _ h => h)

/-- `task_reset_bp` gives up the reference it takes away. -/
theorem taskResetBp_does : Does (taskResetBp t) s fun _ s' => Resets t s s' := by
  unfold taskResetBp
  refine Logic.Does.get_bind ?_
  have hunpends : ∀ s₁ : State,
      Frame {t} s₁ (s₁.setTask t fun k => { k with breakpoint := none }) :=
    fun s₁ => .setTask s₁ t (fun _ => rfl) fun _ h => h
  cases hskip : (s.task t).skipBp with
  | none =>
    refine Logic.Does.changed (Change.unpends t) ⟨hunpends s, rfl, rfl, ?_, rfl, rfl⟩
    rw [setTask_task_self, ← hskip]
  | some b =>
    refine Logic.Does.changed_bind (Change.unskipped t b hskip) ?_
    refine (breakpointPut_does (s := s.unskipped t b) List.mem_cons_self).bind fun _ s₁ _ h₁ => ?_
    subst h₁
    refine Logic.Does.changed (Change.unpends t) ⟨?_, rfl, ?_, ?_, rfl, rfl⟩
    · exact (unskipped_frame s t b).trans ((released_frame _ b).weaken.trans (hunpends _))
    · exact List.erase_cons_head b s.held
    · rw [setTask_task_self]
      have htask : ((s.unskipped t b).released b).task t = { s.task t with skipBp := none } :=
        setTask_task_self s t fun k => { k with skipBp := none }
      rw [htask]

/-! ## The end of a process -/

theorem leaderCleanup_does (hidle : s.handling = none) (hl : l < s.next)
    (hhead : (s.task l).leader = l) : Does (leaderCleanup l) s fun _ s' => Spares s s' := by
  unfold leaderCleanup
  refine (breakpointClearAll_does (steady_of_none hidle) hl hhead).bind fun _ s₁ _ h₁ => ?_
  refine Logic.Does.get_bind (does_touchLeaders ?_)
  have halike : Alike s₁ { s₁ with leaders := s₁.leaders.erase l } :=
    ⟨fun _ => rfl, fun _ _ => rfl, fun _ => rfl, fun _ _ => rfl, rfl, rfl, rfl, rfl, rfl, rfl, rfl,
      rfl⟩
  exact Logic.Does.changed (.alike halike) (h₁.trans halike.waits.1.spares)

theorem cleanupLast_does (hidle : s.handling = none) (hl : l < s.next)
    (hhead : (s.task l).leader = l) : Does (cleanupLast l) s fun _ s' => Spares s s' := by
  unfold cleanupLast
  refine Logic.Does.get_bind ?_
  split_ifs
  · exact leaderCleanup_does hidle hl hhead
  · exact Logic.Does.pure (.refl s)

/-- `task_destroy`. -/
theorem taskDestroy_does (hidle : s.handling = none) :
    Does (taskDestroy t) s fun _ s' => Removes s s' ∧ t ∉ s'.live := by
  refine Logic.Does.inv fun hs => ?_
  unfold taskDestroy
  refine does_getTask fun hlive => ?_
  rw [hs.alive t hlive, if_neg Bool.false_ne_true]
  have hlt := hs.live t hlive
  have hmark := markIf_waits s ((s.task t).stopped = false) .destroyedRunning
  refine Logic.Does.modified_bind (markIf_changes _ _ _) ?_
  refine (stopTask_does fun h => ?_).bind fun _ s₁ _ h₁ => ?_
  · rw [markIf_task] at h
    exact mem_markIf s _ h
  obtain ⟨-, hworks, hstopped⟩ := h₁
  have hworks := (hmark.works hs hlive).trans hworks
  have hlive₁ := hworks.still.live t hlive
  refine (putEvent_does (hworks.frame.idle hidle) hlive₁).bind fun _ s₂ hto₂ h₂ => ?_
  obtain ⟨hframe₂, hlive₂, hheld₂, htask₂, hunqueued⟩ := h₂
  have hframe₂ := hworks.frame.trans hframe₂
  refine taskResetBp_does.bind fun _ s₃ hto₃ h₃ => ?_
  have hframe₃ := hframe₂.trans h₃.frame
  have hlive₃ : t ∈ s₃.live := by
    rw [h₃.live, hlive₂]
    exact hlive₁
  have hnoted := markIf_noted s₃ (s₃.Parent t) .destroyedParent
  refine Logic.Does.modified_bind hnoted.changes ?_
  have hparent : s₃.Parent t →
      .destroyedParent ∈ (s₃.markIf (s₃.Parent t) .destroyedParent).marks :=
    mem_markIf s₃ _
  generalize s₃.markIf (s₃.Parent t) .destroyedParent = s₄ at hnoted hparent ⊢
  have hchange : Change s₄ (s₄.retired t) := by
    refine .retired t (hnoted.live ▸ hlive₃) ?_ ?_ ?_ ?_ ?_ fun h =>
      hparent ((hnoted.parent t).mp h)
    · rw [hnoted.task, h₃.task, htask₂]
      exact hstopped.imp_right (marks_of_changes ((hto₂.trans hto₃).trans hnoted.changes))
    · rw [hnoted.task, h₃.task]
      exact hunqueued.event
    · rw [hnoted.task, h₃.task]
    · rw [hnoted.queue, h₃.queue]
      exact hunqueued.queue
    · rw [hnoted.owned, h₃.owned]
      exact hunqueued.owned
  refine Logic.Does.inv fun hs₄ => Logic.Does.changed_bind hchange ?_
  have hgone : t ∉ (s₄.retired t).live := fun h => (hs₄.once.mem_erase_iff.mp h).1 rfl
  have hframe₄ := (hframe₃.trans hnoted.waits.frame.weaken).trans (retired_frame s₄ t)
  have hl := hs.leader t hlt
  refine (cleanupLast_does (hframe₄.idle hidle) (hl.trans_le hframe₄.next)
    ((hframe₄.leader _ hl).trans (hs.head t hlt))).bind fun _ s₅ _ h₅ => ?_
  have hgone₅ : t ∉ s₅.live := fun h => hgone (h₅.frame.live t (hlt.trans_le hframe₄.next) h)
  refine Logic.Does.get_bind (does_check_end (fun _ => .inl rfl) fun _ => ⟨⟨?_, ?_⟩, hgone₅⟩)
  · exact (hframe₄.trans h₅.frame.weaken).shrink fun _ h => absurd h hgone₅
  · exact h₅.held.trans (hnoted.waits.held.trans (h₃.held.trans (hheld₂.trans hworks.held)))

/-- A loop over the other tasks of a leader. -/
theorem eachOther_does {cb : TaskId → Act Unit} (fuel : ℕ) (o : Option TaskId)
    (hidle : s.handling = none)
    (hcb : ∀ t s, s.handling = none → Does (cb t) s fun _ s' => Removes s s') :
    Does (eachOther l cb fuel o) s fun _ s' => Removes s s' := by
  induction fuel generalizing s o with
  | zero =>
    cases o with
    | none => exact Logic.Does.pure (.refl s)
    | some t => exact Logic.Does.throw (.inl trivial)
  | succ fuel ih =>
    cases o with
    | none => exact Logic.Does.pure (.refl s)
    | some t =>
      refine Logic.Does.get_bind ((hcb t s hidle).bind fun _ s₁ _ h₁ => ?_)
      exact (ih _ (h₁.frame.idle hidle)).mono fun _ s₂ _ _ h₂ => h₁.trans h₂

theorem removeOthers_does (hidle : s.handling = none) :
    Does (removeOthers l) s fun _ s' => Removes s s' := by
  unfold removeOthers
  refine Logic.Does.get_bind (eachOther_does _ _ hidle fun _ _ hidle => ?_)
  exact (taskDestroy_does hidle).mono fun _ _ _ _ h => h.1

theorem removeProc_does (hidle : s.handling = none) :
    Does (removeProc l) s fun _ s' => Removes s s' ∧ l ∉ s'.live := by
  unfold removeProc
  refine does_getTask fun _ => does_assert rfl fun _ => ?_
  refine (stopThreads_does (steady_of_none hidle)).bind fun _ s₁ _ h₁ => ?_
  have hidle₁ := h₁.frame.idle hidle
  refine (breakpointDisableAll_does (steady_of_none hidle₁)).bind fun _ s₂ _ h₂ => ?_
  have h₂ := (h₁.trans h₂).removes
  refine (removeOthers_does (h₂.frame.idle hidle)).bind fun _ s₃ _ h₃ => ?_
  have h₃ := h₂.trans h₃
  refine Logic.Does.get_bind (does_assert rfl fun _ => ?_)
  exact (taskDestroy_does (h₃.frame.idle hidle)).mono fun _ s₄ _ _ h₄ => ⟨h₃.trans h₄.1, h₄.2⟩

theorem untraceProc_does (hidle : s.handling = none) :
    Does (untraceProc l) s fun _ s' => Removes s s' := by
  unfold untraceProc
  refine breakpointInvalidateAll_does.bind fun _ s₁ _ h₁ => ?_
  exact (removeProc_does (h₁.frame.idle hidle)).mono fun _ s₂ _ _ h₂ => h₁.removes.trans h₂.1

theorem detachProc_does (hidle : s.handling = none) :
    Does (detachProc l) s fun _ s' => Removes s s' := by
  unfold detachProc
  refine (breakpointDisableAll_does (steady_of_none hidle)).bind fun _ s₁ _ h₁ => ?_
  refine (removeOthers_does (h₁.frame.idle hidle)).bind fun _ s₂ _ h₂ => ?_
  have h₂ := h₁.removes.trans h₂
  exact (taskDestroy_does (h₂.frame.idle hidle)).mono fun _ s₃ _ _ h₃ => h₂.trans h₃.1

end Mtrace.Tracer
