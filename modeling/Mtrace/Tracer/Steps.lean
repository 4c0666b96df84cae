import Mtrace.Tracer.Breakpoints

/-!
# What single steps and the end of a task do

A step over a breakpoint works on its task only, and leaves it without the event of the hit
(`Serves`).  A task that is destroyed is gone, so nothing is left that was worked on (`Removes`).
-/

namespace Mtrace.Tracer

open State Hoare

variable {w : World} {s s' s'' : State} {t l p : TaskId} {b : BpId} {rest : List BpId}

/-- Nothing was done to the other tasks that were stopped. -/
structure Serves (t : TaskId) (s s' : State) : Prop where
  frame : Frame {t} s s'
  live : ∀ p ∈ s.live, p ∈ s'.live
  held : s'.held = s.held

theorem Serves.refl (t : TaskId) (s : State) : Serves t s s := ⟨.refl _ s, fun _ h => h, rfl⟩

theorem Serves.trans (h : Serves t s s') (h' : Serves t s' s'') : Serves t s s'' :=
  ⟨h.frame.trans h'.frame, fun p hp => h'.live p (h.live p hp), h'.held.trans h.held⟩

theorem Spares.serves (h : Spares s s') : Serves t s s' := ⟨h.frame.weaken, h.live, h.held⟩

theorem Works.serves (h : Works t s s') : Serves t s s' := ⟨h.frame, h.still.live, h.held⟩

/-- The hit of a task is being handled. -/
def Hit (s : State) (t : TaskId) : Prop := s.handling.map Prod.fst = some t

theorem Hit.frame {T : Set TaskId} (h : Hit s t) (hf : Frame T s s') : Hit s' t := by
  unfold Hit
  rw [hf.handling]
  exact h

theorem Hit.not_unhandled (h : Hit s t) : ¬ s.unhandled t = true := by
  unfold State.unhandled
  unfold Hit at h
  rw [h]
  simp

theorem Hit.steady (h : Hit s t) (hstopped : (s.task t).stopped = true ∨ .skippedEntry ∈ s.marks) :
    Steady s := by
  intro p b hp _
  unfold Hit at h
  rw [hp] at h
  cases h
  exact hstopped

/-! ## Single steps -/

/-- A step left a task stopped: in the hands of the server, or with another event than a hit. -/
structure Stepped (t : TaskId) (ret : Bool) (s s' : State) : Prop where
  works : Works t s s'
  stopped : (s'.task t).stopped = true
  queued : ret = true → (s'.task t).event.isBreakpoint = false
  owned : ret = false → t ∈ s'.owned

theorem Stepped.after {ret : Bool} (h : Works t s s') (h' : Stepped t ret s' s'') :
    Stepped t ret s s'' :=
  ⟨h.trans h'.works, h'.stopped, h'.queued, h'.owned⟩

/-- The event of a step is queued. -/
theorem queueStep_does (ht : t ∈ s.owned) (hstopped : (s.task t).stopped = true)
    (hevent : (s.task t).event ≠ .none) (hbreak : (s.task t).event.isBreakpoint = false) :
    Does (do queueEvent t; return true : Act Bool) s fun ret s' => Stepped t ret s s' := by
  refine (queueEvent_does ht hstopped hevent).bind fun _ s₁ _ h₁ => ?_
  obtain ⟨rfl, hworks⟩ := h₁
  exact Logic.Does.pure ⟨hworks, hstopped, fun _ => hbreak, nofun⟩

theorem stepEvent_does {sig : ℕ} (ht : t ∈ s.owned) (hstopped : (s.task t).stopped = true)
    (hhit : Hit s t) (howner : (s.bp b).owner = (s.task t).leader) (hb : b < s.nextBp) :
    Does (stepEvent w t b sig) s fun ret s' => Stepped t ret s s' := by
  unfold stepEvent
  refine does_getTask fun hlive => does_assert rfl fun hevent => does_assert rfl fun hbreak => ?_
  have hevent : (s.task t).event ≠ .none := of_decide_eq_true hevent
  have hbreak : (s.task t).event.isBreakpoint = false := by simpa using hbreak
  have hqueue := queueStep_does ht hstopped hevent hbreak
  split
  · split_ifs
    · exact hqueue
    refine Logic.Does.get_bind ?_
    split_ifs
    · refine (queueEvent_does ht hstopped hevent).bind fun _ s₁ _ h₁ => ?_
      obtain ⟨rfl, hworks⟩ := h₁
      have hto : Changes (s.queued t) (((s.queued t).mark .breakInsn).take t) :=
        .head (.marked .breakInsn trivial)
          (.single (.took t hlive (.inr ⟨.breakInsn, rfl, List.mem_cons_self⟩)))
      refine Logic.Does.modified_bind hto (Logic.Does.pure ⟨?_, hstopped, nofun, fun _ => ?_⟩)
      · refine hworks.trans (.rest rfl rfl rfl rfl (fun p hp _ => ?_) rfl rfl rfl fun _ h => ?_)
        · exact List.mem_cons_of_mem t hp
        · exact List.mem_cons_of_mem _ h
      · exact List.mem_cons_self
    · refine Logic.Does.changed_bind (Change.event t (.breakpoint b) hlive nofun
        (fun h => absurd h hhit.not_unhandled) fun c hc => ?_) ?_
      · cases hc
        exact ⟨hhit, howner, hb⟩
      · refine Logic.Does.pure ⟨setEvent_works s t _, ?_, nofun, fun _ => ht⟩
        rw [setEvent_task]
        exact hstopped
  · exact hqueue

theorem handleSinglestep_does (ht : t ∈ s.owned) (hhit : Hit s t)
    (howner : (s.bp b).owner = (s.task t).leader) (hb : b < s.nextBp) :
    Does (handleSinglestep w t b) s fun ret s' => Stepped t ret s s' := by
  refine Logic.Does.inv fun hs => ?_
  unfold handleSinglestep
  refine does_getTask fun hlive => does_getBp fun _ => does_assert rfl fun hstopped =>
    does_assert rfl fun _ => does_assert rfl fun _ => ?_
  refine Logic.Does.changed_bind (Change.event t .none hlive (fun _ => ht)
    (fun h => absurd h hhit.not_unhandled) nofun) ?_
  refine does_nextInput fun i inputs => ?_
  have hworks : Works t s { s.setEvent t .none with inputs } :=
    (setEvent_works s t .none).trans ((inputs_waits _ inputs).works
      (hs.change (Change.event t .none hlive (fun _ => ht)
        (fun h => absurd h hhit.not_unhandled) nofun)) hlive)
  have htask : (State.task { s.setEvent t .none with inputs } t) =
      { s.task t with event := .none } := setEvent_task s t .none
  have hstopped₁ : (State.task { s.setEvent t .none with inputs } t).stopped = true := by
    rw [htask]
    exact hstopped
  have howned : t ∈ State.owned { s.setEvent t .none with inputs } := ht
  generalize State.mk _ _ _ _ _ _ _ inputs _ _ _ _ = s₁ at hworks htask hstopped₁ howned ⊢
  cases i with
  | stepFails =>
    refine Logic.Does.pure ⟨hworks, hstopped₁, fun _ => ?_, nofun⟩
    rw [htask]
    rfl
  | lost => exact Logic.Does.pure ⟨hworks, hstopped₁, nofun, fun _ => howned⟩
  | halted r =>
    refine Logic.Does.inv fun hs₁ => ?_
    have hlive₁ := hworks.still.live t hlive
    have halike : Alike s₁ (s₁.setTask t fun k => { k with stopped := true }) := by
      refine alike_setTask (hs₁.live t hlive₁) ?_
      rw [← hstopped₁]
    have hcalm := halike.waits
    have hworks₂ := hworks.trans (hcalm.1.works hs₁ hlive₁)
    have hstopped₂ :
        ((s₁.setTask t fun k => { k with stopped := true }).task t).stopped = true := by
      rw [setTask_task_self]
    have howned₂ : t ∈ (s₁.setTask t fun k => { k with stopped := true }).owned := howned
    have hclassify : Does (_processEvent t r) s₁ fun got s' => Works t s s' ∧
        (s'.task t).stopped = true ∧ t ∈ s'.owned := by
      unfold _processEvent
      refine Logic.Does.changed_bind (.alike halike) (classify_does.mono fun got s' _ _ h => ?_)
      exact ⟨hworks₂.trans h.2.works, h.2.stopped.trans hstopped₂, h.2.owned howned₂⟩
    refine hclassify.bind fun got s₃ _ h₃ => ?_
    obtain ⟨hworks₃, hstopped₃, howned₃⟩ := h₃
    cases got with
    | none => exact Logic.Does.pure ⟨hworks₃, hstopped₃, nofun, fun _ => howned₃⟩
    | some sig =>
      refine (stepEvent_does howned₃ hstopped₃ (hhit.frame hworks₃.frame) ?_ ?_).mono
        fun ret s' _ _ h => h.after hworks₃
      · rw [hworks₃.still.owner, hworks₃.frame.leader t (hs.live t hlive)]
        exact howner
      · rw [hworks₃.still.nextBp]
        exact hb
  | _ => exact Logic.Does.throw (.inl trivial)

/-- What is left of a hit that was skipped. -/
structure Skips (t : TaskId) (s s' : State) : Prop extends Serves t s s' where
  bpSkipped : (s'.task t).bpSkipped = (s.task t).bpSkipped
  event : (s'.task t).event.isBreakpoint = false

/-- `continue_task` for the task whose hit is handled. -/
theorem continueHit_does (ht : t ∈ s.owned) (hhit : Hit s t) :
    Does (continueTask t) s fun _ s' => Skips t s s' := by
  refine (continueTask_does (fun _ => ht) fun _ h => absurd h hhit.not_unhandled).mono
    fun _ s' _ _ h => ?_
  obtain ⟨hworks, -, hevent⟩ := h
  refine ⟨hworks.serves, hworks.kept.bpSkipped, ?_⟩
  rw [hevent]
  rfl

theorem Skips.after (h : Works t s s') (h' : Skips t s' s'') : Skips t s s'' :=
  ⟨h.serves.trans h'.toServes, h'.bpSkipped.trans h.kept.bpSkipped, h'.event⟩

theorem skipped_task (s : State) (t : TaskId) (b : BpId) :
    (s.skipped t b).task t = { s.task t with skipBp := some b } :=
  setTask_task_self _ t _

theorem skipped_serves (s : State) (t : TaskId) (b : BpId) : Serves t s (s.skipped t b) := by
  have hcount : Frame {t} s (s.setBp b fun bp => { bp with refcnt := bp.refcnt + 1 }) :=
    (Frame.setBp s b _).weaken
  exact ⟨hcount.trans (.setTask _ t (fun _ => rfl) fun _ h => h), fun _ h => h, rfl⟩

/-- `skip_breakpoint` of a hit that is being handled. -/
theorem skipBreakpoint_does (ht : t ∈ s.owned) (hhit : Hit s t)
    (howner : (s.bp b).owner = (s.task t).leader) (hb : b < s.nextBp)
    (hold : (s.task t).isNew = false ∨ .newUnexpected ∈ s.marks) :
    Does (skipBreakpoint w t b) s fun _ s' => Skips t s s' := by
  refine Logic.Does.inv fun hs => ?_
  unfold skipBreakpoint
  refine does_getTask fun hlive => does_getBp fun _ => does_assert rfl fun _ =>
    does_assert rfl fun hstopped => does_assert rfl fun hskip => ?_
  have hskip : (s.task t).skipBp = none := of_decide_eq_true hskip
  refine Logic.Does.get_bind ?_
  split_ifs
  swap
  · exact continueHit_does ht hhit
  refine (breakpointDisable_does (hhit.steady (.inl hstopped))).bind fun _ s₁ hto₁ h₁ => ?_
  have hs₁ := sane_of_changes hto₁ hs
  have hsame := h₁.same hs hlive
  have hworks₁ := h₁.works hs hlive
  refine (handleSinglestep_does (hsame.owned hstopped ht) (hhit.frame h₁.frame) ?_ ?_).bind
    fun ret s₂ hto₂ h₂ => ?_
  · rw [h₁.still.owner, h₁.frame.leader t (hs.live t hlive)]
    exact howner
  · rw [h₁.still.nextBp]
    exact hb
  have hs₂ := sane_of_changes hto₂ hs₁
  have hworks₂ := hworks₁.trans h₂.works
  have hlive₂ := hworks₂.still.live t hlive
  have hhit₂ := hhit.frame hworks₂.frame
  refine (breakpointEnable_does (hhit₂.steady (.inl h₂.stopped))).bind fun _ s₃ hto₃ h₃ => ?_
  have hsame₃ := h₃.same hs₂ hlive₂
  have hworks₃ := hworks₂.trans (h₃.works hs₂ hlive₂)
  have hlive₃ := hworks₃.still.live t hlive
  cases ret with
  | false =>
    refine (continueHit_does (hsame₃.owned h₂.stopped (h₂.owned rfl))
      (hhit.frame hworks₃.frame)).mono fun _ s' _ _ h => ?_
    exact h.after hworks₃
  | true =>
    rw [if_pos rfl]
    refine does_getBp fun hbp => ?_
    refine Logic.Does.changed (Change.skipped t b hlive₃ (hworks₃.kept.skipBp.trans hskip) hbp
      (hworks₃.frame.isNew hs hlive hold)) ?_
    refine Skips.after hworks₃ ⟨skipped_serves s₃ t b, ?_, ?_⟩
    · rw [skipped_task]
    · rw [skipped_task]
      obtain heq | hends := hsame₃.event h₂.stopped
      · exact (congrArg Event.isBreakpoint heq).trans (h₂.queued rfl)
      · show (s₃.task t).event.isBreakpoint = false
        cases hev : (s₃.task t).event with
        | breakpoint c =>
          rw [hev] at hends
          cases hends
        | _ => rfl

end Mtrace.Tracer
