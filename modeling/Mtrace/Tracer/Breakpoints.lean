import Mtrace.Tracer.Waits

/-!
# What the breakpoint functions do

A breakpoint is enabled and disabled between two waits, which nothing else is changed by;
breakpoints come and go, but the tasks stay (`Spares`). -/

namespace Mtrace.Tracer

open State Hoare

variable {w : World} {s s' s'' : State} {t l p : TaskId} {b : BpId}

/-- Nothing was done to the tasks that were stopped, and no reference was given up. -/
structure Spares (s s' : State) : Prop where
  frame : Frame ∅ s s'
  live : ∀ t ∈ s.live, t ∈ s'.live
  held : s'.held = s.held

theorem Spares.refl (s : State) : Spares s s := ⟨.refl _ s, fun _ h => h, rfl⟩

theorem Spares.trans (h : Spares s s') (h' : Spares s' s'') : Spares s s'' :=
  ⟨h.frame.trans h'.frame, fun t ht => h'.live t (h.live t ht), h'.held.trans h.held⟩

theorem Waits.spares (h : Waits s s') : Spares s s' := ⟨h.frame, h.still.live, h.held⟩

theorem Spares.same (h : Spares s s') (hs : Sane s) (ht : t ∈ s.live) : Same t s s' :=
  h.frame.same t (hs.live t ht) (Set.notMem_empty t) (h.live t ht)

theorem Steady.spares (hst : Steady s) (hs : Sane s) (h : Spares s s') : Steady s' :=
  hst.frame hs h.frame

/-! ## References -/

theorem released_frame (s : State) (b : BpId) : Frame ∅ s (s.released b) :=
  .rest rfl rfl (fun _ h => h) (fun _ h => .inl h) rfl fun _ h => h

/-- `breakpoint_put` of a reference that was given up. -/
theorem breakpointPut_does (hheld : b ∈ s.held) :
    Does (breakpointPut b) s fun _ s' => s' = s.released b := by
  unfold breakpointPut
  refine Logic.Does.get_bind (does_assert rfl fun hbp => ?_)
  refine Logic.Does.changed_bind (Change.released b hheld (of_decide_eq_true hbp)) ?_
  exact Logic.Does.get_bind (does_check_end (fun _ => .inl rfl) fun _ => rfl)

/-! ## Enabling and disabling -/

theorem setEnabled_does (hb : b < s.nextBp) (enabled : Bool) :
    Does (modify (·.setBp b fun bp => { bp with enabled })) s fun _ s' => Waits s s' :=
  Logic.Does.changed (.alike (alike_setBp hb fun _ => rfl))
    (setBp_waits s b (fun _ => rfl) fun _ => rfl)

/-- An assignment behind `stop_threads`. -/
theorem stopSetEnabled_does (hst : Steady s) (hb : b < s.nextBp) (enabled : Bool) :
    Does (do stopThreads t; modify (·.setBp b fun bp => { bp with enabled })) s
      fun _ s' => Waits s s' := by
  refine (stopThreads_does hst).bind fun _ s₁ _ h₁ => ?_
  exact (setEnabled_does (h₁.still.nextBp ▸ hb) enabled).mono fun _ s₂ _ _ h₂ => h₁.trans h₂

theorem breakpointEnable_does (hst : Steady s) :
    Does (breakpointEnable t b) s fun _ s' => Waits s s' := by
  refine Logic.Does.inv fun hs => ?_
  unfold breakpointEnable
  refine does_getBp fun hbp => ?_
  have hb := hs.bp_lt hbp
  split_ifs
  · exact Logic.Does.pure (.refl s)
  · exact setEnabled_does hb true
  · exact stopSetEnabled_does hst hb true

theorem breakpointDisable_does (hst : Steady s) :
    Does (breakpointDisable t b) s fun _ s' => Waits s s' := by
  refine Logic.Does.inv fun hs => ?_
  unfold breakpointDisable
  refine does_getBp fun hbp => ?_
  split_ifs
  · exact Logic.Does.pure (.refl s)
  · exact stopSetEnabled_does hst (hs.bp_lt hbp) false

/-- A loop over the breakpoints of a leader. -/
theorem eachBreakpoint_does {cb : BpId → Act Unit} (hst : Steady s)
    (hcb : ∀ b s, Steady s → Does (cb b) s fun _ s' => Waits s s') :
    Does (eachBreakpoint l cb) s fun _ s' => Waits s s' := by
  refine Logic.Does.inv fun hs => ?_
  unfold eachBreakpoint
  refine Logic.Does.get_bind (Logic.Does.forM (J := fun s' => Waits s s') ?_ (.refl s))
  intro b _ s₁ h₁
  exact (hcb b s₁ (hst.waits hs h₁)).mono fun _ s₂ _ _ h₂ => h₁.trans h₂

theorem ifNonlocked_does {cb : BpId → Act Unit} (hst : Steady s)
    (hcb : ∀ b s, Steady s → Does (cb b) s fun _ s' => Waits s s') :
    Does (ifNonlocked cb b) s fun _ s' => Waits s s' := by
  unfold ifNonlocked
  refine does_getBp fun _ => ?_
  split_ifs
  · exact Logic.Does.pure (.refl s)
  · exact hcb b s hst

theorem breakpointDisableAll_does (hst : Steady s) :
    Does (breakpointDisableAll l) s fun _ s' => Waits s s' :=
  eachBreakpoint_does hst fun _ _ hst => breakpointDisable_does hst

theorem breakpointDisableAllNonlocked_does (hst : Steady s) :
    Does (breakpointDisableAllNonlocked l) s fun _ s' => Waits s s' :=
  eachBreakpoint_does hst fun _ _ hst => ifNonlocked_does hst fun _ _ hst =>
    breakpointDisable_does hst

theorem breakpointEnableAllNonlocked_does (hst : Steady s) :
    Does (breakpointEnableAllNonlocked l) s fun _ s' => Waits s s' :=
  eachBreakpoint_does hst fun _ _ hst => ifNonlocked_does hst fun _ _ hst =>
    breakpointEnable_does hst

/-- `breakpoint_invalidate_all` needs no wait. -/
theorem breakpointInvalidateAll_does :
    Does (breakpointInvalidateAll l) s fun _ s' => Waits s s' := by
  refine Logic.Does.inv fun hs => ?_
  unfold breakpointInvalidateAll eachBreakpoint
  refine Logic.Does.get_bind (Logic.Does.forM (J := fun s' => Waits s s') ?_ (.refl s))
  intro b hb s₁ h₁
  have hlt : b < s₁.nextBp := h₁.still.nextBp ▸ (hs.shelf l b hb).2.1
  exact (setEnabled_does hlt false).mono fun _ s₂ _ _ h₂ => h₁.trans h₂

/-! ## Breakpoints come and go -/

theorem addedBp_spares (s : State) (l : TaskId) (bp : Breakpoint) : Spares s (s.addedBp l bp) := by
  have hnew : Frame ∅ s { s with
      bp := Function.update s.bp s.nextBp { bp with refcnt := 1, owner := l }
      nextBp := s.nextBp + 1 } :=
    .rest rfl rfl (fun _ h => h) (fun _ h => .inl h) rfl fun _ h => h
  refine ⟨hnew.trans ?_, fun _ h => h, rfl⟩
  · exact .setTask_same _ l (fun _ => rfl) (fun _ => rfl) (fun _ => rfl) (fun _ => rfl)
      (fun _ => rfl) fun _ => rfl

theorem addedBp_dict (s : State) (l : TaskId) (bp : Breakpoint) :
    ((s.addedBp l bp).task l).breakpoints = (s.task l).breakpoints ++ [s.nextBp] :=
  congrArg Task.breakpoints (setTask_task_self _ l _)

theorem breakpointNew_does {bp : Breakpoint} (ht : t < s.next) (hbp : bp.deleted = false) :
    Does (breakpointNew w t bp) s fun r s' =>
      Spares s s' ∧ ∀ b, r = some b → b ∈ (s'.task (s.task t).leader).breakpoints := by
  refine Logic.Does.inv fun hs => ?_
  unfold breakpointNew
  refine does_breakpointFind ?_ fun b _ => Logic.Does.pure ⟨.refl s, nofun⟩
  refine Logic.Does.get_bind ?_
  refine Logic.Does.changed_bind (Change.addedBp _ _ (hs.leader t ht) hbp) ?_
  refine Logic.Does.pure ⟨addedBp_spares s _ _, fun b hb => ?_⟩
  cases hb
  rw [addedBp_dict]
  exact List.mem_append_right _ List.mem_cons_self

theorem breakpointInsert_does {bp : Breakpoint} (hst : Steady s) (ht : t < s.next)
    (hbp : bp.deleted = false) : Does (breakpointInsert w t bp) s fun r s' =>
      Spares s s' ∧ ∀ b, r = some b → b ∈ (s'.task (s.task t).leader).breakpoints := by
  refine Logic.Does.inv fun hs => ?_
  have hl := hs.leader t ht
  unfold breakpointInsert
  split_ifs
  · exact Logic.Does.pure ⟨.refl s, nofun⟩
  refine does_breakpointFind ?_ fun b hb => ?_
  · refine (breakpointNew_does ht hbp).bind fun r s₁ hto₁ h₁ => ?_
    obtain ⟨hspares, hdict⟩ := h₁
    have hs₁ := sane_of_changes hto₁ hs
    cases r with
    | none => exact Logic.Does.pure ⟨hspares, nofun⟩
    | some b =>
      refine (breakpointEnable_does (hst.spares hs hspares)).bind fun _ s₂ _ h₂ =>
        Logic.Does.pure ⟨hspares.trans h₂.spares, fun c hc => ?_⟩
      cases hc
      rw [h₂.still.dict _ (hl.trans_le hspares.frame.next)]
      exact hdict b rfl
  · refine (breakpointEnable_does hst).bind fun _ s₁ _ h₁ =>
      Logic.Does.pure ⟨h₁.spares, fun c hc => ?_⟩
    cases hc
    rw [h₁.still.dict _ hl]
    exact hb

theorem removedBp_frame (s : State) (l : TaskId) (b : BpId) : Frame ∅ s (s.removedBp l b) := by
  have hdict : Frame ∅ s
      (s.setTask l fun l => { l with breakpoints := l.breakpoints.erase b }) :=
    .setTask_same _ l (fun _ => rfl) (fun _ => rfl) (fun _ => rfl) (fun _ => rfl)
      (fun _ => rfl) fun _ => rfl
  refine hdict.trans ?_
  · exact .rest rfl rfl (fun _ h => h) (fun _ h => .inl h) rfl fun _ h => h

theorem removedBp_dict (s : State) (l : TaskId) (b : BpId) :
    ((s.removedBp l b).task l).breakpoints = (s.task l).breakpoints.erase b :=
  congrArg Task.breakpoints
    (setTask_task_self s l fun l => { l with breakpoints := l.breakpoints.erase b })

/-- `breakpoint_delete` of a breakpoint of the leader. -/
theorem breakpointDelete_does (hst : Steady s) (ht : t < s.next)
    (howner : (s.bp b).owner = (s.task t).leader) :
    Does (breakpointDelete t b) s fun _ s' => Spares s s' ∧
      (s'.task (s.task t).leader).breakpoints = (s.task (s.task t).leader).breakpoints.erase b := by
  refine Logic.Does.inv fun hs => ?_
  unfold breakpointDelete
  refine does_getBp fun hbp => ?_
  split_ifs with hdel
  · refine Logic.Does.pure ⟨.refl s, (List.erase_of_not_mem fun hmem => ?_).symm⟩
    exact absurd ((hs.shelf _ b hmem).2.2.symm.trans hdel) Bool.false_ne_true
  have hdel : (s.bp b).deleted = false := Bool.not_eq_true _ ▸ hdel
  refine (breakpointDisable_does hst).bind fun _ s₁ hto₁ h₁ => ?_
  refine Logic.Does.modified_bind (markIf_changes _ _ _) ?_
  have h₂ := h₁.trans (markIf_waits s₁ (s₁.pending b) .deletedPending)
  have hto₂ := hto₁.trans (markIf_changes s₁ (s₁.pending b) .deletedPending)
  have hpending : ∀ c, (s₁.markIf (s₁.pending b) .deletedPending).pending c = s₁.pending c := by
    intro c
    unfold State.pending
    rw [markIf_task, markIf_live]
  have hmark : s₁.pending b = true →
      .deletedPending ∈ (s₁.markIf (s₁.pending b) .deletedPending).marks :=
    mem_markIf s₁ _
  generalize s₁.markIf (s₁.pending b) .deletedPending = s₂ at h₂ hto₂ hpending hmark ⊢
  have hs₂ := sane_of_changes hto₂ hs
  have hleader : (s₂.task t).leader = (s.task t).leader := h₂.frame.leader t ht
  have hkept := hs₂.kept b (h₂.still.nextBp ▸ hs.bp_lt hbp) ((h₂.still.deleted b).trans hdel)
  rw [h₂.still.owner, howner, ← hleader] at hkept
  refine Logic.Does.changed_bind
    (Change.removedBp _ b hkept fun h => hmark (hpending b ▸ h)) ?_
  refine (breakpointPut_does (s := s₂.removedBp (s₂.task t).leader b) List.mem_cons_self).mono
    fun _ s₃ _ _ h₃ => ?_
  subst h₃
  refine ⟨⟨?_, h₂.still.live, ?_⟩, ?_⟩
  · exact h₂.frame.trans ((removedBp_frame s₂ _ b).trans (released_frame _ b))
  · exact (List.erase_cons_head b s₂.held).trans h₂.held
  · rw [← hleader, ← h₂.still.dict _ (hleader ▸ hs.leader t ht)]
    exact removedBp_dict s₂ _ b

/-- Deleting each breakpoint of a leader leaves none. -/
theorem deleteEach_does {bs : List BpId} (hst : Steady s) (hl : l < s.next)
    (hhead : (s.task l).leader = l) (hbs : (s.task l).breakpoints = bs) :
    Does (bs.forM (breakpointDelete l)) s fun _ s' =>
    Spares s s' ∧ (s'.task l).breakpoints = [] := by
  refine Logic.Does.inv fun hs => ?_
  induction bs generalizing s with
  | nil => exact Logic.Does.pure ⟨.refl s, hbs⟩
  | cons b bs ih =>
    have howner : (s.bp b).owner = (s.task l).leader := by
      rw [hhead]
      exact (hs.shelf l b (hbs ▸ List.mem_cons_self)).1
    refine (breakpointDelete_does hst hl howner).bind fun _ s₁ hto₁ h₁ => ?_
    obtain ⟨hspares, hdict⟩ := h₁
    have hdict : (s₁.task l).breakpoints = bs := by
      rw [hhead, hbs, List.erase_cons_head] at hdict
      exact hdict
    refine (ih (hst.spares hs hspares) (hl.trans_le hspares.frame.next)
      ((hspares.frame.leader l hl).trans hhead) hdict (sane_of_changes hto₁ hs)).mono
      fun _ s₂ _ _ h₂ => ⟨hspares.trans h₂.1, h₂.2⟩

theorem breakpointClearAll_does (hst : Steady s) (hl : l < s.next)
    (hhead : (s.task l).leader = l) :
    Does (breakpointClearAll l) s fun _ s' => Spares s s' := by
  unfold breakpointClearAll eachBreakpoint
  refine Logic.Does.bind (Logic.Does.get_bind (deleteEach_does hst hl hhead rfl)) ?_
  intro _ s₁ _ h₁
  obtain ⟨hspares, hdict⟩ := h₁
  have halike : Alike s₁ (s₁.setTask l fun l => { l with breakpoints := [] }) := by
    refine alike_setTask (hl.trans_le hspares.frame.next) ?_
    rw [← hdict]
  exact Logic.Does.changed (.alike halike) (hspares.trans halike.waits.1.spares)

end Mtrace.Tracer
