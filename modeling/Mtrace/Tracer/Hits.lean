import Mtrace.Tracer.Handle
import Mtrace.Tracer.Ends

/-!
# What handling a hit does

While the breakpoint event of a task is handled, the task is first in the hands of the server
(`Fresh`); a report may skip the breakpoint before it is sent, and then the task is not looked at
any more (`Left`).  In the end it does not stand on the breakpoint (`Done`), and the reference of
its event is given up. -/

namespace Mtrace.Tracer

open State Hoare

variable {w : World} {a : Answers} {s s' s'' : State} {t l n : TaskId} {b : BpId} {rest : List BpId}

/-! ## Libraries -/

/-- A loop whose rounds spare the tasks. -/
theorem forM_does {γ : Type} {g : γ → Act Unit} {cs : List γ} (hst : Steady s)
    (hg : ∀ c s', Steady s' → s.next ≤ s'.next → Does (g c) s' fun _ s'' => Spares s' s'') :
    Does (cs.forM g) s fun _ s' => Spares s s' := by
  refine Logic.Does.inv fun hs => Logic.Does.forM (J := fun s' => Spares s s') ?_ (.refl s)
  intro c _ s₁ h₁
  refine (hg c s₁ (hst.spares hs h₁) h₁.frame.next).mono fun _ s₂ _ _ h₂ => ?_
  exact h₁.trans h₂

theorem setBp_does {g : Breakpoint → Breakpoint} (hb : b < s.nextBp)
    (hcore : ∀ bp, (g bp).core = bp.core) :
    Does (modify (·.setBp b g)) s fun _ s' => Spares s s' := by
  have halike : Alike s (s.setBp b g) := alike_setBp hb hcore
  exact Logic.Does.changed (.alike halike) halike.waits.1.spares

theorem cbBreakpointForSymbol_does {symbol : UInt64 × Func} (hst : Steady s) (hl : l < s.next) :
    Does (cbBreakpointForSymbol w l symbol) s fun _ s' => Spares s s' := by
  refine Logic.Does.inv fun hs => ?_
  unfold cbBreakpointForSymbol
  refine does_breakpointFind ?_ fun b _ => ?_
  · refine (breakpointNew_does hl rfl).bind fun r s₁ _ h₁ => ?_
    cases r with
    | none => exact Logic.Does.throw (.inl trivial)
    | some b =>
      refine Logic.Does.get_bind ?_
      split_ifs
      · refine (breakpointEnable_does (hst.spares hs h₁.1)).mono fun _ s₂ _ _ h₂ => ?_
        exact h₁.1.trans h₂.spares
      · exact Logic.Does.pure h₁.1
  · exact does_getBp fun hbp => does_assert rfl fun _ => setBp_does (hs.bp_lt hbp) fun _ => rfl

theorem libraryAdd_does {library : Library} (hst : Steady s) (hl : l < s.next) :
    Does (libraryAdd w l library) s fun _ s' => Spares s s' := by
  unfold libraryAdd
  refine does_getTask fun _ => does_assert rfl fun _ => forM_does hst fun c s' hst' hnext => ?_
  exact cbBreakpointForSymbol_does hst' (hl.trans_le hnext)

theorem deleteSymbol_does {addr : UInt64} (hst : Steady s) (hl : l < s.next) :
    Does (deleteSymbol l addr) s fun _ s' => Spares s s' := by
  refine Logic.Does.inv fun hs => ?_
  unfold deleteSymbol
  refine does_breakpointFind (Logic.Does.pure (.refl s)) fun b hb => ?_
  exact (breakpointDelete_does hst hl (hs.shelf _ b hb).1).mono fun _ s' _ _ h => h.1

theorem linkmapChange_does {change : Linkmap} (hst : Steady s) (ht : t < s.next) :
    Does (linkmapChange w t change) s fun _ s' => Spares s s' := by
  cases change with
  | unchanged => exact Logic.Does.pure (.refl s)
  | add libraries =>
    exact forM_does hst fun c s' hst' hnext => libraryAdd_does hst' (ht.trans_le hnext)
  | del libraries =>
    unfold linkmapChange
    refine does_getTask fun _ => ?_
    split_ifs
    · exact forM_does hst fun c s' hst' hnext => deleteSymbol_does hst' (ht.trans_le hnext)
    · exact Logic.Does.throw (.inl trivial)

theorem linkmapInit_does {brk : UInt64} {libraries : List Library} (hst : Steady s)
    (ht : t < s.next) : Does (linkmapInit w t brk libraries) s fun _ s' => Spares s s' := by
  refine Logic.Does.inv fun hs => ?_
  unfold linkmapInit
  refine (breakpointNew_does ht rfl).bind fun r s₁ hto₁ h₁ => ?_
  have hs₁ := sane_of_changes hto₁ hs
  have hst₁ := hst.spares hs h₁.1
  cases r with
  | none => exact Logic.Does.pure h₁.1
  | some b =>
    refine (breakpointEnable_does hst₁).bind fun _ s₂ _ h₂ => ?_
    have hspares := h₁.1.trans h₂.spares
    refine (forM_does (hst₁.waits hs₁ h₂) fun c s' hst' hnext => ?_).mono
      fun _ s₃ _ _ h₃ => hspares.trans h₃
    exact libraryAdd_does hst' (ht.trans_le (hspares.frame.next.trans hnext))

theorem leaderSetup_does {setup : Setup} (hst : Steady s) (hl : l < s.next) :
    Does (leaderSetup w l setup) s fun _ s' => Spares s s' := by
  refine Logic.Does.inv fun hs => ?_
  unfold leaderSetup
  have halike : Alike s (s.setTask l fun k => { k with is64bit := setup.is64bit }) :=
    alike_setTask hl rfl
  have h₁ := halike.waits.1
  have hs₁ := hs.alike halike
  have hst₁ := hst.waits hs h₁
  refine Logic.Does.changed_bind (.alike halike) ?_
  refine (forM_does hst₁ fun c s' hst' hnext => libraryAdd_does hst' (hl.trans_le hnext)).bind
    fun _ s₂ hto₂ h₂ => ?_
  have hs₂ := sane_of_changes hto₂ hs₁
  have hst₂ := hst₁.spares hs₁ h₂
  have hspares := h₁.spares.trans h₂
  have hl₂ := hl.trans_le hspares.frame.next
  cases setup.boot with
  | none => exact Logic.Does.pure hspares
  | linkmap brk libraries =>
    exact (linkmapInit_does hst₂ hl₂).mono fun _ s₃ _ _ h₃ => hspares.trans h₃
  | entry addr =>
    refine (breakpointNew_does hl₂ rfl).bind fun r s₃ _ h₃ => ?_
    have hspares := hspares.trans h₃.1
    cases r with
    | none => exact Logic.Does.pure hspares
    | some b =>
      refine (breakpointEnable_does (hst₂.spares hs₂ h₃.1)).mono fun _ s₄ _ _ h₄ => ?_
      exact hspares.trans h₄.spares

/-! ## The task whose hit is handled -/

structure Handles (t : TaskId) (b : BpId) (rest : List BpId) (s : State) : Prop where
  live : t ∈ s.live
  handling : s.handling = some (t, b)
  old : (s.task t).isNew = false ∨ .newUnexpected ∈ s.marks
  held : s.held = rest

/-- Nothing was done to it yet. -/
structure Fresh (t : TaskId) (b : BpId) (rest : List BpId) (s : State) : Prop
    extends Handles t b rest s where
  waits : (s.task t).bpSkipped = false
  owned : t ∈ s.owned
  stopped : (s.task t).stopped = true

/-- Its breakpoint was skipped for a report. -/
structure Left (t : TaskId) (b : BpId) (rest : List BpId) (s : State) : Prop
    extends Handles t b rest s where
  left : (s.task t).bpSkipped = true
  event : (s.task t).event.isBreakpoint = false ∨ .skippedEntry ∈ s.marks

/-- It does not stand on its breakpoint any more. -/
structure Done (t : TaskId) (b : BpId) (rest : List BpId) (s : State) : Prop
    extends Handles t b rest s where
  waits : (s.task t).bpSkipped = false
  event : (s.task t).event.isBreakpoint = false ∨ .skippedEntry ∈ s.marks

theorem Handles.hit (h : Handles t b rest s) : Hit s t := by
  unfold Hit
  rw [h.handling]
  rfl

theorem Handles.serves (h : Handles t b rest s) (hs : Sane s) (h' : Serves t s s') :
    Handles t b rest s' :=
  ⟨h'.live t h.live, h'.frame.handling.trans h.handling, h'.frame.isNew hs h.live h.old,
    h'.held.trans h.held⟩

theorem Handles.spares (h : Handles t b rest s) (hs : Sane s) (h' : Spares s s') :
    Handles t b rest s' :=
  h.serves hs h'.serves

theorem Fresh.spares (h : Fresh t b rest s) (hs : Sane s) (h' : Spares s s') :
    Fresh t b rest s' := by
  have hsame := h'.same hs h.live
  exact ⟨h.toHandles.spares hs h', hsame.bpSkipped.trans h.waits, hsame.owned h.stopped h.owned,
    hsame.stopped h.stopped⟩

theorem Fresh.steady (h : Fresh t b rest s) : Steady s := h.hit.steady (.inl h.stopped)

theorem Fresh.skips (h : Fresh t b rest s) (hs : Sane s) (h' : Skips t s s') : Done t b rest s' :=
  ⟨h.toHandles.serves hs h'.toServes, h'.bpSkipped.trans h.waits, .inl h'.event⟩

theorem Handles.setTask {f : Task → Task} (h : Handles t b rest s)
    (hnew : ∀ k, (f k).isNew = k.isNew) : Handles t b rest (s.setTask t f) := by
  refine ⟨h.live, h.handling, ?_, h.held⟩
  rw [setTask_task_self, hnew]
  exact h.old

theorem Fresh.setTask {f : Task → Task} (h : Fresh t b rest s)
    (hnew : ∀ k, (f k).isNew = k.isNew) (hskipped : ∀ k, (f k).bpSkipped = k.bpSkipped)
    (hstopped : ∀ k, (f k).stopped = k.stopped) : Fresh t b rest (s.setTask t f) := by
  refine ⟨h.toHandles.setTask hnew, ?_, h.owned, ?_⟩
  · rw [setTask_task_self, hskipped]
    exact h.waits
  · rw [setTask_task_self, hstopped]
    exact h.stopped

theorem Left.setTask {f : Task → Task} (h : Left t b rest s)
    (hnew : ∀ k, (f k).isNew = k.isNew) (hskipped : ∀ k, (f k).bpSkipped = k.bpSkipped)
    (hevent : ∀ k, (f k).event = k.event) : Left t b rest (s.setTask t f) := by
  refine ⟨h.toHandles.setTask hnew, ?_, ?_⟩
  · rw [setTask_task_self, hskipped]
    exact h.left
  · rw [setTask_task_self, hevent]
    exact h.event

theorem Fresh.continue_does (h : Fresh t b rest s) :
    Does (continueTask t) s fun _ s' => Done t b rest s' := by
  refine Logic.Does.inv fun hs => ?_
  exact (continueHit_does h.owned h.hit).mono fun _ s' _ _ h' => h.skips hs h'

theorem Fresh.skip_does (h : Fresh t b rest s) :
    Does (skipBreakpoint w t b) s fun _ s' => Done t b rest s' := by
  refine Logic.Does.inv fun hs => ?_
  obtain ⟨howner, hb, -⟩ := hs.handling t b h.handling
  exact (skipBreakpoint_does h.owned h.hit howner hb h.old).mono fun _ s' _ _ h' => h.skips hs h'

/-! ## Reports -/

theorem reportAlloc_does (h : Handles t b rest s) (ht : t ∈ s.owned) :
    Does (reportAlloc w t) s fun _ s' => s' = s ∨ Left t b rest s' := by
  refine Logic.Does.inv fun hs => ?_
  unfold reportAlloc
  refine does_getTask fun hlive => ?_
  split_ifs
  · exact Logic.Does.pure (.inl rfl)
  have hlt := hs.live t hlive
  have hchange := Change.leaves t hlive h.hit
  have hs₁ := hs.change hchange
  refine Logic.Does.changed_bind hchange ?_
  split
  · rename_i c hevent
    obtain ⟨howner, hc⟩ := hs.event t c hevent
    have h₁ : Handles t b rest (s.setTask t fun k => { k with bpSkipped := true }) :=
      h.setTask fun _ => rfl
    have howner₁ : (s.bp c).owner =
        ((s.setTask t fun k => { k with bpSkipped := true }).task t).leader := by
      rw [setTask_task_self]
      exact howner
    refine (skipBreakpoint_does (s := s.setTask t fun k => { k with bpSkipped := true })
      ht h₁.hit howner₁ hc h₁.old).mono fun _ s' _ _ h' => .inr ?_
    refine ⟨h₁.serves hs₁ h'.toServes, ?_, .inl h'.event⟩
    rw [h'.bpSkipped, setTask_task_self]
  · exact Logic.Does.throw (.inl rfl)

/-- A report for a task nothing was done to. -/
theorem Fresh.report_does (h : Fresh t b rest s) :
    Does (reportAlloc w t) s fun _ s' => Fresh t b rest s' ∨ Left t b rest s' := by
  refine (reportAlloc_does h.toHandles h.owned).mono fun _ s' _ _ h' => h'.imp_left fun heq => ?_
  rw [heq]
  exact h

/-- A task waits for no return any more, and a fresh one is still so. -/
theorem forgetCall_does (h : Fresh t b rest s ∨ Left t b rest s) :
    Does (do
      modify (·.setTask t fun k => { k with breakpoint := none })
      modify (·.setTask t fun k => { k with libsym := none })) s
      fun _ s' => Fresh t b rest s' ∨ Left t b rest s' := by
  refine Logic.Does.inv fun hs => ?_
  have hlt : t < s.next := hs.live t (h.elim (·.live) (·.live))
  refine Logic.Does.changed_bind (Change.unpends t) ?_
  refine Logic.Does.changed (.alike (alike_setTask
    (s := s.setTask t fun k => { k with breakpoint := none }) hlt rfl)) ?_
  refine h.imp (fun h => ?_) fun h => ?_
  · exact (h.setTask (f := fun k => { k with breakpoint := none }) (fun _ => rfl) (fun _ => rfl)
      fun _ => rfl).setTask (f := fun k => { k with libsym := none }) (fun _ => rfl) (fun _ => rfl)
      fun _ => rfl
  · exact (h.setTask (f := fun k => { k with breakpoint := none }) (fun _ => rfl) (fun _ => rfl)
      fun _ => rfl).setTask (f := fun k => { k with libsym := none }) (fun _ => rfl) (fun _ => rfl)
      fun _ => rfl

theorem handleCallAfter_does (h : Fresh t b rest s) :
    Does (handleCallAfter w a t) s fun _ s' => Fresh t b rest s' ∨ Left t b rest s' := by
  unfold handleCallAfter
  refine does_getTask fun _ => ?_
  split
  · exact Logic.Does.pure (.inl h)
  · exact Logic.Does.throw (.inl trivial)
  · dsimp only
    split_ifs
    · exact h.report_does.bind fun _ s₁ _ h₁ => forgetCall_does h₁
    · exact forgetCall_does (.inl h)

theorem onHit_does {f : OnHit} (h : Fresh t b rest s) :
    Does (onHit w a t b f) s fun r s' =>
      Fresh t b rest s' ∨ r = false ∧ Left t b rest s' := by
  refine Logic.Does.inv fun hs => ?_
  have hlt := hs.live t h.live
  cases f with
  | none => exact Logic.Does.pure (.inl h)
  | callAfter =>
    refine (handleCallAfter_does h).bind fun _ s₁ _ h₁ => Logic.Does.pure ?_
    exact h₁.imp_right fun h₁ => ⟨rfl, h₁⟩
  | linkmap =>
    refine (linkmapChange_does h.steady hlt).bind fun _ s₁ _ h₁ => Logic.Does.pure ?_
    exact .inl (h.spares hs h₁)
  | entry =>
    unfold onHit
    refine (breakpointDelete_does h.steady hlt (hs.handling t b h.handling).1).bind
      fun _ s₁ hto₁ h₁ => ?_
    have hs₁ := sane_of_changes hto₁ hs
    have hfresh := h.spares hs h₁.1
    cases a.debug with
    | none => exact Logic.Does.pure (.inl hfresh)
    | some d =>
      refine (linkmapInit_does hfresh.steady (hs₁.live t hfresh.live)).bind fun _ s₂ _ h₂ =>
        Logic.Does.pure (.inl (hfresh.spares hs₁ h₂))

/-! ## The entry of a function -/

/-- Where a call returns to a breakpoint, nothing is done to the task but for its pointers. -/
theorem insertReturn_does {func : Func} (hst : Steady s) (ht : t ∈ s.live) :
    Does (insertReturn w a t func) s fun _ s' => Spares s s' := by
  refine Logic.Does.inv fun hs => ?_
  have hlt := hs.live t ht
  unfold insertReturn
  split_ifs
  swap
  · exact Logic.Does.pure (.refl s)
  refine (breakpointInsert_does hst hlt rfl).bind fun r s₁ hto₁ h₁ => ?_
  obtain ⟨hspares, hdict⟩ := h₁
  have hs₁ := sane_of_changes hto₁ hs
  cases r with
  | none => exact Logic.Does.pure hspares
  | some r =>
    have hlt₁ := hlt.trans_le hspares.frame.next
    have hr := hdict r rfl
    have hdict₁ : r ∈ (s₁.task (s₁.task t).leader).breakpoints := by
      rw [hspares.frame.leader t hlt]
      exact hr
    refine Logic.Does.changed_bind (Change.pends t r (hspares.live t ht) hdict₁) ?_
    have h₂ : Spares s₁ (s₁.pends t r) :=
      ⟨.setTask_same s₁ t (fun _ => rfl) (fun _ => rfl) (fun _ => rfl) (fun _ => rfl)
        (fun _ => rfl) fun _ => rfl, fun _ h => h, rfl⟩
    have halike : Alike (s₁.pends t r)
        ((s₁.pends t r).setTask t fun k => { k with libsym := some func }) :=
      alike_setTask (s := s₁.pends t r) hlt₁ rfl
    refine Logic.Does.changed_bind (.alike halike) ?_
    have hspares := hspares.trans (h₂.trans halike.waits.1.spares)
    refine (setBp_does (g := fun bp => { bp with onHit := .callAfter }) ?_ fun _ => rfl).mono
      fun _ s₃ _ _ h₃ => hspares.trans h₃
    exact (hs₁.shelf _ r hr).2.1

/-- A call is entered; where the hit was skipped already, the task may be anywhere. -/
theorem enterCall_does {func : Func} (h : Fresh t b rest s ∨ Left t b rest s) :
    Does (enterCall w a t func) s fun _ s' => Fresh t b rest s' ∨ Left t b rest s' := by
  refine Logic.Does.inv fun hs => ?_
  unfold enterCall
  refine Logic.Does.modified_bind (markIf_changes _ _ _) ?_
  have hmark := (markIf_waits s ((s.task t).bpSkipped) .skippedEntry).spares
  obtain h | h := h
  · -- nothing is noted
    have hnote : s.noteSkipped t = s := by
      unfold noteSkipped State.markIf
      rw [h.waits]
      rfl
    rw [hnote]
    refine (insertReturn_does h.steady h.live).bind fun _ s₁ _ h₁ => ?_
    have hfresh := h.spares hs h₁
    split_ifs
    · have htake : s₁.takeSkipped t = s₁ := by
        unfold takeSkipped
        rw [hfresh.waits]
        rfl
      refine Logic.Does.modified_bind (by rw [htake]) ?_
      rw [htake]
      exact hfresh.report_does
    · exact Logic.Does.pure (.inl hfresh)
  · have hnoted : .skippedEntry ∈ (s.noteSkipped t).marks := mem_markIf s _ h.left
    have hs₁ := sane_of_changes (markIf_changes s ((s.task t).bpSkipped = true) .skippedEntry) hs
    have h₁ : Left t b rest (s.noteSkipped t) := by
      refine ⟨h.toHandles.spares hs hmark, ?_, .inr hnoted⟩
      unfold noteSkipped
      rw [markIf_task]
      exact h.left
    refine (insertReturn_does (h₁.hit.steady (.inr hnoted)) h₁.live).bind fun _ s₂ _ h₂ => ?_
    have hleft : Left t b rest s₂ :=
      ⟨h₁.toHandles.spares hs₁ h₂, (h₂.same hs₁ h₁.live).bpSkipped.trans h₁.left,
        .inr (h₂.frame.marks _ hnoted)⟩
    split_ifs
    · have htake : s₂.takeSkipped t = s₂.take t := by
        unfold takeSkipped
        rw [hleft.left]
        rfl
      have hchange : Change s₂ (s₂.take t) :=
        .took t hleft.live (.inr ⟨.skippedEntry, rfl, h₂.frame.marks _ hnoted⟩)
      refine Logic.Does.modified_bind (by rw [htake]; exact .single hchange) ?_
      rw [htake]
      have htaken : Left t b rest (s₂.take t) :=
        ⟨⟨hleft.live, hleft.handling, hleft.old, hleft.held⟩, hleft.left, hleft.event⟩
      refine (reportAlloc_does htaken.toHandles List.mem_cons_self).mono fun _ s' _ _ h' => .inr ?_
      obtain rfl | h' := h'
      · exact htaken
      · exact h'
    · exact Logic.Does.pure (.inr hleft)

/-! ## The whole hit -/

theorem leaveHit_does (h : Fresh t b rest s ∨ Left t b rest s) :
    Does (leaveHit w t b) s fun _ s' => Done t b rest s' := by
  unfold leaveHit
  refine does_getTask fun hlive => ?_
  obtain h | h := h
  · rw [if_neg (Bool.not_eq_true _ ▸ h.waits)]
    exact h.skip_does
  · rw [if_pos h.left]
    refine Logic.Does.changed (Change.left t hlive) ⟨h.toHandles.setTask fun _ => rfl, ?_, ?_⟩
    · rw [setTask_task_self]
    · rw [setTask_task_self]
      exact h.event

theorem handleHit_does (h : Fresh t b rest s ∨ Left t b rest s) :
    Does (handleHit w a t b) s fun _ s' => Done t b rest s' := by
  unfold handleHit
  refine does_getBp fun _ => does_getTask fun _ => ?_
  split
  · exact (enterCall_does h).bind fun _ s₁ _ h₁ => leaveHit_does h₁
  · exact leaveHit_does h

theorem freshHit_does (h : Fresh t b rest s) :
    Does (freshHit w a t b) s fun _ s' => Done t b rest s' := by
  refine Logic.Does.inv fun hs => ?_
  unfold freshHit
  refine does_getBp fun _ => ?_
  split_ifs
  · exact h.continue_does
  refine Logic.Does.get_bind ?_
  have hhit : ∀ {f : OnHit} {s₁ : State}, Fresh t b rest s₁ →
      Does (do if ← onHit w a t b f then continueTask t else handleHit w a t b) s₁
        fun _ s' => Done t b rest s' := by
    intro f s₁ h₁
    refine (onHit_does h₁).bind fun r s₂ _ h₂ => ?_
    cases r with
    | false => exact handleHit_does (h₂.imp_right And.right)
    | true => exact (h₂.resolve_right fun h => nomatch h.1).continue_does
  dsimp only
  split_ifs
  · exact (stopThreads_does h.steady).bind fun _ s₁ _ h₁ => hhit (h.spares hs h₁.spares)
  · exact hhit h

theorem breakpointHit_does (h : Handles t b rest s) (hwaits : (s.task t).bpSkipped = false)
    (ht : t ∈ s.owned) : Does (breakpointHit w a t b) s fun _ s' => Done t b rest s' := by
  unfold breakpointHit
  refine does_getTask fun hlive => does_getBp fun _ => does_assert rfl fun hstopped => ?_
  have hfresh : Fresh t b rest s := ⟨h, hwaits, ht, hstopped⟩
  cases hskip : (s.task t).skipBp with
  | none => exact freshHit_does hfresh
  | some c =>
    refine Logic.Does.changed_bind (Change.unskipped t c hskip) ?_
    refine (breakpointPut_does (s := s.unskipped t c) List.mem_cons_self).bind fun _ s₁ _ h₁ => ?_
    subst h₁
    have hset : Fresh t b rest (s.setTask t fun k => { k with skipBp := none }) :=
      hfresh.setTask (fun _ => rfl) (fun _ => rfl) fun _ => rfl
    have hfresh : Fresh t b rest ((s.unskipped t c).released c) := by
      refine ⟨⟨hset.live, hset.handling, hset.old, ?_⟩, hset.waits, hset.owned, hset.stopped⟩
      exact (List.erase_cons_head c s.held).trans h.held
    split_ifs
    · exact hfresh.skip_does
    · exact freshHit_does hfresh

/-- After a hit no breakpoint event is being handled, and no reference is left over. -/
theorem handleBreakpoint_does (ht : t ∈ s.owned) (hlive : t ∈ s.live) (hidle : s.handling = none)
    (hevent : (s.task t).event = .breakpoint b)
    (hold : (s.task t).isNew = false ∨ .newUnexpected ∈ s.marks) :
    Does (handleBreakpoint w a t b) s fun _ s' => s'.handling = none ∧ s'.held = s.held ∧
      ((s'.task t).isNew = false ∨ .newUnexpected ∈ s'.marks) := by
  refine Logic.Does.inv fun hs => ?_
  unfold handleBreakpoint
  refine Logic.Does.changed_bind (Change.handles t b hlive hidle hevent) ?_
  have hwaits : (s.task t).bpSkipped = false := by
    by_contra h
    have hskips := hs.skips t (Bool.not_eq_false _ ▸ h)
    rw [hidle] at hskips
    cases hskips
  have h : Handles t b s.held (s.handles t b) := ⟨hlive, rfl, hold, rfl⟩
  refine (breakpointHit_does h hwaits ht).bind fun _ s₁ _ h₁ => ?_
  refine Logic.Does.changed_bind (Change.handled t b h₁.handling h₁.waits fun hbreak => ?_) ?_
  · exact h₁.event.resolve_left fun h => absurd (h.symm.trans hbreak) Bool.false_ne_true
  refine (breakpointPut_does (s := s₁.handled b) List.mem_cons_self).mono fun _ s₂ _ _ h₂ => ?_
  subst h₂
  refine ⟨rfl, ?_, h₁.old⟩
  exact (List.erase_cons_head b s₁.held).trans h₁.held

end Mtrace.Tracer
