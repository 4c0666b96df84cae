import Mtrace.Tracer.Hits

/-!
# What handling an event does

The task of an event is in the hands of the server until it is continued, deferred or destroyed.
After that no breakpoint event is being handled and no reference is left over (`Idle`), unless a new
task was not new.
-/

namespace Mtrace.Tracer

open State Hoare

variable {w : World} {a : Answers} {s s' s'' : State} {t l n p : TaskId} {b : BpId}
  {rest : List BpId}

/-- Between two steps. -/
structure Idle (rest : List BpId) (s : State) : Prop where
  handling : s.handling = none
  held : s.held = rest ∨ .newUnexpected ∈ s.marks

theorem Idle.frame {T : Set TaskId} (h : Idle rest s) (hframe : Frame T s s')
    (hheld : s'.held = s.held ∨ .newUnexpected ∈ s'.marks) : Idle rest s' := by
  refine ⟨hframe.idle h.handling, ?_⟩
  obtain hheld | hmark := hheld
  · rw [hheld]
    exact h.held.imp_right (hframe.marks _)
  · exact .inr hmark

theorem Idle.removes (h : Idle rest s) (h' : Removes s s') : Idle rest s' :=
  h.frame h'.frame (.inl h'.held)

theorem Idle.works (h : Idle rest s) (h' : Works t s s') : Idle rest s' :=
  h.frame h'.frame (.inl h'.held)

theorem Idle.steady (h : Idle rest s) : Steady s := steady_of_none h.handling

/-- A task whose events are expected. -/
abbrev Old (s : State) (t : TaskId) : Prop := (s.task t).isNew = false ∨ .newUnexpected ∈ s.marks

/-- A stopped task in the hands of the server, with another event than a hit. -/
structure Halted (t : TaskId) (s : State) : Prop where
  owned : t ∈ s.owned
  stopped : (s.task t).stopped = true
  event : (s.task t).event.isBreakpoint = false

theorem Event.not_isBreakpoint_of_ends {event : Event} (h : event.ends = true) :
    event.isBreakpoint = false := by
  cases event with
  | breakpoint b => cases h
  | _ => rfl

theorem Halted.same (h : Halted t s) (hsame : Same t s s') : Halted t s' := by
  refine ⟨hsame.owned h.stopped h.owned, hsame.stopped h.stopped, ?_⟩
  obtain heq | hends := hsame.event h.stopped
  · rw [heq]
    exact h.event
  · exact Event.not_isBreakpoint_of_ends hends

theorem Halted.frame {T : Set TaskId} (h : Halted t s) (hlt : t < s.next) (hT : t ∉ T)
    (hframe : Frame T s s') (hlive : t ∈ s'.live) : Halted t s' :=
  h.same (hframe.same t hlt hT hlive)

/-- What is left of a task that was continued. -/
structure Continued (t : TaskId) (s s' : State) : Prop where
  works : Works t s s'
  stopped : (s'.task t).stopped = false
  event : (s'.task t).event = .none

theorem continueHalted_does (h : t ∈ s.live → Halted t s) :
    Does (continueTask t) s fun _ s' => Continued t s s' := by
  refine (continueTask_does (fun ht => (h ht).owned) fun ht hlost => ?_).mono
    fun _ s' _ _ h' => ⟨h'.1, h'.2.1, h'.2.2⟩
  exact absurd hlost (not_unhandled (h ht).event)

/-- A task that was continued already. -/
theorem continueRunning_does (h : t ∈ s.live → (s.task t).stopped = false)
    {m : Mark} (hm : m.runs = true) (hmark : m ∈ s.marks) {Q : Unit → State → Prop} :
    Does (continueTask t) s Q := by
  unfold continueTask
  refine does_getTask fun ht => ?_
  refine does_check (fun _ => .inr (.inl ⟨m, hm, hmark⟩)) fun hstopped => ?_
  exact absurd ((h ht).symm.trans hstopped) Bool.false_ne_true

/-! ## The breakpoints of a forked task -/

/-- What is done to a new task before it is continued. -/
structure Forks (n : TaskId) (s s' : State) : Prop where
  frame : Frame {n} s s'
  live : ∀ p ∈ s.live, p ∈ s'.live
  held : s'.held = s.held ∨ .newUnexpected ∈ s'.marks
  isNew : (s'.task n).isNew = (s.task n).isNew
  stopped : (s.task n).stopped = true → (s'.task n).stopped = true

theorem Forks.refl (n : TaskId) (s : State) : Forks n s s :=
  ⟨.refl _ s, fun _ h => h, .inl rfl, rfl, fun h => h⟩

theorem Forks.trans (h : Forks n s s') (h' : Forks n s' s'') : Forks n s s'' := by
  refine ⟨h.frame.trans h'.frame, fun p hp => h'.live p (h.live p hp), ?_,
    h'.isNew.trans h.isNew, fun hs => h'.stopped (h.stopped hs)⟩
  obtain heq | hmark := h'.held
  · rw [heq]
    exact h.held.imp_right (h'.frame.marks _)
  · exact .inr hmark

theorem Spares.forks (h : Spares s s') (hs : Sane s) (hn : n ∈ s.live)
    (hnew : (s'.task n).isNew = (s.task n).isNew) : Forks n s s' :=
  ⟨h.frame.weaken, h.live, .inl h.held, hnew, (h.same hs hn).stopped⟩

theorem Forks.setTask (s : State) (n : TaskId) {f : Task → Task}
    (hleader : ∀ k, (f k).leader = k.leader) (hnew : ∀ k, (f k).isNew = k.isNew)
    (hstopped : ∀ k, (f k).stopped = k.stopped) : Forks n s (s.setTask n f) := by
  refine ⟨.setTask s n hleader fun k h => (hnew k).trans h, fun _ h => h, .inl rfl, ?_, fun h => ?_⟩
  · rw [setTask_task_self, hnew]
  · rw [setTask_task_self, hstopped]
    exact h

theorem addedBp_isNew (s : State) (l n : TaskId) (bp : Breakpoint) :
    ((s.addedBp l bp).task n).isNew = (s.task n).isNew := by
  unfold State.addedBp
  rw [setTask_task]
  split_ifs with h
  · rw [h]
  · rfl

theorem cloneSingle_does (hn : n < s.next) : Does (cloneSingle n b) s fun _ s' =>
    Spares s s' ∧ (s'.task n).isNew = (s.task n).isNew := by
  unfold cloneSingle
  refine does_getBp fun _ => ?_
  split_ifs with hskip
  · exact Logic.Does.pure ⟨.refl s, rfl⟩
  have hdel : (s.bp b).deleted = false := Bool.not_eq_true _ ▸ fun h => hskip (.inl h)
  refine does_breakpointFind ?_ fun _ _ => Logic.Does.pure ⟨.refl s, rfl⟩
  refine Logic.Does.changed_bind (Change.addedBp n _ hn hdel) ?_
  exact Logic.Does.pure ⟨addedBp_spares s n _, addedBp_isNew s n n _⟩

theorem breakpointCloneAll_does {bs : List BpId} (hn : n < s.next) :
    Does (breakpointCloneAll n bs) s fun _ s' =>
      Spares s s' ∧ (s'.task n).isNew = (s.task n).isNew := by
  induction bs generalizing s with
  | nil => exact Logic.Does.pure ⟨.refl s, rfl⟩
  | cons b bs ih =>
    refine (cloneSingle_does hn).bind fun r s₁ _ h₁ => ?_
    obtain ⟨hspares, hnew⟩ := h₁
    cases r with
    | true => exact Logic.Does.pure ⟨hspares, hnew⟩
    | false =>
      refine (ih (hn.trans_le hspares.frame.next)).mono fun _ s₂ _ _ h₂ => ?_
      exact ⟨hspares.trans h₂.1, h₂.2.trans hnew⟩

theorem forkBreakpoint_does (hn : n ∈ s.live) :
    Does (forkBreakpoint t n) s fun _ s' => Forks n s s' := by
  refine Logic.Does.inv fun hs => ?_
  have hlt := hs.live n hn
  have hset : ∀ found : Option BpId,
      Forks n s (s.setTask n fun k => { k with breakpoint := found }) :=
    fun found => .setTask s n (fun _ => rfl) (fun _ => rfl) fun _ => rfl
  unfold forkBreakpoint
  refine Logic.Does.get_bind ?_
  split
  · exact Logic.Does.changed (Change.unpends n) (hset none)
  · exact Logic.Does.throw (.inl trivial)
  · refine does_getBp fun _ => does_breakpointFind ?_ fun c hc => ?_
    · exact Logic.Does.changed (Change.unpends n) (hset none)
    · exact Logic.Does.changed (Change.pends n c hn hc) (hset (some c))

theorem unskipped_forks (h : .newUnexpected ∈ s.marks) : Forks n s (s.unskipped n b) := by
  have hset := Forks.setTask s n (f := fun k => { k with skipBp := none }) (fun _ => rfl)
    (fun _ => rfl) fun _ => rfl
  exact ⟨unskipped_frame s n b, fun _ h => h, .inr h, hset.isNew, hset.stopped⟩

/-- A new task has a `skip_bp` only where its events were not expected. -/
theorem forkSkipBp_does (hn : n ∈ s.live) (hnew : (s.task n).isNew = true) :
    Does (forkSkipBp t n) s fun _ s' => Forks n s s' := by
  refine Logic.Does.inv fun hs => ?_
  have hmark : ∀ own, (s.task n).skipBp = some own → .newUnexpected ∈ s.marks := by
    intro own hown
    refine (hs.young n hnew).resolve_left fun h => ?_
    rw [hown] at h
    cases h
  unfold forkSkipBp
  refine Logic.Does.get_bind ?_
  split
  · exact Logic.Does.pure (.refl n s)
  · rename_i own _ hown
    exact Logic.Does.changed (Change.unskipped n own hown) (unskipped_forks (hmark own hown))
  · exact Logic.Does.throw (.inl trivial)
  · rename_i own _ hown
    have hforks : Forks n s (s.unskipped n own) := unskipped_forks (hmark own hown)
    refine does_getBp fun _ => does_breakpointFind ?_ fun c _ => does_getBp fun hc => ?_
    · exact Logic.Does.changed (Change.unskipped n own hown) hforks
    refine Logic.Does.changed_bind (Change.unskipped n own hown) ?_
    have hskip : ((s.unskipped n own).task n).skipBp = none :=
      congrArg Task.skipBp (setTask_task_self s n fun k => { k with skipBp := none })
    refine Logic.Does.changed (Change.skipped n c hn hskip hc (.inr (hmark own hown))) ?_
    have hserves := skipped_serves (s.unskipped n own) n c
    refine hforks.trans ⟨hserves.frame, hserves.live, .inl hserves.held, ?_, fun h => ?_⟩
    · rw [skipped_task]
    · rw [skipped_task]
      exact h

/-- `task_fork` leaves a new task that is still stopped, or none. -/
theorem taskFork_does (hidle : s.handling = none) (hn : n ∈ s.live)
    (hnew : (s.task n).isNew = true) : Does (taskFork t n) s fun r s' =>
      Frame {n} s s' ∧ (s'.held = s.held ∨ .newUnexpected ∈ s'.marks) ∧
      (r = true → Forks n s s') ∧ (r = false → n ∉ s'.live) := by
  refine Logic.Does.inv fun hs => ?_
  have hlt := hs.live n hn
  unfold taskFork
  refine Logic.Does.get_bind (does_assert rfl fun _ => does_assert rfl fun _ => ?_)
  have halike : Alike s (s.setTask n fun k => { k with is64bit := (s.task t).is64bit }) :=
    alike_setTask hlt rfl
  have h₁ := Forks.setTask s n (f := fun k => { k with is64bit := (s.task t).is64bit })
    (fun _ => rfl) (fun _ => rfl) fun _ => rfl
  have hs₁ := hs.alike halike
  refine Logic.Does.changed_bind (.alike halike) ?_
  refine (breakpointCloneAll_does (s := s.setTask n _) hlt).bind fun r s₂ hto₂ h₂ => ?_
  have hs₂ := sane_of_changes hto₂ hs₁
  have h₂ := h₁.trans (h₂.1.forks hs₁ hn h₂.2)
  have hn₂ := h₂.live n hn
  cases r with
  | true =>
    refine (taskDestroy_does (h₂.frame.idle hidle)).bind fun _ s₃ _ h₃ => Logic.Does.pure ?_
    refine ⟨h₂.frame.trans h₃.1.frame.weaken, ?_, nofun, fun _ => h₃.2⟩
    rw [h₃.1.held]
    exact h₂.held.imp_right (h₃.1.frame.marks _)
  | false =>
    rw [if_neg Bool.false_ne_true]
    have halike : Alike s₂ (s₂.setTask n fun k =>
        { k with libsym := (s.task t).libsym, attached := (s.task t).attached }) :=
      alike_setTask (hs₂.live n hn₂) rfl
    refine Logic.Does.changed_bind (.alike halike) ?_
    have h₃ := h₂.trans (Forks.setTask s₂ n (f := fun k =>
      { k with libsym := (s.task t).libsym, attached := (s.task t).attached }) (fun _ => rfl)
      (fun _ => rfl) fun _ => rfl)
    refine (forkBreakpoint_does (s := s₂.setTask n _) hn₂).bind fun _ s₄ _ h₄ => ?_
    have h₄ := h₃.trans h₄
    refine (forkSkipBp_does (h₄.live n hn) (h₄.isNew.trans hnew)).bind fun _ s₅ _ h₅ => ?_
    have h₅ := h₄.trans h₅
    exact Logic.Does.pure ⟨h₅.frame, h₅.held, fun _ => h₅, nofun⟩

/-! ## New tasks -/

theorem noteDropped_noted (s : State) (t : TaskId) : Noted s (s.noteDropped t) :=
  markIf_noted s _ _

theorem mem_noteDropped (h : (s.noteDropped t).unhandled t = true) :
    .droppedEvent ∈ (s.noteDropped t).marks :=
  mem_markIf s _ ((noteDropped_noted s t).unhandled t ▸ h)

/-- The end of `do_clone` continues the new task, wherever it is. -/
theorem startClone_does (hn : n ∈ s.live) (hstopped : (s.task n).stopped = true)
    (hnew : (s.task n).isNew = true) : Does (startClone n) s fun _ s' =>
      Frame {n} s s' ∧ s'.held = s.held ∧ (s'.task n).isNew = false ∧
        (s'.task n).stopped = false := by
  refine Logic.Does.inv fun hs => ?_
  unfold startClone
  have hcloned : Noted s (s.noteCloned n) := (markIf_noted s _ _).trans (markIf_noted _ _ _)
  have hexit : (s.task n).aboutExit = true → .clonedAboutExit ∈ (s.noteCloned n).marks :=
    fun h => (markIf_noted _ _ _).marks (mem_markIf s _ h)
  have hqueued : s.queue.linked n = true → .clonedQueued ∈ (s.noteCloned n).marks :=
    fun h => mem_markIf _ _ h
  refine Logic.Does.modified_bind hcloned.changes ?_
  have hdropped := noteDropped_noted (s.noteCloned n) n
  refine Logic.Does.modified_bind hdropped.changes ?_
  have hlost := mem_noteDropped (s := s.noteCloned n) (t := n)
  have hnoted := hcloned.trans hdropped
  replace hexit := fun h => hdropped.marks (hexit h)
  replace hqueued := fun h => hdropped.marks (hqueued h)
  generalize (s.noteCloned n).noteDropped n = s₁ at hnoted hexit hqueued hlost ⊢
  have hn₁ : n ∈ s₁.live := hnoted.live ▸ hn
  have hjoined : Change s₁ (s₁.take n) :=
    .joined n hn₁ (hnoted.task ▸ hstopped) (hnoted.task ▸ hnew) (hnoted.task ▸ hexit)
      (hnoted.queue ▸ hqueued)
  refine Logic.Does.changed_bind hjoined ?_
  refine Logic.Does.changed_bind (Change.grown n hn₁) ?_
  have hset := Works.setTask (s₁.take n) n (f := fun k => { k with isNew := false }) (fun _ => rfl)
    (fun _ _ => rfl) (fun _ => rfl) (fun _ => rfl) fun _ => rfl
  have hgrown :
      (((s₁.take n).setTask n fun k => { k with isNew := false }).task n).isNew = false := by
    rw [setTask_task_self]
  have howned : n ∈ ((s₁.take n).setTask n fun k => { k with isNew := false }).owned :=
    List.mem_cons_self (a := n) (l := s₁.owned)
  have hunhandled : ((s₁.take n).setTask n fun k => { k with isNew := false }).unhandled n =
      s₁.unhandled n := by
    unfold State.unhandled
    rw [setTask_task_self]
    rfl
  refine (continueTask_does (fun _ => howned) fun _ h => hlost (hunhandled ▸ h)).bind
    fun _ s₂ _ h₂ => Logic.Does.pure ?_
  obtain ⟨hworks, hrun, -⟩ := h₂
  have hlt : n < s₁.next := (sane_of_changes hnoted.changes hs).live n hn₁
  refine ⟨?_, (hset.trans hworks).held.trans hnoted.waits.held,
    hworks.frame.young n hlt hgrown, hrun⟩
  exact hnoted.waits.frame.weaken.trans ((Frame.take s₁ n).weaken.trans (hset.trans hworks).frame)

/-- What `do_clone` leaves of a new task, and what it found of it. -/
structure Clones (t n : TaskId) (s s' : State) : Prop where
  known : t ∈ s.live
  parent : (s.task t).stopped = true
  live : n ∈ s.live
  isNew : (s.task n).isNew = true
  frame : Frame {n} s s'
  held : s'.held = s.held ∨ .newUnexpected ∈ s'.marks
  child : n ∈ s'.live → (s'.task n).isNew = false ∧ (s'.task n).stopped = false

theorem doClone_does (hidle : s.handling = none) :
    Does (doClone w t n) s fun _ s' => Clones t n s s' := by
  refine Logic.Does.inv fun hs => ?_
  unfold doClone
  refine does_getTask fun ht => does_getTask fun hn => does_assert rfl fun hparent =>
    does_assert rfl fun hstopped => does_assert rfl fun hnew => ?_
  by_cases hhead : (s.task n).leader = n
  · rw [if_pos hhead]
    refine (taskFork_does hidle hn hnew).bind fun r s₁ hto₁ h₁ => ?_
    obtain ⟨hframe, hheld, hforks, hgone⟩ := h₁
    cases r with
    | false =>
      refine Logic.Does.pure ⟨ht, hparent, hn, hnew, hframe, hheld, fun h => ?_⟩
      exact absurd h (hgone rfl)
    | true =>
      have hforks := hforks rfl
      rw [if_pos rfl]
      split_ifs
      · refine (startClone_does (hforks.live n hn) (hforks.stopped hstopped)
          (hforks.isNew.trans hnew)).mono fun _ s₂ _ _ h₂ => ?_
        refine ⟨ht, hparent, hn, hnew, hframe.trans h₂.1, ?_, fun _ => h₂.2.2⟩
        rw [h₂.2.1]
        exact hheld.imp_right (h₂.1.marks _)
      · refine (removeProc_does (hframe.idle hidle)).bind fun _ s₂ _ h₂ => Logic.Does.pure ?_
        refine ⟨ht, hparent, hn, hnew, hframe.trans h₂.1.frame.weaken, ?_, fun h => absurd h h₂.2⟩
        rw [h₂.1.held]
        exact hheld.imp_right (h₂.1.frame.marks _)
  · rw [if_neg hhead]
    have halike : Alike s (s.setTask n fun k => { k with is64bit := (s.task t).is64bit }) :=
      alike_setTask (hs.live n hn) rfl
    have hset := Forks.setTask s n (f := fun k => { k with is64bit := (s.task t).is64bit })
      (fun _ => rfl) (fun _ => rfl) fun _ => rfl
    refine Logic.Does.bind (Q := fun _ s' => Forks n s s' ∧ s'.held = s.held) ?_ fun _ s₁ _ h₁ => ?_
    · unfold taskClone
      refine Logic.Does.get_bind (does_assert rfl fun _ => does_assert rfl fun _ => ?_)
      exact Logic.Does.changed (.alike halike) ⟨hset, rfl⟩
    · obtain ⟨h₁, hheld⟩ := h₁
      refine (startClone_does (h₁.live n hn) (h₁.stopped hstopped) (h₁.isNew.trans hnew)).mono
        fun _ s₂ _ _ h₂ => ?_
      exact ⟨ht, hparent, hn, hnew, h₁.frame.trans h₂.1, .inl (h₂.2.1.trans hheld), fun _ => h₂.2.2⟩

/-- What a handler leaves of its task. -/
def Settled (t : TaskId) : Ret → State → Prop
  | .deleted, _ => True
  | .deferred, s => Old s t
  | _, s => (s.task t).event = .none ∧ (s.task t).stopped = false ∧ Old s t

theorem afterEvent_does {r : Ret} (h : t ∈ s.live → Settled t r s) :
    Does (afterEvent t r) s fun _ s' => s' = s := by
  have hnew : ∀ {holds : Bool}, holds = !(s.task t).isNew → Old s t → holds = false →
      Fault (.assertion .handleEvent "task->is_new == 0") s := by
    intro holds heq hold hfails
    refine .inl (hold.resolve_left fun hnew => ?_)
    rw [heq, hnew] at hfails
    cases hfails
  cases r with
  | deleted => exact Logic.Does.pure rfl
  | deferred =>
    exact does_getTask fun ht => does_check_end (fun hf => .inr (hnew rfl (h ht) hf)) fun _ => rfl
  | _ =>
    refine does_getTask fun ht => ?_
    obtain ⟨hevent, hstopped, hold⟩ := h ht
    refine does_check (fun hf => ?_) fun _ => does_check (fun hf => ?_) fun _ =>
      does_check_end (fun hf => .inr (hnew rfl hold hf)) fun _ => rfl
    · exact absurd hevent (of_decide_eq_false hf)
    · rw [hstopped] at hf
      cases hf

/-- A task that was continued is settled. -/
theorem Continued.settled (h : Continued t s s') (hs : Sane s) (hold : t ∈ s.live → Old s t)
    (ht : t < s.next) (hlive : t ∈ s'.live) : Settled t .done s' := by
  have hl := h.works.frame.live t ht hlive
  exact ⟨h.event, h.stopped, h.works.frame.isNew hs hl (hold hl)⟩

theorem doCloneCb_does (hne : t ≠ n) (hidle : Idle rest s) (howned : t ∈ s.owned) :
    Does (doCloneCb w n t) s fun _ s' => Idle rest s' ∧ (n ∈ s'.live → Old s' n) := by
  refine Logic.Does.inv fun hs => ?_
  unfold doCloneCb
  refine (doClone_does hidle.handling).bind fun r s₁ hto₁ h₁ => ?_
  have hs₁ := sane_of_changes hto₁ hs
  have hidle₁ := hidle.frame h₁.frame h₁.held
  have hnoted := noteDropped_noted s₁ t
  refine Logic.Does.modified_bind hnoted.changes ?_
  have hlost := mem_noteDropped (s := s₁) (t := t)
  have hs₂ := sane_of_changes hnoted.changes hs₁
  have hidle₂ := hidle₁.removes hnoted.waits.removes
  have howned₂ : t ∈ (s₁.noteDropped t).live → t ∈ (s₁.noteDropped t).owned := by
    intro ht
    rw [hnoted.live] at ht
    have hsame := h₁.frame.same t (hs.live t h₁.known) hne ht
    exact (hnoted.waits.same hs₁ ht).owned (hsame.stopped h₁.parent) (hsame.owned h₁.parent howned)
  refine (continueTask_does howned₂ fun _ => hlost).bind fun _ s₃ _ h₃ => Logic.Does.pure ?_
  have hlt : n < (s₁.noteDropped t).next :=
    (hs.live n h₁.live).trans_le (h₁.frame.next.trans hnoted.waits.frame.next)
  refine ⟨hidle₂.works h₃.1, fun hn => .inl (h₃.1.frame.young n hlt ?_)⟩
  rw [hnoted.task]
  exact (h₁.child (hnoted.live ▸ h₃.1.frame.live n hlt hn)).1

theorem handleChild_does {newpid : UInt32} (hidle : Idle rest s) (ht : t ∈ s.live)
    (hhalted : Halted t s) (hold : Old s t) : Does (handleChild w t newpid) s fun r s' =>
      Idle rest s' ∧ (t ∈ s'.live → Settled t r s') := by
  refine Logic.Does.inv fun hs => ?_
  have hlt := hs.live t ht
  unfold handleChild
  refine Logic.Does.get_bind ?_
  cases hfind : s.pid2task newpid with
  | none => exact Logic.Does.throw (.inl rfl)
  | some n =>
    have hn := pid2task_mem hfind
    dsimp only
    split_ifs with hstopped
    · refine (doClone_does hidle.handling).bind fun r s₁ hto₁ h₁ => ?_
      have hs₁ := sane_of_changes hto₁ hs
      have hidle₁ := hidle.frame h₁.frame h₁.held
      have hold₁ := h₁.frame.isNew hs ht hold
      by_cases hne : t = n
      · -- a new task that has itself for a child was continued already
        subst hne
        have hmark := hold.resolve_left fun h => absurd (h.symm.trans h₁.isNew) Bool.false_ne_true
        have hrun := continueRunning_does (fun h => (h₁.child h).2) rfl (h₁.frame.marks _ hmark)
          (Q := fun _ _ => False)
        exact hrun.bind fun _ _ _ h => h.elim
      · have hhalted₁ : t ∈ s₁.live → Halted t s₁ := hhalted.frame hlt hne h₁.frame
        refine (continueHalted_does hhalted₁).bind fun _ s₂ _ h₂ => Logic.Does.pure ?_
        refine ⟨hidle₁.works h₂.works, h₂.settled hs₁ (fun _ => hold₁) ?_⟩
        exact hlt.trans_le h₁.frame.next
    · have hne : t ≠ n := by
        rintro rfl
        exact hstopped hhalted.stopped
      refine Logic.Does.changed_bind
        (Change.deferredTo n t hn hne ht hhalted.stopped hhalted.owned hold) (Logic.Does.pure ?_)
      refine ⟨⟨hidle.handling, hidle.held⟩, fun _ => ?_⟩
      have htask : (s.deferredTo n t).task t = s.task t :=
        setTask_task_of_ne s n t (fun k => { k with deferred := some t }) hne
      show _ ∨ _
      rw [htask]
      exact hold

/-! ## The other events -/

theorem handleNew_does (hidle : Idle rest s) (ht : t ∈ s.live) (hhalted : Halted t s) :
    Does (handleNew t) s fun r s' => Idle rest s' ∧ (t ∈ s'.live → Settled t r s') := by
  refine Logic.Does.inv fun hs => ?_
  unfold handleNew
  refine does_getTask fun _ => does_assert rfl fun _ => ?_
  have hs₁ := hs.change (Change.grown t ht)
  refine Logic.Does.changed_bind (Change.grown t ht) ?_
  have hset := Works.setTask s t (f := fun k => { k with isNew := false }) (fun _ => rfl)
    (fun _ _ => rfl) (fun _ => rfl) (fun _ => rfl) fun _ => rfl
  have hold : Old (s.setTask t fun k => { k with isNew := false }) t := by
    refine .inl ?_
    rw [setTask_task_self]
  have hhalted₁ : Halted t (s.setTask t fun k => { k with isNew := false }) := by
    refine ⟨hhalted.owned, ?_, ?_⟩
    · rw [setTask_task_self]
      exact hhalted.stopped
    · rw [setTask_task_self]
      exact hhalted.event
  refine (continueHalted_does fun _ => hhalted₁).bind fun _ s₁ _ h₁ => Logic.Does.pure ?_
  exact ⟨(hidle.works hset).works h₁.works, h₁.settled hs₁ (fun _ => hold) (hs.live t ht)⟩

theorem handleAboutExit_does (hidle : Idle rest s) (hhalted : Halted t s) :
    Does (handleAboutExit w a t) s fun _ s' => Idle rest s' := by
  unfold handleAboutExit
  refine does_getTask fun ht => ?_
  split_ifs
  · exact Logic.Does.changed (Change.announced t ht hhalted.stopped hhalted.owned)
      ⟨hidle.handling, hidle.held⟩
  · exact (continueHalted_does fun _ => hhalted).mono fun _ s₁ _ _ h₁ => hidle.works h₁.works

theorem handleExit_does (hidle : Idle rest s) :
    Does (handleExit t) s fun r s' => Idle rest s' ∧ Settled t r s' := by
  unfold handleExit
  refine does_getTask fun _ => ?_
  dsimp only
  split_ifs
  · refine (untraceProc_does hidle.handling).bind fun _ s₁ _ h₁ => Logic.Does.pure ?_
    exact ⟨hidle.removes h₁, trivial⟩
  · refine (taskDestroy_does hidle.handling).bind fun _ s₁ _ h₁ => Logic.Does.pure ?_
    exact ⟨hidle.removes h₁.1, trivial⟩

theorem processExec_does (hidle : s.handling = none) :
    Does (processExec w a t) s fun _ s' => Removes s s' := by
  refine Logic.Does.inv fun hs => ?_
  unfold processExec
  refine does_getTask fun ht => ?_
  have hlt := hs.live t ht
  have hl := hs.leader t hlt
  refine breakpointInvalidateAll_does.bind fun _ s₁ _ h₁ => ?_
  refine (removeOthers_does (h₁.frame.idle hidle)).bind fun _ s₂ _ h₂ => ?_
  have h₂ := h₁.removes.trans h₂
  have hl₂ := hl.trans_le h₂.frame.next
  refine Logic.Does.get_bind (does_assert rfl fun _ => ?_)
  refine (leaderCleanup_does (h₂.frame.idle hidle) hl₂
    ((h₂.frame.leader _ hl).trans (hs.head t hlt))).bind fun _ s₃ _ h₃ => ?_
  have h₃ := h₂.trans h₃.removes
  refine Logic.Does.get_bind (does_touchLeaders ?_)
  have halike : Alike s₃ { s₃ with leaders := s₃.leaders ++ [(s.task t).leader] } :=
    ⟨fun _ => rfl, fun _ _ => rfl, fun _ => rfl, fun _ _ => rfl, rfl, rfl, rfl, rfl, rfl, rfl, rfl,
      rfl⟩
  have h₄ := h₃.trans halike.waits.1.removes
  have hidle₄ := h₄.frame.idle hidle
  refine Logic.Does.changed_bind (.alike halike) ?_
  refine Logic.Does.get_bind (does_assert rfl fun _ => does_assert rfl fun _ => ?_)
  cases a.setup with
  | none =>
    refine (taskDestroy_does hidle₄).bind fun _ s₅ _ h₅ => Logic.Does.pure (h₄.trans h₅.1)
  | some setup =>
    refine (leaderSetup_does (steady_of_none hidle₄) (hl.trans_le h₄.frame.next)).bind
      fun _ s₅ _ h₅ => Logic.Does.pure (h₄.trans h₅.removes)

theorem handleExec_does (hidle : Idle rest s) (ht : t ∈ s.live) (hhalted : Halted t s) :
    Does (handleExec w a t) s fun r s' =>
      Idle rest s' ∧ (t ∈ s'.live → Settled t r s') := by
  refine Logic.Does.inv fun hs => ?_
  have hlt := hs.live t ht
  have huntrace : ∀ {s₁ : State},
      Idle rest s₁ → Does (do untraceProc t; return .deleted : Act Ret) s₁
      fun r s' => Idle rest s' ∧ (t ∈ s'.live → Settled t r s') := by
    intro s₁ hidle₁
    refine (untraceProc_does hidle₁.handling).bind fun _ s₂ _ h₂ => Logic.Does.pure ?_
    exact ⟨hidle₁.removes h₂, fun _ => trivial⟩
  unfold handleExec
  by_cases hfollow : w.followExec = true
  · rw [if_pos hfollow]
    refine (processExec_does hidle.handling).bind fun r s₁ hto₁ h₁ => ?_
    have hidle₁ := hidle.removes h₁
    cases r with
    | false => exact huntrace hidle₁
    | true =>
      have hnoted := markIf_noted s₁ ((s₁.task t).isNew = true) .newUnexpected
      have hold : Old (s₁.markIf ((s₁.task t).isNew = true) .newUnexpected) t := by
        rw [Old, hnoted.task]
        by_cases hnew : (s₁.task t).isNew = true
        · exact .inr (mem_markIf s₁ _ hnew)
        · exact .inl (Bool.not_eq_true _ ▸ hnew)
      have hframe := h₁.frame.trans hnoted.waits.frame
      have hs₂ := sane_of_changes hnoted.changes (sane_of_changes hto₁ hs)
      have hidle₂ := hidle₁.removes hnoted.waits.removes
      refine Logic.Does.modified_bind hnoted.changes ?_
      generalize s₁.markIf ((s₁.task t).isNew = true) .newUnexpected = s₂
        at hold hframe hs₂ hidle₂ ⊢
      have hhalted₂ : t ∈ s₂.live → Halted t s₂ := hhalted.frame hlt (Set.notMem_empty t) hframe
      refine (continueHalted_does hhalted₂).bind fun _ s₃ _ h₃ => Logic.Does.pure ?_
      exact ⟨hidle₂.works h₃.works, h₃.settled hs₂ (fun _ => hold) (hlt.trans_le hframe.next)⟩
  · rw [if_neg hfollow]
    exact huntrace hidle

/-! ## The handler -/

/-- A handler and the assertions behind it. -/
theorem settle_does {x : Act Ret} (h : Does x s fun r s' =>
    Idle rest s' ∧ (t ∈ s'.live → Settled t r s')) :
    Does (do let r ← x; afterEvent t r) s fun _ s' => Idle rest s' := by
  refine h.bind fun r s₁ _ h₁ => (afterEvent_does h₁.2).mono fun _ s₂ _ _ h₂ => ?_
  rw [h₂]
  exact h₁.1

theorem dispatch_does {event : Event} (hidle : Idle rest s) (ht : t ∈ s.live) (howned : t ∈ s.owned)
    (hstopped : (s.task t).stopped = true) (hevent : (s.task t).event = event)
    (hold : event.expectsOld = true → Old s t) :
    Does (dispatch w a t event) s fun _ s' => Idle rest s' := by
  refine Logic.Does.inv fun hs => ?_
  have hhalted : event.isBreakpoint = false → Halted t s :=
    fun h => ⟨howned, hstopped, hevent ▸ h⟩
  have hcontinue : ∀ {event : Event}, event.isBreakpoint = false → (s.task t).event = event →
      Old s t → Does (do continueTask t; afterEvent t .done) s fun _ s' => Idle rest s' := by
    intro event hbreak hevent hold
    have hhalted : Halted t s := ⟨howned, hstopped, hevent ▸ hbreak⟩
    refine (continueHalted_does fun _ => hhalted).bind fun _ s₁ _ h₁ => ?_
    refine (afterEvent_does (h₁.settled hs (fun _ => hold) (hs.live t ht))).mono
      fun _ s₂ _ _ h₂ => ?_
    rw [h₂]
    exact hidle.works h₁.works
  cases event with
  | none => exact hcontinue rfl hevent (hold rfl)
  | signal sig => exact hcontinue rfl hevent (hold rfl)
  | aboutExit => exact handleAboutExit_does hidle (hhalted rfl)
  | exit => exact settle_does ((handleExit_does hidle).mono fun _ _ _ _ h => ⟨h.1, fun _ => h.2⟩)
  | exitSignal =>
    exact settle_does ((handleExit_does hidle).mono fun _ _ _ _ h => ⟨h.1, fun _ => h.2⟩)
  | child newpid => exact settle_does (handleChild_does hidle ht (hhalted rfl) (hold rfl))
  | exec => exact settle_does (handleExec_does hidle ht (hhalted rfl))
  | breakpoint b =>
    refine (handleBreakpoint_does howned ht hidle.handling hevent (hold rfl)).bind
      fun _ s₁ hto₁ h₁ => ?_
    refine (afterEvent_does (r := .deferred) fun _ => h₁.2.2).mono fun _ s₂ _ _ h₂ => ?_
    rw [h₂]
    refine ⟨h₁.1, ?_⟩
    rw [h₁.2.1]
    exact hidle.held.imp_right (marks_of_changes hto₁)
  | new sig => exact settle_does (handleNew_does hidle ht (hhalted rfl))

/-- `handle_event` of a task in the hands of the server. -/
theorem handleEvent_does (hidle : Idle rest s) (howned : t ∈ s.owned) :
    Does (handleEvent w a t) s fun _ s' => Idle rest s' := by
  refine Logic.Does.inv fun hs => ?_
  unfold handleEvent
  refine does_getTask fun ht => ?_
  refine does_check (fun hrun => .inr (.inr ⟨t, howned, hrun⟩)) fun hstopped => ?_
  cases hdeferred : (s.task t).deferred with
  | some p =>
    have hne : p ≠ t := by
      rintro rfl
      exact hs.deferred p hdeferred
    refine Logic.Does.changed_bind (Change.adopted t p ht hdeferred) ?_
    have hidle₁ : Idle rest (s.adopted t p) := ⟨hidle.handling, hidle.held⟩
    refine (doCloneCb_does hne hidle₁ List.mem_cons_self).bind fun r s₁ _ h₁ => ?_
    have hafter : Does (afterEvent t .deferred) s₁ fun _ s' => Idle rest s' := by
      refine (afterEvent_does (r := .deferred) h₁.2).mono fun _ s₂ _ _ h₂ => ?_
      rw [h₂]
      exact h₁.1
    cases r with
    | deleted => exact Logic.Does.pure h₁.1
    | _ => exact hafter
  | none =>
    have hnoted := markIf_noted s ((s.task t).isNew = true ∧ (s.task t).event.expectsOld = true)
      .newUnexpected
    refine Logic.Does.modified_bind hnoted.changes ?_
    refine dispatch_does (hidle.removes hnoted.waits.removes) (hnoted.live ▸ ht) ?_ ?_ ?_
      fun hexpects => ?_
    · rw [markIf_owned]
      exact howned
    · rw [hnoted.task]
      exact hstopped
    · rw [hnoted.task]
    · rw [Old, hnoted.task]
      by_cases hnew : (s.task t).isNew = true
      · exact .inr (mem_markIf s _ ⟨hnew, hexpects⟩)
      · exact .inl (Bool.not_eq_true _ ▸ hnew)

end Mtrace.Tracer
