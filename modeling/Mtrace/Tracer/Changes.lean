import Mtrace.Tracer.Loop

/-!
# The changes of a state

Whatever the event loop does, it does by the changes of `Change`: each assigns a few fields and says
under which circumstances the code does so.  `Sane` is what every state of a run satisfies in any
case; it says that pointers lead to what exists, and how dictionaries and breakpoints belong
together.

The assertions looked at are those of `continue_task`, `queue_event` and `handle_event` (`Fault`).
-/

namespace Mtrace.Tracer

open State

/-- The marks with which a task is continued that the server does not have in its hands. -/
def Mark.takes : Mark → Bool
  | .breakInsn | .skippedEntry | .repliedHeld => true
  | _ => false

/-- A stopped task that nothing waits for but the client. -/
structure Spare (s : State) (t : TaskId) : Prop where
  stopped : (s.task t).stopped = true
  queue : s.queue.linked t = false
  parent : ¬ s.Parent t
  exit : (s.task t).aboutExit = true → .replied ∈ s.marks

/-- What a mark says about the state in which it is noted. -/
def Mark.Says (s : State) : Mark → Prop
  | .closedRunning => ∃ t ∈ s.live, (s.task t).aboutExit = true ∧ (s.task t).stopped = false
  | .continuedQueued => ∃ t ∈ s.owned, s.queue.linked t = true
  | _ => True

/-- A task without the fields that no invariant of a run depends on. -/
def Task.core (k : Task) : Task :=
  { k with is64bit := false, attached := false, libsym := none }

/-- A breakpoint, likewise. -/
def Breakpoint.core (b : Breakpoint) : ℕ × Bool × TaskId := (b.refcnt, b.deleted, b.owner)

/-- States that differ in other fields only. -/
structure Alike (s s' : State) : Prop where
  task : ∀ t, (s'.task t).core = (s.task t).core
  fresh : ∀ t, s.next ≤ t → s'.task t = s.task t
  bp : ∀ b, (s'.bp b).core = (s.bp b).core
  bpFresh : ∀ b, s.nextBp ≤ b → s'.bp b = s.bp b
  next : s'.next = s.next
  live : s'.live = s.live
  nextBp : s'.nextBp = s.nextBp
  queue : s'.queue = s.queue
  owned : s'.owned = s.owned
  handling : s'.handling = s.handling
  held : s'.held = s.held
  marks : s'.marks = s.marks

/-- What holds of every state. -/
structure Sane (s : State) : Prop where
  fresh : ∀ t, s.next ≤ t → s.task t = {}
  live : ∀ t ∈ s.live, t < s.next
  once : s.live.Nodup
  leader : ∀ t < s.next, (s.task t).leader < s.next
  head : ∀ t < s.next, (s.task (s.task t).leader).leader = (s.task t).leader
  bpFresh : ∀ b, s.nextBp ≤ b → s.bp b = {}
  shelf : ∀ l b, b ∈ (s.task l).breakpoints → (s.bp b).owner = l ∧ b < s.nextBp ∧
    (s.bp b).deleted = false
  nodup : ∀ l, (s.task l).breakpoints.Nodup
  kept : ∀ b < s.nextBp, (s.bp b).deleted = false → b ∈ (s.task (s.bp b).owner).breakpoints
  event : ∀ t b, (s.task t).event = .breakpoint b →
    (s.bp b).owner = (s.task t).leader ∧ b < s.nextBp
  handling : ∀ t b, s.handling = some (t, b) → (s.bp b).owner = (s.task t).leader ∧ b <
    s.nextBp ∧ t < s.next
  young : ∀ t, (s.task t).isNew = true → (s.task t).skipBp = none ∨ .newUnexpected ∈ s.marks
  skips : ∀ t, (s.task t).bpSkipped = true → s.handling.map Prod.fst = some t
  alive : ∀ t ∈ s.live, (s.task t).deleted = false
  deferred : ∀ t, (s.task t).deferred ≠ some t
  gone : ∀ t ∉ s.live, (s.task t).skipBp = none ∧ (s.task t).event = .none

/-- One assignment of the event loop, or a few that belong together. -/
inductive Change : State → State → Prop
  | alike {s s'} (h : Alike s s') : Change s s'
  | marked {s} (m : Mark) (hmark : m.Says s) : Change s (s.mark m)
  /-- A task is taken because the client asks for it, or in the wrong place. -/
  | took {s} (t : TaskId) (hlive : t ∈ s.live)
      (hspare : Spare s t ∨ ∃ m : Mark, m.takes = true ∧ m ∈ s.marks) : Change s (s.take t)
  | created {s} (pid : UInt32) (leader : TaskId) (hpid : pid ≠ 0) (hnew : s.pid2task pid = none)
      (hleader : (leader ∈ s.live ∧ (s.task leader).leader = leader) ∨ leader = s.next) :
        Change s (s.created pid leader)
  | setUp {s} (t : TaskId) (signum : ℕ) (hlive : t ∈ s.live)
      (hstopped : (s.task t).stopped = false) (hevent : (s.task t).event = .none) :
      Change s (s.setUp t signum)
  | arrived {s} (t : TaskId) (hlive : t ∈ s.live) (hstopped : (s.task t).stopped = false) :
      Change s (s.arrived t)
  /-- A running task stops because it is destroyed. -/
  | halted {s} (t : TaskId) (hlive : t ∈ s.live) (hmark : .destroyedRunning ∈ s.marks) :
      Change s (s.setTask t fun k => { k with stopped := true })
  | event {s} (t : TaskId) (event : Event) (hlive : t ∈ s.live)
      (hnone : event = .none → t ∈ s.owned)
      (hlost : s.unhandled t = true → .overwritten ∈ s.marks)
      (hgain : ∀ b, event = .breakpoint b → s.handling.map Prod.fst = some t ∧
        (s.bp b).owner = (s.task t).leader ∧ b < s.nextBp) : Change s (s.setEvent t event)
  | hit {s} (t : TaskId) (b : BpId) (hlive : t ∈ s.live)
      (hevent : (s.task t).event.isBreakpoint = false)
      (hdict : b ∈ (s.task (s.task t).leader).breakpoints)
      (hhandling : s.handling.map Prod.fst = some t → .skippedEntry ∈ s.marks) :
        Change s (s.hit t b)
  | continued {s} (t : TaskId) (hlive : t ∈ s.live) (hstopped : (s.task t).stopped = true)
      (howned : t ∈ s.owned) (hlost : s.unhandled t = true → .droppedEvent ∈ s.marks) :
      Change s (s.continued t)
  | queued {s} (t : TaskId) (hlive : t ∈ s.live) (hstopped : (s.task t).stopped = true)
      (howned : t ∈ s.owned) (hevent : (s.task t).event ≠ .none) : Change s (s.queued t)
  | dequeued {s} (t : TaskId) (hhead : s.queue.next none = some t) : Change s (s.dequeued t)
  | deferredTo {s} (n t : TaskId) (hn : n ∈ s.live) (hne : t ≠ n) (hlive : t ∈ s.live)
      (hstopped : (s.task t).stopped = true) (howned : t ∈ s.owned)
        (hold : (s.task t).isNew = false ∨ .newUnexpected ∈ s.marks) :
      Change s (s.deferredTo n t)
  | adopted {s} (n t : TaskId) (hn : n ∈ s.live) (hparent : (s.task n).deferred = some t) :
      Change s (s.adopted n t)
  /-- A new task is continued with its parent. -/
  | joined {s} (n : TaskId) (hlive : n ∈ s.live) (hstopped : (s.task n).stopped = true)
      (hnew : (s.task n).isNew = true) (hexit : (s.task n).aboutExit = true →
        .clonedAboutExit ∈ s.marks)
      (hqueued : s.queue.linked n = true → .clonedQueued ∈ s.marks) : Change s (s.take n)
  | announced {s} (t : TaskId) (hlive : t ∈ s.live) (hstopped : (s.task t).stopped = true)
      (howned : t ∈ s.owned) : Change s (s.announced t)
  | withdrawn {s} (t : TaskId) (hlive : t ∈ s.live) (hexit : (s.task t).aboutExit = true)
      (hheld : s.queue.linked t = true ∨ s.Parent t → .closedHeld ∈ s.marks) :
        Change s (s.withdrawn t)
  | grown {s} (t : TaskId) (hlive : t ∈ s.live) :
      Change s (s.setTask t fun k => { k with isNew := false })
  | skipped {s} (t : TaskId) (b : BpId) (hlive : t ∈ s.live) (hskip : (s.task t).skipBp = none)
      (hbp : (s.bp b).refcnt ≠ 0) (hold : (s.task t).isNew = false ∨ .newUnexpected ∈ s.marks) :
      Change s (s.skipped t b)
  | unskipped {s} (t : TaskId) (b : BpId) (hskip : (s.task t).skipBp = some b) :
      Change s (s.unskipped t b)
  | released {s} (b : BpId) (hheld : b ∈ s.held) (hbp : (s.bp b).refcnt ≠ 0) :
    Change s (s.released b)
  | pends {s} (t : TaskId) (b : BpId) (hlive : t ∈ s.live)
      (hdict : b ∈ (s.task (s.task t).leader).breakpoints) : Change s (s.pends t b)
  | unpends {s} (t : TaskId) : Change s (s.setTask t fun k => { k with breakpoint := none })
  | addedBp {s} (leader : TaskId) (bp : Breakpoint) (hleader : leader < s.next)
      (hbp : bp.deleted = false) : Change s (s.addedBp leader bp)
  | removedBp {s} (leader : TaskId) (b : BpId) (hdict : b ∈ (s.task leader).breakpoints)
      (hpending : s.pending b = true → .deletedPending ∈ s.marks) : Change s (s.removedBp leader b)
  | handles {s} (t : TaskId) (b : BpId) (hlive : t ∈ s.live) (hnone : s.handling = none)
      (hevent : (s.task t).event = .breakpoint b) : Change s (s.handles t b)
  /-- A hit is skipped before it was handled. -/
  | leaves {s} (t : TaskId) (hlive : t ∈ s.live) (hhandling : s.handling.map Prod.fst = some t) :
      Change s (s.setTask t fun k => { k with bpSkipped := true })
  | left {s} (t : TaskId) (hlive : t ∈ s.live) :
      Change s (s.setTask t fun k => { k with bpSkipped := false })
  | handled {s} (t : TaskId) (b : BpId) (hhandling : s.handling = some (t, b))
      (hleft : (s.task t).bpSkipped = false)
      (hevent : (s.task t).event.isBreakpoint = true → .skippedEntry ∈ s.marks) :
      Change s (s.handled b)
  | unqueued {s} (t : TaskId) (hlive : t ∈ s.live)
      (hhandling : s.handling.map Prod.fst ≠ some t) : Change s (s.unqueued t)
  | retired {s} (t : TaskId) (hlive : t ∈ s.live)
      (hstopped : (s.task t).stopped = true ∨ .destroyedRunning ∈ s.marks)
      (hevent : (s.task t).event = .none) (hskip : (s.task t).skipBp = none)
      (hqueue : s.queue.linked t = false) (howned : t ∉ s.owned)
      (hparent : s.Parent t → .destroyedParent ∈ s.marks) : Change s (s.retired t)
  /-- A process could not be attached or created. -/
  | abandoned {s} (t : TaskId) (hlive : t ∈ s.live) (hleader : (s.task t).leader = t)
      (halone : ∀ p ∈ s.live, (s.task p).leader = t → p = t)
      (hevent : (s.task t).event.isBreakpoint = false) (hskip : (s.task t).skipBp = none)
      (hfree : t ∈ s.owned ∨ (s.task t).stopped = false)
      (hparent : s.Parent t → .destroyedParent ∈ s.marks) : Change s (s.abandoned t)

/-- What an update of one task leaves alone. -/
theorem setTask_field {β : Type} {s : State} {t : TaskId} (g : Task → β) {f : Task → Task}
    (hf : g (f (s.task t)) = g (s.task t)) (p : TaskId) :
    g ((s.setTask t f).task p) = g (s.task p) := by
  rw [setTask_task]
  split_ifs with hp
  · rw [hp, hf]
  · rfl

/-! ## Sane states stay sane -/

theorem start_sane (inputs : List Input) : Sane (.start inputs) where
  fresh _ _ := rfl
  live _ ht := nomatch ht
  once := List.nodup_nil
  leader _ ht := nomatch ht
  head _ ht := nomatch ht
  bpFresh _ _ := rfl
  shelf _ _ hb := nomatch hb
  nodup _ := List.nodup_nil
  kept _ hb := nomatch hb
  event _ _ h := nomatch h
  handling _ _ h := nomatch h
  young _ _ := .inl rfl
  skips _ h := nomatch h
  alive _ ht := nomatch ht
  deferred _ h := nomatch h
  gone _ _ := ⟨rfl, rfl⟩

section Sane

variable {s s' : State} {t : TaskId} {b : BpId}

/-- A task that differs from a fresh one exists. -/
theorem Sane.lt (hs : Sane s) (h : s.task t ≠ {}) : t < s.next := by
  by_contra hle
  exact h (hs.fresh t (not_lt.mp hle))

theorem Sane.lt_of_stopped (hs : Sane s) (h : (s.task t).stopped = true) : t < s.next := by
  refine hs.lt fun heq => ?_
  rw [heq] at h
  cases h

theorem Sane.bp_lt (hs : Sane s) (h : (s.bp b).refcnt ≠ 0) : b < s.nextBp := by
  by_contra hle
  exact h (congrArg Breakpoint.refcnt (hs.bpFresh b (not_lt.mp hle)))

/-- Changes outside of the tasks and breakpoints. -/
theorem Sane.frame (hs : Sane s) (htask : s'.task = s.task) (hnext : s'.next = s.next)
    (hlive : s'.live = s.live) (hbp : s'.bp = s.bp) (hnextBp : s'.nextBp = s.nextBp)
    (hhandling : s'.handling = s.handling ∨
      s'.handling = none ∧ ∀ t, s.handling.map Prod.fst = some t → (s.task t).bpSkipped = false)
    (hmarks : ∀ m ∈ s.marks, m ∈ s'.marks) : Sane s' where
  fresh t ht := by rw [htask]; exact hs.fresh t (hnext ▸ ht)
  live t ht := by rw [hnext]; exact hs.live t (hlive ▸ ht)
  once := by rw [hlive]; exact hs.once
  leader t ht := by rw [htask, hnext]; exact hs.leader t (hnext ▸ ht)
  head t ht := by rw [htask]; exact hs.head t (hnext ▸ ht)
  bpFresh b hb := by rw [hbp]; exact hs.bpFresh b (hnextBp ▸ hb)
  shelf l b hb := by rw [hbp, hnextBp]; exact hs.shelf l b (htask ▸ hb)
  nodup l := by rw [htask]; exact hs.nodup l
  kept b hb hdel := by rw [htask, hbp]; exact hs.kept b (hnextBp ▸ hb) (hbp ▸ hdel)
  event t b h := by rw [htask, hbp, hnextBp]; exact hs.event t b (htask ▸ h)
  handling t b h := by
    rw [htask, hbp, hnextBp, hnext]
    obtain heq | ⟨heq, -⟩ := hhandling
    · exact hs.handling t b (heq ▸ h)
    · rw [heq] at h
      cases h
  young t h := by
    rw [htask] at h ⊢
    exact (hs.young t h).imp_right (hmarks _)
  skips t h := by
    rw [htask] at h
    have hskips := hs.skips t h
    obtain heq | ⟨-, hleft⟩ := hhandling
    · rw [heq]
      exact hskips
    · exact absurd ((hleft t hskips).symm.trans h) Bool.false_ne_true
  alive t ht := by rw [htask]; exact hs.alive t (hlive ▸ ht)
  deferred t := by rw [htask]; exact hs.deferred t
  gone t ht := by rw [htask]; exact hs.gone t (hlive ▸ ht)

theorem Sane.setTask (hs : Sane s) (ht : t < s.next) {f : Task → Task}
    (hleader : (f (s.task t)).leader = (s.task t).leader)
    (hdict : (f (s.task t)).breakpoints = (s.task t).breakpoints)
    (hevent : ∀ b, (f (s.task t)).event = .breakpoint b →
      (s.bp b).owner = (s.task t).leader ∧ b < s.nextBp)
    (hyoung : (f (s.task t)).isNew = true →
      (f (s.task t)).skipBp = none ∨ .newUnexpected ∈ s.marks)
    (hskips : (f (s.task t)).bpSkipped = true → s.handling.map Prod.fst = some t)
    (halive : t ∈ s.live → (f (s.task t)).deleted = false)
    (hdeferred : (f (s.task t)).deferred ≠ some t)
    (hgone : t ∉ s.live → (f (s.task t)).skipBp = none ∧ (f (s.task t)).event = .none) :
    Sane (s.setTask t f) := by
  have hdicts : ∀ l, ((s.setTask t f).task l).breakpoints = (s.task l).breakpoints := by
    intro l
    by_cases hl : l = t
    · subst hl
      rw [setTask_task_self, hdict]
    · rw [setTask_task_of_ne _ _ _ _ hl]
  have hleaders : ∀ p, ((s.setTask t f).task p).leader = (s.task p).leader := by
    intro p
    by_cases hp : p = t
    · subst hp
      rw [setTask_task_self, hleader]
    · rw [setTask_task_of_ne _ _ _ _ hp]
  refine ⟨fun p hp => ?_, hs.live, hs.once, fun p hp => ?_, fun p hp => ?_, hs.bpFresh,
    fun l b hb => ?_, fun l => ?_, fun b hb hdel => ?_, fun p b h => ?_, fun p b h => ?_,
    fun p h => ?_, fun p h => ?_, fun p hp => ?_, fun p => ?_, fun p hp => ?_⟩
  · have hne : p ≠ t := fun heq => absurd ht (not_lt.mpr (heq ▸ hp))
    rw [setTask_task_of_ne _ _ _ _ hne]
    exact hs.fresh p hp
  · rw [hleaders]
    exact hs.leader p hp
  · rw [hleaders, hleaders]
    exact hs.head p hp
  · exact hs.shelf l b (hdicts l ▸ hb)
  · rw [hdicts]
    exact hs.nodup l
  · rw [hdicts]
    exact hs.kept b hb hdel
  · rw [hleaders]
    by_cases hp : p = t
    · subst hp
      rw [setTask_task_self] at h
      exact hevent b h
    · rw [setTask_task_of_ne _ _ _ _ hp] at h
      exact hs.event p b h
  · rw [hleaders]
    exact hs.handling p b h
  · by_cases hp : p = t
    · subst hp
      rw [setTask_task_self] at h ⊢
      exact hyoung h
    · rw [setTask_task_of_ne _ _ _ _ hp] at h ⊢
      exact hs.young p h
  · by_cases hp : p = t
    · subst hp
      rw [setTask_task_self] at h
      exact hskips h
    · rw [setTask_task_of_ne _ _ _ _ hp] at h
      exact hs.skips p h
  · by_cases heq : p = t
    · subst heq
      rw [setTask_task_self]
      exact halive hp
    · rw [setTask_task_of_ne _ _ _ _ heq]
      exact hs.alive p hp
  · by_cases hp : p = t
    · subst hp
      rw [setTask_task_self]
      exact hdeferred
    · rw [setTask_task_of_ne _ _ _ _ hp]
      exact hs.deferred p
  · by_cases heq : p = t
    · subst heq
      rw [setTask_task_self]
      exact hgone hp
    · rw [setTask_task_of_ne _ _ _ _ heq]
      exact hs.gone p hp

/-- A task that is not being destroyed. -/
theorem Sane.setLive (hs : Sane s) (ht : t ∈ s.live) {f : Task → Task}
    (hleader : (f (s.task t)).leader = (s.task t).leader)
    (hdict : (f (s.task t)).breakpoints = (s.task t).breakpoints)
    (hevent : ∀ b, (f (s.task t)).event = .breakpoint b →
      (s.bp b).owner = (s.task t).leader ∧ b < s.nextBp)
    (hyoung : (f (s.task t)).isNew = true →
      (f (s.task t)).skipBp = none ∨ .newUnexpected ∈ s.marks)
    (hskips : (f (s.task t)).bpSkipped = true → s.handling.map Prod.fst = some t)
    (hdeleted : (f (s.task t)).deleted = (s.task t).deleted)
    (hdeferred : (f (s.task t)).deferred ≠ some t) : Sane (s.setTask t f) :=
  hs.setTask (hs.live t ht) hleader hdict hevent hyoung hskips
    (fun h => hdeleted.trans (hs.alive t h)) hdeferred fun h => absurd ht h

/-- The counters of a leader do not matter. -/
theorem Sane.setLeader (hs : Sane s) (ht : t < s.next) (threads threadsStopped : Task → UInt32) :
    Sane (s.setTask (s.task t).leader fun l =>
      { l with threads := threads l, threadsStopped := threadsStopped l }) :=
  hs.setTask (hs.leader t ht) rfl rfl (hs.event _) (hs.young _) (hs.skips _) (hs.alive _)
    (hs.deferred _) (hs.gone _)

theorem Sane.setBp (hs : Sane s) (hb : b < s.nextBp) {g : Breakpoint → Breakpoint}
    (howner : (g (s.bp b)).owner = (s.bp b).owner)
    (hdeleted : (g (s.bp b)).deleted = (s.bp b).deleted) : Sane (s.setBp b g) := by
  have howners : ∀ c, ((s.setBp b g).bp c).owner = (s.bp c).owner := by
    intro c
    rw [setBp_bp]
    split_ifs with h
    · rw [h, howner]
    · rfl
  have hdel : ∀ c, ((s.setBp b g).bp c).deleted = (s.bp c).deleted := by
    intro c
    rw [setBp_bp]
    split_ifs with h
    · rw [h, hdeleted]
    · rfl
  refine ⟨hs.fresh, hs.live, hs.once, hs.leader, hs.head, fun c hc => ?_, fun l c hc => ?_,
    hs.nodup, fun c hc h => ?_, fun p c h => ?_, fun p c h => ?_, hs.young, hs.skips, hs.alive,
    hs.deferred, hs.gone⟩
  · have hne : c ≠ b := fun heq => absurd hb (not_lt.mpr (heq ▸ hc))
    rw [setBp_bp, if_neg hne]
    exact hs.bpFresh c hc
  · rw [howners, hdel]
    exact hs.shelf l c hc
  · rw [howners]
    exact hs.kept c hc (hdel c ▸ h)
  · rw [howners]
    exact hs.event p c h
  · rw [howners]
    exact hs.handling p c h

theorem Sane.inserted (hs : Sane s) (pid : UInt32) {leader : TaskId}
    (hleader : (leader < s.next ∧ (s.task leader).leader = leader) ∨ leader = s.next) :
    Sane (s.inserted pid leader) := by
  have hle : leader < s.next + 1 :=
    hleader.elim (fun h => Nat.lt_succ_of_lt h.1) fun h => h ▸ Nat.lt_succ_self _
  have hnew : s.task s.next = {} := hs.fresh s.next le_rfl
  have hself : (s.inserted pid leader).task s.next = { pid, leader, isNew := true } :=
    Function.update_self _ _ _
  have hother : ∀ p, p ≠ s.next → (s.inserted pid leader).task p = s.task p :=
    fun p hp => Function.update_of_ne hp _ _
  have hdict : ∀ l, ((s.inserted pid leader).task l).breakpoints = (s.task l).breakpoints := by
    intro l
    by_cases hl : l = s.next
    · rw [hl, hself, hnew]
    · rw [hother l hl]
  refine ⟨fun p hp => ?_, fun p hp => ?_, ?_, fun p hp => ?_, fun p hp => ?_, hs.bpFresh,
    fun l b hb => ?_, fun l => ?_, fun b hb hdel => ?_, fun p b h => ?_, fun p b h => ?_,
    fun p h => ?_, fun p h => ?_, fun p hp => ?_, fun p => ?_, fun p hp => ?_⟩
  · have hlt : s.next < p := hp
    rw [hother p (Nat.ne_of_gt hlt)]
    exact hs.fresh p (Nat.le_of_lt hlt)
  · obtain hp | hp := List.mem_append.mp hp
    · exact Nat.lt_succ_of_lt (hs.live p hp)
    · exact List.mem_singleton.mp hp ▸ Nat.lt_succ_self _
  · refine List.nodup_append.mpr ⟨hs.once, List.nodup_singleton _, fun p hp q hq heq => ?_⟩
    exact absurd (heq.trans (List.mem_singleton.mp hq)) (Nat.ne_of_lt (hs.live p hp))
  · by_cases hn : p = s.next
    · rw [hn, hself]
      exact hle
    · have hlt : p < s.next := Nat.lt_of_le_of_ne (Nat.le_of_lt_succ hp) hn
      rw [hother p hn]
      exact Nat.lt_succ_of_lt (hs.leader p hlt)
  · by_cases hn : p = s.next
    · rw [hn, hself]
      obtain ⟨hlt, hhead⟩ | rfl := hleader
      · rw [hother leader (Nat.ne_of_lt hlt)]
        exact hhead
      · rw [hself]
    · have hlt : p < s.next := Nat.lt_of_le_of_ne (Nat.le_of_lt_succ hp) hn
      rw [hother p hn, hother _ (Nat.ne_of_lt (hs.leader p hlt))]
      exact hs.head p hlt
  · exact hs.shelf l b (hdict l ▸ hb)
  · rw [hdict]
    exact hs.nodup l
  · rw [hdict]
    exact hs.kept b hb hdel
  · by_cases hn : p = s.next
    · rw [hn, hself] at h
      cases h
    · rw [hother p hn] at h ⊢
      exact hs.event p b h
  · obtain ⟨howner, hb, hlt⟩ := hs.handling p b h
    rw [hother p (Nat.ne_of_lt hlt)]
    exact ⟨howner, hb, Nat.lt_succ_of_lt hlt⟩
  · by_cases hn : p = s.next
    · rw [hn, hself]
      exact .inl rfl
    · rw [hother p hn] at h ⊢
      exact hs.young p h
  · by_cases hn : p = s.next
    · rw [hn, hself] at h
      cases h
    · rw [hother p hn] at h
      exact hs.skips p h
  · by_cases hn : p = s.next
    · rw [hn, hself]
    · rw [hother p hn]
      refine hs.alive p ((List.mem_append.mp hp).resolve_right fun h => ?_)
      exact hn (List.mem_singleton.mp h)
  · by_cases hn : p = s.next
    · rw [hn, hself]
      exact nofun
    · rw [hother p hn]
      exact hs.deferred p
  · by_cases hn : p = s.next
    · exact absurd (List.mem_append_right _ (hn ▸ List.mem_cons_self)) hp
    · rw [hother p hn]
      exact hs.gone p fun h => hp (List.mem_append_left _ h)

theorem Sane.created (hs : Sane s) (pid : UInt32) {leader : TaskId}
    (hleader : (leader < s.next ∧ (s.task leader).leader = leader) ∨ leader = s.next) :
    Sane (s.created pid leader) := by
  have h1 := hs.inserted pid hleader
  have hle : leader < s.next + 1 :=
    hleader.elim (fun h => Nat.lt_succ_of_lt h.1) fun h => h ▸ Nat.lt_succ_self _
  exact h1.setTask hle rfl rfl (h1.event _) (h1.young _) (h1.skips _) (h1.alive _)
    (h1.deferred _) (h1.gone _)

theorem Sane.addedBp (hs : Sane s) {leader : TaskId} (hleader : leader < s.next) {bp : Breakpoint}
    (hbp : bp.deleted = false) : Sane (s.addedBp leader bp) := by
  have hdict : ∀ l, ((s.addedBp leader bp).task l).breakpoints =
      if l = leader then (s.task l).breakpoints ++ [s.nextBp] else (s.task l).breakpoints := by
    intro l
    unfold State.addedBp
    rw [setTask_task]
    split_ifs with h
    · rw [h]
    · rfl
  have htask : ∀ p, (s.addedBp leader bp).task p = { s.task p with
      breakpoints := ((s.addedBp leader bp).task p).breakpoints } := by
    intro p
    unfold State.addedBp
    rw [setTask_task]
    split_ifs with h
    · rw [h]
    · rfl
  have hold : ∀ c, c ≠ s.nextBp → (s.addedBp leader bp).bp c = s.bp c :=
    fun c hc => Function.update_of_ne hc _ _
  have hnew : (s.addedBp leader bp).bp s.nextBp = { bp with refcnt := 1, owner := leader } :=
    Function.update_self _ _ _
  have hnext : (s.addedBp leader bp).nextBp = s.nextBp + 1 := rfl
  have hmem : ∀ l b, b ∈ (s.task l).breakpoints → b ≠ s.nextBp :=
    fun l b hb => Nat.ne_of_lt (hs.shelf l b hb).2.1
  refine ⟨fun p hp => ?_, hs.live, hs.once, fun p hp => ?_, fun p hp => ?_, fun b hb => ?_,
    fun l b hb => ?_, fun l => ?_, fun b hb hdel => ?_, fun p b h => ?_, fun p b h => ?_,
    fun p h => ?_, fun p h => ?_, fun p hp => ?_, fun p => ?_, fun p hp => ?_⟩
  · have hne : p ≠ leader := fun heq => absurd hleader (not_lt.mpr (heq ▸ hp))
    rw [htask, hdict, if_neg hne]
    exact hs.fresh p hp
  · rw [htask]
    exact hs.leader p hp
  · rw [htask p, htask]
    exact hs.head p hp
  · rw [hnext] at hb
    have hlt : s.nextBp < b := hb
    rw [hold b (Nat.ne_of_gt hlt)]
    exact hs.bpFresh b (Nat.le_of_lt hlt)
  · have hcases : b ∈ (s.task l).breakpoints ∨ (l = leader ∧ b = s.nextBp) := by
      rw [hdict] at hb
      split_ifs at hb with hl
      · obtain hb | hb := List.mem_append.mp hb
        · exact .inl hb
        · exact .inr ⟨hl, List.mem_singleton.mp hb⟩
      · exact .inl hb
    obtain hb | ⟨rfl, rfl⟩ := hcases
    · rw [hold b (hmem l b hb), hnext]
      obtain ⟨howner, hlt, hdel⟩ := hs.shelf l b hb
      exact ⟨howner, Nat.lt_succ_of_lt hlt, hdel⟩
    · rw [hnew, hnext]
      exact ⟨rfl, Nat.lt_succ_self _, hbp⟩
  · rw [hdict]
    split_ifs with hl
    · refine List.nodup_append.mpr ⟨hs.nodup l, List.nodup_singleton _, fun b hb c hc heq => ?_⟩
      exact hmem l b hb (heq.trans (List.mem_singleton.mp hc))
    · exact hs.nodup l
  · rw [hnext] at hb
    by_cases hn : b = s.nextBp
    · rw [hn, hnew, hdict, if_pos rfl]
      exact List.mem_append_right _ List.mem_cons_self
    · rw [hold b hn] at hdel ⊢
      have hkept := hs.kept b (Nat.lt_of_le_of_ne (Nat.le_of_lt_succ hb) hn) hdel
      rw [hdict]
      split_ifs with hl
      · exact List.mem_append_left _ hkept
      · exact hkept
  · rw [htask] at h ⊢
    obtain ⟨howner, hlt⟩ := hs.event p b h
    rw [hold b (Nat.ne_of_lt hlt)]
    exact ⟨howner, Nat.lt_succ_of_lt hlt⟩
  · obtain ⟨howner, hlt, hp⟩ := hs.handling p b h
    rw [hold b (Nat.ne_of_lt hlt), htask]
    exact ⟨howner, Nat.lt_succ_of_lt hlt, hp⟩
  · rw [htask] at h ⊢
    exact hs.young p h
  · rw [htask] at h
    exact hs.skips p h
  · rw [htask]
    exact hs.alive p hp
  · rw [htask]
    exact hs.deferred p
  · rw [htask]
    exact hs.gone p hp

theorem Sane.removedBp (hs : Sane s) {leader : TaskId} (hb : b ∈ (s.task leader).breakpoints) :
    Sane (s.removedBp leader b) := by
  obtain ⟨howner, hlt, hdel⟩ := hs.shelf leader b hb
  have hdict : ∀ l, ((s.removedBp leader b).task l).breakpoints =
      if l = leader then (s.task l).breakpoints.erase b else (s.task l).breakpoints := by
    intro l
    unfold State.removedBp
    rw [setBp_task, setTask_task]
    split_ifs with h
    · rw [h]
    · rfl
  have htask : ∀ p, (s.removedBp leader b).task p = { s.task p with
      breakpoints := ((s.removedBp leader b).task p).breakpoints } := by
    intro p
    unfold State.removedBp
    rw [setBp_task, setTask_task]
    split_ifs with h
    · rw [h]
    · rfl
  have hbp : ∀ c, (s.removedBp leader b).bp c =
      if c = b then { s.bp c with deleted := true, libsym := none } else s.bp c := by
    intro c
    refine (Function.update_apply _ _ _ _).trans ?_
    split_ifs with h
    · rw [h]
      rfl
    · rfl
  have howners : ∀ c, ((s.removedBp leader b).bp c).owner = (s.bp c).owner := by
    intro c
    rw [hbp]
    split_ifs <;> rfl
  refine ⟨fun p hp => ?_, hs.live, hs.once, fun p hp => ?_, fun p hp => ?_, fun c hc => ?_,
    fun l c hc => ?_, fun l => ?_, fun c hc hcdel => ?_, fun p c h => ?_, fun p c h => ?_,
    fun p h => ?_, fun p h => ?_, fun p hp => ?_, fun p => ?_, fun p hp => ?_⟩
  · have hfresh := hs.fresh p hp
    rw [htask, hdict, hfresh]
    split_ifs <;> rfl
  · rw [htask]
    exact hs.leader p hp
  · rw [htask p, htask]
    exact hs.head p hp
  · have hne : c ≠ b := fun heq => absurd hlt (not_lt.mpr (heq ▸ hc))
    rw [hbp, if_neg hne]
    exact hs.bpFresh c hc
  · rw [hdict] at hc
    have hmem : c ∈ (s.task l).breakpoints := by
      split_ifs at hc
      · exact List.mem_of_mem_erase hc
      · exact hc
    obtain ⟨hown, hclt, hcdel⟩ := hs.shelf l c hmem
    have hne : c ≠ b := by
      rintro rfl
      have hl : l = leader := hown.symm.trans howner
      rw [if_pos hl] at hc
      exact ((hs.nodup l).mem_erase_iff.mp hc).1 rfl
    rw [hbp, if_neg hne]
    exact ⟨hown, hclt, hcdel⟩
  · rw [hdict]
    split_ifs
    · exact (hs.nodup l).erase b
    · exact hs.nodup l
  · rw [hbp] at hcdel
    split_ifs at hcdel with hne
    have hkept := hs.kept c hc hcdel
    rw [howners, hdict]
    split_ifs
    · exact (List.mem_erase_of_ne hne).mpr hkept
    · exact hkept
  · rw [htask] at h ⊢
    rw [howners]
    exact hs.event p c h
  · rw [howners, htask]
    exact hs.handling p c h
  · rw [htask] at h ⊢
    exact hs.young p h
  · rw [htask] at h
    exact hs.skips p h
  · rw [htask]
    exact hs.alive p hp
  · rw [htask]
    exact hs.deferred p
  · rw [htask]
    exact hs.gone p hp

theorem Sane.alike (hs : Sane s) (h : Alike s s') : Sane s' := by
  have htask : ∀ {β : Type} (g : Task → β), (∀ k, g k.core = g k) → ∀ p,
      g (s'.task p) = g (s.task p) := by
    intro β g hg p
    rw [← hg, h.task, hg]
  have hbp : ∀ b, ((s'.bp b).refcnt, (s'.bp b).deleted, (s'.bp b).owner) =
      ((s.bp b).refcnt, (s.bp b).deleted, (s.bp b).owner) := h.bp
  have howner : ∀ b, (s'.bp b).owner = (s.bp b).owner := fun b => congrArg (·.2.2) (hbp b)
  have hdeleted : ∀ b, (s'.bp b).deleted = (s.bp b).deleted := fun b => congrArg (·.2.1) (hbp b)
  have hdict := htask Task.breakpoints fun _ => rfl
  have hleader := htask Task.leader fun _ => rfl
  refine ⟨fun p hp => ?_, fun p hp => ?_, ?_, fun p hp => ?_, fun p hp => ?_, fun b hb => ?_,
    fun l b hb => ?_, fun l => ?_, fun b hb hdel => ?_, fun p b hev => ?_, fun p b hha => ?_,
    fun p hnew => ?_, fun p hskip => ?_, fun p hp => ?_, fun p => ?_,
    fun p hp => ?_⟩
  · rw [h.fresh p (h.next ▸ hp)]
    exact hs.fresh p (h.next ▸ hp)
  · rw [h.next]
    exact hs.live p (h.live ▸ hp)
  · rw [h.live]
    exact hs.once
  · rw [hleader, h.next]
    exact hs.leader p (h.next ▸ hp)
  · rw [hleader p, hleader]
    exact hs.head p (h.next ▸ hp)
  · rw [h.bpFresh b (h.nextBp ▸ hb)]
    exact hs.bpFresh b (h.nextBp ▸ hb)
  · rw [howner, hdeleted, h.nextBp]
    exact hs.shelf l b (hdict l ▸ hb)
  · rw [hdict]
    exact hs.nodup l
  · rw [howner, hdict]
    exact hs.kept b (h.nextBp ▸ hb) (hdeleted b ▸ hdel)
  · rw [howner, hleader, h.nextBp]
    exact hs.event p b (htask Task.event (fun _ => rfl) p ▸ hev)
  · rw [howner, hleader, h.nextBp, h.next]
    exact hs.handling p b (h.handling ▸ hha)
  · rw [htask Task.skipBp (fun _ => rfl), h.marks]
    exact hs.young p (htask Task.isNew (fun _ => rfl) p ▸ hnew)
  · rw [h.handling]
    exact hs.skips p (htask Task.bpSkipped (fun _ => rfl) p ▸ hskip)
  · rw [htask Task.deleted fun _ => rfl]
    exact hs.alive p (h.live ▸ hp)
  · rw [htask Task.deferred fun _ => rfl]
    exact hs.deferred p
  · rw [htask Task.skipBp fun _ => rfl, htask Task.event fun _ => rfl]
    exact hs.gone p (h.live ▸ hp)

/-- A task that is gone keeps nothing. -/
theorem Sane.erased (hs : Sane s) (hevent : (s.task t).event = .none)
    (hskip : (s.task t).skipBp = none) : Sane { s with live := s.live.erase t } := by
  refine { hs with
    live := fun p hp => hs.live p (List.mem_of_mem_erase hp)
    once := hs.once.erase t
    alive := fun p hp => hs.alive p (List.mem_of_mem_erase hp)
    gone := fun p hp => ?_ }
  by_cases heq : p = t
  · rw [heq]
    exact ⟨hskip, hevent⟩
  · exact hs.gone p fun h => hp ((List.mem_erase_of_ne heq).mpr h)

theorem Sane.retired (hs : Sane s) (ht : t ∈ s.live) (hevent : (s.task t).event = .none)
    (hskip : (s.task t).skipBp = none) : Sane (s.retired t) := by
  have hlt := hs.live t ht
  have hne : ∀ p ∈ s.live.erase t, p ≠ t := fun p hp => (hs.once.mem_erase_iff.mp hp).1
  have h1 := hs.erased hevent hskip
  have h2 := h1.setTask (f := fun k => { k with deleted := true }) hlt rfl rfl (h1.event t)
    (h1.young t) (h1.skips t) (fun h => absurd rfl (hne t h)) (h1.deferred t) (h1.gone t)
  exact h2.setTask (f := fun l => { l with
    threads := l.threads - 1, threadsStopped := l.threadsStopped - 1 }) (hs.leader t hlt) rfl rfl
    (h2.event _) (h2.young _) (h2.skips _) (h2.alive _) (h2.deferred _) (h2.gone _)

theorem Sane.abandoned (hs : Sane s) (ht : t ∈ s.live) (hskip : (s.task t).skipBp = none) :
    Sane (s.abandoned t) := by
  let s₁ := (s.setEvent t .none).drop t
  let f : Task → Task := fun k => { k with threads := 0, threadsStopped := 0 }
  have h₁ : Sane (s.setEvent t .none) :=
    hs.setLive ht rfl rfl nofun (hs.young t) (hs.skips t) rfl (hs.deferred t)
  have h₂ : Sane s₁ := h₁.frame rfl rfl rfl rfl rfl (.inl rfl) fun _ hm => hm
  have h₃ : Sane (s₁.setTask t f) :=
    h₂.setLive ht rfl rfl (h₂.event t) (h₂.young t) (h₂.skips t) rfl (h₂.deferred t)
  have hself : s₁.task t = { s.task t with event := .none } :=
    setTask_task_self s t fun k => { k with event := .none }
  refine h₃.erased ?_ ?_
  all_goals rw [setTask_task_self, hself]
  exact hskip

/-- Every change keeps sane states sane. -/
theorem Sane.change (hs : Sane s) (h : Change s s') : Sane s' := by
  have hle : ∀ m ∈ s.marks, m ∈ s.marks := fun _ hm => hm
  cases h with
  | alike h => exact hs.alike h
  | marked m =>
    exact hs.frame rfl rfl rfl rfl rfl (.inl rfl) fun _ hm => List.mem_cons_of_mem m hm
  | took t => exact hs.frame rfl rfl rfl rfl rfl (.inl rfl) hle
  | created pid leader hpid hnew hleader =>
    exact hs.created pid (hleader.imp_left (And.imp_left (hs.live leader)))
  | setUp t signum ht =>
    have h1 := hs.setLeader (hs.live t ht) (·.threads) (·.threadsStopped + 1)
    have h2 := h1.setLive (f := fun k => { k with
      attached := true, stopped := true, event := .new signum }) ht rfl rfl nofun (h1.young t)
      (h1.skips t) rfl (h1.deferred t)
    exact h2.frame rfl rfl rfl rfl rfl (.inl rfl) hle
  | arrived t ht =>
    have h1 := hs.setLeader (hs.live t ht) (·.threads) (·.threadsStopped + 1)
    have h2 := h1.setLive (f := fun k => { k with stopped := true }) ht rfl rfl (h1.event t)
      (h1.young t) (h1.skips t) rfl (h1.deferred t)
    exact h2.frame rfl rfl rfl rfl rfl (.inl rfl) hle
  | halted t ht =>
    exact hs.setLive ht rfl rfl (hs.event t) (hs.young t) (hs.skips t) rfl (hs.deferred t)
  | event t event ht hnone hlost hgain =>
    refine hs.setLive ht rfl rfl (fun b hb => ?_) (hs.young t) (hs.skips t) rfl (hs.deferred t)
    exact (hgain b hb).2
  | hit t b ht hevent hdict =>
    obtain ⟨howner, hb, -⟩ := hs.shelf _ b hdict
    have h1 := hs.setBp (g := fun bp => { bp with refcnt := bp.refcnt + 1 }) hb rfl rfl
    refine h1.setLive (f := fun k => { k with event := .breakpoint b }) ht rfl rfl
      (fun c hc => ?_) (h1.young t) (h1.skips t) rfl (h1.deferred t)
    cases hc
    rw [setBp_bp_self]
    exact ⟨howner, hb⟩
  | continued t ht =>
    have h1 := hs.setLeader (hs.live t ht) (·.threads) (·.threadsStopped - 1)
    have h2 := h1.setLive (f := fun k => { k with stopped := false, event := .none }) ht rfl rfl
      nofun (h1.young t) (h1.skips t) rfl (h1.deferred t)
    exact h2.frame rfl rfl rfl rfl rfl (.inl rfl) hle
  | queued t => exact hs.frame rfl rfl rfl rfl rfl (.inl rfl) hle
  | dequeued t => exact hs.frame rfl rfl rfl rfl rfl (.inl rfl) hle
  | deferredTo n t hn hne =>
    have h1 := hs.setLive (f := fun k => { k with deferred := some t }) hn rfl rfl (hs.event n)
      (hs.young n) (hs.skips n) rfl fun h => hne (Option.some.inj h)
    exact h1.frame rfl rfl rfl rfl rfl (.inl rfl) hle
  | adopted n t hn =>
    have h1 := hs.setLive (f := fun k => { k with deferred := none }) hn rfl rfl (hs.event n)
      (hs.young n) (hs.skips n) rfl nofun
    exact h1.frame rfl rfl rfl rfl rfl (.inl rfl) hle
  | joined n => exact hs.frame rfl rfl rfl rfl rfl (.inl rfl) hle
  | announced t ht =>
    have h1 := hs.setLive (f := fun k => { k with aboutExit := true }) ht rfl rfl (hs.event t)
      (hs.young t) (hs.skips t) rfl (hs.deferred t)
    exact h1.frame rfl rfl rfl rfl rfl (.inl rfl) hle
  | withdrawn t ht =>
    have h1 := hs.setLive (f := fun k => { k with aboutExit := false }) ht rfl rfl (hs.event t)
      (hs.young t) (hs.skips t) rfl (hs.deferred t)
    exact h1.frame rfl rfl rfl rfl rfl (.inl rfl) hle
  | grown t ht => exact hs.setLive ht rfl rfl (hs.event t) nofun (hs.skips t) rfl (hs.deferred t)
  | skipped t b ht hskip hbp hold =>
    have h1 := hs.setBp (g := fun bp => { bp with refcnt := bp.refcnt + 1 }) (hs.bp_lt hbp) rfl rfl
    refine h1.setLive ht rfl rfl (h1.event t) (fun hnew => ?_) (h1.skips t) rfl (h1.deferred t)
    obtain hold | hold := hold
    · exact absurd (hold.symm.trans hnew) Bool.false_ne_true
    · exact .inr hold
  | unskipped t b hskip =>
    have ht : t ∈ s.live := by
      by_contra h
      rw [(hs.gone t h).1] at hskip
      cases hskip
    have h1 := hs.setLive (f := fun k => { k with skipBp := none }) ht rfl rfl (hs.event t)
      (fun _ => .inl rfl) (hs.skips t) rfl (hs.deferred t)
    exact h1.frame rfl rfl rfl rfl rfl (.inl rfl) hle
  | released b hheld hbp =>
    have h1 := hs.setBp (g := fun bp => { bp with refcnt := bp.refcnt - 1 }) (hs.bp_lt hbp) rfl rfl
    exact h1.frame rfl rfl rfl rfl rfl (.inl rfl) hle
  | pends t b ht =>
    exact hs.setLive ht rfl rfl (hs.event t) (hs.young t) (hs.skips t) rfl (hs.deferred t)
  | unpends t =>
    by_cases ht : t < s.next
    · exact hs.setTask ht rfl rfl (hs.event t) (hs.young t) (hs.skips t) (hs.alive t)
        (hs.deferred t) (hs.gone t)
    · have heq : s.setTask t (fun k => { k with breakpoint := none }) = s := by
        have hself : { s.task t with breakpoint := none } = s.task t := by
          rw [hs.fresh t (not_lt.mp ht)]
        unfold State.setTask
        dsimp only
        rw [hself, Function.update_eq_self]
      rw [heq]
      exact hs
  | addedBp leader bp hleader hbp => exact hs.addedBp hleader hbp
  | removedBp leader b hdict => exact hs.removedBp hdict
  | handles t b ht hnone hevent =>
    obtain ⟨howner, hb⟩ := hs.event t b hevent
    refine { hs with handling := fun p c h => ?_, skips := fun p h => ?_ }
    · cases h
      exact ⟨howner, hb, hs.live t ht⟩
    · have hskips := hs.skips p h
      rw [hnone] at hskips
      cases hskips
  | leaves t ht hhandling =>
    exact hs.setLive ht rfl rfl (hs.event t) (hs.young t) (fun _ => hhandling) rfl (hs.deferred t)
  | left t ht => exact hs.setLive ht rfl rfl (hs.event t) (hs.young t) nofun rfl (hs.deferred t)
  | handled t b hhandling hleft =>
    refine hs.frame rfl rfl rfl rfl rfl (.inr ⟨rfl, fun p hp => ?_⟩) hle
    rw [hhandling] at hp
    cases hp
    exact hleft
  | unqueued t ht =>
    have h1 := hs.setLive (f := fun k => { k with event := .none }) ht rfl rfl nofun (hs.young t)
      (hs.skips t) rfl (hs.deferred t)
    exact h1.frame rfl rfl rfl rfl rfl (.inl rfl) hle
  | retired t ht hstopped hevent hskip => exact hs.retired ht hevent hskip
  | abandoned t ht hleader halone hevent hskip => exact hs.abandoned ht hskip

/-- A branch that was taken stays so. -/
theorem marks_of_change (h : Change s s') : ∀ m ∈ s.marks, m ∈ s'.marks := by
  intro m hm
  cases h with
  | alike h =>
    rw [h.marks]
    exact hm
  | marked m' => exact List.mem_cons_of_mem m' hm
  | _ => exact hm

/-- No pointer is used twice. -/
theorem next_of_change (h : Change s s') : s.next ≤ s'.next := by
  cases h with
  | alike h => exact h.next.ge
  | created pid leader => exact Nat.le_succ _
  | _ => exact le_rfl

end Sane

end Mtrace.Tracer
