import Mtrace.Tracer.Runs

/-!
# Where a stopped task is

A stopped task is in the hands of the server, in the queue, waits for its child, or waits for the
client after its end was announced; it is in one of these places only, unless one of a few branches
is taken (`Mark.spoils`).  This is the invariant behind the queue, behind the parents of deferred
tasks, and behind the tasks whose end was announced; the latter are looked at if `exits` is set.
-/

namespace Mtrace.Tracer

open State Hoare

/-- The branches after which a task may be in two places. -/
def Mark.spoils (exits : Bool) : Mark → Bool
  | .repliedHeld | .clonedQueued | .breakInsn | .skippedEntry | .newUnexpected => true
  | .closedHeld => !exits
  | .replied | .repliedRunning | .clonedAboutExit => exits
  | _ => false

/-- What the places of a task depend on. -/
def Task.role (k : Task) : Bool × Bool × Bool × Option TaskId × Bool :=
  (k.stopped, k.event = .none, k.isNew, k.deferred, k.aboutExit)

/-- No task was continued that is in another place. -/
structure Quiet (exits : Bool) (marks : List Mark) : Prop where
  closed : exits = true → .closedRunning ∉ marks
  queued : .continuedQueued ∉ marks

/-- A task is in one place at most. -/
structure Roles (exits : Bool) (s : State) : Prop where
  queue : ∃ xs, s.queue.Represents xs
  queued : ∀ t, s.queue.linked t = true →
    t ∈ s.live ∧ (s.task t).stopped = true ∧ (s.task t).event ≠ .none
  owned : ∀ t ∈ s.owned, (s.task t).stopped = true ∧ s.queue.linked t = false ∧ ¬ s.Parent t
  parent : ∀ t, s.Parent t → (s.task t).stopped = true ∧ (s.task t).isNew = false ∧
    s.queue.linked t = false
  single : ∀ n ∈ s.live, ∀ m ∈ s.live, ∀ t, (s.task n).deferred = some t →
    (s.task m).deferred = some t → n = m
  exit : exits = true → ∀ t ∈ s.live, (s.task t).aboutExit = true → (s.task t).stopped = true ∧
    s.queue.linked t = false ∧ t ∉ s.owned ∧ ¬ s.Parent t
  quiet : Quiet exits s.marks

variable {exits : Bool} {s s' : State} {t l n p : TaskId} {b : BpId} {inputs : List Input}

theorem start_roles (exits : Bool) (inputs : List Input) : Roles exits (.start inputs) where
  queue := ⟨[], Links.represents_empty⟩
  queued t h := absurd (h.symm.trans (Links.linked_empty t)) Bool.noConfusion
  owned _ h := nomatch h
  parent := fun _ ⟨_, h, _⟩ => nomatch h
  single _ h := nomatch h
  exit _ _ h := nomatch h
  quiet := ⟨fun _ => List.not_mem_nil, List.not_mem_nil⟩

/-! ## One change -/

theorem role_inj {k k' : Task} (h : k'.role = k.role) : k'.stopped = k.stopped ∧
    (k'.event = .none ↔ k.event = .none) ∧ k'.isNew = k.isNew ∧ k'.deferred = k.deferred ∧
    k'.aboutExit = k.aboutExit := by
  unfold Task.role at h
  simpa using h

/-- A parent was created. -/
theorem Roles.parent_lt (h : Roles exits s) (hs : Sane s) (ht : s.Parent t) : t < s.next :=
  hs.lt_of_stopped (h.parent t ht).1

/-- One task changes; no task enters or leaves the queue, and no parent changes. -/
theorem Roles.set (h : Roles exits s) (t : TaskId) (hlive : s'.live = s.live)
    (hqueue : s'.queue = s.queue)
    (htask : ∀ p, p ≠ t → (s'.task p).role = (s.task p).role)
    (howned : ∀ p, p ≠ t → p ∈ s'.owned → p ∈ s.owned)
    (hdeferred : (s'.task t).deferred = (s.task t).deferred)
    (hqueued : s.queue.linked t = true → (s'.task t).stopped = true ∧ (s'.task t).event ≠ .none)
    (hown : t ∈ s'.owned →
      (s'.task t).stopped = true ∧ s.queue.linked t = false ∧ ¬ s.Parent t)
    (hparent : s.Parent t → (s'.task t).stopped = true ∧ (s'.task t).isNew = false)
    (hexit : exits = true → t ∈ s.live → (s'.task t).aboutExit = true →
      (s'.task t).stopped = true ∧ s.queue.linked t = false ∧ t ∉ s'.owned ∧ ¬ s.Parent t)
    (hquiet : Quiet exits s'.marks) : Roles exits s' := by
  have hrole := fun p hp => role_inj (htask p hp)
  have hdeferreds : ∀ p, (s'.task p).deferred = (s.task p).deferred := by
    intro p
    by_cases hp : p = t
    · rw [hp, hdeferred]
    · exact (hrole p hp).2.2.2.1
  have hparents : ∀ p, s'.Parent p ↔ s.Parent p := by
    intro p
    unfold State.Parent
    simp only [hlive, hdeferreds]
  refine ⟨hqueue ▸ h.queue, fun p hp => ?_, fun p hp => ?_, fun p hp => ?_, fun n hn m hm p => ?_,
    fun he p hp => ?_, hquiet⟩
  · rw [hqueue] at hp
    have hq := h.queued p hp
    rw [hlive]
    by_cases heq : p = t
    · rw [heq] at hp hq ⊢
      exact ⟨hq.1, hqueued hp⟩
    · rw [(hrole p heq).1, ne_eq, (hrole p heq).2.1]
      exact hq
  · rw [hqueue, hparents]
    by_cases heq : p = t
    · rw [heq] at hp ⊢
      exact hown hp
    · rw [(hrole p heq).1]
      exact h.owned p (howned p heq hp)
  · rw [hparents] at hp
    have hq := h.parent p hp
    rw [hqueue]
    by_cases heq : p = t
    · rw [heq] at hp hq ⊢
      exact ⟨(hparent hp).1, (hparent hp).2, hq.2.2⟩
    · rw [(hrole p heq).1, (hrole p heq).2.2.1]
      exact hq
  · rw [hlive] at hn hm
    rw [hdeferreds, hdeferreds]
    exact h.single n hn m hm p
  · rw [hlive] at hp
    rw [hqueue, hparents]
    by_cases heq : p = t
    · rw [heq] at hp ⊢
      exact hexit he hp
    · rw [(hrole p heq).1, (hrole p heq).2.2.2.2]
      intro hab
      obtain ⟨hst, hq, ho, hpar⟩ := h.exit he p hp hab
      exact ⟨hst, hq, fun hmem => ho (howned p heq hmem), hpar⟩

/-- No place of a task changes. -/
theorem Roles.same (h : Roles exits s) (hlive : s'.live = s.live) (hqueue : s'.queue = s.queue)
    (howned : s'.owned = s.owned) (htask : ∀ p, (s'.task p).role = (s.task p).role)
    (hquiet : Quiet exits s'.marks) : Roles exits s' := by
  have hrole := role_inj (htask 0)
  refine h.set 0 hlive hqueue (fun p _ => htask p) (fun p _ hp => howned ▸ hp) hrole.2.2.2.1
    (fun hq => ?_) (fun ho => ?_) (fun hp => ?_) (fun he ht hab => ?_) hquiet
  · rw [hrole.1, ne_eq, hrole.2.1]
    exact (h.queued 0 hq).2
  · rw [hrole.1]
    exact h.owned 0 (howned ▸ ho)
  · rw [hrole.1, hrole.2.2.1]
    exact ⟨(h.parent 0 hp).1, (h.parent 0 hp).2.1⟩
  · rw [hrole.2.2.2.2] at hab
    rw [hrole.1, howned]
    exact h.exit he 0 ht hab

theorem Roles.enqueued (h : Roles exits s) (ht : t ∈ s.owned) (hlive : t ∈ s.live)
    (hevent : (s.task t).event ≠ .none) : Roles exits (s.queued t) := by
  obtain ⟨xs, hxs⟩ := h.queue
  obtain ⟨hstopped, hq, hpar⟩ := h.owned t ht
  have hlinked : ∀ p, (s.queued t).queue.linked p = true ↔ s.queue.linked p = true ∨ p = t :=
    fun p => Links.linked_addTail hxs hq
  have hnot : ∀ p, (s.queued t).queue.linked p = false ↔ s.queue.linked p = false ∧ p ≠ t := by
    intro p
    rw [← Bool.not_eq_true, hlinked, not_or, Bool.not_eq_true]
  have hmem : t ∉ xs := fun hmem => Bool.false_ne_true (hq.symm.trans (hxs.linked_iff.mpr hmem))
  refine ⟨⟨_, hxs.addTail hmem⟩, fun p hp => ?_, fun p hp => ?_, fun p hp => ?_, h.single,
    fun he p hp hab => ?_, h.quiet⟩
  · obtain hp | rfl := (hlinked p).mp hp
    · exact h.queued p hp
    · exact ⟨hlive, hstopped, hevent⟩
  · obtain ⟨hp, hne⟩ := (mem_drop_owned _ t p).mp hp
    obtain ⟨hst, hqp, hparp⟩ := h.owned p hp
    exact ⟨hst, (hnot p).mpr ⟨hqp, hne⟩, hparp⟩
  · obtain ⟨hst, hnew, hqp⟩ := h.parent p hp
    refine ⟨hst, hnew, (hnot p).mpr ⟨hqp, ?_⟩⟩
    rintro rfl
    exact hpar hp
  · obtain ⟨hst, hqp, ho, hparp⟩ := h.exit he p hp hab
    refine ⟨hst, (hnot p).mpr ⟨hqp, ?_⟩, fun hmem => ho ?_, hparp⟩
    · rintro rfl
      exact ho ht
    · exact ((mem_drop_owned _ t p).mp hmem).1

theorem Roles.dequeued (h : Roles exits s) (ht : s.queue.next none = some t) :
    Roles exits (s.dequeued t) := by
  obtain ⟨xs, hxs⟩ := h.queue
  have hq := Links.linked_of_next hxs ht
  obtain ⟨hlive, hstopped, hevent⟩ := h.queued t hq
  have hlinked : ∀ p, (s.dequeued t).queue.linked p = true ↔ s.queue.linked p = true ∧ p ≠ t :=
    fun p => Links.linked_del hxs
  have hnot : ∀ p, s.queue.linked p = false → (s.dequeued t).queue.linked p = false := by
    intro p hp
    rw [← Bool.not_eq_true, hlinked, hp]
    exact fun h => Bool.false_ne_true h.1
  refine ⟨⟨_, hxs.del⟩, fun p hp => h.queued p ((hlinked p).mp hp).1, fun p hp => ?_,
    fun p hp => ?_, h.single, fun he p hp hab => ?_, h.quiet⟩
  · obtain rfl | hp := List.mem_cons.mp hp
    · refine ⟨hstopped, ?_, fun hpar => ?_⟩
      · rw [← Bool.not_eq_true, hlinked]
        exact fun h => h.2 rfl
      · exact absurd (hq.symm.trans (h.parent p hpar).2.2) Bool.noConfusion
    · obtain ⟨hst, hqp, hparp⟩ := h.owned p hp
      exact ⟨hst, hnot p hqp, hparp⟩
  · obtain ⟨hst, hnew, hqp⟩ := h.parent p hp
    exact ⟨hst, hnew, hnot p hqp⟩
  · obtain ⟨hst, hqp, ho, hparp⟩ := h.exit he p hp hab
    refine ⟨hst, hnot p hqp, fun hmem => ?_, hparp⟩
    obtain rfl | hmem := List.mem_cons.mp hmem
    · exact absurd (hq.symm.trans hqp) Bool.noConfusion
    · exact ho hmem

/-- A task leaves the queue for good. -/
theorem Roles.unlinked (h : Roles exits s) (t : TaskId) :
    Roles exits { s with queue := s.queue.del t } := by
  obtain ⟨xs, hxs⟩ := h.queue
  have hlinked : ∀ p, (s.queue.del t).linked p = true ↔ s.queue.linked p = true ∧ p ≠ t :=
    fun p => Links.linked_del hxs
  have hnot : ∀ p, s.queue.linked p = false → (s.queue.del t).linked p = false := by
    intro p hp
    rw [← Bool.not_eq_true, hlinked, hp]
    exact fun h => Bool.false_ne_true h.1
  refine ⟨⟨_, hxs.del⟩, fun p hp => h.queued p ((hlinked p).mp hp).1, fun p hp => ?_,
    fun p hp => ?_, h.single, fun he p hp hab => ?_, h.quiet⟩
  · obtain ⟨hst, hqp, hparp⟩ := h.owned p hp
    exact ⟨hst, hnot p hqp, hparp⟩
  · obtain ⟨hst, hnew, hqp⟩ := h.parent p hp
    exact ⟨hst, hnew, hnot p hqp⟩
  · obtain ⟨hst, hqp, ho, hparp⟩ := h.exit he p hp hab
    exact ⟨hst, hnot p hqp, ho, hparp⟩

theorem unlinked_self (h : ∃ xs, s.queue.Represents xs) (t : TaskId) :
    (s.queue.del t).linked t = false := by
  obtain ⟨xs, hxs⟩ := h
  rw [← Bool.not_eq_true, Links.linked_del hxs]
  exact fun h => h.2 rfl

theorem Roles.unqueued (h : Roles exits s) (t : TaskId) : Roles exits (s.unqueued t) := by
  have h₁ := h.unlinked t
  have hq := unlinked_self h.queue t
  let f : Task → Task := fun k => { k with event := .none }
  have htask : ∀ p, p ≠ t → ((s.unqueued t).task p).role = (s.task p).role := by
    intro p hp
    exact congrArg Task.role (setTask_task_of_ne s t p f hp)
  have hself : (s.unqueued t).task t = { s.task t with event := .none } := setTask_task_self s t f
  have howned : ∀ p ∈ (s.unqueued t).owned, p ∈ s.owned ∧ p ≠ t :=
    fun p hp => (mem_drop_owned _ t p).mp hp
  refine h₁.set t rfl rfl htask (fun p _ hp => (howned p hp).1) ?_ (fun hl => ?_)
    (fun ho => absurd rfl (howned t ho).2) (fun hp => ?_) (fun he hlive hab => ?_) h.quiet
  · rw [hself]
  · exact absurd (hl.symm.trans hq) Bool.noConfusion
  · rw [hself]
    exact ⟨(h.parent t hp).1, (h.parent t hp).2.1⟩
  · rw [hself] at hab ⊢
    obtain ⟨hst, -, -, hpar⟩ := h.exit he t hlive hab
    exact ⟨hst, hq, fun ho => (howned t ho).2 rfl, hpar⟩

theorem Roles.deferredTo (h : Roles exits s) (hne : t ≠ n) (ht : t ∈ s.owned)
    (hold : (s.task t).isNew = false) : Roles exits (s.deferredTo n t) := by
  obtain ⟨hstopped, hq, hpar⟩ := h.owned t ht
  let f : Task → Task := fun k => { k with deferred := some t }
  have hself : ((s.deferredTo n t).task n).deferred = some t :=
    congrArg Task.deferred (setTask_task_self s n f)
  have hother : ∀ m, m ≠ n → (s.deferredTo n t).task m = s.task m :=
    fun m hm => setTask_task_of_ne s n m f hm
  have htask : ∀ p, ∃ d, (s.deferredTo n t).task p = { s.task p with deferred := d } := by
    intro p
    by_cases hp : p = n
    · exact ⟨some t, hp ▸ setTask_task_self s n f⟩
    · exact ⟨_, hother p hp⟩
  have hparent : ∀ p, (s.deferredTo n t).Parent p → p = t ∨ s.Parent p := by
    rintro p ⟨m, hm, hdef⟩
    by_cases hmn : m = n
    · rw [hmn, hself] at hdef
      exact .inl (Option.some.inj hdef).symm
    · rw [hother m hmn] at hdef
      exact .inr ⟨m, hm, hdef⟩
  refine ⟨h.queue, fun p hp => ?_, fun p hp => ?_, fun p hp => ?_, fun m₁ hm₁ m₂ hm₂ p h₁ h₂ => ?_,
    fun he p hp hab => ?_, h.quiet⟩
  · obtain ⟨d, hd⟩ := htask p
    rw [hd]
    exact h.queued p hp
  · obtain ⟨hp, hpt⟩ := (mem_drop_owned _ t p).mp hp
    obtain ⟨d, hd⟩ := htask p
    obtain ⟨hst, hqp, hparp⟩ := h.owned p hp
    rw [hd]
    exact ⟨hst, hqp, fun hp' => (hparent p hp').elim hpt hparp⟩
  · obtain ⟨d, hd⟩ := htask p
    rw [hd]
    obtain rfl | hp := hparent p hp
    · exact ⟨hstopped, hold, hq⟩
    · exact h.parent p hp
  · by_cases h₁n : m₁ = n
    · by_cases h₂n : m₂ = n
      · exact h₁n.trans h₂n.symm
      · rw [h₁n, hself] at h₁
        rw [hother m₂ h₂n, ← h₁] at h₂
        exact absurd ⟨m₂, hm₂, h₂⟩ hpar
    · by_cases h₂n : m₂ = n
      · rw [h₂n, hself] at h₂
        rw [hother m₁ h₁n, ← h₂] at h₁
        exact absurd ⟨m₁, hm₁, h₁⟩ hpar
      · rw [hother m₁ h₁n] at h₁
        rw [hother m₂ h₂n] at h₂
        exact h.single m₁ hm₁ m₂ hm₂ p h₁ h₂
  · obtain ⟨d, hd⟩ := htask p
    rw [hd] at hab ⊢
    obtain ⟨hst, hqp, ho, hparp⟩ := h.exit he p hp hab
    refine ⟨hst, hqp, fun hmem => ho ((mem_drop_owned _ t p).mp hmem).1, fun hp' => ?_⟩
    obtain rfl | hp' := hparent p hp'
    · exact ho ht
    · exact hparp hp'

theorem Roles.adopted (h : Roles exits s) (hn : n ∈ s.live)
    (hdef : (s.task n).deferred = some t) : Roles exits (s.adopted n t) := by
  have hpar : s.Parent t := ⟨n, hn, hdef⟩
  obtain ⟨hstopped, hnew, hq⟩ := h.parent t hpar
  let f : Task → Task := fun k => { k with deferred := none }
  have hself : ((s.adopted n t).task n).deferred = none :=
    congrArg Task.deferred (setTask_task_self s n f)
  have hother : ∀ m, m ≠ n → (s.adopted n t).task m = s.task m :=
    fun m hm => setTask_task_of_ne s n m f hm
  have htask : ∀ p, ∃ d, (s.adopted n t).task p = { s.task p with deferred := d } := by
    intro p
    by_cases hp : p = n
    · exact ⟨none, hp ▸ setTask_task_self s n f⟩
    · exact ⟨_, hother p hp⟩
  have hstill : ∀ m p, ((s.adopted n t).task m).deferred = some p →
      m ≠ n ∧ (s.task m).deferred = some p := by
    intro m p hm
    by_cases hmn : m = n
    · rw [hmn, hself] at hm
      cases hm
    · rw [hother m hmn] at hm
      exact ⟨hmn, hm⟩
  have hparent : ∀ p, (s.adopted n t).Parent p → p ≠ t ∧ s.Parent p := by
    rintro p ⟨m, hm, hm'⟩
    obtain ⟨hmn, hm'⟩ := hstill m p hm'
    refine ⟨fun heq => hmn ?_, m, hm, hm'⟩
    exact h.single m hm n hn t (heq ▸ hm') hdef
  refine ⟨h.queue, fun p hp => ?_, fun p hp => ?_, fun p hp => ?_, fun m₁ hm₁ m₂ hm₂ p h₁ h₂ => ?_,
    fun he p hp hab => ?_, h.quiet⟩
  · obtain ⟨d, hd⟩ := htask p
    rw [hd]
    exact h.queued p hp
  · obtain ⟨d, hd⟩ := htask p
    rw [hd]
    obtain rfl | hp := List.mem_cons.mp hp
    · exact ⟨hstopped, hq, fun hp' => (hparent p hp').1 rfl⟩
    · obtain ⟨hst, hqp, hparp⟩ := h.owned p hp
      exact ⟨hst, hqp, fun hp' => hparp (hparent p hp').2⟩
  · obtain ⟨d, hd⟩ := htask p
    rw [hd]
    exact h.parent p (hparent p hp).2
  · exact h.single m₁ hm₁ m₂ hm₂ p (hstill m₁ p h₁).2 (hstill m₂ p h₂).2
  · obtain ⟨d, hd⟩ := htask p
    rw [hd] at hab ⊢
    obtain ⟨hst, hqp, ho, hparp⟩ := h.exit he p hp hab
    refine ⟨hst, hqp, fun hmem => ?_, fun hp' => hparp (hparent p hp').2⟩
    obtain rfl | hmem := List.mem_cons.mp hmem
    · exact hparp hpar
    · exact ho hmem

theorem Roles.created (h : Roles exits s) (hs : Sane s) (pid : UInt32) (l : TaskId) :
    Roles exits (s.created pid l) := by
  obtain ⟨threads, hnew⟩ := created_task_next s pid l
  have hold : ∀ p < s.next, ((s.created pid l).task p).role = (s.task p).role := by
    intro p hp
    obtain ⟨threads, h⟩ := created_task_of_lt pid l hp
    rw [h]
    rfl
  have hcases : ∀ p ∈ (s.created pid l).live, p ∈ s.live ∨ p = s.next := fun p hp =>
    (List.mem_append.mp hp).imp_right List.mem_singleton.mp
  have hstill : ∀ m ∈ (s.created pid l).live, ∀ p, ((s.created pid l).task m).deferred = some p →
      m ∈ s.live ∧ (s.task m).deferred = some p := by
    intro m hm p hdef
    obtain hm | rfl := hcases m hm
    · exact ⟨hm, (role_inj (hold m (hs.live m hm))).2.2.2.1 ▸ hdef⟩
    · rw [hnew] at hdef
      cases hdef
  have hparent : ∀ p, (s.created pid l).Parent p → s.Parent p :=
    fun p ⟨m, hm, hdef⟩ => ⟨m, hstill m hm p hdef⟩
  refine ⟨h.queue, fun p hp => ?_, fun p hp => ?_, fun p hp => ?_, fun m₁ hm₁ m₂ hm₂ p h₁ h₂ => ?_,
    fun he p hp hab => ?_, h.quiet⟩
  · obtain ⟨hlive, hst, hev⟩ := h.queued p hp
    have hrole := role_inj (hold p (hs.live p hlive))
    rw [hrole.1, ne_eq, hrole.2.1]
    exact ⟨List.mem_append_left _ hlive, hst, hev⟩
  · obtain ⟨hst, hqp, hparp⟩ := h.owned p hp
    rw [(role_inj (hold p (hs.lt_of_stopped hst))).1]
    exact ⟨hst, hqp, fun hp' => hparp (hparent p hp')⟩
  · have hp := hparent p hp
    have hrole := role_inj (hold p (h.parent_lt hs hp))
    rw [hrole.1, hrole.2.2.1]
    exact h.parent p hp
  · obtain ⟨hm₁, h₁⟩ := hstill m₁ hm₁ p h₁
    obtain ⟨hm₂, h₂⟩ := hstill m₂ hm₂ p h₂
    exact h.single m₁ hm₁ m₂ hm₂ p h₁ h₂
  · obtain hp | rfl := hcases p hp
    · have hrole := role_inj (hold p (hs.live p hp))
      rw [hrole.2.2.2.2] at hab
      rw [hrole.1]
      obtain ⟨hst, hqp, ho, hparp⟩ := h.exit he p hp hab
      exact ⟨hst, hqp, ho, fun hp' => hparp (hparent p hp')⟩
    · rw [hnew] at hab
      cases hab

theorem retired_role (s : State) (t p : TaskId) :
    ((s.retired t).task p).role = (s.task p).role := by
  let f : Task → Task := fun l =>
    { l with threads := l.threads - 1, threadsStopped := l.threadsStopped - 1 }
  let s₁ := s.setTask t fun k => { k with deleted := true }
  exact (setTask_field (s := s₁) (t := (s.task t).leader) Task.role (f := f) rfl p).trans
    (setTask_field (s := s) (t := t) Task.role (f := fun k => { k with deleted := true }) rfl p)

/-- A task is gone that is not queued. -/
theorem Roles.erased (h : Roles exits s) (hlive : s'.live = s.live.erase t)
    (hqueue : s'.queue = s.queue) (howned : s'.owned = s.owned)
    (htask : ∀ p, (s'.task p).role = (s.task p).role) (hmarks : s'.marks = s.marks)
    (hq : s.queue.linked t = false) : Roles exits s' := by
  have hrole := fun p => role_inj (htask p)
  have hsub : ∀ p ∈ s'.live, p ∈ s.live := fun p hp => List.mem_of_mem_erase (hlive ▸ hp)
  have hparent : ∀ p, s'.Parent p → s.Parent p :=
    fun p ⟨m, hm, hdef⟩ => ⟨m, hsub m hm, (hrole m).2.2.2.1 ▸ hdef⟩
  refine ⟨hqueue ▸ h.queue, fun p hp => ?_, fun p hp => ?_, fun p hp => ?_,
    fun m₁ hm₁ m₂ hm₂ p h₁ h₂ => ?_, fun he p hp hab => ?_, hmarks ▸ h.quiet⟩
  · rw [hqueue] at hp
    obtain ⟨hmem, hst, hev⟩ := h.queued p hp
    rw [hlive, (hrole p).1, ne_eq, (hrole p).2.1]
    refine ⟨(List.mem_erase_of_ne ?_).mpr hmem, hst, hev⟩
    rintro rfl
    exact Bool.false_ne_true (hq.symm.trans hp)
  · rw [howned] at hp
    rw [hqueue, (hrole p).1]
    obtain ⟨hst, hqp, hparp⟩ := h.owned p hp
    exact ⟨hst, hqp, fun hp' => hparp (hparent p hp')⟩
  · rw [hqueue, (hrole p).1, (hrole p).2.2.1]
    exact h.parent p (hparent p hp)
  · rw [(hrole _).2.2.2.1] at h₁ h₂
    exact h.single m₁ (hsub m₁ hm₁) m₂ (hsub m₂ hm₂) p h₁ h₂
  · rw [(hrole p).2.2.2.2] at hab
    rw [hqueue, howned, (hrole p).1]
    obtain ⟨hst, hqp, ho, hparp⟩ := h.exit he p (hsub p hp) hab
    exact ⟨hst, hqp, ho, fun hp' => hparp (hparent p hp')⟩

theorem Roles.retired (h : Roles exits s) (hq : s.queue.linked t = false) :
    Roles exits (s.retired t) :=
  h.erased rfl rfl rfl (retired_role s t) rfl hq

/-- A new task in the hands of the server, or one that is running, is in no other place. -/
theorem Roles.abandoned (h : Roles exits s) (hfree : t ∈ s.owned ∨ (s.task t).stopped = false) :
    Roles exits (s.abandoned t) := by
  have hrun : ∀ {P : Prop}, (s.task t).stopped = false → (s.task t).stopped = true → P :=
    fun hrun hst => absurd (hrun.symm.trans hst) Bool.noConfusion
  have hq : s.queue.linked t = false := by
    obtain ho | hst := hfree
    · exact (h.owned t ho).2.1
    · rw [← Bool.not_eq_true]
      exact fun hl => hrun hst (h.queued t hl).2.1
  have hpar : ¬ s.Parent t := by
    obtain ho | hst := hfree
    · exact (h.owned t ho).2.2
    · exact fun hp => hrun hst (h.parent t hp).1
  let f : Task → Task := fun k => { k with event := .none }
  let s₁ := (s.setTask t f).drop t
  have hself : s₁.task t = f (s.task t) := setTask_task_self s t f
  have howned : ∀ p ∈ s₁.owned, p ∈ s.owned ∧ p ≠ t := fun p hp => (mem_drop_owned _ t p).mp hp
  have h₁ : Roles exits s₁ := by
    refine h.set t rfl rfl (fun p hp => ?_) (fun p _ hp => (howned p hp).1) ?_
      (fun hl => absurd (hq.symm.trans hl) Bool.noConfusion)
      (fun ho => absurd rfl (howned t ho).2) (fun hp => absurd hp hpar) (fun he hlive hab => ?_)
      h.quiet
    · exact congrArg Task.role (setTask_task_of_ne s t p f hp)
    · rw [hself]
    · rw [hself] at hab ⊢
      obtain ⟨hst, -, -, -⟩ := h.exit he t hlive hab
      exact ⟨hst, hq, fun ho => (howned t ho).2 rfl, hpar⟩
  refine h₁.erased rfl rfl rfl (fun p => ?_) rfl hq
  exact setTask_field (s := s₁) (t := t) Task.role
    (f := fun k => { k with threads := 0, threadsStopped := 0 }) rfl p

theorem counted_role (s : State) (t p : TaskId) (g : Task → UInt32) :
    ((s.setTask (s.task t).leader fun l => { l with threadsStopped := g l }).task p).role =
      (s.task p).role :=
  setTask_field (s := s) (t := (s.task t).leader) Task.role
    (f := fun l => { l with threadsStopped := g l }) rfl p

/-- A running task stops. -/
theorem Roles.stops (h : Roles exits s) (ht : (s.task t).stopped = false) {f : Task → Task}
    (hstopped : ∀ k, (f k).stopped = true) (hdeferred : ∀ k, (f k).deferred = k.deferred)
    (hexit : ∀ k, (f k).aboutExit = k.aboutExit) :
    Roles exits (((s.countStopped t).setTask t f).take t) := by
  have hcount := counted_role s t
  let s₁ := s.countStopped t
  have hself : (((s₁.setTask t f).take t).task t) = f (s₁.task t) := setTask_task_self s₁ t f
  have hrun : ∀ {P : Prop}, (s.task t).stopped = true → P := fun hst =>
    absurd (ht.symm.trans hst) Bool.noConfusion
  show Roles exits ((s₁.setTask t f).take t)
  refine h.set t rfl rfl (fun p hp => ?_) (fun p hp hmem => ?_) ?_
    (fun hq => hrun (h.queued t hq).2.1) (fun _ => ⟨?_, ?_, ?_⟩) (fun hp => hrun (h.parent t hp).1)
    (fun he ht' hab => ?_) h.quiet
  · exact (congrArg Task.role (setTask_task_of_ne s₁ t p f hp)).trans (hcount p _)
  · exact (List.mem_cons.mp hmem).resolve_left hp
  · rw [hself, hdeferred]
    exact (role_inj (hcount t _)).2.2.2.1
  · rw [hself, hstopped]
  · rw [← Bool.not_eq_true]
    exact fun hq => hrun (h.queued t hq).2.1
  · exact fun hp => hrun (h.parent t hp).1
  · rw [hself, hexit] at hab
    exact hrun (h.exit he t ht' ((role_inj (hcount t _)).2.2.2.2 ▸ hab)).1

theorem Roles.continued (h : Roles exits s) (ht : t ∈ s.owned) : Roles exits (s.continued t) := by
  obtain ⟨hstopped, hq, hpar⟩ := h.owned t ht
  have hcount := counted_role s t
  let s₁ := s.setTask (s.task t).leader fun l => { l with threadsStopped := l.threadsStopped - 1 }
  let f : Task → Task := fun k => { k with stopped := false, event := .none }
  have hself : (((s₁.setTask t f).drop t).task t) = f (s₁.task t) := setTask_task_self s₁ t f
  have howned : ∀ p ∈ ((s₁.setTask t f).drop t).owned, p ∈ s.owned ∧ p ≠ t :=
    fun p hp => (mem_drop_owned _ t p).mp hp
  show Roles exits ((s₁.setTask t f).drop t)
  refine h.set t rfl rfl (fun p hp => ?_)
    (fun p _ hmem => (howned p hmem).1) ?_ (fun hl => ?_) (fun ho => absurd rfl (howned t ho).2)
    (fun hp => absurd hp hpar) (fun he ht' hab => ?_) h.quiet
  · exact (congrArg Task.role (setTask_task_of_ne s₁ t p f hp)).trans (hcount p _)
  · rw [hself]
    exact (role_inj (hcount t _)).2.2.2.1
  · exact absurd (hq.symm.trans hl) Bool.noConfusion
  · rw [hself] at hab
    exact absurd ht (h.exit he t ht' ((role_inj (hcount t _)).2.2.2.2 ▸ hab)).2.2.1

/-- A task that is in no place is taken. -/
theorem Roles.took (h : Roles exits s) (hstopped : (s.task t).stopped = true)
    (hq : s.queue.linked t = false) (hpar : ¬ s.Parent t)
    (hexit : exits = true → (s.task t).aboutExit = false) : Roles exits (s.take t) := by
  refine h.set t rfl rfl (fun _ _ => rfl) (fun p hp hmem => (List.mem_cons.mp hmem).resolve_left hp)
    rfl (fun hl => ⟨hstopped, (h.queued t hl).2.2⟩) (fun _ => ⟨hstopped, hq, hpar⟩)
    (fun hp => absurd hp hpar) (fun he _ hab => ?_) h.quiet
  exact absurd ((hexit he).symm.trans hab) Bool.noConfusion

/-- The fields of one task change that its place depends on, but for the event. -/
theorem Roles.setTask (h : Roles exits s) (t : TaskId) {f : Task → Task}
    (hdeferred : (f (s.task t)).deferred = (s.task t).deferred)
    (hstopped : (s.task t).stopped = true → (f (s.task t)).stopped = true)
    (hevent : (f (s.task t)).event = .none → (s.task t).event ≠ .none → t ∈ s.owned)
    (hnew : (s.task t).isNew = false → (f (s.task t)).isNew = false)
    (hexit : exits = true → (f (s.task t)).aboutExit = true → (s.task t).aboutExit = true) :
    Roles exits (s.setTask t f) := by
  have hself := setTask_task_self s t f
  refine h.set t rfl rfl (fun p hp => ?_) (fun p _ hmem => hmem) ?_ (fun hq => ?_) (fun ho => ?_)
    (fun hp => ?_) (fun he ht hab => ?_) h.quiet
  · rw [setTask_task_of_ne s t p f hp]
  · rw [hself, hdeferred]
  · obtain ⟨-, hst, hev⟩ := h.queued t hq
    rw [hself]
    refine ⟨hstopped hst, fun hnone => ?_⟩
    exact absurd (hq.symm.trans (h.owned t (hevent hnone hev)).2.1) Bool.noConfusion
  · obtain ⟨hst, hq, hpar⟩ := h.owned t ho
    rw [hself]
    exact ⟨hstopped hst, hq, hpar⟩
  · rw [hself]
    exact ⟨hstopped (h.parent t hp).1, hnew (h.parent t hp).2.1⟩
  · rw [hself] at hab ⊢
    obtain ⟨hst, hrest⟩ := h.exit he t ht (hexit he hab)
    exact ⟨hstopped hst, hrest⟩

theorem Roles.announced (h : Roles exits s) (ht : t ∈ s.owned) : Roles exits (s.announced t) := by
  obtain ⟨hstopped, hq, hpar⟩ := h.owned t ht
  let f : Task → Task := fun k => { k with aboutExit := true }
  have hself : (s.announced t).task t = f (s.task t) := setTask_task_self s t f
  have howned : ∀ p ∈ (s.announced t).owned, p ∈ s.owned ∧ p ≠ t :=
    fun p hp => (mem_drop_owned _ t p).mp hp
  refine h.set t rfl rfl (fun p hp => ?_) (fun p _ hmem => (howned p hmem).1) ?_ (fun hl => ?_)
    (fun ho => absurd rfl (howned t ho).2) (fun hp => absurd hp hpar) (fun he ht' hab => ?_) h.quiet
  · exact congrArg Task.role (setTask_task_of_ne s t p f hp)
  · rw [hself]
  · exact absurd (hq.symm.trans hl) Bool.noConfusion
  · rw [hself]
    exact ⟨hstopped, hq, fun ho => (howned t ho).2 rfl, hpar⟩

theorem Roles.withdrawn (h : Roles exits s) (hlive : t ∈ s.live)
    (hexit : (s.task t).aboutExit = true)
    (hheld : exits = false → s.queue.linked t = false ∧ ¬ s.Parent t) :
    Roles exits (s.withdrawn t) := by
  have hfree : s.queue.linked t = false ∧ ¬ s.Parent t := by
    cases he : exits with
    | false => exact hheld he
    | true =>
      obtain ⟨-, hq, -, hpar⟩ := h.exit he t hlive hexit
      exact ⟨hq, hpar⟩
  obtain ⟨hq, hpar⟩ := hfree
  let f : Task → Task := fun k => { k with aboutExit := false }
  have hself : (s.withdrawn t).task t = f (s.task t) := setTask_task_self s t f
  have howned : ∀ p ∈ (s.withdrawn t).owned,
      p ∈ s.owned ∨ p = t ∧ (s.task t).stopped = true := by
    intro p hp
    unfold State.withdrawn at hp
    dsimp only at hp
    split_ifs at hp with hst
    · exact (List.mem_cons.mp hp).symm.imp_right fun heq => ⟨heq, hst⟩
    · exact .inl hp
  refine h.set t rfl rfl (fun p hp => ?_) (fun p hp hmem => ?_) ?_ (fun hl => ?_)
    (fun ho => ⟨?_, hq, hpar⟩) (fun hp => absurd hp hpar) (fun he ht' hab => ?_) h.quiet
  · exact congrArg Task.role (setTask_task_of_ne s t p f hp)
  · exact (howned p hmem).resolve_right fun heq => hp heq.1
  · rw [hself]
  · exact absurd (hq.symm.trans hl) Bool.noConfusion
  · rw [hself]
    exact (howned t ho).elim (fun ho => (h.owned t ho).1) And.right
  · rw [hself] at hab
    cases hab

/-- A state that spoils nothing. -/
abbrev State.Clean (exits : Bool) (s : State) : Prop := ∀ m ∈ s.marks, m.spoils exits = false

/-- Every change keeps the places of the tasks apart, unless a branch is taken that spoils them. -/
theorem Roles.change (h : Roles exits s) (hs : Sane s) (hc : Change s s')
    (hclean : s'.Clean exits) :
    Roles exits s' := by
  have hnot : ∀ {m : Mark}, m ∈ s'.marks → m.spoils exits = true → False :=
    fun hm hbad => Bool.false_ne_true ((hclean _ hm).symm.trans hbad)
  cases hc with
  | alike ha =>
    have hcore : ∀ k : Task, k.core.role = k.role := fun _ => rfl
    refine h.same ha.live ha.queue ha.owned (fun p => ?_) ?_
    · rw [← hcore, ha.task, hcore]
    · exact ⟨fun he => ha.marks ▸ h.quiet.closed he, ha.marks ▸ h.quiet.queued⟩
  | marked m hmark =>
    refine h.same rfl rfl rfl (fun _ => rfl) ⟨fun he hm => ?_, fun hm => ?_⟩
    · obtain rfl | hm := List.mem_cons.mp hm
      · obtain ⟨t, ht, hexit, hrun⟩ := hmark
        exact Bool.false_ne_true (hrun.symm.trans (h.exit he t ht hexit).1)
      · exact h.quiet.closed he hm
    · obtain rfl | hm := List.mem_cons.mp hm
      · obtain ⟨t, ht, hq⟩ := hmark
        exact Bool.false_ne_true ((h.owned t ht).2.1.symm.trans hq)
      · exact h.quiet.queued hm
  | took t ht hspare =>
    obtain hspare | ⟨m, htakes, hm⟩ := hspare
    · refine h.took hspare.stopped hspare.queue hspare.parent fun he => ?_
      rw [← Bool.not_eq_true]
      exact fun hexit => hnot (hspare.exit hexit) he
    · refine (hnot hm ?_).elim
      cases m <;> first | rfl | cases htakes
  | created pid leader => exact h.created hs pid leader
  | setUp t signum ht hrun => exact h.stops hrun (fun _ => rfl) (fun _ => rfl) fun _ => rfl
  | arrived t ht hrun => exact h.stops hrun (fun _ => rfl) (fun _ => rfl) fun _ => rfl
  | halted t ht =>
    exact h.setTask t rfl (fun _ => rfl) (fun hnone hev => absurd hnone hev)
      (fun h => h) fun _ h => h
  | event t event ht hnone =>
    exact h.setTask t rfl (fun h => h) (fun heq _ => hnone heq) (fun h => h) fun _ h => h
  | hit t b ht =>
    have hset :=
      h.setTask t (f := fun k => { k with event := .breakpoint b }) rfl (fun h => h) nofun
      (fun h => h) fun _ h => h
    exact hset.same rfl rfl rfl (fun _ => rfl) h.quiet
  | continued t ht hstopped howned => exact h.continued howned
  | queued t ht hstopped howned hevent => exact h.enqueued howned ht hevent
  | dequeued t hhead => exact h.dequeued hhead
  | deferredTo n t hn hne ht hstopped howned hold =>
    exact h.deferredTo hne howned (hold.resolve_right fun hm => hnot hm rfl)
  | adopted n t hn hdef => exact h.adopted hn hdef
  | joined n ht hstopped hnew hexit hqueued =>
    refine h.took hstopped ?_ (fun hpar => ?_) fun he => ?_
    · rw [← Bool.not_eq_true]
      exact fun hq => hnot (hqueued hq) rfl
    · exact Bool.false_ne_true ((h.parent n hpar).2.1.symm.trans hnew)
    · rw [← Bool.not_eq_true]
      exact fun hab => hnot (hexit hab) he
  | announced t ht hstopped howned => exact h.announced howned
  | withdrawn t ht hexit hheld =>
    refine h.withdrawn ht hexit fun he => ?_
    have hnone : ¬ (s.queue.linked t = true ∨ s.Parent t) := by
      intro hheld'
      refine hnot (hheld hheld') ?_
      rw [he]
      rfl
    rw [not_or, Bool.not_eq_true] at hnone
    exact hnone
  | grown t ht =>
    exact h.setTask t rfl (fun h => h) (fun hnone hev => absurd hnone hev)
      (fun _ => rfl) fun _ h => h
  | unqueued t => exact h.unqueued t
  | retired t ht hstopped hevent hskip hqueue => exact h.retired hqueue
  | abandoned t ht hleader halone hevent hskip hfree => exact h.abandoned hfree
  | addedBp l bp =>
    exact h.same rfl rfl rfl (setTask_field Task.role
      (f := fun k => { k with breakpoints := k.breakpoints ++ [s.nextBp] }) rfl) h.quiet
  | removedBp l b =>
    exact h.same rfl rfl rfl (setTask_field Task.role
      (f := fun k => { k with breakpoints := k.breakpoints.erase b }) rfl) h.quiet
  | skipped t b =>
    exact h.same rfl rfl rfl (setTask_field Task.role
      (f := fun k => { k with skipBp := some b }) rfl) h.quiet
  | unskipped t b =>
    exact h.same rfl rfl rfl (setTask_field Task.role
      (f := fun k => { k with skipBp := none }) rfl) h.quiet
  | pends t b =>
    exact h.same rfl rfl rfl (setTask_field Task.role
      (f := fun k => { k with breakpoint := some b }) rfl) h.quiet
  | unpends t =>
    exact h.same rfl rfl rfl (setTask_field Task.role
      (f := fun k => { k with breakpoint := none }) rfl) h.quiet
  | leaves t =>
    exact h.same rfl rfl rfl (setTask_field Task.role
      (f := fun k => { k with bpSkipped := true }) rfl) h.quiet
  | left t =>
    exact h.same rfl rfl rfl (setTask_field Task.role
      (f := fun k => { k with bpSkipped := false }) rfl) h.quiet
  | released | handles | handled => exact h.same rfl rfl rfl (fun _ => rfl) h.quiet

/-- What holds of every state, in the middle of a step too. -/
theorem roles_of_changes (h : Changes (.start inputs) s) (hclean : s.Clean exits) :
    Roles exits s := by
  have hinv : Sane s ∧ (s.Clean exits → Roles exits s) := by
    refine keeps_of_change (I := fun s => Sane s ∧ (s.Clean exits → Roles exits s))
      (fun s s' hc hI => ?_) h ⟨start_sane inputs, fun _ => start_roles exits inputs⟩
    obtain ⟨hs, hroles⟩ := hI
    refine ⟨hs.change hc, fun hclean => ?_⟩
    exact (hroles fun m hm => hclean m (marks_of_change hc m hm)).change hs hc hclean
  exact hinv.2 hclean

end Mtrace.Tracer
