import Mtrace.Tally
import Mtrace.Tracer.Roles

/-!
# References of breakpoints

`refcnt` counts the dictionary, the tasks that stand on the breakpoint (`skip_bp`), the events that
are queued or not handled yet, the event that is being handled, and what a task that is being
destroyed leaves behind.  It goes wrong where an event is forgotten; `task->breakpoint`, which holds
no reference, goes wrong where a breakpoint is deleted that a task waits for.
-/

namespace Mtrace.Tracer

open State Hoare

/-- Whether a pointer is a reference to this breakpoint. -/
def holds (x : Option BpId) (b : BpId) : ℕ := if x = some b then 1 else 0

namespace State

/-- The breakpoint of an event that is not being handled. -/
def waits (s : State) (t : TaskId) : Option BpId :=
  if s.handling.map Prod.fst = some t then none else (s.task t).event.bp

/-- The reference of the dictionary. -/
def entries (s : State) (b : BpId) : ℕ :=
  if b ∈ (s.task (s.bp b).owner).breakpoints then 1 else 0

/-- With the references of the event that is handled, and of what is left behind. -/
def keeps (s : State) (b : BpId) : ℕ :=
  s.entries b + holds (s.handling.map Prod.snd) b + s.held.count b

/-- The tasks that stand on a breakpoint. -/
def skips (s : State) (b : BpId) : ℕ := s.live.countP fun t => (s.task t).skipBp = some b

/-- The events of a breakpoint that are not handled yet. -/
def events (s : State) (b : BpId) : ℕ := s.live.countP fun t => s.waits t = some b

end State

/-- Every reference is counted. -/
def Balanced (s : State) : Prop := ∀ b, (s.bp b).refcnt = s.keeps b + s.skips b + s.events b

variable {s s' : State} {t l n p : TaskId} {b : BpId} {r : Option Halt} {inputs : List Input}

theorem start_balanced (inputs : List Input) : Balanced (.start inputs) := fun _ => rfl

@[simp] theorem holds_none (b : BpId) : holds none b = 0 := rfl

theorem unhandled_eq (s : State) (t : TaskId) : s.unhandled t = (s.waits t).isSome := by
  unfold State.unhandled State.waits Event.isBreakpoint
  by_cases h : s.handling.map Prod.fst = some t <;> simp [h]

/-! ## One change -/

/-- One task changes what it holds. -/
theorem Balanced.move (h : Balanced s) (hs : Sane s) (ht : t ∈ s.live) (hlive : s'.live = s.live)
    (hskip : ∀ p, p ≠ t → (s'.task p).skipBp = (s.task p).skipBp)
    (hwaits : ∀ p, p ≠ t → s'.waits p = s.waits p)
    (hbook : ∀ b, (s'.bp b).refcnt +
        (s.keeps b + holds (s.task t).skipBp b + holds (s.waits t) b) =
      (s.bp b).refcnt + (s'.keeps b + holds (s'.task t).skipBp b + holds (s'.waits t) b)) :
    Balanced s' := by
  intro b
  have hskips :
      s'.skips b + holds (s.task t).skipBp b = s.skips b + holds (s'.task t).skipBp b := by
    unfold State.skips holds
    rw [hlive]
    have hchange := List.countP_change hs.once ht (p := fun p => (s.task p).skipBp = some b)
      (q := fun p => (s'.task p).skipBp = some b) fun p _ hp => by rw [hskip p hp]
    simpa only [decide_eq_true_eq] using hchange
  have hevents : s'.events b + holds (s.waits t) b = s.events b + holds (s'.waits t) b := by
    unfold State.events holds
    rw [hlive]
    have hchange := List.countP_change hs.once ht (p := fun p => s.waits p = some b)
      (q := fun p => s'.waits p = some b) fun p _ hp => by rw [hwaits p hp]
    simpa only [decide_eq_true_eq] using hchange
  have hb := h b
  have hbook := hbook b
  omega

/-- No task changes what it holds. -/
theorem Balanced.same (h : Balanced s) (hlive : s'.live = s.live)
    (hskip : ∀ p, (s'.task p).skipBp = (s.task p).skipBp) (hwaits : ∀ p, s'.waits p = s.waits p)
    (hbook : ∀ b, (s'.bp b).refcnt + s.keeps b = (s.bp b).refcnt + s'.keeps b) : Balanced s' := by
  intro b
  have hskips : s'.skips b = s.skips b := by
    unfold State.skips
    rw [hlive]
    exact List.countP_congr fun p _ => by rw [hskip]
  have hevents : s'.events b = s.events b := by
    unfold State.events
    rw [hlive]
    exact List.countP_congr fun p _ => by rw [hwaits]
  have hb := h b
  have hbook := hbook b
  omega

/-- The breakpoints do not change, nor what is handled or left behind. -/
theorem Balanced.quiet (h : Balanced s) (hlive : s'.live = s.live)
    (hskip : ∀ p, (s'.task p).skipBp = (s.task p).skipBp) (hwaits : ∀ p, s'.waits p = s.waits p)
    (hbp : s'.bp = s.bp) (hdict : ∀ p, (s'.task p).breakpoints = (s.task p).breakpoints)
    (hhandling : s'.handling = s.handling) (hheld : s'.held = s.held) : Balanced s' := by
  refine h.same hlive hskip hwaits fun b => ?_
  unfold State.keeps State.entries
  rw [hbp, hdict, hhandling, hheld]

/-- An update of one task that does not change what it holds. -/
theorem Balanced.setTask (h : Balanced s) (t : TaskId) {f : Task → Task}
    (hskip : (f (s.task t)).skipBp = (s.task t).skipBp)
    (hdict : (f (s.task t)).breakpoints = (s.task t).breakpoints)
    (hwaits : (s.setTask t f).waits t = s.waits t) : Balanced (s.setTask t f) := by
  refine h.quiet rfl (setTask_field Task.skipBp hskip) (fun p => ?_) rfl
    (setTask_field Task.breakpoints hdict) rfl rfl
  by_cases hp : p = t
  · rw [hp, hwaits]
  · unfold State.waits
    rw [setTask_task_of_ne s t p f hp]
    rfl

theorem waits_eq_none (h : (s.task t).event.bp = none) : s.waits t = none := by
  unfold State.waits
  rw [h, ite_self]

theorem waits_setTask (s : State) (t p : TaskId) {f : Task → Task}
    (hf : ∀ k, (f k).event = k.event) : (s.setTask t f).waits p = s.waits p := by
  unfold State.waits
  rw [setTask_field Task.event (hf _), setTask_handling]

/-- Nothing changes that is counted. -/
theorem Balanced.update (h : Balanced s) (t : TaskId) {f : Task → Task}
    (hskip : ∀ k, (f k).skipBp = k.skipBp) (hdict : ∀ k, (f k).breakpoints = k.breakpoints)
    (hevent : ∀ k, (f k).event = k.event) : Balanced (s.setTask t f) :=
  h.setTask t (hskip _) (hdict _) (waits_setTask s t t hevent)

/-- The counters of a leader are not counted here. -/
theorem Balanced.count (h : Balanced s) (t : TaskId) (g : Task → UInt32) :
    Balanced (s.setTask t fun l => { l with threadsStopped := g l }) :=
  h.update t (fun _ => rfl) (fun _ => rfl) fun _ => rfl

theorem count_waits (s : State) (t p : TaskId) (g : Task → UInt32) :
    (s.setTask t fun l => { l with threadsStopped := g l }).waits p = s.waits p :=
  waits_setTask s t p fun _ => rfl

/-- Whatever a running task does, it has no breakpoint event. -/
theorem Balanced.continued (h : Balanced s) (hlost : s.unhandled t = false) :
    Balanced (s.continued t) := by
  have h₁ := h.count (s.task t).leader fun l => l.threadsStopped - 1
  rw [unhandled_eq, Option.isSome_eq_false_iff, Option.isNone_iff_eq_none] at hlost
  refine h₁.setTask t (f := fun k => { k with stopped := false, event := .none }) rfl rfl ?_
  rw [count_waits, hlost]
  refine waits_eq_none ?_
  rw [setTask_task_self]
  rfl

theorem Balanced.setUp (h : Balanced s) (signum : ℕ) (hevent : (s.task t).event = .none) :
    Balanced (s.setUp t signum) := by
  have h₁ := h.count (s.task t).leader fun l => l.threadsStopped + 1
  refine h₁.setTask t (f := fun k =>
    { k with attached := true, stopped := true, event := .new signum }) rfl rfl ?_
  rw [count_waits, waits_eq_none (congrArg Event.bp hevent)]
  refine waits_eq_none ?_
  rw [setTask_task_self]
  rfl

theorem Balanced.arrived (h : Balanced s) : Balanced (s.arrived t) := by
  have h₁ := h.count (s.task t).leader fun l => l.threadsStopped + 1
  exact h₁.update t (f := fun k => { k with stopped := true }) (fun _ => rfl) (fun _ => rfl)
    fun _ => rfl

theorem Balanced.event (h : Balanced s) {event : Event} (hlost : s.unhandled t = false)
    (hgain : ∀ b, event = .breakpoint b → s.handling.map Prod.fst = some t) :
    Balanced (s.setEvent t event) := by
  rw [unhandled_eq, Option.isSome_eq_false_iff, Option.isNone_iff_eq_none] at hlost
  refine h.setTask t (f := fun k => { k with event }) rfl rfl ?_
  rw [hlost]
  unfold State.waits
  rw [setTask_task_self, setTask_handling]
  split_ifs with hhandling
  · rfl
  · cases event with
    | breakpoint b => exact absurd (hgain b rfl) hhandling
    | _ => rfl

/-- A reference more, and a task that holds it. -/
theorem refcnt_succ (s : State) (b c : BpId) :
    ((s.setBp b fun bp => { bp with refcnt := bp.refcnt + 1 }).bp c).refcnt =
      (s.bp c).refcnt + holds (some b) c := by
  unfold holds
  rw [setBp_bp]
  by_cases h : c = b
  · rw [if_pos h, if_pos (congrArg some h.symm), h]
  · rw [if_neg h, if_neg fun heq => h (Option.some.inj heq).symm]
    rfl

theorem setBp_keeps (s : State) (b c : BpId) (g : Breakpoint → Breakpoint)
    (hg : ∀ bp, (g bp).owner = bp.owner) : (s.setBp b g).keeps c = s.keeps c := by
  have howner : ((s.setBp b g).bp c).owner = (s.bp c).owner := by
    rw [setBp_bp]
    split_ifs with h
    · rw [h, hg]
    · rfl
  unfold State.keeps State.entries
  rw [howner]
  rfl

theorem setTask_keeps (s : State) (t : TaskId) (c : BpId) {f : Task → Task}
    (hf : ∀ k, (f k).breakpoints = k.breakpoints) : (s.setTask t f).keeps c = s.keeps c := by
  unfold State.keeps State.entries
  rw [setTask_field Task.breakpoints (hf _)]
  rfl

theorem Balanced.hit (h : Balanced s) (hs : Sane s) (ht : t ∈ s.live)
    (hevent : (s.task t).event.isBreakpoint = false)
    (hhandling : s.handling.map Prod.fst ≠ some t) (b : BpId) : Balanced (s.hit t b) := by
  let f : Task → Task := fun k => { k with event := .breakpoint b }
  let s₁ := s.setBp b fun bp => { bp with refcnt := bp.refcnt + 1 }
  have hold : s.waits t = none := by
    refine waits_eq_none ?_
    rwa [Event.isBreakpoint, Option.isSome_eq_false_iff, Option.isNone_iff_eq_none] at hevent
  have hnew : (s₁.setTask t f).waits t = some b := by
    unfold State.waits
    rw [setTask_task_self]
    exact if_neg hhandling
  show Balanced (s₁.setTask t f)
  refine h.move hs ht rfl
    (fun p _ => setTask_field (s := s₁) (t := t) Task.skipBp (f := f) rfl p) (fun p hp => ?_)
    fun c => ?_
  · unfold State.waits
    rw [setTask_task_of_ne s₁ t p f hp]
    rfl
  · have hskip : ((s₁.setTask t f).task t).skipBp = (s.task t).skipBp :=
      setTask_field (s := s₁) (t := t) Task.skipBp (f := f) rfl t
    have hkeeps : (s₁.setTask t f).keeps c = s.keeps c :=
      (setTask_keeps s₁ t c (f := f) fun _ => rfl).trans (setBp_keeps s b c _ fun _ => rfl)
    have hsucc : ((s₁.setTask t f).bp c).refcnt = (s.bp c).refcnt + holds (some b) c :=
      refcnt_succ s b c
    rw [hold, hnew, hskip, hkeeps, hsucc, holds_none]
    omega

theorem Balanced.skipped (h : Balanced s) (hs : Sane s) (ht : t ∈ s.live)
    (hskip : (s.task t).skipBp = none) (b : BpId) : Balanced (s.skipped t b) := by
  let f : Task → Task := fun k => { k with skipBp := some b }
  let s₁ := s.setBp b fun bp => { bp with refcnt := bp.refcnt + 1 }
  have hwaits : ∀ p, (s₁.setTask t f).waits p = s.waits p :=
    fun p => (waits_setTask s₁ t p (f := f) fun _ => rfl).trans rfl
  show Balanced (s₁.setTask t f)
  refine h.move hs ht rfl (fun p hp => ?_) (fun p _ => hwaits p) fun c => ?_
  · rw [setTask_task_of_ne s₁ t p f hp]
    rfl
  · have hkeeps : (s₁.setTask t f).keeps c = s.keeps c :=
      (setTask_keeps s₁ t c (f := f) fun _ => rfl).trans (setBp_keeps s b c _ fun _ => rfl)
    have hsucc : ((s₁.setTask t f).bp c).refcnt = (s.bp c).refcnt + holds (some b) c :=
      refcnt_succ s b c
    have hself : ((s₁.setTask t f).task t).skipBp = some b :=
      congrArg Task.skipBp (setTask_task_self s₁ t f)
    rw [hwaits, hself, hskip, hkeeps, hsucc, holds_none]
    omega

/-- What is left behind. -/
theorem keeps_held (s : State) (bs : List BpId) (c : BpId) :
    State.keeps { s with held := bs ++ s.held } c = s.keeps c + bs.count c := by
  have hcount : (bs ++ s.held).count c = bs.count c + s.held.count c := List.count_append
  show s.entries c + holds (s.handling.map Prod.snd) c + (bs ++ s.held).count c =
    s.entries c + holds (s.handling.map Prod.snd) c + s.held.count c + bs.count c
  omega

theorem count_toList (x : Option BpId) (c : BpId) : x.toList.count c = holds x c := by
  unfold holds
  cases x with
  | none => rfl
  | some b =>
    rw [Option.toList_some, List.count_singleton]
    by_cases h : b = c
    · rw [if_pos (congrArg some h), if_pos (beq_iff_eq.mpr h)]
    · rw [if_neg fun heq => h (Option.some.inj heq), if_neg fun heq => h (beq_iff_eq.mp heq)]

theorem Balanced.unskipped (h : Balanced s) (hs : Sane s) (ht : t ∈ s.live)
    (hskip : (s.task t).skipBp = some b) : Balanced (s.unskipped t b) := by
  let f : Task → Task := fun k => { k with skipBp := none }
  let s' := { s.setTask t f with held := [b] ++ s.held }
  have hwaits : ∀ p, s'.waits p = s.waits p := fun p => waits_setTask s t p (f := f) fun _ => rfl
  show Balanced s'
  refine h.move hs ht rfl (fun p hp => ?_) (fun p _ => hwaits p) fun c => ?_
  · exact congrArg Task.skipBp (setTask_task_of_ne s t p f hp)
  · have hkeeps : s'.keeps c = s.keeps c + holds (some b) c := by
      rw [← count_toList]
      refine (keeps_held (s.setTask t f) [b] c).trans ?_
      rw [setTask_keeps s t c (f := f) fun _ => rfl]
      rfl
    have hself : (s'.task t).skipBp = none := congrArg Task.skipBp (setTask_task_self s t f)
    have hbp : (s'.bp c).refcnt = (s.bp c).refcnt := rfl
    rw [hwaits, hself, hskip, hkeeps, hbp, holds_none]
    omega

theorem Balanced.unqueued (h : Balanced s) (hs : Sane s) (ht : t ∈ s.live)
    (hhandling : s.handling.map Prod.fst ≠ some t) : Balanced (s.unqueued t) := by
  let f : Task → Task := fun k => { k with event := .none }
  let s₁ := s.setTask t f
  let s' := s.unqueued t
  have hold : s.waits t = (s.task t).event.bp := if_neg hhandling
  have hnew : s'.waits t = none := by
    refine waits_eq_none ?_
    exact congrArg (Event.bp ∘ Task.event) (setTask_task_self s t f)
  have hskip : ∀ p, (s'.task p).skipBp = (s.task p).skipBp :=
    setTask_field (s := s) (t := t) Task.skipBp (f := f) rfl
  show Balanced s'
  refine h.move hs ht rfl (fun p _ => hskip p) (fun p hp => ?_) fun c => ?_
  · have htask : s'.task p = s.task p := setTask_task_of_ne s t p f hp
    have hsame : s'.handling = s.handling := rfl
    unfold State.waits
    rw [htask, hsame]
  · have hkeeps : s'.keeps c = s.keeps c + holds (s.task t).event.bp c := by
      rw [← count_toList]
      refine (keeps_held s₁ (s.task t).event.bp.toList c).trans ?_
      rw [setTask_keeps s t c (f := f) fun _ => rfl]
    have hbp : (s'.bp c).refcnt = (s.bp c).refcnt := rfl
    rw [hold, hnew, hskip, hkeeps, hbp, holds_none]
    omega

theorem Balanced.handles (h : Balanced s) (hs : Sane s) (ht : t ∈ s.live)
    (hnone : s.handling = none) (hevent : (s.task t).event = .breakpoint b) :
    Balanced (s.handles t b) := by
  have hold : ∀ p, s.waits p = (s.task p).event.bp := by
    intro p
    unfold State.waits
    rw [hnone]
    exact if_neg nofun
  have hother : ∀ p, p ≠ t → (s.handles t b).waits p = s.waits p := by
    intro p hp
    rw [hold]
    exact if_neg fun heq => hp (Option.some.inj heq).symm
  have hnew : (s.handles t b).waits t = none := if_pos rfl
  refine h.move hs ht rfl (fun _ _ => rfl) hother fun c => ?_
  have hkeeps : (s.handles t b).keeps c = s.keeps c + holds (some b) c := by
    unfold State.keeps
    rw [hnone]
    show s.entries c + holds (some b) c + s.held.count c =
      s.entries c + 0 + s.held.count c + holds (some b) c
    omega
  have hself : s.waits t = some b := by
    rw [hold, hevent]
    rfl
  have hbp : ((s.handles t b).bp c).refcnt = (s.bp c).refcnt := rfl
  have htask : (s.handles t b).task t = s.task t := rfl
  rw [hself, hnew, hkeeps, hbp, htask, holds_none]
  omega

theorem Balanced.handled (h : Balanced s) (hhandling : s.handling = some (t, b))
    (hevent : (s.task t).event.isBreakpoint = false) : Balanced (s.handled b) := by
  have hnew : ∀ p, (s.handled b).waits p = (s.task p).event.bp := fun p => if_neg nofun
  rw [Event.isBreakpoint, Option.isSome_eq_false_iff, Option.isNone_iff_eq_none] at hevent
  refine h.same rfl (fun _ => rfl) (fun p => ?_) fun c => ?_
  · rw [hnew]
    unfold State.waits
    rw [hhandling]
    split_ifs with heq
    · rw [← Option.some.inj heq]
      exact hevent
    · rfl
  · have hkeeps : (s.handled b).keeps c = s.keeps c := by
      have hcount : ((some b).toList ++ s.held).count c = holds (some b) c + s.held.count c := by
        rw [← count_toList]
        exact List.count_append
      unfold State.keeps
      rw [hhandling]
      show s.entries c + 0 + ((some b).toList ++ s.held).count c =
        s.entries c + holds (some b) c + s.held.count c
      omega
    have hbp : (s.handled b).bp = s.bp := rfl
    rw [hkeeps, hbp]

theorem Balanced.released (h : Balanced s) (hheld : b ∈ s.held) (hbp : (s.bp b).refcnt ≠ 0) :
    Balanced (s.released b) := by
  refine h.same rfl (fun _ => rfl) (fun _ => rfl) fun c => ?_
  let s₁ := s.setBp b fun bp => { bp with refcnt := bp.refcnt - 1 }
  have hkeeps : (s.released b).keeps c + holds (some b) c = s.keeps c := by
    have hs₁ : s₁.keeps c = s.keeps c := setBp_keeps s b c _ fun _ => rfl
    rw [← hs₁]
    have hcount : (s.held.erase b).count c + holds (some b) c = s.held.count c := by
      rw [(List.perm_cons_erase hheld).count_eq c, ← count_toList]
      have happend : ([b] ++ s.held.erase b).count c = [b].count c + (s.held.erase b).count c :=
        List.count_append
      exact (happend.trans (Nat.add_comm _ _)).symm
    show s₁.entries c + holds (s.handling.map Prod.snd) c + (s.held.erase b).count c +
        holds (some b) c = s₁.entries c + holds (s.handling.map Prod.snd) c + s.held.count c
    omega
  have hpred : ((s.released b).bp c).refcnt + holds (some b) c = (s.bp c).refcnt := by
    show (s₁.bp c).refcnt + _ = _
    unfold holds
    by_cases hc : c = b
    · rw [hc, setBp_bp_self, if_pos rfl]
      exact Nat.sub_add_cancel (Nat.pos_of_ne_zero hbp)
    · rw [setBp_bp, if_neg hc, if_neg fun heq => hc (Option.some.inj heq).symm]
      rfl
  omega

/-- Nothing holds a breakpoint that was not made yet. -/
theorem Balanced.fresh (h : Balanced s) (hs : Sane s) (hb : s.nextBp ≤ b) :
    s.keeps b = 0 ∧ s.skips b = 0 ∧ s.events b = 0 := by
  have hrefcnt := h b
  rw [hs.bpFresh b hb] at hrefcnt
  have hzero : (0 : ℕ) = s.keeps b + s.skips b + s.events b := hrefcnt
  omega

theorem Balanced.addedBp (h : Balanced s) (hs : Sane s) (l : TaskId) (bp : Breakpoint) :
    Balanced (s.addedBp l bp) := by
  let f : Task → Task := fun k => { k with breakpoints := k.breakpoints ++ [s.nextBp] }
  let s₁ : State := { s with
    bp := Function.update s.bp s.nextBp { bp with refcnt := 1, owner := l }
    nextBp := s.nextBp + 1 }
  have hself : (s.addedBp l bp).bp s.nextBp = { bp with refcnt := 1, owner := l } :=
    Function.update_self _ _ _
  have hskip : ∀ p, ((s.addedBp l bp).task p).skipBp = (s.task p).skipBp :=
    setTask_field (s := s₁) (t := l) Task.skipBp (f := f) rfl
  have hwaits : ∀ p, (s.addedBp l bp).waits p = s.waits p :=
    fun p => waits_setTask s₁ l p (f := f) fun _ => rfl
  have hdict : ∀ p, ((s.addedBp l bp).task p).breakpoints =
      if p = l then (s.task l).breakpoints ++ [s.nextBp] else (s.task p).breakpoints := by
    intro p
    refine (congrArg Task.breakpoints (setTask_task s₁ l p f)).trans ?_
    split_ifs <;> rfl
  have hentries : ∀ c, (s.addedBp l bp).entries c =
      s.entries c + if c = s.nextBp then 1 else 0 := by
    intro c
    unfold State.entries
    by_cases hc : c = s.nextBp
    · have hold : s.nextBp ∉ (s.task (s.bp s.nextBp).owner).breakpoints :=
        fun hmem => Nat.lt_irrefl _ (hs.shelf _ _ hmem).2.1
      have hmem : s.nextBp ∈ ((s.addedBp l bp).task l).breakpoints := by
        rw [hdict, if_pos rfl]
        exact List.mem_append_right _ List.mem_cons_self
      rw [hc, hself, if_pos rfl, if_neg hold]
      exact if_pos hmem
    · have hbp : (s.addedBp l bp).bp c = s.bp c := Function.update_of_ne hc _ _
      have hmem : c ∈ ((s.addedBp l bp).task (s.bp c).owner).breakpoints ↔
          c ∈ (s.task (s.bp c).owner).breakpoints := by
        rw [hdict]
        split_ifs with hl
        · rw [hl, List.mem_append, List.mem_singleton, or_iff_left hc]
        · rfl
      rw [hbp, if_neg hc, Nat.add_zero]
      exact if_congr hmem rfl rfl
  refine h.same rfl hskip hwaits fun c => ?_
  have hkeeps : (s.addedBp l bp).keeps c = s.keeps c + if c = s.nextBp then 1 else 0 := by
    unfold State.keeps
    rw [hentries]
    show s.entries c + _ + holds (s.handling.map Prod.snd) c + s.held.count c = _
    omega
  rw [hkeeps]
  by_cases hc : c = s.nextBp
  · have hnone : (s.bp s.nextBp).refcnt = 0 := by
      rw [hs.bpFresh s.nextBp le_rfl]
    rw [hc, hself, hnone, if_pos rfl, Nat.zero_add]
    exact Nat.add_comm _ _
  · have hbp : (s.addedBp l bp).bp c = s.bp c := Function.update_of_ne hc _ _
    rw [hbp, if_neg hc]
    rfl

theorem Balanced.removedBp (h : Balanced s) (hs : Sane s)
    (hmem : b ∈ (s.task l).breakpoints) : Balanced (s.removedBp l b) := by
  let f : Task → Task := fun k => { k with breakpoints := k.breakpoints.erase b }
  have howner : (s.bp b).owner = l := (hs.shelf l b hmem).1
  have hskip : ∀ p, ((s.removedBp l b).task p).skipBp = (s.task p).skipBp :=
    setTask_field (s := s) (t := l) Task.skipBp (f := f) rfl
  have hwaits : ∀ p, (s.removedBp l b).waits p = s.waits p :=
    fun p => waits_setTask s l p (f := f) fun _ => rfl
  have hdict : ∀ p, ((s.removedBp l b).task p).breakpoints =
      if p = l then (s.task l).breakpoints.erase b else (s.task p).breakpoints := by
    intro p
    refine (congrArg Task.breakpoints (setTask_task s l p f)).trans ?_
    split_ifs <;> rfl
  have hbp : ∀ c, ((s.removedBp l b).bp c).owner = (s.bp c).owner ∧
      ((s.removedBp l b).bp c).refcnt = (s.bp c).refcnt := by
    intro c
    have hset := setBp_bp (s.setTask l f) b c fun bp => { bp with deleted := true, libsym := none }
    have hset : (s.removedBp l b).bp c = _ := hset
    rw [hset]
    split_ifs with hc
    · rw [hc]
      exact ⟨rfl, rfl⟩
    · exact ⟨rfl, rfl⟩
  have hentries : ∀ c, (s.removedBp l b).entries c + holds (some b) c = s.entries c := by
    intro c
    unfold State.entries holds
    rw [(hbp c).1, hdict]
    by_cases hc : b = c
    · have hnot : b ∉ (s.task l).breakpoints.erase b := (hs.nodup l).not_mem_erase
      rw [← hc, howner, if_pos rfl, if_pos rfl, if_pos hmem, if_neg hnot]
    · rw [if_neg fun heq => hc (Option.some.inj heq), Nat.add_zero]
      refine if_congr ?_ rfl rfl
      split_ifs with hl
      · rw [List.mem_erase_of_ne (Ne.symm hc), hl]
      · rfl
  refine h.same rfl hskip hwaits fun c => ?_
  have hcount : (b :: s.held).count c = holds (some b) c + s.held.count c := by
    rw [← count_toList]
    exact (List.count_append : ([b] ++ s.held).count c = [b].count c + s.held.count c)
  have hkeeps : (s.removedBp l b).keeps c = s.keeps c := by
    have := hentries c
    show (s.removedBp l b).entries c + holds (s.handling.map Prod.snd) c + (b :: s.held).count c =
      s.entries c + holds (s.handling.map Prod.snd) c + s.held.count c
    omega
  rw [hkeeps, (hbp c).2]

/-- A task is gone that holds nothing. -/
theorem Balanced.erased (h : Balanced s) (ht : t ∈ s.live) (hskip : (s.task t).skipBp = none)
    (hwaits : s.waits t = none) : Balanced { s with live := s.live.erase t } := by
  intro b
  have hskips : State.skips { s with live := s.live.erase t } b = s.skips b := by
    have herase := List.countP_eq_countP_erase_add ht (p := fun p => (s.task p).skipBp = some b)
    rw [if_neg (by rw [hskip]; exact nofun)] at herase
    exact herase.symm
  have hevents : State.events { s with live := s.live.erase t } b = s.events b := by
    have herase := List.countP_eq_countP_erase_add ht (p := fun p => s.waits p = some b)
    rw [if_neg (by rw [hwaits]; exact nofun)] at herase
    exact herase.symm
  rw [hskips, hevents]
  exact h b

theorem Balanced.retired (h : Balanced s) (ht : t ∈ s.live) (hevent : (s.task t).event = .none)
    (hskip : (s.task t).skipBp = none) : Balanced (s.retired t) := by
  let f : Task → Task := fun l =>
    { l with threads := l.threads - 1, threadsStopped := l.threadsStopped - 1 }
  let s₁ := s.setTask t fun k => { k with deleted := true }
  let s₂ := s₁.setTask (s.task t).leader f
  have h₁ : Balanced s₁ := h.update t (fun _ => rfl) (fun _ => rfl) fun _ => rfl
  have h₂ : Balanced s₂ := h₁.update _ (f := f) (fun _ => rfl) (fun _ => rfl) fun _ => rfl
  have hskips : (s₂.task t).skipBp = none := by
    refine (setTask_field (s := s₁) (t := (s.task t).leader) Task.skipBp (f := f) rfl t).trans ?_
    rw [setTask_task_self]
    exact hskip
  have hwaits : s₂.waits t = none := by
    refine (waits_setTask s₁ _ t (f := f) fun _ => rfl).trans ?_
    refine (waits_setTask s t t (f := fun k => { k with deleted := true }) fun _ => rfl).trans ?_
    exact waits_eq_none (congrArg Event.bp hevent)
  exact h₂.erased ht hskips hwaits

theorem Balanced.abandoned (h : Balanced s) (ht : t ∈ s.live)
    (hevent : (s.task t).event.isBreakpoint = false) (hskip : (s.task t).skipBp = none) :
    Balanced (s.abandoned t) := by
  let f : Task → Task := fun k => { k with threads := 0, threadsStopped := 0 }
  let s₁ := (s.setEvent t .none).drop t
  have hlost : s.unhandled t = false := by
    unfold State.unhandled
    rw [hevent]
    rfl
  have h₀ : Balanced (s.setEvent t .none) := h.event hlost nofun
  have h₁ : Balanced s₁ := h₀.quiet rfl (fun _ => rfl) (fun _ => rfl) rfl (fun _ => rfl) rfl rfl
  have h₂ : Balanced (s₁.setTask t f) := h₁.update t (fun _ => rfl) (fun _ => rfl) fun _ => rfl
  have hself : s₁.task t = { s.task t with event := .none } :=
    setTask_task_self s t fun k => { k with event := .none }
  refine h₂.erased ht ?_ (waits_eq_none ?_)
  all_goals rw [setTask_task_self, hself]
  · exact hskip
  · rfl

theorem Balanced.created (h : Balanced s) (hs : Sane s) (pid : UInt32) (l : TaskId) :
    Balanced (s.created pid l) := by
  obtain ⟨threads, hnew⟩ := created_task_next s pid l
  have hold : ∀ p ∈ s.live, ∃ threads, (s.created pid l).task p = { s.task p with threads } :=
    fun p hp => created_task_of_lt pid l (hs.live p hp)
  have hdict : ∀ p, ((s.created pid l).task p).breakpoints = (s.task p).breakpoints := by
    intro p
    by_cases hp : p = s.next
    · rw [hp, hnew, hs.fresh s.next le_rfl]
    · obtain ⟨threads, h⟩ := created_task s pid l p
      rw [h]
      show ((s.inserted pid l).task p).breakpoints = _
      exact congrArg Task.breakpoints (Function.update_of_ne hp _ _)
  intro b
  have hkeeps : (s.created pid l).keeps b = s.keeps b := by
    unfold State.keeps State.entries
    rw [hdict]
    rfl
  have hskips : (s.created pid l).skips b = s.skips b := by
    show (s.live ++ [s.next]).countP _ = _
    rw [List.countP_append, List.countP_singleton, hnew]
    refine congrArg (· + 0) (List.countP_congr fun p hp => ?_)
    obtain ⟨threads, h⟩ := hold p hp
    rw [h]
  have hevents : (s.created pid l).events b = s.events b := by
    have hnone : (s.created pid l).waits s.next = none := by
      refine waits_eq_none ?_
      rw [hnew]
      rfl
    show (s.live ++ [s.next]).countP _ = _
    rw [List.countP_append, List.countP_singleton, hnone]
    refine congrArg (· + 0) (List.countP_congr fun p hp => ?_)
    obtain ⟨threads, h⟩ := hold p hp
    unfold State.waits
    rw [h]
    rfl
  rw [hkeeps, hskips, hevents]
  exact h b

/-- The branches after which a reference is forgotten or a pointer dangles. -/
def Mark.loses : Mark → Bool
  | .overwritten | .droppedEvent | .deletedPending | .skippedEntry | .newUnexpected => true
  | _ => false

/-- Every reference stays counted, unless an event is forgotten. -/
theorem Balanced.change (h : Balanced s) (hs : Sane s) (hc : Change s s')
    (hmarks : ∀ m ∈ s'.marks, m.loses = false) : Balanced s' := by
  have hnot : ∀ {m : Mark}, m ∈ s'.marks → m.loses = true → False :=
    fun hm hbad => Bool.false_ne_true ((hmarks _ hm).symm.trans hbad)
  have hheld : ∀ {m : Mark} {c : Bool}, (c = true → m ∈ s'.marks) → m.loses = true → c = false := by
    intro m c hm hbad
    rw [← Bool.not_eq_true]
    exact fun hc => hnot (hm hc) hbad
  have hupdate : ∀ (t : TaskId) (f : Task → Task), (∀ k, (f k).skipBp = k.skipBp) →
      (∀ k, (f k).breakpoints = k.breakpoints) → (∀ k, (f k).event = k.event) →
      Balanced (s.setTask t f) := fun t _ => h.update t
  cases hc with
  | alike ha =>
    have htask : ∀ {β : Type} (g : Task → β), (∀ k, g k.core = g k) → ∀ p,
        g (s'.task p) = g (s.task p) := by
      intro β g hg p
      rw [← hg, ha.task, hg]
    have hbp : ∀ b, ((s'.bp b).refcnt, (s'.bp b).deleted, (s'.bp b).owner) =
        ((s.bp b).refcnt, (s.bp b).deleted, (s.bp b).owner) := ha.bp
    refine h.same ha.live (htask Task.skipBp fun _ => rfl) (fun p => ?_) fun b => ?_
    · unfold State.waits
      rw [ha.handling, htask Task.event fun _ => rfl]
    · have hrefcnt : (s'.bp b).refcnt = (s.bp b).refcnt := congrArg (·.1) (hbp b)
      have howner : (s'.bp b).owner = (s.bp b).owner := congrArg (·.2.2) (hbp b)
      unfold State.keeps State.entries
      rw [hrefcnt, howner, htask Task.breakpoints fun _ => rfl, ha.handling, ha.held]
  | created pid leader => exact h.created hs pid leader
  | setUp t signum ht hrun hevent => exact h.setUp signum hevent
  | arrived t => exact h.arrived
  | event t event ht hnone hlost hgain =>
    exact h.event (hheld hlost rfl) fun b hb => (hgain b hb).1
  | hit t b ht hevent hdict hhandling =>
    exact h.hit hs ht hevent (fun heq => hnot (hhandling heq) rfl) b
  | continued t ht hstopped howned hlost => exact h.continued (hheld hlost rfl)
  | skipped t b ht hskip => exact h.skipped hs ht hskip b
  | unskipped t b hskip =>
    have ht : t ∈ s.live := by
      by_contra hgone
      rw [(hs.gone t hgone).1] at hskip
      cases hskip
    exact h.unskipped hs ht hskip
  | released b hmem hbp => exact h.released hmem hbp
  | addedBp l bp => exact h.addedBp hs l bp
  | removedBp l b hmem => exact h.removedBp hs hmem
  | handles t b ht hnone hevent => exact h.handles hs ht hnone hevent
  | handled t b hhandling hleft hevent => exact h.handled hhandling (hheld hevent rfl)
  | unqueued t ht hhandling => exact h.unqueued hs ht hhandling
  | retired t ht hstopped hevent hskip => exact h.retired ht hevent hskip
  | abandoned t ht hleader halone hevent hskip => exact h.abandoned ht hevent hskip
  | halted t =>
    exact hupdate t (fun k => { k with stopped := true }) (fun _ => rfl) (fun _ => rfl) fun _ => rfl
  | deferredTo n t =>
    exact hupdate n (fun k => { k with deferred := some t }) (fun _ => rfl)
      (fun _ => rfl) fun _ => rfl
  | adopted n t =>
    exact hupdate n (fun k => { k with deferred := none }) (fun _ => rfl)
      (fun _ => rfl) fun _ => rfl
  | announced t =>
    exact hupdate t (fun k => { k with aboutExit := true }) (fun _ => rfl)
      (fun _ => rfl) fun _ => rfl
  | withdrawn t =>
    exact hupdate t (fun k => { k with aboutExit := false }) (fun _ => rfl)
      (fun _ => rfl) fun _ => rfl
  | grown t =>
    exact hupdate t (fun k => { k with isNew := false }) (fun _ => rfl) (fun _ => rfl) fun _ => rfl
  | pends t b =>
    exact hupdate t (fun k => { k with breakpoint := some b }) (fun _ => rfl)
      (fun _ => rfl) fun _ => rfl
  | unpends t =>
    exact hupdate t (fun k => { k with breakpoint := none }) (fun _ => rfl)
      (fun _ => rfl) fun _ => rfl
  | leaves t =>
    exact hupdate t (fun k => { k with bpSkipped := true }) (fun _ => rfl)
      (fun _ => rfl) fun _ => rfl
  | left t =>
    exact hupdate t (fun k => { k with bpSkipped := false }) (fun _ => rfl)
      (fun _ => rfl) fun _ => rfl
  | marked | took | queued | dequeued | joined =>
    exact h.quiet rfl (fun _ => rfl) (fun _ => rfl) rfl (fun _ => rfl) rfl rfl

/-! ## Pending returns -/

/-- The breakpoint where a call returns is in the dictionary of the leader. -/
def Pending (s : State) : Prop :=
  ∀ t ∈ s.live, ∀ b, (s.task t).breakpoint = some b → b ∈ (s.task (s.task t).leader).breakpoints

theorem Pending.same (h : Pending s) (hlive : ∀ t ∈ s'.live, t ∈ s.live)
    (hbreakpoint : ∀ t ∈ s.live, ∀ b, (s'.task t).breakpoint = some b →
      (s.task t).breakpoint = some b)
    (hleader : ∀ t ∈ s.live, (s'.task t).leader = (s.task t).leader)
    (hdict : ∀ l, ∀ b ∈ (s.task l).breakpoints, b ∈ (s'.task l).breakpoints) : Pending s' := by
  intro t ht b hb
  have ht := hlive t ht
  rw [hleader t ht]
  exact hdict _ b (h t ht b (hbreakpoint t ht b hb))

theorem Pending.addedBp (h : Pending s) (l : TaskId) (bp : Breakpoint) :
    Pending (s.addedBp l bp) := by
  let f : Task → Task := fun k => { k with breakpoints := k.breakpoints ++ [s.nextBp] }
  let s₁ : State := { s with
    bp := Function.update s.bp s.nextBp { bp with refcnt := 1, owner := l }
    nextBp := s.nextBp + 1 }
  refine h.same (fun _ ht => ht) (fun t _ b hb => ?_) (fun t _ => ?_) fun p b hb => ?_
  · exact (setTask_field (s := s₁) (t := l) Task.breakpoint (f := f) rfl t).symm.trans hb
  · exact setTask_field (s := s₁) (t := l) Task.leader (f := f) rfl t
  · have hdict : ((s.addedBp l bp).task p).breakpoints =
        if p = l then (s.task l).breakpoints ++ [s.nextBp] else (s.task p).breakpoints := by
      refine (congrArg Task.breakpoints (setTask_task s₁ l p f)).trans ?_
      split_ifs <;> rfl
    rw [hdict]
    split_ifs with hp
    · exact List.mem_append_left _ (hp ▸ hb)
    · exact hb

theorem Pending.removedBp (h : Pending s) (hnone : s.pending b = false) :
    Pending (s.removedBp l b) := by
  let f : Task → Task := fun k => { k with breakpoints := k.breakpoints.erase b }
  have hleader : ∀ p, ((s.removedBp l b).task p).leader = (s.task p).leader :=
    setTask_field (s := s) (t := l) Task.leader (f := f) rfl
  have hdict : ∀ p, ((s.removedBp l b).task p).breakpoints =
      if p = l then (s.task l).breakpoints.erase b else (s.task p).breakpoints := by
    intro p
    refine (congrArg Task.breakpoints (setTask_task s l p f)).trans ?_
    split_ifs <;> rfl
  intro t ht c hc
  have hold : (s.task t).breakpoint = some c :=
    (setTask_field (s := s) (t := l) Task.breakpoint (f := f) rfl t).symm.trans hc
  have hne : c ≠ b := by
    rintro rfl
    refine Bool.false_ne_true (hnone.symm.trans (List.any_eq_true.mpr ⟨t, ht, ?_⟩))
    exact decide_eq_true hold
  have hmem := h t ht c hold
  rw [hleader, hdict]
  split_ifs with hl
  · exact (List.mem_erase_of_ne hne).mpr (hl ▸ hmem)
  · exact hmem

theorem Pending.change (h : Pending s) (hs : Sane s) (hc : Change s s')
    (hmark : .deletedPending ∉ s'.marks) : Pending s' := by
  have hset : ∀ {β : Type} (g : Task → β) (s : State) (p t : TaskId) (f : Task → Task),
      (∀ k, g (f k) = g k) → g ((s.setTask p f).task t) = g (s.task t) :=
    fun g s p t f hf => setTask_field g (hf _) t
  cases hc with
  | alike ha =>
    have htask : ∀ {β : Type} (g : Task → β), (∀ k, g k.core = g k) → ∀ p,
        g (s'.task p) = g (s.task p) := by
      intro β g hg p
      rw [← hg, ha.task, hg]
    refine h.same (fun t ht => ha.live ▸ ht) (fun t _ b hb => ?_)
      (fun t _ => htask Task.leader (fun _ => rfl) t) fun l b hb => ?_
    · rwa [htask Task.breakpoint fun _ => rfl] at hb
    · rwa [htask Task.breakpoints fun _ => rfl]
  | created pid leader =>
    intro t ht b hb
    obtain ⟨threads, hnew⟩ := created_task_next s pid leader
    obtain ht | ht := List.mem_append.mp ht
    · have hlt := hs.live t ht
      obtain ⟨threads, hold⟩ := created_task_of_lt pid leader hlt
      obtain ⟨threads', hold'⟩ := created_task_of_lt pid leader (hs.leader t hlt)
      rw [hold] at hb ⊢
      rw [hold']
      exact h t ht b hb
    · rw [List.mem_singleton.mp ht, hnew] at hb
      cases hb
  | pends t b ht hdict =>
    let f : Task → Task := fun k => { k with breakpoint := some b }
    have hleader : ∀ p, ((s.pends t b).task p).leader = (s.task p).leader :=
      setTask_field (s := s) (t := t) Task.leader (f := f) rfl
    have hdicts : ∀ p, ((s.pends t b).task p).breakpoints = (s.task p).breakpoints :=
      setTask_field (s := s) (t := t) Task.breakpoints (f := f) rfl
    intro p hp c hc
    rw [hleader, hdicts]
    by_cases heq : p = t
    · have hself : ((s.pends t b).task t).breakpoint = some b :=
        congrArg Task.breakpoint (setTask_task_self s t f)
      rw [heq, hself] at hc
      rw [heq, ← Option.some.inj hc]
      exact hdict
    · have hother : (s.pends t b).task p = s.task p := setTask_task_of_ne s t p f heq
      rw [hother] at hc
      exact h p hp c hc
  | unpends t =>
    let f : Task → Task := fun k => { k with breakpoint := none }
    refine h.same (fun _ ht => ht) (fun p _ b hb => ?_)
      (fun p _ => setTask_field (s := s) (t := t) Task.leader (f := f) rfl p) fun p b hb => ?_
    · rw [setTask_task] at hb
      split_ifs at hb
      exact hb
    · rwa [setTask_field (s := s) (t := t) Task.breakpoints (f := f) rfl p]
  | addedBp l bp => exact h.addedBp l bp
  | removedBp l b hmem hpending =>
    refine h.removedBp ?_
    rw [← Bool.not_eq_true]
    exact fun hp => hmark (hpending hp)
  | retired t | abandoned t =>
    refine h.same (fun p hp => List.mem_of_mem_erase hp) (fun p _ b hb => ?_) (fun p _ => ?_)
      fun p b hb => ?_
    · simpa [State.retired, State.abandoned, State.setEvent, hset] using hb
    · simp [State.retired, State.abandoned, State.setEvent, hset]
    · simpa [State.retired, State.abandoned, State.setEvent, hset] using hb
  | marked | took | queued | dequeued | joined | released | handles | handled =>
    exact h.same (fun _ ht => ht) (fun _ _ _ hb => hb) (fun _ _ => rfl) fun _ _ hb => hb
  | _ =>
    refine h.same (fun _ ht => ht) (fun p _ b hb => ?_) (fun p _ => ?_) fun p b hb => ?_
    · simpa [State.setUp, State.arrived, State.continued, State.countStopped, State.setEvent,
        State.hit, State.deferredTo, State.adopted, State.announced, State.withdrawn, State.skipped,
        State.unskipped, State.unqueued, hset Task.breakpoint] using hb
    · simp [State.setUp, State.arrived, State.continued, State.countStopped, State.setEvent,
        State.hit, State.deferredTo, State.adopted, State.announced, State.withdrawn, State.skipped,
        State.unskipped, State.unqueued, hset Task.leader]
    · simpa [State.setUp, State.arrived, State.continued, State.countStopped, State.setEvent,
        State.hit, State.deferredTo, State.adopted, State.announced, State.withdrawn, State.skipped,
        State.unskipped, State.unqueued, hset Task.breakpoints] using hb

/-! ## Whole runs -/

/-- What holds of every state, in the middle of a step too. -/
theorem balanced_of_changes (h : Changes (.start inputs) s)
    (hmarks : ∀ m ∈ s.marks, m.loses = false) : Balanced s ∧ Pending s := by
  have hinv : Sane s ∧ ((∀ m ∈ s.marks, m.loses = false) → Balanced s ∧ Pending s) := by
    refine keeps_of_change (I := fun s => Sane s ∧ ((∀ m ∈ s.marks, m.loses = false) →
      Balanced s ∧ Pending s)) (fun s s' hc hI => ?_) h
      ⟨start_sane inputs, fun _ => ⟨start_balanced inputs, fun _ ht => nomatch ht⟩⟩
    obtain ⟨hs, hinv⟩ := hI
    refine ⟨hs.change hc, fun hmarks => ?_⟩
    obtain ⟨hbalanced, hpending⟩ := hinv fun m hm => hmarks m (marks_of_change hc m hm)
    refine ⟨hbalanced.change hs hc hmarks, hpending.change hs hc fun hm => ?_⟩
    exact Bool.false_ne_true ((hmarks _ hm).symm.trans rfl)
  exact hinv.2 hmarks

/-- Unless an event is forgotten or a breakpoint is deleted that a task waits for, `refcnt` counts
the dictionary, the tasks that stand on the breakpoint and the events that are not handled yet, and
every pending return is in the dictionary. -/
theorem references_exact (hr : Reached inputs s) (hmarks : ∀ m ∈ s.marks, m.loses = false) :
    (∀ b, (s.bp b).refcnt = (if b ∈ (s.task (s.bp b).owner).breakpoints then 1 else 0) +
      s.live.countP (fun t => (s.task t).skipBp = some b) +
      s.live.countP (fun t => (s.task t).event = .breakpoint b)) ∧
    ∀ t ∈ s.live, ∀ b, (s.task t).breakpoint = some b →
      b ∈ (s.task (s.task t).leader).breakpoints := by
  obtain ⟨hto, hidle⟩ := hr.sound
  obtain ⟨hbalanced, hpending⟩ := balanced_of_changes hto hmarks
  refine ⟨fun b => ?_, hpending⟩
  have hheld : s.held = [] := hidle.held.resolve_right fun hm =>
    Bool.false_ne_true ((hmarks _ hm).symm.trans rfl)
  have hkeeps : s.keeps b = if b ∈ (s.task (s.bp b).owner).breakpoints then 1 else 0 := by
    unfold State.keeps
    rw [hidle.handling, hheld]
    rfl
  have hevents : s.events b = s.live.countP fun t => (s.task t).event = .breakpoint b := by
    refine List.countP_congr fun t _ => ?_
    unfold State.waits
    rw [hidle.handling, if_neg nofun, decide_eq_true_eq, decide_eq_true_eq]
    cases (s.task t).event with
    | breakpoint c => simp [Event.bp]
    | _ => simp [Event.bp]
  rw [hbalanced b, hkeeps, hevents]
  rfl

/-- A process with three threads and a breakpoint, which all go on. -/
def threeThreads : List (World × Step) :=
  [(.plain, .attach 100 [101, 102] (some (.traced 0x1000))), (.plain, .event {}),
    (.plain, .event {}),
    (.plain, .event {})]

def threeThreadsInputs : List Input :=
  [.wait (.first 100), .wait (.first 101), .wait (.first 102)]

/-- Two threads hit the breakpoint; the step over it of the first one is cut short by a signal. -/
def hitInputs : List Input :=
  threeThreadsInputs ++
    [.wait (.stop 100 sigtrap .none 0x1000), .wait (.stop 101 sigtrap .none 0x1000),
      .wait (.stop 102 sigstop .none 0), .halted (.stop 100 10 .none 0)]

/-- The second one steps over it and calls; then the first one comes back to it. -/
def steppedInputs : List Input :=
  hitInputs ++ [.halted (.stop 101 sigtrap .none 0), .wait (.stop 100 sigtrap .none 0x1000),
    .wait (.stop 101 sigstop .none 0), .wait (.stop 102 sigstop .none 0),
    .halted (.stop 100 sigtrap .none 0)]

/-- A hit of a function that returns to `0x2000`. -/
def hitStep : World × Step := (.plain, .event { returnAddr := 0x2000 })

/-- In the middle of the run the dictionary, the first thread and the event of the second one refer
to the breakpoint, at its end the dictionary alone, and a return is pending. -/
theorem references_exact_hits :
    (∃ s, Reached steppedInputs s ∧ (s.bp 0).refcnt = 3 ∧
      (s.bp 0).refcnt = (if 0 ∈ (s.task (s.bp 0).owner).breakpoints then 1 else 0) +
        s.live.countP (fun t => (s.task t).skipBp = some 0) +
        s.live.countP (fun t => (s.task t).event = .breakpoint 0)) ∧
    ∃ s, Reached steppedInputs s ∧ (s.bp 0).refcnt = 1 ∧ (s.task 1).breakpoint = some 1 ∧
      1 ∈ (s.task (s.task 1).leader).breakpoints := by
  refine ⟨?_, ?_⟩
  · obtain ⟨s, hr, hs⟩ := Machine.reach_of_observed step (.start steppedInputs)
      (threeThreads ++ [hitStep]) (fun s => (s.marks, (s.bp 0).refcnt)) (a := ([], 3))
      (by decide +kernel)
    obtain ⟨hmarks, hrefcnt⟩ := Prod.mk.inj hs
    exact ⟨s, hr, hrefcnt, (references_exact hr (by rw [hmarks]; exact nofun)).1 0⟩
  · obtain ⟨s, hr, hs⟩ := Machine.reach_of_observed step (.start steppedInputs)
      (threeThreads ++ [hitStep, hitStep, hitStep, hitStep, hitStep])
      (fun s => (s.marks, (s.bp 0).refcnt, decide (1 ∈ s.live), (s.task 1).breakpoint))
      (a := ([], 1, true, some 1)) (by decide +kernel)
    simp only [Prod.mk.injEq, decide_eq_true_eq] at hs
    obtain ⟨hmarks, hrefcnt, hlive, hpending⟩ := hs
    exact ⟨s, hr, hrefcnt, hpending,
      (references_exact hr (by rw [hmarks]; exact nofun)).2 1 hlive 1 hpending⟩

/-- Two threads hit the breakpoint, and the second one comes to its end while its hit is queued:
the reference of its event is never given up. -/
theorem references_overwritten : ∃ s, Reached (threeThreadsInputs ++
      [.wait (.stop 100 sigtrap .none 0x1000), .wait (.stop 101 sigtrap .none 0x1000),
        .wait (.stop 101 sigtrap .exit 0), .wait (.stop 102 sigstop .none 0),
        .halted (.stop 100 sigtrap .none 0)]) s ∧
    (s.bp 0).refcnt = 2 ∧ (∀ t ∈ s.live, (s.task t).skipBp = none) ∧
    ∀ t ∈ s.live, (s.task t).event ≠ .breakpoint 0 := by
  obtain ⟨s, hr, hs⟩ := Machine.reach_of_observed step
    (.start (threeThreadsInputs ++
      [.wait (.stop 100 sigtrap .none 0x1000), .wait (.stop 101 sigtrap .none 0x1000),
        .wait (.stop 101 sigtrap .exit 0), .wait (.stop 102 sigstop .none 0),
        .halted (.stop 100 sigtrap .none 0)]))
    (threeThreads ++ [(.plain, .event { reportsOut := false, reportsIn := false })])
    (fun s => ((s.bp 0).refcnt, decide (∀ t ∈ s.live, (s.task t).skipBp = none),
      decide (∀ t ∈ s.live, (s.task t).event ≠ .breakpoint 0)))
    (a := (2, true, true)) (by decide +kernel)
  simp only [Prod.mk.injEq, decide_eq_true_eq] at hs
  exact ⟨s, hr, hs⟩

end Mtrace.Tracer
