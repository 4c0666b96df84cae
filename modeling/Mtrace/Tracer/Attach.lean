import Mathlib.Data.UInt
import Mtrace.Machine

/-!
# Attaching to a process that runs

`open_pid` of `task.c`: the server attaches to the leader, and then reads the list of the threads
again and again and attaches to those it does not have, until it has all and there are as many as
before.  The process goes on in the meantime: a thread that is not stopped can start others and can
exit, also while the list is read, and what happens to the list then is up to the kernel.

`open_pid_stops_all`: when the loop is left, all threads are stopped, unless one that was not
stopped has exited while the list was read for the last time.
-/

namespace Mtrace.Tracer

/-- A pass over `/proc/<pid>/task`: the threads that were there all the time, and those that were
there at some time. -/
structure Reading where
  throughout : List UInt32
  ever : List UInt32
  deriving DecidableEq, Repr

/-- Where `open_pid` is: `open_one_pid` of the leader, the head of the loop, `process_tasks`, the
loop over its result, `open_one_pid` of a thread, and the end. -/
inductive OpenPc where
  | leader (pid : UInt32)
  | round (oldNtasks : ℕ)
  | reading (oldNtasks : ℕ) (r : Reading)
  | tasks (oldNtasks ntasks : ℕ) (haveAll : Bool) (rest : List UInt32)
  | opening (tid : UInt32) (oldNtasks ntasks : ℕ) (rest : List UInt32)
  | done
  | failed
  deriving DecidableEq, Repr

/-- The thread that `open_one_pid` attaches to. -/
def OpenPc.opens : OpenPc → Option UInt32
  | .leader pid => some pid
  | .opening tid _ _ _ => some tid
  | _ => none

/-- The list that `process_tasks` reads. -/
def OpenPc.reads : OpenPc → Option Reading
  | .reading _ r => some r
  | _ => none

/-- A list that was read has what was there all the time and nothing that was never there. -/
def Listed : Option Reading → Option (List UInt32) → Prop
  | some r, some tasks => (∀ t ∈ r.throughout, t ∈ tasks) ∧ ∀ t ∈ tasks, t ∈ r.ever
  | _, _ => True

instance : (r : Option Reading) → (tasks : Option (List UInt32)) → Decidable (Listed r tasks)
  | some _, some _ => @instDecidableAnd _ _ (List.decidableBAll _ _) (List.decidableBAll _ _)
  | none, _ => .isTrue trivial
  | some _, none => .isTrue trivial

/-- The threads that there are, those the server has in its table, which are stopped, and whether
one that was not has exited while the list was read. -/
structure OpenState where
  alive : List UInt32
  stopped : List UInt32
  pc : OpenPc
  lost : Bool
  deriving DecidableEq, Repr

/-- A step of the process, or of the server with what the kernel answers. -/
inductive OpenEvent where
  | clone (parent child : UInt32)
  | exit (tid : UInt32)
  /-- `trace_attach` and `trace_set_options`: the thread is stopped, or it was gone. -/
  | attached (ok : Bool)
  | opendir
  /-- The end of `process_tasks`. -/
  | closedir (tasks : Option (List UInt32))
  /-- A round of the loop over the tasks, or its end. -/
  | next
  deriving DecidableEq, Repr

namespace OpenState

/-- A thread goes on. -/
def Running (s : OpenState) (t : UInt32) : Prop := t ∈ s.alive ∧ t ∉ s.stopped

instance (s : OpenState) (t : UInt32) : Decidable (s.Running t) :=
  inferInstanceAs (Decidable (_ ∧ _))

/-- A new thread is on the list, or not yet. -/
def cloned (s : OpenState) (child : UInt32) : OpenState :=
  { s with
    alive := child :: s.alive
    pc := match s.pc with
      | .reading old r => .reading old { r with ever := child :: r.ever }
      | pc => pc }

/-- A thread that exits may have been read, or not. -/
def exited (s : OpenState) (t : UInt32) : OpenState :=
  { s with
    alive := s.alive.filter (· != t)
    pc := match s.pc with
      | .reading old r => .reading old { r with throughout := r.throughout.filter (· != t) }
      | pc => pc
    lost := match s.pc with
      | .reading _ _ => s.lost || decide (s.Running t)
      | _ => s.lost }

/-- The server has a thread, if it could be attached. -/
def opened (s : OpenState) (t : UInt32) (ok : Bool) (pc : OpenPc) : OpenState :=
  { s with stopped := if ok then t :: s.stopped else s.stopped, pc }

/-- `for(;;)`. -/
def opendir (s : OpenState) (oldNtasks : ℕ) : OpenState :=
  { s with pc := .reading oldNtasks ⟨s.alive, s.alive⟩, lost := false }

def step (s : OpenState) : OpenEvent → Except String OpenState
  | .clone _ child => .ok (s.cloned child)
  | .exit t => .ok (s.exited t)
  | .attached ok =>
    match s.pc with
    | .leader pid => .ok (s.opened pid ok (if ok then .round 0 else .failed))
    | .opening tid old ntasks rest => .ok (s.opened tid ok (.tasks old ntasks false rest))
    | _ => .error "not in open_one_pid"
  | .opendir =>
    match s.pc with
    | .round old => .ok (s.opendir old)
    | _ => .error "not at the head of the loop"
  | .closedir answer =>
    match s.pc with
    | .reading old _ =>
      match answer with
      | some tasks => .ok { s with pc := .tasks old tasks.length true tasks }
      | none => .ok { s with pc := .failed }
    | _ => .error "not in process_tasks"
  | .next =>
    match s.pc with
    | .tasks old ntasks haveAll (t :: rest) =>
      if t ∈ s.stopped then .ok { s with pc := .tasks old ntasks haveAll rest }
      else .ok { s with pc := .opening t old ntasks rest }
    | .tasks old ntasks haveAll [] =>
      if haveAll && old == ntasks then .ok { s with pc := .done }
      else .ok { s with pc := .round ntasks }
    | _ => .error "not in the loop over the tasks"

/-- What the kernel does: only a thread that goes on starts another one, and only one that is there
exits or stops. -/
def Allowed (s : OpenState) : OpenEvent → Prop
  | .clone parent child => s.Running parent ∧ child ∉ s.alive ∧ child ∉ s.stopped
  | .exit t => t ∈ s.alive
  | .attached ok => ok = true → s.pc.opens.all (· ∈ s.alive) = true
  | .closedir tasks => Listed s.pc.reads tasks
  | _ => True

instance (s : OpenState) : (e : OpenEvent) → Decidable (s.Allowed e)
  | .clone _ _ => inferInstanceAs (Decidable (_ ∧ _ ∧ _))
  | .exit _ => inferInstanceAs (Decidable (_ ∈ _))
  | .attached _ => inferInstanceAs (Decidable (_ → _ = true))
  | .opendir => inferInstanceAs (Decidable True)
  | .closedir tasks => inferInstanceAs (Decidable (Listed s.pc.reads tasks))
  | .next => inferInstanceAs (Decidable True)

/-- `open_pid` of a process with these threads. -/
def start (pid : UInt32) (alive : List UInt32) : OpenState := ⟨alive, [], .leader pid, false⟩

/-- What a step does. -/
inductive Stepped (s : OpenState) : OpenEvent → OpenState → Prop where
  | clone (parent child : UInt32) : Stepped s (.clone parent child) (s.cloned child)
  | exit (t : UInt32) : Stepped s (.exit t) (s.exited t)
  | leader {pid : UInt32} (ok : Bool) (hpc : s.pc = .leader pid) :
      Stepped s (.attached ok) (s.opened pid ok (if ok then .round 0 else .failed))
  | opening {tid : UInt32} {old ntasks : ℕ} {rest : List UInt32} (ok : Bool)
      (hpc : s.pc = .opening tid old ntasks rest) :
      Stepped s (.attached ok) (s.opened tid ok (.tasks old ntasks false rest))
  | opendir {old : ℕ} (hpc : s.pc = .round old) : Stepped s .opendir (s.opendir old)
  | read {old : ℕ} {r : Reading} (tasks : List UInt32) (hpc : s.pc = .reading old r) :
      Stepped s (.closedir (some tasks)) { s with pc := .tasks old tasks.length true tasks }
  | unread {old : ℕ} {r : Reading} (hpc : s.pc = .reading old r) :
      Stepped s (.closedir none) { s with pc := .failed }
  | old {old ntasks : ℕ} {haveAll : Bool} {t : UInt32} {rest : List UInt32}
      (hpc : s.pc = .tasks old ntasks haveAll (t :: rest)) (ht : t ∈ s.stopped) :
      Stepped s .next { s with pc := .tasks old ntasks haveAll rest }
  | new {old ntasks : ℕ} {haveAll : Bool} {t : UInt32} {rest : List UInt32}
      (hpc : s.pc = .tasks old ntasks haveAll (t :: rest)) (ht : t ∉ s.stopped) :
      Stepped s .next { s with pc := .opening t old ntasks rest }
  | done {ntasks : ℕ} (hpc : s.pc = .tasks ntasks ntasks true []) :
      Stepped s .next { s with pc := .done }
  | again {old ntasks : ℕ} {haveAll : Bool} (hpc : s.pc = .tasks old ntasks haveAll []) :
      Stepped s .next { s with pc := .round ntasks }

theorem step_cases {s s' : OpenState} {e : OpenEvent} (h : s.step e = .ok s') : Stepped s e s' := by
  unfold step at h
  cases e with
  | clone parent child =>
    cases h
    exact .clone parent child
  | exit t =>
    cases h
    exact .exit t
  | attached ok =>
    cases hpc : s.pc with
    | leader pid =>
      rw [hpc] at h
      cases h
      exact .leader ok hpc
    | opening tid old ntasks rest =>
      rw [hpc] at h
      cases h
      exact .opening ok hpc
    | _ =>
      rw [hpc] at h
      cases h
  | opendir =>
    cases hpc : s.pc with
    | round old =>
      rw [hpc] at h
      cases h
      exact .opendir hpc
    | _ =>
      rw [hpc] at h
      cases h
  | closedir answer =>
    cases hpc : s.pc with
    | reading old r =>
      rw [hpc] at h
      cases answer with
      | none =>
        cases h
        exact .unread hpc
      | some tasks =>
        cases h
        exact .read tasks hpc
    | _ =>
      rw [hpc] at h
      cases h
  | next =>
    cases hpc : s.pc with
    | tasks old ntasks haveAll rest =>
      rw [hpc] at h
      cases rest with
      | cons t rest =>
        by_cases ht : t ∈ s.stopped
        · simp only [if_pos ht] at h
          cases h
          exact .old hpc ht
        · simp only [if_neg ht] at h
          cases h
          exact .new hpc ht
      | nil =>
        by_cases hall : (haveAll && old == ntasks) = true
        · simp only [if_pos hall] at h
          cases h
          obtain ⟨rfl, hold⟩ := Bool.and_eq_true_iff.mp hall
          exact .done (beq_iff_eq.mp hold ▸ hpc)
        · simp only [if_neg hall] at h
          cases h
          exact .again hpc
    | _ =>
      rw [hpc] at h
      cases h

/-! ## Nobody is left -/

/-- No thread goes on. -/
def Quiet (s : OpenState) : Prop := ∀ t, ¬ s.Running t

/-- Where the server could still come upon a thread that goes on, if there is one. -/
def Ahead (s : OpenState) : Prop :=
  match s.pc with
  | .reading _ r => ∃ t ∈ r.throughout, s.Running t
  | .tasks _ _ haveAll rest => haveAll = false ∨ ∃ t ∈ rest, t ∉ s.stopped
  | .done => False
  | _ => True

/-- The server comes upon a thread that goes on, if there is one, or has missed one that exited. -/
def Sound (s : OpenState) : Prop := s.lost = false → s.Quiet ∨ s.Ahead

section Sound

variable {s s' : OpenState} {t parent child : UInt32}

theorem running_exited {t' : UInt32} : (s.exited t').Running t ↔ s.Running t ∧ t ≠ t' := by
  simp only [Running, exited, List.mem_filter, bne_iff_ne]
  tauto

/-- Outside of `process_tasks`, threads that come and go are not what the server looks at. -/
theorem Ahead.of_pc (h : s.Ahead) (hpc : s'.pc = s.pc) (hstopped : s'.stopped = s.stopped)
    (hreads : s.pc.reads = none) : s'.Ahead := by
  unfold Ahead at *
  rw [hpc, hstopped]
  cases hs : s.pc with
  | reading old r =>
    rw [hs] at hreads
    cases hreads
  | _ =>
    rw [hs] at h
    exact h

/-- A thread that starts another one still goes on. -/
theorem Sound.clone (h : s.Sound) (hparent : s.Running parent) : (s.cloned child).Sound := by
  intro hlost
  refine .inr ?_
  rcases h hlost with hquiet | hahead
  · exact absurd hparent (hquiet parent)
  · cases hpc : s.pc with
    | reading old r =>
      have hpc' : (s.cloned child).pc = .reading old { r with ever := child :: r.ever } := by
        simp only [cloned, hpc]
      rw [Ahead, hpc] at hahead
      rw [Ahead, hpc']
      obtain ⟨t, ht, hrun⟩ := hahead
      exact ⟨t, ht, List.mem_cons_of_mem _ hrun.1, hrun.2⟩
    | _ => exact hahead.of_pc (by simp only [cloned, hpc]) rfl (by rw [hpc]; rfl)

theorem Quiet.exit (h : s.Quiet) : (s.exited t).Quiet :=
  fun t' hrun => h t' (running_exited.mp hrun).1

theorem Sound.exit (h : s.Sound) : (s.exited t).Sound := by
  intro hlost
  unfold exited at hlost
  cases hpc : s.pc with
  | reading old r =>
    simp only [hpc, Bool.or_eq_false_iff, decide_eq_false_iff_not] at hlost
    rcases h hlost.1 with hquiet | hahead
    · exact .inl hquiet.exit
    · -- the one that is read in any case is not the one that exits, which was stopped
      rw [Ahead, hpc] at hahead
      obtain ⟨t', ht', hrun⟩ := hahead
      have hne : t' ≠ t := fun heq => hlost.2 (heq ▸ hrun)
      have hpc' : (s.exited t).pc =
          .reading old { r with throughout := r.throughout.filter (· != t) } := by
        simp only [exited, hpc]
      refine .inr ?_
      rw [Ahead, hpc']
      exact ⟨t', List.mem_filter.mpr ⟨ht', bne_iff_ne.mpr hne⟩, running_exited.mpr ⟨hrun, hne⟩⟩
  | _ =>
    rw [hpc] at hlost
    rcases h hlost with hquiet | hahead
    · exact .inl hquiet.exit
    · exact .inr (hahead.of_pc (by simp only [exited, hpc]) rfl (by rw [hpc]; rfl))

/-- Before the list is read, a thread that goes on is there to be read. -/
theorem Sound.opendir (s : OpenState) (old : ℕ) : (s.opendir old).Sound := by
  intro _
  by_cases hrun : ∃ t, s.Running t
  · obtain ⟨t, ht⟩ := hrun
    exact .inr ⟨t, ht.1, ht⟩
  · exact .inl fun t ht => hrun ⟨t, ht⟩

theorem Sound.step {e : OpenEvent} (h : s.Sound) (hok : s.Allowed e) (hs : s.step e = .ok s') :
    s'.Sound := by
  cases step_cases hs with
  | clone parent child => exact h.clone hok.1
  | exit t => exact h.exit
  | leader ok hpc =>
    intro _
    cases ok <;> exact .inr trivial
  | opening ok hpc => exact fun _ => .inr (.inl rfl)
  | opendir hpc => exact Sound.opendir s _
  | @read old r tasks hpc =>
    intro hlost
    rcases h hlost with hquiet | hahead
    · exact .inl hquiet
    · rw [Ahead, hpc] at hahead
      obtain ⟨t, ht, hrun⟩ := hahead
      have hread : Listed (some r) (some tasks) := by
        rw [Allowed, hpc] at hok
        exact hok
      exact .inr (.inr ⟨t, hread.1 t ht, hrun.2⟩)
  | unread hpc => exact fun _ => .inr trivial
  | @old _ _ haveAll t rest hpc ht =>
    intro hlost
    rcases h hlost with hquiet | hahead
    · exact .inl hquiet
    · rw [Ahead, hpc] at hahead
      rcases hahead with hnot | ⟨t', ht', hrun⟩
      · exact .inr (.inl hnot)
      · have hne : t' ≠ t := fun heq => hrun (heq ▸ ht)
        exact .inr (.inr ⟨t', List.mem_of_ne_of_mem hne ht', hrun⟩)
  | new hpc ht => exact fun _ => .inr trivial
  | done hpc =>
    -- all of the last list are stopped, so there was nobody to be found
    intro hlost
    rcases h hlost with hquiet | hahead
    · exact .inl hquiet
    · rw [Ahead, hpc] at hahead
      rcases hahead with hnot | ⟨t, ht, -⟩
      · cases hnot
      · cases ht
  | again hpc => exact fun _ => .inr trivial

/-! ## Nobody is attached twice -/

/-- The threads that the server has are apart, and `open_one_pid` is called for none of them. -/
structure Once (s : OpenState) : Prop where
  nodup : s.stopped.Nodup
  fresh : ∀ t ∈ s.pc.opens, t ∉ s.stopped

theorem Once.of_pc (h : s.Once) (hstopped : s'.stopped = s.stopped)
    (hpc : s'.pc.opens = none ∨ s'.pc.opens = s.pc.opens) : s'.Once := by
  refine ⟨hstopped ▸ h.nodup, fun t ht => ?_⟩
  rw [hstopped]
  rcases hpc with hnone | heq
  · rw [hnone] at ht
    cases ht
  · exact h.fresh t (heq ▸ ht)

theorem Once.opened {ok : Bool} {pc : OpenPc} (h : s.Once) (ht : t ∈ s.pc.opens)
    (hpc : pc.opens = none) : (s.opened t ok pc).Once where
  nodup := by
    cases ok
    · exact h.nodup
    · exact List.nodup_cons.mpr ⟨h.fresh t ht, h.nodup⟩
  fresh t' ht' := by
    have hnone : (s.opened t ok pc).pc.opens = none := hpc
    rw [hnone] at ht'
    cases ht'

theorem Once.step {e : OpenEvent} (h : s.Once) (hs : s.step e = .ok s') : s'.Once := by
  cases step_cases hs with
  | clone parent child =>
    refine h.of_pc rfl (.inr ?_)
    unfold cloned
    cases s.pc <;> rfl
  | exit t =>
    refine h.of_pc rfl (.inr ?_)
    unfold exited
    cases s.pc <;> rfl
  | leader ok hpc => exact h.opened (by rw [hpc]; rfl) (by cases ok <;> rfl)
  | opening ok hpc => exact h.opened (by rw [hpc]; rfl) rfl
  | new hpc ht =>
    refine ⟨h.nodup, fun t' ht' => ?_⟩
    cases ht'
    exact ht
  | _ => exact h.of_pc rfl (.inl rfl)

end Sound

/-! ## The end of the loop -/

theorem sound_start (pid : UInt32) (alive : List UInt32) : (start pid alive).Sound :=
  fun _ => .inr trivial

theorem once_start (pid : UInt32) (alive : List UInt32) : (start pid alive).Once :=
  ⟨List.nodup_nil, fun _ _ => List.not_mem_nil⟩

/-- No thread is attached twice, and at the end of the loop all threads are stopped, unless one
that was not stopped has exited while the list was read for the last time. -/
theorem open_pid_stops_all (pid : UInt32) (alive : List UInt32) {s : OpenState}
    (h : Machine.Reach step Allowed (start pid alive) s) :
    s.stopped.Nodup ∧ (s.pc = .done → s.lost = false → ∀ t ∈ s.alive, t ∈ s.stopped) := by
  have hsound : s.Sound :=
    h.invariant (sound_start pid alive) fun _ _ _ h hok hs => h.step hok hs
  have honce : s.Once :=
    h.invariant (once_start pid alive) fun _ _ _ h _ hs => h.step hs
  refine ⟨honce.nodup, fun hdone hlost t ht => ?_⟩
  rcases hsound hlost with hquiet | hahead
  · exact not_not.mp fun hnot => hquiet t ⟨ht, hnot⟩
  · rw [Ahead, hdone] at hahead
    exact hahead.elim

/-- A run, if all its events are allowed. -/
def follow : OpenState → List OpenEvent → Option OpenState
  | s, [] => some s
  | s, e :: es =>
    if s.Allowed e then
      match s.step e with
      | .ok s' => s'.follow es
      | .error _ => none
    else none

theorem reach_follow {pid : UInt32} {alive : List UInt32} {es : List OpenEvent} {s s' : OpenState}
    (h : Machine.Reach step Allowed (start pid alive) s) (hf : s.follow es = some s') :
    Machine.Reach step Allowed (start pid alive) s' := by
  induction es generalizing s with
  | nil =>
    cases hf
    exact h
  | cons e es ih =>
    unfold follow at hf
    by_cases hok : s.Allowed e
    · rw [if_pos hok] at hf
      cases hs : s.step e with
      | ok s1 =>
        rw [hs] at hf
        exact ih (h.step hok hs) hf
      | error fault =>
        rw [hs] at hf
        cases hf
    · rw [if_neg hok] at hf
      cases hf

/-- The second thread starts a third one while the list is read, which the first pass does not
find. -/
def caughtRun : List OpenEvent :=
  [.attached true, .opendir, .clone 2 3, .closedir (some [1, 2]), .next, .next, .attached true,
    .next, .opendir, .closedir (some [1, 2, 3]), .next, .next, .next, .attached true, .next,
    .opendir, .closedir (some [1, 2, 3]), .next, .next, .next, .next]

theorem open_pid_stops_all_sample : ∃ s, (start 1 [1, 2]).follow caughtRun = some s ∧
    s.pc = .done ∧ s.stopped.Nodup ∧ ∀ t ∈ s.alive, t ∈ s.stopped := by
  have hrun : (start 1 [1, 2]).follow caughtRun = some ⟨[3, 1, 2], [3, 2, 1], .done, false⟩ := by
    decide
  have hall := open_pid_stops_all 1 [1, 2] (reach_follow .init hrun)
  exact ⟨_, hrun, rfl, hall.1, hall.2 rfl rfl⟩

/-- As before, but the third thread starts a fourth one and exits while the list is read for the
second time, which then has as many threads as before. -/
def missedRun : List OpenEvent :=
  [.attached true, .opendir, .clone 2 3, .closedir (some [1, 2]), .next, .next, .attached true,
    .next, .opendir, .clone 3 4, .exit 3, .closedir (some [1, 2]), .next, .next, .next]

/-- The race that `open_pid` does not close: a thread goes on after the end of the loop. -/
theorem open_pid_misses : ∃ s, Machine.Reach step Allowed (start 1 [1, 2]) s ∧ s.pc = .done ∧
    s.Running 4 := by
  have hrun : (start 1 [1, 2]).follow missedRun = some ⟨[4, 1, 2], [2, 1], .done, true⟩ := by
    decide
  exact ⟨_, reach_follow .init hrun, rfl, by decide⟩

end OpenState

end Mtrace.Tracer
