import Mtrace.Client.Payload

/-!
# What the client has been told

The width and the byte order of a process are told once, when it is attached or forked, and the
client keeps them in the record of the process.  The server's side of this is a map from pids to
widths; every message changes it in the same way as the records.
-/

namespace Mtrace.Client

open RbTree Machine

/-! ## The format of a record -/

/-- What a record says about handling the messages of its process. -/
def Process.format (p : Process) : UInt32 × Bool × Bool × Bool × ProcessStatus :=
  (p.pid, p.swapEndian, p.is64bit, p.tracing, p.status)

section Format

variable {o : Options} {env : Env} {c : State} {p q : Process} {k : Stacks}
  {r : Stacks × Process} {s s' : Stacks × Process} {C : Change → Prop}

theorem Changed.format_eq {l : Change} (hc : Changed l s s') : s'.2.format = s.2.format := by
  cases hc <;> rfl

theorem Chain.format_eq (hc : Chain C s s') : s'.2.format = s.2.format :=
  hc.invariant (P := fun r => r.2.format = s.2.format)
    (fun _ _ _ _ h hc => hc.format_eq.trans h) rfl

theorem Rerefs.format_eq (h : Rerefs p q) : q.format = p.format := by
  obtain ⟨f, rfl⟩ := h
  rfl

theorem processLeaksScan_format (p : Process) (mode : ScanMode) :
    (processLeaksScan p mode).format = p.format := by
  unfold processLeaksScan
  split <;> rfl

theorem duplicateBlocks_format {copy : Process} {bs : List RbBlock}
    (h : duplicateBlocks o copy bs k p = .ok r) : r.2.format = p.format := by
  induction bs generalizing k p with
  | nil =>
    cases h
    rfl
  | cons b bs ih =>
    obtain ⟨r1, h1, h2⟩ := bind_eq_ok.mp h
    obtain ⟨n, k1, p1, i, n1, -, hcl, -, rfl⟩ := processRbDuplicateBlock_cases h1
    refine (ih (p := p1.copyBlock b i) h2).trans ?_
    rcases stackClone_cases k p n with ⟨x, -, heq⟩ | ⟨-, heq⟩
    · cases heq.symm.trans hcl
      rfl
    · cases heq.symm.trans hcl
      rfl

/-- A child is read like its parent. -/
theorem duplicateFrom_format {copy : Process} (h : duplicateFrom o copy k p = .ok r) :
    r.2.format = (p.pid, copy.swapEndian, copy.is64bit, p.tracing, .running) := by
  obtain ⟨r1, h1, h2⟩ := bind_eq_ok.mp h
  have hr1 := duplicateBlocks_format h1
  obtain ⟨fn, ml, hmaps⟩ := foldl_processAddMap copy.mapList r1.2
  dsimp only at h2
  rw [hmaps] at h2
  split at h2
  · cases h2
  split at h2
  · cases h2
  · cases h2
    exact hr1

end Format

/-! ## Widths -/

/-- The widths the server has told, by pid. -/
abbrev Widths := UInt32 → Option Bool

/-- A record that the client keeps of a process of which it was told the width `w`; under `trace`
it traces the process. -/
structure Spoken (sw trace : Bool) (pid : UInt32) (w : Option Bool) (p : Process) : Prop where
  pid : p.pid = pid
  swapEndian : p.swapEndian = sw
  status : p.status ≠ .ignore
  tracing : trace = true → p.tracing = true
  width : ∀ b, w = some b → p.is64bit = b

section Spoken

variable {sw trace : Bool} {pid : UInt32} {w : Option Bool} {p q : Process}

theorem Spoken.of_format (h : Spoken sw trace pid w p) (hq : q.format = p.format) :
    Spoken sw trace pid w q where
  pid := (congrArg (·.1) hq).trans h.pid
  swapEndian := (congrArg (·.2.1) hq).trans h.swapEndian
  status := fun heq => h.status ((congrArg (·.2.2.2.2) hq).symm.trans heq)
  tracing ht := (congrArg (·.2.2.2.1) hq).trans (h.tracing ht)
  width b hb := (congrArg (·.2.2.1) hq).trans (h.width b hb)

theorem Spoken.setStatus (h : Spoken sw trace pid w p) {status : ProcessStatus}
    (hs : status ≠ .ignore) : Spoken sw trace pid w { p with status } :=
  ⟨h.pid, h.swapEndian, hs, h.tracing, h.width⟩

theorem spoken_of_format {b t : Bool} (hq : q.format = (pid, sw, b, t, .running))
    (ht : trace = true → t = true) (hw : ∀ b', w = some b' → b = b') : Spoken sw trace pid w q where
  pid := congrArg (·.1) hq
  swapEndian := congrArg (·.2.1) hq
  status := by
    rw [show q.status = .running from congrArg (·.2.2.2.2) hq]
    decide
  tracing htrace := (congrArg (·.2.2.2.1) hq).trans (ht htrace)
  width b' hb := (congrArg (·.2.2.1) hq).trans (hw b' hb)

end Spoken

/-- The width of a process behind a message about it. -/
def MtMsg.width (w : Widths) (pid : UInt32) : MtMsg → Option Bool
  | .attach is64bit _ => some is64bit
  | .fork parent => w parent
  | _ => w pid

/-- The messages on which the record of a process is removed. -/
def MtMsg.removes (o : Options) : MtMsg → Bool
  | .nofollow => true
  | .exit | .scan _ => !o.interactive
  | .detach => !o.autoScan && !o.interactive
  | _ => false

/-- The widths behind a message. -/
def Widths.tell (o : Options) (w : Widths) (pid : UInt32) (m : MtMsg) : Widths :=
  Function.update w pid (if m.removes o then none else m.width w pid)

/-- The client keeps a record of every process whose width it was told, and reads its messages with
it. -/
structure Told (w : Widths) (sw trace : Bool) (c : State) : Prop where
  accounted : Accounted c
  doTrace : trace = true → c.doTrace = true
  record : ∀ a p, c.findProcess a = some p → Spoken sw trace a (w a) p
  known : ∀ a, c.findProcess a = none → w a = none

section Told

variable {o : Options} {env : Env} {w : Widths} {sw trace : Bool} {c c' : State} {p : Process}
  {pid : UInt32} {m : MtMsg} {r : Stacks × Process × Bool}

theorem told_init {doTrace : Bool} (h : trace = true → doTrace = true) :
    Told (fun _ => none) sw trace (State.init doTrace) where
  accounted := accounted_init doTrace
  doTrace := h
  record a p hp := by cases hp
  known _ _ := rfl

theorem Told.info (h : Told w sw trace c) {doTrace : Bool} (ht : trace = true → doTrace = true) :
    Told w sw trace { c with doTrace } where
  accounted := ⟨h.accounted.sorted, h.accounted.owned, h.accounted.counted, h.accounted.shared,
    h.accounted.unborn, h.accounted.dumps⟩
  doTrace := ht
  record := h.record
  known := h.known

/-- The record of a new process. -/
theorem Told.enter (h : Told w sw trace c) (pid : UInt32) : Told w sw trace (c.enter pid sw).1 ∧
    (c.enter pid sw).1.findProcess pid = some (c.enter pid sw).2 := by
  obtain ⟨hac, htr, hent, hfind⟩ := enter_spec h.accounted pid sw
  refine ⟨⟨hac, fun ht => htr.trans (h.doTrace ht), fun a p hp => ?_, fun a ha => ?_⟩,
    (hfind pid).trans (if_pos rfl)⟩
  · rw [hfind] at hp
    split at hp
    next heq =>
      subst heq
      cases hp
      rw [hent]
      rcases hf : c.findProcess pid with _ | p
      · refine spoken_of_format rfl h.doTrace fun b hb => ?_
        rw [h.known pid hf] at hb
        cases hb
      · exact h.record pid p hf
    next => exact h.record a p hp
  · rw [hfind] at ha
    split at ha
    · cases ha
    · exact h.known a ha

/-- A record that is printed and removed. -/
theorem Spoken.dumped {k : Stacks} {refs others : ℕ → ℕ} {v : Option Bool}
    (h : Spoken sw trace pid v p) (ho : Owned k p refs others)
    (hr : (processDumpSortby k p >>= fun r => .ok (r.1, r.2, true)) = .ok r) :
    r.2.2 = true ∧ Spoken sw trace pid v r.2.1 := by
  obtain ⟨k', p', hd, hre, -⟩ := ho.processDumpSortby_ok
  rw [hd] at hr
  cases hr
  exact ⟨rfl, h.of_format hre.format_eq⟩

/-- The record of a child takes the format of its parent. -/
theorem Told.fork (h : Told w sw trace c) (hp : c.findProcess pid = some p) {parent : UInt32}
    (hr : handleRecord o env c.findProcess c.heap p (.fork parent) = .ok r) :
    r.2.2 = false ∧ Spoken sw trace pid (w parent) r.2.1 := by
  have hspoken := h.record pid p hp
  obtain ⟨hmem, hpid⟩ := findProcess_eq_some hp
  have ho := h.accounted.owned p hmem
  obtain ⟨r', hr', hr⟩ := bind_eq_ok.mp hr
  cases hr
  rcases hq : c.findProcess parent with _ | q
  · rw [hq] at hr'
    rcases h.accounted.processReset_ends hmem with ⟨-, herr⟩ | ⟨-, k', hok, -⟩
    · rw [processDuplicate, herr] at hr'
      cases hr'
    · rw [processDuplicate, hok] at hr'
      cases hr'
  rw [hq] at hr'
  obtain ⟨k1, -, hfrom⟩ := ho.processDuplicate_cases (h.accounted.counted p hmem) hr'
  have hformat := duplicateFrom_format hfrom
  have hparent := h.record parent q hq
  by_cases hself : q.pid = p.pid
  · -- the record itself, which has been reset
    have heq : pid = parent := (hself.trans hpid).symm.trans hparent.pid
    subst heq
    rw [if_pos hself] at hformat
    refine ⟨rfl, spoken_of_format (hformat.trans ?_) hspoken.tracing hspoken.width⟩
    rw [show p.cleared.pid = pid from hpid,
      show p.cleared.swapEndian = sw from hspoken.swapEndian]
    rfl
  · rw [if_neg hself] at hformat
    refine ⟨rfl, spoken_of_format (hformat.trans ?_) hspoken.tracing hparent.width⟩
    rw [show p.cleared.pid = pid from hpid, hparent.swapEndian]
    rfl

/-- The width of a process that is attached is the one its server tells. -/
theorem Told.attach (h : Told w sw trace c) (hp : c.findProcess pid = some p)
    {is64bit attached : Bool}
    (hr : handleRecord o env c.findProcess c.heap p (.attach is64bit attached) = .ok r) :
    r.2.2 = false ∧ Spoken sw trace pid (some is64bit) r.2.1 := by
  have hspoken := h.record pid p hp
  obtain ⟨hmem, hpid⟩ := findProcess_eq_some hp
  obtain ⟨r', hr', hr⟩ := bind_eq_ok.mp hr
  cases hr
  obtain ⟨r1, hr1, hr'⟩ := bind_eq_ok.mp hr'
  cases hr'
  rcases h.accounted.processReset_ends hmem with ⟨-, herr⟩ | ⟨-, k', hok, -⟩
  · cases herr.symm.trans hr1
  · cases hok.symm.trans hr1
    refine ⟨rfl, spoken_of_format ?_ hspoken.tracing fun b hb => Option.some.inj hb⟩
    rw [← hpid, ← hspoken.swapEndian]
    rfl

theorem Told.exit (h : Told w sw trace c) (hp : c.findProcess pid = some p)
    (hr : handleRecord o env c.findProcess c.heap p .exit = .ok r) :
    r.2.2 = (MtMsg.exit).removes o ∧ Spoken sw trace pid (w pid) r.2.1 := by
  have ho := h.accounted.owned p (findProcess_eq_some hp).1
  have hs : Spoken sw trace pid (w pid) { p with status := .exit } :=
    (h.record pid p hp).setStatus (by decide)
  rw [Client.handleRecord] at hr
  split at hr
  next hint =>
    cases hr
    exact ⟨by rw [MtMsg.removes, hint]; rfl, hs⟩
  next hint =>
    obtain ⟨hrem, hs⟩ := hs.dumped (ho.of_eq rfl rfl rfl rfl rfl) hr
    exact ⟨by rw [hrem, MtMsg.removes]; simp [hint], hs⟩

theorem Told.detach (h : Told w sw trace c) (hp : c.findProcess pid = some p)
    (hr : handleRecord o env c.findProcess c.heap p .detach = .ok r) :
    r.2.2 = (MtMsg.detach).removes o ∧ Spoken sw trace pid (w pid) r.2.1 := by
  have ho := h.accounted.owned p (findProcess_eq_some hp).1
  have hs : Spoken sw trace pid (w pid) { p with status := .detach } :=
    (h.record pid p hp).setStatus (by decide)
  rw [Client.handleRecord] at hr
  split at hr
  next hauto =>
    cases hr
    exact ⟨by rw [MtMsg.removes, hauto]; rfl, hs.of_format (processLeaksScan_format _ _)⟩
  next hauto =>
    split at hr
    next hint =>
      cases hr
      exact ⟨by rw [MtMsg.removes, hint]; simp, hs⟩
    next hint =>
      obtain ⟨hrem, hs⟩ := hs.dumped (ho.of_eq rfl rfl rfl rfl rfl) hr
      exact ⟨by rw [hrem, MtMsg.removes]; simp [hauto, hint], hs⟩

/-- A report of leaks marks blocks of the record. -/
theorem Told.scan (h : Told w sw trace c) (hp : c.findProcess pid = some p) {leaks : List UInt64}
    (hr : handleRecord o env c.findProcess c.heap p (.scan leaks) = .ok r) :
    r.2.2 = (MtMsg.scan leaks).removes o ∧ Spoken sw trace pid (w pid) r.2.1 := by
  have ho := h.accounted.owned p (findProcess_eq_some hp).1
  obtain ⟨p1, hp1, hr⟩ := bind_eq_ok.mp hr
  have hch : Chain (fun _ => True) (c.heap, p) (c.heap, p1) :=
    scanBlocks_chain (fun _ _ => trivial) hp1
  have hs := (h.record pid p hp).of_format hch.format_eq
  split at hr
  next hint =>
    cases hr
    exact ⟨by rw [MtMsg.removes, hint]; rfl, hs⟩
  next hint =>
    obtain ⟨hrem, hs⟩ := hs.dumped (ho.chain hch) hr
    exact ⟨by rw [hrem, MtMsg.removes]; simp [hint], hs⟩

/-- What a handler makes of a record that is spoken of. -/
theorem Told.handleRecord (h : Told w sw trace c) (hp : c.findProcess pid = some p)
    (hr : handleRecord o env c.findProcess c.heap p m = .ok r) :
    r.2.2 = m.removes o ∧ Spoken sw trace pid (m.width w pid) r.2.1 := by
  have hspoken := h.record pid p hp
  cases m with
  | alloc op hop m =>
    obtain ⟨r', hr', hr⟩ := bind_eq_ok.mp hr
    cases hr
    exact ⟨rfl, hspoken.of_format (processAlloc_chain (C := fun _ => True) trivial
      (fun _ _ _ _ => trivial) (fun _ _ => trivial) hr').format_eq⟩
  | free op hop m =>
    obtain ⟨r', hr', hr⟩ := bind_eq_ok.mp hr
    cases hr
    exact ⟨rfl, hspoken.of_format (processFree_chain (C := fun _ => True) trivial
      (fun _ _ _ _ => trivial) hr').format_eq⟩
  | reallocDone m =>
    obtain ⟨r', hr', hr⟩ := bind_eq_ok.mp hr
    cases hr
    exact ⟨rfl, hspoken.of_format (processReallocDone_chain (C := fun _ => True) trivial
      (fun _ _ _ _ _ _ _ _ _ => trivial) hr').format_eq⟩
  | munmap m =>
    obtain ⟨r', hr', hr⟩ := bind_eq_ok.mp hr
    cases hr
    refine ⟨rfl, hspoken.of_format (processMunmap_chain (C := fun _ => True)
      (fun _ _ _ _ _ _ _ _ _ => ?_) hr').format_eq⟩
    split <;> trivial
  | fork parent => exact h.fork hp hr
  | attach is64bit attached => exact h.attach hp hr
  | aboutExit =>
    cases hr
    have hs : Spoken sw trace pid (w pid) { p with status := .exiting } :=
      hspoken.setStatus (by decide)
    refine ⟨rfl, ?_⟩
    show Spoken sw trace pid (w pid) (if _ then _ else _)
    split
    · exact hs.of_format (processLeaksScan_format _ _)
    · exact hs
  | exit => exact h.exit hp hr
  | nofollow =>
    cases hr
    exact ⟨rfl, hspoken⟩
  | scan leaks => exact h.scan hp hr
  | addMap m =>
    cases hr
    exact ⟨rfl, hspoken.of_format rfl⟩
  | delMap m =>
    obtain ⟨p1, hp1, hr⟩ := bind_eq_ok.mp hr
    cases hr
    unfold processDelMap at hp1
    dsimp only at hp1
    split at hp1
    · cases hp1
      exact ⟨rfl, hspoken.of_format rfl⟩
    · cases hp1
  | detach => exact h.detach hp hr

/-- A message about a process whose record the client enters. -/
theorem Told.dispatch (h : Told w sw trace c) (hp : c.findProcess pid = some p)
    (hc : c.dispatch o env p m = .ok c') (hac : Accounted c') :
    Told (w.tell o pid m) sw trace c' ∧
      ∃ r, Client.handleRecord o env c.findProcess c.heap p m = .ok r ∧
        (m.removes o = false → c'.heap = r.1 ∧ c'.findProcess pid = some r.2.1) ∧
        ∀ a, pid ≠ a → c'.findProcess a = c.findProcess a := by
  rw [dispatch_eq h.accounted.sorted (findProcess_eq_some hp).1] at hc
  obtain ⟨r, hr, hc⟩ := bind_eq_ok.mp hc
  obtain ⟨hrem, hs⟩ := h.handleRecord hp hr
  obtain ⟨htr, hfind⟩ := settle_spec h.accounted.sorted hp hs.pid hc
  refine ⟨⟨hac, fun ht => htr.trans (h.doTrace ht), fun a q hq => ?_, fun a ha => ?_⟩,
    r, hr, fun hkeep => ⟨?_, ?_⟩, fun a ha => ?_⟩
  · rw [hfind] at hq
    unfold Widths.tell
    by_cases hpa : pid = a
    · subst hpa
      rw [if_pos rfl, hrem] at hq
      rw [Function.update_self]
      split at hq
      · cases hq
      next hkeep =>
        cases hq
        rw [if_neg hkeep]
        exact hs
    · rw [if_neg hpa] at hq
      rw [Function.update_of_ne (Ne.symm hpa)]
      exact h.record a q hq
  · rw [hfind] at ha
    unfold Widths.tell
    by_cases hpa : pid = a
    · subst hpa
      rw [if_pos rfl, hrem] at ha
      rw [Function.update_self]
      split at ha
      next hgone => rw [if_pos hgone]
      · cases ha
    · rw [if_neg hpa] at ha
      rw [Function.update_of_ne (Ne.symm hpa)]
      exact h.known a ha
  · rw [State.settle, hrem, hkeep] at hc
    cases hc
    rfl
  · rw [hfind, if_pos rfl, hrem, hkeep]
    rfl
  · rw [hfind, if_neg ha]

/-- A message about a process: the handler gets the record of the process, and all others stay as
they are. -/
theorem Told.clientFunc (h : Told w sw trace c) {pid : UInt16}
    (hc : c.clientFunc o env pid sw m = .ok c') :
    Told (w.tell o pid.toUInt32 m) sw trace c' ∧
      ∃ r, Client.handleRecord o env (c.enter pid.toUInt32 sw).1.findProcess
          (c.enter pid.toUInt32 sw).1.heap (c.enter pid.toUInt32 sw).2 m = .ok r ∧
        (m.removes o = false → c'.heap = r.1 ∧ c'.findProcess pid.toUInt32 = some r.2.1) ∧
        ∀ a, pid.toUInt32 ≠ a → c'.findProcess a = c.findProcess a := by
  have hac := ((clientFunc_ends h.accounted pid sw m).ok hc).2.1
  obtain ⟨ht, hp⟩ := h.enter pid.toUInt32
  have hspoken := ht.record _ _ hp
  unfold State.clientFunc at hc
  by_cases hz : pid = 0
  · rw [if_pos hz] at hc
    cases hc
  rw [if_neg hz] at hc
  dsimp only at hc
  rw [if_neg (not_or.mpr ⟨not_not.mpr hspoken.swapEndian, hspoken.status⟩)] at hc
  obtain ⟨htold, r, hr, hkeep, hother⟩ := ht.dispatch hp hc hac
  obtain ⟨-, -, -, hfind⟩ := enter_spec h.accounted pid.toUInt32 sw
  exact ⟨htold, r, hr, hkeep, fun a ha => (hother a ha).trans ((hfind a).trans (if_neg ha))⟩

end Told

end Mtrace.Client
