import Mtrace.Client.Client
import Mtrace.Client.Scan

/-!
# Waiting for a scan

A session of the client with its connection: the requests for a scan that it has sent and the server
has not answered, and `client_wait_op(MT_SCAN)`, which handles nothing but messages until an answer
arrives.  It is entered by `leaks_scan`, for the command of the user, and by `scan_process`, for
every process when the client is terminated; the order in which `rb_iterate` visits a table that
changes under it is left open.
-/

namespace Mtrace.Client

/-- What becomes of a request that `process_leaks_scan` wants to send. -/
inductive Outcome where
  | sent
  /-- `malloc` of the payload fails. -/
  | outOfMemory
  /-- `sock_send_msg` fails, and the connection is given up. -/
  | broken
  deriving DecidableEq, Repr

structure Session where
  client : State
  /-- `client_connected`. -/
  connected : Bool
  /-- The processes of the `MT_SCAN` requests that are sent and not yet answered. -/
  requests : List UInt32
  /-- The process for whose scan `client_wait_op` waits. -/
  waits : Option UInt32

/-- What happens to a session: an event of the client, a termination that has come to a process, or
the end of the connection. -/
inductive Input where
  | event (e : Event) (out : Outcome)
  | scanProcess (pid : UInt32) (out : Outcome)
  | disconnect
  | waitReturns

/-- The process that a message makes the client scan: `process_about_exit` and `process_detach`
under the option `auto_scan`. -/
def State.autoScans (o : Options) (c : State) (pid : UInt32) (swapEndian : Bool) :
    MtMsg → Option Process
  | .aboutExit | .detach =>
    let p := (c.enter pid swapEndian).2
    if o.autoScan = false ∨ p.swapEndian ≠ swapEndian ∨ p.status = .ignore then none else some p
  | _ => none

namespace Session

def init (doTrace : Bool) : Session := ⟨.init doTrace, true, [], none⟩

/-- `client_send_msg` of a request. -/
def send (s : Session) (pid : UInt32) : Outcome → Session
  | .sent => if s.connected then { s with requests := pid :: s.requests } else s
  | .outOfMemory => s
  | .broken => { s with connected := false }

/-- The request of `process_leaks_scan`, if there is one. -/
def request (env : Env) (s : Session) (p : Process) (mode : ScanMode) (out : Outcome) : Session :=
  if (leaksScanPayload env p mode).isSome then s.send p.pid out else s

/-- `process_leaks_scan` for a process of the table. -/
def processLeaksScan (env : Env) (s : Session) (p : Process) (mode : ScanMode) (out : Outcome) :
    Session :=
  let c := s.client
  let c := if out = .outOfMemory then c else c.store c.heap (Client.processLeaksScan p mode)
  { s with client := c }.request env p mode out

/-- `leaks_scan`, up to the entry of `client_wait_op`. -/
def leaksScan (env : Env) (s : Session) (p : Process) (mode : ScanMode) (out : Outcome) :
    Session :=
  { s.processLeaksScan env p mode out with waits := some p.pid }

/-- `scan_process`, up to the entry of `client_wait_op`. -/
def scanProcess (o : Options) (env : Env) (s : Session) (p : Process) (out : Outcome) :
    Except Fault Session :=
  if o.autoScan then .ok { s.processLeaksScan env p .all out with waits := some p.pid }
  else do
    let (k, p) ← processDumpSortby s.client.heap p
    return { s with client := s.client.store k p }

/-- `do_scan`, up to the entry of `client_wait_op`. -/
def doScan (env : Env) (s : Session) (p : Process) (mode : ScanMode) (out : Outcome) : Session :=
  if !p.tracing then s else s.leaksScan env p mode out

/-- A message that arrives; every answer to a scan ends a wait.  When `malloc` of the request fails,
`process_about_exit` and `process_detach` only set the status, as they do in an interactive session
without `auto_scan`. -/
def receive (o : Options) (env : Env) (s : Session) (pid : UInt16) (swapEndian : Bool) (m : MtMsg)
    (out : Outcome) : Except Fault Session :=
  match s.client.autoScans o pid.toUInt32 swapEndian m with
  | some p => do
    let o' := if out = .outOfMemory then { o with autoScan := false, interactive := true } else o
    let c ← s.client.clientFunc o' env pid swapEndian m
    return { s with client := c }.request env p .all out
  | none => do
    let c ← s.client.clientFunc o env pid swapEndian m
    match m with
    | .scan _ =>
      return { s with client := c, requests := s.requests.erase pid.toUInt32, waits := none }
    | _ => return { s with client := c }

def step (o : Options) (env : Env) (s : Session) : Input → Except Fault Session
  | .event (.msg pid swapEndian m) out =>
    if s.connected then s.receive o env pid swapEndian m out else .ok s
  | .event (.info doTrace) _ =>
    if s.connected then .ok { s with client := { s.client with doTrace } } else .ok s
  | .event (.scan pid mode) out =>
    if s.waits.isSome || !s.connected then .ok s
    else match s.client.findProcess pid with
      | some p => .ok (s.doScan env p mode out)
      | none => .ok s
  | .event e _ =>
    if s.waits.isSome then .ok s
    else do
      let c ← s.client.step o env e
      return { s with client := c }
  | .scanProcess pid out =>
    if s.waits.isSome || o.interactive then .ok s
    else match s.client.findProcess pid with
      | some p => s.scanProcess o env p out
      | none => .ok s
  | .disconnect => .ok { s with connected := false }
  | .waitReturns => .ok (if s.connected then s else { s with waits := none })

/-! ## The property -/

/-- Whoever waits for a scan has a request on the way. -/
def WaitsForRequest (s : Session) : Prop := ∀ pid, s.waits = some pid → pid ∈ s.requests

/-- The process for whose scan an input makes the client wait, and the outcome of the request. -/
def enters (o : Options) (s : Session) : Input → Option (Process × Outcome)
  | .event (.scan pid _) out =>
    if s.waits.isSome || !s.connected then none
    else (s.client.findProcess pid).bind fun p => if !p.tracing then none else some (p, out)
  | .scanProcess pid out =>
    if s.waits.isSome || o.interactive || !o.autoScan then none
    else (s.client.findProcess pid).map fun p => (p, out)
  | _ => none

/-- The scan of a process gets its request on the way: it has allocations and the request is sent,
or an earlier request is still without an answer. -/
def Asks (s : Session) (p : Process) (out : Outcome) : Prop :=
  (p.nAllocations ≠ 0 ∧ s.connected = true ∧ out = .sent) ∨ p.pid ∈ s.requests

theorem mem_requests_send_iff (s : Session) (pid : UInt32) (out : Outcome) :
    pid ∈ (s.send pid out).requests ↔
      (s.connected = true ∧ out = .sent) ∨ pid ∈ s.requests := by
  cases out with
  | sent =>
    unfold send
    by_cases h : s.connected = true
    · rw [if_pos h]
      simp [h]
    · rw [if_neg h]
      simp [h]
  | outOfMemory => simp [send]
  | broken => simp [send]

theorem mem_requests_request_iff (env : Env) (s : Session) (p : Process) (mode : ScanMode)
    (out : Outcome) : p.pid ∈ (s.request env p mode out).requests ↔ s.Asks p out := by
  unfold request Asks
  by_cases h : p.nAllocations = 0
  · rw [(leaksScanPayload_eq_none_iff env p mode).mpr h, if_neg (by simp)]
    simp [h]
  · have hsome : (leaksScanPayload env p mode).isSome = true := by
      rw [Option.isSome_iff_ne_none]
      exact fun hn => h ((leaksScanPayload_eq_none_iff env p mode).mp hn)
    rw [if_pos hsome, mem_requests_send_iff]
    simp [h]

/-- A request is written down, closes the connection or leaves no trace. -/
theorem request_cases (env : Env) (s : Session) (p : Process) (mode : ScanMode) (out : Outcome) :
    s.request env p mode out = s ∨
      s.request env p mode out = { s with requests := p.pid :: s.requests } ∨
      s.request env p mode out = { s with connected := false } := by
  unfold request
  by_cases hsome : (leaksScanPayload env p mode).isSome = true
  · rw [if_pos hsome]
    cases out with
    | sent =>
      unfold send
      by_cases h : s.connected = true
      · rw [if_pos h]
        exact .inr (.inl rfl)
      · rw [if_neg h]
        exact .inl rfl
    | outOfMemory => exact .inl rfl
    | broken => exact .inr (.inr rfl)
  · rw [if_neg hsome]
    exact .inl rfl

/-- The wait goes on and no request is answered. -/
def Keeps (s s' : Session) : Prop := s'.waits = s.waits ∧ ∀ pid ∈ s.requests, pid ∈ s'.requests

theorem Keeps.refl (s : Session) : s.Keeps s := ⟨rfl, fun _ h => h⟩

theorem keeps_request (env : Env) (s : Session) (p : Process) (mode : ScanMode) (out : Outcome) :
    s.Keeps (s.request env p mode out) := by
  rcases request_cases env s p mode out with h | h | h
  · rw [h]
    exact .refl s
  · rw [h]
    exact ⟨rfl, fun _ => List.mem_cons_of_mem _⟩
  · rw [h]
    exact ⟨rfl, fun _ hpid => hpid⟩

theorem receive_waits {o : Options} {env : Env} {s s' : Session} {pid : UInt16}
    {swapEndian : Bool} {m : MtMsg} {out : Outcome}
    (h : s.receive o env pid swapEndian m out = .ok s') : s'.waits = none ∨ s.Keeps s' := by
  unfold receive at h
  rcases hauto : s.client.autoScans o pid.toUInt32 swapEndian m with _ | p
  · rw [hauto] at h
    obtain ⟨c, -, h⟩ := Machine.bind_eq_ok.mp h
    cases m with
    | scan leaks =>
      cases h
      exact .inl rfl
    | _ =>
      cases h
      exact .inr ⟨rfl, fun _ hpid => hpid⟩
  · rw [hauto] at h
    obtain ⟨c, -, h⟩ := Machine.bind_eq_ok.mp h
    cases h
    exact .inr (keeps_request env { s with client := c } p .all out)

/-- The wait of `leaks_scan` and `scan_process` begins with the request they have made. -/
theorem mem_requests_leaksScan_iff (env : Env) (s : Session) (p : Process) (mode : ScanMode)
    (out : Outcome) : p.pid ∈ (s.leaksScan env p mode out).requests ↔ s.Asks p out :=
  mem_requests_request_iff env { s with client := _ } p mode out

/-- Commands other than `do_scan` wait for nothing. -/
theorem command_keeps {o : Options} {env : Env} {s s' : Session} {e : Event}
    (h : (if s.waits.isSome then .ok s
      else do
        let c ← s.client.step o env e
        return { s with client := c } : Except Fault Session) = .ok s') : s.Keeps s' := by
  by_cases hw : s.waits.isSome = true
  · rw [if_pos hw] at h
    cases h
    exact .refl s
  · rw [if_neg hw] at h
    obtain ⟨c, -, h⟩ := Machine.bind_eq_ok.mp h
    cases h
    exact ⟨rfl, fun _ hpid => hpid⟩

theorem step_scan {o : Options} {env : Env} {s s' : Session} {pid : UInt32} {mode : ScanMode}
    {out : Outcome} (h : s.step o env (.event (.scan pid mode) out) = .ok s') :
    (∃ p, s.enters o (.event (.scan pid mode) out) = some (p, out) ∧
        s' = s.leaksScan env p mode out) ∨
      (s.enters o (.event (.scan pid mode) out) = none ∧ s' = s) := by
  unfold step at h
  unfold enters
  dsimp only at h ⊢
  by_cases hw : (s.waits.isSome || !s.connected) = true
  · rw [if_pos hw] at h ⊢
    cases h
    exact .inr ⟨rfl, rfl⟩
  · rw [if_neg hw] at h ⊢
    rcases hp : s.client.findProcess pid with _ | p
    · rw [hp] at h
      cases h
      exact .inr ⟨rfl, rfl⟩
    · rw [hp] at h
      cases h
      unfold doScan
      rw [Option.bind_some]
      by_cases ht : (!p.tracing) = true
      · rw [if_pos ht, if_pos ht]
        exact .inr ⟨rfl, rfl⟩
      · rw [if_neg ht, if_neg ht]
        exact .inl ⟨p, rfl, rfl⟩

theorem step_scanProcess {o : Options} {env : Env} {s s' : Session} {pid : UInt32}
    {out : Outcome} (h : s.step o env (.scanProcess pid out) = .ok s') :
    (∃ p, s.enters o (.scanProcess pid out) = some (p, out) ∧
        s' = s.leaksScan env p .all out) ∨
      (s.enters o (.scanProcess pid out) = none ∧ s.Keeps s') := by
  unfold step at h
  unfold enters
  dsimp only at h ⊢
  by_cases hw : (s.waits.isSome || o.interactive) = true
  · rw [if_pos hw] at h
    rw [hw, Bool.true_or, if_pos rfl]
    cases h
    exact .inr ⟨rfl, .refl s⟩
  · rw [if_neg hw] at h
    rw [Bool.not_eq_true] at hw
    rw [hw, Bool.false_or]
    rcases hp : s.client.findProcess pid with _ | p
    · rw [hp] at h
      cases h
      refine .inr ⟨?_, .refl s⟩
      split <;> rfl
    · rw [hp] at h
      dsimp only at h
      unfold scanProcess at h
      by_cases ha : o.autoScan = true
      · rw [if_pos ha] at h
        cases h
        rw [ha]
        exact .inl ⟨p, rfl, rfl⟩
      · rw [if_neg ha] at h
        rw [Bool.not_eq_true] at ha
        obtain ⟨kp, -, h⟩ := Machine.bind_eq_ok.mp h
        cases h
        rw [ha]
        exact .inr ⟨rfl, rfl, fun _ hpid => hpid⟩

/-- A wait begins where `enters` says so, and an input that begins none ends one or keeps it. -/
theorem step_waits {o : Options} {env : Env} {s s' : Session} {i : Input}
    (h : s.step o env i = .ok s') :
    (∃ p out, s.enters o i = some (p, out) ∧ s'.waits = some p.pid ∧
        (p.pid ∈ s'.requests ↔ s.Asks p out)) ∨
      (s.enters o i = none ∧ (s'.waits = none ∨ s.Keeps s')) := by
  cases i with
  | event e out =>
    cases e with
    | msg pid swapEndian m =>
      refine .inr ⟨rfl, ?_⟩
      unfold step at h
      dsimp only at h
      by_cases hc : s.connected = true
      · rw [if_pos hc] at h
        exact receive_waits h
      · rw [if_neg hc] at h
        cases h
        exact .inr (.refl s)
    | info doTrace =>
      refine .inr ⟨rfl, .inr ?_⟩
      unfold step at h
      dsimp only at h
      by_cases hc : s.connected = true
      · rw [if_pos hc] at h
        cases h
        exact ⟨rfl, fun _ hpid => hpid⟩
      · rw [if_neg hc] at h
        cases h
        exact .refl s
    | scan pid mode =>
      rcases step_scan h with ⟨p, he, rfl⟩ | ⟨he, rfl⟩
      · exact .inl ⟨p, out, he, rfl, mem_requests_leaksScan_iff env s p mode out⟩
      · exact .inr ⟨he, .inr (.refl _)⟩
    | reset pid => exact .inr ⟨rfl, .inr (command_keeps h)⟩
    | start pid => exact .inr ⟨rfl, .inr (command_keeps h)⟩
    | stop pid => exact .inr ⟨rfl, .inr (command_keeps h)⟩
    | dump pid => exact .inr ⟨rfl, .inr (command_keeps h)⟩
    | dumpEnd => exact .inr ⟨rfl, .inr (command_keeps h)⟩
  | scanProcess pid out =>
    rcases step_scanProcess h with ⟨p, he, rfl⟩ | ⟨he, hk⟩
    · exact .inl ⟨p, out, he, rfl, mem_requests_leaksScan_iff env s p .all out⟩
    · exact .inr ⟨he, .inr hk⟩
  | disconnect =>
    cases h
    exact .inr ⟨rfl, .inr ⟨rfl, fun _ hpid => hpid⟩⟩
  | waitReturns =>
    cases h
    refine .inr ⟨rfl, ?_⟩
    split
    · exact .inr (.refl s)
    · exact .inl rfl

end Session

/-- The sessions reached when every input meets `ok` where it arrives. -/
abbrev SessionReach (o : Options) (env : Env) (ok : Session → Input → Prop) (doTrace : Bool) :
    Session → Prop :=
  Machine.Reach (Session.step o env) ok (Session.init doTrace)

/-- An input that makes the client wait gets its request on the way. -/
def Session.AsksBefore (o : Options) (s : Session) (i : Input) : Prop :=
  ∀ p out, s.enters o i = some (p, out) → s.Asks p out

theorem waitsForRequest_step {o : Options} {env : Env} {s s' : Session} {i : Input}
    (hs : s.WaitsForRequest) (hi : s.AsksBefore o i) (h : s.step o env i = .ok s') :
    s'.WaitsForRequest := by
  intro pid hpid
  rcases Session.step_waits h with ⟨p, out, he, hw, hiff⟩ | ⟨-, hw | ⟨hw, hsub⟩⟩
  · rw [hw] at hpid
    cases hpid
    exact hiff.mpr (hi p out he)
  · rw [hw] at hpid
    cases hpid
  · exact hsub pid (hs pid (hw ▸ hpid))

/-- While every scan that is waited for gets a request on the way, the client waits for nothing
else; and each entry of a wait meets this exactly when the process has allocations and the request
is sent, or an earlier request is without an answer. -/
theorem waits_for_request (o : Options) (env : Env) (doTrace : Bool) :
    (∀ s, SessionReach o env (fun s i => s.AsksBefore o i) doTrace s → s.WaitsForRequest) ∧
      ∀ s i s', SessionReach o env (fun _ _ => True) doTrace s → s.waits = none →
        s.step o env i = .ok s' → (s'.WaitsForRequest ↔ s.AsksBefore o i) := by
  constructor
  · intro s hs
    refine hs.invariant ?_ ?_
    · intro pid hpid
      cases hpid
    · intro s i s' h hok hstep
      exact waitsForRequest_step h hok hstep
  · intro s i s' _ hnone h
    constructor
    · intro hs' p out he
      rcases Session.step_waits h with ⟨p', out', he', hw, hiff⟩ | ⟨he', -⟩
      · rw [he] at he'
        cases he'
        exact hiff.mp (hs' _ hw)
      · rw [he] at he'
        cases he'
    · intro hi
      refine waitsForRequest_step ?_ hi h
      intro pid hpid
      rw [hnone] at hpid
      cases hpid

/-- Process 1 has started, and the user asks for a scan before it has allocated anything. -/
def earlyScan : List Input :=
  [.event (.msg 1 false (.attach true false)) .sent, .event (.scan 1 .all) .sent]

/-- The session after a run that does not fail. -/
def sessionAfter (is : List Input) : Session :=
  match Machine.run (Session.step plainOptions plainEnv) (.init true) is with
  | .ok s => s
  | .error _ => .init true

theorem reach_sessionAfter (is : List Input) :
    SessionReach plainOptions plainEnv (fun _ _ => True) true (sessionAfter is) := by
  unfold sessionAfter
  rcases h : Machine.run (Session.step plainOptions plainEnv) (.init true) is with f | s
  · exact .init
  · exact Machine.reach_run is _ s (fun _ _ _ => trivial) .init h

theorem waits_without_request : ¬ ∀ (o : Options) (env : Env) (doTrace : Bool) (s : Session),
    SessionReach o env (fun _ _ => True) doTrace s → s.WaitsForRequest := by
  intro h
  have hw := h plainOptions plainEnv true _ (reach_sessionAfter earlyScan) 1 (by decide)
  revert hw
  decide

/-- Process 1 has started and allocated a block. -/
def oneMalloc : List Input :=
  [.event (.msg 1 false (.attach true false)) .sent,
    .event (.msg 1 false (.addMap ⟨0x400000, 0, 0x1000, 0, "a.out"⟩)) .sent,
    .event (mallocEvent 0x602010 16) .sent]

theorem waits_for_request_oneMalloc :
    (sessionAfter (oneMalloc ++ [.event (.scan 1 .all) .sent])).waits = some 1 ∧
      (sessionAfter (oneMalloc ++ [.event (.scan 1 .all) .sent])).WaitsForRequest := by
  refine ⟨by decide, ?_⟩
  apply (waits_for_request plainOptions plainEnv true).1
  have hstart : SessionReach plainOptions plainEnv (fun s i => s.AsksBefore plainOptions i) true
      (sessionAfter oneMalloc) := by
    refine Machine.reach_run oneMalloc _ _ ?_ .init rfl
    -- none of the messages enters a wait
    intro i hi s p out he
    simp only [oneMalloc, List.mem_cons, List.not_mem_nil, or_false] at hi
    rcases hi with rfl | rfl | rfl <;> cases he
  have hscan : (sessionAfter oneMalloc).step plainOptions plainEnv (.event (.scan 1 .all) .sent) =
      .ok (sessionAfter (oneMalloc ++ [.event (.scan 1 .all) .sent])) := rfl
  refine .step hstart ?_ hscan
  intro p out he
  cases he
  exact .inl (by decide)

/-! ## A wait without a request -/

/-- The server answers only what was asked, and the connection holds. -/
def Session.Faithful (s : Session) : Input → Prop
  | .event (.msg pid _ (.scan _)) _ => pid.toUInt32 ∈ s.requests
  | .disconnect => False
  | _ => True

/-- The client waits for a process and no answer is to come. -/
structure Session.Stuck (pid : UInt32) (s : Session) : Prop where
  waits : s.waits = some pid
  requests : s.requests = []
  connected : s.connected = true

theorem stuck_receive {o : Options} {env : Env} {s s' : Session} {pid : UInt32}
    (ho : o.autoScan = false) (h : s.Stuck pid) {q : UInt16} {swapEndian : Bool} {m : MtMsg}
    {out : Outcome} (hm : s.Faithful (.event (.msg q swapEndian m) out))
    (hs : s.receive o env q swapEndian m out = .ok s') : s'.Stuck pid := by
  have hauto : s.client.autoScans o q.toUInt32 swapEndian m = none := by
    unfold State.autoScans
    cases m with
    | aboutExit => exact if_pos (.inl ho)
    | detach => exact if_pos (.inl ho)
    | _ => rfl
  unfold Session.receive at hs
  rw [hauto] at hs
  obtain ⟨c, -, hs⟩ := Machine.bind_eq_ok.mp hs
  cases m with
  | scan leaks =>
    unfold Session.Faithful at hm
    dsimp only at hm
    rw [h.requests] at hm
    cases hm
  | _ =>
    cases hs
    exact ⟨h.waits, h.requests, h.connected⟩

/-- Without automatic scans nothing ends such a wait. -/
theorem stuck_forever {o : Options} {env : Env} {s s' : Session} {pid : UInt32}
    (ho : o.autoScan = false) (h : s.Stuck pid)
    (hr : Machine.Reach (Session.step o env) Session.Faithful s s') : s'.Stuck pid := by
  refine hr.invariant h ?_
  intro t i t' ht hi hstep
  have hwaits : t.waits.isSome = true := by rw [ht.waits]; rfl
  have hkeep : (.ok t : Except Fault Session) = .ok t' → t'.Stuck pid := by
    intro heq
    cases heq
    exact ht
  unfold Session.step at hstep
  cases i with
  | event e out =>
    cases e with
    | msg q swapEndian m =>
      dsimp only at hstep
      rw [if_pos ht.connected] at hstep
      exact stuck_receive ho ht hi hstep
    | info doTrace =>
      dsimp only at hstep
      rw [if_pos ht.connected] at hstep
      cases hstep
      exact ⟨ht.waits, ht.requests, ht.connected⟩
    | scan q mode => exact hkeep (by rw [← hstep]; simp [hwaits])
    | reset q => exact hkeep (by rw [← hstep]; simp [hwaits])
    | start q => exact hkeep (by rw [← hstep]; simp [hwaits])
    | stop q => exact hkeep (by rw [← hstep]; simp [hwaits])
    | dump q => exact hkeep (by rw [← hstep]; simp [hwaits])
    | dumpEnd => exact hkeep (by rw [← hstep]; simp [hwaits])
  | scanProcess q out => exact hkeep (by rw [← hstep]; simp [hwaits])
  | disconnect => exact absurd hi id
  | waitReturns => exact hkeep (by rw [← hstep]; simp [ht.connected])

end Mtrace.Client
