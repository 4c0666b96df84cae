import Mtrace.Tracer.State

/-!
# Waiting for tasks

`wait_event`, `process_event` and `stop_threads` of `trace.c`, `task_new` of `task.c` and the event
queue of `event.c`.  No allocation fails.
-/

namespace Mtrace.Tracer

namespace State

/-- A new task of this leader in `pid_hash` and, if it leads itself, in `list_of_leaders`. -/
def inserted (s : State) (pid : UInt32) (leader : TaskId) : State :=
  { s with
    task := Function.update s.task s.next { pid, leader, isNew := true }
    next := s.next + 1
    live := s.live ++ [s.next]
    leaders := if leader = s.next then s.leaders ++ [s.next] else s.leaders }

/-- `task_new` for a task of this leader, which may be the new one itself. -/
def created (s : State) (pid : UInt32) (leader : TaskId) : State :=
  (s.inserted pid leader).setTask leader fun l =>
    { l with threads := if leader = s.next then 1 else l.threads + 1 }

/-- `threads_stopped++` for the group of a task. -/
def countStopped (s : State) (t : TaskId) : State :=
  s.setTask (s.task t).leader fun l => { l with threadsStopped := l.threadsStopped + 1 }

/-- The assignments of `trace_setup`. -/
def setUp (s : State) (t : TaskId) (signum : ℕ) : State :=
  ((s.countStopped t).setTask t fun k =>
    { k with attached := true, stopped := true, event := .new signum }).take t

/-- A task stops that was running. -/
def arrived (s : State) (t : TaskId) : State :=
  ((s.countStopped t).setTask t fun k => { k with stopped := true }).take t

def setEvent (s : State) (t : TaskId) (event : Event) : State :=
  s.setTask t fun k => { k with event }

/-- A trap is a hit of this breakpoint. -/
def hit (s : State) (t : TaskId) (b : BpId) : State :=
  (s.setBp b fun bp => { bp with refcnt := bp.refcnt + 1 }).setEvent t (.breakpoint b)

/-- The assignments of `continue_task`. -/
def continued (s : State) (t : TaskId) : State :=
  ((s.setTask (s.task t).leader
    fun l => { l with threadsStopped := l.threadsStopped - 1 }).setTask t
    fun k => { k with stopped := false, event := .none }).drop t

/-- `list_add_tail` of an event. -/
def queued (s : State) (t : TaskId) : State := { s with queue := s.queue.addTail t }.drop t

/-- `list_del` of the first event. -/
def dequeued (s : State) (t : TaskId) : State := { s with queue := s.queue.del t }.take t

/-- Notes that a task is continued that is queued. -/
def noteContinued (s : State) (t : TaskId) : State := s.markIf (s.queue.linked t) .continuedQueued

/-- The event of a task is a breakpoint that is not being handled. -/
def unhandled (s : State) (t : TaskId) : Bool :=
  (s.task t).event.isBreakpoint && s.handling.map Prod.fst ≠ some t

end State

/-! ## New tasks -/

/-- `task_new`, with the `process_leader` of the new task. -/
def taskNew (pid tgid : UInt32) : Act (Option TaskId) := do
  let s ← get
  if tgid = 0 then pure none
  else if tgid = pid then do
    -- `list_add_tail` to `list_of_leaders`
    touchLeaders s.leaders.getLast?.toList
    modify (·.created pid s.next)
    return some s.next
  else
    match s.pid2task tgid with
    | none => pure none
    | some leader =>
      if (s.task leader).leader = leader then do
        modify (·.created pid leader)
        return some s.next
      else throw .blocked

/-- `trace_setup`; whether the signal is the expected one. -/
def traceSetup (t : TaskId) (status : Status) (signum : ℕ) : Act Bool := do
  match status with
  | .stopped sig _ => do
    modify (·.setUp t (if sig ≠ signum then sig else 0))
    return sig = signum
  | _ => pure false

/-- The task of a new pid that an event announces. -/
def announce (newpid newTgid : UInt32) : Act Bool := do
  let s ← get
  match s.pid2task newpid with
  | some _ => pure true
  | none => do
    match ← taskNew newpid newTgid with
    | none => pure false
    | some child => do
      modify (·.setTask child fun k => { k with attached := true })
      return true

/-- `child_event`; a `newpid` of zero stands for a failed `PTRACE_GETEVENTMSG`. -/
def childEvent (t : TaskId) (newpid newTgid : UInt32) : Act Bool := do
  if newpid = 0 then pure false
  else if ← announce newpid newTgid then do
    modify (·.setEvent t (.child newpid))
    return true
  else pure false

/-! ## Events -/

/-- `_process_event` for a stopped task without an event; `none` stands for `-1`. -/
def classify (t : TaskId) (w : Wait) : Act (Option ℕ) := do
  let k ← getTask t
  check (k.event = .none) .processEvent "task->event.type == EVENT_NONE"
  match w.status with
  | .signaled => do
    modify (·.setEvent t .exitSignal)
    return some 0
  | .exited => do
    modify (·.setEvent t .exit)
    return some 0
  | .other => pure none
  | .stopped sig ev =>
    if k.isNew ∧ sig = sigstop ∧ ev = .none then do
      modify (·.setEvent t (.new 0))
      return some 0
    else
      match ev with
      | .child newpid => do
        if ← childEvent t newpid w.newTgid then pure (some 0) else pure none
      | .exec => do
        modify (·.setEvent t .exec)
        return some 0
      | .exit => do
        modify (·.setEvent t .aboutExit)
        return some 0
      | .none | .unknown => do
        let sig := if sig = sigstop ∧ w.own then 0 else sig
        modify (·.setEvent t (.signal sig))
        return some sig

/-- `_process_event`. -/
def _processEvent (t : TaskId) (w : Wait) : Act (Option ℕ) := do
  modify (·.setTask t fun k => { k with stopped := true })
  classify t w

/-- `continue_task`. -/
def continueTask (t : TaskId) : Act Unit := do
  let k ← getTask t
  check k.stopped .continueTask "task->stopped"
  modify (·.noteContinued t)
  modify (·.continued t)

/-- `breakpoint_find`. -/
def breakpointFind (t : TaskId) (addr : UInt64) : Act (Option BpId) := do
  let s ← get
  return (s.task (s.task t).leader).breakpoints.find? fun b => (s.bp b).addr = addr

/-- `process_event` once the event of the task is known. -/
def findHit (t : TaskId) (w : Wait) : Option ℕ → Act Bool
  | none => do
    continueTask t
    return false
  | some sig =>
    if sig ≠ sigtrap then pure true
    else if ¬ w.context then do
      modify (·.setEvent t .none)
      continueTask t
      return false
    else do
      match ← breakpointFind t w.trap with
      | none => pure true
      | some b => do
        let bp ← getBp b
        check bp.enabled .processEvent "bp->enabled"
        modify (·.hit t b)
        return true

/-- `process_event`; whether it returns the task. -/
def processEvent (t : TaskId) (w : Wait) : Act Bool := do
  let k ← getTask t
  check (!k.stopped) .processEvent "task->stopped == 0"
  -- the task gets into the hands of the server
  modify fun s => (s.countStopped t).take t
  let sig ← _processEvent t w
  findHit t w sig

/-- The event of a task that ends while it is stopped. -/
def overwrite (t : TaskId) (event : Event) : Act (Option TaskId) := do
  modify fun s => s.markIf (s.unhandled t) .overwritten
  modify (·.setEvent t event)
  return none

/-- `wait_event` for a known task. -/
def waitTask (t : TaskId) (w : Wait) : Act (Option TaskId) := do
  let k ← getTask t
  match k.stopped, w.status with
  | true, .signaled => overwrite t .exitSignal
  | true, .exited => overwrite t .exit
  | true, .stopped _ .exit => overwrite t .aboutExit
  | _, _ => do
    if ← processEvent t w then pure (some t) else pure none

/-- `wait_event`. -/
def waitEvent : Act (Option TaskId) := do
  match ← nextInput with
  | .wakeup => pure none
  | .wait w =>
    if w.pid = 0 then pure none
    else do
      let s ← get
      match s.pid2task w.pid with
      | some t => waitTask t w
      | none => do
        match ← taskNew w.pid w.tgid with
        | none => pure none
        | some t => do
          let _ ← traceSetup t w.status sigstop
          return none
  | _ => throw .blocked

/-! ## The queue -/

/-- `queue_event`. -/
def queueEvent (t : TaskId) : Act Unit := do
  let k ← getTask t
  check (k.event ≠ .none) .queueEvent "task->event.type != EVENT_NONE"
  check k.stopped .queueEvent "task->stopped"
  modify (·.queued t)

/-- `next_event`. -/
def nextEvent : Act (Option TaskId) := do
  let s ← get
  match s.queue.next none with
  | some t => do
    modify (·.dequeued t)
    return some t
  | none => waitEvent

/-- Queues what `wait_event` returns. -/
def queueReturned : Option TaskId → Act Unit
  | none => pure ()
  | some t => queueEvent t

/-- The loop of `stop_threads`, which takes an answer in each round. -/
def stopLoop (leader : TaskId) : ℕ → Act Unit
  | 0 => throw .blocked
  | fuel + 1 => do
    let s ← get
    let l := s.task leader
    if l.threads = l.threadsStopped then pure ()
    else do
      check (l.threads > l.threadsStopped) .stopThreads "leader->threads > leader->threads_stopped"
      let t ← waitEvent
      queueReturned t
      stopLoop leader fuel

/-- `stop_threads`, also for a task that is being destroyed. -/
def stopThreads (t : TaskId) : Act Unit := do
  let s ← get
  stopLoop (s.task t).leader (s.inputs.length + 1)

end Mtrace.Tracer
