import Mtrace.Tracer.Handle

/-!
# The main loop

The commands of `server.c`, the tasks that are attached or created, and the steps of `mtrace_main`
in any order.
-/

namespace Mtrace.Tracer

namespace State

/-- `each_process` starts at the last leader. -/
def processes (s : State) : List TaskId := s.leaders.reverse

/-- `delete_task` of a leader: what its memory said is gone, `list_of_leaders` still has it. -/
def abandoned (s : State) (t : TaskId) : State :=
  { ((s.setEvent t .none).drop t).setTask t
    fun k => { k with threads := 0, threadsStopped := 0 } with
    live := s.live.erase t }

/-- `PID_HASH_SIZE`. -/
def pidHashSize : ℕ := 256

/-- `each_pid`, bucket by bucket. -/
def pids (s : State) : List TaskId :=
  (List.range pidHashSize).flatMap fun i =>
    s.live.filter fun t => (s.task t).pid.toNat % pidHashSize = i

/-- What `MT_ABOUT_EXIT` finds of a leader. -/
def reply (s : State) (t : TaskId) : Mark :=
  if (s.task t).stopped = false then .repliedRunning
  else if s.queue.linked t ∨ s.Parent t then .repliedHeld
  else if (s.task t).aboutExit then .replied
  else .strayReply

/-- A task gets into the hands of the server, if it is stopped. -/
def takeStopped (s : State) (t : TaskId) : State := if (s.task t).stopped then s.take t else s

/-- Notes in which case a task is released too early. -/
def noteClosed (s : State) (t : TaskId) : State :=
  (s.markIf ((s.task t).stopped = false) .closedRunning).markIf
    (s.queue.linked t ∨ s.Parent t) .closedHeld

end State

/-- `each_process`. -/
def eachProcess (cb : TaskId → Act Unit) : Act Unit := do
  let s ← get
  s.processes.forM fun t => do
    touchLeaders [t]
    cb t

/-! ## Commands -/

/-- `start_trace`. -/
def startTrace (leader : TaskId) : Act Unit := breakpointEnableAllNonlocked leader

/-- `stop_trace`. -/
def stopTrace (leader : TaskId) : Act Unit := do
  breakpointDisableAllNonlocked leader
  let s ← get
  (s.others leader).forM taskResetBp
  taskResetBp leader

/-- `fix_about_exit`. -/
def fixAboutExit (t : TaskId) : Act Unit := do
  let k ← getTask t
  if k.aboutExit then do
    modify (·.noteClosed t)
    modify (·.noteDropped t)
    modify (·.withdrawn t)
    continueTask t
  else pure ()

/-- `server_close` of an open connection. -/
def serverClose : Act Unit := do
  eachProcess stopTrace
  let s ← get
  s.pids.forM fixAboutExit

/-- The operations of a client that change the state. -/
inductive Operation where
  | scan
  | start
  | stop
  | detach
  | aboutExit
  deriving DecidableEq, Repr

/-- `server_handle_command` for a leader. -/
def operate (t : TaskId) : Operation → Act Unit
  | .scan => stopThreads t
  | .start => startTrace t
  | .stop => stopTrace t
  | .detach => detachProc t
  | .aboutExit => do
    modify fun s => s.mark (s.reply t)
    modify (·.noteDropped t)
    modify (·.takeStopped t)
    continueTask t

/-- `server_handle_command` for an operation with a pid. -/
def serverHandleCommand (pid : UInt32) (op : Operation) : Act Unit := do
  let s ← get
  match s.pid2task pid with
  | none => pure ()
  | some t => if (s.task t).leader = t then operate t op else pure ()

/-! ## The first tasks -/

/-- `delete_task`.  A task that is no leader stays in the `task_list` of its leader, and whatever
`open_pid` does next for this leader goes through this list: to the end of it with another thread,
or along it. -/
def deleteTask (t : TaskId) : Act Unit := do
  let k ← getTask t
  if k.leader = t then do
    modify fun s => s.markIf (s.Parent t) .destroyedParent
    modify (·.abandoned t)
  else throw .crash

/-- `trace_attach` or `trace_wait`, and `trace_set_options`; whether they succeed. -/
def traceWait (t : TaskId) (pid : UInt32) (signum : ℕ) : Act Bool := do
  match ← nextInput with
  | .lost => pure false
  | .wait r =>
    if r.pid = pid then do
      if ← traceSetup t r.status signum then pure r.options else pure false
    else throw .blocked
  | _ => throw .blocked

/-- `open_one_pid`. -/
def openOnePid (pid tgid : UInt32) : Act (Option TaskId) := do
  match ← taskNew pid tgid with
  | none => pure none
  | some t => do
    if ← traceWait t pid sigstop then do
      queueEvent t
      return some t
    else do
      deleteTask t
      return none

/-- A thread of a process that is attached. -/
def openThread (tgid pid : UInt32) : Act Unit := do
  let s ← get
  if pid = 0 ∨ (s.pid2task pid).isSome then pure ()
  else do
    let _ ← openOnePid pid tgid
    return

/-- `open_pid`, with the threads that `process_tasks` finds; without a setup `process_tasks` or
`leader_setup` fails. -/
def openPid (w : World) (pid : UInt32) (tids : List UInt32) (setup : Option Setup) : Act Unit := do
  let s ← get
  if pid = 0 ∨ (s.pid2task pid).isSome then pure ()
  else do
    match ← openOnePid pid pid with
    | none => pure ()
    | some leader => do
      tids.forM (openThread pid)
      match setup with
      | none => removeProc leader
      | some setup => do
        leaderSetup w leader setup
        let s ← get
        (s.others leader).forM fun t =>
          modify (·.setTask t fun k => { k with is64bit := (s.task leader).is64bit })

/-- `task_create` with the pid of the new process, and `mtrace_init`, which exits if it fails;
`started` says whether the process could be continued. -/
def taskCreate (w : World) (a : Answers) (pid : UInt32) (setup : Option Setup) (started : Bool) :
    Act Unit := do
  let s ← get
  if pid = 0 ∨ (s.pid2task pid).isSome then throw .blocked
  else do
    match ← taskNew pid pid with
    | none => throw .exit
    | some t => do
      if ← traceWait t pid sigtrap then
        match setup with
        | none => do
          removeProc t
          throw .exit
        | some setup => do
          leaderSetup w t setup
          handleEvent w a t
          if started then pure ()
          else do
            removeProc t
            throw .exit
      else do
        deleteTask t
        throw .exit

/-! ## Steps -/

/-- One pass of a loop: an event, a command, or a change of the connection. -/
inductive Step where
  | event (a : Answers)
  | command (pid : UInt32) (op : Operation)
  | accept
  | close
  | attach (pid : UInt32) (tids : List UInt32) (setup : Option Setup)
  | create (pid : UInt32) (setup : Option Setup) (a : Answers) (started : Bool)
  | exit
  deriving Repr

/-- `mtrace_exit` without its conversation with the client. -/
def mtraceExit : Act Unit := do
  eachProcess stopThreads
  eachProcess removeProc
  let s ← get
  s.pids.forM taskDestroy

def act (w : World) : Step → Act Unit
  | .event a => do
    match ← nextEvent with
    | none => pure ()
    | some t => handleEvent w a t
  | .command pid op => serverHandleCommand pid op
  | .accept => eachProcess startTrace
  | .close => serverClose
  | .attach pid tids setup => openPid w pid tids setup
  | .create pid setup a started => taskCreate w a pid setup started
  | .exit => mtraceExit

/-- A step of the server as a machine. -/
def step (s : State) (e : World × Step) : Except Halt State :=
  match act e.1 e.2 s with
  | .ok _ s' => .ok s'
  | .error h _ => .error h

end Mtrace.Tracer
