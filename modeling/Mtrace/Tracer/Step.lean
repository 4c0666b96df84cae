import Mtrace.Tracer.Wait

/-!
# Breakpoints, single steps and the end of a task

`breakpoint.c`, `skip_breakpoint` and `handle_singlestep` of `trace.c`, and `task_destroy` of
`task.c`.  Hardware slots and the text of a process are in `Server.Breakpoint`; here `World` says
which enabled breakpoints sit in the text.
-/

namespace Mtrace.Tracer

open Server (BpType)

/-- The options, and what the server finds outside of its own state. -/
structure World where
  nohwbp : Bool
  nocpp : Bool
  follow : Bool
  followExec : Bool
  logfile : Bool
  /-- `server_connected`. -/
  connected : State → Bool
  /-- `bp->sw` of an enabled breakpoint. -/
  sw : State → BpId → Bool
  /-- `bp->break_insn` of one that sits in the text. -/
  breakInsn : State → BpId → Bool
  /-- `reorder_hw_bp` has slots to fill. -/
  reorders : State → BpId → Bool

namespace State

/-- `dict_add` of a new breakpoint. -/
def addedBp (s : State) (leader : TaskId) (bp : Breakpoint) : State :=
  { s with
    bp := Function.update s.bp s.nextBp { bp with refcnt := 1, owner := leader }
    nextBp := s.nextBp + 1 }.setTask leader
      fun l => { l with breakpoints := l.breakpoints ++ [s.nextBp] }

/-- `dict_remove_entry` of a breakpoint, whose reference is in no dictionary then. -/
def removedBp (s : State) (leader : TaskId) (b : BpId) : State :=
  { (s.setTask leader fun l => { l with breakpoints := l.breakpoints.erase b }).setBp b
      fun bp => { bp with deleted := true, libsym := none } with held := b :: s.held }

/-- `task->skip_bp = breakpoint_get(bp)`. -/
def skipped (s : State) (t : TaskId) (b : BpId) : State :=
  (s.setBp b fun bp => { bp with refcnt := bp.refcnt + 1 }).setTask t
    fun k => { k with skipBp := some b }

/-- The pointer `skip_bp` is given up, its reference is not. -/
def unskipped (s : State) (t : TaskId) (b : BpId) : State :=
  { s.setTask t fun k => { k with skipBp := none } with held := b :: s.held }

/-- The reference of a breakpoint that nothing points to any more. -/
def released (s : State) (b : BpId) : State :=
  { s.setBp b fun bp => { bp with refcnt := bp.refcnt - 1 } with held := s.held.erase b }

/-- A live task waits for its call to return to a breakpoint. -/
def pending (s : State) (b : BpId) : Bool :=
  s.live.any fun t => (s.task t).breakpoint = some b

/-- `remove_event`, where the reference of the event is not given up yet. -/
def unqueued (s : State) (t : TaskId) : State :=
  { ({ s with queue := s.queue.del t }.setEvent t .none).drop t with
    held := (s.task t).event.bp.toList ++ s.held }

/-- `task->deleted = 1`, `leader->threads--`, `leader->threads_stopped--` and `delete_pid`. -/
def retired (s : State) (t : TaskId) : State :=
  { (s.setTask t fun k => { k with deleted := true }).setTask (s.task t).leader fun l =>
      { l with threads := l.threads - 1, threadsStopped := l.threadsStopped - 1 } with
    live := s.live.erase t }

end State

/-! ## References -/

/-- `breakpoint_put` of a reference that is given up. -/
def breakpointPut (b : BpId) : Act Unit := do
  let s ← get
  check ((s.bp b).refcnt ≠ 0) .breakpointPut "bp->refcnt != 0"
  modify (·.released b)
  let s ← get
  check ((s.bp b).refcnt ≠ 0 ∨ ¬ (s.bp b).enabled) .breakpointPut "bp->enabled == 0"

/-- `task_reset_bp`, with the pointer cleared before its reference is given up. -/
def taskResetBp (t : TaskId) : Act Unit := do
  let s ← get
  match (s.task t).skipBp with
  | none => modify (·.setTask t fun k => { k with breakpoint := none })
  | some b => do
    modify (·.unskipped t b)
    breakpointPut b
    modify (·.setTask t fun k => { k with breakpoint := none })

/-! ## Breakpoints -/

/-- `breakpoint_enable`. -/
def breakpointEnable (t : TaskId) (b : BpId) : Act Unit := do
  let bp ← getBp b
  if bp.deleted ∨ bp.enabled then pure ()
  else if bp.type = .hwScratch then modify (·.setBp b fun bp => { bp with enabled := true })
  else do
    stopThreads t
    modify (·.setBp b fun bp => { bp with enabled := true })

/-- `breakpoint_disable`. -/
def breakpointDisable (t : TaskId) (b : BpId) : Act Unit := do
  let bp ← getBp b
  if bp.deleted ∨ ¬ bp.enabled then pure ()
  else do
    stopThreads t
    modify (·.setBp b fun bp => { bp with enabled := false })

/-- `breakpoint_new_ext`, which fails where the address is in the dictionary. -/
def breakpointNew (w : World) (t : TaskId) (bp : Breakpoint) : Act (Option BpId) := do
  match ← breakpointFind t bp.addr with
  | some _ => pure none
  | none => do
    let s ← get
    let type := if w.nohwbp then .sw else bp.type
    modify (·.addedBp (s.task t).leader { bp with type })
    return some s.nextBp

/-- `breakpoint_insert`. -/
def breakpointInsert (w : World) (t : TaskId) (bp : Breakpoint) : Act (Option BpId) := do
  if bp.addr = 0 then pure none
  else do
    match ← breakpointFind t bp.addr with
    | some b => do
      breakpointEnable t b
      return some b
    | none => do
      match ← breakpointNew w t bp with
      | none => pure none
      | some b => do
        breakpointEnable t b
        return some b

/-- `breakpoint_delete`. -/
def breakpointDelete (t : TaskId) (b : BpId) : Act Unit := do
  let bp ← getBp b
  if bp.deleted then pure ()
  else do
    breakpointDisable t b
    modify fun s => s.markIf (s.pending b) .deletedPending
    modify fun s => s.removedBp (s.task t).leader b
    breakpointPut b

/-- `dict_apply_to_all` over the breakpoints of a leader. -/
def eachBreakpoint (leader : TaskId) (cb : BpId → Act Unit) : Act Unit := do
  let s ← get
  (s.task leader).breakpoints.forM cb

/-- `breakpoint_disable_all`. -/
def breakpointDisableAll (leader : TaskId) : Act Unit :=
  eachBreakpoint leader (breakpointDisable leader)

/-- A callback for the breakpoints that are not locked. -/
def ifNonlocked (cb : BpId → Act Unit) (b : BpId) : Act Unit := do
  let bp ← getBp b
  if bp.locked then pure () else cb b

/-- `breakpoint_disable_all_nonlocked`. -/
def breakpointDisableAllNonlocked (leader : TaskId) : Act Unit :=
  eachBreakpoint leader (ifNonlocked (breakpointDisable leader))

/-- `breakpoint_enable_all_nonlocked`. -/
def breakpointEnableAllNonlocked (leader : TaskId) : Act Unit :=
  eachBreakpoint leader (ifNonlocked (breakpointEnable leader))

/-- `breakpoint_invalidate_all`. -/
def breakpointInvalidateAll (leader : TaskId) : Act Unit :=
  eachBreakpoint leader fun b => modify (·.setBp b fun bp => { bp with enabled := false })

/-- `library_clear_all` and `breakpoint_clear_all`, which together delete all breakpoints. -/
def breakpointClearAll (leader : TaskId) : Act Unit := do
  eachBreakpoint leader (breakpointDelete leader)
  modify (·.setTask leader fun l => { l with breakpoints := [] })

/-! ## Single steps -/

/-- What `handle_singlestep` does with the event of a step; whether it returns nonzero. -/
def stepEvent (w : World) (t : TaskId) (b : BpId) (sig : ℕ) : Act Bool := do
  let k ← getTask t
  check (k.event ≠ .none) .singlestep "task->event.type != EVENT_NONE"
  check (!k.event.isBreakpoint) .singlestep "task->event.type != EVENT_BREAKPOINT"
  match k.event with
  | .signal _ =>
    if sig ≠ sigtrap then do
      queueEvent t
      return true
    else do
      let s ← get
      if w.breakInsn s b then do
        queueEvent t
        -- the caller will continue the task all the same
        modify fun s => (s.mark .breakInsn).take t
        return false
      else do
        modify (·.setEvent t (.breakpoint b))
        return false
  | _ => do
    queueEvent t
    return true

/-- `handle_singlestep`. -/
def handleSinglestep (w : World) (t : TaskId) (b : BpId) : Act Bool := do
  let k ← getTask t
  let bp ← getBp b
  check k.stopped .singlestep "task->stopped"
  check (k.skipBp = none) .singlestep "task->skip_bp == NULL"
  check (!bp.enabled) .singlestep "bp->enabled == 0"
  modify (·.setEvent t .none)
  match ← nextInput with
  | .stepFails => pure true
  | .lost => pure false
  | .halted r => do
    match ← _processEvent t r with
    | none => pure false
    | some sig => stepEvent w t b sig
  | _ => throw .blocked

/-- `skip_breakpoint`. -/
def skipBreakpoint (w : World) (t : TaskId) (b : BpId) : Act Unit := do
  let k ← getTask t
  let bp ← getBp b
  check k.event.isBreakpoint .skipBreakpoint "task->event.type == EVENT_BREAKPOINT"
  check k.stopped .skipBreakpoint "task->stopped"
  check (k.skipBp = none) .skipBreakpoint "task->skip_bp == NULL"
  let s ← get
  if bp.enabled ∧ w.sw s b then do
    breakpointDisable t b
    let ret ← handleSinglestep w t b
    breakpointEnable t b
    if ret then do
      let _ ← getBp b
      modify (·.skipped t b)
    else continueTask t
  else continueTask t

/-! ## The end of a task -/

/-- `stop_task`. -/
def stopTask (t : TaskId) : Act Unit := do
  let k ← getTask t
  check k.attached .stopTask "task->attached"
  if k.stopped then pure ()
  else do
    match ← nextInput with
    | .lost => pure ()
    | .halted r => do
      let _ ← _processEvent t r
      return
    | _ => throw .blocked

/-- `leader_cleanup`. -/
def leaderCleanup (leader : TaskId) : Act Unit := do
  breakpointClearAll leader
  let s ← get
  touchLeaders (s.neighbours leader)
  modify fun s => { s with leaders := s.leaders.erase leader }

/-- `leader_cleanup` once the last thread of a leader is gone. -/
def cleanupLast (leader : TaskId) : Act Unit := do
  let s ← get
  if (s.task leader).threads = 0 then leaderCleanup leader else pure ()

/-- The reference of the event of a task, with `remove_event` before it is given up. -/
def putEvent (t : TaskId) : Act Unit := do
  let s ← get
  modify (·.unqueued t)
  match (s.task t).event.bp with
  | some b => breakpointPut b
  | none => pure ()

/-- `task_destroy`.  The task leaves the queue, the group and `pid_hash` as soon as it is stopped
and its references are given up: nothing looks for it there in between. -/
def taskDestroy (t : TaskId) : Act Unit := do
  let k ← getTask t
  if k.deleted then pure ()
  else do
    modify fun s => s.markIf ((s.task t).stopped = false) .destroyedRunning
    stopTask t
    putEvent t
    taskResetBp t
    modify fun s => s.markIf (s.Parent t) .destroyedParent
    modify (·.retired t)
    cleanupLast k.leader
    let s ← get
    check (s.task t).stopped .untraceTask "task->stopped"

/-- The task after this one in the `task_list` of a leader. -/
def nextOther (s : State) (leader t : TaskId) : Option TaskId :=
  (s.others leader).find? (t < ·)

/-- The loop of `each_task` over the other tasks of a leader, which may get more of them. -/
def eachOther (leader : TaskId) (cb : TaskId → Act Unit) : ℕ → Option TaskId → Act Unit
  | _, none => pure ()
  | 0, some _ => throw .blocked
  | fuel + 1, some t => do
    let s ← get
    let next := nextOther s leader t
    cb t
    eachOther leader cb fuel next

/-- `each_task` with `task_destroy` for every task but the leader. -/
def removeOthers (leader : TaskId) : Act Unit := do
  let s ← get
  eachOther leader taskDestroy ((s.others leader).length + s.inputs.length + 1)
    (s.others leader).head?

/-- `remove_proc`. -/
def removeProc (leader : TaskId) : Act Unit := do
  let k ← getTask leader
  check (k.leader = leader) .removeProc "leader->leader == leader"
  stopThreads leader
  breakpointDisableAll leader
  removeOthers leader
  let s ← get
  check ((s.task leader).threads = 1) .removeProc "leader->threads == 1"
  taskDestroy leader

/-- `untrace_proc`. -/
def untraceProc (leader : TaskId) : Act Unit := do
  breakpointInvalidateAll leader
  removeProc leader

/-- `detach_proc`. -/
def detachProc (leader : TaskId) : Act Unit := do
  breakpointDisableAll leader
  removeOthers leader
  taskDestroy leader

end Mtrace.Tracer
