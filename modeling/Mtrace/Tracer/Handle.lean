import Mtrace.Tracer.Step

/-!
# Handling events

`handle_event` of `event.c` with all it calls.  What a handler learns from the tracee or from the
client is in `Answers`.
-/

namespace Mtrace.Tracer

/-- The symbols of a library. -/
abbrev Library := List (UInt64 × Func)

/-- What the dynamic loader did since the last hit of its breakpoint. -/
inductive Linkmap where
  | unchanged
  | add (libraries : List Library)
  /-- The symbols of the libraries that are gone. -/
  | del (libraries : List (List UInt64))
  deriving Repr

/-- The breakpoint of `elf_read_main_binary` for the dynamic loader. -/
inductive Boot where
  | none
  | linkmap (brk : UInt64) (libraries : List Library)
  | entry (addr : UInt64)
  deriving Repr

structure Setup where
  is64bit : Bool
  libraries : List Library
  boot : Boot
  deriving Repr

structure Answers where
  /-- `report_about_exit` can send. -/
  reported : Bool := true
  returnAddr : UInt64 := 0
  /-- The report functions come to `report_alloc` with a pointer. -/
  reportsOut : Bool := true
  reportsIn : Bool := true
  linkmap : Linkmap := .unchanged
  /-- `linkmap_init` at the entry of the program, if it finds the debug structure. -/
  debug : Option (UInt64 × List Library) := none
  /-- `leader_setup`, unless it fails. -/
  setup : Option Setup := none
  deriving Repr

/-- The results of a handler. -/
inductive Ret where
  | done
  | failed
  /-- `RET_DELETED`. -/
  | deleted
  /-- `RET_DEFERED`. -/
  | deferred
  deriving DecidableEq, Repr

namespace State

/-- `defer_func` and `defer_data` of a new task. -/
def deferredTo (s : State) (n t : TaskId) : State :=
  (s.setTask n fun k => { k with deferred := some t }).drop t

/-- The parent of a deferred task gets into the hands of the server. -/
def adopted (s : State) (n t : TaskId) : State :=
  (s.setTask n fun k => { k with deferred := none }).take t

/-- The breakpoint event of a task is being handled. -/
def handles (s : State) (t : TaskId) (b : BpId) : State := { s with handling := some (t, b) }

/-- It was handled; its reference is still there. -/
def handled (s : State) (b : BpId) : State := { s with handling := none, held := b :: s.held }

/-- A task waits for its call to return to a breakpoint. -/
def pends (s : State) (t : TaskId) (b : BpId) : State :=
  s.setTask t fun k => { k with breakpoint := some b }

/-- `about_exit = 1`. -/
def announced (s : State) (t : TaskId) : State :=
  (s.setTask t fun k => { k with aboutExit := true }).drop t

/-- `about_exit = 0`.  The task gets into the hands of the server, if it is stopped. -/
def withdrawn (s : State) (t : TaskId) : State :=
  { s.setTask t fun k => { k with aboutExit := false } with
    owned := if (s.task t).stopped then t :: s.owned else s.owned }

/-- Notes that a task is continued whose breakpoint event was not handled. -/
def noteDropped (s : State) (t : TaskId) : State := s.markIf (s.unhandled t) .droppedEvent

/-- Notes what a clone event finds of the new task before it continues it. -/
def noteCloned (s : State) (n : TaskId) : State :=
  (s.markIf (s.task n).aboutExit .clonedAboutExit).markIf (s.queue.linked n) .clonedQueued

/-- Notes that a call is entered at a hit that was skipped already. -/
def noteSkipped (s : State) (t : TaskId) : State := s.markIf (s.task t).bpSkipped .skippedEntry

/-- A task whose hit was skipped already gets into the hands of the server again. -/
def takeSkipped (s : State) (t : TaskId) : State := if (s.task t).bpSkipped then s.take t else s

end State

/-! ## Libraries -/

/-- `cb_breakpoint_for_symbol`. -/
def cbBreakpointForSymbol (w : World) (leader : TaskId) (symbol : UInt64 × Func) : Act Unit := do
  match ← breakpointFind leader symbol.1 with
  | some b => do
    let bp ← getBp b
    check (bp.libsym = none) .library "bp->libsym == NULL"
    modify (·.setBp b fun bp => { bp with libsym := some symbol.2 })
  | none => do
    match ← breakpointNew w leader { addr := symbol.1, type := .auto, libsym := some symbol.2 } with
    | none => throw .crash
    | some b => do
      let s ← get
      if w.connected s then breakpointEnable leader b else pure ()

/-- `library_add`. -/
def libraryAdd (w : World) (t : TaskId) (library : Library) : Act Unit := do
  let k ← getTask t
  check (k.leader = t) .library "leader->leader == leader"
  library.forM (cbBreakpointForSymbol w t)

/-- The breakpoint of a symbol of `library_delete`. -/
def deleteSymbol (leader : TaskId) (addr : UInt64) : Act Unit := do
  match ← breakpointFind leader addr with
  | none => pure ()
  | some b => breakpointDelete leader b

/-- `linkmap_add` and `linkmap_del`; for another thread than the leader the latter takes the head
of a list for a library. -/
def linkmapChange (w : World) (t : TaskId) : Linkmap → Act Unit
  | .unchanged => pure ()
  | .add libraries => libraries.forM (libraryAdd w t)
  | .del libraries => do
    let k ← getTask t
    if k.leader = t then libraries.flatten.forM (deleteSymbol t) else throw .crash

/-- `linkmap_init` once it found the debug structure. -/
def linkmapInit (w : World) (t : TaskId) (brk : UInt64) (libraries : List Library) : Act Unit := do
  match ← breakpointNew w t { addr := brk, type := .sw, onHit := .linkmap, locked := true } with
  | none => pure ()
  | some b => do
    breakpointEnable t b
    libraries.forM (libraryAdd w t)

/-- `leader_setup`. -/
def leaderSetup (w : World) (leader : TaskId) (setup : Setup) : Act Unit := do
  modify (·.setTask leader fun k => { k with is64bit := setup.is64bit })
  setup.libraries.forM (libraryAdd w leader)
  match setup.boot with
  | .none => pure ()
  | .linkmap brk libraries => linkmapInit w leader brk libraries
  | .entry addr => do
    match ← breakpointNew w leader { addr, type := .sw, onHit := .entry, locked := true } with
    | none => pure ()
    | some b => breakpointEnable leader b

/-! ## Reports -/

/-- `report_alloc`, which for a task of 32 bits leaves the breakpoint before it sends. -/
def reportAlloc (w : World) (t : TaskId) : Act Unit := do
  let k ← getTask t
  if k.is64bit then pure ()
  else do
    modify (·.setTask t fun k => { k with bpSkipped := true })
    match k.event with
    | .breakpoint b => skipBreakpoint w t b
    | _ => throw (.assertion .skipBreakpoint "task->event.type == EVENT_BREAKPOINT")

/-- `handle_call_after`. -/
def handleCallAfter (w : World) (a : Answers) (t : TaskId) : Act Unit := do
  let k ← getTask t
  match k.breakpoint, k.libsym with
  | none, _ => pure ()
  | some _, none => throw .crash
  | some _, some func => do
    if func.reportOut ∧ a.reportsOut then reportAlloc w t else pure ()
    modify (·.setTask t fun k => { k with breakpoint := none })
    modify (·.setTask t fun k => { k with libsym := none })

/-- `on_hit`; whether it returns nonzero. -/
def onHit (w : World) (a : Answers) (t : TaskId) (b : BpId) : OnHit → Act Bool
  | .none => pure false
  | .callAfter => do
    handleCallAfter w a t
    return false
  | .linkmap => do
    linkmapChange w t a.linkmap
    return false
  | .entry => do
    breakpointDelete t b
    match a.debug with
    | none => pure ()
    | some (brk, libraries) => linkmapInit w t brk libraries
    return true

/-- The breakpoint where a call returns. -/
def insertReturn (w : World) (a : Answers) (t : TaskId) (func : Func) : Act Unit := do
  if func.reportOut ∨ ¬ w.nocpp then do
    match ← breakpointInsert w t { addr := a.returnAddr, type := .hwScratch } with
    | none => pure ()
    | some r => do
      modify (·.pends t r)
      modify (·.setTask t fun k => { k with libsym := some func })
      modify (·.setBp r fun bp => { bp with onHit := .callAfter })
  else pure ()

/-- The entry of a traced function. -/
def enterCall (w : World) (a : Answers) (t : TaskId) (func : Func) : Act Unit := do
  modify (·.noteSkipped t)
  insertReturn w a t func
  if func.reportIn ∧ a.reportsIn then do
    modify (·.takeSkipped t)
    reportAlloc w t
  else pure ()

/-- The last part of `handle_breakpoint`, for a hit that is no return any more. -/
def leaveHit (w : World) (t : TaskId) (b : BpId) : Act Unit := do
  let k ← getTask t
  if k.bpSkipped then modify (·.setTask t fun k => { k with bpSkipped := false })
  else skipBreakpoint w t b

/-- A hit of `handle_breakpoint` that `on_hit` did not settle. -/
def handleHit (w : World) (a : Answers) (t : TaskId) (b : BpId) : Act Unit := do
  let bp ← getBp b
  let k ← getTask t
  match bp.libsym, k.breakpoint with
  | some func, none => do
    enterCall w a t func
    leaveHit w t b
  | _, _ => leaveHit w t b

/-- `handle_breakpoint` for a breakpoint the task did not stand on before. -/
def freshHit (w : World) (a : Answers) (t : TaskId) (b : BpId) : Act Unit := do
  let bp ← getBp b
  if bp.deleted then continueTask t
  else do
    let s ← get
    if bp.type.geHw ∧ w.reorders s b then stopThreads (s.task t).leader else pure ()
    if ← onHit w a t b bp.onHit then continueTask t
    else handleHit w a t b

/-- `handle_breakpoint` up to its `breakpoint_put`. -/
def breakpointHit (w : World) (a : Answers) (t : TaskId) (b : BpId) : Act Unit := do
  let k ← getTask t
  let _ ← getBp b
  check k.stopped .handleBreakpoint "task->stopped"
  match k.skipBp with
  | none => freshHit w a t b
  | some skip => do
    modify (·.unskipped t skip)
    breakpointPut skip
    if skip = b then skipBreakpoint w t b else freshHit w a t b

/-- `handle_breakpoint`. -/
def handleBreakpoint (w : World) (a : Answers) (t : TaskId) (b : BpId) : Act Unit := do
  modify (·.handles t b)
  breakpointHit w a t b
  modify (·.handled b)
  breakpointPut b

/-! ## New tasks -/

/-- `clone_single_cb`; whether it fails. -/
def cloneSingle (n : TaskId) (b : BpId) : Act Bool := do
  let bp ← getBp b
  if bp.deleted ∨ bp.type = .hwScratch then pure false
  else do
    match ← breakpointFind n bp.addr with
    | some _ => pure true
    | none => do
      modify (·.addedBp n bp)
      return false

/-- `breakpoint_clone_all` stops at the first failure. -/
def breakpointCloneAll (n : TaskId) : List BpId → Act Bool
  | [] => pure false
  | b :: bs => do
    if ← cloneSingle n b then pure true
    else breakpointCloneAll n bs

/-- `task->breakpoint` of a forked task, which is looked up by its own address. -/
def forkBreakpoint (t n : TaskId) : Act Unit := do
  let s ← get
  match (s.task t).breakpoint, (s.task n).breakpoint with
  | none, _ => modify (·.setTask n fun k => { k with breakpoint := none })
  | some _, none => throw .crash
  | some _, some own => do
    let bp ← getBp own
    let found ← breakpointFind n bp.addr
    modify (·.setTask n fun k => { k with breakpoint := found })

/-- `task->skip_bp` of a forked task, likewise. -/
def forkSkipBp (t n : TaskId) : Act Unit := do
  let s ← get
  match (s.task t).skipBp.filter fun b => !(s.bp b).deleted, (s.task n).skipBp with
  | none, none => pure ()
  | none, some own => modify (·.unskipped n own)
  | some _, none => throw .crash
  | some _, some own => do
    let bp ← getBp own
    match ← breakpointFind n bp.addr with
    | none => modify (·.unskipped n own)
    | some found => do
      let _ ← getBp found
      modify (·.unskipped n own)
      modify (·.skipped n found)

/-- `task_fork`; whether it succeeds. -/
def taskFork (t n : TaskId) : Act Bool := do
  let s ← get
  check ((s.task n).leader = n) .taskFork "newtask->leader == newtask"
  check (s.task n).attached .taskFork "newtask->attached"
  modify (·.setTask n fun k => { k with is64bit := (s.task t).is64bit })
  if ← breakpointCloneAll n (s.task (s.task t).leader).breakpoints then do
    taskDestroy n
    return false
  else do
    modify (·.setTask n
      fun k => { k with libsym := (s.task t).libsym, attached := (s.task t).attached })
    forkBreakpoint t n
    forkSkipBp t n
    return true

/-- `task_clone`. -/
def taskClone (t n : TaskId) : Act Unit := do
  let s ← get
  check (s.task n).attached .taskClone "newtask->attached"
  check ((s.task n).leader ≠ n) .taskClone "newtask->leader != newtask"
  modify (·.setTask n fun k => { k with is64bit := (s.task t).is64bit })

/-- The end of `do_clone`. -/
def startClone (n : TaskId) : Act Ret := do
  modify (·.noteCloned n)
  modify (·.noteDropped n)
  modify (·.take n)
  modify (·.setTask n fun k => { k with isNew := false })
  continueTask n
  return .done

/-- `do_clone`. -/
def doClone (w : World) (t n : TaskId) : Act Ret := do
  let k ← getTask t
  let m ← getTask n
  check k.stopped .doClone "task->stopped"
  check m.stopped .doClone "newtask->stopped"
  check m.isNew .doClone "newtask->is_new"
  if m.leader = n then do
    if ← taskFork t n then
      if w.follow then startClone n
      else do
        removeProc n
        return .deleted
    else pure .failed
  else do
    taskClone t n
    startClone n

/-- `do_clone_cb`. -/
def doCloneCb (w : World) (n t : TaskId) : Act Ret := do
  let ret ← doClone w t n
  modify (·.noteDropped t)
  continueTask t
  return ret

/-- `handle_child`. -/
def handleChild (w : World) (t : TaskId) (newpid : UInt32) : Act Ret := do
  let s ← get
  match s.pid2task newpid with
  | none => throw (.assertion .handleChild "newtask != NULL")
  | some n =>
    if (s.task n).stopped then do
      let _ ← doClone w t n
      continueTask t
      return .done
    else do
      modify (·.deferredTo n t)
      return .deferred

/-! ## The other events -/

/-- `handle_new`. -/
def handleNew (t : TaskId) : Act Ret := do
  let k ← getTask t
  check k.isNew .handleNew "task->is_new"
  modify (·.setTask t fun k => { k with isNew := false })
  continueTask t
  return .done

/-- `handle_about_exit`. -/
def handleAboutExit (w : World) (a : Answers) (t : TaskId) : Act Unit := do
  let k ← getTask t
  if k.leader = t ∧ ¬ w.logfile ∧ a.reported then modify (·.announced t)
  else continueTask t

/-- `handle_exit` and `handle_exit_signal`. -/
def handleExit (t : TaskId) : Act Ret := do
  let k ← getTask t
  if k.leader = t then untraceProc t else taskDestroy t
  return .deleted

/-- `process_exec`; whether it succeeds. -/
def processExec (w : World) (a : Answers) (t : TaskId) : Act Bool := do
  let k ← getTask t
  let leader := k.leader
  breakpointInvalidateAll leader
  removeOthers leader
  let s ← get
  check ((s.task leader).threads = 1) .processExec "leader->threads == 1"
  leaderCleanup leader
  -- task_init
  let s ← get
  touchLeaders s.leaders.getLast?.toList
  modify fun s => { s with leaders := s.leaders ++ [leader] }
  let s ← get
  check ((s.task leader).leader = leader) .processExec "leader->leader == leader"
  check ((s.task leader).threadsStopped = 1) .processExec "leader->threads_stopped == 1"
  match a.setup with
  | none => do
    taskDestroy leader
    return false
  | some setup => do
    leaderSetup w leader setup
    return true

/-- `handle_exec`. -/
def handleExec (w : World) (a : Answers) (t : TaskId) : Act Ret := do
  if w.followExec then do
    if ← processExec w a t then do
      modify fun s => s.markIf (s.task t).isNew .newUnexpected
      continueTask t
      return .done
    else do
      untraceProc t
      return .deleted
  else do
    untraceProc t
    return .deleted

/-- An event whose handling takes for granted that the task is not new. -/
def Event.expectsOld : Event → Bool
  | .none | .signal _ | .child _ | .breakpoint _ => true
  | _ => false

/-- The last assertions of `handle_event` after most events. -/
def afterEvent (t : TaskId) : Ret → Act Unit
  | .deleted => pure ()
  | .deferred => do
    let k ← getTask t
    check (!k.isNew) .handleEvent "task->is_new == 0"
  | _ => do
    let k ← getTask t
    check (k.event = .none) .handleEvent "task->event.type == EVENT_NONE"
    check (!k.stopped) .handleEvent "task->stopped == 0"
    check (!k.isNew) .handleEvent "task->is_new == 0"

/-- `handle_event` for an event. -/
def dispatch (w : World) (a : Answers) (t : TaskId) : Event → Act Unit
  | .none | .signal _ => do
    continueTask t
    afterEvent t .done
  | .aboutExit => handleAboutExit w a t
  | .exit | .exitSignal => do
    let ret ← handleExit t
    afterEvent t ret
  | .child newpid => do
    let ret ← handleChild w t newpid
    afterEvent t ret
  | .exec => do
    let ret ← handleExec w a t
    afterEvent t ret
  | .breakpoint b => do
    handleBreakpoint w a t b
    afterEvent t .deferred
  | .new _ => do
    let ret ← handleNew t
    afterEvent t ret

/-- `handle_event`; the deferred function is forgotten before it is called. -/
def handleEvent (w : World) (a : Answers) (t : TaskId) : Act Unit := do
  let k ← getTask t
  check k.stopped .handleEvent "task->stopped"
  match k.deferred with
  | some p => do
    modify (·.adopted t p)
    match ← doCloneCb w t p with
    | .deleted => pure ()
    | _ => afterEvent t .deferred
  | none => do
    modify (·.markIf (k.isNew ∧ k.event.expectsOld) .newUnexpected)
    dispatch w a t k.event

end Mtrace.Tracer
