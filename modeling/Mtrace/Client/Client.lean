import Mtrace.Client.Process
import Mtrace.Machine

/-!
# The client

`client/client.c` and the commands of `client/readline.c` as one machine: its state is the table of
processes, the shared `struct stack`s and the dumps that wait in the pager, its events are the
messages of the server and the commands of the user.  A dump that waits lets the client handle
further messages (`dump_printf`, `dump_pager`, `ioevent_watch`, `client_func`), so its start and
its end are two events.
-/

namespace Mtrace.Client

open RbTree

/-- A dump that waits in the pager: the stack nodes it holds, all of one process. -/
structure Dump where
  pid : UInt32
  arr : List NodeId
  deriving DecidableEq, Repr

/-- The state of the client; the innermost dump comes first. -/
structure State where
  doTrace : Bool
  firstPid : UInt32
  pidTable : RbRoot Process
  heap : Stacks
  dumps : List Dump

/-- The operations `client_func` hands to `process_alloc`. -/
def isAllocOp : MtOperation → Bool
  | .malloc | .realloc | .memalign | .posixMemalign | .alignedAlloc | .valloc | .pvalloc | .mmap
  | .mmap64 | .new | .newArray => true
  | _ => false

/-- The operations `client_func` hands to `process_free`. -/
def isFreeOp : MtOperation → Bool
  | .reallocEnter | .free | .delete | .deleteArray => true
  | _ => false

theorem isAllocOp_malloc : isAllocOp .malloc = true := rfl

theorem isAllocOp_realloc : isAllocOp .realloc = true := rfl

theorem isAllocOp_mmap : isAllocOp .mmap = true := rfl

theorem isFreeOp_free : isFreeOp .free = true := rfl

theorem isFreeOp_reallocEnter : isFreeOp .reallocEnter = true := rfl

/-- A message about one process. -/
inductive MtMsg where
  | alloc (op : MtOperation) (hop : isAllocOp op = true) (m : MtAllocPayload)
  | free (op : MtOperation) (hop : isFreeOp op = true) (m : MtAllocPayload)
  | reallocDone (m : MtAllocPayload)
  | munmap (m : MtAllocPayload)
  | fork (pid : UInt32)
  | attach (is64bit attached : Bool)
  | aboutExit
  | exit
  | nofollow
  | scan (leaks : List UInt64)
  | addMap (m : MtMapPayload)
  | delMap (m : MtMapPayload)
  | detach

/-- What happens to the client: a message, a command of the user, or the end of a dump. -/
inductive Event where
  | info (doTrace : Bool)
  | msg (pid : UInt16) (swapEndian : Bool) (m : MtMsg)
  | reset (pid : UInt32)
  | start (pid : UInt32)
  | stop (pid : UInt32)
  | scan (pid : UInt32) (mode : ScanMode)
  | dump (pid : UInt32)
  | dumpEnd

def pidCut (pid : UInt32) (p : Process) : Ordering :=
  if pid < p.pid then .lt else if p.pid < pid then .gt else .eq

namespace State

/-- `client_init`. -/
def init (doTrace : Bool) : State := ⟨doTrace, 0, .nil, .empty, []⟩

abbrev processes (c : State) : List Process := c.pidTable.toList

/-- `client_find_process`. -/
def findProcess (c : State) (pid : UInt32) : Option Process :=
  (c.pidTable.find (pidCut pid)).map (·.val)

/-- `client_add_process` of a process whose pid is not in the table. -/
def addProcess (c : State) (p : Process) : State :=
  { c with
    firstPid := if c.firstPid = 0 then p.pid else c.firstPid
    pidTable := (c.pidTable.gap (pidCut p.pid)).insertNew p }

/-- Writing back the record of a process. -/
def store (c : State) (k : Stacks) (p : Process) : State :=
  { c with heap := k, pidTable := c.pidTable.map fun q => if q.pid = p.pid then p else q }

/-- `client_remove_process`. -/
def removeProcess (c : State) (pid : UInt32) : Except Fault State :=
  match c.pidTable.find (pidCut pid) with
  | none => .ok c
  | some x => do
    let (k, _) ← processReset c.heap x.val
    return { c with pidTable := x.erase, heap := k }

/-- `process_exit`, and the removal that follows it. -/
def processExit (o : Options) (c : State) (p : Process) : Except Fault State :=
  let p := { p with status := .exit }
  if o.interactive then .ok (c.store c.heap p)
  else do
    let (k, p) ← processDumpSortby c.heap p
    (c.store k p).removeProcess p.pid

/-- `process_detach`, and the removal that follows it. -/
def processDetach (o : Options) (c : State) (p : Process) : Except Fault State :=
  let p := { p with status := .detach }
  if o.autoScan then .ok (c.store c.heap (processLeaksScan p .all))
  else if o.interactive then .ok (c.store c.heap p)
  else do
    let (k, p) ← processDumpSortby c.heap p
    (c.store k p).removeProcess p.pid

def processAboutExit (o : Options) (c : State) (p : Process) : State :=
  let p := { p with status := .exiting }
  c.store c.heap (if o.autoScan then processLeaksScan p .all else p)

/-- The handlers `client_func` chooses from, for the process `p`. -/
def dispatch (o : Options) (env : Env) (c : State) (p : Process) : MtMsg → Except Fault State
  | .alloc op _ m => do
    let (k, p) ← processAlloc o env c.heap p op m
    return c.store k p
  | .free op _ m => do
    let (k, p) ← processFree o env c.heap p op m
    return c.store k p
  | .reallocDone m => do
    let (k, p) ← processReallocDone o c.heap p m
    return c.store k p
  | .munmap m => do
    let (k, p) ← processMunmap o c.heap p m
    return c.store k p
  | .fork pid => do
    let (k, p) ← processDuplicate o c.heap p (c.findProcess pid)
    return c.store k p
  | .attach is64bit attached => do
    let (k, p) ← processReinit c.heap p p.swapEndian is64bit attached
    return c.store k p
  | .aboutExit => .ok (c.processAboutExit o p)
  | .exit => c.processExit o p
  | .nofollow => c.removeProcess p.pid
  | .scan leaks => do
    let (k, p, remove) ← processScan o c.heap p leaks
    if remove then (c.store k p).removeProcess p.pid else .ok (c.store k p)
  | .addMap m => .ok (c.store c.heap
      (processAddMap p ⟨m.offset, m.addr, m.size, m.bias, m.filename⟩))
  | .delMap m => do
    let p ← processDelMap p m
    return c.store c.heap p
  | .detach => c.processDetach o p

/-- The record of the process a message is about: the first message of a process creates it. -/
def enter (c : State) (pid : UInt32) (swapEndian : Bool) : State × Process :=
  match c.findProcess pid with
  | some p => (c, p)
  | none =>
    let p := processNew pid swapEndian c.doTrace
    (c.addProcess p, p)

/-- `client_func` for a message that carries a pid. -/
def clientFunc (o : Options) (env : Env) (c : State) (pid : UInt16) (swapEndian : Bool)
    (m : MtMsg) : Except Fault State :=
  if pid = 0 then .error (.fatal "protocol violation")
  else
    let (c, p) := c.enter pid.toUInt32 swapEndian
    if p.swapEndian ≠ swapEndian ∨ p.status = .ignore then .ok c
    else c.dispatch o env p m

/-- `do_dump` without a file: `dump_stacks` prints nothing for a process without allocations. -/
def doDump (c : State) (p : Process) : Except Fault State :=
  if p.nAllocations = 0 then .ok c
  else do
    let (k, p, arr) ← dumpBegin c.heap p
    let c := c.store k p
    return if arr.isEmpty then c else { c with dumps := ⟨p.pid, arr⟩ :: c.dumps }

/-- The end of `_process_dump`. -/
def dumpEnd (c : State) : Except Fault State :=
  match c.dumps with
  | [] => .ok c
  | d :: ds =>
    match c.findProcess d.pid with
    | none => .error .dangling
    | some p => do
      let (k, p) ← dumpPut d.arr c.heap p
      return { c.store k p with dumps := ds }

/-- A command on the process with a given pid; without such a process it prints a message. -/
def withProcess (c : State) (pid : UInt32) (f : Process → Except Fault State) :
    Except Fault State :=
  match c.findProcess pid with
  | some p => f p
  | none => .ok c

def doReset (c : State) (p : Process) : Except Fault State := do
  let (k, p) ← processResetAllocations c.heap { p with attached := true }
  return c.store k p

def doStart (c : State) (p : Process) : Except Fault State := do
  let (k, p) ← processResetAllocations c.heap p
  return c.store k { p with tracing := true, attached := true }

def doStop (c : State) (p : Process) : Except Fault State :=
  .ok (c.store c.heap { p with tracing := false })

/-- `do_scan`: the answer of the server is a later message. -/
def doScan (c : State) (mode : ScanMode) (p : Process) : Except Fault State :=
  if !p.tracing then .ok c else .ok (c.store c.heap (processLeaksScan p mode))

def step (o : Options) (env : Env) (c : State) : Event → Except Fault State
  | .info doTrace => .ok { c with doTrace }
  | .msg pid swapEndian m => c.clientFunc o env pid swapEndian m
  | .reset pid => c.withProcess pid c.doReset
  | .start pid => c.withProcess pid c.doStart
  | .stop pid => c.withProcess pid c.doStop
  | .scan pid mode => c.withProcess pid (c.doScan mode)
  | .dump pid => c.withProcess pid c.doDump
  | .dumpEnd => c.dumpEnd

end State

/-- The states the client reaches when every event meets `ok` in the state it arrives in. -/
abbrev Reach (o : Options) (env : Env) (ok : State → Event → Prop) (doTrace : Bool) :
    State → Prop :=
  Machine.Reach (State.step o env) ok (State.init doTrace)

/-- The states the client reaches at all. -/
abbrev Reachable (o : Options) (env : Env) (doTrace : Bool) : State → Prop :=
  Reach o env (fun _ _ => True) doTrace

/-! ## A sample run -/

/-- The options of an interactive session. -/
def plainOptions : Options := ⟨false, true, false⟩

/-- A little-endian host without symbols and without patterns. -/
def plainEnv : Env := ⟨false, fun _ _ => none, []⟩

/-- Process 1 has started a program. -/
def startEvents : List Event :=
  [.msg 1 false (.attach true false), .msg 1 false (.addMap ⟨0x400000, 0, 0x1000, 0, "a.out"⟩)]

/-- The backtrace of a call at offset `off` of the program. -/
def callAt (off : UInt8) : List UInt8 := [off, 0, 0x40, 0, 0, 0, 0, 0]

/-- Process 1 has allocated `size` bytes at `ptr`. -/
def mallocEvent (ptr size : UInt64) : Event :=
  .msg 1 false (.alloc .malloc isAllocOp_malloc ⟨ptr, size, callAt 0x10⟩)

/-- The state after a run that does not fail. -/
def stateAfter (es : List Event) : State :=
  match Machine.run (State.step plainOptions plainEnv) (.init true) es with
  | .ok c => c
  | .error _ => .init true

theorem reachable_stateAfter (es : List Event) :
    Reachable plainOptions plainEnv true (stateAfter es) := by
  unfold stateAfter
  rcases h : Machine.run (State.step plainOptions plainEnv) (.init true) es with f | c
  · exact .init
  · exact Machine.reach_run es _ c (fun _ _ _ => trivial) .init h

/-- A block is allocated and the user looks at a dump. -/
def sampleState : State := stateAfter (startEvents ++ [mallocEvent 0x602010 16, .dump 1])

theorem reachable_sample : Reachable plainOptions plainEnv true sampleState :=
  reachable_stateAfter _

end Mtrace.Client
