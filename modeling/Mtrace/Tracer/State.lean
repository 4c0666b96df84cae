import Mtrace.Hoare
import Mtrace.LinkList
import Mtrace.Server.Breakpoint

/-!
# The state of the event loop

The tasks, the breakpoints and the event queue that `event.c`, `task.c`, `breakpoint.c` and
`trace.c` share, and the answers of the kernel: a script that `waitpid` and `ptrace` take one after
the other.  A run in which an answer does not fit the call is no run (`Halt.blocked`); a pointer to
what was freed ends it (`Halt.crash`), and so does a failed `assert`.

`owned`, `handling`, `held` and `marks` are no fields of the server: they say which stopped tasks it
has in its hands, which breakpoint event is being handled, which references a task that is being
destroyed leaves behind, and which branches were taken.
-/

namespace Mtrace.Tracer

open Server (BpType)

/-- A `struct task *`; no pointer is used twice. -/
abbrev TaskId := ℕ

/-- A `struct breakpoint *`. -/
abbrev BpId := ℕ

/-- `struct event`; the three kinds of `EVENT_FORK`, `EVENT_VFORK` and `EVENT_CLONE` are handled
alike. -/
inductive Event where
  | none
  | signal (signum : ℕ)
  | aboutExit
  | exit
  | exitSignal
  | child (newpid : UInt32)
  | exec
  | breakpoint (bp : BpId)
  | new (signum : ℕ)
  deriving DecidableEq, Repr

/-- The breakpoint of an `EVENT_BREAKPOINT`. -/
def Event.bp : Event → Option BpId
  | .breakpoint b => some b
  | _ => .none

/-- `EVENT_BREAKPOINT`. -/
def Event.isBreakpoint (event : Event) : Bool := event.bp.isSome

/-- The events of a task that comes to its end. -/
def Event.ends : Event → Bool
  | .aboutExit | .exit | .exitSignal => true
  | _ => false

/-- Which reports a traced function has. -/
structure Func where
  reportIn : Bool
  reportOut : Bool
  deriving DecidableEq, Repr

/-- `on_hit`. -/
inductive OnHit where
  | none
  | callAfter
  | linkmap
  | entry
  deriving DecidableEq, Repr

/-- `struct breakpoint`; one without references was freed.  `owner` is the leader it was made
for. -/
structure Breakpoint where
  addr : UInt64 := 0
  type : BpType := .sw
  refcnt : ℕ := 0
  enabled : Bool := false
  locked : Bool := false
  deleted : Bool := false
  onHit : OnHit := .none
  libsym : Option Func := .none
  owner : TaskId := 0
  deriving DecidableEq, Repr

/-- `struct task`; `deferred` is the `defer_data` of a `do_clone_cb`. -/
structure Task where
  pid : UInt32 := 0
  leader : TaskId := 0
  event : Event := .none
  is64bit : Bool := false
  attached : Bool := false
  deleted : Bool := false
  aboutExit : Bool := false
  stopped : Bool := false
  isNew : Bool := false
  bpSkipped : Bool := false
  breakpoint : Option BpId := .none
  libsym : Option Func := .none
  skipBp : Option BpId := .none
  deferred : Option TaskId := .none
  threads : UInt32 := 0
  threadsStopped : UInt32 := 0
  breakpoints : List BpId := []
  deriving DecidableEq, Repr

/-! ## What the kernel answers -/

def sigtrap : ℕ := 5

def sigstop : ℕ := 19

/-- `status >> 16` of a stopped task, with the message of a new one. -/
inductive PtraceEvent where
  | none
  | child (newpid : UInt32)
  | exec
  | exit
  | unknown
  deriving DecidableEq, Repr

inductive Status where
  | exited
  | signaled
  | stopped (sig : ℕ) (ev : PtraceEvent)
  | other
  deriving DecidableEq, Repr

/-- A status of `waitpid` with what is asked about the task then. -/
structure Wait where
  pid : UInt32
  status : Status
  /-- A `SIGSTOP` came from the server itself, or its origin is not known. -/
  own : Bool := false
  /-- `process_leader` of the task, and of a new one that is announced: zero, or a leader. -/
  tgid : UInt32 := 0
  newTgid : UInt32 := 0
  /-- `fetch_context` succeeds. -/
  context : Bool := true
  /-- `trace_set_options` succeeds for a task that is attached or created. -/
  options : Bool := true
  /-- The address a trap is attributed to. -/
  trap : UInt64 := 0
  deriving DecidableEq, Repr

inductive Input where
  /-- `waitpid` for any task returns. -/
  | wait (w : Wait)
  /-- It fails, or returns for the process that wakes the loop. -/
  | wakeup
  /-- `PTRACE_SINGLESTEP` fails. -/
  | stepFails
  /-- `PTRACE_ATTACH` fails, or the wait for a new task, for a single step, or for a task that is
  destroyed. -/
  | lost
  /-- That wait returns. -/
  | halted (w : Wait)
  deriving DecidableEq, Repr

/-! ## Failures -/

/-- The functions that `assert`. -/
inductive Place where
  | queueEvent
  | handleEvent
  | continueTask
  | processEvent
  | stopThreads
  | stopTask
  | singlestep
  | skipBreakpoint
  | untraceTask
  | breakpointPut
  | handleBreakpoint
  | doClone
  | taskClone
  | taskFork
  | handleChild
  | handleNew
  | processExec
  | removeProc
  | detachProc
  | library
  deriving DecidableEq, Repr

inductive Halt where
  | blocked
  | crash
  /-- `exit(EXIT_FAILURE)`. -/
  | exit
  | assertion (place : Place) (expr : String)
  deriving DecidableEq, Repr

/-- Branches of the code that may break an invariant of a run. -/
inductive Mark where
  /-- `task_destroy` of a task that is not stopped. -/
  | destroyedRunning
  /-- `task_destroy` or `delete_task` of a task that waits for its child. -/
  | destroyedParent
  /-- `MT_ABOUT_EXIT` for a leader that waits for it. -/
  | replied
  /-- `MT_ABOUT_EXIT` for a leader that is not stopped. -/
  | repliedRunning
  /-- `MT_ABOUT_EXIT` for a stopped leader that is queued, or that waits for its child. -/
  | repliedHeld
  /-- `MT_ABOUT_EXIT` for any other stopped leader. -/
  | strayReply
  /-- `do_clone` continues a process whose end was announced. -/
  | clonedAboutExit
  /-- `do_clone` continues a task that is queued. -/
  | clonedQueued
  /-- The connection ends and releases a task that is queued, or that waits for its child. -/
  | closedHeld
  /-- The connection ends and releases a task that is not stopped. -/
  | closedRunning
  /-- `continue_task` of a task that is queued. -/
  | continuedQueued
  /-- A single step of a breakpoint that replaced a break instruction. -/
  | breakInsn
  /-- A hit that ends a call was skipped already and starts another call. -/
  | skippedEntry
  /-- The first stop of a new task is neither its `SIGSTOP` nor its end. -/
  | newUnexpected
  /-- The end of a stopped task replaces a breakpoint event that was not handled. -/
  | overwritten
  /-- A task is continued and its breakpoint event was not handled. -/
  | droppedEvent
  /-- A breakpoint is deleted while a task waits for its call to return there. -/
  | deletedPending
  deriving DecidableEq, Repr

/-! ## The state -/

structure State where
  task : TaskId → Task
  next : TaskId
  /-- `pid_hash`, in the order of `insert_pid`. -/
  live : List TaskId
  /-- `list_of_leaders`. -/
  leaders : List TaskId
  bp : BpId → Breakpoint
  nextBp : BpId
  /-- `event_head`. -/
  queue : Links TaskId
  inputs : List Input
  owned : List TaskId
  handling : Option (TaskId × BpId)
  held : List BpId
  marks : List Mark

namespace State

/-- The server before the first task, with the answers it will get. -/
def start (inputs : List Input) : State :=
  ⟨fun _ => {}, 0, [], [], fun _ => {}, 0, .empty, inputs, [], none, [], []⟩

def setTask (s : State) (t : TaskId) (f : Task → Task) : State :=
  { s with task := Function.update s.task t (f (s.task t)) }

def setBp (s : State) (b : BpId) (f : Breakpoint → Breakpoint) : State :=
  { s with bp := Function.update s.bp b (f (s.bp b)) }

def mark (s : State) (m : Mark) : State := { s with marks := m :: s.marks }

def markIf (s : State) (c : Prop) [Decidable c] (m : Mark) : State := if c then s.mark m else s

/-- A stopped task gets into the hands of the server. -/
def take (s : State) (t : TaskId) : State := { s with owned := t :: s.owned }

/-- It leaves them. -/
def drop (s : State) (t : TaskId) : State := { s with owned := s.owned.filter (· ≠ t) }

/-- `pid2task`. -/
def pid2task (s : State) (pid : UInt32) : Option TaskId :=
  s.live.find? fun t => (s.task t).pid = pid

/-- The memory of a leader is free, but `list_of_leaders` still has it: `delete_task`, unlike
`task_destroy`, does not take it out. -/
def freed (s : State) (t : TaskId) : Bool := t ∉ s.live ∧ (s.task t).deleted = false

/-- The leaders before and after this one in `list_of_leaders`. -/
def neighbours (s : State) (t : TaskId) : List TaskId :=
  (s.leaders.takeWhile (· ≠ t)).getLast?.toList ++
    (s.leaders.dropWhile (· ≠ t)).tail.head?.toList

/-- `task_list` of a leader. -/
def others (s : State) (leader : TaskId) : List TaskId :=
  s.live.filter fun t => (s.task t).leader = leader ∧ t ≠ leader

/-- A task that `task_destroy` was not called for. -/
def Member (s : State) (t : TaskId) : Prop := t ∈ s.live ∧ (s.task t).deleted = false

instance (s : State) (t : TaskId) : Decidable (s.Member t) := by unfold Member; infer_instance

/-- A stopped task whose deferred child will continue it. -/
def Parent (s : State) (t : TaskId) : Prop := ∃ n ∈ s.live, (s.task n).deferred = some t

instance (s : State) (t : TaskId) : Decidable (s.Parent t) := by unfold Parent; infer_instance

section Fields

variable (s : State) (t p : TaskId) (b c : BpId) (f : Task → Task) (g : Breakpoint → Breakpoint)
  (m : Mark)

@[simp] theorem setTask_task_self : (s.setTask t f).task t = f (s.task t) :=
  Function.update_self _ _ _

theorem setTask_task : (s.setTask t f).task p = if p = t then f (s.task t) else s.task p :=
  Function.update_apply _ _ _ _

@[simp] theorem setTask_task_of_ne (h : p ≠ t) : (s.setTask t f).task p = s.task p :=
  Function.update_of_ne h _ _

@[simp] theorem setTask_next : (s.setTask t f).next = s.next := rfl
@[simp] theorem setTask_live : (s.setTask t f).live = s.live := rfl
@[simp] theorem setTask_leaders : (s.setTask t f).leaders = s.leaders := rfl
@[simp] theorem setTask_bp : (s.setTask t f).bp = s.bp := rfl
@[simp] theorem setTask_nextBp : (s.setTask t f).nextBp = s.nextBp := rfl
@[simp] theorem setTask_queue : (s.setTask t f).queue = s.queue := rfl
@[simp] theorem setTask_inputs : (s.setTask t f).inputs = s.inputs := rfl
@[simp] theorem setTask_owned : (s.setTask t f).owned = s.owned := rfl
@[simp] theorem setTask_handling : (s.setTask t f).handling = s.handling := rfl
@[simp] theorem setTask_held : (s.setTask t f).held = s.held := rfl
@[simp] theorem setTask_marks : (s.setTask t f).marks = s.marks := rfl

@[simp] theorem setBp_bp_self : (s.setBp b g).bp b = g (s.bp b) := Function.update_self _ _ _

theorem setBp_bp : (s.setBp b g).bp c = if c = b then g (s.bp b) else s.bp c :=
  Function.update_apply _ _ _ _

@[simp] theorem setBp_task : (s.setBp b g).task = s.task := rfl
@[simp] theorem setBp_next : (s.setBp b g).next = s.next := rfl
@[simp] theorem setBp_live : (s.setBp b g).live = s.live := rfl
@[simp] theorem setBp_nextBp : (s.setBp b g).nextBp = s.nextBp := rfl
@[simp] theorem setBp_queue : (s.setBp b g).queue = s.queue := rfl
@[simp] theorem setBp_inputs : (s.setBp b g).inputs = s.inputs := rfl
@[simp] theorem setBp_owned : (s.setBp b g).owned = s.owned := rfl
@[simp] theorem setBp_handling : (s.setBp b g).handling = s.handling := rfl
@[simp] theorem setBp_held : (s.setBp b g).held = s.held := rfl
@[simp] theorem setBp_marks : (s.setBp b g).marks = s.marks := rfl

@[simp] theorem mark_task : (s.mark m).task = s.task := rfl
@[simp] theorem mark_next : (s.mark m).next = s.next := rfl
@[simp] theorem mark_live : (s.mark m).live = s.live := rfl
@[simp] theorem mark_bp : (s.mark m).bp = s.bp := rfl
@[simp] theorem mark_nextBp : (s.mark m).nextBp = s.nextBp := rfl
@[simp] theorem mark_queue : (s.mark m).queue = s.queue := rfl
@[simp] theorem mark_inputs : (s.mark m).inputs = s.inputs := rfl
@[simp] theorem mark_owned : (s.mark m).owned = s.owned := rfl
@[simp] theorem mark_handling : (s.mark m).handling = s.handling := rfl
@[simp] theorem mark_held : (s.mark m).held = s.held := rfl
@[simp] theorem mark_marks : (s.mark m).marks = m :: s.marks := rfl

@[simp] theorem markIf_task (c : Prop) [Decidable c] : (s.markIf c m).task = s.task := by
  unfold markIf
  split_ifs <;> rfl

@[simp] theorem markIf_next (c : Prop) [Decidable c] : (s.markIf c m).next = s.next := by
  unfold markIf
  split_ifs <;> rfl

@[simp] theorem markIf_live (c : Prop) [Decidable c] : (s.markIf c m).live = s.live := by
  unfold markIf
  split_ifs <;> rfl

@[simp] theorem markIf_bp (c : Prop) [Decidable c] : (s.markIf c m).bp = s.bp := by
  unfold markIf
  split_ifs <;> rfl

@[simp] theorem markIf_queue (c : Prop) [Decidable c] : (s.markIf c m).queue = s.queue := by
  unfold markIf
  split_ifs <;> rfl

@[simp] theorem markIf_owned (c : Prop) [Decidable c] : (s.markIf c m).owned = s.owned := by
  unfold markIf
  split_ifs <;> rfl

@[simp] theorem markIf_handling (c : Prop) [Decidable c] :
    (s.markIf c m).handling = s.handling := by
  unfold markIf
  split_ifs <;> rfl

@[simp] theorem markIf_held (c : Prop) [Decidable c] : (s.markIf c m).held = s.held := by
  unfold markIf
  split_ifs <;> rfl

theorem mem_markIf {c : Prop} [Decidable c] (h : c) : m ∈ (s.markIf c m).marks := by
  unfold markIf
  rw [if_pos h]
  exact List.mem_cons_self

@[simp] theorem take_task : (s.take t).task = s.task := rfl
@[simp] theorem take_next : (s.take t).next = s.next := rfl
@[simp] theorem take_live : (s.take t).live = s.live := rfl
@[simp] theorem take_bp : (s.take t).bp = s.bp := rfl
@[simp] theorem take_nextBp : (s.take t).nextBp = s.nextBp := rfl
@[simp] theorem take_queue : (s.take t).queue = s.queue := rfl
@[simp] theorem take_inputs : (s.take t).inputs = s.inputs := rfl
@[simp] theorem take_owned : (s.take t).owned = t :: s.owned := rfl
@[simp] theorem take_handling : (s.take t).handling = s.handling := rfl
@[simp] theorem take_held : (s.take t).held = s.held := rfl
@[simp] theorem take_marks : (s.take t).marks = s.marks := rfl

@[simp] theorem drop_task : (s.drop t).task = s.task := rfl
@[simp] theorem drop_next : (s.drop t).next = s.next := rfl
@[simp] theorem drop_live : (s.drop t).live = s.live := rfl
@[simp] theorem drop_bp : (s.drop t).bp = s.bp := rfl
@[simp] theorem drop_nextBp : (s.drop t).nextBp = s.nextBp := rfl
@[simp] theorem drop_queue : (s.drop t).queue = s.queue := rfl
@[simp] theorem drop_inputs : (s.drop t).inputs = s.inputs := rfl
@[simp] theorem drop_handling : (s.drop t).handling = s.handling := rfl
@[simp] theorem drop_held : (s.drop t).held = s.held := rfl
@[simp] theorem drop_marks : (s.drop t).marks = s.marks := rfl

@[simp] theorem mem_drop_owned : p ∈ (s.drop t).owned ↔ p ∈ s.owned ∧ p ≠ t := by
  unfold drop
  rw [List.mem_filter, decide_eq_true_iff]

end Fields

end State

/-! ## The monad -/

abbrev Act := EStateM Halt State

/-- `assert`. -/
def check (holds : Bool) (place : Place) (expr : String) : Act Unit :=
  if holds then pure () else throw (.assertion place expr)

/-- The task behind a pointer. -/
def getTask (t : TaskId) : Act Task := do
  let s ← get
  if t ∈ s.live then pure (s.task t) else throw .crash

/-- The breakpoint behind a pointer. -/
def getBp (b : BpId) : Act Breakpoint := do
  let s ← get
  if (s.bp b).refcnt ≠ 0 then pure (s.bp b) else throw .crash

/-- The links of these leaders are read or written. -/
def touchLeaders (leaders : List TaskId) : Act Unit := do
  let s ← get
  if leaders.any s.freed then throw .crash else pure ()

/-- The next answer of the kernel. -/
def nextInput : Act Input := do
  let s ← get
  match s.inputs with
  | [] => throw .blocked
  | i :: inputs => do
    set { s with inputs }
    return i

end Mtrace.Tracer
