import Mtrace.RbTree
import Mtrace.Memtrace
import Mathlib.Data.UInt

/-!
# The client's records

The structures of `client/process.h` and `client/process.c` on a host with 64-bit `unsigned long`.
A statistics counter is a `UInt64` and wraps as in C.  A reference counter is a natural number:
every reference is held by an object of the client's memory, so it stays far below `2 ^ 64`.

The nodes of a stack table are owned by their process and named by a `NodeId`, which is what a
`struct rb_stack *` becomes.  The `struct stack` behind a node is shared between processes after a
fork; all of it except its reference counter is fixed when it is created, so a node carries a copy
of the contents and the counters live in `Stacks`.
-/

namespace Mtrace.Client

open RbTree

/-- A `struct rb_stack *`. -/
abbrev NodeId := ℕ

/-- A `struct stack *`. -/
abbrev StackId := ℕ

/-- How the client ends before its time. -/
inductive Fault where
  /-- `fatal` prints the message and aborts. -/
  | fatal (msg : String)
  /-- A failed `assert`. -/
  | assertion (expr : String)
  /-- `abort` under the option `--kill`. -/
  | kill
  /-- A null pointer is dereferenced. -/
  | nullDeref
  /-- A stack node is accessed that is not in its table or was freed. -/
  | dangling
  deriving DecidableEq, Repr

/-- The faults that answer to the input of the client, not to a slip in its bookkeeping. -/
def Fault.external : Fault → Prop
  | .fatal msg => msg = "process_del_map" ∨ msg = "protocol violation"
  | .assertion expr => expr = "this->stack->operation == operation"
  | .kill | .nullDeref => True
  | .dangling => False

/-- The options of `options.h` the client's handlers read. -/
structure Options where
  kill : Bool
  interactive : Bool
  autoScan : Bool
  deriving DecidableEq, Repr

/-- `struct map` without the opened file, which `Env.binFileLookup` stands for. -/
structure Map where
  offset : UInt64
  addr : UInt64
  size : UInt64
  bias : UInt64
  filename : String
  deriving DecidableEq, Repr

/-- What the client knows beyond its own state: the byte order of its host, the symbols of the
files it can open and the patterns of its configuration. -/
structure Env where
  bigEndian : Bool
  /-- `open_map` followed by `bin_file_lookup`: no symbol without a file, and a symbol may lack a
  name.  In `Host.env` it is that of the files as they are, with the symbols in use. -/
  binFileLookup : Map → UInt64 → Option (Option String)
  /-- `regex_ignore_list`. -/
  regexIgnoreList : List (String → Bool)

/-- `BLOCK_LEAKED`. -/
def blockLeaked : UInt64 := 1

/-- `BLOCK_SCANNED`. -/
def blockScanned : UInt64 := 2

/-- `BLOCK_IGNORE`. -/
def blockIgnore : UInt64 := 4

/-- `struct rb_block`. -/
structure RbBlock where
  flags : UInt64
  addr : UInt64
  size : UInt64
  stackNode : NodeId
  deriving DecidableEq, Repr

/-- The test `flags & BLOCK_LEAKED`. -/
def RbBlock.leaked (b : RbBlock) : Bool := b.flags &&& blockLeaked != 0

/-- `struct stack` without its reference counter and the symbols it prints. -/
structure Stack where
  id : StackId
  addrs : List UInt8
  operation : MtOperation
  ignore : Bool
  deriving DecidableEq, Repr

/-- `struct rb_stack`. -/
structure RbStack where
  id : NodeId
  stack : Stack
  refcnt : ℕ
  leaks : UInt64
  nAllocations : UInt64
  totalAllocations : UInt64
  bytesUsed : UInt64
  bytesLeaked : UInt64
  tsc : UInt64
  nMismatched : UInt64
  nBadfree : UInt64
  deriving DecidableEq, Repr

/-- `struct realloc_entry`. -/
structure ReallocEntry where
  pid : UInt32
  addr : UInt64
  size : UInt64
  flags : UInt64
  stackNode : Option NodeId
  deriving DecidableEq, Repr

/-- `enum process_status`. -/
inductive ProcessStatus where
  | running
  | exit
  | exiting
  | ignore
  | detach
  deriving DecidableEq, Repr

/-- `struct process`; `nextNode` is the name the next `malloc` of a stack node gives out. -/
structure Process where
  status : ProcessStatus
  pid : UInt32
  filename : Option String
  bytesUsed : UInt64
  nAllocations : UInt64
  totalAllocations : UInt64
  leaks : UInt64
  leakedBytes : UInt64
  stackTrees : ℕ
  blockTable : RbRoot RbBlock
  stackTable : RbRoot RbStack
  mapList : List Map
  reallocList : List ReallocEntry
  tsc : UInt64
  tracing : Bool
  swapEndian : Bool
  is64bit : Bool
  attached : Bool
  nextNode : NodeId
  deriving DecidableEq, Repr

/-- The reference counters of the `struct stack`s; a freed one has counter `0`. -/
structure Stacks where
  refcnt : StackId → ℕ
  next : StackId

namespace Stacks

def empty : Stacks := ⟨fun _ => 0, 0⟩

def get (k : Stacks) (i : StackId) : Stacks :=
  { k with refcnt := Function.update k.refcnt i (k.refcnt i + 1) }

def put (k : Stacks) (i : StackId) : Stacks :=
  { k with refcnt := Function.update k.refcnt i (k.refcnt i - 1) }

theorem refcnt_get (k : Stacks) (i s : StackId) :
    (k.get i).refcnt s = k.refcnt s + if i = s then 1 else 0 := by
  by_cases h : i = s
  · subst h; simp [get]
  · simp [get, h, Function.update_of_ne (Ne.symm h)]

theorem refcnt_put (k : Stacks) (i s : StackId) :
    (k.put i).refcnt s = k.refcnt s - if i = s then 1 else 0 := by
  by_cases h : i = s
  · subst h; simp [put]
  · simp [put, h, Function.update_of_ne (Ne.symm h)]

/-- `malloc` of a `struct stack` with counter `0`. -/
def new (k : Stacks) : Stacks :=
  { refcnt := Function.update k.refcnt k.next 0, next := k.next + 1 }

end Stacks

namespace Process

/-- The blocks in the order of the table. -/
abbrev blocks (p : Process) : List RbBlock := p.blockTable.toList

/-- The stack nodes in the order of the table. -/
abbrev nodes (p : Process) : List RbStack := p.stackTable.toList

def ptrSize (p : Process) : ℕ := if p.is64bit then 8 else 4

/-- The node a pointer denotes. -/
def node? (p : Process) (i : NodeId) : Option RbStack := p.nodes.find? fun n => n.id = i

/-- Reading through a pointer to a stack node. -/
def deref (p : Process) (i : NodeId) : Except Fault RbStack :=
  match p.node? i with
  | some n => if n.refcnt = 0 then .error .dangling else .ok n
  | none => .error .dangling

/-- Writing through a pointer to a stack node. -/
def modifyNode (p : Process) (i : NodeId) (f : RbStack → RbStack) : Process :=
  { p with stackTable := p.stackTable.map fun n => if n.id = i then f n else n }

/-- `process->get_ulong`: a word in the byte order of the traced process. -/
def getUlong (env : Env) (p : Process) (bytes : List UInt8) : UInt64 :=
  let word := bytes.take p.ptrSize
  (if env.bigEndian != p.swapEndian then word.reverse else word).foldr
    (fun b v => b.toUInt64 + 256 * v) 0

end Process

end Mtrace.Client
