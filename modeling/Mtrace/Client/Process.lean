import Mtrace.Client.Record

/-!
# The ledger of a traced process

`client/process.c`: the block table, the stack table, the pending `realloc` calls and the counters
of one process, under the messages and commands that change them.  The functions keep the names of
the source.  Text that is only printed is left out; `Fault` is the outcome of every path on which
the source aborts, and `malloc` succeeds.
-/

namespace Mtrace.Client

open RbTree

/-! ## Backtraces -/

/-- `memcmp` over the first `n` bytes. -/
def memcmp : ℕ → List UInt8 → List UInt8 → Ordering
  | n + 1, a :: as, b :: bs =>
    if a < b then .lt else if b < a then .gt else memcmp n as bs
  | _, _, _ => .eq

def memncmp (p1 p2 : List UInt8) : Ordering :=
  match memcmp (if p1.length < p2.length then p1.length else p2.length) p1 p2 with
  | .eq => if p1.length < p2.length then .lt else if p2.length < p1.length then .gt else .eq
  | r => r

def locateMap (p : Process) (addr : UInt64) : Option Map :=
  p.mapList.find? fun m => decide (m.addr ≤ addr) && decide (addr < m.addr + m.size)

/-- The name of the symbol at `addr`.  Without a symbol the name of the map is taken, whether or
not there is a map. -/
def resolvAddress (env : Env) (p : Process) (addr : UInt64) : Except Fault (Option String) :=
  match locateMap p addr with
  | some m => .ok ((env.binFileLookup m addr).getD (some m.filename))
  | none => .error .nullDeref

/-- The addresses of a backtrace, `entries` of them. -/
def stackEntries (env : Env) (p : Process) (addrs : List UInt8) : List UInt64 :=
  (List.range (addrs.length / p.ptrSize)).map fun i => p.getUlong env (addrs.drop (i * p.ptrSize))

/-- `stack_resolv`: whether the backtrace is to be ignored. -/
def stackResolv (env : Env) (p : Process) (addrs : List UInt8) : Except Fault Bool := do
  let syms ← (stackEntries env p addrs).mapM (resolvAddress env p)
  return syms.any fun sym => sym.any fun s => env.regexIgnoreList.any fun re => re s

def stackGet (k : Stacks) (p : Process) (i : NodeId) : Except Fault (Stacks × Process) := do
  let n ← p.deref i
  return (k.get n.stack.id, p.modifyNode i fun n => { n with refcnt := n.refcnt + 1 })

def stackPut (k : Stacks) (p : Process) (i : NodeId) : Except Fault (Stacks × Process) := do
  let n ← p.deref i
  return (k.put n.stack.id, p.modifyNode i fun n => { n with refcnt := n.refcnt - 1 })

/-- The comparison that places a backtrace in the stack table. -/
def stackCut (addrs : List UInt8) (n : RbStack) : Ordering := memncmp addrs n.stack.addrs

/-- Links a node whose only reference is its place in the table, and whose `struct stack` has
just got one more. -/
def Process.linkNode (p : Process) (n : RbStack) : Process :=
  { p with
    stackTable := (p.stackTable.gap (stackCut n.stack.addrs)).insertNew n
    stackTrees := p.stackTrees + 1
    nextNode := p.nextNode + 1 }

/-- `stack_clone`: the node of `process` for the backtrace of a node of another process. -/
def stackClone (k : Stacks) (p : Process) (n : RbStack) : Stacks × Process × NodeId :=
  match p.stackTable.find (stackCut n.stack.addrs) with
  | some x => (k, p, x.val.id)
  | none => (k.get n.stack.id, p.linkNode { n with id := p.nextNode, refcnt := 1 }, p.nextNode)

/-- `stack_add`: the node for a backtrace reported with `operation`.  The caller sets `tsc`. -/
def stackAdd (env : Env) (k : Stacks) (p : Process) (addrs : List UInt8)
    (operation : MtOperation) : Except Fault (Stacks × Process × NodeId) :=
  match p.stackTable.find (stackCut addrs) with
  | some x =>
    if x.val.stack.operation = operation then .ok (k, p, x.val.id)
    else .error (.assertion "this->stack->operation == operation")
  | none => do
    let ignore ← stackResolv env p addrs
    let n : RbStack :=
      { id := p.nextNode, stack := { id := k.next, addrs, operation, ignore }, refcnt := 1,
        leaks := 0, nAllocations := 0, totalAllocations := 0, bytesUsed := 0, bytesLeaked := 0,
        tsc := 0, nMismatched := 0, nBadfree := 0 }
    return (k.new.get k.next, p.linkNode n, p.nextNode)

/-! ## Blocks -/

/-- Whether a block starts in the range, computed as the source does: a range that reaches the end
of the address space has its end at `0` or above and holds nothing. -/
def startsIn (addr size : UInt64) (b : RbBlock) : Bool :=
  decide (addr ≤ b.addr) && decide (b.addr < addr + (if size = 0 then 1 else size))

def rangeCut (addr size : UInt64) (b : RbBlock) : Ordering :=
  if startsIn addr size b then .eq else if addr < b.addr then .lt else .gt

def addrCut (addr : UInt64) (b : RbBlock) : Ordering :=
  if addr = b.addr then .eq else if addr < b.addr then .lt else .gt

/-- The descent of `process_rb_insert_block`: equal addresses go to the right. -/
def insertCut (addr : UInt64) (b : RbBlock) : Ordering :=
  if addr < b.addr then .lt else .gt

def processRbSearchRange (t : RbRoot RbBlock) (addr size : UInt64) : Option (Loc RbBlock) :=
  t.find (rangeCut addr size)

def processRbSearch (t : RbRoot RbBlock) (addr : UInt64) : Option (Loc RbBlock) :=
  t.find (addrCut addr)

/-- `process_release_mem`, whose third parameter is an `unsigned int`. -/
def processReleaseMem (p : Process) (block : RbBlock) (size : UInt32) : Process × RbBlock :=
  let (p, block) :=
    if block.leaked then
      let p := p.modifyNode block.stackNode fun n =>
        { n with leaks := n.leaks - 1, bytesLeaked := n.bytesLeaked - block.size }
      ({ p with leaks := p.leaks - 1, leakedBytes := p.leakedBytes - block.size },
        { block with flags := block.flags &&& ~~~blockLeaked })
    else (p, block)
  let p := p.modifyNode block.stackNode fun n =>
    { n with bytesUsed := n.bytesUsed - size.toUInt64 }
  ({ p with bytesUsed := p.bytesUsed - size.toUInt64 }, block)

def processRbDeleteBlock (k : Stacks) (p : Process) (x : Loc RbBlock) :
    Except Fault (Stacks × Process) :=
  let p := { p with blockTable := x.erase }
  let (p, block) := processReleaseMem p x.val x.val.size.toUInt32
  let p := { p with nAllocations := p.nAllocations - 1 }
  let p := p.modifyNode block.stackNode fun n => { n with nAllocations := n.nAllocations - 1 }
  stackPut k p block.stackNode

/-- `process_rb_insert_block`; a collision on the way down is only printed without `--kill`. -/
def processRbInsertBlock (o : Options) (k : Stacks) (p : Process) (addr size : UInt64)
    (stack : NodeId) (flags : UInt64) : Except Fault (Stacks × Process) :=
  let place := p.blockTable.gap (insertCut addr)
  if o.kill && place.entries.any (startsIn addr size) then .error .kill
  else do
    let p := p.modifyNode stack fun n =>
      { n with
        nAllocations := n.nAllocations + 1
        totalAllocations := n.totalAllocations + 1
        bytesUsed := n.bytesUsed + size }
    let (k, p) ← stackGet k p stack
    return (k, { p with
      blockTable := place.insertNew { flags, addr, size, stackNode := stack }
      nAllocations := p.nAllocations + 1 })

/-! ## Pending `realloc` calls -/

def reallocAdd (k : Stacks) (p : Process) (re : ReallocEntry) :
    Except Fault (Stacks × Process) := do
  let (k, p) ← match re.stackNode with
    | some i => stackGet k p i
    | none => .ok (k, p)
  return (k, { p with reallocList := p.reallocList ++ [re] })

/-- `realloc_del` of the entry between `before` and `after`. -/
def reallocDel (k : Stacks) (p : Process) (before : List ReallocEntry) (re : ReallocEntry)
    (after : List ReallocEntry) : Except Fault (Stacks × Process) := do
  let (k, p) ← match re.stackNode with
    | some i => stackPut k p i
    | none => .ok (k, p)
  return (k, { p with reallocList := before ++ after })

/-! ## Maps -/

def processAddMap (p : Process) (m : Map) : Process :=
  { p with
    filename := if p.mapList.isEmpty then some m.filename else p.filename
    mapList := p.mapList ++ [m] }

def processDelMap (p : Process) (m : MtMapPayload) : Except Fault Process :=
  let same (x : Map) := x.addr == m.addr && x.offset == m.offset && x.size == m.size
  if p.mapList.any same then .ok { p with mapList := p.mapList.eraseP same }
  else .error (.fatal "process_del_map")

/-! ## Resetting -/

def processInit (p : Process) (swapEndian is64bit attached : Bool) : Process :=
  { p with is64bit, attached, swapEndian, status := .running, filename := none }

/-- The walk of `process_reset_allocations` over the blocks. -/
def resetBlocks : List RbBlock → Stacks → Process → Except Fault (Stacks × Process)
  | [], k, p => .ok (k, p)
  | b :: bs, k, p => do
    let p := { p with nAllocations := p.nAllocations - 1 }
    let p := p.modifyNode b.stackNode fun n => { n with nAllocations := n.nAllocations - 1 }
    let (k, p) ← stackPut k p b.stackNode
    resetBlocks bs k p

/-- The walk of `process_reset_allocations` over the pending `realloc` calls. -/
def resetReallocs : List ReallocEntry → Stacks → Process → Except Fault (Stacks × Process)
  | [], k, p => .ok (k, p)
  | re :: res, k, p => do
    let (k, p) ← reallocDel k p [] re res
    resetReallocs res k p

def processResetAllocations (k : Stacks) (p : Process) : Except Fault (Stacks × Process) := do
  let (k, p) ← resetBlocks p.blockTable.postorder k p
  if p.nAllocations ≠ 0 then .error (.fatal "invalid allocation count!\n")
  else do
    let p := { p with blockTable := .nil }
    let (k, p) ← resetReallocs p.reallocList k p
    return (k, { p with
      totalAllocations := 0, bytesUsed := 0, leaks := 0, leakedBytes := 0, tsc := 0 })

/-- The walk of `process_reset` over the stack nodes. -/
def resetStacks : List NodeId → Stacks → Process → Except Fault (Stacks × Process)
  | [], k, p => .ok (k, p)
  | i :: is, k, p => do
    let n ← p.deref i
    if n.refcnt ≠ 1 then .error (.fatal "unexpected stack tree ref count!\n")
    else do
      let (k, p) ← stackPut k p i
      resetStacks is k { p with stackTrees := p.stackTrees - 1 }

def processReset (k : Stacks) (p : Process) : Except Fault (Stacks × Process) := do
  let (k, p) ← processResetAllocations k p
  let (k, p) ← resetStacks (p.stackTable.postorder.map (·.id)) k p
  if p.stackTrees ≠ 0 then .error (.fatal "invalid stack tree count!\n")
  else .ok (k, { p with stackTable := .nil, mapList := [], filename := none })

def processReinit (k : Stacks) (p : Process) (swapEndian is64bit attached : Bool) :
    Except Fault (Stacks × Process) := do
  let (k, p) ← processReset k p
  return (k, processInit p swapEndian is64bit attached)

def processNew (pid : UInt32) (swapEndian tracing : Bool) : Process :=
  { status := .running, pid, filename := none, bytesUsed := 0, nAllocations := 0,
    totalAllocations := 0, leaks := 0, leakedBytes := 0, stackTrees := 0, blockTable := .nil,
    stackTable := .nil, mapList := [], reallocList := [], tsc := 0, tracing, swapEndian,
    is64bit := false, attached := false, nextNode := 0 }

/-! ## Duplication -/

/-- `process_rb_duplicate_block` for a block of `copy`. -/
def processRbDuplicateBlock (o : Options) (copy : Process) (k : Stacks) (p : Process)
    (block : RbBlock) : Except Fault (Stacks × Process) := do
  let n ← copy.deref block.stackNode
  let (k, p, stack) := stackClone k p n
  let (k, p) ← processRbInsertBlock o k p block.addr block.size stack block.flags
  return (k, { p with bytesUsed := p.bytesUsed + block.size })

/-- `rb_iterate` with `process_rb_duplicate_block`, which returns `0`. -/
def duplicateBlocks (o : Options) (copy : Process) :
    List RbBlock → Stacks → Process → Except Fault (Stacks × Process)
  | [], k, p => .ok (k, p)
  | b :: bs, k, p => do
    let (k, p) ← processRbDuplicateBlock o copy k p b
    duplicateBlocks o copy bs k p

/-- `process_duplicate` behind its reset. -/
def duplicateFrom (o : Options) (copy : Process) (k : Stacks) (p : Process) :
    Except Fault (Stacks × Process) := do
  let p := processInit p copy.swapEndian copy.is64bit copy.attached
  let (k, p) ← duplicateBlocks o copy copy.blockTable.postorder k p
  if copy.bytesUsed ≠ p.bytesUsed then
    .error (.assertion "copy->bytes_used == process->bytes_used")
  else if copy.nAllocations ≠ p.nAllocations then
    .error (.assertion "copy->n_allocations == process->n_allocations")
  else
    let p := copy.mapList.foldl processAddMap p
    .ok (k, { p with totalAllocations := copy.totalAllocations, tsc := copy.tsc })

/-- `process_duplicate`; `copy` may be missing, and it may be `process` itself, which has been
reset by the time it is read. -/
def processDuplicate (o : Options) (k : Stacks) (p : Process) (copy : Option Process) :
    Except Fault (Stacks × Process) := do
  let (k, p) ← processReset k p
  match copy with
  | none => .error .nullDeref
  | some c => duplicateFrom o (if c.pid = p.pid then p else c) k p

/-! ## Dumps -/

/-- The references `_process_dump` takes before it prints. -/
def dumpGet : List NodeId → Stacks → Process → Except Fault (Stacks × Process)
  | [], k, p => .ok (k, p)
  | i :: is, k, p => do
    let (k, p) ← stackGet k p i
    dumpGet is k p

/-- The references `_process_dump` drops at its end. -/
def dumpPut : List NodeId → Stacks → Process → Except Fault (Stacks × Process)
  | [], k, p => .ok (k, p)
  | i :: is, k, p => do
    let (k, p) ← stackPut k p i
    dumpPut is k p

/-- The start of `_process_dump`, up to its first line of output; the array is the last part. -/
def dumpBegin (k : Stacks) (p : Process) : Except Fault (Stacks × Process × List NodeId) :=
  if p.stackTrees = 0 then .ok (k, p, [])
  else do
    let arr := p.nodes.map (·.id)
    let (k, p) ← dumpGet arr k p
    if p.stackTrees ≠ arr.length then .error (.fatal "invalid stack tree count!\n")
    else .ok (k, p, arr)

/-- `process_dump_sortby`, which writes to a file and does not wait. -/
def processDumpSortby (k : Stacks) (p : Process) : Except Fault (Stacks × Process) := do
  let (k, p, arr) ← dumpBegin k p
  dumpPut arr k p

/-! ## Messages -/

/-- The loop of `process_scan`. -/
def scanBlocks : List UInt64 → Process → Except Fault Process
  | [], p => .ok p
  | a :: as, p =>
    match processRbSearch p.blockTable a with
    | none => scanBlocks as p
    | some x =>
      if x.val.leaked then scanBlocks as p
      else do
        let _ ← p.deref x.val.stackNode
        let p := { p with blockTable := x.set { x.val with flags := x.val.flags ||| blockLeaked } }
        let p := p.modifyNode x.val.stackNode fun n =>
          { n with leaks := n.leaks + 1, bytesLeaked := n.bytesLeaked + x.val.size }
        scanBlocks as
          { p with leaks := p.leaks + 1, leakedBytes := p.leakedBytes + x.val.size }

/-- `process_scan`; the last part says whether the process is to be removed. -/
def processScan (o : Options) (k : Stacks) (p : Process) (leaks : List UInt64) :
    Except Fault (Stacks × Process × Bool) := do
  let p ← scanBlocks leaks p
  if o.interactive then return (k, p, false)
  else do
    let (k, p) ← processDumpSortby k p
    return (k, p, true)

def isMmap (operation : MtOperation) : Bool :=
  operation == .mmap || operation == .mmap64

/-- The loop of `process_munmap`, with a bound on its passes. -/
def munmapLoop (o : Options) : ℕ → Stacks → Process → UInt64 → UInt64 →
    Except Fault (Stacks × Process)
  | 0, k, p, _, _ => .ok (k, p)
  | fuel + 1, k, p, ptr, size =>
    match processRbSearchRange p.blockTable ptr size with
    | none => .ok (k, p)
    | some x => do
      let n ← p.deref x.val.stackNode
      if !isMmap n.stack.operation then
        if o.kill then .error .kill else .ok (k, p)
      else if ptr ≤ x.val.addr then
        let off := (x.val.addr - ptr).toUInt32.toUInt64
        let size := size - off
        let ptr := ptr + off
        if size < x.val.size then
          let (p, block) := processReleaseMem p x.val size.toUInt32
          let block := { block with addr := block.addr + size, size := block.size - size }
          .ok (k, { p with blockTable := x.set block })
        else do
          let (k, p) ← processRbDeleteBlock k p x
          let size := size - x.val.size
          let ptr := ptr + x.val.size
          if size = 0 then .ok (k, p) else munmapLoop o fuel k p ptr size
      else
        let off := (ptr - x.val.addr).toUInt32.toUInt64
        if off + size < x.val.size then do
          let newAddr := x.val.addr + (off + size)
          let newSize := x.val.size - (off + size)
          let (p, block) := processReleaseMem p x.val (x.val.size - off - newSize).toUInt32
          let p := { p with blockTable := x.set { block with size := off } }
          let (k, p) ← processRbInsertBlock o k p newAddr newSize block.stackNode 0
          .ok (k, { p with
            nAllocations := p.nAllocations + 1
            totalAllocations := p.totalAllocations + 1
            bytesUsed := p.bytesUsed + newSize })
        else
          let (p, block) := processReleaseMem p x.val off.toUInt32
          let block := { block with addr := block.addr + off, size := block.size - off }
          let p := { p with blockTable := x.set block }
          let size := size - block.size
          let ptr := ptr + block.size
          if size = 0 then .ok (k, p) else munmapLoop o fuel k p ptr size

def processMunmap (o : Options) (k : Stacks) (p : Process) (m : MtAllocPayload) :
    Except Fault (Stacks × Process) :=
  if !p.tracing then .ok (k, p)
  else munmapLoop o (p.blockTable.size + 1) k p m.ptr m.size

/-- `is_sane` for a block allocated by `alloc` and released by `op`. -/
def isSane (alloc op : MtOperation) : Bool :=
  match alloc with
  | .malloc | .realloc | .memalign | .posixMemalign | .alignedAlloc | .valloc | .pvalloc =>
    op == .free || op == .reallocEnter
  | .new => op == .delete
  | .newArray => op == .deleteArray
  | _ => false

/-- Counts an event of the node `i` and stamps it. -/
def Process.stampNode (p : Process) (i : NodeId) (f : RbStack → RbStack) : Process :=
  let p' := p.modifyNode i fun n => { f n with tsc := p.tsc }
  { p' with tsc := p.tsc + 1 }

/-- Adds a backtrace for an event of `process_free`. -/
def noteStack (env : Env) (k : Stacks) (p : Process) (data : List UInt8) (op : MtOperation)
    (f : RbStack → RbStack) : Except Fault (Stacks × Process) := do
  let (k, p, stack) ← stackAdd env k p data op
  return (k, p.stampNode stack f)

/-- The check of `process_free` that a block is released by the operation for its kind. -/
def noteMismatch (env : Env) (k : Stacks) (p : Process) (data : List UInt8)
    (alloc op : MtOperation) : Except Fault (Stacks × Process) :=
  if !data.isEmpty && !isSane alloc op then
    noteStack env k p data op fun n => { n with nMismatched := n.nMismatched + 1 }
  else .ok (k, p)

/-- The report of `process_free` on an address without a block. -/
def noteBadfree (o : Options) (env : Env) (k : Stacks) (p : Process) (data : List UInt8)
    (op : MtOperation) : Except Fault (Stacks × Process) :=
  if p.attached then .ok (k, p)
  else if o.kill then .error .kill
  else if data.isEmpty then .ok (k, p)
  else noteStack env k p data op fun n => { n with nBadfree := n.nBadfree + 1 }

/-- The entry of `process_free` for a `realloc` that begins. -/
def enterRealloc (k : Stacks) (p : Process) (op : MtOperation) (re : ReallocEntry) :
    Except Fault (Stacks × Process) :=
  if op = .reallocEnter then reallocAdd k p re else .ok (k, p)

def processFree (o : Options) (env : Env) (k : Stacks) (p : Process) (op : MtOperation)
    (m : MtAllocPayload) : Except Fault (Stacks × Process) :=
  if !p.tracing then .ok (k, p)
  else if m.ptr = 0 then .ok (k, p)
  else match processRbSearch p.blockTable m.ptr with
    | some x => do
      let b := x.val
      let n ← p.deref b.stackNode
      if isMmap n.stack.operation && o.kill then .error .kill
      else do
        let (k, p) ← noteMismatch env k p m.data n.stack.operation op
        let (k, p) ←
          enterRealloc k p op ⟨m.size.toUInt32, b.addr, b.size, b.flags, some b.stackNode⟩
        processRbDeleteBlock k p x
    | none => do
      let (k, p) ← noteBadfree o env k p m.data op
      enterRealloc k p op ⟨m.size.toUInt32, 0, 0, 0, none⟩

/-- The first pending `realloc` of a thread, with what stands before and after it. -/
def findRealloc (pid : UInt32) :
    List ReallocEntry → Option (List ReallocEntry × ReallocEntry × List ReallocEntry)
  | [] => none
  | re :: res =>
    if re.pid = pid then some ([], re, res)
    else (findRealloc pid res).map fun (before, x, after) => (re :: before, x, after)

/-- The restoration of `process_realloc_done` after a `realloc` that failed. -/
def restoreBlock (o : Options) (k : Stacks) (p : Process) (ptr : UInt64) (re : ReallocEntry) :
    Except Fault (Stacks × Process) :=
  if ptr = 0 && re.addr != 0 then
    match re.stackNode with
    | some i => processRbInsertBlock o k p re.addr re.size i re.flags
    | none => .error .nullDeref
  else .ok (k, p)

/-- `process_realloc_done`; `m.size` is the thread, cut to an `unsigned int`. -/
def processReallocDone (o : Options) (k : Stacks) (p : Process) (m : MtAllocPayload) :
    Except Fault (Stacks × Process) :=
  if !p.tracing then .ok (k, p)
  else match findRealloc m.size.toUInt32 p.reallocList with
    | some (before, re, after) => do
      let (k, p) ← restoreBlock o k p m.ptr re
      reallocDel k p before re after
    | none => if o.kill then .error .kill else .ok (k, p)

/-- The loop of `process_alloc`, with a bound on its passes. -/
def evictLoop (o : Options) (ptr size : UInt64) :
    ℕ → Stacks → Process → Except Fault (Stacks × Process)
  | 0, k, p => .ok (k, p)
  | fuel + 1, k, p =>
    match processRbSearchRange p.blockTable ptr size with
    | none => .ok (k, p)
    | some x =>
      if o.kill then .error .kill
      else do
        let (k, p) ← processRbDeleteBlock k p x
        evictLoop o ptr size fuel k p

def processAlloc (o : Options) (env : Env) (k : Stacks) (p : Process) (op : MtOperation)
    (m : MtAllocPayload) : Except Fault (Stacks × Process) :=
  if !p.tracing then .ok (k, p)
  else do
    let (k, p) ← evictLoop o m.ptr m.size p.blockTable.size k p
    let (k, p, stack) ← stackAdd env k p m.data op
    let (k, p) ← processRbInsertBlock o k p m.ptr m.size stack 0
    let p := { p with
      totalAllocations := p.totalAllocations + 1
      bytesUsed := p.bytesUsed + m.size }
    .ok (k, p.stampNode stack id)

/-! ## Leak scans -/

/-- `SCAN_ALL`, `SCAN_LEAK` and `SCAN_NEW`. -/
inductive ScanMode where
  | all
  | leak
  | new
  deriving DecidableEq, Repr

/-- The flags a block must not have, and those it must have, to be scanned. -/
def ScanMode.masks : ScanMode → UInt64 × UInt64
  | .all => (blockIgnore, 0)
  | .leak => (blockIgnore, blockLeaked)
  | .new => (blockScanned ||| blockIgnore, 0)

/-- The tests of `set_block`. -/
def setBlockSelects (mode : ScanMode) (p : Process) (b : RbBlock) : Bool :=
  !((p.node? b.stackNode).any fun n => n.stack.ignore) &&
    b.flags &&& mode.masks.1 == 0 && b.flags &&& mode.masks.2 == mode.masks.2

/-- The effect of `process_leaks_scan` on the process: the selected blocks are marked. -/
def processLeaksScan (p : Process) (mode : ScanMode) : Process :=
  if p.nAllocations = 0 then p
  else { p with blockTable := p.blockTable.map fun b =>
    if setBlockSelects mode p b then { b with flags := b.flags ||| blockScanned } else b }

end Mtrace.Client
