import Mathlib.Data.UInt
import Mtrace.Memtrace

/-!
# The reporters of the server

`report.c`: the functions the server intercepts and the messages it sends when one is entered and
when it returns.  A reporter reads the arguments, the return value and the memory of the traced
task, and takes a backtrace; its messages carry the pid of the process, so that only the operation
and the payload are kept here.

Arguments in registers are saved at the entry.  Those of a task of 32 bits on x86 are on its stack,
and each reporter reads them there when it is called. -/

namespace Mtrace.Server

/-- The options the reporters read, and the machine the server was built for. -/
structure Config where
  sanity : Bool
  btDepth : ℕ
  /-- Whether `unsigned long` has 64 bits. -/
  long64 : Bool
  bigEndian : Bool
  deriving DecidableEq, Repr

/-- A frame that unwinding yields: `backtrace_location_type` and `backtrace_get_ip`. -/
structure Frame where
  loader : Bool
  ip : UInt64
  deriving DecidableEq, Repr

/-- `saved_context`: the arguments of the call that are in registers, and the places of the others
on the stack of the task. -/
structure Context where
  reg : ℕ → Option UInt64
  place : ℕ → UInt64

/-- The arguments of x86-64 that are in registers. -/
def inRegs (param : ℕ → UInt64) : Context where
  reg := fun i => if i < 6 then some (param i) else none
  place := fun _ => 0

/-- The words of a task, where `copy_from_proc` gets one, and what a variable of the server happens
to hold if it gets none. -/
structure Words where
  word : UInt64 → UInt64
  copied : UInt64 → Bool
  stale : UInt64 → UInt64

/-- A task of which no word can be read. -/
def noWords : Words := ⟨fun _ => 0, fun _ => false, fun _ => 0⟩

/-- The state of a traced task that a reporter reads, with `fetch_retval` and the frames up to the
one from which `backtrace_step` fails (none if `backtrace_init_unwind` does). -/
structure Task where
  pid : UInt32
  is64bit : Bool
  inRealloc : Bool
  saved : Context
  retval : UInt64
  mem : Words
  frames : List Frame

/-- `struct library_symbol`. -/
structure LibrarySymbol where
  addr : UInt64
  deriving DecidableEq, Repr

abbrev Message := MtOperation × MtAllocPayload

/-- What a reporter does: the task afterwards and the messages, or an assertion that fails. -/
abbrev Reporter := Config → LibrarySymbol → Task → Except String (Task × List Message)

/-- An `unsigned long` of the server. -/
def Config.ulong (cfg : Config) (n : UInt64) : UInt64 :=
  if cfg.long64 then n else n.toUInt32.toUInt64

/-- `MAP_FAILED` as an `unsigned long` of the server. -/
def Config.mapFailed (cfg : Config) : UInt64 := cfg.ulong 0xffffffffffffffff

/-- The cast to a field of the payload for the width of the task. -/
def Task.narrow (t : Task) (n : UInt64) : UInt64 :=
  if t.is64bit then n else n.toUInt32.toUInt64

/-- What a variable holds into which `copy_from_proc` is to copy a word; whether it fails is not
looked at. -/
def Task.peek (t : Task) (addr : UInt64) : UInt64 :=
  t.narrow (if t.mem.copied addr then t.mem.word addr else t.mem.stale addr)

/-- `fetch_param`: what is on the stack is read again by each call. -/
def Task.param (t : Task) (i : ℕ) : UInt64 := (t.saved.reg i).getD (t.peek (t.saved.place i))

/-! ## Payloads -/

/-- The loop that fills `data` of the payload, behind the address of the symbol. -/
def backtrace (t : Task) (depth : ℕ) : List UInt64 → List Frame → List UInt64
  | data, [] => data
  | data, f :: fs =>
    if depth ≤ data.length then data
    else if f.loader then backtrace t depth data fs
    else if data.getLast? = some (t.narrow f.ip) then backtrace t depth data fs
    else if t.narrow f.ip = 0 then data
    else backtrace t depth (data ++ [t.narrow f.ip]) fs

/-- A word of the payload as it is sent. -/
def Config.bytes (cfg : Config) (t : Task) (n : UInt64) : List UInt8 :=
  let le := (List.range (if t.is64bit then 8 else 4)).map fun i =>
    (n >>> (8 * i.toUInt64)).toUInt8
  if cfg.bigEndian then le.reverse else le

/-- `report_alloc64` and `report_alloc32`. -/
def reportAllocSized (cfg : Config) (t : Task) (op : MtOperation) (ptr size : UInt64) (depth : ℕ)
    (libsym : LibrarySymbol) : List Message :=
  let data := if depth = 0 then [] else backtrace t depth [t.narrow libsym.addr] t.frames
  [(op, ⟨t.narrow ptr, t.narrow size, data.flatMap (cfg.bytes t)⟩)]

def reportAlloc (cfg : Config) (t : Task) (op : MtOperation) (ptr size : UInt64) (depth : ℕ)
    (libsym : LibrarySymbol) : List Message :=
  if ptr = 0 then [] else reportAllocSized cfg t op ptr size depth libsym

/-! ## Reporters -/

/-- `_report_alloc_op`. -/
def reportAllocOp (op : MtOperation) : Reporter := fun cfg libsym t =>
  .ok (t, reportAlloc cfg t op t.retval (t.param 0) cfg.btDepth libsym)

/-- `_report_malloc`. -/
def reportMallocOut : Reporter := reportAllocOp .malloc

/-- `_report_reallocarray`. -/
def reportReallocarrayOut : Reporter := fun cfg libsym t =>
  .ok (t, reportAlloc cfg t .malloc t.retval (cfg.ulong (t.param 1 * t.param 2)) cfg.btDepth libsym)

/-- `_report_new`. -/
def reportNewOut : Reporter := fun cfg =>
  reportAllocOp (if cfg.sanity then .new else .malloc) cfg

/-- `_report_new_array`. -/
def reportNewArrayOut : Reporter := fun cfg =>
  reportAllocOp (if cfg.sanity then .newArray else .malloc) cfg

/-- `_report_free_op`. -/
def reportFreeOp (op : MtOperation) : Reporter := fun cfg libsym t =>
  .ok (t, reportAlloc cfg t op (t.param 0) 0 (if cfg.sanity then cfg.btDepth else 0) libsym)

def reportFree : Reporter := reportFreeOp .free

def reportDelete : Reporter := fun cfg =>
  reportFreeOp (if cfg.sanity then .delete else .free) cfg

def reportDeleteArray : Reporter := fun cfg =>
  reportFreeOp (if cfg.sanity then .deleteArray else .free) cfg

/-- `_report_realloc`. -/
def reportReallocOut : Reporter := fun cfg libsym t =>
  let done := if t.retval ≠ 0 then
      reportAlloc cfg t .realloc t.retval (t.param 1) cfg.btDepth libsym
    else []
  if !t.inRealloc then .ok (t, done)
  else .ok ({ t with inRealloc := false },
    done ++ [(.reallocDone, ⟨t.narrow t.retval, t.narrow t.pid.toUInt64, []⟩)])

def reportRealloc : Reporter := fun cfg libsym t =>
  if t.inRealloc then .error "!task->in_realloc"
  else if t.param 0 ≠ 0 then
    .ok ({ t with inRealloc := true },
      reportAlloc cfg t .reallocEnter (t.param 0) t.pid.toUInt64
        (if cfg.sanity then cfg.btDepth else 0) libsym)
  else .ok (t, [])

/-- `_report_calloc`. -/
def reportCallocOut : Reporter := fun cfg libsym t =>
  .ok (t, reportAlloc cfg t .malloc t.retval (cfg.ulong (t.param 0 * t.param 1)) cfg.btDepth libsym)

/-- `_report_mmap`. -/
def reportMmapOut : Reporter := fun cfg libsym t =>
  if t.retval = cfg.mapFailed then .ok (t, [])
  else .ok (t, reportAlloc cfg t .mmap t.retval (t.param 1) cfg.btDepth libsym)

/-- The `union` of `_report_mmap64`: for a task of 32 bits its two words are the second and the
third argument, in the order of the host. -/
def mmap64Size (cfg : Config) (t : Task) : UInt64 :=
  if t.is64bit then t.param 1
  else if cfg.bigEndian then (t.param 1).toUInt32.toUInt64 <<< 32 ||| (t.param 2).toUInt32.toUInt64
  else (t.param 2).toUInt32.toUInt64 <<< 32 ||| (t.param 1).toUInt32.toUInt64

/-- `_report_mmap64`. -/
def reportMmap64Out : Reporter := fun cfg libsym t =>
  if t.retval = cfg.mapFailed then .ok (t, [])
  else .ok (t, reportAlloc cfg t .mmap64 t.retval (cfg.ulong (mmap64Size cfg t)) cfg.btDepth libsym)

def reportMunmap : Reporter := fun cfg libsym t =>
  .ok (t, reportAlloc cfg t .munmap (t.param 0) (t.param 1) 0 libsym)

/-- `_report_memalign`. -/
def reportMemalignOut : Reporter := fun cfg libsym t =>
  .ok (t, reportAlloc cfg t .memalign t.retval (t.param 1) cfg.btDepth libsym)

/-- `_report_posix_memalign`. -/
def reportPosixMemalignOut : Reporter := fun cfg libsym t =>
  if t.retval ≠ 0 then .ok (t, [])
  else .ok (t, reportAlloc cfg t .posixMemalign (t.peek (t.param 0)) (t.param 2) cfg.btDepth
    libsym)

/-- `_report_aligned_alloc`. -/
def reportAlignedAllocOut : Reporter := fun cfg libsym t =>
  .ok (t, reportAlloc cfg t .alignedAlloc t.retval (t.param 1) cfg.btDepth libsym)

/-- `_report_valloc`. -/
def reportVallocOut : Reporter := fun cfg libsym t =>
  .ok (t, reportAlloc cfg t .valloc t.retval (t.param 0) cfg.btDepth libsym)

/-- `_report_pvalloc`. -/
def reportPvallocOut : Reporter := fun cfg libsym t =>
  .ok (t, reportAlloc cfg t .pvalloc t.retval (t.param 0) cfg.btDepth libsym)

def reportMremap : Reporter := fun cfg libsym t =>
  .ok (t, reportAlloc cfg t .munmap (t.param 0) (t.param 1) 0 libsym)

/-- `_report_mremap`. -/
def reportMremapOut : Reporter := fun cfg libsym t =>
  .ok (t, reportAlloc cfg t .mmap t.retval (t.param 2) cfg.btDepth libsym)

/-! ## The table of functions -/

/-- `struct function`, without what only matching and printing read. -/
structure Function where
  name : String
  reportIn : Option Reporter
  reportOut : Option Reporter

def flist : List Function := [
  ⟨"malloc", none, reportMallocOut⟩,
  ⟨"free", reportFree, none⟩,
  ⟨"realloc", reportRealloc, reportReallocOut⟩,
  ⟨"calloc", none, reportCallocOut⟩,
  ⟨"posix_memalign", none, reportPosixMemalignOut⟩,
  ⟨"mmap", none, reportMmapOut⟩,
  ⟨"mmap64", none, reportMmap64Out⟩,
  ⟨"munmap", reportMunmap, none⟩,
  ⟨"memalign", none, reportMemalignOut⟩,
  ⟨"aligned_alloc", none, reportAlignedAllocOut⟩,
  ⟨"valloc", none, reportVallocOut⟩,
  ⟨"pvalloc", none, reportPvallocOut⟩,
  ⟨"mremap", reportMremap, reportMremapOut⟩,
  ⟨"cfree", reportFree, none⟩,
  ⟨"reallocarray", none, reportReallocarrayOut⟩,
  ⟨"_Znwj", none, reportNewOut⟩,
  ⟨"_Znaj", none, reportNewArrayOut⟩,
  ⟨"_ZnwjRKSt9nothrow_t", none, reportNewOut⟩,
  ⟨"_ZnajRKSt9nothrow_t", none, reportNewArrayOut⟩,
  ⟨"_Znwm", none, reportNewOut⟩,
  ⟨"_Znam", none, reportNewArrayOut⟩,
  ⟨"_ZnwmRKSt9nothrow_t", none, reportNewOut⟩,
  ⟨"_ZnamRKSt9nothrow_t", none, reportNewArrayOut⟩,
  ⟨"_ZnwjSt11align_val_tRKSt9nothrow_t", none, reportNewOut⟩,
  ⟨"_ZnajSt11align_val_tRKSt9nothrow_t", none, reportNewArrayOut⟩,
  ⟨"_ZnwjSt11align_val_t", none, reportNewOut⟩,
  ⟨"_ZnajSt11align_val_t", none, reportNewArrayOut⟩,
  ⟨"_ZnwmSt11align_val_tRKSt9nothrow_t", none, reportNewOut⟩,
  ⟨"_ZnamSt11align_val_tRKSt9nothrow_t", none, reportNewArrayOut⟩,
  ⟨"_ZnwmSt11align_val_t", none, reportNewOut⟩,
  ⟨"_ZnamSt11align_val_t", none, reportNewArrayOut⟩,
  ⟨"_ZdlPv", reportDelete, none⟩,
  ⟨"_ZdaPv", reportDeleteArray, none⟩,
  ⟨"_ZdlPvRKSt9nothrow_t", reportDelete, none⟩,
  ⟨"_ZdaPvRKSt9nothrow_t", reportDeleteArray, none⟩,
  ⟨"_ZdlPvj", reportDelete, none⟩,
  ⟨"_ZdaPvj", reportDeleteArray, none⟩,
  ⟨"_ZdlPvm", reportDelete, none⟩,
  ⟨"_ZdaPvm", reportDeleteArray, none⟩,
  ⟨"_ZdlPvSt11align_val_t", reportDelete, none⟩,
  ⟨"_ZdaPvSt11align_val_t", reportDeleteArray, none⟩,
  ⟨"_ZdlPvSt11align_val_tRKSt9nothrow_t", reportDelete, none⟩,
  ⟨"_ZdaPvSt11align_val_tRKSt9nothrow_t", reportDeleteArray, none⟩,
  ⟨"_ZdlPvjSt11align_val_t", reportDelete, none⟩,
  ⟨"_ZdaPvjSt11align_val_t", reportDeleteArray, none⟩,
  ⟨"_ZdlPvmSt11align_val_t", reportDelete, none⟩,
  ⟨"_ZdaPvmSt11align_val_t", reportDeleteArray, none⟩]

/-- What a call leaves in the task when it returns. -/
structure Return where
  retval : UInt64
  mem : Words
  frames : List Frame

/-- The task at the return breakpoint, with the context saved at the entry. -/
def Task.returns (t : Task) (ret : Return) : Task :=
  { t with retval := ret.retval, mem := ret.mem, frames := ret.frames }

/-- The reporter of an event, if the function has one. -/
def reportBy (g : Option Reporter) (cfg : Config) (libsym : LibrarySymbol) (t : Task) :
    Except String (Task × List Message) :=
  match g with
  | some g => g cfg libsym t
  | none => .ok (t, [])

/-- The messages about one call, which enters in the task `t`. -/
def Function.messages (f : Function) (cfg : Config) (libsym : LibrarySymbol) (t : Task)
    (ret : Return) : Except String (List Message) := do
  let (t, ms) ← reportBy f.reportIn cfg libsym t
  let (_, ms') ← reportBy f.reportOut cfg libsym (t.returns ret)
  return ms ++ ms'

end Mtrace.Server
