import Mtrace.Client.Client
import Mtrace.Server.Report
import Mtrace.Spans

/-!
# The intercepted functions

What a call of an intercepted function does to the ranges the process holds, as its documentation
says, and the messages the reporters send about the call.

The ranges are those the program names in its calls.  An allocator may round a block up, which shows
neither in the arguments nor in the table; of the lengths given to `mmap`, `munmap` and `mremap` it
is assumed that they are whole pages, for it is pages that the kernel maps and unmaps. -/

namespace Mtrace

open Allocator Client Server

/-! ## What the functions do -/

/-- The intercepted functions by what they do. -/
inductive Api where
  | malloc
  | calloc
  | memalign
  | posixMemalign
  | realloc
  | reallocarray
  | free
  | mmap
  | mmap64
  | munmap
  | mremap
  deriving DecidableEq, Repr

/-- The function of a symbol. -/
def Api.ofSymbol : String → Option Api
  | "malloc" | "valloc" | "pvalloc" => some .malloc
  | "_Znwj" | "_Znaj" | "_ZnwjRKSt9nothrow_t" | "_ZnajRKSt9nothrow_t" | "_Znwm" | "_Znam"
  | "_ZnwmRKSt9nothrow_t" | "_ZnamRKSt9nothrow_t" | "_ZnwjSt11align_val_tRKSt9nothrow_t"
  | "_ZnajSt11align_val_tRKSt9nothrow_t" | "_ZnwjSt11align_val_t" | "_ZnajSt11align_val_t"
  | "_ZnwmSt11align_val_tRKSt9nothrow_t" | "_ZnamSt11align_val_tRKSt9nothrow_t"
  | "_ZnwmSt11align_val_t" | "_ZnamSt11align_val_t" => some .malloc
  | "calloc" => some .calloc
  | "memalign" | "aligned_alloc" => some .memalign
  | "posix_memalign" => some .posixMemalign
  | "realloc" => some .realloc
  | "reallocarray" => some .reallocarray
  | "free" | "cfree" => some .free
  | "_ZdlPv" | "_ZdaPv" | "_ZdlPvRKSt9nothrow_t" | "_ZdaPvRKSt9nothrow_t" | "_ZdlPvj" | "_ZdaPvj"
  | "_ZdlPvm" | "_ZdaPvm" | "_ZdlPvSt11align_val_t" | "_ZdaPvSt11align_val_t"
  | "_ZdlPvSt11align_val_tRKSt9nothrow_t" | "_ZdaPvSt11align_val_tRKSt9nothrow_t"
  | "_ZdlPvjSt11align_val_t" | "_ZdaPvjSt11align_val_t" | "_ZdlPvmSt11align_val_t"
  | "_ZdaPvmSt11align_val_t" => some .free
  | "mmap" => some .mmap
  | "mmap64" => some .mmap64
  | "munmap" => some .munmap
  | "mremap" => some .mremap
  | _ => none

/-- The arguments of a call, in registers and on the stack of the task that makes it. -/
def Server.Task.arg (t : Task) (i : ℕ) : UInt64 :=
  (t.saved.reg i).getD (t.narrow (t.mem.word (t.saved.place i)))

/-- A call: the task at its entry and what it returns. -/
structure Call where
  task : Task
  ret : Return

namespace Call

def param (c : Call) (i : ℕ) : UInt64 := c.task.arg i

/-- The arguments as the reporter at the entry reads them. -/
def entered (c : Call) (i : ℕ) : UInt64 := c.task.param i

/-- The arguments as the reporter at the return reads them. -/
def reread (c : Call) (i : ℕ) : UInt64 := (c.task.returns c.ret).param i

def retval (c : Call) : UInt64 := c.ret.retval

/-- The pointer `posix_memalign` has stored. -/
def stored (c : Call) : UInt64 := c.task.narrow (c.ret.mem.word (c.param 0))

/-- The pointer that the reporter of `posix_memalign` reads. -/
def peeked (c : Call) : UInt64 := (c.task.returns c.ret).peek (c.reread 0)

/-- The number of addresses the task has. -/
def limit (c : Call) : ℕ := if c.task.is64bit then 2 ^ 64 else 2 ^ 32

/-- `MAP_FAILED` as the task sees it. -/
def failed (c : Call) : UInt64 := c.task.narrow 0xffffffffffffffff

/-- `mremap` leaves the old mapping in place: `MREMAP_DONTUNMAP`, or a second mapping of shared
pages, which is asked for by an old size of `0`. -/
def keepsOld (c : Call) : Bool := c.param 1 == 0 || c.param 3 &&& 4 != 0

end Call

namespace Api

/-- The range the call has obtained. -/
def obtained (a : Api) (c : Call) : Option Span :=
  match a with
  | .malloc => if c.retval = 0 then none else some ⟨c.retval, c.param 0⟩
  | .calloc => if c.retval = 0 then none else some ⟨c.retval, c.param 0 * c.param 1⟩
  | .memalign => if c.retval = 0 then none else some ⟨c.retval, c.param 1⟩
  | .posixMemalign =>
    if c.retval ≠ 0 ∨ c.stored = 0 then none else some ⟨c.stored, c.param 2⟩
  | .realloc => if c.retval = 0 then none else some ⟨c.retval, c.param 1⟩
  | .reallocarray => if c.retval = 0 then none else some ⟨c.retval, c.param 1 * c.param 2⟩
  | .free => none
  | .mmap | .mmap64 => if c.retval = c.failed then none else some ⟨c.retval, c.param 1⟩
  | .munmap => none
  | .mremap => if c.retval = c.failed then none else some ⟨c.retval, c.param 2⟩

/-- The range the call unmaps. -/
def unmapped (a : Api) (c : Call) : Option Span :=
  match a with
  | .munmap => if c.retval = 0 then some ⟨c.param 0, c.param 1⟩ else none
  | .mremap =>
    if c.retval = c.failed ∨ c.keepsOld then none else some ⟨c.param 0, c.param 1⟩
  | _ => none

/-- The block the call releases: a `realloc` to size `0` that returns no block has freed the old
one. -/
def freed (a : Api) (c : Call) : Option UInt64 :=
  match a with
  | .realloc => if c.retval ≠ 0 ∨ c.param 1 = 0 then some (c.param 0) else none
  | .reallocarray =>
    if c.retval ≠ 0 ∨ c.param 1 = 0 ∨ c.param 2 = 0 then some (c.param 0) else none
  | .free => some (c.param 0)
  | _ => none

/-- The ranges without what the call has released. -/
def released (a : Api) (c : Call) (T : Set Span) : Set Span :=
  match a.freed c, a.unmapped c with
  | some p, _ => release p T
  | none, some R => cut R T
  | none, none => T

/-- The ranges after the call. -/
def effect (a : Api) (c : Call) (T : Set Span) : Set Span := placing (a.obtained c) (a.released c T)

/-- What the functions promise: words of the task, ranges in its address space, and products that do
not overflow. -/
structure Allows (a : Api) (c : Call) : Prop where
  param : ∀ i, (c.param i).toNat < c.limit
  retval : c.retval.toNat < c.limit
  obtained : ∀ x, a.obtained c = some x → x.last < c.limit
  unmapped : ∀ R, a.unmapped c = some R → R.size ≠ 0 ∧ R.last < c.limit
  calloc : a = .calloc → c.retval ≠ 0 → (c.param 0).toNat * (c.param 1).toNat < c.limit
  reallocarray : a = .reallocarray → c.retval ≠ 0 →
    (c.param 1).toNat * (c.param 2).toNat < c.limit

end Api

/-! ## The messages -/

namespace Api

/-- How many arguments are read when the call is entered. -/
def taken : Api → ℕ
  | .free | .realloc => 1
  | .munmap | .mremap => 2
  | _ => 0

/-- The size that is asked for. -/
def asked (a : Api) (c : Call) : UInt64 :=
  match a with
  | .malloc => c.param 0
  | .calloc => c.param 0 * c.param 1
  | .memalign | .realloc | .mmap | .mmap64 => c.param 1
  | .posixMemalign | .mremap => c.param 2
  | .reallocarray => c.param 1 * c.param 2
  | .free | .munmap => 0

/-- The size that is told of a range. -/
def told (a : Api) (cfg : Config) (c : Call) : UInt64 :=
  match a with
  | .malloc => c.reread 0
  | .calloc => c.task.narrow (c.reread 0 * c.reread 1)
  | .memalign | .realloc | .mmap => c.reread 1
  | .posixMemalign | .mremap => c.reread 2
  | .reallocarray => c.task.narrow (c.reread 1 * c.reread 2)
  | .mmap64 => if c.task.is64bit = false ∧ cfg.bigEndian then c.reread 2 else c.reread 1
  | .free | .munmap => 0

/-- The range that is told of when the call returns. -/
def reported (a : Api) (cfg : Config) (c : Call) : Option Span :=
  match a with
  | .malloc | .calloc | .memalign | .realloc | .reallocarray | .mremap =>
    if c.retval = 0 then none else some ⟨c.retval, a.told cfg c⟩
  | .posixMemalign =>
    if c.retval ≠ 0 ∨ c.peeked = 0 then none else some ⟨c.peeked, a.told cfg c⟩
  | .mmap | .mmap64 =>
    if c.retval = cfg.mapFailed ∨ c.retval = 0 then none else some ⟨c.retval, a.told cfg c⟩
  | .free | .munmap => none

end Api

/-- The message about a range that is given up. -/
def emit (op : MtOperation) (ptr size : UInt64) (data : List UInt8) : List Message :=
  if ptr = 0 then [] else [(op, ⟨ptr, size, data⟩)]

/-- The message about a range that was obtained. -/
def tell (op : MtOperation) (o : Option Span) (data : List UInt8) : List Message :=
  o.elim [] fun x => [(op, ⟨x.addr, x.size, data⟩)]

theorem emit_of_eq_zero {op : MtOperation} {ptr size : UInt64} {data : List UInt8} (h : ptr = 0) :
    emit op ptr size data = [] := if_pos h

theorem emit_of_ne_zero {op : MtOperation} {ptr size : UInt64} {data : List UInt8} (h : ptr ≠ 0) :
    emit op ptr size data = [(op, ⟨ptr, size, data⟩)] := if_neg h

theorem emit_eq_tell (op : MtOperation) (ptr size : UInt64) (data : List UInt8) :
    emit op ptr size data = tell op (if ptr = 0 then none else some ⟨ptr, size⟩) data := by
  unfold emit tell
  split_ifs <;> rfl

/-- The messages about a call, up to backtraces and the kind of allocation. -/
def Api.Emits (a : Api) (cfg : Config) (c : Call) (ms : List Message) : Prop :=
  match a with
  | .free =>
    ∃ op data, isFreeOp op = true ∧ op ≠ .reallocEnter ∧ ms = emit op (c.entered 0) 0 data
  | .munmap => ms = emit .munmap (c.entered 0) (c.entered 1) []
  | .mremap => ∃ data, ms =
      emit .munmap (c.entered 0) (c.entered 1) [] ++ tell .mmap (a.reported cfg c) data
  | .realloc => ∃ data data', ms =
      emit .reallocEnter (c.entered 0) c.task.pid.toUInt64 data ++
        tell .realloc (a.reported cfg c) data' ++
        if c.entered 0 = 0 then [] else [(.reallocDone, ⟨c.retval, c.task.pid.toUInt64, []⟩)]
  | _ => ∃ op data, isAllocOp op = true ∧ ms = tell op (a.reported cfg c) data

/-- The function sends these messages about every call it allows, when the thread is in no `realloc`
call. -/
def Api.Reports (a : Api) (f : Function) : Prop :=
  ∀ (cfg : Config) (c : Call) (libsym : LibrarySymbol), a.Allows c → c.task.inRealloc = false →
    (c.task.is64bit = true → cfg.long64 = true) →
    ∃ ms, f.messages cfg libsym c.task c.ret = .ok ms ∧ a.Emits cfg c ms

section Messages

variable {cfg : Config} {c : Call} {libsym : LibrarySymbol} {a : Api} {name : String}

theorem narrow_of_lt {t : Task} {n : UInt64}
    (h : n.toNat < if t.is64bit then 2 ^ 64 else 2 ^ 32) : t.narrow n = n := by
  unfold Task.narrow
  split
  · rfl
  next hb =>
    rw [if_neg hb] at h
    rw [← UInt64.toNat_inj, UInt32.toNat_toUInt64, UInt64.toNat_toUInt32, Nat.mod_eq_of_lt h]

theorem limit_le (c : Call) : c.limit ≤ 2 ^ 64 := by
  unfold Call.limit
  split
  · exact le_rfl
  · decide

theorem narrow_narrow (t : Task) (n : UInt64) : t.narrow (t.narrow n) = t.narrow n := by
  unfold Task.narrow
  split
  · rfl
  · rw [UInt32.toUInt32_toUInt64]

theorem narrow_peek (t : Task) (addr : UInt64) : t.narrow (t.peek addr) = t.peek addr :=
  narrow_narrow t _

theorem Api.Allows.narrow_param (h : a.Allows c) (i : ℕ) :
    c.task.narrow (c.param i) = c.param i := narrow_of_lt (h.param i)

/-- Whenever it is read, an argument is a word of the task. -/
theorem Api.Allows.narrow_fetch (h : a.Allows c) {t : Task} (hsaved : t.saved = c.task.saved)
    (hwidth : t.is64bit = c.task.is64bit) (i : ℕ) : c.task.narrow (t.param i) = t.param i := by
  have hnarrow (n : UInt64) : c.task.narrow n = t.narrow n := by
    unfold Task.narrow
    rw [hwidth]
  have hparam := h.narrow_param i
  unfold Call.param Server.Task.arg at hparam
  unfold Task.param
  rw [hsaved]
  cases hreg : c.task.saved.reg i with
  | some n =>
    rw [hreg] at hparam
    exact hparam
  | none => exact (hnarrow _).trans (narrow_peek t _)

theorem Api.Allows.narrow_entered (h : a.Allows c) (i : ℕ) :
    c.task.narrow (c.entered i) = c.entered i := h.narrow_fetch rfl rfl i

theorem Api.Allows.narrow_reread (h : a.Allows c) (i : ℕ) :
    c.task.narrow (c.reread i) = c.reread i := h.narrow_fetch (t := c.task.returns c.ret) rfl rfl i

theorem Api.Allows.narrow_retval (h : a.Allows c) : c.task.narrow c.retval = c.retval :=
  narrow_of_lt h.retval

/-- The `unsigned long` of the server has room for a word of the task. -/
theorem narrow_ulong (hw : c.task.is64bit = true → cfg.long64 = true) (n : UInt64) :
    c.task.narrow (cfg.ulong n) = c.task.narrow n := by
  unfold Config.ulong Task.narrow
  by_cases hl : cfg.long64 = true
  · rw [if_pos hl]
  · rw [if_neg hl, if_neg fun h64 => hl (hw h64), if_neg fun h64 => hl (hw h64),
      UInt32.toUInt32_toUInt64]

/-- A product that does not overflow is a word of the task. -/
theorem narrow_mul {m n : UInt64} (h : m.toNat * n.toNat < c.limit) :
    c.task.narrow (m * n) = m * n := by
  refine narrow_of_lt ?_
  rw [UInt64.toNat_mul, Nat.mod_eq_of_lt (h.trans_le (limit_le c))]
  exact h

theorem reportAlloc_eq (cfg : Config) (libsym : LibrarySymbol) (t : Task) (op : MtOperation)
    {ptr n size : UInt64} (depth : ℕ) (hp : t.narrow ptr = ptr) (hs : ptr ≠ 0 → t.narrow n = size) :
    ∃ data, reportAlloc cfg t op ptr n depth libsym = emit op ptr size data := by
  unfold reportAlloc emit reportAllocSized
  by_cases h : ptr = 0
  · exact ⟨[], by rw [if_pos h, if_pos h]⟩
  · simp only [if_neg h, hp, hs h]
    exact ⟨_, rfl⟩

theorem reportAlloc_zero {t : Task} {op : MtOperation} {ptr size : UInt64}
    (hp : t.narrow ptr = ptr) (hs : t.narrow size = size) :
    reportAlloc cfg t op ptr size 0 libsym = emit op ptr size [] := by
  unfold reportAlloc emit reportAllocSized
  rw [hp, hs]
  rfl

theorem messages_eq (f : Function) (t : Task) (ret : Return) :
    f.messages cfg libsym t ret = reportBy f.reportIn cfg libsym t >>= fun r =>
      reportBy f.reportOut cfg libsym (r.1.returns ret) >>= fun r' => .ok (r.2 ++ r'.2) := rfl

/-- A function that is reported when it returns. -/
theorem messages_out {g : Reporter} {t t' : Task} {ret : Return} {ms ms' : List Message}
    (h : g cfg libsym (t.returns ret) = .ok (t', ms)) (hms : ms = ms') :
    (⟨name, none, some g⟩ : Function).messages cfg libsym t ret = .ok ms' := by
  rw [messages_eq]
  show (g cfg libsym (t.returns ret) >>= fun r => .ok ([] ++ r.2)) = _
  rw [h, ← hms]
  rfl

/-- A function that is reported when it is entered. -/
theorem messages_in {g : Reporter} {t t' : Task} {ret : Return} {ms ms' : List Message}
    (h : g cfg libsym t = .ok (t', ms)) (hms : ms = ms') :
    (⟨name, some g, none⟩ : Function).messages cfg libsym t ret = .ok ms' := by
  rw [messages_eq]
  show (g cfg libsym t >>= fun r => .ok (r.2 ++ [])) = _
  rw [h, ← hms]
  exact congrArg Except.ok (List.append_nil ms)

/-- A function that is reported both when it is entered and when it returns. -/
theorem messages_both {g g' : Reporter} {t t' t'' : Task} {ret : Return} {ms ms' : List Message}
    (h : g cfg libsym t = .ok (t', ms)) (h' : g' cfg libsym (t'.returns ret) = .ok (t'', ms')) :
    (⟨name, some g, some g'⟩ : Function).messages cfg libsym t ret = .ok (ms ++ ms') := by
  rw [messages_eq]
  show (g cfg libsym t >>= fun r => g' cfg libsym (r.1.returns ret) >>= fun r' =>
    .ok (r.2 ++ r'.2)) = _
  rw [h]
  show (g' cfg libsym (t'.returns ret) >>= fun r' => .ok (ms ++ r'.2)) = _
  rw [h']
  rfl

/-- A function that is reported when it returns, with its return value as the address. -/
theorem reports_retval {op : Config → MtOperation} {size : Config → Task → UInt64}
    (hop : ∀ cfg, isAllocOp (op cfg) = true)
    (hem : ∀ cfg c ms, a.Emits cfg c ms ↔
      ∃ op data, isAllocOp op = true ∧ ms = tell op (a.reported cfg c) data)
    (hrep : ∀ cfg c, a.reported cfg c =
      if c.retval = 0 then none else some ⟨c.retval, a.told cfg c⟩)
    (htold : ∀ cfg c, a.Allows c → (c.task.is64bit = true → cfg.long64 = true) →
      c.task.narrow (size cfg (c.task.returns c.ret)) = a.told cfg c) :
    a.Reports ⟨name, none, some fun cfg libsym t =>
      .ok (t, reportAlloc cfg t (op cfg) t.retval (size cfg t) cfg.btDepth libsym)⟩ := by
  intro cfg c libsym ha _ hw
  obtain ⟨data, hdata⟩ := reportAlloc_eq cfg libsym (c.task.returns c.ret) (op cfg) cfg.btDepth
    ha.narrow_retval fun _ => htold cfg c ha hw
  refine ⟨_, messages_out rfl hdata, (hem cfg c _).mpr ⟨op cfg, data, hop cfg, ?_⟩⟩
  rw [hrep]
  exact emit_eq_tell _ _ _ _

theorem reports_malloc (name : String) (op : Config → MtOperation)
    (hop : ∀ cfg, isAllocOp (op cfg) = true) :
    Api.malloc.Reports ⟨name, none, some fun cfg libsym t =>
      .ok (t, reportAlloc cfg t (op cfg) t.retval (t.param 0) cfg.btDepth libsym)⟩ :=
  reports_retval hop (fun _ _ _ => Iff.rfl) (fun _ _ => rfl) fun _ _ ha _ => ha.narrow_reread 0

theorem reports_memalign (op : MtOperation) (hop : isAllocOp op = true) :
    Api.memalign.Reports ⟨name, none, some fun cfg libsym t =>
      .ok (t, reportAlloc cfg t op t.retval (t.param 1) cfg.btDepth libsym)⟩ :=
  reports_retval (fun _ => hop) (fun _ _ _ => Iff.rfl) (fun _ _ => rfl)
    fun _ _ ha _ => ha.narrow_reread 1

theorem reports_calloc : Api.calloc.Reports ⟨name, none, reportCallocOut⟩ :=
  reports_retval (fun _ => rfl) (fun _ _ _ => Iff.rfl) (fun _ _ => rfl)
    fun _ _ _ hw => narrow_ulong hw _

theorem reports_reallocarray : Api.reallocarray.Reports ⟨name, none, reportReallocarrayOut⟩ :=
  reports_retval (fun _ => rfl) (fun _ _ _ => Iff.rfl) (fun _ _ => rfl)
    fun _ _ _ hw => narrow_ulong hw _

theorem reports_posixMemalign :
    Api.posixMemalign.Reports ⟨name, none, reportPosixMemalignOut⟩ := by
  intro cfg c libsym ha _ _
  by_cases hret : c.retval = 0
  · obtain ⟨data, hdata⟩ := reportAlloc_eq cfg libsym (c.task.returns c.ret) .posixMemalign
      cfg.btDepth (narrow_peek _ (c.reread 0)) fun _ => ha.narrow_reread 2
    refine ⟨_, messages_out (if_neg fun h => h hret) hdata, .posixMemalign, data, rfl, ?_⟩
    have hrep : Api.posixMemalign.reported cfg c =
        if c.peeked = 0 then none else some ⟨c.peeked, c.reread 2⟩ :=
      if_congr (or_iff_right fun h => h hret) rfl rfl
    rw [hrep]
    exact emit_eq_tell _ _ _ _
  · refine ⟨_, messages_out (if_pos hret) rfl, .posixMemalign, [], rfl, ?_⟩
    have hrep : Api.posixMemalign.reported cfg c = none := if_pos (.inl hret)
    rw [hrep]
    rfl

theorem reports_free (name : String) (op : Config → MtOperation)
    (hop : ∀ cfg, isFreeOp (op cfg) = true ∧ op cfg ≠ .reallocEnter) :
    Api.free.Reports ⟨name, some fun cfg libsym t =>
      .ok (t, reportAlloc cfg t (op cfg) (t.param 0) 0 (if cfg.sanity then cfg.btDepth else 0)
        libsym), none⟩ := by
  intro cfg c libsym ha _ _
  have hz : c.task.narrow 0 = 0 := narrow_of_lt (by split <;> decide)
  obtain ⟨data, hdata⟩ := reportAlloc_eq cfg libsym c.task (op cfg)
    (if cfg.sanity then cfg.btDepth else 0) (ha.narrow_entered 0) fun _ => hz
  exact ⟨_, messages_in rfl hdata, op cfg, data, (hop cfg).1, (hop cfg).2, rfl⟩

/-- `mmap` and `mmap64`. -/
theorem reports_mapping {op : MtOperation} {size : Config → Task → UInt64}
    (hop : isAllocOp op = true)
    (hem : ∀ cfg c ms, a.Emits cfg c ms ↔
      ∃ op data, isAllocOp op = true ∧ ms = tell op (a.reported cfg c) data)
    (hrep : ∀ cfg c, a.reported cfg c =
      if c.retval = cfg.mapFailed ∨ c.retval = 0 then none else some ⟨c.retval, a.told cfg c⟩)
    (htold : ∀ cfg c, a.Allows c → (c.task.is64bit = true → cfg.long64 = true) →
      c.task.narrow (size cfg (c.task.returns c.ret)) = a.told cfg c) :
    a.Reports ⟨name, none, some fun cfg libsym t => if t.retval = cfg.mapFailed then .ok (t, [])
      else .ok (t, reportAlloc cfg t op t.retval (size cfg t) cfg.btDepth libsym)⟩ := by
  intro cfg c libsym ha _ hw
  by_cases hret : c.retval = cfg.mapFailed
  · refine ⟨_, messages_out (if_pos hret) rfl, (hem cfg c _).mpr ⟨op, [], hop, ?_⟩⟩
    rw [hrep, if_pos (.inl hret)]
    rfl
  · obtain ⟨data, hdata⟩ := reportAlloc_eq cfg libsym (c.task.returns c.ret) op cfg.btDepth
      ha.narrow_retval fun _ => htold cfg c ha hw
    refine ⟨_, messages_out (if_neg hret) hdata, (hem cfg c _).mpr ⟨op, data, hop, ?_⟩⟩
    rw [hrep, if_congr (or_iff_right hret) rfl rfl]
    exact emit_eq_tell _ _ _ _

theorem reports_mmap : Api.mmap.Reports ⟨name, none, reportMmapOut⟩ :=
  reports_mapping rfl (fun _ _ _ => Iff.rfl) (fun _ _ => rfl) fun _ _ ha _ => ha.narrow_reread 1

/-- The low word of two. -/
theorem toUInt32_or_shiftLeft (m n : UInt32) :
    (m.toUInt64 <<< 32 ||| n.toUInt64).toUInt32 = n := by
  have hz : (m.toNat <<< ((32 : UInt64).toNat % 64) % 2 ^ 64) % 2 ^ 32 = 0 := by
    rw [show (32 : UInt64).toNat % 64 = 32 from rfl, Nat.shiftLeft_eq]
    omega
  rw [← UInt32.toNat_inj, UInt64.toNat_toUInt32, UInt64.toNat_or, UInt64.toNat_shiftLeft,
    UInt32.toNat_toUInt64, UInt32.toNat_toUInt64, Nat.or_mod_two_pow, hz, Nat.zero_or,
    Nat.mod_eq_of_lt n.toNat_lt]

/-- The size that is sent for `mmap64`. -/
theorem narrow_mmap64Size (cfg : Config) (c : Call) (ha : Api.mmap64.Allows c)
    (hw : c.task.is64bit = true → cfg.long64 = true) :
    c.task.narrow (cfg.ulong (mmap64Size cfg (c.task.returns c.ret))) =
      Api.mmap64.told cfg c := by
  rw [narrow_ulong hw]
  have h1 := ha.narrow_reread 1
  have h2 := ha.narrow_reread 2
  unfold Api.told mmap64Size
  dsimp only
  cases hb : c.task.is64bit with
  | true =>
    have hb' : (c.task.returns c.ret).is64bit = true := hb
    rw [if_pos hb', if_neg fun h => Bool.false_ne_true h.1.symm]
    exact h1
  | false =>
    have hb' : ¬ (c.task.returns c.ret).is64bit = true := by
      rw [show (c.task.returns c.ret).is64bit = false from hb]
      exact Bool.false_ne_true
    have hnarrow : ∀ n, c.task.narrow n = n.toUInt32.toUInt64 := fun n => by
      rw [Task.narrow, hb]; rfl
    rw [hnarrow] at h1 h2 ⊢
    rw [if_neg hb']
    cases cfg.bigEndian with
    | true =>
      rw [if_pos rfl, toUInt32_or_shiftLeft, if_pos ⟨rfl, rfl⟩]
      exact h2
    | false =>
      rw [if_neg Bool.false_ne_true, toUInt32_or_shiftLeft, if_neg fun h => Bool.false_ne_true h.2]
      exact h1

theorem reports_mmap64 : Api.mmap64.Reports ⟨name, none, reportMmap64Out⟩ :=
  reports_mapping rfl (fun _ _ _ => Iff.rfl) (fun _ _ => rfl) narrow_mmap64Size

theorem reports_munmap : Api.munmap.Reports ⟨name, some reportMunmap, none⟩ := by
  intro cfg c libsym ha _ _
  exact ⟨_, messages_in rfl (reportAlloc_zero (ha.narrow_entered 0) (ha.narrow_entered 1)), rfl⟩

theorem reports_mremap : Api.mremap.Reports ⟨name, some reportMremap, reportMremapOut⟩ := by
  intro cfg c libsym ha _ _
  obtain ⟨data, hdata⟩ := reportAlloc_eq cfg libsym (c.task.returns c.ret) .mmap cfg.btDepth
    ha.narrow_retval fun _ => ha.narrow_reread 2
  refine ⟨_, messages_both rfl rfl, data, ?_⟩
  exact congrArg₂ (· ++ ·) (reportAlloc_zero (ha.narrow_entered 0) (ha.narrow_entered 1))
    (hdata.trans (emit_eq_tell _ _ _ _))

/-- The second half of `_report_realloc` repeats the test of `report_alloc`. -/
theorem reportAlloc_of_ne (cfg : Config) (libsym : LibrarySymbol) (t : Task) (op : MtOperation)
    (ptr size : UInt64) (depth : ℕ) :
    (if ptr ≠ 0 then reportAlloc cfg t op ptr size depth libsym else []) =
      reportAlloc cfg t op ptr size depth libsym := by
  unfold reportAlloc
  by_cases h : ptr = 0
  · rw [if_neg fun hne => hne h, if_pos h]
  · rw [if_pos h]

theorem reports_realloc : Api.realloc.Reports ⟨name, some reportRealloc, reportReallocOut⟩ := by
  intro cfg c libsym ha hre _
  have hpid : c.task.narrow c.task.pid.toUInt64 = c.task.pid.toUInt64 := by
    refine narrow_of_lt ?_
    rw [UInt32.toNat_toUInt64]
    have := c.task.pid.toNat_lt
    split <;> omega
  have hrep : Api.realloc.reported cfg c =
    if c.retval = 0 then none else some ⟨c.retval, c.reread 1⟩ := rfl
  by_cases hz : c.task.param 0 = 0
  · obtain ⟨data', hdata'⟩ := reportAlloc_eq cfg libsym (c.task.returns c.ret) .realloc cfg.btDepth
      ha.narrow_retval fun _ => ha.narrow_reread 1
    have hin : reportRealloc cfg libsym c.task = .ok (c.task, []) := by
      unfold reportRealloc
      rw [hre, if_neg (by decide), if_neg fun h => h hz]
    have hout : reportReallocOut cfg libsym (c.task.returns c.ret) =
        .ok (c.task.returns c.ret, emit .realloc c.retval (c.reread 1) data') := by
      unfold reportReallocOut
      simp only [reportAlloc_of_ne]
      rw [show (c.task.returns c.ret).inRealloc = false from hre, if_pos (by decide), ← hdata']
      rfl
    refine ⟨_, messages_both hin hout, [], data', ?_⟩
    rw [emit_of_eq_zero (show c.entered 0 = 0 from hz), if_pos (show c.entered 0 = 0 from hz),
      List.append_nil, hrep, emit_eq_tell]
  · obtain ⟨data, hdata⟩ := reportAlloc_eq cfg libsym c.task .reallocEnter
      (if cfg.sanity then cfg.btDepth else 0) (ha.narrow_entered 0) fun _ => hpid
    let t : Task := { c.task with inRealloc := true }
    obtain ⟨data', hdata'⟩ := reportAlloc_eq cfg libsym (t.returns c.ret) .realloc cfg.btDepth
      ha.narrow_retval fun _ => ha.narrow_reread 1
    have hin : reportRealloc cfg libsym c.task =
        .ok (t, emit .reallocEnter (c.entered 0) c.task.pid.toUInt64 data) := by
      unfold reportRealloc
      rw [hre, if_neg (by decide), if_pos hz]
      exact congrArg (fun ms => Except.ok (t, ms)) hdata
    have hout : reportReallocOut cfg libsym (t.returns c.ret) =
        .ok (c.task.returns c.ret, emit .realloc c.retval (c.reread 1) data' ++
          [(.reallocDone, ⟨c.retval, c.task.pid.toUInt64, []⟩)]) := by
      unfold reportReallocOut
      simp only [reportAlloc_of_ne]
      rw [show (t.returns c.ret).inRealloc = true from rfl, if_neg (by decide)]
      refine congrArg Except.ok (Prod.ext ?_ ?_)
      · show ({ c.task.returns c.ret with inRealloc := false } : Task) = _
        rw [← hre]
        rfl
      · exact congrArg₂ (· ++ ·) hdata'
          (congrArg₂ (fun r n => [(MtOperation.reallocDone, (⟨r, n, []⟩ : MtAllocPayload))])
            ha.narrow_retval hpid)
    refine ⟨_, messages_both hin hout, data, data', ?_⟩
    rw [if_neg (show c.entered 0 ≠ 0 from hz), List.append_assoc, hrep, emit_eq_tell .realloc]

end Messages

/-- Every intercepted function has its reporters. -/
theorem reports_of_mem {f : Function} (hf : f ∈ flist) :
    ∃ a, Api.ofSymbol f.name = some a ∧ a.Reports f := by
  have hnew := fun name => reports_malloc name
    (fun cfg => if cfg.sanity then .new else .malloc) fun cfg => by cases cfg.sanity <;> rfl
  have hnewArray := fun name => reports_malloc name
    (fun cfg => if cfg.sanity then .newArray else .malloc) fun cfg => by cases cfg.sanity <;> rfl
  have hfree := fun name => reports_free name (fun _ => .free) fun _ => by decide
  have hdelete := fun name => reports_free name
    (fun cfg => if cfg.sanity then .delete else .free) fun cfg => by cases cfg.sanity <;> decide
  have hdeleteArray := fun name => reports_free name
    (fun cfg => if cfg.sanity then .deleteArray else .free)
    fun cfg => by cases cfg.sanity <;> decide
  revert f
  simp only [flist, List.forall_mem_cons]
  refine ⟨⟨_, rfl, reports_malloc _ (fun _ => .malloc) fun _ => rfl⟩, ⟨_, rfl, hfree _⟩,
    ⟨_, rfl, reports_realloc⟩, ⟨_, rfl, reports_calloc⟩, ⟨_, rfl, reports_posixMemalign⟩,
    ⟨_, rfl, reports_mmap⟩, ⟨_, rfl, reports_mmap64⟩, ⟨_, rfl, reports_munmap⟩,
    ⟨_, rfl, reports_memalign .memalign rfl⟩, ⟨_, rfl, reports_memalign .alignedAlloc rfl⟩,
    ⟨_, rfl, reports_malloc _ (fun _ => .valloc) fun _ => rfl⟩,
    ⟨_, rfl, reports_malloc _ (fun _ => .pvalloc) fun _ => rfl⟩, ⟨_, rfl, reports_mremap⟩,
    ⟨_, rfl, hfree _⟩, ⟨_, rfl, reports_reallocarray⟩, ?_⟩
  refine ⟨⟨_, rfl, hnew _⟩, ⟨_, rfl, hnewArray _⟩, ⟨_, rfl, hnew _⟩, ⟨_, rfl, hnewArray _⟩,
    ⟨_, rfl, hnew _⟩, ⟨_, rfl, hnewArray _⟩, ⟨_, rfl, hnew _⟩, ⟨_, rfl, hnewArray _⟩,
    ⟨_, rfl, hnew _⟩, ⟨_, rfl, hnewArray _⟩, ⟨_, rfl, hnew _⟩, ⟨_, rfl, hnewArray _⟩,
    ⟨_, rfl, hnew _⟩, ⟨_, rfl, hnewArray _⟩, ⟨_, rfl, hnew _⟩, ⟨_, rfl, hnewArray _⟩, ?_⟩
  refine ⟨⟨_, rfl, hdelete _⟩, ⟨_, rfl, hdeleteArray _⟩, ⟨_, rfl, hdelete _⟩,
    ⟨_, rfl, hdeleteArray _⟩, ⟨_, rfl, hdelete _⟩, ⟨_, rfl, hdeleteArray _⟩, ⟨_, rfl, hdelete _⟩,
    ⟨_, rfl, hdeleteArray _⟩, ⟨_, rfl, hdelete _⟩, ⟨_, rfl, hdeleteArray _⟩, ⟨_, rfl, hdelete _⟩,
    ⟨_, rfl, hdeleteArray _⟩, ⟨_, rfl, hdelete _⟩, ⟨_, rfl, hdeleteArray _⟩, ⟨_, rfl, hdelete _⟩,
    ⟨_, rfl, hdeleteArray _⟩, ?_⟩
  exact fun f hf => absurd hf List.not_mem_nil

end Mtrace
