import Mtrace.Client.Session
import Mtrace.Server.Realloc
import Mtrace.Server.Words

/-!
# From the calls to the block tables

The threads of any number of tasks call the functions of the heap, each at any time, and the
reporters are called when a call begins and when it returns.  What they send then is what happens to
the heap: a block that is obtained when its call returns, one that is given back or handed to
`realloc` when the call begins.  So the client, at the other end of the wire, has the blocks of the
heap in its table.

A call of a thread is the outermost traced one, as `handle_breakpoint` keeps it: calls that are made
inside of it are not reported.
-/

namespace Mtrace

open Machine Wire Allocator Client Server

/-! ## What a call does to the heap -/

/-- The functions that deal with the blocks of the heap. -/
def Api.ofHeap : Api → Bool
  | .malloc | .calloc | .memalign | .posixMemalign | .realloc | .free => true
  | _ => false

/-- What happens when a call begins: the block is not the caller's any more. -/
def Api.begins (a : Api) (t : Task) : Option (Action UInt32) :=
  match a with
  | .free => if t.arg 0 = 0 then none else some (.free (t.arg 0))
  | .realloc => if t.arg 0 = 0 then none else some (.reallocBegin t.pid (t.arg 0))
  | _ => none

/-- What happens when it returns: the caller has the block that it has obtained. -/
def Api.ends (a : Api) (c : Call) : Option (Action UInt32) :=
  if a = .realloc ∧ c.param 0 ≠ 0 then
    match a.obtained c with
    | some x => some (.reallocDone c.task.pid x)
    | none => some (.reallocFail c.task.pid)
  else (a.obtained c).map .alloc

/-- The arguments that are read when the call returns. -/
def Api.readAgain : Api → List ℕ
  | .malloc => [0]
  | .calloc => [0, 1]
  | .memalign | .realloc => [1]
  | .posixMemalign => [0, 2]
  | _ => []

/-- What is read when the call returns is what it was called with, and `posix_memalign` has stored
its pointer where it can be read; a `realloc` that returns no block has not freed the old one. -/
structure Api.Regular (a : Api) (c : Call) : Prop where
  reread : ∀ i ∈ a.readAgain, c.reread i = c.param i
  copied : a = .posixMemalign → c.retval = 0 → c.ret.mem.copied (c.param 0) = true
  kept : a = .realloc → c.param 0 ≠ 0 → c.retval = 0 → a.freed c = none

/-- What the client makes of a message about the heap. -/
def Server.Message.told (m : Message) : Client.MtMsg :=
  if h : isAllocOp m.1 = true then .alloc m.1 h m.2
  else if h : isFreeOp m.1 = true then .free m.1 h m.2
  else .reallocDone m.2

/-- The messages are about what happens to the heap, if anything does. -/
def Tells (ms : List Message) : Option (Action UInt32) → Prop
  | none => ms = []
  | some a => ∃ ops, ms.map Message.told = Client.MtMsg.about ops a

section Told

variable {cfg : Config} {libsym : LibrarySymbol} {c : Call} {t : Task} {a : Api} {f : Function}
  {op : MtOperation} {ms : List Message}

theorem told_alloc (hop : isAllocOp op = true) (m : MtAllocPayload) :
    Message.told (op, m) = .alloc op hop m := dif_pos hop

theorem told_free (hop : isFreeOp op = true) (m : MtAllocPayload) :
    Message.told (op, m) = .free op hop m := by
  unfold Message.told
  rw [dif_neg (isAllocOp_ne hop), dif_pos hop]

/-- A block that is obtained is told of. -/
theorem tells_tell (hop : isAllocOp op = true) (o : Option Allocator.Span) {data : List UInt8} :
    Tells (tell op o data) (o.map .alloc) := by
  cases o with
  | none => exact rfl
  | some x =>
    exact ⟨⟨op, .free, data, hop, rfl, by decide⟩, congrArg (fun m => [m]) (told_alloc hop _)⟩

/-- A block is told of as it is obtained. -/
theorem reported_eq_obtained (ha : a.Allows c) (hheap : a.ofHeap = true) (hreg : a.Regular c) :
    a.reported cfg c = a.obtained c := by
  have hread := hreg.reread
  have hret {m n : UInt64} (h : c.retval ≠ 0 → m = n) :
      (if c.retval = 0 then none else some (⟨c.retval, m⟩ : Allocator.Span)) =
        if c.retval = 0 then none else some ⟨c.retval, n⟩ :=
    ite_congr rfl (fun _ => rfl) fun hr => by rw [h hr]
  cases a with
  | malloc => exact hret fun _ => hread 0 (by decide)
  | calloc =>
    refine hret fun hr => ?_
    show c.task.narrow (c.reread 0 * c.reread 1) = c.param 0 * c.param 1
    rw [hread 0 (by decide), hread 1 (by decide)]
    exact narrow_mul (ha.calloc rfl hr)
  | memalign | realloc => exact hret fun _ => hread 1 (by decide)
  | posixMemalign =>
    by_cases hr : c.retval = 0
    · have hpeeked : c.peeked = c.stored := by
        show c.task.narrow _ = c.task.narrow _
        rw [hread 0 (by decide)]
        exact congrArg c.task.narrow (if_pos (hreg.copied rfl hr))
      show (if c.retval ≠ 0 ∨ c.peeked = 0 then none
          else some (⟨c.peeked, c.reread 2⟩ : Allocator.Span)) =
        if c.retval ≠ 0 ∨ c.stored = 0 then none else some ⟨c.stored, c.param 2⟩
      rw [hpeeked, hread 2 (by decide)]
    · exact (if_pos (.inl hr)).trans (if_pos (.inl hr)).symm
  | free => rfl
  | _ => cases hheap

/-- The messages about a call that obtains a block. -/
theorem tells_ends (hheap : a.ofHeap = true) (hre : a ≠ .realloc) (hfree : a ≠ .free)
    (hreported : a.reported cfg c = a.obtained c) (he : a.Emits cfg c ms) :
    Tells ms (a.ends c) := by
  have hends : a.ends c = (a.obtained c).map .alloc := if_neg fun h => hre h.1
  rw [hends, ← hreported]
  cases a with
  | malloc | calloc | memalign | posixMemalign =>
    obtain ⟨op, data, hop, rfl⟩ := he
    exact tells_tell hop _
  | realloc => exact absurd rfl hre
  | free => exact absurd rfl hfree
  | _ => cases hheap

/-! ## The reporters of a call -/

/-- A function reports a block that it obtains when it returns, and one that it is given when it is
entered. -/
def Server.Function.placed (f : Function) : Bool :=
  match Api.ofSymbol f.name with
  | some .realloc => f.name == "realloc"
  | some .free => f.reportOut.isNone && f.name != "realloc"
  | some .malloc | some .calloc | some .memalign | some .posixMemalign =>
    f.reportIn.isNone && f.name != "realloc"
  | _ => true

theorem placed_of_mem (hf : f ∈ flist) : f.placed = true := by
  have hall : flist.all (·.placed) = true := by decide
  exact List.all_eq_true.mp hall f hf

/-- The reporter at the return of a function that has no other one. -/
theorem reportBy_out (hf : f ∈ flist) (hname : f.name ≠ "realloc") (hin : f.reportIn = none)
    {ret : Return} (hm : f.messages cfg libsym t ret = .ok ms) :
    reportBy f.reportOut cfg libsym (t.returns ret) = .ok (t.returns ret, ms) := by
  rw [messages_eq, hin] at hm
  replace hm : (reportBy f.reportOut cfg libsym (t.returns ret) >>= fun r => .ok ([] ++ r.2)) =
    .ok ms := hm
  rcases regular_of_mem hf with ⟨h, -⟩ | ⟨-, -, hplain⟩
  · exact absurd h hname
  · cases hg : f.reportOut with
    | none =>
      rw [hg] at hm
      cases hm
      exact rfl
    | some g =>
      obtain ⟨ms', hms', -⟩ := hplain g hg cfg libsym (t.returns ret)
      replace hms' : reportBy (some g) cfg libsym (t.returns ret) = _ := hms'
      rw [hg, hms'] at hm
      cases hm
      exact hms'

/-- The reporter at the entry of a function that has no other one. -/
theorem reportBy_in (hf : f ∈ flist) (hname : f.name ≠ "realloc") (hout : f.reportOut = none)
    {ret : Return} (hm : f.messages cfg libsym t ret = .ok ms) :
    reportBy f.reportIn cfg libsym t = .ok (t, ms) := by
  rw [messages_eq, hout] at hm
  replace hm : (reportBy f.reportIn cfg libsym t >>= fun r => .ok (r.2 ++ [])) = .ok ms := hm
  rcases regular_of_mem hf with ⟨h, -⟩ | ⟨-, hplain, -⟩
  · exact absurd h hname
  · cases hg : f.reportIn with
    | none =>
      rw [hg] at hm
      cases hm
      exact rfl
    | some g =>
      obtain ⟨ms', hms', -⟩ := hplain g hg cfg libsym t
      replace hms' : reportBy (some g) cfg libsym t = _ := hms'
      rw [hg, hms'] at hm
      cases hm
      rw [List.append_nil]
      exact hms'

theorem narrow_pid (t : Task) : t.narrow t.pid.toUInt64 = t.pid.toUInt64 := by
  refine narrow_of_lt ?_
  rw [UInt32.toNat_toUInt64]
  have := t.pid.toNat_lt
  split <;> omega

theorem not_inRealloc (hre : t.inRealloc = false) (hne : a ≠ .realloc) :
    ({ t with inRealloc := decide (a = .realloc ∧ t.arg 0 ≠ 0) } : Task) = t := by
  rw [decide_eq_false fun h => hne h.1, ← hre]

theorem reporters_realloc (hf : f ∈ flist) (hname : f.name = "realloc") :
    f.reportIn = some reportRealloc ∧ f.reportOut = some reportReallocOut := by
  rcases regular_of_mem hf with ⟨-, hin, hout⟩ | ⟨hne, -⟩
  · exact ⟨hin, hout⟩
  · exact absurd hname hne

theorem reports_api (hf : f ∈ flist) (ha : Api.ofSymbol f.name = some a) : a.Reports f := by
  obtain ⟨a', ha', hrep⟩ := reports_of_mem hf
  cases ha'.symm.trans ha
  exact hrep

theorem allows_free (hargs : ∀ i, (t.arg i).toNat < if t.is64bit then 2 ^ 64 else 2 ^ 32) :
    Api.free.Allows ⟨t, ⟨0, t.mem, t.frames⟩⟩ where
  param := hargs
  retval := by
    show 0 < if t.is64bit then 2 ^ 64 else 2 ^ 32
    split <;> decide
  obtained _ h := by cases h
  unmapped _ h := by cases h
  calloc h := by cases h
  reallocarray h := by cases h

/-- A block that is given back. -/
theorem free_tells (hf : f ∈ flist) (ha : Api.ofSymbol f.name = some .free)
    (hw : t.is64bit = true → cfg.long64 = true) (hre : t.inRealloc = false)
    (hargs : ∀ i, (t.arg i).toNat < if t.is64bit then 2 ^ 64 else 2 ^ 32)
    (hread : t.param 0 = t.arg 0) :
    ∃ ms, reportBy f.reportIn cfg libsym t = .ok (t, ms) ∧ Tells ms (Api.free.begins t) := by
  have hplaced := placed_of_mem hf
  unfold Server.Function.placed at hplaced
  rw [ha] at hplaced
  simp only [Bool.and_eq_true, Option.isNone_iff_eq_none, bne_iff_ne] at hplaced
  obtain ⟨ms, hms, hemits⟩ := reports_api hf ha cfg _ libsym (allows_free hargs) hre hw
  refine ⟨ms, reportBy_in hf hplaced.2 hplaced.1 hms, ?_⟩
  obtain ⟨op, data, hop, hne, rfl⟩ := hemits
  have hentered : emit op (t.param 0) 0 data = emit op (t.arg 0) 0 data := by rw [hread]
  unfold Api.begins
  dsimp only
  by_cases hz : t.arg 0 = 0
  · rw [if_pos hz]
    exact hentered.trans (emit_of_eq_zero hz)
  · rw [if_neg hz]
    refine ⟨⟨.malloc, op, data, rfl, hop, hne⟩, ?_⟩
    exact (congrArg (List.map Message.told) (hentered.trans (emit_of_ne_zero hz))).trans
      (congrArg (fun m => [m]) (told_free hop _))

/-- A block that is handed to `realloc`. -/
theorem reportRealloc_tells (hre : t.inRealloc = false)
    (hargs : ∀ i, (t.arg i).toNat < if t.is64bit then 2 ^ 64 else 2 ^ 32)
    (hread : t.param 0 = t.arg 0) :
    ∃ ms, reportRealloc cfg libsym t = .ok ({ t with inRealloc := decide (t.arg 0 ≠ 0) }, ms) ∧
      Tells ms (Api.realloc.begins t) := by
  unfold reportRealloc Api.begins
  rw [hre, if_neg Bool.false_ne_true, hread]
  dsimp only
  by_cases hz : t.arg 0 = 0
  · rw [if_neg fun h => h hz, if_pos hz, decide_eq_false fun h => h hz, ← hre]
    exact ⟨[], rfl, rfl⟩
  · rw [if_pos hz, if_neg hz, decide_eq_true hz]
    obtain ⟨data, hdata⟩ := reportAlloc_eq cfg libsym t .reallocEnter
      (if cfg.sanity then cfg.btDepth else 0) (narrow_of_lt (hargs 0)) fun _ => narrow_pid t
    rw [hdata, emit_of_ne_zero hz]
    exact ⟨_, rfl, ⟨.malloc, .free, data, rfl, rfl, by decide⟩,
      congrArg (fun m => [m]) (told_free isFreeOp_reallocEnter _)⟩

/-- What is told when a call begins. -/
theorem reportIn_tells (hf : f ∈ flist) (ha : Api.ofSymbol f.name = some a)
    (hheap : a.ofHeap = true)
    (hw : t.is64bit = true → cfg.long64 = true) (hre : t.inRealloc = false)
    (hargs : ∀ i, (t.arg i).toNat < if t.is64bit then 2 ^ 64 else 2 ^ 32)
    (hread : ∀ i < a.taken, t.param i = t.arg i) :
    ∃ ms, reportBy f.reportIn cfg libsym t =
        .ok ({ t with inRealloc := decide (a = .realloc ∧ t.arg 0 ≠ 0) }, ms) ∧
      Tells ms (a.begins t) := by
  have hplaced := placed_of_mem hf
  unfold Server.Function.placed at hplaced
  rw [ha] at hplaced
  cases a with
  | free =>
    rw [not_inRealloc hre (by decide)]
    exact free_tells hf ha hw hre hargs (hread 0 (by decide))
  | realloc =>
    rw [(reporters_realloc hf (beq_iff_eq.mp hplaced)).1]
    obtain ⟨ms, hms, htells⟩ := @reportRealloc_tells cfg libsym t hre hargs (hread 0 (by decide))
    refine ⟨ms, hms.trans ?_, htells⟩
    simp
  | malloc | calloc | memalign | posixMemalign =>
    simp only [Bool.and_eq_true, Option.isNone_iff_eq_none] at hplaced
    rw [not_inRealloc hre (by decide), hplaced.1]
    exact ⟨[], rfl, rfl⟩
  | _ => cases hheap

/-- What is told when a call of `realloc` returns. -/
theorem reportReallocOut_tells (ha : Api.realloc.Allows c) (hread : c.reread 1 = c.param 1)
    (hre : c.task.inRealloc = decide (c.param 0 ≠ 0)) :
    ∃ ms, reportReallocOut cfg libsym (c.task.returns c.ret) =
        .ok ({ c.task.returns c.ret with inRealloc := false }, ms) ∧
      Tells ms (Api.realloc.ends c) := by
  obtain ⟨data, hdata⟩ := reportAlloc_eq cfg libsym (c.task.returns c.ret) .realloc cfg.btDepth
    ha.narrow_retval fun _ => ha.narrow_reread 1
  replace hdata : reportAlloc cfg (c.task.returns c.ret) .realloc (c.task.returns c.ret).retval
    ((c.task.returns c.ret).param 1) cfg.btDepth libsym =
      emit .realloc c.retval (c.param 1) data := hdata.trans (by rw [hread])
  unfold reportReallocOut
  dsimp only
  rw [reportAlloc_of_ne, hdata]
  by_cases hz : c.param 0 = 0
  · have hin : (c.task.returns c.ret).inRealloc = false := hre.trans (decide_eq_false fun h => h hz)
    have hends : Api.realloc.ends c = (Api.realloc.obtained c).map .alloc := if_neg fun h => h.2 hz
    rw [hin, if_pos (by decide), hends, ← hin]
    rw [emit_eq_tell]
    exact ⟨_, rfl, tells_tell rfl _⟩
  · have hin : (c.task.returns c.ret).inRealloc = true := hre.trans (decide_eq_true hz)
    have hdone : ((c.task.returns c.ret).narrow (c.task.returns c.ret).retval,
        (c.task.returns c.ret).narrow (c.task.returns c.ret).pid.toUInt64) =
          (c.retval, c.task.pid.toUInt64) :=
      Prod.ext ha.narrow_retval (narrow_pid c.task)
    obtain ⟨hret, hpid⟩ := Prod.mk.inj hdone
    rw [hin, if_neg (by decide), hret, hpid]
    refine ⟨_, rfl, ?_⟩
    unfold Api.ends Api.obtained
    rw [if_pos ⟨rfl, hz⟩]
    dsimp only
    by_cases hr : c.retval = 0
    · rw [if_pos hr, emit_of_eq_zero hr, hr]
      exact ⟨⟨.malloc, .free, data, rfl, rfl, by decide⟩, rfl⟩
    · rw [if_neg hr, emit_of_ne_zero hr]
      exact ⟨⟨.malloc, .free, data, rfl, rfl, by decide⟩, rfl⟩

/-- What is told when a call returns. -/
theorem reportOut_tells (hf : f ∈ flist) (ha : Api.ofSymbol f.name = some a)
    (hheap : a.ofHeap = true) (hw : c.task.is64bit = true → cfg.long64 = true)
    (hallows : a.Allows c) (hreg : a.Regular c)
    (hre : c.task.inRealloc = decide (a = .realloc ∧ c.param 0 ≠ 0)) :
    ∃ ms, reportBy f.reportOut cfg libsym (c.task.returns c.ret) =
        .ok ({ c.task.returns c.ret with inRealloc := false }, ms) ∧ Tells ms (a.ends c) := by
  have hplaced := placed_of_mem hf
  unfold Server.Function.placed at hplaced
  rw [ha] at hplaced
  by_cases hrealloc : a = .realloc
  · subst hrealloc
    rw [(reporters_realloc hf (beq_iff_eq.mp hplaced)).2]
    exact reportReallocOut_tells hallows (hreg.reread 1 (by decide)) (hre.trans (by simp))
  have hin : c.task.inRealloc = false := hre.trans (decide_eq_false fun h => hrealloc h.1)
  have hsame : ({ c.task.returns c.ret with inRealloc := false } : Task) =
      c.task.returns c.ret := by
    rw [← hin]
    exact rfl
  rw [hsame]
  by_cases hfree : a = .free
  · subst hfree
    simp only [Bool.and_eq_true, Option.isNone_iff_eq_none] at hplaced
    rw [hplaced.1]
    exact ⟨[], rfl, rfl⟩
  · obtain ⟨ms, hms, hemits⟩ := reports_api hf ha cfg c libsym hallows hin hw
    have hreported : a.reported cfg c = a.obtained c := reported_eq_obtained hallows hheap hreg
    refine ⟨ms, ?_, tells_ends hheap hrealloc hfree hreported hemits⟩
    cases a with
    | malloc | calloc | memalign | posixMemalign =>
      simp only [Bool.and_eq_true, Option.isNone_iff_eq_none, bne_iff_ne] at hplaced
      exact reportBy_out hf hplaced.2 hplaced.1 hms
    | realloc => exact absurd rfl hrealloc
    | free => exact absurd rfl hfree
    | _ => cases hheap

end Told

/-! ## Threads -/

/-- What the server has of its threads: what the reporters see of each, and the function of the call
that it is in. -/
structure Threads where
  task : UInt32 → Server.Task
  pending : UInt32 → Option Symbol

/-- A thread gets to the beginning or to the end of a call. -/
inductive ThreadEvent where
  | enter (t : UInt32) (sym : Symbol) (args : Context) (now : Return)
  | leave (t : UInt32) (now : Return)

namespace Threads

/-- Threads that have called nothing yet. -/
def init (leader : UInt32 → UInt32) (is64bit : UInt32 → Bool) : Threads where
  task t := ⟨t, is64bit (leader t), false, inRegs fun _ => 0, 0, noWords, []⟩
  pending _ := none

/-- The task of a thread with the context that `save_param_context` keeps. -/
def entered (s : Threads) (t : UInt32) (args : Context) (now : Return) : Server.Task :=
  { (s.task t).returns now with saved := args }

/-- The call of the reporter. -/
def step (cfg : Config) (s : Threads) : ThreadEvent → Except String (Threads × List Message)
  | .enter t sym args now => do
    let (task, ms) ← reportBy sym.func.reportIn cfg sym.libsym (s.entered t args now)
    return (⟨Function.update s.task t task, Function.update s.pending t (some sym)⟩, ms)
  | .leave t now =>
    match s.pending t with
    | none => .ok (s, [])
    | some sym => do
      let (task, ms) ← reportBy sym.func.reportOut cfg sym.libsym ((s.task t).returns now)
      return (⟨Function.update s.task t task, Function.update s.pending t none⟩, ms)

/-- A thread is in a `realloc` from its beginning to its end, if it has handed a block to it. -/
structure Sound (leader : UInt32 → UInt32) (is64bit : UInt32 → Bool) (s : Threads) : Prop where
  width : ∀ t, (s.task t).is64bit = is64bit (leader t)
  idle : ∀ t, s.pending t = none → (s.task t).inRealloc = false
  call : ∀ t sym, s.pending t = some sym → sym.func ∈ flist ∧
    ∃ a, Api.ofSymbol sym.func.name = some a ∧ a.ofHeap = true ∧
      (s.task t).inRealloc = decide (a = .realloc ∧ (s.task t).arg 0 ≠ 0)

section Sound

variable {cfg : Config} {leader : UInt32 → UInt32} {is64bit : UInt32 → Bool} {s : Threads}
  {t : UInt32} {sym : Symbol} {now : Return} {a : Api}

theorem init_sound : (init leader is64bit).Sound leader is64bit :=
  ⟨fun _ => rfl, fun _ _ => rfl, fun _ _ h => by cases h⟩

/-- A thread begins a call, the others go on with theirs. -/
theorem Sound.update (h : s.Sound leader is64bit) {task : Server.Task} {call : Option Symbol}
    (hwidth : task.is64bit = is64bit (leader t)) (hidle : call = none → task.inRealloc = false)
    (hcall : ∀ sym, call = some sym → sym.func ∈ flist ∧
      ∃ a, Api.ofSymbol sym.func.name = some a ∧ a.ofHeap = true ∧
        task.inRealloc = decide (a = .realloc ∧ task.arg 0 ≠ 0)) :
    Sound leader is64bit
      ⟨Function.update s.task t task, Function.update s.pending t call⟩ where
  width i := by
    by_cases hi : i = t
    · subst hi
      simpa using hwidth
    · simpa [hi] using h.width i
  idle i := by
    by_cases hi : i = t
    · subst hi
      simpa using hidle
    · simpa [hi] using h.idle i
  call i sym := by
    by_cases hi : i = t
    · subst hi
      simpa using hcall sym
    · simpa [hi] using h.call i sym

/-- The beginning of a call. -/
theorem Sound.enter (h : s.Sound leader is64bit) (now : Return) (hidle : s.pending t = none)
    (hf : sym.func ∈ flist) (ha : Api.ofSymbol sym.func.name = some a) (hheap : a.ofHeap = true)
    (hw : is64bit (leader t) = true → cfg.long64 = true) {args : Context}
    (hargs : ∀ i, ((s.entered t args now).arg i).toNat <
      if is64bit (leader t) then 2 ^ 64 else 2 ^ 32)
    (hread : ∀ i < a.taken, (s.entered t args now).param i = (s.entered t args now).arg i) :
    ∃ s' ms, s.step cfg (.enter t sym args now) = .ok (s', ms) ∧ s'.Sound leader is64bit ∧
      Tells ms (a.begins (s.entered t args now)) ∧
      ∀ m ∈ ms, Message.Narrow cfg (is64bit (leader t)) m := by
  rw [← h.width t] at hw hargs
  obtain ⟨ms, hms, htells⟩ := @reportIn_tells cfg sym.libsym (s.entered t args now) a sym.func
    hf ha hheap hw (h.idle t hidle) hargs hread
  have hstep : s.step cfg (.enter t sym args now) =
    (reportBy sym.func.reportIn cfg sym.libsym (s.entered t args now) >>= fun r =>
      .ok (⟨Function.update s.task t r.1, Function.update s.pending t (some sym)⟩, r.2)) := rfl
  rw [hms] at hstep
  refine ⟨_, ms, hstep, ?_, htells, ?_⟩
  · refine h.update (h.width t) (fun hnone => by cases hnone) fun sym' hsym => ?_
    cases hsym
    exact ⟨hf, a, ha, hheap, rfl⟩
  · intro m hm
    have hnarrow : Message.Narrow cfg (s.task t).is64bit m :=
      narrow_reportBy (narrow_of_mem hf).1 hms m hm
    rwa [h.width t] at hnarrow

/-- The end of a call. -/
theorem Sound.leave (h : s.Sound leader is64bit) (hpending : s.pending t = some sym)
    (ha : Api.ofSymbol sym.func.name = some a)
    (hw : is64bit (leader t) = true → cfg.long64 = true) (hallows : a.Allows ⟨s.task t, now⟩)
    (hreg : a.Regular ⟨s.task t, now⟩) :
    ∃ s' ms, s.step cfg (.leave t now) = .ok (s', ms) ∧ s'.Sound leader is64bit ∧
      Tells ms (a.ends ⟨s.task t, now⟩) ∧
      ∀ m ∈ ms, Message.Narrow cfg (is64bit (leader t)) m := by
  rw [← h.width t] at hw
  obtain ⟨hf, a', ha', hheap, hre⟩ := h.call t sym hpending
  cases ha'.symm.trans ha
  obtain ⟨ms, hms, htells⟩ := @reportOut_tells cfg sym.libsym ⟨s.task t, now⟩ a sym.func
    hf ha hheap hw hallows hreg hre
  have hstep : s.step cfg (.leave t now) =
      (reportBy sym.func.reportOut cfg sym.libsym ((s.task t).returns now) >>= fun r =>
        .ok (⟨Function.update s.task t r.1, Function.update s.pending t none⟩, r.2)) := by
    unfold step
    dsimp only
    rw [hpending]
    exact rfl
  have hout : reportBy sym.func.reportOut cfg sym.libsym ((s.task t).returns now) = _ := hms
  rw [hout] at hstep
  refine ⟨_, ms, hstep, ?_, htells, ?_⟩
  · exact h.update (h.width t) (fun _ => rfl) fun sym' hsym => by cases hsym
  · intro m hm
    have hnarrow : Message.Narrow cfg (s.task t).is64bit m :=
      narrow_reportBy (narrow_of_mem hf).2 hms m hm
    rwa [h.width t] at hnarrow

end Sound

end Threads

/-! ## Programs -/

/-- What the server is to send. -/
inductive Sending where
  | info (payload : List UInt8)
  | attach (pid : UInt32)
  | map (pid : UInt32) (m : Client.MtMsg)
  | report (pid : UInt32) (m : Message)

/-- What happens to the heap of a task, if anything does. -/
def Client.Heaps.Acts (hs : Heaps) (pid : UInt32) : Option (Action UInt32) → Heaps → Prop
  | none, hs' => hs' = hs
  | some a, hs' => ∃ h, hs pid = some h ∧ h.Enabled a ∧ h.Proper a ∧
    hs' = Function.update hs pid (some (h.next a))

/-- The rest of a run of the threads, from their calls and the heaps to what is sent and the heaps
at the end.  Between the beginning and the end of a `realloc` the heap moves on unseen. -/
inductive Program (cfg : Config) (same : Prop) (leader : UInt32 → UInt32)
    (is64bit : UInt32 → Bool) : Threads → Heaps → List Sending → Heaps → Prop
  | nil {s : Threads} {hs : Heaps} : Program cfg same leader is64bit s hs [] hs
  | info {s : Threads} {hs hs' : Heaps} {ss : List Sending} {payload : List UInt8}
      (hlen : payload.length = 136) (hsame : same) (htrace : (payload.getD 2 0 != 0) = true)
      (rest : Program cfg same leader is64bit s hs ss hs') :
      Program cfg same leader is64bit s hs (.info payload :: ss) hs'
  /-- A task starts a program; no thread of it is in a call. -/
  | start {s : Threads} {hs hs' : Heaps} {ss : List Sending} {pid : UInt32}
      (hpid : pid.toUInt16.toUInt32 = pid)
      (hidle : ∀ t, leader t = pid → s.pending t = none)
      (rest : Program cfg same leader is64bit s (Function.update hs pid (some .empty)) ss hs') :
      Program cfg same leader is64bit s hs (.attach pid :: ss) hs'
  /-- A file is mapped into a task or unmapped. -/
  | map {s : Threads} {hs hs' : Heaps} {ss : List Sending} {pid : UInt32} {m : Client.MtMsg}
      (hmaps : m.ofMaps = true) (hfits : m.Fits (is64bit pid))
      (hshort : (m.payload .little (is64bit pid)).length < 2 ^ 31)
      (rest : Program cfg same leader is64bit s hs ss hs') :
      Program cfg same leader is64bit s hs (.map pid m :: ss) hs'
  | move {s : Threads} {hs hs1 hs' : Heaps} {ss : List Sending} {t : UInt32} {a : Action UInt32}
      (ha : a = .release t ∨ ∃ x, a = .reserve t x) (hacts : hs.Acts (leader t) (some a) hs1)
      (rest : Program cfg same leader is64bit s hs1 ss hs') :
      Program cfg same leader is64bit s hs ss hs'
  | enter {s s' : Threads} {hs hs1 hs' : Heaps} {ss : List Sending} {ms : List Message}
      {t : UInt32} {sym : Symbol} {a : Api} {args : Context} {now : Return}
      (hidle : s.pending t = none) (hf : sym.func ∈ flist)
      (ha : Api.ofSymbol sym.func.name = some a) (hheap : a.ofHeap = true)
      (hargs : ∀ i, ((s.entered t args now).arg i).toNat <
        if is64bit (leader t) then 2 ^ 64 else 2 ^ 32)
      (hread : ∀ i < a.taken, (s.entered t args now).param i = (s.entered t args now).arg i)
      (hacts : hs.Acts (leader t) (a.begins (s.entered t args now)) hs1)
      (hstep : s.step cfg (.enter t sym args now) = .ok (s', ms))
      (rest : Program cfg same leader is64bit s' hs1 ss hs') :
      Program cfg same leader is64bit s hs (ms.map (.report (leader t)) ++ ss) hs'
  | leave {s s' : Threads} {hs hs1 hs' : Heaps} {ss : List Sending} {ms : List Message}
      {t : UInt32} {sym : Symbol} {a : Api} {now : Return} (hpending : s.pending t = some sym)
      (ha : Api.ofSymbol sym.func.name = some a) (hallows : a.Allows ⟨s.task t, now⟩)
      (hreg : a.Regular ⟨s.task t, now⟩)
      (hacts : hs.Acts (leader t) (a.ends ⟨s.task t, now⟩) hs1)
      (hstep : s.step cfg (.leave t now) = .ok (s', ms))
      (rest : Program cfg same leader is64bit s' hs1 ss hs') :
      Program cfg same leader is64bit s hs (ms.map (.report (leader t)) ++ ss) hs'

/-- The report that carries something. -/
def Carries (is64bit : UInt32 → Bool) : Sending → ServerReport → Prop
  | .info payload, .info payload' _ => payload' = payload
  | .attach pid, .task r => r.pid = pid ∧ r.is64bit = is64bit pid ∧
    r.msg = .attach (is64bit pid) false
  | .map pid m, .task r => r.pid = pid ∧ r.is64bit = is64bit pid ∧ r.msg = m
  | .report pid m, .task r => r.pid = pid ∧ r.is64bit = is64bit pid ∧ r.msg = m.told
  | _, _ => False

/-- The byte order of the server. -/
def Server.Config.byteOrder (cfg : Config) : ByteOrder := if cfg.bigEndian then .big else .little

section Program

variable {cfg : Config} {same : Prop} {leader : UInt32 → UInt32} {is64bit : UInt32 → Bool}
  {s : Threads} {hs hs' hs1 : Heaps} {ss : List Sending} {o : Options} {env : Env} {w : Widths}
  {m : Message} {ms : List Message} {pid : UInt32} {a : Option (Action UInt32)}

theorem told_fits {b : Bool} (h : Message.Narrow cfg b m) : m.told.Fits b := by
  unfold Server.Message.told
  split
  · exact ⟨h.ptr, h.size⟩
  · split
    · exact ⟨h.ptr, h.size⟩
    · exact ⟨h.ptr, h.size⟩

theorem told_short (hdepth : cfg.btDepth < 2 ^ 24) {b : Bool} (h : Message.Narrow cfg b m) :
    (m.told.payload .little b).length < 2 ^ 31 := by
  have hlen : (m.told.payload .little b).length = 2 * wordSize b + m.2.data.length := by
    unfold Server.Message.told
    split
    · exact length_alloc_toBytes ..
    · split
      · exact length_alloc_toBytes ..
      · exact length_alloc_toBytes ..
  have hword : wordSize b ≤ 8 := by cases b <;> decide
  have hdata := h.data
  rw [hlen]
  omega

/-- The messages of a task are carried by reports. -/
theorem exists_carries (hdepth : cfg.btDepth < 2 ^ 24)
    (hms : ∀ m ∈ ms, Message.Narrow cfg (is64bit pid) m) :
    ∃ rs : List TaskReport, List.Forall₂ (Carries is64bit) (ms.map (.report pid)) (rs.map .task) ∧
      rs.map TaskReport.msg = ms.map Message.told ∧
      ∀ r ∈ rs, r.pid = pid ∧ r.is64bit = is64bit pid := by
  induction ms with
  | nil => exact ⟨[], .nil, rfl, fun r hr => absurd hr List.not_mem_nil⟩
  | cons m ms ih =>
    obtain ⟨rs, hcarries, hmsgs, hall⟩ := ih fun m' hm' => hms m' (List.mem_cons_of_mem m hm')
    have hm := hms m List.mem_cons_self
    refine ⟨⟨pid, is64bit pid, m.told, told_fits hm, told_short hdepth hm⟩ :: rs,
      .cons ⟨rfl, rfl, rfl⟩ hcarries, congrArg (m.told :: ·) hmsgs, fun r hr => ?_⟩
    rcases List.mem_cons.mp hr with rfl | hr
    · exact ⟨rfl, rfl⟩
    · exact hall r hr

/-- The heaps that are watched belong to tasks whose width the client was told. -/
def Client.Heaps.Told (is64bit : UInt32 → Bool) (w : Widths) (hs : Heaps) : Prop :=
  ∀ pid h, hs pid = some h → pid.toUInt16.toUInt32 = pid ∧ w pid = some (is64bit pid)

theorem Client.Heaps.Acts.told (ha : hs.Acts pid a hs1) (hk : hs.Told is64bit w) :
    hs1.Told is64bit w := by
  cases a with
  | none =>
    cases ha
    exact hk
  | some a =>
    obtain ⟨h, hh, -, -, rfl⟩ := ha
    intro pid' h' hh'
    rcases Heap.update_eq_some.mp hh' with ⟨rfl, -⟩ | ⟨-, hold⟩
    · exact hk _ h hh
    · exact hk pid' h' hold

/-- One step: the reports about what happens to a heap. -/
theorem session_acts (hdepth : cfg.btDepth < 2 ^ 24) (hk : hs.Told is64bit w)
    (ha : hs.Acts pid a hs1) (htells : Tells ms a)
    (hms : ∀ m ∈ ms, Message.Narrow cfg (is64bit pid) m) {rs : List ServerReport}
    (hcarries : List.Forall₂ (Carries is64bit) ss rs) (hsession : HeapSession o same w hs1 rs hs') :
    ∃ rs', List.Forall₂ (Carries is64bit) (ms.map (.report pid) ++ ss) rs' ∧
      HeapSession o same w hs rs' hs' := by
  cases a with
  | none =>
    cases htells
    cases ha
    exact ⟨rs, hcarries, hsession⟩
  | some a =>
    obtain ⟨h, hh, he, hp, rfl⟩ := ha
    obtain ⟨ops, hops⟩ := htells
    obtain ⟨hwire, hw⟩ := hk pid h hh
    obtain ⟨rs1, hrs1, hmsgs, hall⟩ := exists_carries hdepth hms
    refine ⟨rs1.map .task ++ rs, List.rel_append hrs1 hcarries,
      .act hh he hp (hmsgs.trans hops) (fun r hr => ?_) hsession⟩
    obtain ⟨hpid, hwidth⟩ := hall r hr
    unfold TaskReport.wirePid
    rw [hpid, hwidth]
    exact ⟨hwire, hw⟩

/-- What the server sends about a program is a session about its heaps. -/
theorem Program.session (hprog : Program cfg same leader is64bit s hs ss hs')
    (hlong : ∀ pid, is64bit pid = true → cfg.long64 = true) (hdepth : cfg.btDepth < 2 ^ 24)
    (hsound : s.Sound leader is64bit) (hk : hs.Told is64bit w) :
    ∃ rs, List.Forall₂ (Carries is64bit) ss rs ∧ HeapSession o same w hs rs hs' := by
  induction hprog generalizing w with
  | nil => exact ⟨[], .nil, .nil⟩
  | @info s hs hs' ss payload hlen hsame htrace rest ih =>
    obtain ⟨rs, hcarries, hsession⟩ := ih hsound hk
    exact ⟨.info payload hlen :: rs, .cons rfl hcarries, .info hsame htrace hsession⟩
  | @start s hs hs' ss pid hpid hidle rest ih =>
    have htold : Heaps.Told is64bit (Function.update w pid (some (is64bit pid)))
        (Function.update hs pid (some .empty)) := by
      intro pid' h' hh'
      rcases Heap.update_eq_some.mp hh' with ⟨rfl, -⟩ | ⟨hne, hold⟩
      · exact ⟨hpid, Function.update_self ..⟩
      · exact ⟨(hk pid' h' hold).1, (Function.update_of_ne hne ..).trans (hk pid' h' hold).2⟩
    obtain ⟨rs, hcarries, hsession⟩ := ih hsound htold
    let r : TaskReport := ⟨pid, is64bit pid, .attach (is64bit pid) false, fits_attach, short_attach⟩
    have hwire : r.wirePid = pid := hpid
    have hrest : HeapSession o same (w.tell o r.wirePid r.msg)
        (Function.update hs r.wirePid (some .empty)) rs hs' := by
      rw [hwire]
      exact hsession
    exact ⟨.task r :: rs, .cons ⟨rfl, rfl, rfl⟩ hcarries, .attach rfl hrest⟩
  | @map s hs hs' ss pid m hmaps hfits hshort rest ih =>
    obtain ⟨rs, hcarries, hsession⟩ := ih hsound hk
    exact ⟨.task ⟨pid, is64bit pid, m, hfits, hshort⟩ :: rs, .cons ⟨rfl, rfl, rfl⟩ hcarries,
      .map hmaps hsession⟩
  | @move s hs hs1 hs' ss t a ha hacts rest ih =>
    have htells : Tells [] (some a) := by
      refine ⟨⟨.malloc, .free, [], rfl, rfl, by decide⟩, ?_⟩
      rcases ha with rfl | ⟨x, rfl⟩
      · exact rfl
      · exact rfl
    obtain ⟨rs, hcarries, hsession⟩ := ih hsound (hacts.told hk)
    exact session_acts hdepth hk hacts htells (fun m hm => absurd hm List.not_mem_nil) hcarries
      hsession
  | @enter s s' hs hs1 hs' ss ms t sym a args now hidle hf ha hheap hargs hread hacts
    hstep rest ih =>
    obtain ⟨s'', ms', hstep', hsound', htells, hnarrow⟩ :=
      hsound.enter now hidle hf ha hheap (hlong _) hargs hread
    cases hstep'.symm.trans hstep
    obtain ⟨rs, hcarries, hsession⟩ := ih hsound' (hacts.told hk)
    exact session_acts hdepth hk hacts htells hnarrow hcarries hsession
  | @leave s s' hs hs1 hs' ss ms t sym a now hpending ha hallows hreg hacts hstep rest ih =>
    obtain ⟨s'', ms', hstep', hsound', htells, hnarrow⟩ :=
      hsound.leave hpending ha (hlong _) hallows hreg
    cases hstep'.symm.trans hstep
    obtain ⟨rs, hcarries, hsession⟩ := ih hsound' (hacts.told hk)
    exact session_acts hdepth hk hacts htells hnarrow hcarries hsession

/-- At the end of a run of the threads, when all that the server has sent has arrived, the table of
a task that is in no `realloc` is the set of the blocks that are live in its heap. -/
theorem tables_follow_calls (hlong : ∀ pid, is64bit pid = true → cfg.long64 = true)
    (hdepth : cfg.btDepth < 2 ^ 24)
    (hprog : Program cfg (cfg.byteOrder = env.byteOrder) leader is64bit (.init leader is64bit)
      (fun _ => none) ss hs) :
    ∃ rs, List.Forall₂ (Carries is64bit) ss rs ∧
      ∀ (logfile : Bool) (serverFd : ℤ) (bs : List UInt8) (amounts : Stream' ℕ) (k : ℕ) (c : State),
        serverFd ≠ -1 → serverStream cfg.byteOrder logfile serverFd rs = some bs → rs.length ≤ k →
        clientLoop o env k ⟨bs, amounts⟩ (.init true) = .ok c →
        ∀ pid h, hs pid = some h → h.Quiet → ∃ p, c.findProcess pid = some p ∧
          ∀ a z, (∃ b ∈ p.blocks, b.addr = a ∧ b.size = z) ↔ h.live a = some z := by
  obtain ⟨rs, hcarries, hsession⟩ := hprog.session (o := o) (w := fun _ => none) hlong hdepth
    Threads.init_sound fun _ _ hh => by cases hh
  refine ⟨rs, hcarries, fun logfile serverFd bs amounts k c hfd hbs hk hc pid h hh hq => ?_⟩
  obtain ⟨w, sw, hl⟩ := hsession.ledgers hfd hbs hk hc
  exact hl.table hh hq

end Program

/-! ## A sample program -/

/-- The functions of the C library that the sample calls. -/
def mallocSymbol : Symbol := ⟨⟨0x10040⟩, ⟨"malloc", none, some reportMallocOut⟩⟩

def callocSymbol : Symbol := ⟨⟨0x10060⟩, ⟨"calloc", none, some reportCallocOut⟩⟩

def reallocSymbol : Symbol :=
  ⟨⟨0x10080⟩, ⟨"realloc", some reportRealloc, some reportReallocOut⟩⟩

def freeSymbol : Symbol := ⟨⟨0x100c0⟩, ⟨"free", some reportFree, none⟩⟩

/-- A big-endian server of 64 bits that is asked for backtraces of one entry. -/
def sampleConfig : Config := ⟨false, 1, true, true⟩

def sampleLeader (t : UInt32) : UInt32 := if t = 800 then 800 else 700

def sampleWidth (pid : UInt32) : Bool := pid = 800

/-- The arguments of a call of a task of 32 bits. -/
def onStack : Context := ⟨fun _ => none, fun i => 0xff00 + 4 * i.toUInt64⟩

/-- The state of a thread whose stack holds two arguments. -/
def sampleReturn (retval x y : UInt64) : Return :=
  ⟨retval, ⟨fun a => if a = 0xff00 then x else if a = 0xff04 then y else 0,
    fun _ => true, fun _ => 0⟩,
    []⟩

section Sample

variable {t : Task} {c : Call} {a : Api} {s s' : Threads} {hs hs1 hs' : Heaps} {ss : List Sending}
  {ms : List Message} {sym : Symbol}

theorem param_eq_arg {i : ℕ} (h : ∀ addr, t.mem.copied addr = true) : t.param i = t.arg i := by
  unfold Task.param Server.Task.arg Task.peek
  rw [if_pos (h _)]

theorem arg_lt (h : t.is64bit = false) (hreg : ∀ i, t.saved.reg i = none) (i : ℕ) :
    (t.arg i).toNat < 2 ^ 32 := by
  unfold Server.Task.arg Task.narrow
  rw [hreg, if_neg (by rw [h]; decide)]
  exact UInt32.toNat_lt _

/-- A call that leaves its arguments alone. -/
theorem regular_of_mem_eq (hmem : c.ret.mem = c.task.mem)
    (hcopied : ∀ addr, c.task.mem.copied addr = true) (hkept : a = .realloc → c.retval ≠ 0) :
    a.Regular c where
  reread i _ := by
    refine (param_eq_arg fun addr => ?_).trans ?_
    · show c.ret.mem.copied addr = true
      rw [hmem]
      exact hcopied addr
    · show ((c.task.returns c.ret).saved.reg i).getD _ = (c.task.saved.reg i).getD _
      rw [← hmem]
      rfl
  copied _ _ := by
    rw [hmem]
    exact hcopied _
  kept ha _ hr := absurd hr (hkept ha)

theorem allows_sample (hheap : a.ofHeap = true) (hparam : ∀ i, (c.param i).toNat < c.limit)
    (hret : c.retval.toNat < c.limit) (hob : ∀ x, a.obtained c = some x → x.last < c.limit)
    (hmul : (c.param 0).toNat * (c.param 1).toNat < c.limit) : a.Allows c where
  param := hparam
  retval := hret
  obtained := hob
  unmapped R hR := by
    cases a with
    | munmap | mremap => cases hheap
    | _ => cases hR
  calloc _ _ := hmul
  reallocarray h := by
    subst h
    cases hheap

/-- The programs of the sample. -/
abbrev SampleProgram : Threads → Heaps → List Sending → Heaps → Prop :=
  Program sampleConfig (sampleConfig.byteOrder = plainEnv.byteOrder) sampleLeader sampleWidth

/-- A task starts, and a file is mapped into it. -/
theorem SampleProgram.start (pid : UInt32) (hpid : pid.toUInt16.toUInt32 = pid)
    (hidle : ∀ t, s.pending t = none)
    (rest : SampleProgram s (Function.update hs pid (some .empty)) ss hs') :
    SampleProgram s hs (.attach pid :: .map pid (.addMap sampleMap) :: ss) hs' :=
  Program.start hpid (fun t _ => hidle t) (.map rfl fits_sampleMap short_sampleMap rest)

/-- A thread with 32 bits calls a function with two words on its stack. -/
theorem SampleProgram.enter (t : UInt32) (sym : Symbol) (x y : UInt64) (hidle : s.pending t = none)
    (hf : sym.func ∈ flist) (ha : Api.ofSymbol sym.func.name = some a) (hheap : a.ofHeap = true)
    (hthread : (s.task t).is64bit = false) (hwidth : sampleWidth (sampleLeader t) = false)
    (hacts : hs.Acts (sampleLeader t) (a.begins (s.entered t onStack (sampleReturn 0 x y))) hs1)
    (hstep : s.step sampleConfig (.enter t sym onStack (sampleReturn 0 x y)) = .ok (s', ms))
    (rest : SampleProgram s' hs1 ss hs') :
    SampleProgram s hs (ms.map (.report (sampleLeader t)) ++ ss) hs' := by
  refine Program.enter hidle hf ha hheap (fun i => ?_) (fun i _ => param_eq_arg fun _ => rfl) hacts
    hstep rest
  rw [hwidth]
  exact arg_lt (t := s.entered t onStack (sampleReturn 0 x y)) hthread (fun _ => rfl) i

/-- It returns, and the words are still there. -/
theorem SampleProgram.leave (t : UInt32) (a : Api) (retval x y : UInt64)
    (hpending : s.pending t = some sym) (ha : Api.ofSymbol sym.func.name = some a)
    (hallows : a.Allows ⟨s.task t, sampleReturn retval x y⟩)
    (hmem : (s.task t).mem = (sampleReturn 0 x y).mem) (hkept : a = .realloc → retval ≠ 0)
    (hacts : hs.Acts (sampleLeader t) (a.ends ⟨s.task t, sampleReturn retval x y⟩) hs1)
    (hstep : s.step sampleConfig (.leave t (sampleReturn retval x y)) = .ok (s', ms))
    (rest : SampleProgram s' hs1 ss hs') :
    SampleProgram s hs (ms.map (.report (sampleLeader t)) ++ ss) hs' := by
  have hcopied : ∀ addr, (s.task t).mem.copied addr = true := fun addr => by
    rw [hmem]
    rfl
  exact Program.leave hpending ha hallows (regular_of_mem_eq hmem.symm hcopied hkept)
    hacts hstep rest

end Sample

/-- What the server sends: threads 701 and 702 are in `malloc` at once, and `free` and `malloc` of
702 are called while 701 is in `realloc`. -/
def sampleSent : List Sending := [
  .attach 700, .map 700 (.addMap sampleMap), .attach 800, .map 800 (.addMap sampleMap),
  .report 700 (.malloc, ⟨0x20010, 24, callMalloc⟩),
  .report 700 (.malloc, ⟨0x20030, 16, callMalloc⟩),
  .report 800 (.malloc, ⟨0x30010, 16, callCalloc⟩),
  .report 700 (.reallocEnter, ⟨0x20010, 701, []⟩), .report 700 (.free, ⟨0x20030, 0, []⟩),
  .report 700 (.malloc, ⟨0x20010, 8, callMalloc⟩),
  .report 700 (.realloc, ⟨0x20030, 40, callRealloc⟩),
  .report 700 (.reallocDone, ⟨0x20030, 701, []⟩)]

theorem mem_flist_sample : mallocSymbol.func ∈ flist ∧ callocSymbol.func ∈ flist ∧
    reallocSymbol.func ∈ flist ∧ freeSymbol.func ∈ flist :=
  ⟨.head _, .tail _ (.tail _ (.tail _ (.head _))), .tail _ (.tail _ (.head _)), .tail _ (.head _)⟩

theorem program_sample : ∃ hs, SampleProgram (.init sampleLeader sampleWidth) (fun _ => none)
    sampleSent hs ∧ hs 700 = some sampleMoved ∧ hs 800 = some sampleOther := by
  obtain ⟨hmalloc, hcalloc, hrealloc, hfree⟩ := mem_flist_sample
  have hstack {c : Call} (h : c.task.is64bit = false) (hreg : ∀ i, c.task.saved.reg i = none)
      (i : ℕ) : (c.param i).toNat < c.limit := by
    unfold Call.limit
    rw [h]
    exact arg_lt h hreg i
  suffices h : ∃ ss hs, SampleProgram (.init sampleLeader sampleWidth) (fun _ => none) ss hs ∧
      ss = sampleSent ∧ hs 700 = some sampleMoved ∧ hs 800 = some sampleOther by
    obtain ⟨ss, hs, hprogram, rfl, hhs⟩ := h
    exact ⟨hs, hprogram, hhs⟩
  refine ⟨_, _, .start 700 rfl (fun _ => rfl) (.start 800 rfl (fun _ => rfl)
    -- threads 701 and 702 are in `malloc` at once
    (.enter 701 mallocSymbol 24 0 rfl hmalloc rfl rfl rfl rfl rfl rfl
    (.enter 702 mallocSymbol 16 0 rfl hmalloc rfl rfl rfl rfl rfl rfl
    (.leave 701 .malloc 0x20010 24 0 rfl rfl
      (allows_sample rfl (hstack rfl fun _ => rfl) (by decide)
        (fun x hx => by cases hx; decide) (by decide)) rfl (fun h => by cases h)
      ⟨_, rfl, fresh_empty (by decide), show (0x20010 : UInt64) ≠ 0 by decide, rfl⟩ rfl
    (.leave 702 .malloc 0x20030 16 0 rfl rfl
      (allows_sample rfl (hstack rfl fun _ => rfl) (by decide)
        (fun x hx => by cases hx; decide) (by decide)) rfl (fun h => by cases h)
      ⟨_, rfl, fresh_sampleOne, show (0x20030 : UInt64) ≠ 0 by decide, rfl⟩ rfl
    (@Program.enter _ _ _ _ _ _ _ _ _ _ _ 800 callocSymbol .calloc
      (inRegs fun i => if i = 0 then 2 else 8) (sampleReturn 0 0 0) rfl hcalloc rfl
      rfl (fun _ => UInt64.toNat_lt _) (fun _ _ => param_eq_arg fun _ => rfl) rfl rfl
    (SampleProgram.leave 800 .calloc 0x30010 0 0 rfl rfl
      (allows_sample rfl (fun _ => UInt64.toNat_lt _)
        (by decide) (fun x hx => by cases hx; decide) (by decide)) rfl (fun h => by cases h)
      ⟨_, rfl, fresh_empty (by decide), show (0x30010 : UInt64) ≠ 0 by decide, rfl⟩ rfl
    -- 702 calls `free` and `malloc` while 701 is in `realloc`
    (.enter 701 reallocSymbol 0x20010 40 rfl hrealloc rfl rfl rfl rfl
      ⟨_, rfl, ⟨rfl, by decide⟩, not_held_sampleTwo _, rfl⟩ rfl
    (.enter 702 freeSymbol 0x20030 0 rfl hfree rfl rfl rfl rfl
      ⟨_, rfl, show _ ≠ none by decide, not_held_sampleBegun, rfl⟩ rfl
    (.move (t := 701) (a := .reserve 701 ⟨0x20030, 40⟩) (.inr ⟨_, rfl⟩)
      ⟨_, rfl, ⟨_, rfl, rfl, fresh_sampleFreed⟩, show (0x20030 : UInt64) ≠ 0 by decide, rfl⟩
    (.move (t := 701) (a := .release 701) (.inl rfl) ⟨_, rfl, ⟨_, rfl, rfl, rfl⟩, trivial, rfl⟩
    (SampleProgram.leave 702 .free 0 0x20030 0 rfl rfl
      (allows_sample rfl (hstack rfl fun _ => rfl) (by decide)
        (fun x hx => by cases hx) (by decide)) rfl (fun h => by cases h) rfl rfl
    (.enter 702 mallocSymbol 8 0 rfl hmalloc rfl rfl rfl rfl rfl rfl
    (.leave 702 .malloc 0x20010 8 0 rfl rfl (allows_sample rfl (hstack rfl fun _ => rfl) (by decide)
        (fun x hx => by cases hx; decide) (by decide)) rfl (fun h => by cases h)
      ⟨_, rfl, fresh_sampleReleased, show (0x20010 : UInt64) ≠ 0 by decide, rfl⟩ rfl
    (.leave 701 .realloc 0x20030 0x20010 40 rfl rfl (allows_sample rfl (hstack rfl fun _ => rfl)
        (by decide) (fun x hx => by cases hx; decide) (by decide)) rfl (fun _ => by decide)
      ⟨_, rfl, ⟨_, rfl, rfl, rfl⟩, trivial, rfl⟩ rfl .nil))))))))))))))), rfl, rfl, rfl⟩

/-- What the client gets. -/
def Sending.event (is64bit : UInt32 → Bool) (sw : Bool) : Sending → Event
  | .info payload => .info (payload.getD 2 0 != 0)
  | .attach pid => .msg pid.toUInt16 sw (.attach (is64bit pid) false)
  | .map pid m => .msg pid.toUInt16 sw m
  | .report pid m => .msg pid.toUInt16 sw m.told

theorem Carries.event {is64bit : UInt32 → Bool} {x : Sending} {r : ServerReport}
    (h : Carries is64bit x r) (sw : Bool) : r.event sw = x.event is64bit sw := by
  cases r with
  | info payload hlen =>
    cases x with
    | info payload' => exact congrArg (fun bs => Event.info (bs.getD 2 0 != 0)) h
    | _ => exact h.elim
  | task r =>
    cases x with
    | info payload => exact h.elim
    | attach pid | map pid m | report pid m =>
      obtain ⟨hpid, -, hmsg⟩ := h
      show Event.msg r.pid.toUInt16 sw r.msg = _
      rw [hpid, hmsg]
      rfl

/-- What is to be sent determines the reports. -/
theorem rightUnique_carries {is64bit : UInt32 → Bool} : Relator.RightUnique (Carries is64bit) := by
  intro x r r' h h'
  cases r with
  | info payload hlen =>
    cases x with
    | info =>
      cases r' with
      | info payload' hlen' =>
        cases h
        cases h'
        rfl
      | task r' => exact h'.elim
    | _ => exact h.elim
  | task r =>
    cases r' with
    | info payload hlen =>
      cases x with
      | info => exact h.elim
      | _ => exact h'.elim
    | task r' =>
      cases x with
      | info => exact h.elim
      | attach pid | map pid m | report pid m =>
        obtain ⟨hpid, hwidth, hmsg⟩ := h
        obtain ⟨hpid', hwidth', hmsg'⟩ := h'
        exact congrArg ServerReport.task (TaskReport.ext (hpid.trans hpid'.symm)
          (hwidth.trans hwidth'.symm) (hmsg.trans hmsg'.symm))

theorem map_event_of_carries {is64bit : UInt32 → Bool} {ss : List Sending} {rs : List ServerReport}
    (h : List.Forall₂ (Carries is64bit) ss rs) (sw : Bool) :
    rs.map (ServerReport.event sw) = ss.map (Sending.event is64bit sw) := by
  induction h with
  | nil => rfl
  | cons hr _ ih => exact congrArg₂ List.cons (hr.event sw) ih

/-- The moved block and the reused one are in the table of task 700, and task 800 has its own. -/
theorem tables_follow_calls_sample : ∃ rs c, List.Forall₂ (Carries sampleWidth) sampleSent rs ∧
    clientLoop plainOptions plainEnv rs.length ⟨rs.flatMap (ServerReport.frame .big), .const 3⟩
      (.init true) = .ok c ∧
    (∃ p, c.findProcess 700 = some p ∧
      ∀ a z, (∃ b ∈ p.blocks, b.addr = a ∧ b.size = z) ↔ sampleMoved.live a = some z) ∧
    ∃ p, c.findProcess 800 = some p ∧
      ∀ a z, (∃ b ∈ p.blocks, b.addr = a ∧ b.size = z) ↔ sampleOther.live a = some z := by
  obtain ⟨hs, hprogram, h700, h800⟩ := program_sample
  have hlong : ∀ pid, sampleWidth pid = true → sampleConfig.long64 = true := fun _ _ => rfl
  obtain ⟨rs, hcarries, htables⟩ :=
    tables_follow_calls (o := plainOptions) hlong (by decide) hprogram
  obtain ⟨rs', hcarries', hsession⟩ := hprogram.session (o := plainOptions) (w := fun _ => none)
    hlong (by decide) Threads.init_sound fun _ _ hh => by cases hh
  have heq : rs' = rs := rightUnique_carries.forall₂ hcarries' hcarries
  subst heq
  have hevents : rs'.map (ServerReport.event true) = sampleEvents :=
    (map_event_of_carries hcarries true).trans rfl
  have hloop := clientLoop_sample hevents hsession.announced
  have hbs : serverStream .big false 3 rs' = some _ := serverStream_eq (by decide) _
  have hall := htables false 3 _ (.const 3) rs'.length sampleEnd (by decide) hbs le_rfl hloop
  exact ⟨rs', sampleEnd, hcarries, hloop, hall 700 _ h700 quiet_sampleMoved,
    hall 800 _ h800 fun _ => rfl⟩

end Mtrace
