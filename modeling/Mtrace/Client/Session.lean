import Mtrace.Client.Ledger
import Mtrace.Client.Transport

/-!
# From the heaps to the block tables

A session from end to end: the server watches any number of tasks, each with a heap that its threads
use, and reports what happens to the heaps one call after the other.  The reports travel as bytes,
with the widths of their tasks and in the byte order of the server.  When all of them have arrived,
the client's table of a task without a `realloc` in progress is the set of its live blocks.
-/

namespace Mtrace.Client

open RbTree Machine Wire Allocator

/-! ## Messages about a heap -/

/-- The operations by which a block is told to be obtained and given back, with the backtrace. -/
structure HeapOps where
  alloc : MtOperation
  free : MtOperation
  data : List UInt8
  isAlloc : isAllocOp alloc = true
  isFree : isFreeOp free = true
  isDone : free ≠ .reallocEnter

/-- The messages that `report.c` sends about an action of a heap, one after the other. -/
def MtMsg.about (ops : HeapOps) : Action UInt32 → List MtMsg
  | .alloc x => [.alloc ops.alloc ops.isAlloc ⟨x.addr, x.size, ops.data⟩]
  | .free a => [.free ops.free ops.isFree ⟨a, 0, ops.data⟩]
  | .reallocBegin t a => [.free .reallocEnter isFreeOp_reallocEnter ⟨a, t.toUInt64, ops.data⟩]
  | .release _ | .reserve .. => []
  | .reallocDone t x =>
    [.alloc .realloc isAllocOp_realloc ⟨x.addr, x.size, ops.data⟩,
      .reallocDone ⟨x.addr, t.toUInt64, []⟩]
  | .reallocFail t => [.reallocDone ⟨0, t.toUInt64, []⟩]

/-- The messages that only concern the heap of their task. -/
def MtMsg.ofHeap : MtMsg → Bool
  | .alloc .. | .free .. | .reallocDone _ => true
  | _ => false

/-- The messages about the maps of a task, which leave its blocks as they are. -/
def MtMsg.ofMaps : MtMsg → Bool
  | .addMap _ | .delMap _ => true
  | _ => false

/-- The handlers of messages about the heap. -/
def handleHeap (o : Options) (env : Env) (k : Stacks) (p : Process) (m : MtMsg) :
    Except Fault (Stacks × Process) := do
  let (k, p, _) ← handleRecord o env (fun _ => none) k p m
  return (k, p)

/-- The handlers of several messages. -/
def handleHeaps (o : Options) (env : Env) : Stacks → Process → List MtMsg →
    Except Fault (Stacks × Process)
  | k, p, [] => .ok (k, p)
  | k, p, m :: ms => do
    let (k, p) ← handleHeap o env k p m
    handleHeaps o env k p ms

section Handle

variable {o : Options} {env : Env} {k k' : Stacks} {p p' : Process} {ops : HeapOps} {m : MtMsg}
  {h : Heap UInt32} {a : Action UInt32}

theorem ofHeap_of_about {ms : List TaskReport} (hms : ms.map TaskReport.msg = MtMsg.about ops a) :
    ∀ r ∈ ms, r.msg.ofHeap = true := by
  have hall : ∀ m ∈ MtMsg.about ops a, m.ofHeap = true := by
    cases a <;> simp [MtMsg.about, MtMsg.ofHeap]
  exact fun r hr => hall _ (hms ▸ List.mem_map_of_mem hr)

theorem bind_ok (x : Except Fault (Stacks × Process)) : (x >>= fun r => .ok (r.1, r.2)) = x := by
  cases x <;> rfl

theorem handleHeap_alloc {op : MtOperation} {hop : isAllocOp op = true} {x : MtAllocPayload} :
    handleHeap o env k p (.alloc op hop x) = processAlloc o env k p op x := by
  rw [handleHeap, handleRecord, bind_assoc]
  exact bind_ok _

theorem handleHeap_free {op : MtOperation} {hop : isFreeOp op = true} {x : MtAllocPayload} :
    handleHeap o env k p (.free op hop x) = processFree o env k p op x := by
  rw [handleHeap, handleRecord, bind_assoc]
  exact bind_ok _

theorem handleHeap_reallocDone {x : MtAllocPayload} :
    handleHeap o env k p (.reallocDone x) = processReallocDone o k p x := by
  rw [handleHeap, handleRecord, bind_assoc]
  exact bind_ok _

theorem handleHeaps_single :
    handleHeaps o env k p [m] = handleHeap o env k p m := by
  rw [handleHeaps]
  exact bind_ok _

/-- The handlers of the messages about an action follow it. -/
theorem handleHeaps_about (hfree : ¬ ∃ x, a = .free x) :
    handleHeaps o env k p (MtMsg.about ops a) = follow o env k p ⟨ops.alloc, ops.data⟩ a := by
  cases a with
  | alloc x => exact handleHeaps_single.trans handleHeap_alloc
  | free x => exact absurd ⟨x, rfl⟩ hfree
  | reallocBegin t a => exact handleHeaps_single.trans handleHeap_free
  | release t => rfl
  | reserve t x => rfl
  | reallocDone t x =>
    rw [MtMsg.about, handleHeaps, handleHeap_alloc, follow]
    refine congrArg (processAlloc o env k p .realloc ⟨x.addr, x.size, ops.data⟩ >>= ·) ?_
    funext r
    exact handleHeaps_single.trans handleHeap_reallocDone
  | reallocFail t => exact handleHeaps_single.trans handleHeap_reallocDone

/-- By whatever operation a block is given back. -/
theorem Follows.free (hs : Follows ⟨h, k, p⟩) {op : MtOperation} (hne : op ≠ .reallocEnter)
    {x : UInt64} (he : h.Enabled (.free x)) (hp : h.Proper (.free x)) {data : List UInt8}
    (hr : Client.processFree o env k p op ⟨x, 0, data⟩ = .ok (k', p')) :
    Follows ⟨h.next (.free x), k', p'⟩ := by
  obtain ⟨htr, hord, ⟨re, -, -, -, hlist⟩, hblocks⟩ := hs.processFree he hp hr
  rw [if_neg hne, List.append_nil] at hlist
  refine ⟨hs.heap.next he hp, htr, hord, fun b z => (hblocks b z).trans Heap.tracked_free.symm,
    ?_, ?_, ?_⟩
  · exact hlist ▸ hs.threads
  · exact hlist ▸ hs.entries
  · exact hlist ▸ hs.calls

/-- The record follows the heap through the messages about an action. -/
theorem Follows.about (hs : Follows ⟨h, k, p⟩) (he : h.Enabled a) (hp : h.Proper a)
    (hr : handleHeaps o env k p (MtMsg.about ops a) = .ok (k', p')) :
    Follows ⟨h.next a, k', p'⟩ := by
  by_cases hfree : ∃ x, a = .free x
  · obtain ⟨x, rfl⟩ := hfree
    exact hs.free ops.isDone he hp ((handleHeaps_single.trans handleHeap_free).symm.trans hr)
  · rw [handleHeaps_about hfree] at hr
    have hstep : Traced.step o env ⟨h, k, p⟩ (a, ⟨ops.alloc, ops.data⟩) =
        .ok ⟨h.next a, k', p'⟩ := bind_eq_ok.mpr ⟨_, hr, rfl⟩
    exact hs.step he hp hstep

/-- A message about a heap leaves the widths as they are, and its handler looks at nothing but the
record. -/
theorem tell_ofHeap (w : Widths) (pid : UInt32) (hm : m.ofHeap = true) : w.tell o pid m = w := by
  unfold Widths.tell
  cases m with
  | alloc op hop m => exact Function.update_eq_self pid w
  | free op hop m => exact Function.update_eq_self pid w
  | reallocDone m => exact Function.update_eq_self pid w
  | _ => cases hm

theorem tell_ofMaps (w : Widths) (pid : UInt32) (hm : m.ofMaps = true) : w.tell o pid m = w := by
  unfold Widths.tell
  cases m with
  | addMap m => exact Function.update_eq_self pid w
  | delMap m => exact Function.update_eq_self pid w
  | _ => cases hm

theorem removes_ofMaps (hm : m.ofMaps = true) : m.removes o = false := by
  cases m with
  | addMap m => rfl
  | delMap m => rfl
  | _ => cases hm

theorem hasWords_ofMaps (hm : m.ofMaps = true) : m.hasWords = false := by
  cases m with
  | addMap m => rfl
  | delMap m => rfl
  | _ => cases hm

/-- The record follows the heap when the maps change. -/
theorem Follows.maps {parent : UInt32 → Option Process} (hs : Follows ⟨h, k, p⟩)
    (hm : m.ofMaps = true) {r : Stacks × Process × Bool}
    (hr : handleRecord o env parent k p m = .ok r) : Follows ⟨h, r.1, r.2.1⟩ := by
  cases m with
  | addMap m =>
    cases hr
    exact ⟨hs.heap, hs.tracing, hs.ordered, hs.blocks, hs.threads, hs.entries, hs.calls⟩
  | delMap m =>
    obtain ⟨p', hp', hr⟩ := bind_eq_ok.mp hr
    cases hr
    unfold processDelMap at hp'
    dsimp only at hp'
    split at hp' <;> cases hp'
    exact ⟨hs.heap, hs.tracing, hs.ordered, hs.blocks, hs.threads, hs.entries, hs.calls⟩
  | _ => cases hm

theorem removes_ofHeap (hm : m.ofHeap = true) : m.removes o = false := by
  cases m with
  | alloc op hop m => rfl
  | free op hop m => rfl
  | reallocDone m => rfl
  | _ => cases hm

theorem handleHeap_of_handleRecord {parent : UInt32 → Option Process} (hm : m.ofHeap = true)
    {r : Stacks × Process × Bool} (hr : handleRecord o env parent k p m = .ok r) :
    handleHeap o env k p m = .ok (r.1, r.2.1) := by
  cases m with
  | alloc op hop m =>
    unfold handleHeap
    exact bind_eq_ok.mpr ⟨r, hr, rfl⟩
  | free op hop m =>
    unfold handleHeap
    exact bind_eq_ok.mpr ⟨r, hr, rfl⟩
  | reallocDone m =>
    unfold handleHeap
    exact bind_eq_ok.mpr ⟨r, hr, rfl⟩
  | _ => cases hm

end Handle

/-! ## Sessions -/

/-- The heaps of the tasks the server watches from their start, by pid. -/
abbrev Heaps := UInt32 → Option (Heap UInt32)

/-- The pid of a report on the wire. -/
def TaskReport.wirePid (r : TaskReport) : UInt32 := r.pid.toUInt16.toUInt32

/-- The rest of a session, from what the server has told and the heaps it watches to the heaps at
the end. -/
inductive HeapSession (o : Options) (same : Prop) :
    Widths → Heaps → List ServerReport → Heaps → Prop
  | nil {w : Widths} {hs : Heaps} : HeapSession o same w hs [] hs
  /-- `MT_INFO` of a server that traces. -/
  | info {w : Widths} {hs hs' : Heaps} {rs : List ServerReport} {payload : List UInt8}
      {hlen : payload.length = 136} (hsame : same) (htrace : (payload.getD 2 0 != 0) = true)
      (rest : HeapSession o same w hs rs hs') :
      HeapSession o same w hs (.info payload hlen :: rs) hs'
  /-- A task starts a program. -/
  | attach {w : Widths} {hs hs' : Heaps} {rs : List ServerReport} {r : TaskReport}
      (hmsg : r.msg = .attach r.is64bit false)
      (rest : HeapSession o same (w.tell o r.wirePid r.msg)
        (Function.update hs r.wirePid (some .empty)) rs hs') :
      HeapSession o same w hs (.task r :: rs) hs'
  /-- A heap changes. -/
  | act {w : Widths} {hs hs' : Heaps} {rs : List ServerReport} {pid : UInt32} {h : Heap UInt32}
      {a : Action UInt32} {ops : HeapOps} {ms : List TaskReport} (hh : hs pid = some h)
      (he : h.Enabled a) (hp : h.Proper a) (hms : ms.map TaskReport.msg = MtMsg.about ops a)
      (hpid : ∀ r ∈ ms, r.wirePid = pid ∧ w pid = some r.is64bit)
      (rest : HeapSession o same w (Function.update hs pid (some (h.next a))) rs hs') :
      HeapSession o same w hs (ms.map .task ++ rs) hs'
  /-- A file is mapped or unmapped. -/
  | map {w : Widths} {hs hs' : Heaps} {rs : List ServerReport} {r : TaskReport}
      (hmaps : r.msg.ofMaps = true) (rest : HeapSession o same w hs rs hs') :
      HeapSession o same w hs (.task r :: rs) hs'
  /-- Anything else that is told about a task; what becomes of its heap is not promised. -/
  | other {w : Widths} {hs hs' : Heaps} {rs : List ServerReport} {r : TaskReport}
      (hw : r.msg.hasWords = true → w r.wirePid = some r.is64bit)
      (rest : HeapSession o same (w.tell o r.wirePid r.msg)
        (Function.update hs r.wirePid none) rs hs') :
      HeapSession o same w hs (.task r :: rs) hs'

section Announced

variable {o : Options} {same : Prop} {w : Widths} {hs hs' : Heaps} {rs : List ServerReport}

theorem announced_append {ms : List TaskReport}
    (hms : ∀ r ∈ ms, r.msg.ofHeap = true ∧ w r.wirePid = some r.is64bit)
    (h : Announced o same w rs) : Announced o same w (ms.map .task ++ rs) := by
  induction ms with
  | nil => exact h
  | cons r ms ih =>
    obtain ⟨hof, hw⟩ := hms r List.mem_cons_self
    refine ⟨fun _ => hw, ?_⟩
    rw [tell_ofHeap w _ hof]
    exact ih fun r' hr' => hms r' (List.mem_cons_of_mem r hr')

/-- The server of a session tells the width of a task before it uses it. -/
theorem HeapSession.announced (h : HeapSession o same w hs rs hs') : Announced o same w rs := by
  induction h with
  | nil => trivial
  | info hsame htrace rest ih => exact ⟨hsame, ih⟩
  | attach hmsg rest ih =>
    refine ⟨fun hwords => ?_, ih⟩
    rw [hmsg] at hwords
    cases hwords
  | act hh he hp hms hpid rest ih =>
    refine announced_append (fun r hr => ⟨ofHeap_of_about hms r hr, ?_⟩) ih
    rw [(hpid r hr).1]
    exact (hpid r hr).2
  | map hmaps rest ih =>
    rename_i w _ _ _ r
    refine ⟨fun hwords => ?_, ?_⟩
    · rw [hasWords_ofMaps hmaps] at hwords
      cases hwords
    · rw [tell_ofMaps w _ hmaps]
      exact ih
  | other hw rest ih => exact ⟨hw, ih⟩

end Announced

/-! ## The tables -/

theorem Follows.of_stacks {h : Heap UInt32} {k k' : Stacks} {p : Process} (hf : Follows ⟨h, k, p⟩) :
    Follows ⟨h, k', p⟩ :=
  ⟨hf.heap, hf.tracing, hf.ordered, hf.blocks, hf.threads, hf.entries, hf.calls⟩

/-- The records of the client follow the heaps. -/
structure Ledgers (w : Widths) (sw : Bool) (hs : Heaps) (c : State) : Prop where
  told : Told w sw true c
  follows : ∀ pid h, hs pid = some h → ∃ p, c.findProcess pid = some p ∧ Follows ⟨h, c.heap, p⟩

section Ledgers

variable {o : Options} {env : Env} {w : Widths} {sw : Bool} {hs hs' : Heaps} {c c' : State}
  {rs : List ServerReport} {r : TaskReport}

theorem ledgers_init : Ledgers (fun _ => none) sw (fun _ => none) (State.init true) where
  told := told_init fun _ => rfl
  follows pid h hh := by cases hh

/-- The heaps of the other tasks when a message is about one of them. -/
theorem Ledgers.others (hl : Ledgers w sw hs c) {pid : UInt32} (hc : ∀ a, pid ≠ a →
    c'.findProcess a = c.findProcess a) {a : UInt32} (ha : pid ≠ a) {h : Heap UInt32}
    (hh : hs a = some h) : ∃ p, c'.findProcess a = some p ∧ Follows ⟨h, c'.heap, p⟩ := by
  obtain ⟨p, hp, hf⟩ := hl.follows a h hh
  exact ⟨p, (hc a ha).trans hp, hf.of_stacks⟩

/-- A message about a task whose heap is not watched from then on. -/
theorem Ledgers.other (hl : Ledgers w sw hs c)
    (hc : c.step o env ((ServerReport.task r).event sw) = .ok c') :
    Ledgers (w.tell o r.wirePid r.msg) sw (Function.update hs r.wirePid none) c' := by
  obtain ⟨htold, -, -, -, hother⟩ := hl.told.clientFunc hc
  refine ⟨htold, fun a h hh => ?_⟩
  rcases Heap.update_eq_some.mp hh with ⟨-, hv⟩ | ⟨ha, hv⟩
  · cases hv
  · exact hl.others hother (Ne.symm ha) hv

/-- A message about the maps of a task. -/
theorem Ledgers.map (hl : Ledgers w sw hs c) (hmaps : r.msg.ofMaps = true)
    (hc : c.step o env ((ServerReport.task r).event sw) = .ok c') : Ledgers w sw hs c' := by
  obtain ⟨htold, r', hr, hkeep, hother⟩ := hl.told.clientFunc hc
  rw [tell_ofMaps w _ hmaps] at htold
  refine ⟨htold, fun a h hh => ?_⟩
  by_cases ha : r.pid.toUInt16.toUInt32 = a
  · subst ha
    obtain ⟨p, hp, hf⟩ := hl.follows _ h hh
    have henter : c.enter r.pid.toUInt16.toUInt32 sw = (c, p) := by
      unfold State.enter
      rw [hp]
    rw [henter] at hr
    obtain ⟨hheap, hfind⟩ := hkeep (removes_ofMaps hmaps)
    exact ⟨_, hfind, (hf.maps hmaps hr).of_stacks⟩
  · exact hl.others hother ha hh

/-- A task that starts a program has an empty heap and an empty table. -/
theorem Ledgers.attach (hl : Ledgers w sw hs c) {b : Bool} (hmsg : r.msg = .attach b false)
    (hc : c.step o env ((ServerReport.task r).event sw) = .ok c') :
    Ledgers (w.tell o r.wirePid r.msg) sw (Function.update hs r.wirePid (some .empty)) c' := by
  obtain ⟨htold, r', hr, hkeep, hother⟩ := hl.told.clientFunc hc
  obtain ⟨ht, hp⟩ := hl.told.enter r.pid.toUInt16.toUInt32
  refine ⟨htold, fun a h hh => ?_⟩
  rcases Heap.update_eq_some.mp hh with ⟨rfl, hv⟩ | ⟨ha, hv⟩
  · cases hv
    rw [hmsg] at hr hkeep
    obtain ⟨-, hfind⟩ := hkeep rfl
    obtain ⟨r2, hr2, hr⟩ := bind_eq_ok.mp hr
    cases hr
    obtain ⟨r1, hr1, hr2⟩ := bind_eq_ok.mp hr2
    cases hr2
    have hmem := (findProcess_eq_some hp).1
    rcases ht.accounted.processReset_ends hmem with ⟨-, herr⟩ | ⟨-, k', hok, -⟩
    · cases herr.symm.trans hr1
    · cases hok.symm.trans hr1
      exact ⟨_, hfind, follows_init ⟨(ht.record _ _ hp).tracing rfl, rfl, rfl⟩⟩
  · exact hl.others hother (Ne.symm ha) hv

/-- The messages about one heap: its record is the work of their handlers, the others stay. -/
theorem Told.runHeap {pid : UInt32} {p : Process} {ms : List TaskReport}
    (ht : Told w sw true c) (hp : c.findProcess pid = some p)
    (hms : ∀ r ∈ ms, r.msg.ofHeap = true ∧ r.wirePid = pid)
    (hc : run (State.step o env) c (ms.map fun r => (ServerReport.task r).event sw) = .ok c') :
    Told w sw true c' ∧ (∃ p', handleHeaps o env c.heap p (ms.map TaskReport.msg) =
        .ok (c'.heap, p') ∧ c'.findProcess pid = some p') ∧
      ∀ a, pid ≠ a → c'.findProcess a = c.findProcess a := by
  induction ms generalizing c p with
  | nil =>
    cases hc
    exact ⟨ht, ⟨p, rfl, hp⟩, fun _ _ => rfl⟩
  | cons r ms ih =>
    obtain ⟨c1, hstep, hrun⟩ := bind_eq_ok.mp hc
    obtain ⟨hof, rfl⟩ := hms r List.mem_cons_self
    obtain ⟨htold, r', hr, hkeep, hother⟩ := ht.clientFunc hstep
    have henter : c.enter r.pid.toUInt16.toUInt32 sw = (c, p) := by
      unfold State.enter
      rw [show c.findProcess r.pid.toUInt16.toUInt32 = some p from hp]
    rw [henter] at hr
    obtain ⟨hheap, hfind⟩ := hkeep (removes_ofHeap hof)
    rw [tell_ofHeap w _ hof] at htold
    obtain ⟨ht', ⟨p', hall, hp'⟩, hothers⟩ := ih htold hfind
      (fun r' hr' => hms r' (List.mem_cons_of_mem r hr')) hrun
    refine ⟨ht', ⟨p', ?_, hp'⟩, fun a ha => (hothers a ha).trans (hother a ha)⟩
    rw [List.map_cons, handleHeaps, handleHeap_of_handleRecord hof hr, ← hheap]
    exact hall

/-- An action of a heap. -/
theorem Ledgers.act (hl : Ledgers w sw hs c) {pid : UInt32} {h : Heap UInt32}
    {a : Action UInt32} {ops : HeapOps} {ms : List TaskReport} (hh : hs pid = some h)
    (he : h.Enabled a) (hp : h.Proper a) (hms : ms.map TaskReport.msg = MtMsg.about ops a)
    (hpid : ∀ r ∈ ms, r.wirePid = pid)
    (hc : run (State.step o env) c (ms.map fun r => (ServerReport.task r).event sw) = .ok c') :
    Ledgers w sw (Function.update hs pid (some (h.next a))) c' := by
  obtain ⟨p, hfind, hf⟩ := hl.follows pid h hh
  obtain ⟨ht, ⟨p', hall, hfind'⟩, hother⟩ := hl.told.runHeap hfind
    (fun r hr => ⟨ofHeap_of_about hms r hr, hpid r hr⟩) hc
  rw [hms] at hall
  refine ⟨ht, fun b h' hh' => ?_⟩
  rcases Heap.update_eq_some.mp hh' with ⟨rfl, hv⟩ | ⟨hb, hv⟩
  · cases hv
    exact ⟨p', hfind', hf.about he hp hall⟩
  · exact hl.others hother (Ne.symm hb) hv

/-- The tables follow the heaps to the end of the session. -/
theorem Ledgers.run {same : Prop} (hl : Ledgers w sw hs c)
    (hsession : HeapSession o same w hs rs hs')
    (hc : Machine.run (State.step o env) c (rs.map (ServerReport.event sw)) = .ok c') :
    ∃ w', Ledgers w' sw hs' c' := by
  induction hsession generalizing c with
  | nil =>
    cases hc
    exact ⟨_, hl⟩
  | info hsame htrace rest ih =>
    exact ih ⟨hl.told.info fun _ => htrace, hl.follows⟩ hc
  | attach hmsg rest ih =>
    obtain ⟨c1, hstep, hrun⟩ := bind_eq_ok.mp hc
    exact ih (hl.attach hmsg hstep) hrun
  | act hh he hp hms hpid rest ih =>
    rw [List.map_append, List.map_map] at hc
    rw [run_append] at hc
    obtain ⟨c1, hrun1, hrun⟩ := bind_eq_ok.mp hc
    exact ih (hl.act hh he hp hms (fun r hr => (hpid r hr).1) hrun1) hrun
  | map hmaps rest ih =>
    obtain ⟨c1, hstep, hrun⟩ := bind_eq_ok.mp hc
    exact ih (hl.map hmaps hstep) hrun
  | other hw rest ih =>
    obtain ⟨c1, hstep, hrun⟩ := bind_eq_ok.mp hc
    exact ih (hl.other hstep) hrun

/-- All messages of a stream that does not break off have arrived. -/
theorem arrived_all (so : ByteOrder) (rs : List ServerReport) :
    arrived so (rs.flatMap (ServerReport.frame so)).length rs = rs := by
  induction rs with
  | nil => rfl
  | cons r rs ih =>
    rw [arrived, List.flatMap_cons, List.length_append, if_neg (by omega), Nat.add_sub_cancel_left,
      ih]

/-- The client behind a session that has arrived as a whole. -/
theorem HeapSession.ledgers {so : ByteOrder} {logfile : Bool} {serverFd : ℤ} {bs : List UInt8}
    {amounts : Stream' ℕ} {k : ℕ}
    (hsession : HeapSession o (so = env.byteOrder) (fun _ => none) (fun _ => none) rs hs)
    (hfd : serverFd ≠ -1) (hbs : serverStream so logfile serverFd rs = some bs)
    (hk : rs.length ≤ k) (hc : clientLoop o env k ⟨bs, amounts⟩ (.init true) = .ok c) :
    ∃ w sw, Ledgers w sw hs c := by
  rw [serverStream_eq hfd, Option.some_inj] at hbs
  subst hbs
  have h0 : Told (fun _ => none) (decide (so ≠ env.byteOrder)) false (.init true) :=
    told_init fun _ => rfl
  have hloop : clientLoop o env k ⟨rs.flatMap (ServerReport.frame so), amounts⟩ (.init true) = _ :=
    h0.clientLoop hsession.announced List.take_length.symm
  rw [hc, arrived_all, List.take_of_length_le hk] at hloop
  rcases hrun : run (State.step o env) (.init true)
    (rs.map (ServerReport.event (decide (so ≠ env.byteOrder)))) with f | c'
  · rw [hrun] at hloop
    cases hloop
  · rw [hrun] at hloop
    cases hloop
    obtain ⟨w, hl⟩ := ledgers_init.run hsession hrun
    exact ⟨w, _, hl⟩

theorem Ledgers.table (hl : Ledgers w sw hs c) {pid : UInt32} {h : Heap UInt32}
    (hh : hs pid = some h) (hq : h.Quiet) : ∃ p, c.findProcess pid = some p ∧
      ∀ a z, (∃ b ∈ p.blocks, b.addr = a ∧ b.size = z) ↔ h.live a = some z := by
  obtain ⟨p, hp, hf⟩ := hl.follows pid h hh
  exact ⟨p, hp, fun a z => (hf.blocks a z).trans hq.tracked_iff⟩

/-- At the end of a session that arrives as a whole, the table of every task that is watched and not
in a `realloc` is the set of its live blocks. -/
theorem tables_eq_heaps {so : ByteOrder} {logfile : Bool} {serverFd : ℤ} {bs : List UInt8}
    {amounts : Stream' ℕ} {k : ℕ}
    (hsession : HeapSession o (so = env.byteOrder) (fun _ => none) (fun _ => none) rs hs)
    (hfd : serverFd ≠ -1) (hbs : serverStream so logfile serverFd rs = some bs)
    (hk : rs.length ≤ k) (hc : clientLoop o env k ⟨bs, amounts⟩ (.init true) = .ok c)
    {pid : UInt32} {h : Heap UInt32} (hh : hs pid = some h) (hq : h.Quiet) :
    ∃ p, c.findProcess pid = some p ∧
      ∀ a z, (∃ b ∈ p.blocks, b.addr = a ∧ b.size = z) ↔ h.live a = some z := by
  obtain ⟨w, sw, hl⟩ := hsession.ledgers hfd hbs hk hc
  exact hl.table hh hq

end Ledgers

/-! ## A sample session -/

section Acts

variable {o : Options} {same : Prop} {w : Widths} {hs hs' : Heaps} {rs : List ServerReport}
  {h : Heap UInt32} {a : Action UInt32}

/-- An action that is told of by one message. -/
theorem HeapSession.one (ops : HeapOps) {r : TaskReport} (hh : hs r.wirePid = some h)
    (he : h.Enabled a) (hp : h.Proper a) (hmsg : MtMsg.about ops a = [r.msg])
    (hw : w r.wirePid = some r.is64bit)
    (rest : HeapSession o same w (Function.update hs r.wirePid (some (h.next a))) rs hs') :
    HeapSession o same w hs (.task r :: rs) hs' := by
  have hpid : ∀ r' ∈ [r], r'.wirePid = r.wirePid ∧ w r.wirePid = some r'.is64bit := by
    intro r' hr'
    rw [List.mem_singleton.mp hr']
    exact ⟨rfl, hw⟩
  exact @HeapSession.act o same w hs hs' rs _ h a ops [r] hh he hp hmsg.symm hpid rest

/-- An action that is not told of. -/
theorem HeapSession.unseen (pid : UInt32) (hh : hs pid = some h) (he : h.Enabled a)
    (hp : h.Proper a) (hnone : ∀ ops, MtMsg.about ops a = [])
    (rest : HeapSession o same w (Function.update hs pid (some (h.next a))) rs hs') :
    HeapSession o same w hs rs hs' :=
  @HeapSession.act o same w hs hs' rs pid h a ⟨.malloc, .free, [], rfl, rfl, by decide⟩ [] hh he hp
    (hnone _).symm (fun _ hr => absurd hr List.not_mem_nil) rest

end Acts

/-- The heap of task 700: thread 701 moves one of two blocks, thread 702 gives the other one back
and is given what the first one has left. -/
def sampleOne : Heap UInt32 := Heap.empty.next (.alloc ⟨0x20010, 24⟩)

def sampleTwo : Heap UInt32 := sampleOne.next (.alloc ⟨0x20030, 16⟩)

def sampleBegun : Heap UInt32 := sampleTwo.next (.reallocBegin 701 0x20010)

def sampleFreed : Heap UInt32 := sampleBegun.next (.free 0x20030)

def sampleReserved : Heap UInt32 := sampleFreed.next (.reserve 701 ⟨0x20030, 40⟩)

def sampleReleased : Heap UInt32 := sampleReserved.next (.release 701)

def sampleReused : Heap UInt32 := sampleReleased.next (.alloc ⟨0x20010, 8⟩)

def sampleMoved : Heap UInt32 := sampleReused.next (.reallocDone 701 ⟨0x20030, 40⟩)

/-- The heap of task 800. -/
def sampleOther : Heap UInt32 := Heap.empty.next (.alloc ⟨0x30010, 16⟩)

theorem fresh_empty {x : Span} (hx : x.last ≤ 2 ^ 64) : (Heap.empty : Heap UInt32).Fresh x where
  fits := hx
  live a z ha := by cases ha
  reserved t r y ht := by cases ht

theorem live_sampleOne {a z : UInt64} (h : sampleOne.live a = some z) : a = 0x20010 ∧ z = 24 := by
  rcases Heap.update_eq_some.mp h with ⟨rfl, hz⟩ | ⟨-, hz⟩
  · cases hz
    exact ⟨rfl, rfl⟩
  · cases hz

theorem fresh_sampleOne : sampleOne.Fresh ⟨0x20030, 16⟩ where
  fits := by decide
  live a z ha := by
    obtain ⟨rfl, rfl⟩ := live_sampleOne ha
    exact .inr (by decide)
  reserved t r y ht := by cases ht

theorem live_sampleFreed {a z : UInt64} (h : sampleFreed.live a = some z) :
    a = 0x20010 ∧ z = 24 := by
  rcases Heap.update_eq_some.mp h with ⟨-, hz⟩ | ⟨hne, hold⟩
  · cases hz
  · rcases Heap.update_eq_some.mp hold with ⟨ha, -⟩ | ⟨-, hone⟩
    · exact absurd ha hne
    · exact live_sampleOne hone

theorem pending_sampleFreed {t : UInt32} {r : Realloc} (h : sampleFreed.pending t = some r) :
    t = 701 ∧ r = ⟨⟨0x20010, 24⟩, false, none⟩ := by
  rcases Heap.update_eq_some.mp h with ⟨rfl, hr⟩ | ⟨-, hr⟩
  · cases hr
    exact ⟨rfl, rfl⟩
  · cases hr

theorem fresh_sampleFreed : sampleFreed.Fresh ⟨0x20030, 40⟩ where
  fits := by decide
  live a z ha := by
    obtain ⟨rfl, rfl⟩ := live_sampleFreed ha
    exact .inr (by decide)
  reserved t r y ht hy := by
    obtain ⟨-, rfl⟩ := pending_sampleFreed ht
    cases hy

theorem not_live_sampleReleased (a : UInt64) : sampleReleased.live a = none := by
  cases h : sampleReleased.live a with
  | none => rfl
  | some z =>
    rcases Heap.update_eq_some.mp h with ⟨-, hz⟩ | ⟨hne, hold⟩
    · cases hz
    · exact absurd (live_sampleFreed hold).1 hne

theorem fresh_sampleReleased : sampleReleased.Fresh ⟨0x20010, 8⟩ where
  fits := by decide
  live a z ha := by cases (not_live_sampleReleased a).symm.trans ha
  reserved t r y ht hy := by
    rcases Heap.update_eq_some.mp ht with ⟨-, hr⟩ | ⟨hne, hold⟩
    · cases hr
      cases hy
      exact .inl (by decide)
    · rcases Heap.update_eq_some.mp hold with ⟨heq, -⟩ | ⟨-, hfreed⟩
      · exact absurd heq hne
      · exact absurd (pending_sampleFreed hfreed).1 hne

theorem not_held_sampleTwo (a : UInt64) : ¬ sampleTwo.Held a := by
  rintro ⟨t, r, hr, -⟩
  cases hr

/-- Nothing touches the block that is moved. -/
theorem not_held_sampleBegun : ¬ sampleBegun.Held 0x20030 := by
  rintro ⟨t, r, hr, -, heq⟩
  obtain ⟨-, rfl⟩ := pending_sampleFreed (t := t) (r := r) hr
  exact absurd heq (by decide)

theorem quiet_sampleMoved : sampleMoved.Quiet := by
  intro t
  cases h : sampleMoved.pending t with
  | none => rfl
  | some r =>
    rcases Heap.update_eq_some.mp h with ⟨-, hr⟩ | ⟨hne, h⟩
    · cases hr
    rcases Heap.update_eq_some.mp h with ⟨heq, -⟩ | ⟨-, h⟩
    · exact absurd heq hne
    rcases Heap.update_eq_some.mp h with ⟨heq, -⟩ | ⟨-, h⟩
    · exact absurd heq hne
    · exact absurd (pending_sampleFreed h).1 hne

def sampleMap : MtMapPayload := ⟨0x10000, 0, 0x1000, 0, "a.out"⟩

/-- The backtraces of the calls. -/
def callMalloc : List UInt8 := [0, 1, 0, 0x40]

def callRealloc : List UInt8 := [0, 1, 0, 0x80]

def callCalloc : List UInt8 := [0, 0, 0, 0, 0, 1, 0, 0x60]

/-- What the client gets: the two tasks start, and their heaps change. -/
def sampleEvents : List Event := [
  .msg 700 true (.attach false false), .msg 700 true (.addMap sampleMap),
  .msg 800 true (.attach true false), .msg 800 true (.addMap sampleMap),
  .msg 700 true (.alloc .malloc isAllocOp_malloc ⟨0x20010, 24, callMalloc⟩),
  .msg 700 true (.alloc .malloc isAllocOp_malloc ⟨0x20030, 16, callMalloc⟩),
  .msg 800 true (.alloc .malloc isAllocOp_malloc ⟨0x30010, 16, callCalloc⟩),
  .msg 700 true (.free .reallocEnter isFreeOp_reallocEnter ⟨0x20010, 701, []⟩),
  .msg 700 true (.free .free isFreeOp_free ⟨0x20030, 0, []⟩),
  .msg 700 true (.alloc .malloc isAllocOp_malloc ⟨0x20010, 8, callMalloc⟩),
  .msg 700 true (.alloc .realloc isAllocOp_realloc ⟨0x20030, 40, callRealloc⟩),
  .msg 700 true (.reallocDone ⟨0x20030, 701, []⟩)]

/-- The session of a big-endian server with a task of 32 bits and one of 64 bits. -/
theorem session_sample : ∃ rs hs, HeapSession plainOptions (.big = plainEnv.byteOrder)
      (fun _ => none) (fun _ => none) rs hs ∧
    rs.map (ServerReport.event true) = sampleEvents ∧ hs 700 = some sampleMoved ∧
      hs 800 = some sampleOther := by
  have hshort {data : List UInt8} (b : Bool) (n m : UInt64) (hdata : data.length ≤ 8) :
      (MtAllocPayload.toBytes .little b ⟨n, m, data⟩).length < 2 ^ 31 := by
    have hb : wordSize b ≤ 8 := by cases b <;> decide
    rw [length_alloc_toBytes]
    exact (Nat.add_le_add (Nat.mul_le_mul_left 2 hb) hdata).trans_lt (by decide)
  let ops : HeapOps := ⟨.malloc, .free, callMalloc, rfl, rfl, by decide⟩
  let ops0 : HeapOps := ⟨.malloc, .free, [], rfl, rfl, by decide⟩
  let ops64 : HeapOps := ⟨.malloc, .free, callCalloc, rfl, rfl, by decide⟩
  let ops2 : HeapOps := ⟨.malloc, .free, callRealloc, rfl, rfl, by decide⟩
  have hdone : ∀ r ∈ ([⟨700, false, .alloc .realloc isAllocOp_realloc ⟨0x20030, 40, callRealloc⟩,
      ⟨by decide, by decide⟩, hshort _ _ _ (by decide)⟩,
      ⟨700, false, .reallocDone ⟨0x20030, 701, []⟩, ⟨by decide, by decide⟩,
        hshort _ _ _ (by decide)⟩] :
        List TaskReport),
      r.wirePid = 700 ∧ Function.update (Function.update (fun _ => none) 700 (some false)) 800
        (some true) 700 = some r.is64bit := by
    intro r hr
    simp only [List.mem_cons, List.not_mem_nil, or_false] at hr
    rcases hr with rfl | rfl
    · exact ⟨rfl, rfl⟩
    · exact ⟨rfl, rfl⟩
  refine ⟨_, _, .attach (r := ⟨700, false, .attach false false, fits_attach, short_attach⟩) rfl
    (.map (r := ⟨700, false, .addMap sampleMap, fits_sampleMap, short_sampleMap⟩) rfl
    (.attach (r := ⟨800, true, .attach true false, fits_attach, short_attach⟩) rfl
    (.map (r := ⟨800, true, .addMap sampleMap, fits_sampleMap, short_sampleMap⟩) rfl
    (.one (a := .alloc ⟨0x20010, 24⟩) ops (r := ⟨700, false, .alloc .malloc isAllocOp_malloc
      ⟨0x20010, 24, callMalloc⟩, ⟨by decide, by decide⟩, hshort _ _ _ (by decide)⟩) rfl
        (fresh_empty (by decide))
      (show (0x20010 : UInt64) ≠ 0 by decide) rfl rfl
    (.one (a := .alloc ⟨0x20030, 16⟩) ops (r := ⟨700, false, .alloc .malloc isAllocOp_malloc
      ⟨0x20030, 16, callMalloc⟩, ⟨by decide, by decide⟩, hshort _ _ _ (by decide)⟩) rfl
        fresh_sampleOne
      (show (0x20030 : UInt64) ≠ 0 by decide) rfl rfl
    (.one (a := .alloc ⟨0x30010, 16⟩) ops64 (r := ⟨800, true, .alloc .malloc isAllocOp_malloc
      ⟨0x30010, 16, callCalloc⟩, ⟨by decide, by decide⟩, hshort _ _ _ (by decide)⟩) rfl
        (fresh_empty (by decide))
      (show (0x30010 : UInt64) ≠ 0 by decide) rfl rfl
    (.one (a := .reallocBegin 701 0x20010) ops0 (r := ⟨700, false, .free .reallocEnter
      isFreeOp_reallocEnter ⟨0x20010, 701, []⟩, ⟨by decide, by decide⟩,
        hshort _ _ _ (by decide)⟩) rfl
      ⟨rfl, by decide⟩ (not_held_sampleTwo _) rfl rfl
    (.one (a := .free 0x20030) ops0 (r := ⟨700, false, .free .free isFreeOp_free
      ⟨0x20030, 0, []⟩, ⟨by decide, by decide⟩, hshort _ _ _ (by decide)⟩) rfl
        (show _ ≠ none by decide)
      not_held_sampleBegun rfl rfl
    (.unseen (a := .reserve 701 ⟨0x20030, 40⟩) 700 rfl ⟨_, rfl, rfl, fresh_sampleFreed⟩
      (show (0x20030 : UInt64) ≠ 0 by decide) (fun _ => rfl)
    (.unseen (a := .release 701) 700 rfl ⟨_, rfl, rfl, rfl⟩ trivial (fun _ => rfl)
    (.one (a := .alloc ⟨0x20010, 8⟩) ops (r := ⟨700, false, .alloc .malloc isAllocOp_malloc
      ⟨0x20010, 8, callMalloc⟩, ⟨by decide, by decide⟩, hshort _ _ _ (by decide)⟩) rfl
        fresh_sampleReleased
      (show (0x20010 : UInt64) ≠ 0 by decide) rfl rfl
    (@HeapSession.act _ _ _ _ _ _ 700 _ (.reallocDone 701 ⟨0x20030, 40⟩) ops2 _ rfl
      ⟨_, rfl, rfl, rfl⟩ trivial rfl hdone .nil)))))))))))), rfl, rfl, rfl⟩

/-- The client behind the session. -/
def sampleEnd : State :=
  match run (State.step plainOptions plainEnv) (.init true) sampleEvents with
  | .ok c => c
  | .error _ => .init true

theorem run_sample :
    run (State.step plainOptions plainEnv) (.init true) sampleEvents = .ok sampleEnd := by
  rfl

theorem clientLoop_sample {rs : List ServerReport} (hrs : rs.map (ServerReport.event true) =
      sampleEvents) (h : Announced plainOptions (.big = plainEnv.byteOrder) (fun _ => none) rs) :
    clientLoop plainOptions plainEnv rs.length ⟨rs.flatMap (ServerReport.frame .big), .const 3⟩
      (.init true) = .ok sampleEnd := by
  have h0 : Told (fun _ => none) (decide (ByteOrder.big ≠ plainEnv.byteOrder)) false (.init true) :=
    told_init fun _ => rfl
  have hloop : clientLoop plainOptions plainEnv rs.length
      ⟨rs.flatMap (ServerReport.frame .big), .const 3⟩ (.init true) = _ :=
    h0.clientLoop h List.take_length.symm
  rw [hloop, arrived_all, List.take_length]
  exact congrArg (Except.mapError ReceiveFault.handler)
    ((congrArg (run (State.step plainOptions plainEnv) (.init true)) hrs).trans run_sample)

/-- The moved block and the reused one are in the table of task 700, and task 800 has its own. -/
theorem tables_eq_heaps_sample :
    (∃ p, sampleEnd.findProcess 700 = some p ∧
      ∀ a z, (∃ b ∈ p.blocks, b.addr = a ∧ b.size = z) ↔ sampleMoved.live a = some z) ∧
    ∃ p, sampleEnd.findProcess 800 = some p ∧
      ∀ a z, (∃ b ∈ p.blocks, b.addr = a ∧ b.size = z) ↔ sampleOther.live a = some z := by
  obtain ⟨rs, hs, hsession, hrs, h700, h800⟩ := session_sample
  have hloop := clientLoop_sample hrs hsession.announced
  have hbs : serverStream .big false 3 rs = some _ := serverStream_eq (by decide) _
  exact ⟨tables_eq_heaps hsession (by decide) hbs le_rfl hloop h700 quiet_sampleMoved,
    tables_eq_heaps hsession (by decide) hbs le_rfl hloop h800 fun _ => rfl⟩

end Mtrace.Client
