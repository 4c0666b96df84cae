import Mtrace.Client.Accounted
import Mtrace.Client.Faults

/-!
# What a step of the client does

The case analysis over all messages and commands, done once.  Every step from an accounted state
ends in an accounted state or in a fault, and the theorem `step_ends` says which: either the fault
answers to the input, or the step has reset a record while a dump of it was waiting.  In the new
state every record is an old one or has evolved from the one the event is about (`Evolves`).
-/

namespace Mtrace.Client

open RbTree Machine

/-! ## Open allocations -/

section Counted

theorem length_addBlock (p : Process) (b : RbBlock) :
    (p.addBlock b).blocks.length = p.blocks.length + 1 := by
  obtain ⟨as, bs, hp, hp'⟩ := blocks_addBlock p b
  rw [hp, hp', List.perm_middle.length_eq, List.length_cons]

theorem Process.Counted.addBlock {p : Process} (h : p.Counted) (b : RbBlock) :
    (p.addBlock b).Counted := by
  rw [Process.Counted, length_addBlock, UInt64.ofNat_add, ← h]
  rfl

theorem Process.Counted.changed {l : Change} {s s' : Stacks × Process} (h : s.2.Counted)
    (hc : Changed l s s') : s'.2.Counted := by
  cases hc with
  | alloc hs hn => exact h.addBlock _
  | restore hn => exact h.addBlock _
  | @drop k p x n hx hn =>
    have hp := Process.blocks_of_tree hx
    have hlen : p.blocks.length = (p.dropBlock x).blocks.length + 1 := by
      rw [hp, blocks_dropBlock, List.perm_middle.length_eq, List.length_cons]
    show p.nAllocations - 1 = _
    rw [show p.nAllocations = _ from h, hlen, UInt64.ofNat_add]
    exact UInt64.add_sub_cancel _ _
  | @trim k p x n hx hn size =>
    have hp := Process.blocks_of_tree hx
    show p.nAllocations = _
    rw [show p.nAllocations = _ from h, hp, blocks_trimBlock]
    simp
  | @mark k p x n hx hn hl =>
    have hp := Process.blocks_of_tree hx
    show p.nAllocations = _
    rw [show p.nAllocations = _ from h, hp, blocks_markBlock]
    simp
  | link hf op ignore => exact h
  | stamp i a b => exact h
  | hold hi hn => exact h
  | await pid => exact h
  | release hp hi hn => exact h
  | forget hp hi => exact h

theorem Changed.pid_eq {l : Change} {s s' : Stacks × Process} (hc : Changed l s s') :
    s'.2.pid = s.2.pid := by
  cases hc <;> rfl

theorem Chain.pid_eq {C : Change → Prop} {s s' : Stacks × Process} (hc : Chain C s s') :
    s'.2.pid = s.2.pid :=
  hc.invariant (P := fun r => r.2.pid = s.2.pid) (fun _ _ _ _ h hc => hc.pid_eq.trans h) rfl

theorem Process.Counted.chain {C : Change → Prop} {s s' : Stacks × Process} (hc : Chain C s s')
    (h : s.2.Counted) : s'.2.Counted :=
  hc.invariant (P := fun r => r.2.Counted) (fun _ _ _ _ h hc => h.changed hc) h

/-- The counters of a record after blocks are copied into it. -/
theorem duplicateBlocks_counters {o : Options} {copy : Process} {bs : List RbBlock} {k : Stacks}
    {p : Process} {r : Stacks × Process} (h : duplicateBlocks o copy bs k p = .ok r) :
    r.2.pid = p.pid ∧ r.2.nAllocations = p.nAllocations + UInt64.ofNat bs.length ∧
      r.2.bytesUsed = p.bytesUsed + (bs.map (·.size)).sum ∧
      r.2.blocks.length = p.blocks.length + bs.length := by
  induction bs generalizing k p with
  | nil => cases h; simp
  | cons b bs ih =>
    obtain ⟨r1, h1, h2⟩ := bind_eq_ok.mp h
    obtain ⟨n, k1, p1, i, n1, -, hcl, -, rfl⟩ := processRbDuplicateBlock_cases h1
    have hp1 : p1.pid = p.pid ∧ p1.nAllocations = p.nAllocations ∧ p1.bytesUsed = p.bytesUsed ∧
        p1.blocks = p.blocks := by
      rcases stackClone_cases k p n with ⟨x, -, heq⟩ | ⟨-, heq⟩
      · cases heq.symm.trans hcl; exact ⟨rfl, rfl, rfl, rfl⟩
      · cases heq.symm.trans hcl; exact ⟨rfl, rfl, rfl, rfl⟩
    obtain ⟨hpid, hn, hb, hl⟩ := ih (p := p1.copyBlock b i) h2
    have hlen : (p1.copyBlock b i).blocks.length = p1.blocks.length + 1 := length_addBlock ..
    refine ⟨hpid.trans hp1.1, hn.trans ?_, hb.trans ?_, ?_⟩
    · show p1.nAllocations + 1 + _ = _
      rw [hp1.2.1, List.length_cons, UInt64.ofNat_add]
      grind
    · show p1.bytesUsed + b.size + _ = _
      rw [hp1.2.2.1, List.map_cons, List.sum_cons, add_assoc]
    · rw [hl, hlen, hp1.2.2.2, List.length_cons]
      omega

end Counted

/-! ## The evolution of a record -/

/-- Two records with the same ledger: they may differ in the references on their nodes and in what
is known of the process itself. -/
structure SameLedger (p p' : Process) : Prop where
  pid : p'.pid = p.pid
  blockTable : p'.blockTable = p.blockTable
  reallocList : p'.reallocList = p.reallocList
  nodes : ∃ c : RbStack → ℕ, p'.nodes = p.nodes.map fun n => n.withRefs (c n)
  nAllocations : p'.nAllocations = p.nAllocations
  bytesUsed : p'.bytesUsed = p.bytesUsed
  leaks : p'.leaks = p.leaks
  leakedBytes : p'.leakedBytes = p.leakedBytes

theorem map_withRefs (ns : List RbStack) : ns = ns.map fun n => n.withRefs n.refcnt :=
  (List.map_id ns).symm

namespace SameLedger

theorem refl (p : Process) : SameLedger p p :=
  ⟨rfl, rfl, rfl, ⟨_, map_withRefs p.nodes⟩, rfl, rfl, rfl, rfl⟩

theorem trans {p p' p'' : Process} (h : SameLedger p p') (h' : SameLedger p' p'') :
    SameLedger p p'' where
  pid := h'.pid.trans h.pid
  blockTable := h'.blockTable.trans h.blockTable
  reallocList := h'.reallocList.trans h.reallocList
  nodes := by
    obtain ⟨c, hc⟩ := h.nodes
    obtain ⟨c', hc'⟩ := h'.nodes
    refine ⟨fun n => c' (n.withRefs (c n)), ?_⟩
    rw [hc', hc, List.map_map]
    rfl
  nAllocations := h'.nAllocations.trans h.nAllocations
  bytesUsed := h'.bytesUsed.trans h.bytesUsed
  leaks := h'.leaks.trans h.leaks
  leakedBytes := h'.leakedBytes.trans h.leakedBytes

theorem status (p : Process) (status : ProcessStatus) : SameLedger p { p with status } :=
  ⟨rfl, rfl, rfl, ⟨_, map_withRefs p.nodes⟩, rfl, rfl, rfl, rfl⟩

theorem counted {p p' : Process} (h : SameLedger p p') (hc : p.Counted) : p'.Counted := by
  rw [Process.Counted, h.nAllocations, Process.blocks, h.blockTable]
  exact hc

end SameLedger

theorem Rerefs.sameLedger {p p' : Process} : Rerefs p p' → SameLedger p p' := by
  rintro ⟨c, rfl⟩
  exact ⟨rfl, rfl, rfl, ⟨c, Process.nodes_mapNodes ..⟩, rfl, rfl, rfl, rfl⟩

/-- The record `p` evolves into another one under an event about its process. -/
inductive Evolves (o : Options) (env : Env) (c : State) (p : Process) : Event → Process → Prop
  | alloc {pid : UInt16} {sw : Bool} {op : MtOperation} {hop : isAllocOp op = true}
      {m : MtAllocPayload} {k' : Stacks} {p' : Process}
      (h : processAlloc o env c.heap p op m = .ok (k', p')) :
      Evolves o env c p (.msg pid sw (.alloc op hop m)) p'
  | free {pid : UInt16} {sw : Bool} {op : MtOperation} {hop : isFreeOp op = true}
      {m : MtAllocPayload} {k' : Stacks} {p' : Process}
      (h : processFree o env c.heap p op m = .ok (k', p')) :
      Evolves o env c p (.msg pid sw (.free op hop m)) p'
  | reallocDone {pid : UInt16} {sw : Bool} {m : MtAllocPayload} {k' : Stacks} {p' : Process}
      (h : processReallocDone o c.heap p m = .ok (k', p')) :
      Evolves o env c p (.msg pid sw (.reallocDone m)) p'
  | munmap {pid : UInt16} {sw : Bool} {m : MtAllocPayload} {k' : Stacks} {p' : Process}
      (h : processMunmap o c.heap p m = .ok (k', p')) :
      Evolves o env c p (.msg pid sw (.munmap m)) p'
  | fork {pid : UInt16} {sw : Bool} {ppid : UInt32} {parent : Process} {k' : Stacks} {p' : Process}
      (hparent : parent ∈ c.processes) (hppid : parent.pid = ppid)
      (h : processDuplicate o c.heap p (some parent) = .ok (k', p')) :
      Evolves o env c p (.msg pid sw (.fork ppid)) p'
  | attach {pid : UInt16} {sw is64bit attached : Bool} :
      Evolves o env c p (.msg pid sw (.attach is64bit attached))
        (processInit p.cleared p.swapEndian is64bit attached)
  | scan {pid : UInt16} {sw : Bool} {leaks : List UInt64} {p1 p' : Process}
      (h : scanBlocks leaks p = .ok p1) (hs : SameLedger p1 p') :
      Evolves o env c p (.msg pid sw (.scan leaks)) p'
  | reset {pid : UInt32} {p1 p' : Process} (h : p.Emptied p1) (hs : SameLedger p1 p') :
      Evolves o env c p (.reset pid) p'
  | start {pid : UInt32} {p1 p' : Process} (h : p.Emptied p1) (hs : SameLedger p1 p') :
      Evolves o env c p (.start pid) p'
  | select {e : Event} {p1 : Process} (hs : SameLedger p p1) (mode : ScanMode) :
      Evolves o env c p e (processLeaksScan p1 mode)
  | same {e : Event} {p' : Process} (hs : SameLedger p p') : Evolves o env c p e p'

namespace State

/-- The state in which the record an event is about is looked at. -/
def entered (c : State) : Event → State
  | .msg pid swapEndian _ => (c.enter pid.toUInt32 swapEndian).1
  | _ => c

/-- The record an event is about, unless the client ignores the message. -/
def target (c : State) : Event → Option Process
  | .info _ => none
  | .msg pid swapEndian _ =>
    let p := (c.enter pid.toUInt32 swapEndian).2
    if p.swapEndian ≠ swapEndian ∨ p.status = .ignore then none else some p
  | .reset pid | .start pid | .stop pid | .scan pid _ | .dump pid => c.findProcess pid
  | .dumpEnd => c.dumps.head?.bind fun d => c.findProcess d.pid

/-- The messages on which a record is reset. -/
def resets (o : Options) : MtMsg → Bool
  | .fork _ | .attach .. | .nofollow => true
  | .exit | .scan _ => !o.interactive
  | .detach => !o.autoScan && !o.interactive
  | _ => false

/-- The message resets a record of which a dump waits. -/
def HitsDump (o : Options) (c : State) : Event → Prop
  | .msg pid swapEndian m => pid ≠ 0 ∧ resets o m = true ∧ ∃ p ∈ c.processes,
      p.pid = pid.toUInt32 ∧ p.swapEndian = swapEndian ∧ p.status ≠ .ignore ∧
        ∃ d ∈ c.dumps, d.pid = p.pid
  | _ => False

end State

theorem enter_cases {c : State} (h : Accounted c) (pid : UInt32) (swapEndian : Bool) :
    (∃ p, c.enter pid swapEndian = (c, p) ∧ p ∈ c.processes ∧ p.pid = pid) ∨
      (∀ q ∈ c.processes, q.pid ≠ pid) ∧ c.enter pid swapEndian =
        (c.addProcess (processNew pid swapEndian c.doTrace),
          processNew pid swapEndian c.doTrace) := by
  unfold State.enter
  rcases hf : c.findProcess pid with _ | p
  · exact .inr ⟨h.sorted.findProcess_eq_none.mp hf, rfl⟩
  · exact .inl ⟨p, rfl, findProcess_eq_some hf⟩

theorem mem_addProcess {c : State} (h : Accounted c) {p : Process}
    (hnew : ∀ q ∈ c.processes, q.pid ≠ p.pid) {q : Process} :
    q ∈ (c.addProcess p).processes ↔ q = p ∨ q ∈ c.processes := by
  obtain ⟨as, bs, hps, hps', -⟩ := processes_addProcess h.sorted hnew
  rw [hps, hps']
  simp only [List.mem_append, List.mem_cons]
  tauto

/-! ## One message -/

section Dispatch

variable {o : Options} {env : Env} {c : State} {p : Process}

/-- The outcomes of a step that is not supposed to fail: the new state is accounted for, and its
records are old ones or have evolved from `p`. -/
def Goes (o : Options) (env : Env) (c : State) (p : Process) (e : Event) (c' : State) : Prop :=
  Accounted c' ∧ ∀ q ∈ c'.processes, q ∈ c.processes ∨ Evolves o env c p e q

theorem goes_store {e : Event} {k : Stacks} {p' : Process} (h : Accounted c)
    (hp : p ∈ c.processes) (hpid : p'.pid = p.pid)
    (ho : Owned k p' (dumpRefs c.dumps p.pid) (otherRefs c.processes p.pid)) (hc : p'.Counted)
    (hev : Evolves o env c p e p') : Goes o env c p e (c.store k p') := by
  refine ⟨h.store hp hpid ho hc, fun q hq => ?_⟩
  rcases mem_store hq with rfl | ⟨hq, -⟩
  · exact .inr hev
  · exact .inl hq

/-- A handler that is a sequence of changes. -/
theorem handler_goes {e : Event} {E : Fault → Prop} {x : Except Fault (Stacks × Process)}
    (h : Accounted c) (hp : p ∈ c.processes) (hx : Ends E (fun _ => True) x)
    (hch : ∀ r, x = .ok r → Chain (fun _ => True) (c.heap, p) r)
    (hev : ∀ k' p', x = .ok (k', p') → Evolves o env c p e p') :
    Ends E (Goes o env c p e) (x >>= fun r => .ok (c.store r.1 r.2)) := by
  refine hx.bind fun r hr _ => ?_
  have hchr := hch r hr
  exact goes_store h hp hchr.pid_eq ((h.owned p hp).chain hchr) ((h.counted p hp).chain hchr)
    (hev r.1 r.2 hr)

theorem removeProcess_ends (h : Accounted c) {pid : UInt32} :
    Ends (fun f => f = .fatal "unexpected stack tree ref count!\n" ∧ ∃ d ∈ c.dumps, d.pid = pid)
      (fun c' => (¬ ∃ d ∈ c.dumps, d.pid = pid) ∧ Accounted c' ∧
        ∀ q ∈ c'.processes, q ∈ c.processes) (c.removeProcess pid) := by
  unfold State.removeProcess
  rcases hf : c.pidTable.find (pidCut pid) with _ | x
  · refine ⟨fun ⟨d, hd, hpid⟩ => ?_, h, fun q hq => hq⟩
    obtain ⟨-, q, hq, hqd⟩ := h.dumps d hd
    exact (find_eq_none_iff (h.sorted.monoCut pid)).mp hf q hq (pidCut_eq_eq.mpr (hqd.trans hpid))
  · obtain ⟨hmem, rfl⟩ := find_pid_eq_some hf
    have hx : c.processes = x.before ++ x.val :: x.after := toList_of_find hf
    dsimp only
    rcases h.processReset_ends hmem with ⟨hd, herr⟩ | ⟨hno, k', hok, ho⟩
    · rw [herr]; exact ⟨rfl, hd⟩
    · rw [hok]
      refine ⟨hno, h.erase hx ho fun d hd he => hno ⟨d, hd, he⟩, fun q hq => ?_⟩
      rw [show State.processes _ = x.before ++ x.after from toList_erase x] at hq
      rw [hx]
      simp only [List.mem_append, List.mem_cons] at hq ⊢
      tauto

/-- A record with the same ledger is accounted for like the old one. -/
theorem goes_same {e : Event} {p' : Process} (h : Accounted c) (hp : p ∈ c.processes)
    (ho : Owned c.heap p' (dumpRefs c.dumps p.pid) (otherRefs c.processes p.pid))
    (hs : SameLedger p p') : Goes o env c p e (c.store c.heap p') := by
  exact goes_store h hp hs.pid ho (hs.counted (h.counted p hp)) (.same hs)

theorem Owned.processLeaksScan {k : Stacks} {ext : NodeId → ℕ} {rest : StackId → ℕ}
    (h : Owned k p ext rest) (mode : ScanMode) : Owned k (processLeaksScan p mode) ext rest := by
  unfold Client.processLeaksScan
  split
  · exact h
  · refine h.neutral (f := id) (fun _ => rfl) (fun _ => rfl) (fun _ => rfl) (List.map_id _).symm
      (fun i => ?_) rfl rfl rfl
    rw [Process.blocks, toList_map, blockRefs, List.countP_map]
    refine List.countP_congr fun b _ => ?_
    simp only [Function.comp]
    split <;> rfl

theorem Process.Counted.processLeaksScan (h : p.Counted) (mode : ScanMode) :
    (processLeaksScan p mode).Counted := by
  unfold Client.processLeaksScan
  split
  · exact h
  · rw [Process.Counted, Process.blocks, toList_map, List.length_map]
    exact h

theorem processLeaksScan_pid (p : Process) (mode : ScanMode) :
    (processLeaksScan p mode).pid = p.pid := by
  unfold processLeaksScan
  split <;> rfl

/-- A leak scan of a record after a change of its own fields. -/
theorem goes_select {e : Event} {p' : Process} (h : Accounted c) (hp : p ∈ c.processes)
    (hs : SameLedger p p')
    (ho : Owned c.heap p' (dumpRefs c.dumps p.pid) (otherRefs c.processes p.pid))
    (mode : ScanMode) : Goes o env c p e (c.store c.heap (processLeaksScan p' mode)) := by
  exact goes_store h hp ((processLeaksScan_pid p' mode).trans hs.pid) (ho.processLeaksScan mode)
    ((hs.counted (h.counted p hp)).processLeaksScan mode) (.select hs mode)

/-- Printing a record to a file and removing it. -/
theorem dump_remove_ends {e : Event} {p1 : Process} (h : Accounted c) (hp : p ∈ c.processes)
    (hpid : p1.pid = p.pid)
    (ho : Owned c.heap p1 (dumpRefs c.dumps p.pid) (otherRefs c.processes p.pid))
    (hc : p1.Counted) (hev : ∀ p', SameLedger p1 p' → Evolves o env c p e p') :
    Ends (fun f => f = .fatal "unexpected stack tree ref count!\n" ∧ ∃ d ∈ c.dumps, d.pid = p.pid)
      (fun c' => (¬ ∃ d ∈ c.dumps, d.pid = p.pid) ∧ Goes o env c p e c')
      (processDumpSortby c.heap p1 >>= fun r => (c.store r.1 r.2).removeProcess r.2.pid) := by
  obtain ⟨k', p', hd, hre, ho'⟩ := ho.processDumpSortby_ok
  have hs := hre.sameLedger
  have hpid' : p'.pid = p.pid := hs.pid.trans hpid
  have hc' : p'.Counted := hs.counted hc
  have hst := goes_store h hp hpid' ho' hc' (hev p' hs)
  rw [hd]
  show Ends _ _ ((c.store k' p').removeProcess p'.pid)
  rw [hpid']
  refine (removeProcess_ends hst.1).mono (fun _ hf => hf) ?_
  rintro c' - ⟨hno, hac, hsub⟩
  exact ⟨hno, hac, fun q hq => hst.2 q (hsub q hq)⟩

theorem foldl_processAddMap (ms : List Map) (p : Process) : ∃ filename mapList,
    ms.foldl processAddMap p = { p with filename, mapList } := by
  induction ms generalizing p with
  | nil => exact ⟨p.filename, p.mapList, rfl⟩
  | cons m ms ih =>
    obtain ⟨f, l, h⟩ := ih (processAddMap p m)
    exact ⟨f, l, h⟩

theorem duplicateFrom_cases {copy p p' : Process} {k k' : Stacks}
    (h : duplicateFrom o copy k p = .ok (k', p')) : ∃ p1,
      duplicateBlocks o copy copy.blockTable.postorder k
        (processInit p copy.swapEndian copy.is64bit copy.attached) = .ok (k', p1) ∧
      copy.bytesUsed = p1.bytesUsed ∧ copy.nAllocations = p1.nAllocations ∧ SameLedger p1 p' := by
  obtain ⟨⟨k1, p1⟩, h1, h2⟩ := bind_eq_ok.mp h
  obtain ⟨fn, ml, hmaps⟩ := foldl_processAddMap copy.mapList p1
  dsimp only at h2
  rw [hmaps] at h2
  by_cases hb : copy.bytesUsed = p1.bytesUsed
  · by_cases hn : copy.nAllocations = p1.nAllocations
    · simp only [hb, hn, ne_eq, not_true_eq_false, if_false] at h2
      cases h2
      exact ⟨p1, h1, hb, hn, rfl, rfl, rfl, ⟨_, map_withRefs _⟩, rfl, rfl, rfl, rfl⟩
    · simp [hb, hn] at h2
  · simp [hb] at h2

/-- What `process_duplicate` does when it returns. -/
theorem Owned.processDuplicate_cases {p q p' : Process} {k k' : Stacks} {ext : NodeId → ℕ}
    {rest : StackId → ℕ} (ho : Owned k p ext rest) (hc : p.Counted)
    (h : processDuplicate o k p (some q) = .ok (k', p')) : ∃ k1, Owned k1 p.cleared ext rest ∧
      duplicateFrom o (if q.pid = p.pid then p.cleared else q) k1 p.cleared = .ok (k', p') := by
  rcases ho.processReset_ends hc with ⟨-, herr⟩ | ⟨-, k1, hok, ho1⟩
  · rw [processDuplicate, herr] at h; cases h
  · rw [processDuplicate, hok] at h
    exact ⟨k1, ho1, h⟩

/-- The backtraces of another process are alive after a reset. -/
theorem born_of_other {q : Process} {k' : Stacks} (h : Accounted c) (hq : q ∈ c.processes)
    (hne : q.pid ≠ p.pid)
    (ho : Owned k' p.cleared (dumpRefs c.dumps p.pid) (otherRefs c.processes p.pid))
    {n : RbStack} (hn : n ∈ q.nodes) : n.stack.id < k'.next := by
  by_contra hle
  have hz := ho.refs.unborn n.stack.id (Nat.le_of_not_lt hle)
  rw [ho.refs.shared] at hz
  have h1 : n.refcnt ≤ stackRefs q.nodes n.stack.id := refcnt_le_stackRefs hn
  have h2 : stackRefs q.nodes n.stack.id ≤ otherRefs c.processes p.pid n.stack.id :=
    List.le_sum_of_mem (List.mem_map.mpr ⟨q, hq, if_neg hne⟩)
  have h3 := (h.owned q hq).refs.refcnt n hn
  omega

/-- The counter of the used bytes is not the sum of the blocks. -/
def Process.Drifted (p : Process) : Prop := p.bytesUsed ≠ (p.blocks.map (·.size)).sum

/-- A copy into an empty record fails over the input or over a drifted original. -/
theorem Owned.duplicateFrom_ends {copy : Process} {k : Stacks} {ext : NodeId → ℕ}
    {rest : StackId → ℕ} (h : Owned k p.cleared ext rest) (hc : copy.Counted)
    (hbs : ∀ b ∈ copy.blockTable.postorder,
      ∃ n, copy.deref b.stackNode = .ok n ∧ n.stack.id < k.next) :
    Ends (fun f => Killed o f ∨
        f = .assertion "copy->bytes_used == process->bytes_used" ∧ copy.Drifted)
      (fun r => r.2.pid = p.pid ∧ r.2.Counted ∧ Owned r.1 r.2 ext rest)
      (duplicateFrom o copy k p.cleared) := by
  have hinit :
      Owned k (processInit p.cleared copy.swapEndian copy.is64bit copy.attached) ext rest :=
    h.of_eq rfl rfl rfl rfl rfl
  refine ((hinit.duplicateBlocks_ends hbs).mono (fun f hf => .inl hf) fun _ _ hr => hr).bind
    (E := fun f => Killed o f ∨
      f = .assertion "copy->bytes_used == process->bytes_used" ∧ copy.Drifted) fun r hr hor => ?_
  obtain ⟨hpid, hn, hb, hl⟩ := duplicateBlocks_counters hr
  have hperm := postorder_perm copy.blockTable
  have hn' : r.2.nAllocations = UInt64.ofNat copy.blocks.length := by
    rw [hn, hperm.length_eq]; exact zero_add _
  have hb' : r.2.bytesUsed = (copy.blocks.map (·.size)).sum := by
    rw [hb, (hperm.map RbBlock.size).sum_eq]; exact zero_add _
  have hcount : r.2.Counted := by
    rw [Process.Counted, hn', hl, hperm.length_eq]
    exact congrArg UInt64.ofNat (Nat.zero_add _).symm
  obtain ⟨fn, ml, hmaps⟩ := foldl_processAddMap copy.mapList r.2
  dsimp only
  split
  next hne => exact .inr ⟨rfl, fun he => hne (he.trans hb'.symm)⟩
  split
  next hne => exact absurd (hc.trans hn'.symm) hne
  rw [hmaps]
  exact ⟨hpid, hcount, hor.of_eq rfl rfl rfl rfl rfl⟩

/-- The faults of a copy into a record that was reset. -/
def DuplicateFault (o : Options) (c : State) (copy : Option Process) (f : Fault) : Prop :=
  copy = none ∧ f = .nullDeref ∨ Killed o f ∨
    f = .assertion "copy->bytes_used == process->bytes_used" ∧ ∃ q ∈ c.processes, q.Drifted

theorem processDuplicate_ends {copy : Option Process} (h : Accounted c) (hp : p ∈ c.processes)
    (hcopy : ∀ q, copy = some q → q ∈ c.processes) :
    Ends (fun f => DuplicateFault o c copy f ∧ (¬ ∃ d ∈ c.dumps, d.pid = p.pid) ∨
        f = .fatal "unexpected stack tree ref count!\n" ∧ ∃ d ∈ c.dumps, d.pid = p.pid)
      (fun r => (¬ ∃ d ∈ c.dumps, d.pid = p.pid) ∧ r.2.pid = p.pid ∧ r.2.Counted ∧
        Owned r.1 r.2 (dumpRefs c.dumps p.pid) (otherRefs c.processes p.pid))
      (processDuplicate o c.heap p copy) := by
  rw [processDuplicate]
  rcases h.processReset_ends hp with ⟨hd, herr⟩ | ⟨hno, k', hok, ho⟩
  · rw [herr]; exact .inr ⟨rfl, hd⟩
  rw [hok]
  rcases hq : copy with _ | q
  · exact .inl ⟨.inl ⟨rfl, rfl⟩, hno⟩
  show Ends _ _ (duplicateFrom o (if q.pid = p.pid then p.cleared else q) k' p.cleared)
  have hqmem := hcopy q hq
  by_cases hpid : q.pid = p.pid
  · -- the record itself has been emptied
    rw [if_pos hpid]
    refine (ho.duplicateFrom_ends (rfl : p.cleared.Counted) fun b hb => by cases hb).mono
      (fun f hf => .inl ⟨.inr (hf.imp_right fun hdr => absurd rfl hdr.2), hno⟩)
      fun _ _ hr => ⟨hno, hr⟩
  · rw [if_neg hpid]
    refine (ho.duplicateFrom_ends (h.counted q hqmem) fun b hb => ?_).mono
      (fun f hf => .inl ⟨.inr (hf.imp_right fun hdr => ⟨hdr.1, q, hqmem, hdr.2⟩), hno⟩)
      fun _ _ hr => ⟨hno, hr⟩
    have hb' : b ∈ q.blocks := (postorder_perm q.blockTable).mem_iff.mp hb
    obtain ⟨n, hn⟩ := (h.owned q hqmem).deref_block hb'
    exact ⟨n, hn, born_of_other h hqmem hpid ho (mem_of_deref hn).1⟩

/-- The faults of a handler that answer to the message: a check under `--kill`, a fault of
`stack_add`, a fork without a parent and the end of a map that is not known. -/
def InputFault (o : Options) (env : Env) (c : State) (p : Process) (m : MtMsg) (f : Fault) : Prop :=
  Killed o f ∨ p.FailsIn o env f m ∨
    f = .nullDeref ∧ (∃ pid, m = .fork pid ∧ c.findProcess pid = none) ∨
    f = .fatal "process_del_map" ∧ ∃ d, m = .delMap d

theorem InputFault.external {m : MtMsg} {f : Fault} (h : InputFault o env c p m f) :
    f.external := by
  rcases h with hk | ⟨addrs, op, -, hf⟩ | ⟨rfl, -⟩ | ⟨rfl, -⟩
  · exact hk.external
  · rcases ofStackAdd_of_stackFault hf with rfl | rfl
    · trivial
    · exact rfl
  · trivial
  · exact .inl rfl

/-- The faults of a step: either the input is to blame, or a record that is copied has drifted, or
the step hit a dump. -/
def StepFault (E : Fault → Prop) (c : State) (hit : Prop) (f : Fault) : Prop :=
  (E f ∨ f = .assertion "copy->bytes_used == process->bytes_used" ∧
    ∃ q ∈ c.processes, q.Drifted) ∧ ¬ hit ∨
  f = .fatal "unexpected stack tree ref count!\n" ∧ hit

section StepFault

variable {E : Fault → Prop} {Q : State → Prop} {x : Except Fault State}

theorem ends_of_not_hit {hit : Prop} (hno : ¬ hit) (hx : Ends E Q x) :
    Ends (StepFault E c hit) (fun c' => ¬ hit ∧ Q c') x :=
  hx.mono (fun _ hf => .inl ⟨.inl hf, hno⟩) fun _ _ hc => ⟨hno, hc⟩

theorem ends_of_dump {b : Bool} {held : Prop} (hb : b = true)
    (hx : Ends (fun f => f = .fatal "unexpected stack tree ref count!\n" ∧ held)
      (fun c' => ¬ held ∧ Q c') x) :
    Ends (StepFault E c (b = true ∧ held)) (fun c' => ¬ (b = true ∧ held) ∧ Q c') x :=
  hx.mono (fun _ hf => .inr ⟨hf.1, hb, hf.2⟩) fun _ _ hc => ⟨fun hh => hc.1 hh.2, hc.2⟩

end StepFault

/-- `process_exit`, and `process_detach` without a last scan: the record is kept for the user, or
printed and removed. -/
theorem close_ends (h : Accounted c) (hp : p ∈ c.processes) (pid : UInt16) (sw : Bool) {m : MtMsg}
    (status : ProcessStatus) (hm : State.resets o m = !o.interactive) :
    Ends (StepFault (InputFault o env c p m) c
        (State.resets o m = true ∧ ∃ d ∈ c.dumps, d.pid = p.pid))
      (fun c' => ¬ (State.resets o m = true ∧ ∃ d ∈ c.dumps, d.pid = p.pid) ∧
        Goes o env c p (.msg pid sw m) c')
      (if o.interactive then .ok (c.store c.heap { p with status })
        else processDumpSortby c.heap { p with status } >>= fun r =>
          (c.store r.1 r.2).removeProcess r.2.pid) := by
  have hs := SameLedger.status p status
  have ho : Owned c.heap { p with status } (dumpRefs c.dumps p.pid)
      (otherRefs c.processes p.pid) := (h.owned p hp).of_eq rfl rfl rfl rfl rfl
  by_cases hi : o.interactive = true
  · rw [if_pos hi]
    refine ends_of_not_hit (fun hh => ?_) (goes_same h hp ho hs)
    rw [hm, hi] at hh
    cases hh.1
  · rw [if_neg hi]
    refine ends_of_dump ?_ (dump_remove_ends h hp hs.pid ho (h.counted p hp)
      fun p' hs' => .same (hs.trans hs'))
    rw [Bool.not_eq_true] at hi
    rw [hm, hi]
    rfl

theorem dispatch_ends (h : Accounted c) (hp : p ∈ c.processes) (pid : UInt16) (sw : Bool)
    (m : MtMsg) :
    Ends (StepFault (InputFault o env c p m) c
        (State.resets o m = true ∧ ∃ d ∈ c.dumps, d.pid = p.pid))
      (fun c' => ¬ (State.resets o m = true ∧ ∃ d ∈ c.dumps, d.pid = p.pid) ∧
        Goes o env c p (.msg pid sw m) c') (c.dispatch o env p m) := by
  have ho := h.owned p hp
  have hc := h.counted p hp
  cases m with
  | alloc op hop m =>
    exact ends_of_not_hit (fun hh => by cases hh.1) (handler_goes h hp
      ((ho.processAlloc_fails hop).mono (fun _ hf => hf.imp_right .inl) fun _ _ => id)
      (fun r hr => processAlloc_chain trivial (fun _ _ _ _ => trivial) (fun _ _ => trivial) hr)
      fun _ _ hr => .alloc hr)
  | free op hop m =>
    exact ends_of_not_hit (fun hh => by cases hh.1) (handler_goes h hp
      ((ho.processFree_fails hop).mono (fun _ hf => hf.imp_right .inl) fun _ _ => id)
      (fun r hr => processFree_chain trivial (fun _ _ _ _ => trivial) hr) fun _ _ hr => .free hr)
  | reallocDone m =>
    exact ends_of_not_hit (fun hh => by cases hh.1) (handler_goes h hp
      (ho.processReallocDone_ends.mono (fun _ => .inl) fun _ _ => id)
      (fun r hr => processReallocDone_chain trivial (fun _ _ _ _ _ _ _ _ _ => trivial) hr)
      fun _ _ hr => .reallocDone hr)
  | munmap m =>
    refine ends_of_not_hit (fun hh => by cases hh.1) (handler_goes h hp
      (ho.processMunmap_ends.mono (fun _ => .inl) fun _ _ => id)
      (fun r hr => processMunmap_chain (fun _ _ _ _ _ _ _ _ _ => ?_) hr) fun _ _ hr => .munmap hr)
    split <;> trivial
  | fork ppid =>
    refine Ends.bind (Q := fun r => (¬ ∃ d ∈ c.dumps, d.pid = p.pid) ∧ r.2.pid = p.pid ∧
      r.2.Counted ∧ Owned r.1 r.2 (dumpRefs c.dumps p.pid) (otherRefs c.processes p.pid)) ?_ ?_
    · refine (processDuplicate_ends h hp fun q hq => (findProcess_eq_some hq).1).mono
        (fun f hf => ?_) fun _ _ hr => hr
      rcases hf with ⟨⟨hnone, rfl⟩ | hk | hdr, hno⟩ | ⟨hf, hd⟩
      · exact .inl ⟨.inl (.inr (.inr (.inl ⟨rfl, ppid, rfl, hnone⟩))), fun hh => hno hh.2⟩
      · exact .inl ⟨.inl (.inl hk), fun hh => hno hh.2⟩
      · exact .inl ⟨.inr hdr, fun hh => hno hh.2⟩
      · exact .inr ⟨hf, rfl, hd⟩
    · rintro ⟨k', p'⟩ hr ⟨hno, hpid, hcount, hor⟩
      refine ⟨fun hh => hno hh.2, goes_store h hp hpid hor hcount ?_⟩
      rcases hf : c.findProcess ppid with _ | q
      · rw [hf, processDuplicate] at hr
        obtain ⟨r, -, h2⟩ := bind_eq_ok.mp hr
        cases h2
      · obtain ⟨hq, hqpid⟩ := findProcess_eq_some hf
        rw [hf] at hr
        exact .fork hq hqpid hr
  | attach is64bit attached =>
    rcases h.processReset_ends hp with ⟨hd, herr⟩ | ⟨hno, k', hok, ho'⟩
    · rw [State.dispatch, processReinit, herr]
      exact .inr ⟨rfl, rfl, hd⟩
    · rw [State.dispatch, processReinit, hok]
      exact ⟨fun hh => hno hh.2,
        goes_store h hp rfl (ho'.of_eq rfl rfl rfl rfl rfl) rfl .attach⟩
  | aboutExit =>
    refine ends_of_not_hit (fun hh => by cases hh.1) ?_
    have hs := SameLedger.status p .exiting
    show Goes o env c p _ (c.processAboutExit o p)
    unfold State.processAboutExit
    split
    · exact goes_select h hp hs (ho.of_eq rfl rfl rfl rfl rfl) .all
    · exact goes_same h hp (ho.of_eq rfl rfl rfl rfl rfl) hs
  | exit => exact close_ends h hp pid sw .exit rfl
  | nofollow =>
    exact ends_of_dump rfl ((removeProcess_ends h).mono (fun _ hf => hf)
      fun c' _ ⟨hno, hac, hsub⟩ => ⟨hno, hac, fun q hq => .inl (hsub q hq)⟩)
  | scan leaks =>
    rcases hsc : scanBlocks leaks p with f | p1
    · exact ((ho.scanBlocks_ends leaks).error hsc).elim
    have hch : Chain (fun _ => True) (c.heap, p) (c.heap, p1) :=
      scanBlocks_chain (fun _ _ => trivial) hsc
    have ho1 := ho.chain hch
    rw [State.dispatch, processScan, hsc]
    by_cases hi : o.interactive = true
    · simp only [hi, if_true]
      exact ends_of_not_hit (fun hh => by simp [State.resets, hi] at hh)
        (goes_store h hp hch.pid_eq ho1 (hc.chain hch) (.scan hsc (.refl p1)))
    · have hrem : Ends _ (fun c' => _ ∧ Goes o env c p (.msg pid sw (.scan leaks)) c') _ :=
        dump_remove_ends h hp hch.pid_eq ho1 (hc.chain hch) fun p' hs => .scan hsc hs
      obtain ⟨k', p', hd, -, -⟩ := ho1.processDumpSortby_ok
      rw [hd] at hrem
      have hd' : processDumpSortby c.heap p1 = .ok (k', p') := hd
      simp only [hi, Bool.false_eq_true, if_false]
      dsimp only [bind, Except.bind]
      rw [hd']
      exact ends_of_dump (by simp [State.resets, hi]) hrem
  | addMap m =>
    exact ends_of_not_hit (fun hh => by cases hh.1)
      (goes_same h hp (ho.of_eq rfl rfl rfl rfl rfl)
        ⟨rfl, rfl, rfl, ⟨_, map_withRefs p.nodes⟩, rfl, rfl, rfl, rfl⟩)
  | delMap m =>
    refine ends_of_not_hit (fun hh => by cases hh.1) ?_
    rw [State.dispatch, processDelMap]
    split
    · exact goes_same h hp (ho.of_eq rfl rfl rfl rfl rfl)
        ⟨rfl, rfl, rfl, ⟨_, map_withRefs p.nodes⟩, rfl, rfl, rfl, rfl⟩
    · exact .inr (.inr (.inr ⟨rfl, m, rfl⟩))
  | detach =>
    rw [State.dispatch, State.processDetach]
    by_cases ha : o.autoScan = true
    · rw [if_pos ha]
      exact ends_of_not_hit (fun hh => by simp [State.resets, ha] at hh)
        (goes_select h hp (.status p .detach) (ho.of_eq rfl rfl rfl rfl rfl) .all)
    · rw [if_neg ha]
      exact close_ends h hp pid sw .detach (by simp [State.resets, ha])

end Dispatch

/-! ## One step -/

section Step

variable {o : Options} {env : Env} {c : State}

/-- Where the records of the state after a step come from. -/
def Descends (o : Options) (env : Env) (c : State) (e : Event) (c' : State) : Prop :=
  Accounted c' ∧ ∀ q ∈ c'.processes, q ∈ c.processes ∨
    ∃ p, c.target e = some p ∧ (q = p ∨ Evolves o env (c.entered e) p e q)

/-- The faults of a step that answer to the event. -/
def EventFault (o : Options) (env : Env) (c : State) (e : Event) (f : Fault) : Prop :=
  match e with
  | .msg pid sw m => pid = 0 ∧ f = .fatal "protocol violation" ∨
      pid ≠ 0 ∧ ∃ p, c.target (.msg pid sw m) = some p ∧
        InputFault o env (c.entered (.msg pid sw m)) p m f
  | _ => False

theorem EventFault.external {e : Event} {f : Fault} (h : EventFault o env c e f) : f.external := by
  cases e with
  | msg pid sw m =>
    rcases h with ⟨-, rfl⟩ | ⟨-, p, -, hf⟩
    · exact .inr rfl
    · exact hf.external
  | _ => exact h.elim

theorem clientFunc_ends (h : Accounted c) (pid : UInt16) (sw : Bool) (m : MtMsg) :
    Ends (StepFault (EventFault o env c (.msg pid sw m)) c (c.HitsDump o (.msg pid sw m)))
      (fun c' => ¬ c.HitsDump o (.msg pid sw m) ∧ Descends o env c (.msg pid sw m) c')
      (c.clientFunc o env pid sw m) := by
  unfold State.clientFunc
  by_cases hz : pid = 0
  · rw [if_pos hz]
    exact .inl ⟨.inl (.inl ⟨hz, rfl⟩), fun hh => hh.1 hz⟩
  rw [if_neg hz]
  rcases enter_cases h pid.toUInt32 sw with ⟨p, hent, hp, hpid⟩ | ⟨hnew, hent⟩
  · have hin : c.entered (.msg pid sw m) = c := by rw [State.entered, hent]
    simp only [hent]
    by_cases hcond : p.swapEndian ≠ sw ∨ p.status = .ignore
    · rw [if_pos hcond]
      refine ⟨?_, h, fun q hq => .inl hq⟩
      rintro ⟨-, -, q, hq, hqpid, hsw, hst, -⟩
      rw [h.sorted.eq_of_pid hq hp (hqpid.trans hpid.symm)] at hsw hst
      exact hcond.elim (fun hne => hne hsw) hst
    · rw [if_neg hcond]
      have htgt : c.target (.msg pid sw m) = some p := by
        simp only [State.target, hent, if_neg hcond]
      have hhit : c.HitsDump o (.msg pid sw m) ↔
          State.resets o m = true ∧ ∃ d ∈ c.dumps, d.pid = p.pid := by
        refine ⟨fun ⟨_, hr, q, hq, hqpid, _, _, hd⟩ => ?_, fun ⟨hr, hd⟩ => ?_⟩
        · rw [h.sorted.eq_of_pid hq hp (hqpid.trans hpid.symm)] at hd
          exact ⟨hr, hd⟩
        · exact ⟨hz, hr, p, hp, hpid, by_contra fun hne => hcond (.inl hne),
            fun hs => hcond (.inr hs), hd⟩
      rw [show c.HitsDump o (.msg pid sw m) = _ from propext hhit]
      refine (dispatch_ends h hp pid sw m).mono (fun f hf => ?_) ?_
      · refine hf.imp_left fun hf => ⟨hf.1.imp_left fun hf => .inr ⟨hz, p, htgt, ?_⟩, hf.2⟩
        rw [hin]
        exact hf
      · rintro c' - ⟨hno, hac, hev⟩
        refine ⟨hno, hac, fun q hq => (hev q hq).imp_right fun he => ⟨p, htgt, .inr ?_⟩⟩
        rw [hin]
        exact he
  · have hcond : ¬ ((processNew pid.toUInt32 sw c.doTrace).swapEndian ≠ sw ∨
        (processNew pid.toUInt32 sw c.doTrace).status = .ignore) :=
      fun hc => hc.elim (fun hne => hne rfl) fun hs => by cases hs
    have htgt : c.target (.msg pid sw m) = some (processNew pid.toUInt32 sw c.doTrace) := by
      simp only [State.target, hent, if_neg hcond]
    have hin : c.entered (.msg pid sw m) =
        c.addProcess (processNew pid.toUInt32 sw c.doTrace) := by rw [State.entered, hent]
    have h0 : Accounted (c.addProcess (processNew pid.toUInt32 sw c.doTrace)) :=
      h.addProcess hnew
    have hmem : ∀ q, q ∈ (c.addProcess (processNew pid.toUInt32 sw c.doTrace)).processes ↔
        q = processNew pid.toUInt32 sw c.doTrace ∨ q ∈ c.processes := fun q => mem_addProcess h hnew
    simp only [hent]
    rw [if_neg hcond]
    have hno : ¬ c.HitsDump o (.msg pid sw m) := fun ⟨_, _, q, hq, hqpid, _⟩ => hnew q hq hqpid
    have hno' : ¬ ∃ d ∈ c.dumps, d.pid = pid.toUInt32 := fun ⟨d, hd, hdp⟩ => by
      obtain ⟨-, q, hq, hqd⟩ := h.dumps d hd
      exact hnew q hq (hqd.trans hdp)
    refine (dispatch_ends h0 ((hmem _).mpr (.inl rfl)) pid sw m).mono (fun f hf => ?_) ?_
    · rcases hf with ⟨hf | ⟨hf, q, hq, hdr⟩, -⟩ | ⟨-, -, hd⟩
      · refine .inl ⟨.inl (.inr ⟨hz, _, htgt, ?_⟩), hno⟩
        rw [hin]
        exact hf
      · exact .inl ⟨.inr ⟨hf, q, ((hmem q).mp hq).resolve_left fun he => hdr (he ▸ rfl), hdr⟩, hno⟩
      · exact absurd hd hno'
    · rintro c' - ⟨-, hac, hev⟩
      refine ⟨hno, hac, fun q hq => ?_⟩
      rcases hev q hq with hq' | he
      · rcases (hmem q).mp hq' with rfl | hq'
        · exact .inr ⟨_, htgt, .inl rfl⟩
        · exact .inl hq'
      · exact .inr ⟨_, htgt, .inr (by rw [hin]; exact he)⟩

/-- A command on a process that may be missing. -/
theorem withProcess_ends {e : Event} {pid : UInt32} {f : Process → Except Fault State}
    (h : Accounted c) (htgt : c.target e = c.findProcess pid) (hin : c.entered e = c)
    (hno : ¬ c.HitsDump o e)
    (hf : ∀ p ∈ c.processes, Ends (fun _ => False) (Goes o env c p e) (f p)) :
    Ends (StepFault (EventFault o env c e) c (c.HitsDump o e))
      (fun c' => ¬ c.HitsDump o e ∧ Descends o env c e c') (c.withProcess pid f) := by
  unfold State.withProcess
  rcases hp : c.findProcess pid with _ | p
  · exact ⟨hno, h, fun q hq => .inl hq⟩
  · refine ends_of_not_hit hno ((hf p (findProcess_eq_some hp).1).mono (fun _ hf => hf.elim)
      fun c' _ ⟨hac, hev⟩ => ⟨hac, fun q hq => (hev q hq).imp_right fun he => ⟨p, ?_, .inr ?_⟩⟩)
    · rw [htgt, hp]
    · rw [hin]; exact he

theorem doReset_ends {p : Process} {pid : UInt32} (h : Accounted c) (hp : p ∈ c.processes) :
    Ends (fun _ => False) (Goes o env c p (.reset pid)) (c.doReset p) := by
  have ho : Owned c.heap { p with attached := true } (dumpRefs c.dumps p.pid)
      (otherRefs c.processes p.pid) := (h.owned p hp).of_eq rfl rfl rfl rfl rfl
  obtain ⟨k', p', hok, ⟨cnt, rfl⟩, ho'⟩ :=
    Owned.processResetAllocations_ok (p := { p with attached := true }) ho (h.counted p hp)
  rw [State.doReset, hok]
  have hem : p.Emptied { p.mapNodes fun n =>
      (n.uncount (blockRefs p.blocks n.id)).withRefs (cnt n) with
        blockTable := .nil, reallocList := [], nAllocations := 0, totalAllocations := 0,
        bytesUsed := 0, leaks := 0, leakedBytes := 0, tsc := 0 } := ⟨cnt, rfl⟩
  refine goes_store h hp rfl ho' rfl (.reset hem ?_)
  exact ⟨rfl, rfl, rfl, ⟨_, map_withRefs _⟩, rfl, rfl, rfl, rfl⟩

theorem doStart_ends {p : Process} {pid : UInt32} (h : Accounted c) (hp : p ∈ c.processes) :
    Ends (fun _ => False) (Goes o env c p (.start pid)) (c.doStart p) := by
  obtain ⟨k', p', hok, hem, ho'⟩ :=
    (h.owned p hp).processResetAllocations_ok (h.counted p hp)
  rw [State.doStart, hok]
  have hc : p'.Counted ∧ p'.pid = p.pid := by obtain ⟨_, rfl⟩ := hem; exact ⟨rfl, rfl⟩
  exact goes_store h hp hc.2 (ho'.of_eq rfl rfl rfl rfl rfl) hc.1
    (.start hem ⟨rfl, rfl, rfl, ⟨_, map_withRefs _⟩, rfl, rfl, rfl, rfl⟩)

theorem dumpRefs_cons (d : Dump) (ds : List Dump) (pid : UInt32) (i : NodeId) :
    dumpRefs (d :: ds) pid i = (if d.pid = pid then d.arr.count i else 0) + dumpRefs ds pid i := rfl

theorem doDump_ends {p : Process} {pid : UInt32} (h : Accounted c) (hp : p ∈ c.processes) :
    Ends (fun _ => False) (Goes o env c p (.dump pid)) (c.doDump p) := by
  unfold State.doDump
  split
  · exact ⟨h, fun q hq => .inl hq⟩
  obtain ⟨k', p', arr, hok, hre, ho⟩ := (h.owned p hp).dumpBegin_ok
  have hs := hre.sameLedger
  have hc : p'.Counted := hs.counted (h.counted p hp)
  rw [hok]
  show Goes o env c p (.dump pid)
    (if arr.isEmpty then c.store k' p'
      else { c.store k' p' with dumps := ⟨p'.pid, arr⟩ :: c.dumps })
  by_cases harr : arr = []
  · subst harr
    exact goes_store h hp hs.pid ho hc (.same hs)
  · rw [if_neg (by simpa using harr)]
    refine ⟨h.storeDumps hp hs.pid ?_ hc (fun q hne i => ?_) fun d hd => ?_, fun q hq => ?_⟩
    · rw [show dumpRefs (⟨p'.pid, arr⟩ :: c.dumps) p.pid =
        fun i => dumpRefs c.dumps p.pid i + arr.count i from funext fun i => by
          rw [dumpRefs_cons, if_pos hs.pid, Nat.add_comm]]
      exact ho
    · rw [dumpRefs_cons, if_neg fun he => hne (he.symm.trans hs.pid), Nat.zero_add]
    · rcases List.mem_cons.mp hd with rfl | hd
      · exact ⟨harr, p, hp, hs.pid.symm⟩
      · exact h.dumps d hd
    · rcases mem_store (k := k') hq with rfl | ⟨hq, -⟩
      · exact .inr (.same hs)
      · exact .inl hq

theorem dumpEnd_ends (h : Accounted c) :
    Ends (fun _ => False) (Descends o env c .dumpEnd) c.dumpEnd := by
  unfold State.dumpEnd
  rcases hd : c.dumps with _ | ⟨d, ds⟩
  · exact ⟨h, fun q hq => .inl hq⟩
  obtain ⟨-, p, hp, hpid⟩ := h.dumps d (hd ▸ List.mem_cons_self ..)
  have hf : c.findProcess d.pid = some p := hpid ▸ h.sorted.findProcess_of_mem hp
  have ho : Owned c.heap p (fun i => dumpRefs ds p.pid i + d.arr.count i)
      (otherRefs c.processes p.pid) := by
    have := h.owned p hp
    rw [hd, show dumpRefs (d :: ds) p.pid = fun i => dumpRefs ds p.pid i + d.arr.count i from
      funext fun i => by rw [dumpRefs_cons, if_pos hpid.symm, Nat.add_comm]] at this
    exact this
  obtain ⟨k', p', hok, hre, ho'⟩ := ho.dumpPut_ok
  have hs := hre.sameLedger
  have hc : p'.Counted := hs.counted (h.counted p hp)
  dsimp only
  rw [hf]
  dsimp only
  rw [hok]
  refine ⟨h.storeDumps hp hs.pid ho' hc (fun q hne i => ?_) fun d' hd' => ?_, fun q hq => ?_⟩
  · rw [hd, dumpRefs_cons, if_neg fun he => hne (he.symm.trans hpid.symm), Nat.zero_add]
  · exact h.dumps d' (hd ▸ List.mem_cons_of_mem _ hd')
  · rcases mem_store (k := k') hq with rfl | ⟨hq, -⟩
    · refine .inr ⟨p, ?_, .inr (.same hs)⟩
      rw [State.target, hd]
      exact hf
    · exact .inl hq

theorem step_ends (h : Accounted c) (e : Event) :
    Ends (StepFault (EventFault o env c e) c (c.HitsDump o e))
      (fun c' => ¬ c.HitsDump o e ∧ Descends o env c e c') (c.step o env e) := by
  cases e with
  | info doTrace =>
    exact ⟨id, ⟨h.sorted, h.owned, h.counted, h.shared, h.unborn, h.dumps⟩, fun q hq => .inl hq⟩
  | msg pid sw m => exact clientFunc_ends h pid sw m
  | reset pid => exact withProcess_ends h rfl rfl id fun p hp => doReset_ends h hp
  | start pid => exact withProcess_ends h rfl rfl id fun p hp => doStart_ends h hp
  | stop pid =>
    refine withProcess_ends h rfl rfl id fun p hp => ?_
    exact goes_same h hp ((h.owned p hp).of_eq rfl rfl rfl rfl rfl)
      ⟨rfl, rfl, rfl, ⟨_, map_withRefs p.nodes⟩, rfl, rfl, rfl, rfl⟩
  | scan pid mode =>
    refine withProcess_ends h rfl rfl id fun p hp => ?_
    unfold State.doScan
    split
    · exact ⟨h, fun q hq => .inl hq⟩
    · exact goes_select h hp (.refl p) (h.owned p hp) mode
  | dump pid => exact withProcess_ends h rfl rfl id fun p hp => doDump_ends h hp
  | dumpEnd =>
    exact ends_of_not_hit id ((dumpEnd_ends h).mono (fun _ hf => hf.elim) fun _ _ hc => hc)

end Step

/-! ## Runs -/

section Runs

variable {o : Options} {env : Env} {ok : State → Event → Prop} {doTrace : Bool} {c : State}

theorem Reach.accounted (h : Reach o env ok doTrace c) : Accounted c :=
  h.invariant (accounted_init doTrace) fun _ e _ hc _ hs => ((step_ends hc e).ok hs).2.1

theorem accounted_entered (h : Accounted c) (e : Event) : Accounted (c.entered e) := by
  cases e with
  | msg pid sw m =>
    rcases enter_cases h pid.toUInt32 sw with ⟨p, hent, -, -⟩ | ⟨hnew, hent⟩
    · rw [State.entered, hent]; exact h
    · rw [State.entered, hent]; exact h.addProcess hnew
  | _ => exact h

/-- The record an event is about is in the table, with the pid of the event. -/
theorem target_mem (h : Accounted c) {e : Event} {p : Process} (ht : c.target e = some p) :
    p ∈ (c.entered e).processes := by
  cases e with
  | info doTrace => cases ht
  | msg pid sw m =>
    obtain rfl : (c.enter pid.toUInt32 sw).2 = p := by
      simp only [State.target] at ht
      split at ht
      · cases ht
      · exact Option.some.inj ht
    rcases enter_cases h pid.toUInt32 sw with ⟨q, hent, hq, -⟩ | ⟨hnew, hent⟩
    · rw [State.entered, hent]; exact hq
    · rw [State.entered, hent]; exact (mem_addProcess h hnew).mpr (.inl rfl)
  | dumpEnd =>
    obtain ⟨d, -, hf⟩ := Option.bind_eq_some_iff.mp ht
    exact (findProcess_eq_some hf).1
  | reset pid => exact (findProcess_eq_some ht).1
  | start pid => exact (findProcess_eq_some ht).1
  | stop pid => exact (findProcess_eq_some ht).1
  | scan pid mode => exact (findProcess_eq_some ht).1
  | dump pid => exact (findProcess_eq_some ht).1

theorem entered_cases (h : Accounted c) {e : Event} {q : Process}
    (hq : q ∈ (c.entered e).processes) :
    q ∈ c.processes ∨ ∃ pid sw tracing, q = processNew pid sw tracing := by
  cases e with
  | msg pid sw m =>
    rcases enter_cases h pid.toUInt32 sw with ⟨p, hent, -, -⟩ | ⟨hnew, hent⟩
    · rw [State.entered, hent] at hq
      exact .inl hq
    · rw [State.entered, hent, mem_addProcess h hnew] at hq
      exact hq.symm.imp_right fun hq => ⟨_, _, _, hq⟩
  | _ => exact .inl hq

/-- A property of single records holds in every state of a run when new records have it and a
record keeps it while it evolves. -/
theorem Reach.records {I : Process → Prop} (h : Reach o env ok doTrace c)
    (hnew : ∀ pid sw tracing, I (processNew pid sw tracing))
    (hstep : ∀ c e p p', Accounted c → ok c e → (∀ q ∈ (c.entered e).processes, I q) →
      c.target e = some p → Evolves o env (c.entered e) p e p' → I p') :
    ∀ p ∈ c.processes, I p := by
  refine (h.invariant (P := fun c => Accounted c ∧ ∀ p ∈ c.processes, I p)
    ⟨accounted_init doTrace, fun p hp => by cases hp⟩ fun c e c' ⟨hac, hI⟩ hok hs => ?_).2
  obtain ⟨-, hac', hdesc⟩ := (step_ends hac e).ok hs
  have hold : ∀ q ∈ (c.entered e).processes, I q := fun q hq => by
    rcases entered_cases hac hq with hq | ⟨pid, sw, tracing, rfl⟩
    · exact hI q hq
    · exact hnew pid sw tracing
  refine ⟨hac', fun q hq => ?_⟩
  rcases hdesc q hq with hq | ⟨p, ht, rfl | hev⟩
  · exact hI q hq
  · exact hold q (target_mem hac ht)
  · exact hstep c e p q hac hok hold ht hev

end Runs

end Mtrace.Client
