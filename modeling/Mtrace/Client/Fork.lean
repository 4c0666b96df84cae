import Mtrace.Client.Statistics

/-!
# The copy a fork makes

`process_duplicate` gives the child the blocks of its parent.  The stack nodes it builds on the way
come with the counters of the parent's nodes (`stack_clone`), and then every copied block is counted
again (`process_rb_insert_block`), while the leaks of the process are not copied at all: the copy is
faithful only when there is nothing to copy.
-/

namespace Mtrace.Client

open RbTree Machine

/-- What identifies a block apart from its stack node. -/
def RbBlock.contents (b : RbBlock) : UInt64 × UInt64 × UInt64 := (b.addr, b.size, b.flags)

/-- The four counters of a stack node. -/
def RbStack.counters (n : RbStack) : UInt64 × UInt64 × UInt64 × UInt64 :=
  (n.nAllocations, n.bytesUsed, n.leaks, n.bytesLeaked)

/-- The four counters of a process. -/
def Process.counters (p : Process) : UInt64 × UInt64 × UInt64 × UInt64 :=
  (p.nAllocations, p.bytesUsed, p.leaks, p.leakedBytes)

/-- The child has the blocks and the counters of its parent, and a node for every backtrace a block
of the parent has. -/
structure Faithful (parent child : Process) : Prop where
  blocks : (child.blocks.map RbBlock.contents).Perm (parent.blocks.map RbBlock.contents)
  distinct : (child.nodes.map (·.stack.addrs)).Nodup
  used : ∀ addrs, addrs ∈ child.nodes.map (·.stack.addrs) ↔
    ∃ b ∈ parent.blocks, ∃ n ∈ parent.nodes, n.id = b.stackNode ∧ n.stack.addrs = addrs
  nodes : ∀ n ∈ child.nodes, ∀ n' ∈ parent.nodes, n.stack.addrs = n'.stack.addrs →
    n.counters = n'.counters
  process : child.counters = parent.counters

/-! ## The loop -/

section Loop

variable {o : Options} {copy p : Process} {k : Stacks} {r : Stacks × Process}

theorem duplicateBlocks_contents {bs : List RbBlock} (h : duplicateBlocks o copy bs k p = .ok r) :
    (r.2.blocks.map RbBlock.contents).Perm
      (p.blocks.map RbBlock.contents ++ bs.map RbBlock.contents) := by
  induction bs generalizing k p with
  | nil => cases h; simp
  | cons b bs ih =>
    obtain ⟨r1, h1, h2⟩ := bind_eq_ok.mp h
    obtain ⟨n, k1, p1, i, n1, -, hclone, -, rfl⟩ := processRbDuplicateBlock_cases h1
    have hbl : p1.blocks = p.blocks := congrArg RbRoot.toList (stackClone_blockTable hclone)
    obtain ⟨as, cs, hp, hp'⟩ := blocks_addBlock p1 { b with stackNode := i }
    have hcopy : (p1.copyBlock b i).blocks = as ++ { b with stackNode := i } :: cs := hp'
    refine (ih h2).trans ?_
    rw [hcopy, ← hbl, hp]
    simp only [List.map_append, List.map_cons]
    exact (List.perm_middle.append_right _).trans List.perm_middle.symm

/-- How far a record is from the record it is a copy of: a node counts the blocks of the copy on top
of those of the original. -/
structure Copied (copy p : Process) : Prop where
  leaks : p.leaks = 0
  leakedBytes : p.leakedBytes = 0
  born : ∀ n ∈ p.nodes, n.id < p.nextNode
  owner : ∀ b ∈ p.blocks, ∃ n ∈ p.nodes, n.id = b.stackNode
  nodes : ∀ n ∈ p.nodes, ∃ n' ∈ copy.nodes, n.stack = n'.stack ∧
    n.nAllocations = n'.nAllocations + UInt64.ofNat (blockRefs p.blocks n.id)

theorem copied_init (copy child : Process) :
    Copied copy (processInit child.cleared copy.swapEndian copy.is64bit copy.attached) :=
  ⟨rfl, rfl, fun n hn => (by cases hn), fun b hb => (by cases hb), fun n hn => (by cases hn)⟩

theorem Copied.linkNode {n : RbStack} (h : Copied copy p) (hn : n ∈ copy.nodes)
    (hf : p.stackTable.find (stackCut n.stack.addrs) = none) :
    Copied copy (p.linkNode { n with id := p.nextNode, refcnt := 1 }) := by
  obtain ⟨as, bs, hp, hp'⟩ := nodes_linkNode (n := { n with id := p.nextNode, refcnt := 1 }) hf
  have hmem : ∀ m ∈ (p.linkNode { n with id := p.nextNode, refcnt := 1 }).nodes,
      m = { n with id := p.nextNode, refcnt := 1 } ∨ m ∈ p.nodes := fun m hm => by
    rw [hp'] at hm
    rw [hp]
    simp only [List.mem_append, List.mem_cons] at hm ⊢
    tauto
  -- no block of the copy belongs to a node that is just made
  have hzero : blockRefs p.blocks p.nextNode = 0 := by
    by_contra hne
    obtain ⟨b, hb, hid⟩ := List.countP_pos_iff.mp (Nat.pos_of_ne_zero hne)
    obtain ⟨m, hm, hmid⟩ := h.owner b hb
    exact Nat.lt_irrefl _ ((hmid.trans (of_decide_eq_true hid)) ▸ h.born m hm)
  refine ⟨h.leaks, h.leakedBytes, fun m hm => ?_, fun b hb => ?_, fun m hm => ?_⟩
  · rcases hmem m hm with rfl | hm
    · exact Nat.lt_succ_self _
    · exact Nat.lt_succ_of_lt (h.born m hm)
  · obtain ⟨m, hm, hid⟩ := h.owner b hb
    refine ⟨m, ?_, hid⟩
    rw [hp']
    rw [hp] at hm
    simp only [List.mem_append, List.mem_cons] at hm ⊢
    tauto
  · rcases hmem m hm with rfl | hm
    · refine ⟨n, hn, rfl, ?_⟩
      show n.nAllocations = n.nAllocations + UInt64.ofNat (blockRefs p.blocks p.nextNode)
      rw [hzero]
      exact (UInt64.add_zero _).symm
    · exact h.nodes m hm

theorem Copied.copyBlock {i : NodeId} (h : Copied copy p) (hi : ∃ n ∈ p.nodes, n.id = i)
    (b : RbBlock) : Copied copy (p.copyBlock b i) := by
  obtain ⟨as, cs, hp, hp'⟩ := blocks_addBlock p { b with stackNode := i }
  have hblocks : (p.copyBlock b i).blocks = as ++ { b with stackNode := i } :: cs := hp'
  have hnodes : (p.copyBlock b i).nodes =
      p.nodes.map fun n => if n.id = i then n.add b.size else n := p.nodes_modifyNode i _
  have hid : ∀ n : RbStack, (if n.id = i then n.add b.size else n).id = n.id := fun n => by
    split <;> rfl
  have hkeep : ∀ j, (∃ n ∈ p.nodes, n.id = j) → ∃ n ∈ (p.copyBlock b i).nodes, n.id = j := by
    rintro j ⟨n, hn, rfl⟩
    exact ⟨_, hnodes ▸ List.mem_map_of_mem hn, hid n⟩
  refine ⟨h.leaks, h.leakedBytes, fun m hm => ?_, fun b' hb' => hkeep _ ?_, fun m hm => ?_⟩
  · rw [hnodes] at hm
    obtain ⟨n, hn, rfl⟩ := List.mem_map.mp hm
    rw [hid]
    exact h.born n hn
  · rcases mem_addBlock.mp hb' with rfl | hb'
    · exact hi
    · exact h.owner b' hb'
  · rw [hnodes] at hm
    obtain ⟨n, hn, rfl⟩ := List.mem_map.mp hm
    obtain ⟨n', hn', hstack, hcount⟩ := h.nodes n hn
    have hrefs : blockRefs (p.copyBlock b i).blocks n.id =
        blockRefs p.blocks n.id + if n.id = i then 1 else 0 := by
      rw [hblocks, hp]
      simp only [blockRefs_append, blockRefs_cons, eq_comm (a := i)]
      omega
    refine ⟨n', hn', ?_, ?_⟩
    · rw [← hstack]
      split <;> rfl
    · rw [hid, hrefs]
      split
      · show n.nAllocations + 1 = _
        rw [hcount, UInt64.ofNat_add, add_assoc]
        rfl
      · exact hcount

theorem Copied.duplicateBlocks {bs : List RbBlock} (h : Copied copy p)
    (hr : duplicateBlocks o copy bs k p = .ok r) : Copied copy r.2 := by
  induction bs generalizing k p with
  | nil => cases hr; exact h
  | cons b bs ih =>
    obtain ⟨r1, h1, h2⟩ := bind_eq_ok.mp hr
    obtain ⟨n, k1, p1, i, n1, hn, hclone, hn1, rfl⟩ := processRbDuplicateBlock_cases h1
    refine ih (p := p1.copyBlock b i) (Copied.copyBlock ?_ ?_ b) h2
    · rcases stackClone_cases k p n with ⟨x, -, heq⟩ | ⟨hf, heq⟩
      · cases heq.symm.trans hclone; exact h
      · cases heq.symm.trans hclone; exact h.linkNode (mem_of_deref hn).1 hf
    · exact ⟨n1, mem_of_deref hn1⟩

end Loop

/-! ## The copy -/

section Copy

variable {o : Options} {env : Env} {doTrace : Bool} {c : State} {parent child child' : Process}
  {k k' : Stacks}

theorem duplicateFrom_contents (h : duplicateFrom o parent k child.cleared = .ok (k', child')) :
    (child'.blocks.map RbBlock.contents).Perm (parent.blocks.map RbBlock.contents) := by
  obtain ⟨p1, hd, -, -, hs⟩ := duplicateFrom_cases h
  have hperm := duplicateBlocks_contents hd
  rw [Process.blocks, hs.blockTable]
  exact hperm.trans ((postorder_perm parent.blockTable).map _)

/-- The copy of a record with a block is not faithful: the node of the block counts it twice. -/
theorem not_faithful_of_block (h : duplicateFrom o parent k child.cleared = .ok (k', child'))
    (hlen : parent.blocks.length < 2 ^ 64) (hne : parent.blocks ≠ []) :
    ¬ Faithful parent child' := by
  intro hfaith
  obtain ⟨p1, hd, -, -, hs⟩ := duplicateFrom_cases h
  have hcop := (copied_init parent child).duplicateBlocks hd
  have hperm := duplicateFrom_contents h
  have hblocks : child'.blocks = p1.blocks := by rw [Process.blocks, hs.blockTable]
  have hlen1 : p1.blocks.length = parent.blocks.length := by
    simpa [hblocks] using hperm.length_eq
  obtain ⟨b, hb⟩ := List.exists_mem_of_length_pos
    (hlen1 ▸ List.length_pos_iff.mpr hne : 0 < p1.blocks.length)
  obtain ⟨n, hn, hid⟩ := hcop.owner b hb
  obtain ⟨n', hn', hstack, hcount⟩ := hcop.nodes n hn
  obtain ⟨cnt, hnodes⟩ := hs.nodes
  have hmem : n.withRefs (cnt n) ∈ child'.nodes := hnodes ▸ List.mem_map_of_mem hn
  have heq := hfaith.nodes _ hmem n' hn' (congrArg Stack.addrs hstack)
  have hn0 : n.nAllocations = n'.nAllocations := congrArg Prod.fst heq
  rw [hcount] at hn0
  have hz : UInt64.ofNat (blockRefs p1.blocks n.id) = 0 := by
    simpa using hn0
  have hpos := blockRefs_pos hb
  rw [← hid] at hpos
  have hle : blockRefs p1.blocks n.id ≤ p1.blocks.length := List.countP_le_length
  have hnat := congrArg UInt64.toNat hz
  rw [UInt64.toNat_ofNat_of_lt' (hle.trans_lt (hlen1 ▸ hlen))] at hnat
  exact hpos hnat

/-- A record without blocks is copied, and its copy has nothing either. -/
theorem duplicateFrom_empty (o : Options) (k : Stacks) (child : Process) (hb : parent.blocks = [])
    (hc : parent.Counted) (hu : parent.bytesUsed = 0) : ∃ child',
      duplicateFrom o parent k child.cleared = .ok (k, child') ∧ child'.blocks = [] ∧
        child'.nodes = [] ∧ child'.counters = (0, 0, 0, 0) := by
  have hpost : parent.blockTable.postorder = [] :=
    ((hb ▸ postorder_perm parent.blockTable) : List.Perm _ []).eq_nil
  have hn : parent.nAllocations = 0 := by rw [hc, hb]; rfl
  obtain ⟨fn, ml, hmaps⟩ := foldl_processAddMap parent.mapList
    (processInit child.cleared parent.swapEndian parent.is64bit parent.attached)
  refine ⟨{ processInit child.cleared parent.swapEndian parent.is64bit parent.attached with
    filename := fn, mapList := ml, totalAllocations := parent.totalAllocations,
    tsc := parent.tsc }, ?_, rfl, rfl, rfl⟩
  unfold duplicateFrom
  rw [hpost]
  show (if parent.bytesUsed ≠ 0 then _ else if parent.nAllocations ≠ 0 then _ else _) = _
  rw [if_neg (not_not.mpr hu), if_neg (not_not.mpr hn)]
  dsimp only
  rw [hmaps]

theorem faithful_of_empty (hb : parent.blocks = []) (hb' : child.blocks = [])
    (hn' : child.nodes = []) (hc : child.counters = parent.counters) : Faithful parent child := by
  refine ⟨by rw [hb, hb'], by rw [hn']; exact .nil, fun addrs => ?_, fun n hn => ?_, hc⟩
  · rw [hn', hb]
    simp
  · rw [hn'] at hn
    cases hn

theorem Accounted.processDuplicate_cases (h : Accounted c) (hchild : child ∈ c.processes)
    (hpid : parent.pid ≠ child.pid)
    (hdup : processDuplicate o c.heap child (some parent) = .ok (k', child')) :
    (¬ ∃ d ∈ c.dumps, d.pid = child.pid) ∧
      ∃ k1, duplicateFrom o parent k1 child.cleared = .ok (k', child') := by
  rcases h.processReset_ends hchild with ⟨-, herr⟩ | ⟨hno, k1, hok, -⟩
  · rw [processDuplicate, herr] at hdup; cases hdup
  · rw [processDuplicate, hok] at hdup
    replace hdup : duplicateFrom o (if parent.pid = child.pid then child.cleared else parent) k1
      child.cleared = .ok (k', child') := hdup
    rw [if_neg hpid] at hdup
    exact ⟨hno, k1, hdup⟩

theorem Accounted.processDuplicate_empty (h : Accounted c) (hchild : child ∈ c.processes)
    (hpid : parent.pid ≠ child.pid) (hno : ¬ ∃ d ∈ c.dumps, d.pid = child.pid)
    (hb : parent.blocks = []) (hc : parent.Counted) (hu : parent.bytesUsed = 0) :
    ∃ k' child', processDuplicate o c.heap child (some parent) = .ok (k', child') ∧
      child'.blocks = [] ∧ child'.nodes = [] ∧ child'.counters = (0, 0, 0, 0) := by
  rcases h.processReset_ends hchild with ⟨hd, -⟩ | ⟨-, k1, hok, -⟩
  · exact absurd hd hno
  obtain ⟨child', hfrom, hempty⟩ := duplicateFrom_empty o k1 child hb hc hu
  refine ⟨k1, child', ?_, hempty⟩
  rw [processDuplicate, hok]
  show duplicateFrom o (if parent.pid = child.pid then child.cleared else parent) k1
    child.cleared = _
  rw [if_neg hpid]
  exact hfrom

theorem leaks_of_duplicateFrom (h : duplicateFrom o parent k child.cleared = .ok (k', child')) :
    child'.leaks = 0 ∧ child'.leakedBytes = 0 := by
  obtain ⟨p1, hd, -, -, hs⟩ := duplicateFrom_cases h
  have hcop := (copied_init parent child).duplicateBlocks hd
  exact ⟨hs.leaks.trans hcop.leaks, hs.leakedBytes.trans hcop.leakedBytes⟩

theorem bytesUsed_of_duplicateFrom (h : duplicateFrom o parent k child.cleared = .ok (k', child')) :
    parent.bytesUsed = (parent.blocks.map (·.size)).sum := by
  obtain ⟨p1, hd, hbytes, -, -⟩ := duplicateFrom_cases h
  rw [hbytes, (duplicateBlocks_counters hd).2.2.1,
    ((postorder_perm parent.blockTable).map RbBlock.size).sum_eq]
  exact zero_add _

/-- The fork of a process `parent` into the process `pid`: the blocks are always copied as they are,
but the copy is faithful, and made at all, exactly if the parent has no blocks, no bytes and no
leaks left in its counters and the child is not being dumped. -/
theorem duplicate_faithful_iff (h : Reachable o env doTrace c) (hparent : parent ∈ c.processes)
    (pid : UInt16) (sw : Bool) (hpid : parent.pid ≠ pid.toUInt32)
    (hlen : parent.blocks.length < 2 ^ 64) :
    (∀ k' child', processDuplicate o c.heap (c.enter pid.toUInt32 sw).2 (some parent) =
        .ok (k', child') →
      (child'.blocks.map RbBlock.contents).Perm (parent.blocks.map RbBlock.contents)) ∧
    ((∃ k' child', processDuplicate o c.heap (c.enter pid.toUInt32 sw).2 (some parent) =
        .ok (k', child') ∧ Faithful parent child') ↔
      parent.blocks = [] ∧ parent.bytesUsed = 0 ∧ parent.leaks = 0 ∧ parent.leakedBytes = 0 ∧
        ¬ ∃ d ∈ c.dumps, d.pid = pid.toUInt32) := by
  have hac := Reach.accounted h
  obtain ⟨c', child, hent, hac', hchild, hcpid, hheap, hdumps⟩ :
      ∃ c' child, c.enter pid.toUInt32 sw = (c', child) ∧ Accounted c' ∧ child ∈ c'.processes ∧
        child.pid = pid.toUInt32 ∧ c'.heap = c.heap ∧ c'.dumps = c.dumps := by
    rcases enter_cases hac pid.toUInt32 sw with ⟨p, hent, hp, hppid⟩ | ⟨hnew, hent⟩
    · exact ⟨c, p, hent, hac, hp, hppid, rfl, rfl⟩
    · exact ⟨_, _, hent, hac.addProcess hnew, (mem_addProcess hac hnew).mpr (.inl rfl), rfl,
        rfl, rfl⟩
  rw [hent, ← hheap, ← hdumps, ← hcpid]
  rw [← hcpid] at hpid
  have hc : parent.Counted := hac.counted parent hparent
  refine ⟨fun k' child' hdup => ?_, ⟨?_, ?_⟩⟩
  · obtain ⟨-, k1, hfrom⟩ := hac'.processDuplicate_cases hchild hpid hdup
    exact duplicateFrom_contents hfrom
  · rintro ⟨k', child', hdup, hfaith⟩
    obtain ⟨hno, k1, hfrom⟩ := hac'.processDuplicate_cases hchild hpid hdup
    have hb : parent.blocks = [] := by
      by_contra hne
      exact not_faithful_of_block hfrom hlen hne hfaith
    have hu := bytesUsed_of_duplicateFrom hfrom
    rw [hb] at hu
    obtain ⟨hl, hlb⟩ := leaks_of_duplicateFrom hfrom
    have hproc := hfaith.process
    simp only [Process.counters, hl, hlb, Prod.mk.injEq] at hproc
    exact ⟨hb, hu, hproc.2.2.1.symm, hproc.2.2.2.symm, hno⟩
  · rintro ⟨hb, hu, hl, hlb, hno⟩
    obtain ⟨k1, child', hdup, hb', hn', hcnt⟩ :=
      hac'.processDuplicate_empty (o := o) hchild hpid hno hb hc hu
    refine ⟨k1, child', hdup, faithful_of_empty hb hb' hn' ?_⟩
    have hn : parent.nAllocations = 0 := by rw [hc, hb]; rfl
    rw [hcnt, Process.counters, hn, hu, hl, hlb]

end Copy

/-- One block of 16 bytes: the node of the copy shows two allocations of 32 bytes. -/
theorem duplicate_unfaithful : Reachable plainOptions plainEnv true mallocState ∧
    ∃ parent ∈ mallocState.processes, ∃ k' child',
      processDuplicate plainOptions mallocState.heap (mallocState.enter 2 false).2 (some parent) =
        .ok (k', child') ∧
      parent.nodes.map RbStack.counters = [(1, 16, 0, 0)] ∧
      child'.nodes.map RbStack.counters = [(2, 32, 0, 0)] ∧ ¬ Faithful parent child' := by
  refine ⟨reachable_stateAfter _, _, List.mem_singleton_self _, _, _, rfl, rfl, rfl, fun hf => ?_⟩
  have heq := hf.nodes _ (List.mem_singleton_self _) _ (List.mem_singleton_self _) rfl
  revert heq
  decide

/-- A process that has started and allocated nothing yet. -/
theorem duplicate_faithful_start : ∃ k' child',
    processDuplicate plainOptions (stateAfter startEvents).heap
      ((stateAfter startEvents).enter 2 false).2
      ((stateAfter startEvents).findProcess 1) = .ok (k', child') ∧
    ∃ parent, (stateAfter startEvents).findProcess 1 = some parent ∧ Faithful parent child' := by
  obtain ⟨k', child', hdup, hfaith⟩ :=
    (duplicate_faithful_iff (reachable_stateAfter startEvents) (List.mem_singleton_self _) 2 false
      (by decide) (by decide)).2.mpr ⟨rfl, rfl, rfl, rfl, by rintro ⟨d, hd, -⟩; cases hd⟩
  exact ⟨k', child', hdup, _, rfl, hfaith⟩

end Mtrace.Client
