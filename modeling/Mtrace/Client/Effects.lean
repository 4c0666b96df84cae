import Mtrace.Client.Process
import Mtrace.Machine

/-!
# What the handlers do to a record

Each fallible function of `Process` is an access to a stack node followed by a change of the
record that cannot fail.  This module names these changes (`dropBlock`, `addBlock`, `trimBlock`,
`markBlock`, `linkNode`) and rewrites the functions in terms of them, so that later proofs look at
the changes only.  The loops come with induction rules over the changes they make.
-/

namespace Mtrace.Client

open RbTree Machine

/-! ## Stack nodes -/

namespace Process

theorem nodes_modifyNode (p : Process) (i : NodeId) (f : RbStack → RbStack) :
    (p.modifyNode i f).nodes = p.nodes.map fun n => if n.id = i then f n else n :=
  toList_map _ _

theorem node?_modifyNode (p : Process) (i j : NodeId) {f : RbStack → RbStack}
    (hf : ∀ n, (f n).id = n.id) :
    (p.modifyNode i f).node? j = if j = i then (p.node? i).map f else p.node? j := by
  have hid : ((fun n : RbStack => decide (n.id = j)) ∘ fun n => if n.id = i then f n else n) =
      fun n => decide (n.id = j) := by
    funext n
    simp only [Function.comp]
    split <;> simp [hf]
  unfold node?
  rw [nodes_modifyNode, List.find?_map, hid]
  rcases hn : p.nodes.find? fun n => n.id = j with _ | n
  · by_cases hj : j = i
    · subst hj; simp [hn]
    · simp [hj, hn]
  · have hnj : n.id = j := by simpa using List.find?_some hn
    by_cases hj : j = i
    · subst hj; simp [hn, hnj]
    · simp [hj, hn, hnj]

theorem modifyNode_modifyNode (p : Process) (i : NodeId) {f g : RbStack → RbStack}
    (hf : ∀ n, (f n).id = n.id) :
    (p.modifyNode i f).modifyNode i g = p.modifyNode i fun n => g (f n) := by
  unfold modifyNode
  congr 1
  rw [RbRoot.map_map]
  congr 1
  funext n
  by_cases h : n.id = i
  · simp [h, hf]
  · simp [h]

theorem deref_eq_ok {p : Process} {i : NodeId} {n : RbStack} :
    p.deref i = .ok n ↔ p.node? i = some n ∧ n.refcnt ≠ 0 := by
  unfold deref
  rcases p.node? i with _ | m
  · simp
  · by_cases h : m.refcnt = 0
    · simp only [if_pos h, reduceCtorEq, Option.some.injEq, false_iff, not_and, not_not]
      rintro rfl
      exact h
    · simp only [if_neg h, Except.ok.injEq, Option.some.injEq]
      exact ⟨fun e => ⟨e, e ▸ h⟩, fun e => e.1⟩

/-- An access to a node goes through a change of other fields of the node. -/
theorem deref_modifyNode (p : Process) (i : NodeId) {f : RbStack → RbStack}
    (hf : ∀ n, (f n).id = n.id) (hr : ∀ n, (f n).refcnt = n.refcnt) :
    (p.modifyNode i f).deref i = (p.deref i).map f := by
  unfold deref
  rw [node?_modifyNode p i i hf, if_pos rfl]
  rcases p.node? i with _ | n
  · rfl
  · simp only [Option.map_some, hr]
    split <;> rfl

/-- The node an access finds after a change, from the one it finds before. -/
theorem exists_deref_modifyNode (p : Process) (i : NodeId) {f : RbStack → RbStack}
    (hf : ∀ n, (f n).id = n.id) (hr : ∀ n, (f n).refcnt = n.refcnt) {P : RbStack → Prop} :
    (∃ n, (p.modifyNode i f).deref i = .ok n ∧ P n) ↔ ∃ n, p.deref i = .ok n ∧ P (f n) := by
  rw [deref_modifyNode p i hf hr]
  rcases p.deref i with e | n
  · exact ⟨fun ⟨_, h, _⟩ => (by cases h), fun ⟨_, h, _⟩ => (by cases h)⟩
  · exact ⟨fun ⟨_, h, hP⟩ => (by cases h; exact ⟨n, rfl, hP⟩),
      fun ⟨_, h, hP⟩ => (by cases h; exact ⟨_, rfl, hP⟩)⟩

end Process

theorem stackGet_eq_ok {k : Stacks} {p : Process} {i : NodeId} {r : Stacks × Process} :
    stackGet k p i = .ok r ↔ ∃ n, p.deref i = .ok n ∧
      r = (k.get n.stack.id, p.modifyNode i fun n => { n with refcnt := n.refcnt + 1 }) := by
  unfold stackGet
  rw [bind_eq_ok]
  exact exists_congr fun n => and_congr_right fun _ => ⟨fun h => by cases h; rfl, fun h => h ▸ rfl⟩

theorem stackPut_eq_ok {k : Stacks} {p : Process} {i : NodeId} {r : Stacks × Process} :
    stackPut k p i = .ok r ↔ ∃ n, p.deref i = .ok n ∧
      r = (k.put n.stack.id, p.modifyNode i fun n => { n with refcnt := n.refcnt - 1 }) := by
  unfold stackPut
  rw [bind_eq_ok]
  exact exists_congr fun n => and_congr_right fun _ => ⟨fun h => by cases h; rfl, fun h => h ▸ rfl⟩

/-! ## Blocks -/

/-- The counters of a node after `size` bytes of its block `b` are released. -/
def RbStack.release (b : RbBlock) (size : UInt32) (n : RbStack) : RbStack :=
  { n with
    leaks := if b.leaked then n.leaks - 1 else n.leaks
    bytesLeaked := if b.leaked then n.bytesLeaked - b.size else n.bytesLeaked
    bytesUsed := n.bytesUsed - size.toUInt64 }

/-- The counters of a process after `size` bytes of the block `b` are released. -/
def Process.release (p : Process) (b : RbBlock) (size : UInt32) : Process :=
  { p.modifyNode b.stackNode (·.release b size) with
    leaks := if b.leaked then p.leaks - 1 else p.leaks
    leakedBytes := if b.leaked then p.leakedBytes - b.size else p.leakedBytes
    bytesUsed := p.bytesUsed - size.toUInt64 }

/-- A block without the leak mark. -/
def RbBlock.unmarked (b : RbBlock) : RbBlock :=
  { b with flags := if b.leaked then b.flags &&& ~~~blockLeaked else b.flags }

theorem processReleaseMem_eq (p : Process) (b : RbBlock) (size : UInt32) :
    processReleaseMem p b size = (p.release b size, b.unmarked) := by
  unfold processReleaseMem Process.release RbBlock.unmarked
  cases hb : b.leaked with
  | false =>
    simp only [Bool.false_eq_true, if_false]
    refine Prod.ext ?_ rfl
    simp only [Process.modifyNode]
    congr 2
    funext n
    simp [RbStack.release, hb]
  | true =>
    simp only [if_true]
    refine Prod.ext ?_ rfl
    have h := Process.modifyNode_modifyNode p b.stackNode
      (f := fun n => { n with leaks := n.leaks - 1, bytesLeaked := n.bytesLeaked - b.size })
      (g := fun n => { n with bytesUsed := n.bytesUsed - size.toUInt64 }) (fun _ => rfl)
    have hrel : (fun n : RbStack => n.release b size) = fun n => { n with
        leaks := n.leaks - 1, bytesLeaked := n.bytesLeaked - b.size,
        bytesUsed := n.bytesUsed - size.toUInt64 } := by
      funext n; simp [RbStack.release, hb]
    simp only [hrel, ← h]
    rfl

/-- A node that loses its block `b`. -/
def RbStack.drop (b : RbBlock) (n : RbStack) : RbStack :=
  { n.release b b.size.toUInt32 with
    nAllocations := n.nAllocations - 1
    refcnt := n.refcnt - 1 }

/-- A node that gets a block of `size` bytes. -/
def RbStack.add (size : UInt64) (n : RbStack) : RbStack :=
  { n with
    nAllocations := n.nAllocations + 1
    totalAllocations := n.totalAllocations + 1
    bytesUsed := n.bytesUsed + size
    refcnt := n.refcnt + 1 }

/-- A node one of whose blocks is found leaked. -/
def RbStack.mark (b : RbBlock) (n : RbStack) : RbStack :=
  { n with leaks := n.leaks + 1, bytesLeaked := n.bytesLeaked + b.size }

namespace Process

/-- The blocks around a node of the table. -/
theorem blocks_of_tree {p : Process} {x : Loc RbBlock} (hx : x.tree = p.blockTable) :
    p.blocks = x.before ++ x.val :: x.after := by
  rw [blocks, ← hx, toList_tree]

/-- The record without the block at `x`. -/
def dropBlock (p : Process) (x : Loc RbBlock) : Process :=
  { p.modifyNode x.val.stackNode (·.drop x.val) with
    blockTable := x.erase
    nAllocations := p.nAllocations - 1
    leaks := if x.val.leaked then p.leaks - 1 else p.leaks
    leakedBytes := if x.val.leaked then p.leakedBytes - x.val.size else p.leakedBytes
    bytesUsed := p.bytesUsed - x.val.size.toUInt32.toUInt64 }

/-- The record with one more block; `bytesUsed` is left to the caller. -/
def addBlock (p : Process) (b : RbBlock) : Process :=
  { p.modifyNode b.stackNode (·.add b.size) with
    blockTable := (p.blockTable.gap (insertCut b.addr)).insertNew b
    nAllocations := p.nAllocations + 1 }

/-- The record after the first `size` bytes of the block at `x` are released. -/
def trimBlock (p : Process) (x : Loc RbBlock) (size : UInt64) : Process :=
  { p.release x.val size.toUInt32 with
    blockTable := x.set { x.val.unmarked with
      addr := x.val.addr + size, size := x.val.size - size } }

/-- The record after the block at `x` is found leaked. -/
def markBlock (p : Process) (x : Loc RbBlock) : Process :=
  { p.modifyNode x.val.stackNode (·.mark x.val) with
    blockTable := x.set { x.val with flags := x.val.flags ||| blockLeaked }
    leaks := p.leaks + 1
    leakedBytes := p.leakedBytes + x.val.size }

end Process

theorem processRbDeleteBlock_eq_ok {k : Stacks} {p : Process} {x : Loc RbBlock}
    {r : Stacks × Process} :
    processRbDeleteBlock k p x = .ok r ↔ ∃ n, p.deref x.val.stackNode = .ok n ∧
      r = (k.put n.stack.id, p.dropBlock x) := by
  -- the counters written before `stack_put` leave the access to the node as it was
  let h : RbStack → RbStack := fun n =>
    { n.release x.val x.val.size.toUInt32 with nAllocations := n.nAllocations - 1 }
  have hm : ((p.modifyNode x.val.stackNode (·.release x.val x.val.size.toUInt32)).modifyNode
      x.val.stackNode fun n => { n with nAllocations := n.nAllocations - 1 }) =
      p.modifyNode x.val.stackNode h := p.modifyNode_modifyNode _ fun _ => rfl
  have hm' : ((p.modifyNode x.val.stackNode h).modifyNode x.val.stackNode
      fun n => { n with refcnt := n.refcnt - 1 }) =
      p.modifyNode x.val.stackNode (·.drop x.val) := p.modifyNode_modifyNode _ fun _ => rfl
  have hq : processRbDeleteBlock k p x = stackPut k
      { p.modifyNode x.val.stackNode h with
        blockTable := x.erase
        nAllocations := p.nAllocations - 1
        leaks := if x.val.leaked then p.leaks - 1 else p.leaks
        leakedBytes := if x.val.leaked then p.leakedBytes - x.val.size else p.leakedBytes
        bytesUsed := p.bytesUsed - x.val.size.toUInt32.toUInt64 } x.val.stackNode := by
    unfold processRbDeleteBlock
    simp only [processReleaseMem_eq, ← hm]
    rfl
  rw [hq, stackPut_eq_ok]
  unfold Process.dropBlock
  rw [← hm']
  exact p.exists_deref_modifyNode x.val.stackNode (f := h) (fun _ => rfl) fun _ => rfl

theorem processRbInsertBlock_eq_ok {o : Options} {k : Stacks} {p : Process} {addr size : UInt64}
    {stack : NodeId} {flags : UInt64} {r : Stacks × Process} :
    processRbInsertBlock o k p addr size stack flags = .ok r ↔
      (o.kill && (p.blockTable.gap (insertCut addr)).entries.any (startsIn addr size)) = false ∧
        ∃ n, p.deref stack = .ok n ∧
          r = (k.get n.stack.id, p.addBlock ⟨flags, addr, size, stack⟩) := by
  unfold processRbInsertBlock
  by_cases hk : (o.kill &&
      (p.blockTable.gap (insertCut addr)).entries.any (startsIn addr size)) = true
  · simp only [hk, if_true, reduceCtorEq, Bool.true_eq_false, false_and]
  · rw [if_neg hk, bind_eq_ok]
    simp only [stackGet_eq_ok]
    let h : RbStack → RbStack := fun n =>
      { n with
        nAllocations := n.nAllocations + 1
        totalAllocations := n.totalAllocations + 1
        bytesUsed := n.bytesUsed + size }
    have hm : ((p.modifyNode stack h).modifyNode stack fun n => { n with refcnt := n.refcnt + 1 }) =
        p.modifyNode stack (·.add size) := p.modifyNode_modifyNode _ fun _ => rfl
    have hex := p.exists_deref_modifyNode stack (f := h) (fun _ => rfl) (fun _ => rfl)
      (P := fun n => r = (k.get n.stack.id, p.addBlock ⟨flags, addr, size, stack⟩))
    refine Iff.trans ?_ (and_iff_right (Bool.not_eq_true _ ▸ hk)).symm
    refine Iff.trans ⟨?_, ?_⟩ hex
    · rintro ⟨-, ⟨n, hn, rfl⟩, hr⟩
      refine ⟨n, hn, ?_⟩
      cases hr
      unfold Process.addBlock
      rw [← hm]
      rfl
    · rintro ⟨n, hn, rfl⟩
      refine ⟨_, ⟨n, hn, rfl⟩, ?_⟩
      unfold Process.addBlock
      rw [← hm]
      rfl

/-! ## Backtraces and pending `realloc` calls -/

/-- The node `stack_add` creates. -/
def RbStack.fresh (k : Stacks) (p : Process) (addrs : List UInt8) (operation : MtOperation)
    (ignore : Bool) : RbStack :=
  { id := p.nextNode, stack := ⟨k.next, addrs, operation, ignore⟩, refcnt := 1, leaks := 0,
    nAllocations := 0, totalAllocations := 0, bytesUsed := 0, bytesLeaked := 0, tsc := 0,
    nMismatched := 0, nBadfree := 0 }

theorem stackAdd_cases {env : Env} {k : Stacks} {p : Process} {addrs : List UInt8}
    {operation : MtOperation} {r : Stacks × Process × NodeId}
    (h : stackAdd env k p addrs operation = .ok r) :
    (∃ x, p.stackTable.find (stackCut addrs) = some x ∧ r = (k, p, x.val.id)) ∨
      p.stackTable.find (stackCut addrs) = none ∧ ∃ ignore,
        r = (k.new.get k.next, p.linkNode (.fresh k p addrs operation ignore), p.nextNode) := by
  unfold stackAdd at h
  rcases hf : p.stackTable.find (stackCut addrs) with _ | x
  · rw [hf] at h
    obtain ⟨ignore, -, hr⟩ := bind_eq_ok.mp h
    cases hr
    exact .inr ⟨rfl, ignore, rfl⟩
  · rw [hf] at h
    by_cases hop : x.val.stack.operation = operation
    · simp only [if_pos hop, Except.ok.injEq] at h
      exact .inl ⟨x, rfl, h.symm⟩
    · simp only [if_neg hop, reduceCtorEq] at h

theorem reallocAdd_cases {k : Stacks} {p : Process} {re : ReallocEntry} {r : Stacks × Process}
    (h : reallocAdd k p re = .ok r) :
    (∃ i n, re.stackNode = some i ∧ p.deref i = .ok n ∧
        r = (k.get n.stack.id, { p.modifyNode i fun n => { n with refcnt := n.refcnt + 1 } with
          reallocList := p.reallocList ++ [re] })) ∨
      re.stackNode = none ∧ r = (k, { p with reallocList := p.reallocList ++ [re] }) := by
  unfold reallocAdd at h
  rcases hs : re.stackNode with _ | i
  · simp only [hs] at h
    cases h
    exact .inr ⟨rfl, rfl⟩
  · simp only [hs] at h
    obtain ⟨r', h1, h2⟩ := bind_eq_ok.mp h
    obtain ⟨n, hn, rfl⟩ := stackGet_eq_ok.mp h1
    cases h2
    exact .inl ⟨i, n, rfl, hn, rfl⟩

theorem reallocDel_cases {k : Stacks} {p : Process} {before after : List ReallocEntry}
    {re : ReallocEntry} {r : Stacks × Process} (h : reallocDel k p before re after = .ok r) :
    (∃ i n, re.stackNode = some i ∧ p.deref i = .ok n ∧
        r = (k.put n.stack.id, { p.modifyNode i fun n => { n with refcnt := n.refcnt - 1 } with
          reallocList := before ++ after })) ∨
      re.stackNode = none ∧ r = (k, { p with reallocList := before ++ after }) := by
  unfold reallocDel at h
  rcases hs : re.stackNode with _ | i
  · simp only [hs] at h
    cases h
    exact .inr ⟨rfl, rfl⟩
  · simp only [hs] at h
    obtain ⟨r', h1, h2⟩ := bind_eq_ok.mp h
    obtain ⟨n, hn, rfl⟩ := stackPut_eq_ok.mp h1
    cases h2
    exact .inl ⟨i, n, rfl, hn, rfl⟩

theorem findRealloc_eq_some {pid : UInt32} {res before after : List ReallocEntry}
    {re : ReallocEntry} (h : findRealloc pid res = some (before, re, after)) :
    res = before ++ re :: after ∧ re.pid = pid ∧ ∀ x ∈ before, x.pid ≠ pid := by
  induction res generalizing before with
  | nil => cases h
  | cons x xs ih =>
    unfold findRealloc at h
    by_cases hx : x.pid = pid
    · rw [if_pos hx] at h
      cases h
      exact ⟨rfl, hx, by simp⟩
    · rw [if_neg hx] at h
      rcases hf : findRealloc pid xs with _ | ⟨b, y, a⟩
      · rw [hf] at h; cases h
      · rw [hf] at h
        cases h
        obtain ⟨hxs, hpid, hb⟩ := ih hf
        exact ⟨by rw [hxs]; rfl, hpid, fun z hz => by
          rcases List.mem_cons.mp hz with rfl | hz
          · exact hx
          · exact hb z hz⟩

/-! ## The loops -/

theorem rangeCut_eq_eq {addr size : UInt64} {b : RbBlock} :
    rangeCut addr size b = .eq ↔ startsIn addr size b = true := by
  unfold rangeCut
  split
  · simp [*]
  · split <;> simp [*]

theorem addrCut_eq_eq {addr : UInt64} {b : RbBlock} : addrCut addr b = .eq ↔ b.addr = addr := by
  unfold addrCut
  split
  · simp [*]
  next h =>
    rw [eq_comm] at h
    split <;> simp [h]

theorem startsIn_of_searchRange {t : RbRoot RbBlock} {addr size : UInt64} {x : Loc RbBlock}
    (h : processRbSearchRange t addr size = some x) : startsIn addr size x.val = true :=
  rangeCut_eq_eq.mp (find_some h).2

/-- The range of a search as natural numbers. -/
theorem startsIn_iff {addr size : UInt64} {b : RbBlock} :
    startsIn addr size b = true ↔ addr.toNat ≤ b.addr.toNat ∧
      b.addr.toNat < addr.toNat + max size.toNat 1 ∧
      addr.toNat + max size.toNat 1 < 2 ^ 64 := by
  have hlen : (if size = 0 then (1 : UInt64) else size).toNat = max size.toNat 1 := by
    split
    next h => subst h; rfl
    next h =>
      have : size.toNat ≠ 0 := fun h0 => h (UInt64.toNat_inj.mp (by simpa using h0))
      omega
  have h1 := addr.toNat_lt
  have h2 := b.addr.toNat_lt
  have h3 := size.toNat_lt
  simp only [startsIn, Bool.and_eq_true, decide_eq_true_eq, UInt64.le_iff_toNat_le,
    UInt64.lt_iff_toNat_lt, UInt64.toNat_add, hlen]
  omega

theorem addr_of_search {t : RbRoot RbBlock} {addr : UInt64} {x : Loc RbBlock}
    (h : processRbSearch t addr = some x) : x.val.addr = addr :=
  addrCut_eq_eq.mp (find_some h).2

/-- A search never returns a block in front of the range: the second half of `process_munmap`,
which would split such a block, is not reached. -/
theorem le_addr_of_searchRange {t : RbRoot RbBlock} {addr size : UInt64} {x : Loc RbBlock}
    (h : processRbSearchRange t addr size = some x) : addr ≤ x.val.addr := by
  have hs := startsIn_of_searchRange h
  simp only [startsIn, Bool.and_eq_true, decide_eq_true_eq] at hs
  exact hs.1

theorem evictLoop_of_none {o : Options} {ptr size : UInt64} {k : Stacks} {p : Process} (fuel : ℕ)
    (h : processRbSearchRange p.blockTable ptr size = none) :
    evictLoop o ptr size fuel k p = .ok (k, p) := by
  cases fuel with
  | zero => rfl
  | succ fuel =>
    unfold evictLoop
    rw [h]

/-- What the loop of `process_alloc` keeps. -/
theorem evictLoop_induct {o : Options} {ptr size : UInt64} {P : Stacks → Process → Prop}
    (hdrop : ∀ k p x n, P k p → processRbSearchRange p.blockTable ptr size = some x →
      p.deref x.val.stackNode = .ok n → P (k.put n.stack.id) (p.dropBlock x)) :
    ∀ (fuel : ℕ) (k : Stacks) (p : Process) (r : Stacks × Process), P k p →
      evictLoop o ptr size fuel k p = .ok r → P r.1 r.2 := by
  intro fuel
  induction fuel with
  | zero => intro k p r hP h; cases h; exact hP
  | succ fuel ih =>
    intro k p r hP h
    unfold evictLoop at h
    rcases hs : processRbSearchRange p.blockTable ptr size with _ | x
    · rw [hs] at h; cases h; exact hP
    · rw [hs] at h
      by_cases hk : o.kill = true
      · simp only [if_pos hk, reduceCtorEq] at h
      · simp only [if_neg hk] at h
        obtain ⟨r', h1, h2⟩ := bind_eq_ok.mp h
        obtain ⟨n, hn, rfl⟩ := processRbDeleteBlock_eq_ok.mp h1
        exact ih _ _ _ (hdrop k p x n hP hs hn) h2

/-- The gap between the range and the block a pass of `process_munmap` works on, as the source
computes it. -/
def munmapOff (ptr : UInt64) (b : RbBlock) : UInt64 := (b.addr - ptr).toUInt32.toUInt64

/-- A pass of the loop of `process_munmap`. -/
theorem munmapLoop_cases {o : Options} {fuel : ℕ} {k : Stacks} {p : Process} {ptr size : UInt64}
    {r : Stacks × Process} (h : munmapLoop o (fuel + 1) k p ptr size = .ok r) :
    processRbSearchRange p.blockTable ptr size = none ∧ r = (k, p) ∨
    ∃ x n, processRbSearchRange p.blockTable ptr size = some x ∧
      p.deref x.val.stackNode = .ok n ∧
      (isMmap n.stack.operation = false ∧ r = (k, p) ∨
      isMmap n.stack.operation = true ∧ size - munmapOff ptr x.val < x.val.size ∧
        r = (k, p.trimBlock x (size - munmapOff ptr x.val)) ∨
      isMmap n.stack.operation = true ∧ ¬ size - munmapOff ptr x.val < x.val.size ∧
        if size - munmapOff ptr x.val - x.val.size = 0 then r = (k.put n.stack.id, p.dropBlock x)
        else munmapLoop o fuel (k.put n.stack.id) (p.dropBlock x)
          (ptr + munmapOff ptr x.val + x.val.size)
          (size - munmapOff ptr x.val - x.val.size) = .ok r) := by
  unfold munmapLoop at h
  rcases hs : processRbSearchRange p.blockTable ptr size with _ | x
  · rw [hs] at h; cases h; exact .inl ⟨rfl, rfl⟩
  rw [hs] at h
  obtain ⟨n, hn, h⟩ := bind_eq_ok.mp h
  refine .inr ⟨x, n, rfl, hn, ?_⟩
  cases hm : isMmap n.stack.operation with
  | false =>
    simp only [hm, Bool.not_false, if_true] at h
    split at h
    · cases h
    · cases h; exact .inl ⟨rfl, rfl⟩
  | true =>
    refine .inr ?_
    simp only [hm, Bool.not_true, Bool.false_eq_true, if_false, le_addr_of_searchRange hs,
      if_true] at h
    by_cases hlt : size - munmapOff ptr x.val < x.val.size
    · have hlt' : size - (x.val.addr - ptr).toUInt32.toUInt64 < x.val.size := hlt
      rw [if_pos hlt'] at h
      simp only [processReleaseMem_eq] at h
      cases h
      exact .inl ⟨rfl, hlt, rfl⟩
    · have hlt' : ¬ size - (x.val.addr - ptr).toUInt32.toUInt64 < x.val.size := hlt
      rw [if_neg hlt'] at h
      obtain ⟨r', h1, h⟩ := bind_eq_ok.mp h
      obtain ⟨n', hn', rfl⟩ := processRbDeleteBlock_eq_ok.mp h1
      cases hn.symm.trans hn'
      refine .inr ⟨rfl, hlt, ?_⟩
      by_cases hz : size - munmapOff ptr x.val - x.val.size = 0
      · have hz' : size - (x.val.addr - ptr).toUInt32.toUInt64 - x.val.size = 0 := hz
        simp only [if_pos hz'] at h
        cases h
        rw [if_pos hz]
      · have hz' : ¬ size - (x.val.addr - ptr).toUInt32.toUInt64 - x.val.size = 0 := hz
        simp only [if_neg hz'] at h
        rw [if_neg hz]
        exact h

/-- What the loop of `process_munmap` keeps: `P` before every pass, `Q` at its end. -/
theorem munmapLoop_induct {o : Options} {P : Stacks → Process → UInt64 → UInt64 → Prop}
    {Q : Stacks → Process → Prop} (hdone : ∀ k p ptr size, P k p ptr size → Q k p)
    (htrim : ∀ k p ptr size x n, P k p ptr size →
      processRbSearchRange p.blockTable ptr size = some x → p.deref x.val.stackNode = .ok n →
      isMmap n.stack.operation = true → size - munmapOff ptr x.val < x.val.size →
      Q k (p.trimBlock x (size - munmapOff ptr x.val)))
    (hdrop : ∀ k p ptr size x n, P k p ptr size →
      processRbSearchRange p.blockTable ptr size = some x → p.deref x.val.stackNode = .ok n →
      isMmap n.stack.operation = true → ¬ size - munmapOff ptr x.val < x.val.size →
      if size - munmapOff ptr x.val - x.val.size = 0 then Q (k.put n.stack.id) (p.dropBlock x)
      else P (k.put n.stack.id) (p.dropBlock x) (ptr + munmapOff ptr x.val + x.val.size)
        (size - munmapOff ptr x.val - x.val.size)) :
    ∀ (fuel : ℕ) (k : Stacks) (p : Process) (ptr size : UInt64) (r : Stacks × Process),
      P k p ptr size → munmapLoop o fuel k p ptr size = .ok r → Q r.1 r.2 := by
  intro fuel
  induction fuel with
  | zero => intro k p ptr size r hP h; cases h; exact hdone _ _ _ _ hP
  | succ fuel ih =>
    intro k p ptr size r hP h
    rcases munmapLoop_cases h with
      ⟨-, rfl⟩ | ⟨x, n, hs, hn, ⟨-, rfl⟩ | ⟨hm, hlt, rfl⟩ | ⟨hm, hlt, hrest⟩⟩
    · exact hdone _ _ _ _ hP
    · exact hdone _ _ _ _ hP
    · exact htrim k p ptr size x n hP hs hn hm hlt
    · have hP' := hdrop k p ptr size x n hP hs hn hm hlt
      split at hrest
      next hz =>
        rw [if_pos hz] at hP'
        cases hrest
        exact hP'
      next hz =>
        rw [if_neg hz] at hP'
        exact ih _ _ _ _ _ hP' hrest

/-- What the loop of `process_scan` keeps. -/
theorem scanBlocks_induct {P : Process → Prop}
    (hmark : ∀ p a x n, P p → processRbSearch p.blockTable a = some x → x.val.leaked = false →
      p.deref x.val.stackNode = .ok n → P (p.markBlock x)) :
    ∀ (leaks : List UInt64) (p p' : Process), P p → scanBlocks leaks p = .ok p' → P p' := by
  intro leaks
  induction leaks with
  | nil => intro p p' hP h; cases h; exact hP
  | cons a as ih =>
    intro p p' hP h
    unfold scanBlocks at h
    rcases hs : processRbSearch p.blockTable a with _ | x
    · rw [hs] at h; exact ih p p' hP h
    · rw [hs] at h
      by_cases hl : x.val.leaked = true
      · simp only [if_pos hl] at h
        exact ih p p' hP h
      · simp only [if_neg hl] at h
        obtain ⟨n, hn, h⟩ := bind_eq_ok.mp h
        exact ih _ _ (hmark p a x n hP hs (Bool.not_eq_true _ ▸ hl) hn) h

/-! ## The handlers -/

/-- The bookkeeping of `process_alloc` for its new block, which belongs to the node `i`. -/
def Process.charge (p : Process) (i : NodeId) (size : UInt64) : Process :=
  Process.stampNode
    { p with totalAllocations := p.totalAllocations + 1, bytesUsed := p.bytesUsed + size } i id

theorem processAlloc_cases {o : Options} {env : Env} {k : Stacks} {p : Process}
    {op : MtOperation} {m : MtAllocPayload} {r : Stacks × Process}
    (h : processAlloc o env k p op m = .ok r) :
    p.tracing = false ∧ r = (k, p) ∨
      p.tracing = true ∧ ∃ k1 p1 k2 p2 i n,
        evictLoop o m.ptr m.size p.blockTable.size k p = .ok (k1, p1) ∧
        stackAdd env k1 p1 m.data op = .ok (k2, p2, i) ∧ p2.deref i = .ok n ∧
        r = (k2.get n.stack.id, (p2.addBlock ⟨0, m.ptr, m.size, i⟩).charge i m.size) := by
  unfold processAlloc at h
  cases ht : p.tracing with
  | false =>
    simp only [ht, Bool.not_false, if_true] at h
    cases h
    exact .inl ⟨rfl, rfl⟩
  | true =>
    simp only [ht, Bool.not_true, Bool.false_eq_true, if_false] at h
    obtain ⟨⟨k1, p1⟩, h1, h⟩ := bind_eq_ok.mp h
    obtain ⟨⟨k2, p2, i⟩, h2, h⟩ := bind_eq_ok.mp h
    obtain ⟨r3, h3, h⟩ := bind_eq_ok.mp h
    obtain ⟨-, n, hn, rfl⟩ := processRbInsertBlock_eq_ok.mp h3
    cases h
    exact .inr ⟨rfl, k1, p1, k2, p2, i, n, h1, h2, hn, rfl⟩

/-- A backtrace noted for a release that does not fit: nothing else changes but its node. -/
def Noted (env : Env) (k : Stacks) (p : Process) (data : List UInt8) (op : MtOperation)
    (r : Stacks × Process) : Prop :=
  r = (k, p) ∨ data ≠ [] ∧ ∃ k1 p1 i a b, stackAdd env k p data op = .ok (k1, p1, i) ∧
    r = (k1, p1.stampNode i fun n =>
      { n with nMismatched := n.nMismatched + a, nBadfree := n.nBadfree + b })

theorem noted_of_noteMismatch {env : Env} {k : Stacks} {p : Process} {data : List UInt8}
    {alloc op : MtOperation} {r : Stacks × Process}
    (h : noteMismatch env k p data alloc op = .ok r) : Noted env k p data op r := by
  unfold noteMismatch at h
  split at h
  next hc =>
    obtain ⟨⟨k1, p1, i⟩, h1, h⟩ := bind_eq_ok.mp h
    cases h
    refine .inr ⟨?_, k1, p1, i, 1, 0, h1, ?_⟩
    · simpa using (Bool.and_eq_true_iff.mp hc).1
    · simp only [add_zero]
  · cases h; exact .inl rfl

theorem noted_of_noteBadfree {o : Options} {env : Env} {k : Stacks} {p : Process}
    {data : List UInt8} {op : MtOperation} {r : Stacks × Process}
    (h : noteBadfree o env k p data op = .ok r) : Noted env k p data op r := by
  unfold noteBadfree at h
  split at h
  · cases h; exact .inl rfl
  split at h
  · cases h
  split at h
  · cases h; exact .inl rfl
  next hd =>
    obtain ⟨⟨k1, p1, i⟩, h1, h⟩ := bind_eq_ok.mp h
    cases h
    refine .inr ⟨by simpa using hd, k1, p1, i, 0, 1, h1, ?_⟩
    simp only [add_zero]

/-- The entry of the `realloc` that takes the block `b` away from thread `pid`. -/
def RbBlock.entry (b : RbBlock) (pid : UInt32) : ReallocEntry :=
  ⟨pid, b.addr, b.size, b.flags, some b.stackNode⟩

theorem processFree_cases {o : Options} {env : Env} {k : Stacks} {p : Process}
    {op : MtOperation} {m : MtAllocPayload} {r : Stacks × Process}
    (h : processFree o env k p op m = .ok r) :
    (p.tracing = false ∨ m.ptr = 0) ∧ r = (k, p) ∨
      p.tracing = true ∧ m.ptr ≠ 0 ∧ ∃ r1, Noted env k p m.data op r1 ∧
        ((∃ x r2 n, processRbSearch p.blockTable m.ptr = some x ∧
            enterRealloc r1.1 r1.2 op (x.val.entry m.size.toUInt32) = .ok r2 ∧
            r2.2.deref x.val.stackNode = .ok n ∧
            r = (r2.1.put n.stack.id, r2.2.dropBlock x)) ∨
          processRbSearch p.blockTable m.ptr = none ∧
            enterRealloc r1.1 r1.2 op ⟨m.size.toUInt32, 0, 0, 0, none⟩ = .ok r) := by
  unfold processFree at h
  cases ht : p.tracing with
  | false =>
    simp only [ht, Bool.not_false, if_true] at h
    cases h
    exact .inl ⟨.inl rfl, rfl⟩
  | true =>
    simp only [ht, Bool.not_true, Bool.false_eq_true, if_false] at h
    by_cases hz : m.ptr = 0
    · simp only [if_pos hz] at h
      cases h
      exact .inl ⟨.inr hz, rfl⟩
    simp only [if_neg hz] at h
    refine .inr ⟨rfl, hz, ?_⟩
    rcases hs : processRbSearch p.blockTable m.ptr with _ | x
    · simp only [hs] at h
      obtain ⟨r1, h1, h⟩ := bind_eq_ok.mp h
      exact ⟨r1, noted_of_noteBadfree h1, .inr ⟨rfl, h⟩⟩
    · simp only [hs] at h
      obtain ⟨n, hn, h⟩ := bind_eq_ok.mp h
      split at h
      · cases h
      obtain ⟨r1, h1, h⟩ := bind_eq_ok.mp h
      obtain ⟨r2, h2, h⟩ := bind_eq_ok.mp h
      obtain ⟨n', hn', rfl⟩ := processRbDeleteBlock_eq_ok.mp h
      exact ⟨r1, noted_of_noteMismatch h1, .inl ⟨x, r2, n', rfl, h2, hn', rfl⟩⟩

/-- The block a pending `realloc` stands for. -/
def ReallocEntry.block (re : ReallocEntry) (i : NodeId) : RbBlock :=
  ⟨re.flags, re.addr, re.size, i⟩

theorem processReallocDone_cases {o : Options} {k : Stacks} {p : Process} {m : MtAllocPayload}
    {r : Stacks × Process} (h : processReallocDone o k p m = .ok r) :
    (p.tracing = false ∨ findRealloc m.size.toUInt32 p.reallocList = none) ∧ r = (k, p) ∨
    p.tracing = true ∧ ∃ before re after,
      findRealloc m.size.toUInt32 p.reallocList = some (before, re, after) ∧
      ((∃ i n, m.ptr = 0 ∧ re.addr ≠ 0 ∧ re.stackNode = some i ∧ p.deref i = .ok n ∧
          reallocDel (k.get n.stack.id) (p.addBlock (re.block i)) before re after = .ok r) ∨
        (m.ptr ≠ 0 ∨ re.addr = 0) ∧ reallocDel k p before re after = .ok r) := by
  unfold processReallocDone at h
  cases ht : p.tracing with
  | false =>
    simp only [ht, Bool.not_false, if_true] at h
    cases h
    exact .inl ⟨.inl rfl, rfl⟩
  | true =>
    simp only [ht, Bool.not_true, Bool.false_eq_true, if_false] at h
    rcases hf : findRealloc m.size.toUInt32 p.reallocList with _ | ⟨before, re, after⟩
    · simp only [hf] at h
      split at h
      · cases h
      · cases h; exact .inl ⟨.inr rfl, rfl⟩
    · simp only [hf] at h
      refine .inr ⟨rfl, before, re, after, rfl, ?_⟩
      obtain ⟨r1, h1, h⟩ := bind_eq_ok.mp h
      unfold restoreBlock at h1
      by_cases hc : m.ptr = 0 ∧ re.addr ≠ 0
      · rw [if_pos (by simpa using hc)] at h1
        rcases hs : re.stackNode with _ | i
        · simp only [hs, reduceCtorEq] at h1
        · simp only [hs] at h1
          obtain ⟨-, n, hn, rfl⟩ := processRbInsertBlock_eq_ok.mp h1
          exact .inl ⟨i, n, hc.1, hc.2, rfl, hn, h⟩
      · rw [if_neg (by simpa using hc)] at h1
        cases h1
        exact .inr ⟨by tauto, h⟩

theorem stackClone_cases (k : Stacks) (p : Process) (n : RbStack) :
    (∃ x, p.stackTable.find (stackCut n.stack.addrs) = some x ∧
        stackClone k p n = (k, p, x.val.id)) ∨
      p.stackTable.find (stackCut n.stack.addrs) = none ∧
        stackClone k p n =
          (k.get n.stack.id, p.linkNode { n with id := p.nextNode, refcnt := 1 }, p.nextNode) := by
  unfold stackClone
  rcases hf : p.stackTable.find (stackCut n.stack.addrs) with _ | x
  · exact .inr ⟨rfl, rfl⟩
  · exact .inl ⟨x, rfl, rfl⟩

theorem stackClone_blockTable {k k' : Stacks} {p p' : Process} {n : RbStack} {i : NodeId}
    (h : stackClone k p n = (k', p', i)) : p'.blockTable = p.blockTable := by
  rcases stackClone_cases k p n with ⟨x, -, heq⟩ | ⟨-, heq⟩
  · cases heq.symm.trans h; rfl
  · cases heq.symm.trans h; rfl

/-- The record with a copy of the block `b`, charged to its own node `i`. -/
def Process.copyBlock (p : Process) (b : RbBlock) (i : NodeId) : Process :=
  let p := p.addBlock { b with stackNode := i }
  { p with bytesUsed := p.bytesUsed + b.size }

theorem processRbDuplicateBlock_cases {o : Options} {copy : Process} {k : Stacks} {p : Process}
    {b : RbBlock} {r : Stacks × Process}
    (h : processRbDuplicateBlock o copy k p b = .ok r) :
    ∃ n k1 p1 i n1, copy.deref b.stackNode = .ok n ∧ stackClone k p n = (k1, p1, i) ∧
      p1.deref i = .ok n1 ∧ r = (k1.get n1.stack.id, p1.copyBlock b i) := by
  unfold processRbDuplicateBlock at h
  obtain ⟨n, hn, h⟩ := bind_eq_ok.mp h
  obtain ⟨r1, h1, h⟩ := bind_eq_ok.mp h
  obtain ⟨-, n1, hn1, rfl⟩ := processRbInsertBlock_eq_ok.mp h1
  cases h
  exact ⟨n, _, _, _, n1, hn, rfl, hn1, rfl⟩

end Mtrace.Client
