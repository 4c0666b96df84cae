import Mtrace.Client.Changes

/-!
# Who holds a reference to a backtrace

A stack node is referenced by its table, by the blocks and the pending `realloc` calls of its
process and by the dumps that print it; a `struct stack` is referenced once for every reference to
one of its nodes, in whatever process.  `Owned` states both equations for one process, where `ext`
counts the references of dumps and `rest` those of other processes, and every handler keeps it.
From it an access to a node never meets freed memory.
-/

namespace Mtrace.Client

open RbTree Machine

/-! ## Counting references -/

/-- The references a list of blocks holds on the node `i`. -/
def blockRefs (bs : List RbBlock) (i : NodeId) : ℕ := bs.countP fun b => b.stackNode = i

/-- The references a list of pending `realloc` calls holds on the node `i`. -/
def reallocRefs (res : List ReallocEntry) (i : NodeId) : ℕ :=
  res.countP fun re => re.stackNode = some i

/-- The references a list of nodes holds on the `struct stack` `s`. -/
def stackRefs (ns : List RbStack) (s : StackId) : ℕ :=
  (ns.map fun n => if n.stack.id = s then n.refcnt else 0).sum

@[simp] theorem blockRefs_nil (i : NodeId) : blockRefs [] i = 0 := rfl

@[simp] theorem blockRefs_cons (b : RbBlock) (bs : List RbBlock) (i : NodeId) :
    blockRefs (b :: bs) i = blockRefs bs i + if b.stackNode = i then 1 else 0 := by
  simp [blockRefs, List.countP_cons]

@[simp] theorem blockRefs_append (bs bs' : List RbBlock) (i : NodeId) :
    blockRefs (bs ++ bs') i = blockRefs bs i + blockRefs bs' i :=
  List.countP_append

@[simp] theorem reallocRefs_nil (i : NodeId) : reallocRefs [] i = 0 := rfl

@[simp] theorem reallocRefs_cons (re : ReallocEntry) (res : List ReallocEntry) (i : NodeId) :
    reallocRefs (re :: res) i = reallocRefs res i + if re.stackNode = some i then 1 else 0 := by
  simp [reallocRefs, List.countP_cons]

@[simp] theorem reallocRefs_append (res res' : List ReallocEntry) (i : NodeId) :
    reallocRefs (res ++ res') i = reallocRefs res i + reallocRefs res' i :=
  List.countP_append

@[simp] theorem stackRefs_nil (s : StackId) : stackRefs [] s = 0 := rfl

@[simp] theorem stackRefs_cons (n : RbStack) (ns : List RbStack) (s : StackId) :
    stackRefs (n :: ns) s = (if n.stack.id = s then n.refcnt else 0) + stackRefs ns s := rfl

@[simp] theorem stackRefs_append (ns ns' : List RbStack) (s : StackId) :
    stackRefs (ns ++ ns') s = stackRefs ns s + stackRefs ns' s := by
  simp [stackRefs]

theorem blockRefs_pos {bs : List RbBlock} {b : RbBlock} (h : b ∈ bs) :
    blockRefs bs b.stackNode ≠ 0 := by
  have := List.countP_pos_iff (p := fun c : RbBlock => decide (c.stackNode = b.stackNode)) (l := bs)
  exact Nat.pos_iff_ne_zero.mp (this.mpr ⟨b, h, by simp⟩)

theorem reallocRefs_pos {res : List ReallocEntry} {re : ReallocEntry} {i : NodeId} (h : re ∈ res)
    (hi : re.stackNode = some i) : reallocRefs res i ≠ 0 := by
  have := List.countP_pos_iff
    (p := fun x : ReallocEntry => decide (x.stackNode = some i)) (l := res)
  exact Nat.pos_iff_ne_zero.mp (this.mpr ⟨re, h, by simp [hi]⟩)

theorem refcnt_le_stackRefs {ns : List RbStack} {n : RbStack} (h : n ∈ ns) :
    n.refcnt ≤ stackRefs ns n.stack.id := by
  induction ns with
  | nil => cases h
  | cons m ms ih =>
    rw [stackRefs_cons]
    rcases List.mem_cons.mp h with rfl | h
    · rw [if_pos rfl]; omega
    · have := ih h; omega

/-- A write through the pointer `i`, seen from a node. -/
def onNode (i : NodeId) (f : RbStack → RbStack) (n : RbStack) : RbStack :=
  if n.id = i then f n else n

theorem onNode_id {i : NodeId} {f : RbStack → RbStack} (hf : ∀ n, (f n).id = n.id) (n : RbStack) :
    (onNode i f n).id = n.id := by
  unfold onNode; split <;> simp [hf]

theorem map_id_onNode {i : NodeId} {f : RbStack → RbStack} (hf : ∀ n, (f n).id = n.id)
    (ns : List RbStack) : (ns.map (onNode i f)).map (·.id) = ns.map (·.id) := by
  rw [List.map_map]
  exact List.map_congr_left fun n _ => onNode_id hf n

/-- A write moves the references of one `struct stack` by what it adds to the counter of its
node. -/
theorem stackRefs_onNode {f : RbStack → RbStack} (hs : ∀ n, (f n).stack = n.stack)
    {ns : List RbStack} {n : RbStack} (hnd : (ns.map (·.id)).Nodup) (hn : n ∈ ns) (s : StackId) :
    stackRefs (ns.map (onNode n.id f)) s + (if n.stack.id = s then n.refcnt else 0) =
      stackRefs ns s + if n.stack.id = s then (f n).refcnt else 0 := by
  induction ns with
  | nil => cases hn
  | cons m ms ih =>
    obtain ⟨hm, hnd⟩ := List.nodup_cons.mp hnd
    rw [List.map_cons, stackRefs_cons, stackRefs_cons]
    rcases List.mem_cons.mp hn with rfl | hn
    · have htail : ms.map (onNode n.id f) = ms := by
        refine (List.map_congr_left fun x hx => ?_).trans (List.map_id ms)
        unfold onNode
        have hne : x.id ≠ n.id := fun e => hm (List.mem_map.mpr ⟨x, hx, e⟩)
        rw [if_neg hne]
        rfl
      rw [htail, onNode, if_pos rfl, hs]
      omega
    · have hne : m.id ≠ n.id := fun e => hm (List.mem_map.mpr ⟨n, hn, e.symm⟩)
      rw [onNode, if_neg hne]
      have := ih hnd hn
      omega

/-! ## The equations for a list of nodes -/

/-- Every node has one reference from its table and `R` more; the `struct stack`s have those of
these nodes and `rest` more. -/
structure Refs (k : Stacks) (ns : List RbStack) (R : NodeId → ℕ) (rest : StackId → ℕ) : Prop where
  nodup : (ns.map (·.id)).Nodup
  refcnt : ∀ n ∈ ns, n.refcnt = 1 + R n.id
  held : ∀ i, R i ≠ 0 → i ∈ ns.map (·.id)
  shared : ∀ s, k.refcnt s = stackRefs ns s + rest s
  unborn : ∀ s, k.next ≤ s → k.refcnt s = 0

namespace Refs

variable {k : Stacks} {ns : List RbStack} {R R' : NodeId → ℕ} {rest : StackId → ℕ}

theorem congr (h : Refs k ns R rest) (hR : ∀ i, R' i = R i) : Refs k ns R' rest := by
  rw [show R' = R from funext hR]; exact h

/-- A change of the counter of one node, matched in the counter of its `struct stack`. -/
theorem onNode {k' : Stacks} {f : RbStack → RbStack} {n : RbStack} (h : Refs k ns R rest)
    (hn : n ∈ ns) (hid : ∀ n, (f n).id = n.id) (hst : ∀ n, (f n).stack = n.stack)
    (hR : ∀ i, i ≠ n.id → R' i = R i) (hRn : (f n).refcnt = 1 + R' n.id)
    (hnext : k'.next = k.next) (hk : ∀ s, s ≠ n.stack.id → k'.refcnt s = k.refcnt s)
    (hkn : k'.refcnt n.stack.id + n.refcnt = k.refcnt n.stack.id + (f n).refcnt) :
    Refs k' (ns.map (Client.onNode n.id f)) R' rest where
  nodup := by rw [map_id_onNode hid]; exact h.nodup
  refcnt m' hm' := by
    obtain ⟨m, hm, rfl⟩ := List.mem_map.mp hm'
    unfold Client.onNode
    by_cases hmn : m.id = n.id
    · have hmeq : m = n := List.inj_on_of_nodup_map h.nodup hm hn hmn
      subst hmeq
      rw [if_pos rfl, hid]
      exact hRn
    · rw [if_neg hmn, hR _ hmn]
      exact h.refcnt m hm
  held i hi := by
    rw [map_id_onNode hid]
    by_cases hin : i = n.id
    · subst hin; exact List.mem_map_of_mem hn
    · rw [hR i hin] at hi; exact h.held i hi
  shared s := by
    have hst := stackRefs_onNode hst h.nodup hn s
    have hsh := h.shared s
    by_cases hs : n.stack.id = s
    · subst hs
      rw [if_pos rfl, if_pos rfl] at hst
      omega
    · rw [if_neg hs, if_neg hs] at hst
      rw [hk s fun e => hs e.symm]
      omega
  unborn s hs := by
    rw [hnext] at hs
    have h0 := h.unborn s hs
    by_cases hsn : s = n.stack.id
    · -- the stack of a node has a reference, so it was born
      have hsh := h.shared s
      have hle := refcnt_le_stackRefs hn
      have hr := h.refcnt n hn
      rw [hsn] at hsh h0
      omega
    · rw [hk s hsn]; exact h0

theorem get {f : RbStack → RbStack} {n : RbStack} (h : Refs k ns R rest) (hn : n ∈ ns)
    (hid : ∀ n, (f n).id = n.id) (hst : ∀ n, (f n).stack = n.stack)
    (hf : (f n).refcnt = n.refcnt + 1) (hR : ∀ i, R' i = R i + if n.id = i then 1 else 0) :
    Refs (k.get n.stack.id) (ns.map (Client.onNode n.id f)) R' rest := by
  have hr := h.refcnt n hn
  refine h.onNode hn hid hst (fun i hi => ?_) ?_ rfl (fun s hs => ?_) ?_
  · rw [hR, if_neg fun e => hi e.symm, Nat.add_zero]
  · rw [hf, hr, hR, if_pos rfl, Nat.add_assoc]
  · rw [Stacks.refcnt_get, if_neg (Ne.symm hs), Nat.add_zero]
  · rw [Stacks.refcnt_get, if_pos rfl]
    omega

theorem put {f : RbStack → RbStack} {n : RbStack} (h : Refs k ns R rest) (hn : n ∈ ns)
    (hid : ∀ n, (f n).id = n.id) (hst : ∀ n, (f n).stack = n.stack)
    (hf : (f n).refcnt = n.refcnt - 1) (hR : ∀ i, R i = R' i + if n.id = i then 1 else 0) :
    Refs (k.put n.stack.id) (ns.map (Client.onNode n.id f)) R' rest := by
  have hr := h.refcnt n hn
  have hRn := hR n.id
  rw [if_pos rfl] at hRn
  refine h.onNode hn hid hst (fun i hi => ?_) ?_ rfl (fun s hs => ?_) ?_
  · rw [hR, if_neg fun e => hi e.symm, Nat.add_zero]
  · rw [hf, hr, hRn]; omega
  · rw [Stacks.refcnt_put, if_neg (Ne.symm hs), Nat.sub_zero]
  · -- the `struct stack` has at least the references of its node
    have hle := refcnt_le_stackRefs hn
    have hsh := h.shared n.stack.id
    rw [Stacks.refcnt_put, if_pos rfl]
    omega

/-- A change that leaves names, backtraces and counters alone. -/
theorem map {f : RbStack → RbStack} (h : Refs k ns R rest) (hid : ∀ n, (f n).id = n.id)
    (hst : ∀ n, (f n).stack = n.stack) (hr : ∀ n, (f n).refcnt = n.refcnt) :
    Refs k (ns.map f) R rest where
  nodup := by
    rw [List.map_map, show ((·.id) ∘ f) = fun n : RbStack => n.id from funext hid]
    exact h.nodup
  refcnt m hm := by
    obtain ⟨n, hn, rfl⟩ := List.mem_map.mp hm
    rw [hr, hid]
    exact h.refcnt n hn
  held i hi := by
    rw [List.map_map, show ((·.id) ∘ f) = fun n : RbStack => n.id from funext hid]
    exact h.held i hi
  shared s := by
    rw [h.shared]
    simp [stackRefs, Function.comp_def, hst, hr]
  unborn := h.unborn

/-- A node referenced by its table alone, added anywhere. -/
theorem insert {k' : Stacks} {n : RbStack} {as bs : List RbStack} (h : Refs k (as ++ bs) R rest)
    (hid : n.id ∉ (as ++ bs).map (·.id)) (hr : n.refcnt = 1)
    (hk : ∀ s, k'.refcnt s = k.refcnt s + if n.stack.id = s then 1 else 0)
    (hunborn : ∀ s, k'.next ≤ s → k'.refcnt s = 0) : Refs k' (as ++ n :: bs) R rest where
  nodup := by
    have hperm : ((as ++ n :: bs).map (·.id)).Perm (n.id :: (as ++ bs).map (·.id)) :=
      List.perm_middle.map RbStack.id
    exact hperm.nodup_iff.mpr (List.nodup_cons.mpr ⟨hid, h.nodup⟩)
  refcnt m hm := by
    rcases List.mem_cons.mp (List.perm_middle.mem_iff.mp hm) with rfl | hm
    · have hR : R m.id = 0 := by
        by_contra hne
        exact hid (h.held _ hne)
      rw [hr, hR]
    · exact h.refcnt m hm
  held i hi := by
    have := h.held i hi
    simp only [List.map_append, List.map_cons, List.mem_append, List.mem_cons] at this ⊢
    tauto
  shared s := by
    have := h.shared s
    rw [hk, this]
    simp only [stackRefs_append, stackRefs_cons, hr]
    omega
  unborn := hunborn

end Refs

/-! ## The record of a process -/

/-- The references blocks and pending `realloc` calls of a process hold on the node `i`. -/
def Process.refs (p : Process) (i : NodeId) : ℕ :=
  blockRefs p.blocks i + reallocRefs p.reallocList i

/-- The references of a process are accounted for, when dumps hold `ext` on its nodes and other
processes hold `rest` on the `struct stack`s. -/
structure Owned (k : Stacks) (p : Process) (ext : NodeId → ℕ) (rest : StackId → ℕ) : Prop where
  refs : Refs k p.nodes (fun i => p.refs i + ext i) rest
  fresh : ∀ n ∈ p.nodes, n.id < p.nextNode
  trees : p.stackTrees = p.nodes.length
  restorable : ∀ re ∈ p.reallocList, re.addr ≠ 0 → re.stackNode ≠ none

theorem mem_of_deref {p : Process} {i : NodeId} {n : RbStack} (h : p.deref i = .ok n) :
    n ∈ p.nodes ∧ n.id = i := by
  have hn := (Process.deref_eq_ok.mp h).1
  exact ⟨List.mem_of_find?_eq_some hn, by simpa using List.find?_some hn⟩

/-- A node is found under its own name. -/
theorem node?_of_mem {p : Process} (hnd : (p.nodes.map (·.id)).Nodup) {n : RbStack}
    (hn : n ∈ p.nodes) : p.node? n.id = some n := by
  rcases hf : p.node? n.id with _ | m
  · exact absurd (decide_eq_true rfl) (List.find?_eq_none.mp hf n hn)
  · have hm : m.id = n.id := by simpa using List.find?_some hf
    rw [List.inj_on_of_nodup_map hnd (List.mem_of_find?_eq_some hf) hn hm]

namespace Owned

variable {k : Stacks} {p : Process} {ext : NodeId → ℕ} {rest : StackId → ℕ}

/-- A node that is referenced can be accessed. -/
theorem deref (h : Owned k p ext rest) {i : NodeId} (hi : p.refs i + ext i ≠ 0) :
    ∃ n, p.deref i = .ok n := by
  obtain ⟨n, hn, rfl⟩ := List.mem_map.mp (h.refs.held i hi)
  refine ⟨n, Process.deref_eq_ok.mpr ⟨node?_of_mem h.refs.nodup hn, ?_⟩⟩
  have := h.refs.refcnt n hn
  omega

theorem deref_of_mem (h : Owned k p ext rest) {n : RbStack} (hn : n ∈ p.nodes) :
    p.deref n.id = .ok n := by
  refine Process.deref_eq_ok.mpr ⟨node?_of_mem h.refs.nodup hn, ?_⟩
  have := h.refs.refcnt n hn
  omega

theorem deref_block (h : Owned k p ext rest) {b : RbBlock} (hb : b ∈ p.blocks) :
    ∃ n, p.deref b.stackNode = .ok n := by
  refine h.deref ?_
  have := blockRefs_pos hb
  unfold Process.refs
  omega

theorem deref_realloc (h : Owned k p ext rest) {re : ReallocEntry} (hre : re ∈ p.reallocList)
    {i : NodeId} (hi : re.stackNode = some i) : ∃ n, p.deref i = .ok n := by
  refine h.deref ?_
  have := reallocRefs_pos hre hi
  unfold Process.refs
  omega

/-- Changes that touch neither names nor references. -/
theorem neutral {p' : Process} {f : RbStack → RbStack} (h : Owned k p ext rest)
    (hid : ∀ n, (f n).id = n.id) (hst : ∀ n, (f n).stack = n.stack)
    (hr : ∀ n, (f n).refcnt = n.refcnt) (hnodes : p'.nodes = p.nodes.map f)
    (hblocks : ∀ i, blockRefs p'.blocks i = blockRefs p.blocks i)
    (hre : p'.reallocList = p.reallocList) (htrees : p'.stackTrees = p.stackTrees)
    (hnext : p'.nextNode = p.nextNode) : Owned k p' ext rest where
  refs := by
    rw [hnodes]
    refine (h.refs.map hid hst hr).congr fun i => ?_
    rw [Process.refs, Process.refs, hblocks, hre]
  fresh m hm := by
    rw [hnodes] at hm
    obtain ⟨n, hn, rfl⟩ := List.mem_map.mp hm
    rw [hid, hnext]
    exact h.fresh n hn
  trees := by rw [htrees, hnodes, List.length_map]; exact h.trees
  restorable := by rw [hre]; exact h.restorable

/-- Changes of the fields that neither tables nor lists of the record depend on. -/
theorem of_eq {p' : Process} (h : Owned k p ext rest) (hst : p'.stackTable = p.stackTable)
    (hbl : p'.blockTable = p.blockTable) (hre : p'.reallocList = p.reallocList)
    (htrees : p'.stackTrees = p.stackTrees) (hnext : p'.nextNode = p.nextNode) :
    Owned k p' ext rest := by
  refine h.neutral (f := id) (fun _ => rfl) (fun _ => rfl) (fun _ => rfl) ?_ (fun i => ?_) hre
    htrees hnext
  · rw [Process.nodes, hst, List.map_id]
  · rw [Process.blocks, hbl]

/-- One more reference on the node `i`, held by a block, a `realloc` or a dump. -/
theorem get {p' : Process} {ext' : NodeId → ℕ} {f : RbStack → RbStack} {i : NodeId} {n : RbStack}
    (h : Owned k p ext rest) (hn : p.deref i = .ok n) (hid : ∀ n, (f n).id = n.id)
    (hst : ∀ n, (f n).stack = n.stack) (hf : (f n).refcnt = n.refcnt + 1)
    (hnodes : p'.nodes = p.nodes.map (onNode i f))
    (hrefs : ∀ j, p'.refs j + ext' j = p.refs j + ext j + if i = j then 1 else 0)
    (hre : ∀ re ∈ p'.reallocList, re.addr ≠ 0 → re.stackNode ≠ none)
    (htrees : p'.stackTrees = p.stackTrees) (hnext : p'.nextNode = p.nextNode) :
    Owned (k.get n.stack.id) p' ext' rest where
  refs := by
    obtain ⟨hmem, rfl⟩ := mem_of_deref hn
    rw [hnodes]
    exact h.refs.get hmem hid hst hf hrefs
  fresh m hm := by
    rw [hnodes] at hm
    obtain ⟨m', hm', rfl⟩ := List.mem_map.mp hm
    rw [onNode_id hid, hnext]
    exact h.fresh m' hm'
  trees := by rw [htrees, hnodes, List.length_map]; exact h.trees
  restorable := hre

/-- One reference less on the node `i`. -/
theorem put {p' : Process} {ext' : NodeId → ℕ} {f : RbStack → RbStack} {i : NodeId} {n : RbStack}
    (h : Owned k p ext rest) (hn : p.deref i = .ok n) (hid : ∀ n, (f n).id = n.id)
    (hst : ∀ n, (f n).stack = n.stack) (hf : (f n).refcnt = n.refcnt - 1)
    (hnodes : p'.nodes = p.nodes.map (onNode i f))
    (hrefs : ∀ j, p.refs j + ext j = p'.refs j + ext' j + if i = j then 1 else 0)
    (hre : ∀ re ∈ p'.reallocList, re.addr ≠ 0 → re.stackNode ≠ none)
    (htrees : p'.stackTrees = p.stackTrees) (hnext : p'.nextNode = p.nextNode) :
    Owned (k.put n.stack.id) p' ext' rest where
  refs := by
    obtain ⟨hmem, rfl⟩ := mem_of_deref hn
    rw [hnodes]
    exact h.refs.put hmem hid hst hf hrefs
  fresh m hm := by
    rw [hnodes] at hm
    obtain ⟨m', hm', rfl⟩ := List.mem_map.mp hm
    rw [onNode_id hid, hnext]
    exact h.fresh m' hm'
  trees := by rw [htrees, hnodes, List.length_map]; exact h.trees
  restorable := hre

end Owned

/-! ### The changes -/

theorem blocks_dropBlock (p : Process) (x : Loc RbBlock) :
    (p.dropBlock x).blocks = x.before ++ x.after := toList_erase x

theorem blocks_trimBlock (p : Process) (x : Loc RbBlock) (size : UInt64) :
    (p.trimBlock x size).blocks = x.before ++
      { x.val.unmarked with addr := x.val.addr + size, size := x.val.size - size } :: x.after :=
  toList_set x _

theorem blocks_markBlock (p : Process) (x : Loc RbBlock) :
    (p.markBlock x).blocks =
      x.before ++ { x.val with flags := x.val.flags ||| blockLeaked } :: x.after :=
  toList_set x _

theorem find_insertCut (t : RbRoot RbBlock) (addr : UInt64) : t.find (insertCut addr) = none :=
  find_none_of_ne fun v _ => by unfold insertCut; split <;> simp

/-- A new block splits the sequence at its place. -/
theorem blocks_addBlock (p : Process) (b : RbBlock) :
    ∃ as bs, p.blocks = as ++ bs ∧ (p.addBlock b).blocks = as ++ b :: bs :=
  ⟨_, _, toList_of_find_none (find_insertCut p.blockTable b.addr), toList_insertNew _ b⟩

theorem mem_addBlock {p : Process} {b b' : RbBlock} :
    b' ∈ (p.addBlock b).blocks ↔ b' = b ∨ b' ∈ p.blocks := by
  obtain ⟨as, bs, hp, hp'⟩ := blocks_addBlock p b
  rw [hp, hp']
  simp only [List.mem_append, List.mem_cons]
  tauto

theorem nodes_linkNode {p : Process} {n : RbStack}
    (h : p.stackTable.find (stackCut n.stack.addrs) = none) :
    ∃ as bs, p.nodes = as ++ bs ∧ (p.linkNode n).nodes = as ++ n :: bs :=
  ⟨_, _, toList_of_find_none h, toList_insertNew _ n⟩

namespace Owned

variable {k : Stacks} {p : Process} {ext : NodeId → ℕ} {rest : StackId → ℕ}

theorem dropBlock {x : Loc RbBlock} {n : RbStack} (h : Owned k p ext rest)
    (hx : p.blocks = x.before ++ x.val :: x.after) (hn : p.deref x.val.stackNode = .ok n) :
    Owned (k.put n.stack.id) (p.dropBlock x) ext rest := by
  refine h.put hn (f := (·.drop x.val)) (fun _ => rfl) (fun _ => rfl) rfl
    (Process.nodes_modifyNode ..) (fun j => ?_) h.restorable rfl rfl
  simp only [Process.refs, blocks_dropBlock, hx, blockRefs_append, blockRefs_cons]
  simp only [Process.dropBlock, Process.modifyNode]
  omega

theorem addBlock {b : RbBlock} {n : RbStack} (h : Owned k p ext rest)
    (hn : p.deref b.stackNode = .ok n) : Owned (k.get n.stack.id) (p.addBlock b) ext rest := by
  obtain ⟨as, bs, hp, hp'⟩ := blocks_addBlock p b
  refine h.get hn (f := (·.add b.size)) (fun _ => rfl) (fun _ => rfl) rfl
    (Process.nodes_modifyNode ..) (fun j => ?_) h.restorable rfl rfl
  simp only [Process.refs, hp, hp', blockRefs_append, blockRefs_cons]
  simp only [Process.addBlock, Process.modifyNode]
  omega

theorem trimBlock {x : Loc RbBlock} (h : Owned k p ext rest)
    (hx : p.blocks = x.before ++ x.val :: x.after) (size : UInt64) :
    Owned k (p.trimBlock x size) ext rest := by
  refine h.neutral (f := onNode x.val.stackNode (·.release x.val size.toUInt32)) ?_ ?_ ?_
    (Process.nodes_modifyNode ..) (fun i => ?_) rfl rfl rfl
  · exact onNode_id fun _ => rfl
  · intro n; unfold onNode; split <;> rfl
  · intro n; unfold onNode; split <;> rfl
  · rw [blocks_trimBlock, hx]
    simp [RbBlock.unmarked]

theorem markBlock {x : Loc RbBlock} (h : Owned k p ext rest)
    (hx : p.blocks = x.before ++ x.val :: x.after) : Owned k (p.markBlock x) ext rest := by
  refine h.neutral (f := onNode x.val.stackNode (·.mark x.val)) ?_ ?_ ?_
    (Process.nodes_modifyNode ..) (fun i => ?_) rfl rfl rfl
  · exact onNode_id fun _ => rfl
  · intro n; unfold onNode; split <;> rfl
  · intro n; unfold onNode; split <;> rfl
  · rw [blocks_markBlock, hx]
    simp

theorem modifyNode {i : NodeId} {f : RbStack → RbStack} (h : Owned k p ext rest)
    (hid : ∀ n, (f n).id = n.id) (hst : ∀ n, (f n).stack = n.stack)
    (hr : ∀ n, (f n).refcnt = n.refcnt) : Owned k (p.modifyNode i f) ext rest := by
  refine h.neutral (f := onNode i f) (onNode_id hid) ?_ ?_ (Process.nodes_modifyNode ..)
    (fun _ => rfl) rfl rfl rfl
  · intro n; unfold onNode; split <;> simp [hst]
  · intro n; unfold onNode; split <;> simp [hr]

theorem stampNode {i : NodeId} {f : RbStack → RbStack} (h : Owned k p ext rest)
    (hid : ∀ n, (f n).id = n.id) (hst : ∀ n, (f n).stack = n.stack)
    (hr : ∀ n, (f n).refcnt = n.refcnt) : Owned k (p.stampNode i f) ext rest :=
  (h.modifyNode (i := i) (f := fun n => { f n with tsc := p.tsc }) hid hst hr).of_eq rfl rfl rfl
    rfl rfl

theorem charge (h : Owned k p ext rest) (i : NodeId) (size : UInt64) :
    Owned k (p.charge i size) ext rest :=
  Owned.stampNode (h.of_eq rfl rfl rfl rfl rfl) (fun _ => rfl) (fun _ => rfl) fun _ => rfl

theorem refcnt_new_get {ns : List RbStack} {R : NodeId → ℕ} (h : Refs k ns R rest) (s : StackId) :
    (k.new.get k.next).refcnt s = k.refcnt s + if k.next = s then 1 else 0 := by
  rw [Stacks.refcnt_get]
  by_cases hs : k.next = s
  · subst hs
    simp [Stacks.new, h.unborn k.next (Nat.le_refl _)]
  · simp [Stacks.new, hs, Function.update_of_ne (Ne.symm hs)]

theorem unborn_new_get {ns : List RbStack} {R : NodeId → ℕ} (h : Refs k ns R rest) (s : StackId)
    (hs : (k.new.get k.next).next ≤ s) : (k.new.get k.next).refcnt s = 0 := by
  have hlt : k.next < s := hs
  rw [refcnt_new_get h, h.unborn s (Nat.le_of_lt hlt), if_neg (Nat.ne_of_lt hlt)]

/-- A node linked with the next free name. -/
theorem linkNode {k' : Stacks} {n : RbStack} (h : Owned k p ext rest)
    (hf : p.stackTable.find (stackCut n.stack.addrs) = none) (hid : n.id = p.nextNode)
    (hr : n.refcnt = 1) (hk : ∀ s, k'.refcnt s = k.refcnt s + if n.stack.id = s then 1 else 0)
    (hunborn : ∀ s, k'.next ≤ s → k'.refcnt s = 0) : Owned k' (p.linkNode n) ext rest := by
  obtain ⟨as, bs, hp, hp'⟩ := nodes_linkNode hf
  have hnew : n.id ∉ (as ++ bs).map (·.id) := by
    rw [← hp, hid]
    intro hmem
    obtain ⟨m, hm, hmid⟩ := List.mem_map.mp hmem
    exact Nat.lt_irrefl _ (hmid ▸ h.fresh m hm)
  refine ⟨?_, fun m hm => ?_, ?_, h.restorable⟩
  · rw [hp']
    exact Refs.insert (hp ▸ h.refs) hnew hr hk hunborn
  · rw [hp'] at hm
    show m.id < p.nextNode + 1
    rcases List.mem_cons.mp (List.perm_middle.mem_iff.mp hm) with rfl | hm
    · exact hid ▸ Nat.lt_succ_self _
    · exact Nat.lt_succ_of_lt (h.fresh m (hp ▸ hm))
  · rw [hp', List.perm_middle.length_eq, List.length_cons, ← hp, ← h.trees]
    rfl

/-- A change of the pending `realloc` calls that moves no reference. -/
theorem withReallocs {res : List ReallocEntry} (h : Owned k p ext rest)
    (hrefs : ∀ i, reallocRefs res i = reallocRefs p.reallocList i)
    (hre : ∀ re ∈ res, re.addr ≠ 0 → re.stackNode ≠ none) :
    Owned k { p with reallocList := res } ext rest where
  refs := h.refs.congr fun i => by
    show blockRefs p.blocks i + reallocRefs res i + ext i = p.refs i + ext i
    rw [hrefs, Process.refs]
  fresh := h.fresh
  trees := h.trees
  restorable := hre

/-- Every change of a handler keeps the references accounted for. -/
theorem changed {l : Change} {s s' : Stacks × Process} (h : Owned s.1 s.2 ext rest)
    (hc : Changed l s s') : Owned s'.1 s'.2 ext rest := by
  cases hc with
  | alloc hs hn => exact (h.addBlock hn).charge _ _
  | restore hn => exact h.addBlock hn
  | drop hx hn => exact h.dropBlock (Process.blocks_of_tree hx) hn
  | trim hx hn size => exact h.trimBlock (Process.blocks_of_tree hx) size
  | mark hx hn hl => exact h.markBlock (Process.blocks_of_tree hx)
  | link hf op ignore => exact h.linkNode hf rfl rfl (refcnt_new_get h.refs) (unborn_new_get h.refs)
  | stamp i a b => exact h.stampNode (fun _ => rfl) (fun _ => rfl) fun _ => rfl
  | @hold k p re i n hi hn =>
    refine h.get hn (f := fun n => { n with refcnt := n.refcnt + 1 }) (fun _ => rfl)
      (fun _ => rfl) rfl (Process.nodes_modifyNode ..) (fun j => ?_) (fun re' hre' => ?_) rfl rfl
    · show blockRefs p.blocks j + reallocRefs (p.reallocList ++ [re]) j + ext j = _
      simp only [reallocRefs_append, reallocRefs_cons, reallocRefs_nil, hi, Option.some.injEq,
        Process.refs]
      omega
    · rcases List.mem_append.mp hre' with hre' | hre'
      · exact h.restorable re' hre'
      · rw [List.mem_singleton.mp hre', hi]
        exact fun _ => Option.some_ne_none i
  | await pid =>
    refine h.withReallocs (fun i => ?_) fun re hre => ?_
    · simp
    · rcases List.mem_append.mp hre with hre | hre
      · exact h.restorable re hre
      · rw [List.mem_singleton.mp hre]
        exact fun h0 => absurd rfl h0
  | @release k p before after re i n hp hi hn =>
    refine h.put hn (f := fun n => { n with refcnt := n.refcnt - 1 }) (fun _ => rfl)
      (fun _ => rfl) rfl (Process.nodes_modifyNode ..) (fun j => ?_) (fun re' hre' => ?_) rfl rfl
    · show p.refs j + ext j =
        blockRefs p.blocks j + reallocRefs (before ++ after) j + ext j + _
      simp only [Process.refs, hp, reallocRefs_append, reallocRefs_cons, hi, Option.some.injEq]
      omega
    · exact h.restorable re' (hp ▸ by simp only [List.mem_append, List.mem_cons] at hre' ⊢; tauto)
  | @forget k p before after re hp hi =>
    refine h.withReallocs (fun i => ?_) fun re' hre' => ?_
    · simp [hp, hi]
    · exact h.restorable re' (hp ▸ by simp only [List.mem_append, List.mem_cons] at hre' ⊢; tauto)

/-- A chain keeps the references accounted for. -/
theorem chain {C : Change → Prop} {s s' : Stacks × Process} (hc : Chain C s s')
    (h : Owned s.1 s.2 ext rest) : Owned s'.1 s'.2 ext rest :=
  hc.invariant (P := fun s => Owned s.1 s.2 ext rest) (fun _ _ _ _ h hc => h.changed hc) h

end Owned

/-! ## Faults -/

section Faults

variable {o : Options} {env : Env} {k : Stacks} {p : Process} {ext : NodeId → ℕ}
  {rest : StackId → ℕ}

/-- The node `stack_add` returns can be accessed. -/
theorem Owned.deref_stackAdd {addrs : List UInt8} {op : MtOperation} {k' : Stacks} {p' : Process}
    {i : NodeId} (h : Owned k p ext rest) (hadd : stackAdd env k p addrs op = .ok (k', p', i)) :
    ∃ n, p'.deref i = .ok n := by
  have h' := h.chain (stackAdd_chain (C := fun _ => True) trivial hadd).1
  rcases stackAdd_cases hadd with ⟨x, hf, hr⟩ | ⟨hf, ignore, hr⟩
  · cases hr
    exact ⟨x.val, h.deref_of_mem (mem_of_find hf)⟩
  · cases hr
    obtain ⟨as, bs, -, hp'⟩ := nodes_linkNode (n := .fresh k p addrs op ignore) hf
    exact ⟨_, h'.deref_of_mem (hp' ▸ List.mem_append_right as (List.mem_cons_self ..))⟩

theorem processRbDeleteBlock_ok {x : Loc RbBlock} {n : RbStack}
    (hn : p.deref x.val.stackNode = .ok n) :
    processRbDeleteBlock k p x = .ok (k.put n.stack.id, p.dropBlock x) :=
  processRbDeleteBlock_eq_ok.mpr ⟨n, hn, rfl⟩

/-- The fault of a check that is made under the option `--kill`. -/
def Killed (o : Options) (f : Fault) : Prop := f = .kill ∧ o.kill = true

theorem Killed.external {f : Fault} (h : Killed o f) : f.external := by
  rw [h.1]
  trivial

theorem processRbInsertBlock_ends {addr size flags : UInt64} {i : NodeId} {n : RbStack}
    (hn : p.deref i = .ok n) :
    Ends (Killed o) (fun _ => True) (processRbInsertBlock o k p addr size i flags) := by
  by_cases hk : (o.kill &&
      (p.blockTable.gap (insertCut addr)).entries.any (startsIn addr size)) = true
  · rw [processRbInsertBlock, if_pos hk]
    exact ⟨rfl, (Bool.and_eq_true_iff.mp hk).1⟩
  · rw [processRbInsertBlock_eq_ok.mpr ⟨Bool.not_eq_true _ ▸ hk, n, hn, rfl⟩]; trivial

theorem Owned.evictLoop_ends {ptr size : UInt64} (fuel : ℕ) (h : Owned k p ext rest) :
    Ends (Killed o) (fun _ => True) (evictLoop o ptr size fuel k p) := by
  induction fuel generalizing k p with
  | zero => trivial
  | succ fuel ih =>
    unfold evictLoop
    rcases hs : processRbSearchRange p.blockTable ptr size with _ | x
    · trivial
    · dsimp only
      split
      next hk => exact ⟨rfl, hk⟩
      · obtain ⟨n, hn⟩ := h.deref_block (mem_of_find hs)
        rw [processRbDeleteBlock_ok hn]
        exact ih (h.dropBlock (toList_of_find hs) hn)

/-- `process_alloc` fails in `stack_add` or not at all. -/
theorem Owned.processAlloc_ends {op : MtOperation} {m : MtAllocPayload} (h : Owned k p ext rest) :
    Ends (fun f => Killed o f ∨ ∃ k1 p1,
        evictLoop o m.ptr m.size p.blockTable.size k p = .ok (k1, p1) ∧
          stackAdd env k1 p1 m.data op = .error f)
      (fun _ => True) (processAlloc o env k p op m) := by
  let E (f : Fault) : Prop := Killed o f ∨ ∃ k1 p1,
    evictLoop o m.ptr m.size p.blockTable.size k p = .ok (k1, p1) ∧
      stackAdd env k1 p1 m.data op = .error f
  unfold processAlloc
  split
  · trivial
  have hev : Ends E (fun _ => True) (evictLoop o m.ptr m.size p.blockTable.size k p) :=
    (h.evictLoop_ends _).mono (fun _ => .inl) fun _ _ => id
  refine hev.bind fun ⟨k1, p1⟩ h1 _ => ?_
  have ho1 := h.chain (evictLoop_chain (C := fun _ => True) (fun _ _ _ => trivial) h1)
  have hadd : Ends E (fun _ => True) (stackAdd env k1 p1 m.data op) :=
    (Ends.self _).mono (fun _ hf => .inr ⟨k1, p1, h1, hf⟩) fun _ _ _ => trivial
  refine hadd.bind fun ⟨k2, p2, i⟩ h2 _ => ?_
  obtain ⟨n, hn⟩ := Owned.deref_stackAdd ho1 h2
  have hins : Ends E (fun _ => True) (processRbInsertBlock o k2 p2 m.ptr m.size i 0) :=
    (processRbInsertBlock_ends hn).mono (fun _ => .inl) fun _ _ => id
  exact hins.bind fun _ _ _ => trivial

theorem enterRealloc_ends {E : Fault → Prop} {op : MtOperation} {re : ReallocEntry}
    (hre : ∀ i, re.stackNode = some i → ∃ n, p.deref i = .ok n) :
    Ends E (fun _ => True) (enterRealloc k p op re) := by
  unfold enterRealloc
  split
  · unfold reallocAdd
    rcases hi : re.stackNode with _ | i
    · trivial
    · obtain ⟨n, hn⟩ := hre i hi
      dsimp only
      rw [stackGet_eq_ok.mpr ⟨n, hn, rfl⟩]
      trivial
  · trivial

/-- The end of `process_free` for a block has no way to fail. -/
theorem Owned.releaseBlock_ends {op : MtOperation} {x : Loc RbBlock} {re : ReallocEntry}
    (h : Owned k p ext rest) (hx : x.val ∈ p.blocks) (hre : re.stackNode = some x.val.stackNode) :
    Ends (fun _ => False) (fun _ => True)
      (enterRealloc k p op re >>= fun r => processRbDeleteBlock r.1 r.2 x) := by
  refine (enterRealloc_ends fun i hi => ?_).bind fun r hr _ => ?_
  · cases hre.symm.trans hi
    exact h.deref_block hx
  · obtain ⟨hch, hbl⟩ := enterRealloc_chain (C := fun _ => True) trivial
      (fun hno => by rw [hre] at hno; cases hno) hr
    have hmem : x.val ∈ r.2.blocks := by rw [Process.blocks, hbl]; exact hx
    obtain ⟨n, hn⟩ := (h.chain hch).deref_block hmem
    rw [processRbDeleteBlock_ok hn]
    trivial

theorem noteStack_ends {data : List UInt8} {op : MtOperation} {f : RbStack → RbStack} :
    Ends (fun e => Killed o e ∨ stackAdd env k p data op = .error e) (fun _ => True)
      (noteStack env k p data op f) := by
  have hadd : Ends (fun e => Killed o e ∨ stackAdd env k p data op = .error e) (fun _ => True)
      (stackAdd env k p data op) := (Ends.self _).mono (fun _ => .inr) fun _ _ _ => trivial
  exact hadd.bind fun _ _ _ => trivial

/-- `process_free` fails in `stack_add` or not at all. -/
theorem Owned.processFree_ends {op : MtOperation} {m : MtAllocPayload} (h : Owned k p ext rest) :
    Ends (fun f => Killed o f ∨ stackAdd env k p m.data op = .error f) (fun _ => True)
      (processFree o env k p op m) := by
  unfold processFree
  split
  · trivial
  split
  · trivial
  rcases hs : processRbSearch p.blockTable m.ptr with _ | x
  · refine Ends.bind (Q := fun _ => True) ?_ fun r1 h1 _ => ?_
    · unfold noteBadfree
      split
      · trivial
      split
      next hk => exact .inl ⟨rfl, hk⟩
      split
      · trivial
      exact noteStack_ends
    · exact enterRealloc_ends fun i hi => by cases hi
  · obtain ⟨n, hn⟩ := h.deref_block (mem_of_find hs)
    dsimp only
    rw [hn]
    show Ends _ _ (if _ then _ else _)
    split
    next hk => exact .inl ⟨rfl, (Bool.and_eq_true_iff.mp hk).2⟩
    refine Ends.bind (Q := fun _ => True) ?_ fun r1 h1 _ => ?_
    · unfold noteMismatch
      split
      · exact noteStack_ends
      · trivial
    · -- the block is still in the table, so its node can be accessed
      obtain ⟨hch, hbl, -⟩ := (noted_of_noteMismatch h1).chain (C := fun _ => True) trivial
      have hmem1 : x.val ∈ r1.2.blocks := by rw [Process.blocks, hbl]; exact mem_of_find hs
      exact ((h.chain hch).releaseBlock_ends hmem1 rfl).mono (fun _ hf => hf.elim) fun _ _ => id

theorem Owned.processReallocDone_ends {m : MtAllocPayload} (h : Owned k p ext rest) :
    Ends (Killed o) (fun _ => True) (processReallocDone o k p m) := by
  unfold processReallocDone
  split
  · trivial
  rcases hf : findRealloc m.size.toUInt32 p.reallocList with _ | ⟨before, re, after⟩
  · dsimp only
    split
    next hk => exact ⟨rfl, hk⟩
    · trivial
  have hlist := (findRealloc_eq_some hf).1
  have hre : re ∈ p.reallocList := by rw [hlist]; simp
  have hrest : Ends (Killed o) (fun r => ∃ k' p', r = (k', p') ∧
      (∀ i, re.stackNode = some i → ∃ n, p'.deref i = .ok n)) (restoreBlock o k p m.ptr re) := by
    unfold restoreBlock
    split
    next hc =>
      have haddr : re.addr ≠ 0 := by simpa using (Bool.and_eq_true_iff.mp hc).2
      rcases hi : re.stackNode with _ | i
      · exact absurd hi (h.restorable re hre haddr)
      · obtain ⟨n, hn⟩ := h.deref_realloc hre hi
        refine (processRbInsertBlock_ends (o := o) (k := k) hn).mono (fun _ he => he)
          fun r hr _ => ?_
        obtain ⟨-, n', hn', rfl⟩ := processRbInsertBlock_eq_ok.mp hr
        refine ⟨_, _, rfl, fun j hj => ?_⟩
        exact (h.addBlock (b := re.block i) hn').deref_realloc hre (hi.trans hj)
    · exact ⟨k, p, rfl, fun i hi => h.deref_realloc hre hi⟩
  refine hrest.bind fun r1 _ hr1 => ?_
  obtain ⟨k', p', rfl, hd⟩ := hr1
  dsimp only
  unfold reallocDel
  rcases hi : re.stackNode with _ | i
  · trivial
  · obtain ⟨n, hn⟩ := hd i hi
    dsimp only
    rw [stackPut_eq_ok.mpr ⟨n, hn, rfl⟩]
    trivial

theorem Owned.munmapLoop_ends (fuel : ℕ) (h : Owned k p ext rest) (ptr size : UInt64) :
    Ends (Killed o) (fun _ => True) (munmapLoop o fuel k p ptr size) := by
  induction fuel generalizing k p ptr size with
  | zero => trivial
  | succ fuel ih =>
    unfold munmapLoop
    rcases hs : processRbSearchRange p.blockTable ptr size with _ | x
    · trivial
    obtain ⟨n, hn⟩ := h.deref_block (mem_of_find hs)
    dsimp only
    rw [hn]
    show Ends _ _ (if _ then _ else if _ then _ else _)
    rw [if_pos (le_addr_of_searchRange hs)]
    split
    · split
      next hk => exact ⟨rfl, hk⟩
      · trivial
    split
    · trivial
    rw [processRbDeleteBlock_ok hn]
    show Ends _ _ (if _ then _ else _)
    split
    · trivial
    · exact ih (h.dropBlock (toList_of_find hs) hn) _ _

theorem Owned.processMunmap_ends {m : MtAllocPayload} (h : Owned k p ext rest) :
    Ends (Killed o) (fun _ => True) (processMunmap o k p m) := by
  unfold processMunmap
  split
  · trivial
  · exact h.munmapLoop_ends _ _ _

/-- `process_scan` has no way to fail. -/
theorem Owned.scanBlocks_ends (leaks : List UInt64) (h : Owned k p ext rest) :
    Ends (fun _ => False) (fun _ => True) (scanBlocks leaks p) := by
  induction leaks generalizing p with
  | nil => trivial
  | cons a as ih =>
    unfold scanBlocks
    rcases hs : processRbSearch p.blockTable a with _ | x
    · exact ih h
    dsimp only
    split
    · exact ih h
    · obtain ⟨n, hn⟩ := h.deref_block (mem_of_find hs)
      rw [hn]
      exact ih (h.markBlock (toList_of_find hs))

end Faults

end Mtrace.Client
