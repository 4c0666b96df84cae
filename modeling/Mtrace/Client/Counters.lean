import Mathlib.Tactic.Abel
import Mtrace.Client.Steps

/-!
# The statistics of a record

A record keeps eight counters about its blocks: the number, the size, the number of leaked ones and
their size, once for the process and once for every stack node.  `Exact l q p` says that the counter
of kind `q` at level `l` of `p` is what the blocks add up to, modulo `2 ^ 64`.  The changes of
`Changed` are checked for all counters at once; `Keeps l q` names the changes that keep a counter
exact, and what it leaves out are the slips of the source: a size cut to 32 bits, a block restored
without its bytes or its leak.
-/

namespace Mtrace.Client

open RbTree Machine

/-! ## Counters and what they count -/

/-- What is counted. -/
inductive Kind where
  | allocations
  | bytes
  | leaks
  | leakedBytes
  deriving DecidableEq, Repr

/-- Whose blocks are counted. -/
inductive Level where
  | process
  | node (i : NodeId)
  deriving DecidableEq, Repr

/-- What a block adds to a counter. -/
def Kind.weight (b : RbBlock) : Kind → UInt64
  | .allocations => 1
  | .bytes => b.size
  | .leaks => if b.leaked then 1 else 0
  | .leakedBytes => if b.leaked then b.size else 0

/-- Whether the blocks of the node `i` are counted. -/
def Level.covers (i : NodeId) : Level → Bool
  | .process => true
  | .node j => i == j

/-- What the blocks add up to. -/
def total (l : Level) (q : Kind) (bs : List RbBlock) : UInt64 :=
  (bs.map fun b => if l.covers b.stackNode then q.weight b else 0).sum

def RbStack.counter (n : RbStack) : Kind → UInt64
  | .allocations => n.nAllocations
  | .bytes => n.bytesUsed
  | .leaks => n.leaks
  | .leakedBytes => n.bytesLeaked

def Process.counter (p : Process) : Level → Kind → UInt64
  | .process, .allocations => p.nAllocations
  | .process, .bytes => p.bytesUsed
  | .process, .leaks => p.leaks
  | .process, .leakedBytes => p.leakedBytes
  | .node i, q => (p.node? i).elim 0 (·.counter q)

/-- A counter says what the blocks add up to. -/
def Exact (l : Level) (q : Kind) (p : Process) : Prop := p.counter l q = total l q p.blocks

@[simp] theorem total_nil (l : Level) (q : Kind) : total l q [] = 0 := rfl

@[simp] theorem total_cons (l : Level) (q : Kind) (b : RbBlock) (bs : List RbBlock) :
    total l q (b :: bs) = (if l.covers b.stackNode then q.weight b else 0) + total l q bs := rfl

@[simp] theorem total_append (l : Level) (q : Kind) (bs bs' : List RbBlock) :
    total l q (bs ++ bs') = total l q bs + total l q bs' := by
  simp [total]

theorem total_eq_zero {l : Level} {q : Kind} {bs : List RbBlock}
    (h : ∀ b ∈ bs, l.covers b.stackNode = true → q.weight b = 0) : total l q bs = 0 := by
  induction bs with
  | nil => rfl
  | cons b bs ih =>
    rw [total_cons, ih fun b' hb' => h b' (List.mem_cons_of_mem _ hb'), add_zero]
    split
    next hc => exact h b (List.mem_cons_self ..) hc
    next => rfl

theorem total_map {l : Level} {q : Kind} {bs : List RbBlock} {f : RbBlock → RbBlock}
    (hn : ∀ b, (f b).stackNode = b.stackNode) (hw : ∀ b, q.weight (f b) = q.weight b) :
    total l q (bs.map f) = total l q bs := by
  simp [total, Function.comp_def, hn, hw]

/-- The number of blocks of a node is what its references count. -/
theorem total_node_allocations (i : NodeId) (bs : List RbBlock) :
    total (.node i) .allocations bs = UInt64.ofNat (blockRefs bs i) := by
  induction bs with
  | nil => rfl
  | cons b bs ih =>
    rw [total_cons, ih, blockRefs_cons, UInt64.ofNat_add, add_comm]
    by_cases hb : b.stackNode = i
    · simp [Level.covers, Kind.weight, hb]
    · simp [Level.covers, hb]

theorem total_process_bytes (bs : List RbBlock) :
    total .process .bytes bs = (bs.map (·.size)).sum := by
  simp [total, Level.covers, Kind.weight]

/-! ## How a change moves the counters -/

section Moves

variable {p p' : Process} {l : Level} {q : Kind} {i : NodeId}

/-- A write to one node and to the counters of the process moves the counters that cover it. -/
theorem counter_modify (p' : Process) {f : RbStack → RbStack}
    {d : Level → Kind → UInt64} {n : RbStack}
    (hn : p.node? i = some n) (hid : ∀ n, (f n).id = n.id)
    (hnodes : p'.nodes = p.nodes.map (onNode i f))
    (hproc : ∀ q, p'.counter .process q = p.counter .process q + d .process q)
    (hf : ∀ n j q, (f n).counter q = n.counter q + d (.node j) q) (l : Level) (q : Kind) :
    p'.counter l q = p.counter l q + if l.covers i then d l q else 0 := by
  cases l with
  | process => exact hproc q
  | node j =>
    have hnode : p'.node? j = if j = i then (p.node? i).map f else p.node? j := by
      rw [← Process.node?_modifyNode p i j hid]
      unfold Process.node?
      rw [hnodes, Process.nodes_modifyNode]
      rfl
    show (p'.node? j).elim 0 _ = _
    rw [hnode]
    by_cases hj : j = i
    · subst hj
      simp [Process.counter, hn, Level.covers, hf n j q]
    · simp [hj, Process.counter, Level.covers, Ne.symm hj]

theorem Exact.shift {d : UInt64} (h : Exact l q p) (hc : p'.counter l q = p.counter l q + d)
    (ht : total l q p'.blocks = total l q p.blocks + d) : Exact l q p' := by
  rw [Exact, hc, ht, h]

theorem node?_of_map {f : RbStack → RbStack} (hnodes : p'.nodes = p.nodes.map f)
    (hid : ∀ n, (f n).id = n.id) (j : NodeId) : p'.node? j = (p.node? j).map f := by
  unfold Process.node?
  rw [hnodes, List.find?_map]
  congr 2
  funext n
  simp only [Function.comp, hid]

/-- Writes that leave the counters of the nodes alone. -/
theorem counter_node_of_map {f : RbStack → RbStack} (hnodes : p'.nodes = p.nodes.map f)
    (hid : ∀ n, (f n).id = n.id) (hf : ∀ n q, (f n).counter q = n.counter q) (j : NodeId)
    (q : Kind) : p'.counter (.node j) q = p.counter (.node j) q := by
  show (p'.node? j).elim 0 _ = (p.node? j).elim 0 _
  rw [node?_of_map hnodes hid]
  rcases p.node? j with _ | n
  · rfl
  · exact hf n q

theorem counter_of_sameLedger (h : SameLedger p p') (l : Level) (q : Kind) :
    p'.counter l q = p.counter l q := by
  obtain ⟨c, hc⟩ := h.nodes
  cases l with
  | process =>
    cases q with
    | allocations => exact h.nAllocations
    | bytes => exact h.bytesUsed
    | leaks => exact h.leaks
    | leakedBytes => exact h.leakedBytes
  | node j => exact counter_node_of_map hc (fun _ => rfl) (fun n q => by cases q <;> rfl) j q

theorem Exact.sameLedger (h : Exact l q p) (hs : SameLedger p p') : Exact l q p' := by
  rw [Exact, counter_of_sameLedger hs, Process.blocks, hs.blockTable]
  exact h

theorem counter_stampNode (p : Process) (i : NodeId) {f : RbStack → RbStack}
    (hid : ∀ n, (f n).id = n.id) (hf : ∀ n q, (f n).counter q = n.counter q) (l : Level)
    (q : Kind) : (p.stampNode i f).counter l q = p.counter l q := by
  cases l with
  | process => cases q <;> rfl
  | node j =>
    refine counter_node_of_map (f := onNode i fun n => { f n with tsc := p.tsc })
      (Process.nodes_modifyNode ..) (onNode_id hid) (fun n q => ?_) j q
    have hstamp : ({ f n with tsc := p.tsc } : RbStack).counter q = (f n).counter q := by
      cases q <;> rfl
    unfold onNode
    split
    · exact hstamp.trans (hf n q)
    · rfl

/-- The counters of a node linked under a new name start where it has them. -/
theorem counter_linkNode {n : RbStack} (hf : p.stackTable.find (stackCut n.stack.addrs) = none)
    (hfresh : ∀ m ∈ p.nodes, m.id ≠ n.id) (hz : l ≠ .process → n.counter q = 0) :
    (p.linkNode n).counter l q = p.counter l q := by
  cases l with
  | process => cases q <;> rfl
  | node j =>
    have hz := hz (by simp)
    obtain ⟨as, bs, hp, hp'⟩ := nodes_linkNode hf
    show ((p.linkNode n).node? j).elim 0 _ = (p.node? j).elim 0 _
    unfold Process.node?
    rw [hp, hp', List.find?_append, List.find?_append, List.find?_cons]
    by_cases hj : n.id = j
    · -- no older node has this name
      have hnone : ∀ ns : List RbStack, (∀ m ∈ ns, m ∈ p.nodes) →
          ns.find? (fun m => decide (m.id = j)) = none := fun ns hns =>
        List.find?_eq_none.mpr fun m hm => by simpa [hj] using hfresh m (hns m hm)
      rw [hnone as fun m hm => hp ▸ List.mem_append_left _ hm,
        hnone bs fun m hm => hp ▸ List.mem_append_right _ hm]
      simpa [hj] using hz
    · simp [hj]

/-! ### The changes -/

/-- What the counters lose when `size` bytes of the block `b` are released. -/
def released (b : RbBlock) (size : UInt32) : Kind → UInt64
  | .allocations => 0
  | .bytes => size.toUInt64
  | .leaks => Kind.weight b .leaks
  | .leakedBytes => Kind.weight b .leakedBytes

theorem ite_add_neg (c : Bool) (a x : UInt64) :
    (if c then a + -x else a) = a + -(if c then x else 0) := by
  cases c <;> simp

theorem counter_dropBlock {x : Loc RbBlock} {n : RbStack} (hn : p.node? x.val.stackNode = some n)
    (l : Level) (q : Kind) :
    (p.dropBlock x).counter l q = p.counter l q + if l.covers x.val.stackNode then
      -(released x.val x.val.size.toUInt32 q + if q = .allocations then 1 else 0) else 0 := by
  refine counter_modify (p.dropBlock x) (f := (·.drop x.val)) (d := fun _ q =>
    -(released x.val x.val.size.toUInt32 q + if q = .allocations then 1 else 0)) hn (fun _ => rfl)
    (Process.nodes_modifyNode ..) (fun q => ?_) (fun n _ q => ?_) l q
  · cases q <;> simp [Process.counter, Process.dropBlock, released, Kind.weight, ite_add_neg,
      sub_eq_add_neg]
  · cases q <;> simp [RbStack.counter, RbStack.drop, RbStack.release, released, Kind.weight,
      ite_add_neg, sub_eq_add_neg]

theorem counter_trimBlock {x : Loc RbBlock} {n : RbStack} (hn : p.node? x.val.stackNode = some n)
    (size : UInt64) (l : Level) (q : Kind) :
    (p.trimBlock x size).counter l q = p.counter l q +
      if l.covers x.val.stackNode then -released x.val size.toUInt32 q else 0 := by
  refine counter_modify (p.trimBlock x size) (f := (·.release x.val size.toUInt32))
    (d := fun _ q => -released x.val size.toUInt32 q) hn (fun _ => rfl)
    (Process.nodes_modifyNode ..) (fun q => ?_) (fun n _ q => ?_) l q
  · cases q <;> simp [Process.counter, Process.trimBlock, Process.release, Process.modifyNode,
      released, Kind.weight, ite_add_neg, sub_eq_add_neg]
  · cases q <;> simp [RbStack.counter, RbStack.release, released, Kind.weight, ite_add_neg,
      sub_eq_add_neg]

/-- What the counters gain when the block `b` is found leaked. -/
def marked (b : RbBlock) : Kind → UInt64
  | .allocations => 0
  | .bytes => 0
  | .leaks => 1
  | .leakedBytes => b.size

theorem counter_markBlock {x : Loc RbBlock} {n : RbStack} (hn : p.node? x.val.stackNode = some n)
    (l : Level) (q : Kind) :
    (p.markBlock x).counter l q =
      p.counter l q + if l.covers x.val.stackNode then marked x.val q else 0 := by
  refine counter_modify (p.markBlock x) (f := (·.mark x.val)) (d := fun _ => marked x.val)
    hn (fun _ => rfl) (Process.nodes_modifyNode ..) (fun q => ?_) (fun n _ q => ?_) l q
  · cases q <;> simp [Process.counter, Process.markBlock, Process.modifyNode, marked]
  · cases q <;> simp [RbStack.counter, RbStack.mark, marked]

/-- What the counters gain when `process_rb_insert_block` inserts a block: the bytes of the process
are left to the caller, the leaks are left out. -/
def inserted (size : UInt64) : Level → Kind → UInt64
  | _, .allocations => 1
  | .process, .bytes => 0
  | .node _, .bytes => size
  | _, .leaks => 0
  | _, .leakedBytes => 0

theorem counter_addBlock {b : RbBlock} {n : RbStack} (hn : p.node? b.stackNode = some n)
    (l : Level) (q : Kind) :
    (p.addBlock b).counter l q =
      p.counter l q + if l.covers b.stackNode then inserted b.size l q else 0 := by
  refine counter_modify (p.addBlock b) (f := (·.add b.size)) (d := inserted b.size) hn
    (fun _ => rfl) (Process.nodes_modifyNode ..) (fun q => ?_) (fun n _ q => ?_) l q
  · cases q <;> simp [Process.counter, Process.addBlock, Process.modifyNode, inserted]
  · cases q <;> simp [RbStack.counter, RbStack.add, inserted]

theorem total_addBlock (p : Process) (b : RbBlock) (l : Level) (q : Kind) :
    total l q (p.addBlock b).blocks =
      total l q p.blocks + if l.covers b.stackNode then q.weight b else 0 := by
  obtain ⟨as, bs, hp, hp'⟩ := blocks_addBlock p b
  rw [hp, hp', total_append, total_append, total_cons]
  abel

theorem total_of_loc {x : Loc RbBlock} (hx : x.tree = p.blockTable) (l : Level) (q : Kind) :
    total l q p.blocks = total l q x.before + total l q x.after +
      if l.covers x.val.stackNode then q.weight x.val else 0 := by
  rw [Process.blocks_of_tree hx, total_append, total_cons]
  abel

/-- The changes that keep the counter of kind `q` at level `l` exact. -/
def Keeps (l : Level) (q : Kind) : Change → Prop
  | .drop b => q = .bytes → b.size < 0x100000000
  | .trim _ size => q = .bytes → size < 0x100000000
  | .restore b => (q = .bytes → l = .process → b.size = 0) ∧
      (q = .leaks ∨ q = .leakedBytes → b.leaked = false)
  | .alloc _ | .mark _ | .silent => True

/-- A size below `2 ^ 32` survives the `unsigned int` parameter of `process_release_mem`. -/
theorem toUInt64_toUInt32 {size : UInt64} (h : size < 0x100000000) :
    size.toUInt32.toUInt64 = size := by
  rw [UInt64.lt_iff_toNat_lt] at h
  rw [← UInt64.toNat_inj, UInt32.toNat_toUInt64, UInt64.toNat_toUInt32]
  exact Nat.mod_eq_of_lt h

theorem leaked_unmarked (b : RbBlock) (addr size : UInt64) :
    ({ b.unmarked with addr, size } : RbBlock).leaked = false := by
  unfold RbBlock.leaked RbBlock.unmarked
  by_cases hb : b.leaked = true
  · simp only [hb, if_true]
    have hz : b.flags &&& ~~~blockLeaked &&& blockLeaked = 0 := by
      rw [UInt64.and_assoc, UInt64.and_comm (~~~blockLeaked), UInt64.and_not_self, UInt64.and_zero]
    rw [hz]; rfl
  · have hb' : b.leaked = false := by simpa using hb
    simp only [hb', Bool.false_eq_true, if_false]
    exact hb'

theorem leaked_marked (b : RbBlock) :
    ({ b with flags := b.flags ||| blockLeaked } : RbBlock).leaked = true := by
  have hne : (b.flags ||| blockLeaked) &&& blockLeaked = blockLeaked := by
    apply UInt64.toBitVec_inj.mp
    ext i hi
    simp only [UInt64.toBitVec_and, UInt64.toBitVec_or, BitVec.getElem_and, BitVec.getElem_or]
    grind
  rw [RbBlock.leaked, hne]
  rfl

theorem Exact.drop {x : Loc RbBlock} {n : RbStack} (h : Exact l q p)
    (hx : x.tree = p.blockTable) (hn : p.node? x.val.stackNode = some n)
    (hk : Keeps l q (.drop x.val)) : Exact l q (p.dropBlock x) := by
  refine h.shift (counter_dropBlock hn l q) ?_
  rw [total_of_loc hx, blocks_dropBlock, total_append]
  have hw : released x.val x.val.size.toUInt32 q + (if q = .allocations then 1 else 0) =
      q.weight x.val := by
    cases q with
    | bytes => simp [released, Kind.weight, toUInt64_toUInt32 (hk rfl)]
    | _ => simp [released, Kind.weight]
  rw [hw]
  split <;> simp

theorem Exact.trim {x : Loc RbBlock} {n : RbStack} {size : UInt64} (h : Exact l q p)
    (hx : x.tree = p.blockTable) (hn : p.node? x.val.stackNode = some n)
    (hk : Keeps l q (.trim x.val size)) : Exact l q (p.trimBlock x size) := by
  refine h.shift (counter_trimBlock hn size l q) ?_
  rw [total_of_loc hx, blocks_trimBlock, total_append, total_cons]
  have hw : Kind.weight { x.val.unmarked with addr := x.val.addr + size, size := x.val.size - size }
      q = q.weight x.val - released x.val size.toUInt32 q := by
    have hl := leaked_unmarked x.val (x.val.addr + size) (x.val.size - size)
    cases q with
    | bytes => simp [released, Kind.weight, toUInt64_toUInt32 (hk rfl)]
    | allocations => simp [released, Kind.weight]
    | leaks => simp only [Kind.weight, hl, released]; simp
    | leakedBytes => simp only [Kind.weight, hl, released]; simp
  have hnode : ({ x.val.unmarked with
      addr := x.val.addr + size, size := x.val.size - size } : RbBlock).stackNode =
    x.val.stackNode := rfl
  rw [hw, hnode]
  split
  · abel
  · abel

theorem Exact.mark {x : Loc RbBlock} {n : RbStack} (h : Exact l q p)
    (hx : x.tree = p.blockTable) (hn : p.node? x.val.stackNode = some n)
    (hl : x.val.leaked = false) : Exact l q (p.markBlock x) := by
  refine h.shift (counter_markBlock hn l q) ?_
  rw [total_of_loc hx, blocks_markBlock, total_append, total_cons]
  have hw : Kind.weight { x.val with flags := x.val.flags ||| blockLeaked } q =
      q.weight x.val + marked x.val q := by
    have hm := leaked_marked x.val
    cases q with
    | bytes => simp [Kind.weight, marked]
    | allocations => simp [Kind.weight, marked]
    | leaks => simp only [Kind.weight, hm, hl, marked]; simp
    | leakedBytes => simp only [Kind.weight, hm, hl, marked]; simp
  rw [hw]
  show _ + ((if l.covers x.val.stackNode then _ else _) + _) = _
  split
  · abel
  · abel

theorem Exact.restore {b : RbBlock} {n : RbStack} (h : Exact l q p)
    (hn : p.node? b.stackNode = some n) (hk : Keeps l q (.restore b)) :
    Exact l q (p.addBlock b) := by
  refine h.shift (counter_addBlock hn l q) ?_
  rw [total_addBlock]
  have hw : q.weight b = inserted b.size l q := by
    cases q with
    | allocations => cases l <;> rfl
    | bytes =>
      cases l with
      | process => exact hk.1 rfl rfl
      | node i => rfl
    | leaks => cases l <;> simp [Kind.weight, inserted, hk.2 (.inl rfl)]
    | leakedBytes => cases l <;> simp [Kind.weight, inserted, hk.2 (.inr rfl)]
  rw [hw]

theorem counter_charge (p : Process) (i : NodeId) (size : UInt64) (l : Level) (q : Kind) :
    (p.charge i size).counter l q =
      p.counter l q + if l = .process ∧ q = .bytes then size else 0 := by
  rw [Process.charge, counter_stampNode _ _ (f := id) (fun _ => rfl) fun _ _ => rfl]
  cases l with
  | node j => simp [Process.counter, Process.node?]
  | process => cases q <;> simp [Process.counter]

theorem Exact.alloc {ptr size : UInt64} {n : RbStack} (h : Exact l q p)
    (hn : p.node? i = some n) : Exact l q ((p.addBlock ⟨0, ptr, size, i⟩).charge i size) := by
  refine h.shift (d := if l.covers i then Kind.weight ⟨0, ptr, size, i⟩ q else 0) ?_
    (total_addBlock p ⟨0, ptr, size, i⟩ l q)
  rw [counter_charge, counter_addBlock (b := ⟨0, ptr, size, i⟩) hn]
  have hl : (⟨0, ptr, size, i⟩ : RbBlock).leaked = false := by simp [RbBlock.leaked]
  cases l with
  | process => cases q <;> simp [Level.covers, inserted, Kind.weight, hl]
  | node j => cases q <;> simp [inserted, Kind.weight, hl]

/-- A new node has no blocks yet. -/
theorem Owned.fresh_ne {k : Stacks} {ext : NodeId → ℕ} {rest : StackId → ℕ}
    (h : Owned k p ext rest) {m : RbStack} (hm : m ∈ p.nodes) : m.id ≠ p.nextNode :=
  Nat.ne_of_lt (h.fresh m hm)

/-- A change of the references on a node moves no other counter. -/
theorem Exact.recount {c : RbStack → ℕ} (h : Exact l q p)
    (hproc : ∀ q, p'.counter .process q = p.counter .process q)
    (hnodes : p'.nodes = p.nodes.map (onNode i fun n => { n with refcnt := c n }))
    (hbl : p'.blockTable = p.blockTable) : Exact l q p' := by
  rw [Exact, Process.blocks, hbl, ← h]
  cases l with
  | process => exact hproc q
  | node j =>
    refine counter_node_of_map hnodes (onNode_id fun _ => rfl) (fun n q => ?_) j q
    unfold onNode
    split
    · cases q <;> rfl
    · rfl

/-- The changes keep a counter exact, up to the slips `Keeps` leaves out. -/
theorem Exact.changed {ext : NodeId → ℕ} {rest : StackId → ℕ} {ch : Change}
    {s s' : Stacks × Process} (h : Exact l q s.2) (ho : Owned s.1 s.2 ext rest)
    (hk : Keeps l q ch) (hc : Changed ch s s') : Exact l q s'.2 := by
  cases hc with
  | alloc hs hn => exact h.alloc (Process.deref_eq_ok.mp hn).1
  | restore hn => exact h.restore (Process.deref_eq_ok.mp hn).1 hk
  | drop hx hn => exact h.drop hx (Process.deref_eq_ok.mp hn).1 hk
  | trim hx hn size => exact h.trim hx (Process.deref_eq_ok.mp hn).1 hk
  | mark hx hn hl => exact h.mark hx (Process.deref_eq_ok.mp hn).1 hl
  | @link k p addrs hf op ignore =>
    have hc := counter_linkNode (l := l) (q := q) (n := .fresh k p addrs op ignore) hf
      (fun m hm => ho.fresh_ne hm) (fun _ => by cases q <;> rfl)
    exact hc.trans h
  | @stamp k p i a b =>
    refine (counter_stampNode p i (f := fun n => { n with
      nMismatched := n.nMismatched + a, nBadfree := n.nBadfree + b }) (fun _ => rfl)
      (fun n q => ?_) l q).trans h
    cases q <;> rfl
  | hold hi hn => exact h.recount (fun q => by cases q <;> rfl) (Process.nodes_modifyNode ..) rfl
  | await pid =>
    exact h.recount (i := 0) (c := fun n => n.refcnt) (fun q => by cases q <;> rfl)
      ((map_withRefs _).trans (List.map_congr_left fun n _ => by unfold onNode; split <;> rfl)) rfl
  | release hp hi hn =>
    exact h.recount (fun q => by cases q <;> rfl) (Process.nodes_modifyNode ..) rfl
  | forget hp hi =>
    exact h.recount (i := 0) (c := fun n => n.refcnt) (fun q => by cases q <;> rfl)
      ((map_withRefs _).trans (List.map_congr_left fun n _ => by unfold onNode; split <;> rfl)) rfl

theorem Exact.chain {ext : NodeId → ℕ} {rest : StackId → ℕ} {s s' : Stacks × Process}
    (h : Exact l q s.2) (ho : Owned s.1 s.2 ext rest) (hc : Chain (Keeps l q) s s') :
    Exact l q s'.2 :=
  (hc.invariant (P := fun s => Exact l q s.2 ∧ Owned s.1 s.2 ext rest)
    (fun _ _ _ hk hP hc => ⟨hP.1.changed hP.2 hk hc, hP.2.changed hc⟩) ⟨h, ho⟩).1

/-! ### Resets, forks and scans -/

theorem exact_of_empty (hb : p.blocks = []) (hn : p.nodes = [])
    (hproc : ∀ q, p.counter .process q = 0) : Exact l q p := by
  rw [Exact, hb]
  cases l with
  | process => exact hproc q
  | node j =>
    show (p.node? j).elim 0 _ = 0
    rw [Process.node?, hn]
    rfl

theorem exact_processNew (pid : UInt32) (sw tracing : Bool) :
    Exact l q (processNew pid sw tracing) :=
  exact_of_empty rfl rfl fun q => by cases q <;> rfl

theorem exact_cleared (p : Process) : Exact l q p.cleared :=
  exact_of_empty rfl rfl fun q => by cases q <;> rfl

/-- `process_reset_allocations` forgets the blocks but not what their nodes say of them. -/
theorem Exact.emptied {p1 : Process} (h : Exact l q p) (hem : p.Emptied p1)
    (hz : l = .process ∨ q = .allocations ∨ total l q p.blocks = 0) : Exact l q p1 := by
  obtain ⟨c, hnodes⟩ := hem.nodes_eq
  obtain ⟨c', rfl⟩ := hem
  show _ = (0 : UInt64)
  cases l with
  | process => cases q <;> rfl
  | node j =>
    have hnode := node?_of_map hnodes (fun _ => rfl) j
    show (Process.node? _ j).elim 0 _ = 0
    rw [hnode]
    have hcount : (p.node? j).elim 0 (·.counter q) = total (.node j) q p.blocks := h
    rcases hp : p.node? j with _ | n
    · rfl
    · rw [hp] at hcount
      have hid : n.id = j := by simpa using List.find?_some hp
      show ((n.uncount (blockRefs p.blocks n.id)).withRefs (c n)).counter q = 0
      cases q with
      | allocations =>
        have hn : n.nAllocations = UInt64.ofNat (blockRefs p.blocks j) := by
          rw [← total_node_allocations]; exact hcount
        show n.nAllocations - UInt64.ofNat (blockRefs p.blocks n.id) = 0
        rw [hn, hid, sub_self]
      | _ => exact hcount.trans (by simpa using hz)

theorem leaked_scanned (b : RbBlock) :
    ({ b with flags := b.flags ||| blockScanned } : RbBlock).leaked = b.leaked := by
  have hf : (b.flags ||| blockScanned) &&& blockLeaked =
      b.flags &&& blockLeaked ||| blockScanned &&& blockLeaked :=
    UInt64.toBitVec_inj.mp BitVec.and_or_distrib_right
  have hz : blockScanned &&& blockLeaked = 0 := rfl
  rw [RbBlock.leaked, RbBlock.leaked, hf, hz, UInt64.or_zero]

/-- A scan selects blocks without touching their leak marks. -/
theorem Exact.select (h : Exact l q p) (mode : ScanMode) : Exact l q (processLeaksScan p mode) := by
  unfold processLeaksScan
  split
  · exact h
  · refine Eq.trans ?_ (Eq.trans h (Eq.symm ?_))
    · cases l with
      | process => cases q <;> rfl
      | node j => rfl
    · rw [Process.blocks, toList_map]
      refine total_map (fun b => by split <;> rfl) fun b => ?_
      split
      · cases q <;> simp only [Kind.weight, leaked_scanned]
      · rfl

theorem fresh_linkNode {m : RbStack} (hf : p.stackTable.find (stackCut m.stack.addrs) = none)
    (hfresh : ∀ n ∈ p.nodes, n.id < p.nextNode) (hid : m.id = p.nextNode) :
    ∀ n ∈ (p.linkNode m).nodes, n.id < (p.linkNode m).nextNode := by
  intro n hn
  obtain ⟨as, bs, hp, hp'⟩ := nodes_linkNode hf
  rw [hp'] at hn
  show n.id < p.nextNode + 1
  rcases List.mem_cons.mp (List.perm_middle.mem_iff.mp hn) with rfl | hn
  · exact hid ▸ Nat.lt_succ_self _
  · exact Nat.lt_succ_of_lt (hfresh n (hp ▸ hn))

/-- A copied block is charged like a new one, except that its leak mark is not counted. -/
theorem Exact.copyBlock {b : RbBlock} {n : RbStack} (h : Exact l q p) (hn : p.node? i = some n)
    (hleak : q = .leaks ∨ q = .leakedBytes → b.leaked = false) : Exact l q (p.copyBlock b i) := by
  refine h.shift (d := if l.covers i then q.weight b else 0) ?_
    ((total_addBlock p { b with stackNode := i } l q).trans (by cases q <;> rfl))
  have hadd := counter_addBlock (b := { b with stackNode := i }) hn l q
  have hcount : (p.copyBlock b i).counter l q = (p.addBlock { b with stackNode := i }).counter l q +
      if l = .process ∧ q = .bytes then b.size else 0 := by
    cases l with
    | node j => simp [Process.counter, Process.copyBlock, Process.node?]
    | process => cases q <;> simp [Process.counter, Process.copyBlock]
  rw [hcount, hadd]
  cases q with
  | allocations => cases l <;> simp [inserted, Kind.weight]
  | bytes => cases l <;> simp [Level.covers, inserted, Kind.weight]
  | leaks => cases l <;> simp [inserted, Kind.weight, hleak (.inl rfl)]
  | leakedBytes => cases l <;> simp [inserted, Kind.weight, hleak (.inr rfl)]

/-- A copy is exact when the nodes it clones start from nothing and no leak mark is copied. -/
theorem Exact.duplicateBlocks {o : Options} {copy : Process} {bs : List RbBlock} {k : Stacks}
    {r : Stacks × Process} (h : Exact l q p) (hfresh : ∀ n ∈ p.nodes, n.id < p.nextNode)
    (hclone : ∀ b ∈ bs, ∀ n, copy.deref b.stackNode = .ok n → l ≠ .process → n.counter q = 0)
    (hleak : q = .leaks ∨ q = .leakedBytes → ∀ b ∈ bs, b.leaked = false)
    (hd : duplicateBlocks o copy bs k p = .ok r) : Exact l q r.2 := by
  induction bs generalizing k p with
  | nil => cases hd; exact h
  | cons b bs ih =>
    obtain ⟨r1, h1, h2⟩ := bind_eq_ok.mp hd
    obtain ⟨n, k1, p1, i, n1, hn, hcl, hn1, rfl⟩ := processRbDuplicateBlock_cases h1
    have hp1 : Exact l q p1 ∧ ∀ n ∈ p1.nodes, n.id < p1.nextNode := by
      rcases stackClone_cases k p n with ⟨x, -, heq⟩ | ⟨hf, heq⟩
      · cases heq.symm.trans hcl; exact ⟨h, hfresh⟩
      · cases heq.symm.trans hcl
        refine ⟨?_, fresh_linkNode (m := { n with id := p.nextNode, refcnt := 1 }) hf hfresh rfl⟩
        refine (counter_linkNode (n := { n with id := p.nextNode, refcnt := 1 }) hf
          (fun m hm => Nat.ne_of_lt (hfresh m hm)) fun hl => ?_).trans h
        have hz := hclone b (List.mem_cons_self ..) n hn hl
        cases q <;> exact hz
    have hex := hp1.1.copyBlock (b := b) (Process.deref_eq_ok.mp hn1).1
      fun hq => hleak hq b (List.mem_cons_self ..)
    refine ih (p := p1.copyBlock b i) hex (fun m hm => ?_)
      (fun b' hb' => hclone b' (List.mem_cons_of_mem _ hb'))
      (fun hq b' hb' => hleak hq b' (List.mem_cons_of_mem _ hb')) h2
    have hnodes : (p1.copyBlock b i).nodes = p1.nodes.map (onNode i (·.add b.size)) :=
      Process.nodes_modifyNode ..
    rw [hnodes] at hm
    obtain ⟨m', hm', rfl⟩ := List.mem_map.mp hm
    rw [onNode_id (f := (·.add b.size)) fun _ => rfl]
    exact hp1.2 m' hm'

end Moves

end Mtrace.Client
