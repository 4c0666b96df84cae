import Mtrace.Client.Effects
import Mtrace.Client.Client

/-!
# Records up to the names of their backtraces

The `struct stack`s of all processes come from one heap, so the name a new one gets depends on what
the other processes have done.  Nothing else in a record does: two records that differ only in these
names go on to do so under every handler, whatever the two heaps are, and a handler fails on one of
them as on the other.
-/

namespace Mtrace.Client

open RbTree Machine

/-- The node without the name of its `struct stack`. -/
def RbStack.bare (n : RbStack) : RbStack := { n with stack := { n.stack with id := 0 } }

/-- The record without the names of its `struct stack`s. -/
def Process.bare (p : Process) : Process :=
  { p with stackTable := p.stackTable.map RbStack.bare }

/-- The records differ at most in the names of their `struct stack`s. -/
def Alike (p q : Process) : Prop := p.bare = q.bare

/-- The results of a handler are alike; their heaps need not be. -/
def AlikeSnd (r s : Stacks × Process) : Prop := Alike r.2 s.2

/-- The same for the functions that return a node as well. -/
def AlikeNode (r s : Stacks × Process × NodeId) : Prop := Alike r.2.1 s.2.1 ∧ r.2.2 = s.2.2

section Record

variable {p q : Process}

theorem Alike.refl (p : Process) : Alike p p := rfl

/-- An update of a record that does not look at these names. -/
theorem Alike.update (h : Alike p q) (g : Process → Process)
    (hg : ∀ p, (g p).bare = g p.bare) : Alike (g p) (g q) :=
  calc (g p).bare = g p.bare := hg p
    _ = g q.bare := congrArg g h
    _ = (g q).bare := (hg q).symm

theorem Alike.withBlocks (h : Alike p q) (t : RbRoot RbBlock) :
    Alike { p with blockTable := t } { q with blockTable := t } :=
  h.update (fun p => { p with blockTable := t }) fun _ => rfl

/-- All fields but the stack table are equal. -/
theorem Alike.eq_with (h : Alike p q) : ∃ t, q = { p with stackTable := t } := by
  refine ⟨q.stackTable, ?_⟩
  cases p
  cases q
  simp only [Alike, Process.bare, Process.mk.injEq] at h
  simp only [Process.mk.injEq]
  tauto

theorem Alike.stackTable (h : Alike p q) :
    p.stackTable.map RbStack.bare = q.stackTable.map RbStack.bare :=
  congrArg Process.stackTable h

theorem Alike.nodes (h : Alike p q) : p.nodes.map RbStack.bare = q.nodes.map RbStack.bare := by
  have := congrArg RbRoot.toList h.stackTable
  rwa [toList_map, toList_map] at this

theorem Alike.pid (h : Alike p q) : p.pid = q.pid :=
  (congrArg Process.pid h : p.bare.pid = q.bare.pid)

theorem Alike.blockTable (h : Alike p q) : p.blockTable = q.blockTable :=
  (congrArg Process.blockTable h : p.bare.blockTable = q.bare.blockTable)

theorem Alike.nAllocations (h : Alike p q) : p.nAllocations = q.nAllocations :=
  (congrArg Process.nAllocations h : p.bare.nAllocations = q.bare.nAllocations)

theorem Alike.reallocList (h : Alike p q) : p.reallocList = q.reallocList :=
  (congrArg Process.reallocList h : p.bare.reallocList = q.bare.reallocList)

theorem Alike.stackTrees (h : Alike p q) : p.stackTrees = q.stackTrees :=
  (congrArg Process.stackTrees h : p.bare.stackTrees = q.bare.stackTrees)

theorem bare_node? (p : Process) (i : NodeId) :
    p.bare.node? i = (p.node? i).map RbStack.bare := by
  show (p.stackTable.map RbStack.bare).toList.find? _ = _
  rw [toList_map, List.find?_map]
  rfl

theorem Alike.node? (h : Alike p q) (i : NodeId) :
    (p.node? i).map RbStack.bare = (q.node? i).map RbStack.bare := by
  rw [← bare_node?, ← bare_node?, h]

/-- Reading through a pointer to a stack node. -/
theorem Alike.deref (h : Alike p q) (i : NodeId) :
    Agree (fun n m => n.bare = m.bare) (p.deref i) (q.deref i) := by
  have hn := h.node? i
  unfold Process.deref
  generalize p.node? i = x at hn
  generalize q.node? i = y at hn
  rcases x with _ | n <;> rcases y with _ | m
  · exact rfl
  · cases hn
  · cases hn
  · have hnm : n.bare = m.bare := Option.some.inj hn
    have hr : n.refcnt = m.refcnt := (congrArg RbStack.refcnt hnm : n.bare.refcnt = m.bare.refcnt)
    dsimp only
    rw [hr]
    split
    · exact rfl
    · exact hnm

/-- Writing through a pointer to a stack node. -/
theorem Alike.modifyNode (h : Alike p q) (i : NodeId) (f : RbStack → RbStack)
    (hf : ∀ n, (f n).bare = f n.bare) :
    Alike (p.modifyNode i f) (q.modifyNode i f) := by
  refine h.update (fun p => p.modifyNode i f) fun p => ?_
  have hmap : (p.modifyNode i f).stackTable.map RbStack.bare =
      (p.stackTable.map RbStack.bare).map fun n => if n.id = i then f n else n := by
    rw [RbRoot.map_map]
    show (p.stackTable.map _).map _ = _
    rw [RbRoot.map_map]
    congr 1
    funext n
    show RbStack.bare (if n.id = i then f n else n) = if n.id = i then f n.bare else n.bare
    rw [apply_ite RbStack.bare, hf n]
  unfold Process.bare
  rw [hmap]
  rfl

theorem Alike.linkNode (h : Alike p q) {n m : RbStack} (hn : n.bare = m.bare) :
    Alike (p.linkNode n) (q.linkNode m) := by
  have hlink : ∀ (p : Process) (n : RbStack), (p.linkNode n).bare = p.bare.linkNode n.bare := by
    intro p n
    have htable : (p.linkNode n).stackTable.map RbStack.bare =
        ((p.stackTable.map RbStack.bare).gap (stackCut n.stack.addrs)).insertNew n.bare := by
      rw [gap_map]
      exact insertNew_map RbStack.bare _ n
    unfold Process.bare
    rw [htable]
    rfl
  rw [Alike, hlink, hlink, h, hn]

end Record

/-! ## Backtraces -/

section Stacks

variable {p q : Process} {o : Options} {env : Env}

theorem stackGet_agree (h : Alike p q) (k l : Stacks) (i : NodeId) :
    Agree AlikeSnd (stackGet k p i) (stackGet l q i) :=
  (h.deref i).bind fun _ _ _ => h.modifyNode i _ fun _ => rfl

theorem stackPut_agree (h : Alike p q) (k l : Stacks) (i : NodeId) :
    Agree AlikeSnd (stackPut k p i) (stackPut l q i) :=
  (h.deref i).bind fun _ _ _ => h.modifyNode i _ fun _ => rfl

/-- The search for a backtrace ends at the same node. -/
theorem Alike.find (h : Alike p q) (addrs : List UInt8) :
    (p.stackTable.find (stackCut addrs)).map (fun x => x.val.bare) =
      (q.stackTable.find (stackCut addrs)).map (fun x => x.val.bare) := by
  have hfind : ∀ t : RbRoot RbStack, (t.find (stackCut addrs)).map (fun x => x.val.bare) =
      ((t.map RbStack.bare).find (stackCut addrs)).map fun x => x.val := by
    intro t
    rw [find_map, Option.map_map]
    rfl
  rw [hfind, hfind, h.stackTable]

theorem stackAdd_agree (h : Alike p q) (k l : Stacks) (addrs : List UInt8) (op : MtOperation) :
    Agree AlikeNode (stackAdd env k p addrs op) (stackAdd env l q addrs op) := by
  have hf := h.find addrs
  obtain ⟨t, rfl⟩ := h.eq_with
  unfold stackAdd
  dsimp only at hf ⊢
  generalize p.stackTable.find (stackCut addrs) = x at hf
  generalize t.find (stackCut addrs) = y at hf
  rcases x with _ | x <;> rcases y with _ | y
  · rcases hr : stackResolv env p addrs with f | ignore
    · rw [show stackResolv env { p with stackTable := t } addrs = .error f from hr]
      exact rfl
    · rw [show stackResolv env { p with stackTable := t } addrs = .ok ignore from hr]
      exact ⟨h.linkNode rfl, rfl⟩
  · cases hf
  · cases hf
  · have hxy : x.val.bare = y.val.bare := Option.some.inj hf
    have hop : x.val.stack.operation = y.val.stack.operation :=
      congrArg (fun n => n.stack.operation) hxy
    dsimp only
    rw [hop]
    split
    · exact ⟨h, (congrArg RbStack.id hxy : x.val.bare.id = y.val.bare.id)⟩
    · exact rfl

end Stacks

/-! ## Blocks -/

section Blocks

variable {p q : Process} {o : Options}

theorem Alike.release (h : Alike p q) (b : RbBlock) (size : UInt32) :
    Alike (p.release b size) (q.release b size) :=
  (h.modifyNode b.stackNode (·.release b size) fun _ => rfl).update (fun p => { p with
    leaks := if b.leaked then p.leaks - 1 else p.leaks
    leakedBytes := if b.leaked then p.leakedBytes - b.size else p.leakedBytes
    bytesUsed := p.bytesUsed - size.toUInt64 }) fun _ => rfl

theorem processRbDeleteBlock_agree (h : Alike p q) (k l : Stacks) (x : Loc RbBlock) :
    Agree AlikeSnd (processRbDeleteBlock k p x) (processRbDeleteBlock l q x) := by
  have h2 := ((h.withBlocks x.erase).release x.val x.val.size.toUInt32).update (fun p =>
    { p with nAllocations := p.nAllocations - 1 }) fun _ => rfl
  unfold processRbDeleteBlock
  simp only [processReleaseMem_eq]
  exact stackPut_agree (h2.modifyNode _ _ (by intro; rfl)) k l _

theorem processRbInsertBlock_agree (h : Alike p q) (k l : Stacks) (addr size : UInt64)
    (stack : NodeId) (flags : UInt64) :
    Agree AlikeSnd (processRbInsertBlock o k p addr size stack flags)
      (processRbInsertBlock o l q addr size stack flags) := by
  unfold processRbInsertBlock
  rw [← h.blockTable]
  dsimp only
  split
  · exact rfl
  · refine Agree.bind (stackGet_agree (h.modifyNode stack _ (by intro; rfl)) k l stack)
      fun r s hrs => ?_
    exact hrs.update (fun p' => { p' with
      blockTable := (p.blockTable.gap (insertCut addr)).insertNew ⟨flags, addr, size, stack⟩
      nAllocations := p'.nAllocations + 1 }) fun _ => rfl

/-! ## Pending `realloc` calls -/

theorem reallocAdd_agree (h : Alike p q) (k l : Stacks) (re : ReallocEntry) :
    Agree AlikeSnd (reallocAdd k p re) (reallocAdd l q re) := by
  unfold reallocAdd
  have hlist : ∀ r s, AlikeSnd r s → Agree AlikeSnd
      (.ok (r.1, { r.2 with reallocList := r.2.reallocList ++ [re] }) : Except Fault _)
      (.ok (s.1, { s.2 with reallocList := s.2.reallocList ++ [re] })) := fun r s hrs =>
    hrs.update (fun p => { p with reallocList := p.reallocList ++ [re] }) fun _ => rfl
  rcases re.stackNode with _ | i
  · exact hlist (k, p) (l, q) h
  · exact (stackGet_agree h k l i).bind hlist

theorem reallocDel_agree (h : Alike p q) (k l : Stacks) (before : List ReallocEntry)
    (re : ReallocEntry) (after : List ReallocEntry) :
    Agree AlikeSnd (reallocDel k p before re after) (reallocDel l q before re after) := by
  unfold reallocDel
  have hlist : ∀ r s, AlikeSnd r s → Agree AlikeSnd
      (.ok (r.1, { r.2 with reallocList := before ++ after }) : Except Fault _)
      (.ok (s.1, { s.2 with reallocList := before ++ after })) := fun r s hrs =>
    hrs.update (fun p => { p with reallocList := before ++ after }) fun _ => rfl
  rcases re.stackNode with _ | i
  · exact hlist (k, p) (l, q) h
  · exact (stackPut_agree h k l i).bind hlist

end Blocks

/-! ## Resetting and dumping -/

section Reset

variable {p q : Process}

theorem resetBlocks_agree (bs : List RbBlock) (h : Alike p q) (k l : Stacks) :
    Agree AlikeSnd (resetBlocks bs k p) (resetBlocks bs l q) := by
  induction bs generalizing p q k l with
  | nil => exact h
  | cons b bs ih =>
    have h1 := h.update (fun p => { p with nAllocations := p.nAllocations - 1 }) fun _ => rfl
    exact Agree.bind (stackPut_agree (h1.modifyNode b.stackNode _ (by intro; rfl)) k l b.stackNode)
      fun r s hrs => ih hrs r.1 s.1

theorem resetReallocs_agree {res res' : List ReallocEntry} (hres : res = res') (h : Alike p q)
    (k l : Stacks) : Agree AlikeSnd (resetReallocs res k p) (resetReallocs res' l q) := by
  subst hres
  induction res generalizing p q k l with
  | nil => exact h
  | cons re res ih => exact (reallocDel_agree h k l [] re res).bind fun r s hrs => ih hrs r.1 s.1

theorem processResetAllocations_agree (h : Alike p q) (k l : Stacks) :
    Agree AlikeSnd (processResetAllocations k p) (processResetAllocations l q) := by
  unfold processResetAllocations
  rw [← h.blockTable]
  refine (resetBlocks_agree p.blockTable.postorder h k l).bind fun r s (hrs : Alike r.2 s.2) => ?_
  have h1 : Alike { r.2 with blockTable := .nil } { s.2 with blockTable := .nil } :=
    hrs.withBlocks .nil
  refine Agree.ite (by rw [hrs.nAllocations]) (fun _ => rfl) fun _ => ?_
  refine Agree.bind (resetReallocs_agree hrs.reallocList h1 r.1 s.1) fun r s hrs => ?_
  exact hrs.update (fun p => { p with
    totalAllocations := 0, bytesUsed := 0, leaks := 0, leakedBytes := 0, tsc := 0 }) fun _ => rfl

theorem resetStacks_agree (is : List NodeId) (h : Alike p q) (k l : Stacks) :
    Agree AlikeSnd (resetStacks is k p) (resetStacks is l q) := by
  induction is generalizing p q k l with
  | nil => exact h
  | cons i is ih =>
    refine (h.deref i).bind fun n m hnm => ?_
    have hr : n.refcnt = m.refcnt := (congrArg RbStack.refcnt hnm : n.bare.refcnt = m.bare.refcnt)
    refine Agree.ite (by rw [hr]) (fun _ => rfl) fun _ => ?_
    refine (stackPut_agree h k l i).bind fun r s hrs => ?_
    exact ih (hrs.update (fun p => { p with stackTrees := p.stackTrees - 1 }) fun _ => rfl) r.1 s.1

/-- The nodes have the same names in the same places. -/
theorem Alike.postorder (h : Alike p q) :
    p.stackTable.postorder.map (·.id) = q.stackTable.postorder.map (·.id) := by
  have hmap : ∀ t : RbRoot RbStack,
      (t.map RbStack.bare).postorder.map (·.id) = t.postorder.map (·.id) := by
    intro t
    induction t with
    | nil => rfl
    | node c l v r ihl ihr =>
      simp only [RbRoot.map, RbRoot.postorder, List.map_append, List.map_cons, List.map_nil, ihl,
        ihr]
      rfl
  rw [← hmap p.stackTable, h.stackTable, hmap]

theorem processReset_agree (h : Alike p q) (k l : Stacks) :
    Agree AlikeSnd (processReset k p) (processReset l q) := by
  unfold processReset
  refine (processResetAllocations_agree h k l).bind fun r s (hrs : Alike r.2 s.2) => ?_
  dsimp only
  rw [← hrs.postorder]
  refine (resetStacks_agree _ hrs r.1 s.1).bind fun r s (hrs : Alike r.2 s.2) => ?_
  refine Agree.ite (by rw [hrs.stackTrees]) (fun _ => rfl) fun _ => ?_
  exact hrs.update (fun p => { p with stackTable := .nil, mapList := [], filename := none })
    fun _ => rfl

theorem processReinit_agree (h : Alike p q) (k l : Stacks) (swapEndian is64bit attached : Bool) :
    Agree AlikeSnd (processReinit k p swapEndian is64bit attached)
      (processReinit l q swapEndian is64bit attached) :=
  (processReset_agree h k l).bind fun _ _ hrs =>
    hrs.update (fun p => processInit p swapEndian is64bit attached) fun _ => rfl

theorem dumpGet_agree (is : List NodeId) (h : Alike p q) (k l : Stacks) :
    Agree AlikeSnd (dumpGet is k p) (dumpGet is l q) := by
  induction is generalizing p q k l with
  | nil => exact h
  | cons i is ih => exact (stackGet_agree h k l i).bind fun r s hrs => ih hrs r.1 s.1

theorem dumpPut_agree (is : List NodeId) (h : Alike p q) (k l : Stacks) :
    Agree AlikeSnd (dumpPut is k p) (dumpPut is l q) := by
  induction is generalizing p q k l with
  | nil => exact h
  | cons i is ih => exact (stackPut_agree h k l i).bind fun r s hrs => ih hrs r.1 s.1

theorem processDumpSortby_agree (h : Alike p q) (k l : Stacks) :
    Agree AlikeSnd (processDumpSortby k p) (processDumpSortby l q) := by
  have hids : p.nodes.map (·.id) = q.nodes.map (·.id) := by
    have := congrArg (List.map RbStack.id) h.nodes
    rwa [List.map_map, List.map_map] at this
  have hbegin : Agree (fun r s => Alike r.2.1 s.2.1 ∧ r.2.2 = s.2.2) (dumpBegin k p)
      (dumpBegin l q) := by
    unfold dumpBegin
    rw [← hids, ← h.stackTrees]
    split
    · exact ⟨h, rfl⟩
    · refine (dumpGet_agree _ h k l).bind fun r s (hrs : Alike r.2 s.2) => ?_
      exact Agree.ite (by rw [hrs.stackTrees]) (fun _ => rfl) fun _ => ⟨hrs, rfl⟩
  refine hbegin.bind fun r s hrs => ?_
  dsimp only
  rw [← hrs.2]
  exact dumpPut_agree r.2.2 hrs.1 r.1 s.1

end Reset

/-! ## Messages -/

section Messages

variable {p q : Process} {o : Options} {env : Env}

theorem Alike.tracing (h : Alike p q) : p.tracing = q.tracing :=
  (congrArg Process.tracing h : p.bare.tracing = q.bare.tracing)

theorem scanBlocks_agree (as : List UInt64) (h : Alike p q) :
    Agree Alike (scanBlocks as p) (scanBlocks as q) := by
  induction as generalizing p q with
  | nil => exact h
  | cons a as ih =>
    unfold scanBlocks
    rw [← h.blockTable]
    rcases processRbSearch p.blockTable a with _ | x
    · exact ih h
    · refine Agree.ite Iff.rfl (fun _ => ih h) fun _ => ?_
      refine (h.deref x.val.stackNode).bind fun _ _ _ => ih ?_
      have h1 := h.update (fun p =>
        { p with blockTable := x.set { x.val with flags := x.val.flags ||| blockLeaked }
          }) fun _ => rfl
      have h2 := h1.modifyNode x.val.stackNode (fun n =>
        { n with leaks := n.leaks + 1, bytesLeaked := n.bytesLeaked + x.val.size }) fun _ => rfl
      exact h2.update (fun p =>
        { p with leaks := p.leaks + 1, leakedBytes := p.leakedBytes + x.val.size }) fun _ => rfl

theorem processScan_agree (h : Alike p q) (k l : Stacks) (leaks : List UInt64) :
    Agree (fun r s => Alike r.2.1 s.2.1 ∧ r.2.2 = s.2.2) (processScan o k p leaks)
      (processScan o l q leaks) := by
  refine (scanBlocks_agree leaks h).bind fun p q h => ?_
  refine Agree.ite Iff.rfl (fun _ => ⟨h, rfl⟩) fun _ => ?_
  exact (processDumpSortby_agree h k l).bind fun r s hrs => ⟨hrs, rfl⟩

theorem munmapLoop_agree (fuel : ℕ) (h : Alike p q) (k l : Stacks) (ptr size : UInt64) :
    Agree AlikeSnd (munmapLoop o fuel k p ptr size) (munmapLoop o fuel l q ptr size) := by
  induction fuel generalizing p q k l ptr size with
  | zero => exact h
  | succ fuel ih =>
    unfold munmapLoop
    rw [← h.blockTable]
    rcases hx : processRbSearchRange p.blockTable ptr size with _ | x
    · exact h
    refine (h.deref x.val.stackNode).bind fun n m hnm => ?_
    have hop : n.stack.operation = m.stack.operation :=
      congrArg (fun n => n.stack.operation) hnm
    refine Agree.ite (by rw [hop]) (fun _ => ?_) fun _ => ?_
    · exact Agree.ite Iff.rfl (fun _ => rfl) fun _ => h
    rw [if_pos (le_addr_of_searchRange hx), if_pos (le_addr_of_searchRange hx)]
    refine Agree.ite Iff.rfl (fun _ => ?_) fun _ => ?_
    · simp only [processReleaseMem_eq]
      exact (h.release x.val _).withBlocks _
    · refine (processRbDeleteBlock_agree h k l x).bind fun r s hrs => ?_
      exact Agree.ite Iff.rfl (fun _ => hrs) fun _ => ih hrs _ _ _ _

theorem processMunmap_agree (h : Alike p q) (k l : Stacks) (m : MtAllocPayload) :
    Agree AlikeSnd (processMunmap o k p m) (processMunmap o l q m) := by
  unfold processMunmap
  rw [← h.blockTable]
  exact Agree.ite (by rw [h.tracing]) (fun _ => h) fun _ => munmapLoop_agree _ h k l _ _

theorem Alike.stampNode (h : Alike p q) (i : NodeId) (f : RbStack → RbStack)
    (hf : ∀ n, (f n).bare = f n.bare) :
    Alike (p.stampNode i f) (q.stampNode i f) := by
  have hstamp : ∀ n, RbStack.bare { f n with tsc := p.tsc } = { f n.bare with tsc := p.tsc } := by
    intro n
    rw [← hf n]
    rfl
  obtain ⟨t, rfl⟩ := h.eq_with
  exact (h.modifyNode i _ hstamp).update (fun p' => { p' with tsc := p.tsc + 1 }) fun _ => rfl

theorem noteStack_agree (h : Alike p q) (k l : Stacks) (data : List UInt8) (op : MtOperation)
    (f : RbStack → RbStack) (hf : ∀ n, (f n).bare = f n.bare) :
    Agree AlikeSnd (noteStack env k p data op f) (noteStack env l q data op f) := by
  refine (stackAdd_agree h k l data op).bind fun r s hrs => ?_
  show Alike (r.2.1.stampNode r.2.2 f) (s.2.1.stampNode s.2.2 f)
  rw [← hrs.2]
  exact hrs.1.stampNode r.2.2 f hf

theorem noteMismatch_agree (h : Alike p q) (k l : Stacks) (data : List UInt8)
    (alloc op : MtOperation) :
    Agree AlikeSnd (noteMismatch env k p data alloc op) (noteMismatch env l q data alloc op) :=
  Agree.ite Iff.rfl (fun _ => noteStack_agree h k l data op _ fun _ => rfl) fun _ => h

theorem noteBadfree_agree (h : Alike p q) (k l : Stacks) (data : List UInt8) (op : MtOperation) :
    Agree AlikeSnd (noteBadfree o env k p data op) (noteBadfree o env l q data op) := by
  have hatt : p.attached = q.attached :=
    (congrArg Process.attached h : p.bare.attached = q.bare.attached)
  refine Agree.ite (by rw [hatt]) (fun _ => h) fun _ => ?_
  refine Agree.ite Iff.rfl (fun _ => rfl) fun _ => ?_
  exact Agree.ite Iff.rfl (fun _ => h) fun _ => noteStack_agree h k l data op _ fun _ => rfl

theorem enterRealloc_agree (h : Alike p q) (k l : Stacks) (op : MtOperation) (re : ReallocEntry) :
    Agree AlikeSnd (enterRealloc k p op re) (enterRealloc l q op re) :=
  Agree.ite Iff.rfl (fun _ => reallocAdd_agree h k l re) fun _ => h

theorem processFree_agree (h : Alike p q) (k l : Stacks) (op : MtOperation) (m : MtAllocPayload) :
    Agree AlikeSnd (processFree o env k p op m) (processFree o env l q op m) := by
  unfold processFree
  refine Agree.ite (by rw [h.tracing]) (fun _ => h) fun _ => ?_
  refine Agree.ite Iff.rfl (fun _ => h) fun _ => ?_
  rw [← h.blockTable]
  rcases processRbSearch p.blockTable m.ptr with _ | x
  · refine (noteBadfree_agree h k l m.data op).bind fun r s hrs => ?_
    exact enterRealloc_agree hrs r.1 s.1 op _
  · refine (h.deref x.val.stackNode).bind fun n n' hn => ?_
    have hop : n.stack.operation = n'.stack.operation := congrArg (fun n => n.stack.operation) hn
    refine Agree.ite (by rw [hop]) (fun _ => rfl) fun _ => ?_
    rw [← hop]
    refine (noteMismatch_agree h k l m.data n.stack.operation op).bind fun r s hrs => ?_
    refine (enterRealloc_agree hrs r.1 s.1 op _).bind fun r s hrs => ?_
    exact processRbDeleteBlock_agree hrs r.1 s.1 x

theorem restoreBlock_agree (h : Alike p q) (k l : Stacks) (ptr : UInt64) (re : ReallocEntry) :
    Agree AlikeSnd (restoreBlock o k p ptr re) (restoreBlock o l q ptr re) := by
  refine Agree.ite Iff.rfl (fun _ => ?_) fun _ => h
  rcases re.stackNode with _ | i
  · exact rfl
  · exact processRbInsertBlock_agree h k l re.addr re.size i re.flags

theorem processReallocDone_agree (h : Alike p q) (k l : Stacks) (m : MtAllocPayload) :
    Agree AlikeSnd (processReallocDone o k p m) (processReallocDone o l q m) := by
  unfold processReallocDone
  refine Agree.ite (by rw [h.tracing]) (fun _ => h) fun _ => ?_
  rw [← h.reallocList]
  rcases findRealloc m.size.toUInt32 p.reallocList with _ | x
  · exact Agree.ite Iff.rfl (fun _ => rfl) fun _ => h
  · refine (restoreBlock_agree h k l m.ptr x.2.1).bind fun r s hrs => ?_
    exact reallocDel_agree hrs r.1 s.1 x.1 x.2.1 x.2.2

theorem evictLoop_agree (ptr size : UInt64) (fuel : ℕ) (h : Alike p q) (k l : Stacks) :
    Agree AlikeSnd (evictLoop o ptr size fuel k p) (evictLoop o ptr size fuel l q) := by
  induction fuel generalizing p q k l with
  | zero => exact h
  | succ fuel ih =>
    unfold evictLoop
    rw [← h.blockTable]
    rcases processRbSearchRange p.blockTable ptr size with _ | x
    · exact h
    · refine Agree.ite Iff.rfl (fun _ => rfl) fun _ => ?_
      exact (processRbDeleteBlock_agree h k l x).bind fun r s hrs => ih hrs r.1 s.1

theorem processAlloc_agree (h : Alike p q) (k l : Stacks) (op : MtOperation) (m : MtAllocPayload) :
    Agree AlikeSnd (processAlloc o env k p op m) (processAlloc o env l q op m) := by
  unfold processAlloc
  refine Agree.ite (by rw [h.tracing]) (fun _ => h) fun _ => ?_
  rw [← h.blockTable]
  refine (evictLoop_agree m.ptr m.size _ h k l).bind fun r s hrs => ?_
  refine (stackAdd_agree hrs r.1 s.1 m.data op).bind fun r s hrs => ?_
  obtain ⟨k', p', i⟩ := r
  obtain ⟨l', q', j⟩ := s
  obtain ⟨hpq, rfl⟩ : Alike p' q' ∧ i = j := hrs
  refine (processRbInsertBlock_agree hpq k' l' m.ptr m.size i 0).bind fun r s hrs => ?_
  show Alike (Process.stampNode _ i id) (Process.stampNode _ i id)
  refine Alike.stampNode ?_ i id fun _ => rfl
  exact Alike.update hrs (fun p => { p with
    totalAllocations := p.totalAllocations + 1
    bytesUsed := p.bytesUsed + m.size }) fun _ => rfl

theorem processDelMap_agree (h : Alike p q) (m : MtMapPayload) :
    Agree Alike (processDelMap p m) (processDelMap q m) := by
  have hmaps : p.mapList = q.mapList :=
    (congrArg Process.mapList h : p.bare.mapList = q.bare.mapList)
  refine Agree.ite (by rw [hmaps]) (fun _ => ?_) fun _ => rfl
  obtain ⟨t, rfl⟩ := h.eq_with
  exact h.update (fun p' => { p' with mapList := p.mapList.eraseP _ }) fun _ => rfl

/-- The tests of `set_block` look at the contents of a backtrace only. -/
theorem Alike.setBlockSelects (h : Alike p q) (mode : ScanMode) (b : RbBlock) :
    setBlockSelects mode p b = Client.setBlockSelects mode q b := by
  have hignore : ∀ p : Process, (p.node? b.stackNode).any (fun n => n.stack.ignore) =
      ((p.node? b.stackNode).map RbStack.bare).any fun n => n.stack.ignore := by
    intro p
    rw [Option.any_map]
    rfl
  unfold Client.setBlockSelects
  rw [hignore p, hignore q, h.node?]

theorem Alike.processLeaksScan (h : Alike p q) (mode : ScanMode) :
    Alike (processLeaksScan p mode) (Client.processLeaksScan q mode) := by
  have hsel : Client.setBlockSelects mode p = Client.setBlockSelects mode q :=
    funext (h.setBlockSelects mode)
  unfold Client.processLeaksScan
  rw [← hsel, ← h.blockTable]
  by_cases hn : p.nAllocations = 0
  · rw [if_pos hn, if_pos (h.nAllocations ▸ hn)]
    exact h
  · rw [if_neg hn, if_neg (h.nAllocations ▸ hn)]
    exact h.withBlocks _

end Messages

end Mtrace.Client
