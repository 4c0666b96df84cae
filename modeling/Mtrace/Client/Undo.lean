import Mtrace.Client.Table

/-!
# A `realloc` that fails

`process_free` takes the block of a `realloc` away and `process_realloc_done` puts it back when the
call has failed.  The block is linked again through the same path as a new one, so what comes back
is not what was taken: the bytes of the process and the leak counters stay reduced although the mark
of the block returns, and the node counts one allocation more.
-/

namespace Mtrace.Client

open RbTree Machine

/-- The counters of a process about its blocks. -/
structure Totals where
  nAllocations : UInt64
  totalAllocations : UInt64
  bytesUsed : UInt64
  leaks : UInt64
  leakedBytes : UInt64
  deriving DecidableEq, Repr

def Process.totals (p : Process) : Totals :=
  ⟨p.nAllocations, p.totalAllocations, p.bytesUsed, p.leaks, p.leakedBytes⟩

namespace Totals

/-- The block `b` is taken away. -/
def drop (b : RbBlock) (t : Totals) : Totals :=
  { t with
    nAllocations := t.nAllocations - 1
    bytesUsed := t.bytesUsed - b.size.toUInt32.toUInt64
    leaks := if b.leaked then t.leaks - 1 else t.leaks
    leakedBytes := if b.leaked then t.leakedBytes - b.size else t.leakedBytes }

/-- A block is linked, and its bytes are left to the caller. -/
def add (t : Totals) : Totals := { t with nAllocations := t.nAllocations + 1 }

/-- What a failed `realloc` of the block `b` leaves. -/
def undone (b : RbBlock) (t : Totals) : Totals :=
  { t with
    bytesUsed := t.bytesUsed - b.size.toUInt32.toUInt64
    leaks := if b.leaked then t.leaks - 1 else t.leaks
    leakedBytes := if b.leaked then t.leakedBytes - b.size else t.leakedBytes }

theorem add_drop (b : RbBlock) (t : Totals) : (t.drop b).add = t.undone b := by
  simp only [drop, add, undone, sub_add_cancel]

end Totals

/-- The counters of a stack node about its blocks. -/
structure Books where
  nAllocations : UInt64
  totalAllocations : UInt64
  bytesUsed : UInt64
  leaks : UInt64
  bytesLeaked : UInt64
  refcnt : ℕ
  deriving DecidableEq, Repr

def RbStack.books (n : RbStack) : Books :=
  ⟨n.nAllocations, n.totalAllocations, n.bytesUsed, n.leaks, n.bytesLeaked, n.refcnt⟩

/-- The counters of the node `i`. -/
def Process.books (p : Process) (i : NodeId) : Option Books := (p.node? i).map RbStack.books

namespace Books

/-- One reference more. -/
def get (n : Books) : Books := { n with refcnt := n.refcnt + 1 }

/-- One reference less. -/
def put (n : Books) : Books := { n with refcnt := n.refcnt - 1 }

/-- The block `b` is taken away. -/
def drop (b : RbBlock) (n : Books) : Books :=
  { n with
    nAllocations := n.nAllocations - 1
    bytesUsed := n.bytesUsed - b.size.toUInt32.toUInt64
    leaks := if b.leaked then n.leaks - 1 else n.leaks
    bytesLeaked := if b.leaked then n.bytesLeaked - b.size else n.bytesLeaked
    refcnt := n.refcnt - 1 }

/-- A block of `size` bytes is linked. -/
def add (size : UInt64) (n : Books) : Books :=
  { n with
    nAllocations := n.nAllocations + 1
    totalAllocations := n.totalAllocations + 1
    bytesUsed := n.bytesUsed + size
    refcnt := n.refcnt + 1 }

/-- What a failed `realloc` of the block `b` leaves. -/
def undone (b : RbBlock) (n : Books) : Books :=
  { n with
    totalAllocations := n.totalAllocations + 1
    bytesUsed := n.bytesUsed - b.size.toUInt32.toUInt64 + b.size
    leaks := if b.leaked then n.leaks - 1 else n.leaks
    bytesLeaked := if b.leaked then n.bytesLeaked - b.size else n.bytesLeaked }

theorem put_add_drop_get (b : RbBlock) (n : Books) :
    (((n.get).drop b).add b.size).put = n.undone b := by
  simp only [get, drop, add, put, undone, sub_add_cancel, Nat.add_sub_cancel]

end Books

/-- The record is as it was, stack nodes that are new apart. -/
structure Restored (p p' : Process) : Prop where
  blocks : p'.blocks.Perm p.blocks
  totals : p'.totals = p.totals
  books : ∀ i, p.node? i ≠ none → p'.books i = p.books i
  reallocList : p'.reallocList = p.reallocList

/-- What a failed `realloc` of the block `b` leaves of the record. -/
structure Undone (b : RbBlock) (p p' : Process) : Prop where
  blocks : p'.blocks.Perm p.blocks
  totals : p'.totals = p.totals.undone b
  books : ∀ i, p.node? i ≠ none →
    p'.books i = if i = b.stackNode then (p.books i).map (·.undone b) else p.books i
  reallocList : p'.reallocList = p.reallocList

section Undo

variable {o : Options} {env : Env} {k : Stacks} {p : Process} {ext : NodeId → ℕ}
  {rest : StackId → ℕ} {m m' : MtAllocPayload} {r r1 : Stacks × Process}

/-! ## The counters of the nodes -/

theorem books_modifyNode {p : Process} {f : RbStack → RbStack} {g : Books → Books} {i : NodeId}
    (hid : ∀ n, (f n).id = n.id) (hg : ∀ n, (f n).books = g n.books) (j : NodeId) :
    (p.modifyNode i f).books j = if j = i then (p.books j).map g else p.books j := by
  unfold Process.books
  rw [p.node?_modifyNode i j hid]
  split
  next h =>
    subst h
    rw [Option.map_map, Option.map_map]
    congr 1
    exact funext hg
  next => rfl

theorem node?_linkNode {n : RbStack} (hf : p.stackTable.find (stackCut n.stack.addrs) = none)
    {i : NodeId} (hi : n.id ≠ i) : (p.linkNode n).node? i = p.node? i := by
  obtain ⟨as, bs, hp, hp'⟩ := nodes_linkNode hf
  unfold Process.node?
  rw [hp, hp', List.find?_append, List.find?_append, List.find?_cons]
  simp [hi]

/-- What a note about a mismatch leaves alone. -/
structure Unnoted (p p' : Process) : Prop where
  blocks : p'.blockTable = p.blockTable
  totals : p'.totals = p.totals
  books : ∀ i, p.node? i ≠ none → p'.books i = p.books i
  reallocList : p'.reallocList = p.reallocList
  tracing : p'.tracing = p.tracing

theorem Noted.unnoted {op : MtOperation} (h : Owned k p ext rest)
    (hn : Noted env k p m.data op r) : Unnoted p r.2 := by
  rcases hn with rfl | ⟨-, k1, p1, i, a, b, hadd, rfl⟩
  · exact ⟨rfl, rfl, fun _ _ => rfl, rfl, rfl⟩
  have hstamp : ∀ j, (p1.stampNode i fun n =>
      { n with nMismatched := n.nMismatched + a, nBadfree := n.nBadfree + b }).books j =
        p1.books j := by
    intro j
    have := books_modifyNode (p := p1) (i := i) (g := id) (f := fun n =>
      { n with nMismatched := n.nMismatched + a, nBadfree := n.nBadfree + b, tsc := p1.tsc })
      (fun _ => rfl) (fun _ => rfl) j
    rw [Option.map_id, id_eq, ite_self] at this
    exact this
  rcases stackAdd_cases hadd with ⟨x, -, hr⟩ | ⟨hf, ignore, hr⟩
  · cases hr
    exact ⟨rfl, rfl, fun j _ => hstamp j, rfl, rfl⟩
  · cases hr
    refine ⟨rfl, rfl, fun j hj => (hstamp j).trans ?_, rfl, rfl⟩
    -- the new node has a name no other one has
    have hne : (RbStack.fresh k p m.data op ignore).id ≠ j := by
      rintro rfl
      obtain ⟨n, hn⟩ := Option.ne_none_iff_exists'.mp hj
      have hlt := h.fresh n (List.mem_of_find?_eq_some hn)
      have hid := List.find?_some (p := fun n : RbStack => decide (n.id = p.nextNode)) hn
      exact absurd (of_decide_eq_true hid) (Nat.ne_of_lt hlt)
    unfold Process.books
    rw [node?_linkNode (n := .fresh k p m.data op ignore) hf hne]

/-! ## The two messages -/

/-- The record with one more pending `realloc`, of a block of the node `i`. -/
def Process.await (p : Process) (i : NodeId) (re : ReallocEntry) : Process :=
  { p.modifyNode i fun n => { n with refcnt := n.refcnt + 1 } with
    reallocList := p.reallocList ++ [re] }

/-- The record when the `realloc` of a block of the node `i` is over and `res` are still pending. -/
def Process.settle (p : Process) (i : NodeId) (res : List ReallocEntry) : Process :=
  { p.modifyNode i fun n => { n with refcnt := n.refcnt - 1 } with reallocList := res }

/-- The record after the message that a `realloc` of the block at `x` begins. -/
theorem processFree_reallocEnter {x : Loc RbBlock} (h : Owned k p ext rest)
    (ht : p.tracing = true) (hz : m.ptr ≠ 0) (hs : processRbSearch p.blockTable m.ptr = some x)
    (hr : processFree o env k p .reallocEnter m = .ok r) : ∃ p1, Unnoted p p1 ∧
      r.2 = (p1.await x.val.stackNode (x.val.entry m.size.toUInt32)).dropBlock x := by
  rcases processFree_cases hr with ⟨hf | hf, -⟩ | ⟨-, -, r1, hnote, hrest⟩
  · rw [ht] at hf; cases hf
  · exact absurd hf hz
  have hun := hnote.unnoted h
  rcases hrest with ⟨y, r2, n, hs', henter, -, rfl⟩ | ⟨hs', -⟩
  · cases hs.symm.trans hs'
    rw [enterRealloc, if_pos rfl] at henter
    rcases reallocAdd_cases henter with ⟨i, n', hi, -, rfl⟩ | ⟨hi, -⟩
    · cases hi
      exact ⟨r1.2, hun, rfl⟩
    · cases hi
  · cases hs.symm.trans hs'

/-- The record after the message that the `realloc` has failed. -/
theorem processReallocDone_failed {res : List ReallocEntry} {b : RbBlock} (ht : p.tracing = true)
    (haddr : b.addr ≠ 0) (hlist : p.reallocList = res ++ [b.entry m.size.toUInt32])
    (hpend : ∀ re ∈ res, re.pid ≠ m.size.toUInt32) (hm : m.ptr = 0)
    (hr : processReallocDone o k p m = .ok r) :
    r.2 = (p.addBlock b).settle b.stackNode res := by
  have hf : findRealloc m.size.toUInt32 p.reallocList =
      some (res, b.entry m.size.toUInt32, []) := by
    have happend : findRealloc (b.entry m.size.toUInt32).pid (res ++ [b.entry m.size.toUInt32]) =
        some (res, b.entry m.size.toUInt32, []) := findRealloc_append hpend
    rw [hlist]
    exact happend
  rcases processReallocDone_cases hr with ⟨h0 | h0, -⟩ | ⟨-, before, re, after, hf', hrest⟩
  · rw [ht] at h0; cases h0
  · rw [hf] at h0; cases h0
  cases hf.symm.trans hf'
  rcases hrest with ⟨i, n, -, -, hi, -, hdel⟩ | ⟨h0 | h0, -⟩
  · cases hi
    rcases reallocDel_cases hdel with ⟨i, n', hi, -, rfl⟩ | ⟨hi, -⟩
    · cases hi
      rw [List.append_nil]
      rfl
    · cases hi
  · exact absurd hm h0
  · exact absurd h0 haddr

theorem books_await (i : NodeId) (re : ReallocEntry) (j : NodeId) :
    (p.await i re).books j = if j = i then (p.books j).map (·.get) else p.books j :=
  books_modifyNode (f := fun n => { n with refcnt := n.refcnt + 1 }) (fun _ => rfl) (fun _ => rfl) j

theorem books_settle (i : NodeId) (res : List ReallocEntry) (j : NodeId) :
    (p.settle i res).books j = if j = i then (p.books j).map (·.put) else p.books j :=
  books_modifyNode (f := fun n => { n with refcnt := n.refcnt - 1 }) (fun _ => rfl) (fun _ => rfl) j

theorem books_dropBlock (x : Loc RbBlock) (j : NodeId) : (p.dropBlock x).books j =
    if j = x.val.stackNode then (p.books j).map (·.drop x.val) else p.books j :=
  books_modifyNode (f := (·.drop x.val)) (fun _ => rfl) (fun _ => rfl) j

theorem books_addBlock (b : RbBlock) (j : NodeId) : (p.addBlock b).books j =
    if j = b.stackNode then (p.books j).map (·.add b.size) else p.books j :=
  books_modifyNode (f := (·.add b.size)) (fun _ => rfl) (fun _ => rfl) j

theorem totals_await (i : NodeId) (re : ReallocEntry) : (p.await i re).totals = p.totals := rfl

theorem totals_settle (i : NodeId) (res : List ReallocEntry) :
    (p.settle i res).totals = p.totals := rfl

theorem totals_dropBlock (x : Loc RbBlock) : (p.dropBlock x).totals = p.totals.drop x.val := rfl

theorem totals_addBlock (b : RbBlock) : (p.addBlock b).totals = p.totals.add := rfl

/-- What the two messages do to the counters of the process. -/
theorem totals_failed (x : Loc RbBlock) (re : ReallocEntry) (res : List ReallocEntry) :
    ((((p.await x.val.stackNode re).dropBlock x).addBlock x.val).settle
    x.val.stackNode res).totals =
      p.totals.undone x.val := by
  rw [totals_settle, totals_addBlock, totals_dropBlock, totals_await, Totals.add_drop]

/-- What the two messages do to the counters of a node. -/
theorem books_failed (x : Loc RbBlock) (re : ReallocEntry) (res : List ReallocEntry) (j : NodeId) :
    ((((p.await x.val.stackNode re).dropBlock x).addBlock x.val).settle x.val.stackNode
    res).books j =
      if j = x.val.stackNode then (p.books j).map (·.undone x.val) else p.books j := by
  rw [books_settle, books_addBlock, books_dropBlock, books_await]
  split
  next =>
    simp only [Option.map_map]
    congr 1
    funext n
    exact Books.put_add_drop_get x.val n
  next => rfl

/-- The record after a `realloc` that failed. -/
theorem undone_of_failed {x : Loc RbBlock} (h : Owned k p ext rest) (ht : p.tracing = true)
    (hz : m.ptr ≠ 0) (hs : processRbSearch p.blockTable m.ptr = some x)
    (hpend : ∀ re ∈ p.reallocList, re.pid ≠ m.size.toUInt32)
    (hr1 : processFree o env k p .reallocEnter m = .ok r1) (hm' : m'.ptr = 0 ∧ m'.size = m.size)
    (hr : processReallocDone o r1.1 r1.2 m' = .ok r) : Undone x.val p r.2 := by
  obtain ⟨p1, hun, hp2⟩ := processFree_reallocEnter h ht hz hs hr1
  have hr2 := processReallocDone_failed (b := x.val)
    (by rw [hp2]; exact hun.tracing.trans ht) (addr_of_search hs ▸ hz)
    (by rw [hp2, hm'.2, ← hun.reallocList]; rfl) (hm'.2.symm ▸ hpend) hm'.1 hr
  rw [hp2] at hr2
  rw [hr2]
  refine ⟨?_, ?_, fun i hi => ?_, rfl⟩
  · obtain ⟨as, bs, hold, hnew⟩ := blocks_addBlock
      ((p1.await x.val.stackNode (x.val.entry m.size.toUInt32)).dropBlock x) x.val
    show List.Perm (Process.blocks (Process.addBlock _ _)) _
    rw [hnew, Process.blocks_of_tree (find_some hs).1]
    refine List.perm_middle.trans (.trans (.cons _ ?_) List.perm_middle.symm)
    rw [← hold, blocks_dropBlock]
  · rw [totals_failed, hun.totals]
  · rw [books_failed, hun.books i hi]

/-- The two messages leave the record as it was only if they are ignored; otherwise what is left is
`Undone`. -/
theorem failed_realloc_restores_iff {x : Loc RbBlock} (h : Owned k p ext rest)
    (hs : processRbSearch p.blockTable m.ptr = some x)
    (hpend : ∀ re ∈ p.reallocList, re.pid ≠ m.size.toUInt32)
    (hr1 : processFree o env k p .reallocEnter m = .ok r1) (hm' : m'.ptr = 0 ∧ m'.size = m.size)
    (hr : processReallocDone o r1.1 r1.2 m' = .ok r) :
    (Restored p r.2 ↔ p.tracing = false ∨ m.ptr = 0) ∧
      (¬ (p.tracing = false ∨ m.ptr = 0) → Undone x.val p r.2) := by
  by_cases hidle : p.tracing = false ∨ m.ptr = 0
  · refine ⟨iff_of_true ?_ hidle, fun hno => absurd hidle hno⟩
    have h1 : r1 = (k, p) := by
      rcases processFree_cases hr1 with ⟨-, rfl⟩ | ⟨ht, hz, -⟩
      · rfl
      · rcases hidle with h0 | h0
        · rw [ht] at h0; cases h0
        · exact absurd h0 hz
    subst h1
    have h2 : r = (k, p) := by
      rcases processReallocDone_cases hr with ⟨-, rfl⟩ | ⟨-, before, re, after, hf, -⟩
      · rfl
      · obtain ⟨hlist, hpid, -⟩ := findRealloc_eq_some hf
        refine absurd (hpid.trans (hm'.2 ▸ rfl)) (hpend re ?_)
        rw [hlist]
        simp
    subst h2
    exact ⟨.refl _, rfl, fun _ _ => rfl, rfl⟩
  · have hidle' := not_or.mp hidle
    have hun := undone_of_failed h (Bool.not_eq_false _ ▸ hidle'.1) hidle'.2 hs hpend hr1 hm' hr
    refine ⟨iff_of_false (fun hres => ?_) hidle, fun _ => hun⟩
    -- the node of the block has one allocation more
    obtain ⟨n, hn⟩ := h.deref_block (mem_of_find hs)
    have hnode := (Process.deref_eq_ok.mp hn).1
    have hne : p.node? x.val.stackNode ≠ none := by rw [hnode]; exact Option.some_ne_none _
    have hsame := (hun.books _ hne).symm.trans (hres.books _ hne)
    rw [if_pos rfl, Process.books, hnode] at hsame
    have htotal := congrArg Books.totalAllocations (Option.some.inj hsame)
    replace htotal : n.totalAllocations + 1 = n.totalAllocations := htotal
    rw [add_eq_left] at htotal
    exact absurd htotal (by decide)

/-- The `realloc` of the only block of a process fails in thread 7. -/
theorem mallocState_failed : Reachable plainOptions plainEnv true mallocState ∧
    ∃ p ∈ mallocState.processes, p.tracing = true ∧ p.reallocList = [] ∧
      ∃ x r1 r, processRbSearch p.blockTable 0x602010 = some x ∧
        processFree plainOptions plainEnv mallocState.heap p .reallocEnter ⟨0x602010, 7, []⟩ =
          .ok r1 ∧
        processReallocDone plainOptions r1.1 r1.2 ⟨0, 7, []⟩ = .ok r ∧
        p.bytesUsed = 16 ∧ r.2.bytesUsed = 0 :=
  ⟨reachable_stateAfter _, _, List.mem_singleton_self _, rfl, rfl, _, _, _, rfl, rfl, rfl, rfl, rfl⟩

theorem failed_realloc_restores_malloc : ∃ p ∈ mallocState.processes, ∃ x r1 r,
    processFree plainOptions plainEnv mallocState.heap p .reallocEnter ⟨0x602010, 7, []⟩ = .ok r1 ∧
      processReallocDone plainOptions r1.1 r1.2 ⟨0, 7, []⟩ = .ok r ∧ Undone x p r.2 := by
  obtain ⟨hreach, p, hp, ht, hlist, x, r1, r, hs, hr1, hr, -⟩ := mallocState_failed
  refine ⟨p, hp, x.val, r1, r, hr1, hr, ?_⟩
  have hsame : (MtAllocPayload.mk 0 7 []).ptr = 0 ∧
      (MtAllocPayload.mk 0 7 []).size = (MtAllocPayload.mk 0x602010 7 []).size := ⟨rfl, rfl⟩
  refine (failed_realloc_restores_iff (m := ⟨0x602010, 7, []⟩)
    ((Reach.accounted hreach).owned p hp) hs (fun re hre => ?_) hr1 hsame hr).2 ?_
  · rw [hlist] at hre
    cases hre
  · rw [ht]
    decide

/-- The bytes of the block are not counted any more, although the block is back. -/
theorem failed_realloc_loses_bytes : Reachable plainOptions plainEnv true mallocState ∧
    ∃ p ∈ mallocState.processes, p.reallocList = [] ∧
      ∃ x r1 r, processRbSearch p.blockTable 0x602010 = some x ∧
        processFree plainOptions plainEnv mallocState.heap p .reallocEnter ⟨0x602010, 7, []⟩ =
          .ok r1 ∧
        processReallocDone plainOptions r1.1 r1.2 ⟨0, 7, []⟩ = .ok r ∧ ¬ Restored p r.2 := by
  obtain ⟨hreach, p, hp, -, hlist, x, r1, r, hs, hr1, hr, hbytes, hbytes'⟩ := mallocState_failed
  refine ⟨hreach, p, hp, hlist, x, r1, r, hs, hr1, hr, fun hres => ?_⟩
  have heq := congrArg Totals.bytesUsed hres.totals
  replace heq : r.2.bytesUsed = p.bytesUsed := heq
  rw [hbytes, hbytes'] at heq
  exact absurd heq (by decide)

end Undo

end Mtrace.Client
