import Mtrace.Client.Ownership

/-!
# Resets, forks and dumps

The functions that walk over all blocks, all pending `realloc` calls or all nodes of a record.
From an accounted record each has an outcome in closed form: `process_reset_allocations` always
returns, `process_reset` returns unless a dump holds a node, and a dump takes and returns exactly
the references of its array.
-/

namespace Mtrace.Client

open RbTree Machine

/-! ## Walks over references -/

namespace Process

/-- A write to all nodes. -/
def mapNodes (p : Process) (f : RbStack → RbStack) : Process :=
  { p with stackTable := p.stackTable.map f }

theorem nodes_mapNodes (p : Process) (f : RbStack → RbStack) :
    (p.mapNodes f).nodes = p.nodes.map f := toList_map _ _

theorem mapNodes_id {p : Process} {f : RbStack → RbStack} (hf : ∀ n, f n = n) :
    p.mapNodes f = p := by
  have hmap : ∀ t : RbRoot RbStack, t.map f = t := by
    intro t
    induction t with
    | nil => rfl
    | node c l v r ihl ihr => rw [RbRoot.map, ihl, ihr, hf]
  rw [mapNodes, hmap]

end Process

theorem Refs.deref {k : Stacks} {p : Process} {R : NodeId → ℕ} {rest : StackId → ℕ}
    (h : Refs k p.nodes R rest) {i : NodeId} (hi : i ∈ p.nodes.map (·.id)) :
    ∃ n ∈ p.nodes, n.id = i ∧ p.deref i = .ok n := by
  obtain ⟨n, hn, rfl⟩ := List.mem_map.mp hi
  have hr := h.refcnt n hn
  exact ⟨n, hn, rfl, Process.deref_eq_ok.mpr ⟨node?_of_mem h.nodup hn, by omega⟩⟩

/-- A node with another reference counter. -/
def RbStack.withRefs (c : ℕ) (n : RbStack) : RbStack := { n with refcnt := c }

/-- Two records that differ in the reference counters of their nodes only. -/
def Rerefs (p p' : Process) : Prop :=
  ∃ c : RbStack → ℕ, p' = p.mapNodes fun n => n.withRefs (c n)

namespace Rerefs

theorem refl (p : Process) : Rerefs p p :=
  ⟨fun n => n.refcnt, (Process.mapNodes_id fun _ => rfl).symm⟩

theorem trans {p p' p'' : Process} : Rerefs p p' → Rerefs p' p'' → Rerefs p p'' := by
  rintro ⟨c, rfl⟩ ⟨c', rfl⟩
  refine ⟨fun n => c' (n.withRefs (c n)), ?_⟩
  unfold Process.mapNodes
  rw [RbRoot.map_map]
  rfl

theorem modifyNode (p : Process) (i : NodeId) (c : RbStack → ℕ) :
    Rerefs p (p.modifyNode i fun n => n.withRefs (c n)) := by
  refine ⟨fun n => if n.id = i then c n else n.refcnt, ?_⟩
  unfold Process.mapNodes Process.modifyNode
  congr 2
  funext n
  by_cases hn : n.id = i
  · simp only [hn, if_true]
  · simp only [hn, if_false, RbStack.withRefs]

theorem map_id {p p' : Process} : Rerefs p p' → p'.nodes.map (·.id) = p.nodes.map (·.id) := by
  rintro ⟨c, rfl⟩
  rw [Process.nodes_mapNodes, List.map_map]
  rfl

end Rerefs

section Walks

variable {k : Stacks} {p : Process} {R : NodeId → ℕ} {rest : StackId → ℕ}

theorem stackGet_refs (h : Refs k p.nodes R rest) {i : NodeId} (hi : i ∈ p.nodes.map (·.id)) :
    ∃ k' p', stackGet k p i = .ok (k', p') ∧ Rerefs p p' ∧
      Refs k' p'.nodes (fun j => R j + if i = j then 1 else 0) rest := by
  obtain ⟨n, hmem, rfl, hn⟩ := h.deref hi
  refine ⟨_, _, stackGet_eq_ok.mpr ⟨n, hn, rfl⟩, .modifyNode p n.id fun n => n.refcnt + 1, ?_⟩
  rw [Process.nodes_modifyNode]
  exact h.get (f := fun n => { n with refcnt := n.refcnt + 1 }) hmem (fun _ => rfl) (fun _ => rfl)
    rfl fun _ => rfl

theorem stackPut_refs {i : NodeId}
    (h : Refs k p.nodes (fun j => R j + if i = j then 1 else 0) rest) :
    ∃ k' p', stackPut k p i = .ok (k', p') ∧ Rerefs p p' ∧ Refs k' p'.nodes R rest := by
  obtain ⟨n, hmem, rfl, hn⟩ := h.deref (h.held i (by simp))
  refine ⟨_, _, stackPut_eq_ok.mpr ⟨n, hn, rfl⟩, .modifyNode p n.id fun n => n.refcnt - 1, ?_⟩
  rw [Process.nodes_modifyNode]
  exact h.put (f := fun n => { n with refcnt := n.refcnt - 1 }) hmem (fun _ => rfl) (fun _ => rfl)
    rfl fun _ => rfl

theorem dumpGet_refs (is : List NodeId) (h : Refs k p.nodes R rest)
    (his : ∀ i ∈ is, i ∈ p.nodes.map (·.id)) :
    ∃ k' p', dumpGet is k p = .ok (k', p') ∧ Rerefs p p' ∧
      Refs k' p'.nodes (fun i => R i + is.count i) rest := by
  induction is generalizing k p R with
  | nil => exact ⟨k, p, rfl, .refl p, h⟩
  | cons i is ih =>
    obtain ⟨k1, p1, h1, hre1, hrefs1⟩ := stackGet_refs h (his i (List.mem_cons_self ..))
    obtain ⟨k2, p2, h2, hre2, hrefs2⟩ := ih hrefs1 fun j hj => by
      rw [hre1.map_id]; exact his j (List.mem_cons_of_mem _ hj)
    refine ⟨k2, p2, ?_, hre1.trans hre2, hrefs2.congr fun j => ?_⟩
    · rw [dumpGet, h1]; exact h2
    · rw [List.count_cons]
      simp only [beq_iff_eq]
      omega

theorem dumpPut_refs {is : List NodeId} (h : Refs k p.nodes (fun i => R i + is.count i) rest) :
    ∃ k' p', dumpPut is k p = .ok (k', p') ∧ Rerefs p p' ∧ Refs k' p'.nodes R rest := by
  induction is generalizing k p R with
  | nil => exact ⟨k, p, rfl, .refl p, h⟩
  | cons i is ih =>
    have h' : Refs k p.nodes (fun j => (R j + is.count j) + if i = j then 1 else 0) rest :=
      h.congr fun j => by
        rw [List.count_cons]
        simp only [beq_iff_eq]
        omega
    obtain ⟨k1, p1, h1, hre1, hrefs1⟩ := stackPut_refs h'
    obtain ⟨k2, p2, h2, hre2, hrefs2⟩ := ih hrefs1
    refine ⟨k2, p2, ?_, hre1.trans hre2, hrefs2⟩
    rw [dumpPut, h1]; exact h2

/-- A node that loses `c` of its allocations. -/
def RbStack.uncount (c : ℕ) (n : RbStack) : RbStack :=
  { n with nAllocations := n.nAllocations - UInt64.ofNat c }

theorem RbStack.uncount_zero (n : RbStack) : n.uncount 0 = n := by simp [RbStack.uncount]

theorem sub_ofNat_succ (a : UInt64) (m : ℕ) :
    a - UInt64.ofNat 1 - UInt64.ofNat m = a - UInt64.ofNat (m + 1) := by
  rw [UInt64.ofNat_add]; grind

/-- `p'` is the record `p` after the walk of `process_reset_allocations` over the blocks `bs`. -/
def Process.Uncounted (p : Process) (bs : List RbBlock) (p' : Process) : Prop :=
  ∃ c : RbStack → ℕ, p' =
    { p.mapNodes fun n => (n.uncount (blockRefs bs n.id)).withRefs (c n) with
      nAllocations := p.nAllocations - UInt64.ofNat bs.length }

theorem resetBlocks_refs {bs : List RbBlock}
    (h : Refs k p.nodes (fun i => R i + blockRefs bs i) rest) :
    ∃ k' p', resetBlocks bs k p = .ok (k', p') ∧ p.Uncounted bs p' ∧ Refs k' p'.nodes R rest := by
  induction bs generalizing k p R with
  | nil =>
    refine ⟨k, p, rfl, ⟨fun n => n.refcnt, ?_⟩, h⟩
    rw [Process.mapNodes_id fun n => by rw [blockRefs_nil, RbStack.uncount_zero]; rfl]
    simp
  | cons b bs ih =>
    -- the two counters are written before the reference is dropped
    let q : Process := Process.modifyNode { p with nAllocations := p.nAllocations - 1 } b.stackNode
      (·.uncount 1)
    have hq : q.nodes = p.nodes.map (onNode b.stackNode (·.uncount 1)) :=
      Process.nodes_modifyNode ..
    have hrefs : Refs k q.nodes
        (fun i => (R i + blockRefs bs i) + if b.stackNode = i then 1 else 0) rest := by
      rw [hq]
      refine (h.map (f := onNode b.stackNode (·.uncount 1)) (onNode_id fun _ => rfl) (fun n => ?_)
        fun n => ?_).congr fun i => ?_
      · unfold onNode; split <;> rfl
      · unfold onNode; split <;> rfl
      · rw [blockRefs_cons]; omega
    obtain ⟨k1, p1, h1, ⟨c1, hp1⟩, hrefs1⟩ := stackPut_refs hrefs
    obtain ⟨k2, p2, h2, ⟨c2, hp2⟩, hrefs2⟩ := ih hrefs1
    refine ⟨k2, p2, ?_, ?_, hrefs2⟩
    · show (stackPut k q b.stackNode >>= _) = _
      rw [h1]; exact h2
    · subst hp1
      let g (n : RbStack) : RbStack := onNode b.stackNode (·.uncount 1) n
      refine ⟨fun n => c2 ((g n).withRefs (c1 (g n))), hp2.trans ?_⟩
      have hn : (q.mapNodes fun n => n.withRefs (c1 n)).nAllocations =
        p.nAllocations - UInt64.ofNat 1 := rfl
      rw [hn, List.length_cons, sub_ofNat_succ]
      unfold Process.mapNodes
      simp only [q, Process.modifyNode, RbRoot.map_map]
      refine congrArg (fun f => { p with
        nAllocations := p.nAllocations - UInt64.ofNat (bs.length + 1)
        stackTable := p.stackTable.map f }) (funext fun n => ?_)
      rw [blockRefs_cons]
      by_cases hb : n.id = b.stackNode
      · simp only [g, onNode, hb, if_true, RbStack.withRefs, RbStack.uncount, sub_ofNat_succ]
      · simp only [g, onNode, hb, Ne.symm hb, if_false, Nat.add_zero, RbStack.withRefs,
          RbStack.uncount]

theorem resetReallocs_refs {res : List ReallocEntry} (hp : p.reallocList = res)
    (h : Refs k p.nodes (fun i => R i + reallocRefs res i) rest) :
    ∃ k' p', resetReallocs res k p = .ok (k', p') ∧ Rerefs { p with reallocList := [] } p' ∧
      Refs k' p'.nodes R rest := by
  induction res generalizing k p R with
  | nil => exact ⟨k, p, rfl, hp ▸ .refl p, h⟩
  | cons re res ih =>
    rcases hi : re.stackNode with _ | i
    · have h' : Refs k p.nodes (fun j => R j + reallocRefs res j) rest :=
        h.congr fun j => by simp [hi]
      obtain ⟨k', p', h1, hre, hrefs⟩ := ih (k := k) (p := { p with reallocList := res }) rfl h'
      refine ⟨k', p', ?_, hre, hrefs⟩
      rw [resetReallocs, reallocDel, hi]
      exact h1
    · have h' : Refs k p.nodes (fun j => (R j + reallocRefs res j) + if i = j then 1 else 0) rest :=
        h.congr fun j => by simp only [reallocRefs_cons, hi, Option.some.injEq]; omega
      obtain ⟨k1, p1, h1, hre1, hrefs1⟩ := stackPut_refs h'
      obtain ⟨k2, p2, h2, hre2, hrefs2⟩ := ih (k := k1) (p := { p1 with reallocList := res }) rfl
        hrefs1
      refine ⟨k2, p2, ?_, ?_, hrefs2⟩
      · rw [resetReallocs, reallocDel, hi]
        dsimp only
        rw [h1]
        exact h2
      · obtain ⟨c, rfl⟩ := hre1
        exact Rerefs.trans ⟨c, rfl⟩ hre2

/-- The nodes in the middle of `process_reset`: those of `is` are still alive, the others are
freed. -/
structure Freeing (k : Stacks) (ns : List RbStack) (is : List NodeId) (R : NodeId → ℕ)
    (rest : StackId → ℕ) : Prop where
  nodup : (ns.map (·.id)).Nodup
  refcnt : ∀ n ∈ ns, n.refcnt = if n.id ∈ is then 1 + R n.id else 0
  mem : ∀ i ∈ is, i ∈ ns.map (·.id)
  shared : ∀ s, k.refcnt s = stackRefs ns s + rest s

theorem Freeing.put {n : RbStack} {is : List NodeId} (h : Freeing k p.nodes (n.id :: is) R rest)
    (hnd : n.id ∉ is) (hn : n ∈ p.nodes) (hr : n.refcnt = 1) :
    Freeing (k.put n.stack.id)
      (p.nodes.map (onNode n.id fun n => { n with refcnt := n.refcnt - 1 })) is R rest where
  nodup := by
    rw [map_id_onNode (f := fun n => { n with refcnt := n.refcnt - 1 }) fun _ => rfl]
    exact h.nodup
  refcnt m' hm' := by
    obtain ⟨m, hm, rfl⟩ := List.mem_map.mp hm'
    have hrm := h.refcnt m hm
    unfold onNode
    by_cases hmn : m.id = n.id
    · rw [if_pos hmn]
      have hmeq : m = n := List.inj_on_of_nodup_map h.nodup hm hn hmn
      subst hmeq
      rw [if_neg hnd]
      show m.refcnt - 1 = 0
      omega
    · rw [if_neg hmn, hrm]
      simp [hmn]
  mem i hi := by
    rw [map_id_onNode (f := fun n => { n with refcnt := n.refcnt - 1 }) fun _ => rfl]
    exact h.mem i (List.mem_cons_of_mem _ hi)
  shared s := by
    have hst := stackRefs_onNode (f := fun n => { n with refcnt := n.refcnt - 1 }) (fun _ => rfl)
      h.nodup hn s
    have hsh := h.shared s
    have hle := refcnt_le_stackRefs hn
    rw [Stacks.refcnt_put]
    by_cases hs : n.stack.id = s
    · subst hs
      simp only [if_true] at hst ⊢
      omega
    · simp only [hs, if_false] at hst ⊢
      omega

theorem resetStacks_ends {is : List NodeId} (hnd : is.Nodup) (h : Freeing k p.nodes is R rest) :
    ((∃ i ∈ is, R i ≠ 0) ∧
        resetStacks is k p = .error (.fatal "unexpected stack tree ref count!\n")) ∨
      (∀ i ∈ is, R i = 0) ∧ ∃ k' t, resetStacks is k p =
          .ok (k', { p with stackTable := t, stackTrees := p.stackTrees - is.length }) ∧
        (∀ s, k'.refcnt s = rest s) ∧ k'.next = k.next ∧ ∀ n ∈ t.toList, n.refcnt = 0 := by
  induction is generalizing k p with
  | nil =>
    refine .inr ⟨by simp, k, p.stackTable, rfl, fun s => ?_, rfl, fun n hn => by
      simpa using h.refcnt n hn⟩
    have hzero : stackRefs p.nodes s = 0 := by
      have hmap : (p.nodes.map fun n => if n.stack.id = s then n.refcnt else 0) =
          p.nodes.map fun _ => 0 :=
        List.map_congr_left fun n hn => by rw [h.refcnt n hn]; simp
      simp [stackRefs, hmap]
    rw [h.shared, hzero, Nat.zero_add]
  | cons i is ih =>
    obtain ⟨n, hn, rfl⟩ := List.mem_map.mp (h.mem i (List.mem_cons_self ..))
    obtain ⟨hni, hnd'⟩ := List.nodup_cons.mp hnd
    have hr : n.refcnt = 1 + R n.id := by rw [h.refcnt n hn]; simp
    have hd : p.deref n.id = .ok n :=
      Process.deref_eq_ok.mpr ⟨node?_of_mem h.nodup hn, by omega⟩
    by_cases hR : R n.id = 0
    · have hr1 : n.refcnt = 1 := by omega
      have hstep : resetStacks (n.id :: is) k p = resetStacks is (k.put n.stack.id)
          { p.modifyNode n.id fun n => { n with refcnt := n.refcnt - 1 } with
            stackTrees := p.stackTrees - 1 } := by
        rw [resetStacks, hd]
        show (if n.refcnt ≠ 1 then _ else _) = _
        rw [if_neg (not_not.mpr hr1), stackPut_eq_ok.mpr ⟨n, hd, rfl⟩]
        rfl
      have hput := h.put hni hn hr1
      rw [hstep]
      rcases ih (k := k.put n.stack.id)
          (p := { p.modifyNode n.id fun n => { n with refcnt := n.refcnt - 1 } with
            stackTrees := p.stackTrees - 1 }) hnd'
          (by rw [show Process.nodes _ = _ from Process.nodes_modifyNode p n.id _]; exact hput) with
        ⟨⟨j, hj, hRj⟩, herr⟩ | ⟨hall, k', t, hok, hrest⟩
      · exact .inl ⟨⟨j, List.mem_cons_of_mem _ hj, hRj⟩, herr⟩
      · refine .inr ⟨fun j hj => ?_, k', t, hok.trans ?_, hrest⟩
        · rcases List.mem_cons.mp hj with rfl | hj
          · exact hR
          · exact hall j hj
        · rw [List.length_cons, Nat.sub_sub, Nat.add_comm 1]
          rfl
    · refine .inl ⟨⟨n.id, List.mem_cons_self .., hR⟩, ?_⟩
      rw [resetStacks, hd]
      show (if n.refcnt ≠ 1 then _ else _) = _
      rw [if_pos (by omega)]

end Walks

/-! ## The functions -/

theorem blockRefs_postorder (p : Process) (i : NodeId) :
    blockRefs p.blockTable.postorder i = blockRefs p.blocks i :=
  (postorder_perm p.blockTable).countP_eq _

namespace Process

/-- The counter of the open allocations counts them. -/
def Counted (p : Process) : Prop := p.nAllocations = UInt64.ofNat p.blocks.length

/-- `p'` is the record `p` after `process_reset_allocations`. -/
def Emptied (p p' : Process) : Prop :=
  ∃ c : RbStack → ℕ, p' =
    { p.mapNodes fun n => (n.uncount (blockRefs p.blocks n.id)).withRefs (c n) with
      blockTable := .nil, reallocList := [], nAllocations := 0, totalAllocations := 0,
      bytesUsed := 0, leaks := 0, leakedBytes := 0, tsc := 0 }

theorem Emptied.nodes_eq {p p' : Process} (h : p.Emptied p') : ∃ c : RbStack → ℕ,
    p'.nodes = p.nodes.map fun n => (n.uncount (blockRefs p.blocks n.id)).withRefs (c n) := by
  obtain ⟨c, rfl⟩ := h
  exact ⟨c, toList_map _ _⟩

/-- The record `p` after `process_reset`. -/
def cleared (p : Process) : Process :=
  { p with
    blockTable := .nil, stackTable := .nil, reallocList := [], mapList := [], filename := none,
    nAllocations := 0, totalAllocations := 0, bytesUsed := 0, leaks := 0, leakedBytes := 0,
    tsc := 0, stackTrees := 0 }

end Process

section Functions

variable {k : Stacks} {p : Process} {ext : NodeId → ℕ} {rest : StackId → ℕ}

theorem Owned.emptied {k' : Stacks} {p' : Process} (h : Owned k p ext rest) (hem : p.Emptied p')
    (hrefs : Refs k' p'.nodes ext rest) : Owned k' p' ext rest := by
  obtain ⟨c, hnodes⟩ := hem.nodes_eq
  obtain ⟨_, rfl⟩ := hem
  refine ⟨hrefs.congr fun i => Nat.zero_add _, fun n hn => ?_, ?_, fun re hre => by cases hre⟩
  · rw [hnodes] at hn
    obtain ⟨m, hm, rfl⟩ := List.mem_map.mp hn
    exact h.fresh m hm
  · rw [hnodes, List.length_map]
    exact h.trees

theorem Owned.processResetAllocations_ok (h : Owned k p ext rest) (hc : p.Counted) :
    ∃ k' p', processResetAllocations k p = .ok (k', p') ∧ p.Emptied p' ∧ Owned k' p' ext rest := by
  have hrefs : Refs k p.nodes
      (fun i => (ext i + reallocRefs p.reallocList i) + blockRefs p.blockTable.postorder i) rest :=
    h.refs.congr fun i => by rw [blockRefs_postorder, Process.refs]; omega
  obtain ⟨k1, p1, h1, ⟨c1, hp1⟩, hrefs1⟩ := resetBlocks_refs hrefs
  have hlen : p.blockTable.postorder.length = p.blocks.length :=
    (postorder_perm p.blockTable).length_eq
  have hzero : p1.nAllocations = 0 := by
    rw [hp1, hlen, hc]; simp
  obtain ⟨k2, p2, h2, ⟨c2, hp2⟩, hrefs2⟩ :=
    resetReallocs_refs (k := k1) (p := { p1 with blockTable := .nil }) rfl (R := ext)
      (by rw [show p1.reallocList = p.reallocList by rw [hp1]; rfl]; exact hrefs1)
  have hem : p.Emptied { p2 with
      totalAllocations := 0, bytesUsed := 0, leaks := 0, leakedBytes := 0, tsc := 0 } := by
    refine ⟨fun n => c2 ((n.uncount (blockRefs p.blocks n.id)).withRefs (c1 n)), ?_⟩
    subst hp2
    subst hp1
    simp only [Process.mapNodes, RbRoot.map_map, blockRefs_postorder] at hzero ⊢
    rw [hzero]
    rfl
  refine ⟨k2, _, ?_, hem, ?_⟩
  · rw [processResetAllocations, h1]
    show (if p1.nAllocations ≠ 0 then _ else _) = _
    rw [if_neg (not_not.mpr hzero)]
    show (resetReallocs p1.reallocList k1 { p1 with blockTable := .nil } >>= _) = _
    rw [h2]
    rfl
  · exact h.emptied hem hrefs2

theorem Process.Emptied.refs_eq {p' : Process} (h : p.Emptied p') (i : NodeId) : p'.refs i = 0 := by
  obtain ⟨_, rfl⟩ := h
  rfl

theorem perm_postorder_id (p : Process) :
    (p.stackTable.postorder.map (·.id)).Perm (p.nodes.map (·.id)) :=
  (postorder_perm p.stackTable).map RbStack.id

/-- Without blocks and pending `realloc` calls the walk of `process_reset` can begin. -/
theorem Owned.freeing (h : Owned k p ext rest) (hrefs : ∀ i, p.refs i = 0) :
    (p.stackTable.postorder.map (·.id)).Nodup ∧
      Freeing k p.nodes (p.stackTable.postorder.map (·.id)) ext rest := by
  have hperm := perm_postorder_id p
  refine ⟨hperm.nodup_iff.mpr h.refs.nodup, h.refs.nodup, fun n hn => ?_,
    fun i hi => hperm.mem_iff.mp hi, h.refs.shared⟩
  rw [if_pos (hperm.mem_iff.mpr (List.mem_map_of_mem hn)), h.refs.refcnt n hn, hrefs, Nat.zero_add]

/-- `process_reset` returns unless somebody holds a node beyond the record itself. -/
theorem Owned.processReset_ends (h : Owned k p ext rest) (hc : p.Counted) :
    ((∃ n ∈ p.nodes, ext n.id ≠ 0) ∧
        processReset k p = .error (.fatal "unexpected stack tree ref count!\n")) ∨
      (∀ n ∈ p.nodes, ext n.id = 0) ∧ ∃ k', processReset k p = .ok (k', p.cleared) ∧
        Owned k' p.cleared ext rest := by
  obtain ⟨k1, p1, h1, hem, ho⟩ := h.processResetAllocations_ok hc
  obtain ⟨c, hnodes⟩ := hem.nodes_eq
  have hids : p1.nodes.map (·.id) = p.nodes.map (·.id) := by rw [hnodes, List.map_map]; rfl
  have hperm : (p1.stackTable.postorder.map (·.id)).Perm (p.nodes.map (·.id)) :=
    hids ▸ perm_postorder_id p1
  obtain ⟨hnd, hF⟩ := ho.freeing hem.refs_eq
  have hreset : processReset k p = (resetStacks (p1.stackTable.postorder.map (·.id)) k1 p1 >>=
      fun r => if r.2.stackTrees ≠ 0 then .error (.fatal "invalid stack tree count!\n")
        else .ok (r.1, { r.2 with stackTable := .nil, mapList := [], filename := none })) := by
    rw [processReset, h1]; rfl
  rcases resetStacks_ends hnd hF with ⟨⟨i, hi, hne⟩, herr⟩ | ⟨hall, k', t, hok, hk', hnext, -⟩
  · obtain ⟨n, hn, rfl⟩ := List.mem_map.mp (hperm.mem_iff.mp hi)
    exact .inl ⟨⟨n, hn, hne⟩, by rw [hreset, herr]; rfl⟩
  · have hext : ∀ i, ext i = 0 := fun i => by
      by_contra hne
      have hi := h.refs.held i (by omega)
      exact hne (hall i (hperm.mem_iff.mpr hi))
    refine .inr ⟨fun n _ => hext n.id, k', ?_, ?_⟩
    · have hlen : p1.stackTrees - (p1.stackTable.postorder.map (·.id)).length = 0 := by
        rw [ho.trees, hperm.length_eq, ← hids, List.length_map, Nat.sub_self]
      rw [hreset, hok]
      show (if p1.stackTrees - _ ≠ 0 then _ else _) = _
      rw [if_neg (not_not.mpr hlen)]
      obtain ⟨_, rfl⟩ := hem
      simp only [hlen]
      rfl
    · refine ⟨⟨List.nodup_nil, fun n hn => (by cases hn), fun i hi => ?_, fun s => ?_,
        fun s hs => ?_⟩, fun n hn => (by cases hn), rfl, fun re hre => (by cases hre)⟩
      · exact absurd ((Nat.zero_add _).trans (hext i)) hi
      · rw [hk' s]; exact (Nat.zero_add _).symm
      · have hz := ho.refs.unborn s (hnext ▸ hs)
        rw [ho.refs.shared] at hz
        rw [hk' s]
        omega

theorem Owned.copyBlock {b : RbBlock} {i : NodeId} {n : RbStack} (h : Owned k p ext rest)
    (hn : p.deref i = .ok n) : Owned (k.get n.stack.id) (p.copyBlock b i) ext rest :=
  (h.addBlock (b := { b with stackNode := i }) hn).of_eq rfl rfl rfl rfl rfl

/-- `stack_clone` of a node whose `struct stack` is alive. -/
theorem Owned.stackClone {m : RbStack} {k' : Stacks} {p' : Process} {i : NodeId}
    (h : Owned k p ext rest) (hborn : m.stack.id < k.next)
    (hcl : stackClone k p m = (k', p', i)) :
    Owned k' p' ext rest ∧ k'.next = k.next ∧ ∃ n, p'.deref i = .ok n := by
  rcases stackClone_cases k p m with ⟨x, hf, heq⟩ | ⟨hf, heq⟩
  · cases heq.symm.trans hcl
    exact ⟨h, rfl, x.val, h.deref_of_mem (mem_of_find hf)⟩
  · cases heq.symm.trans hcl
    have ho : Owned (k.get m.stack.id) (p.linkNode { m with id := p.nextNode, refcnt := 1 })
        ext rest := by
      refine h.linkNode hf rfl rfl (Stacks.refcnt_get k _) fun s hs => ?_
      have hlt : m.stack.id < s := Nat.lt_of_lt_of_le hborn hs
      rw [Stacks.refcnt_get, h.refs.unborn s hs, if_neg (Nat.ne_of_lt hlt)]
    obtain ⟨as, bs, -, hp'⟩ := nodes_linkNode (n := { m with id := p.nextNode, refcnt := 1 }) hf
    exact ⟨ho, rfl, _, ho.deref_of_mem (hp' ▸ List.mem_append_right as (List.mem_cons_self ..))⟩

theorem Owned.duplicateBlocks_ends {o : Options} {copy : Process} {bs : List RbBlock}
    (h : Owned k p ext rest)
    (hbs : ∀ b ∈ bs, ∃ n, copy.deref b.stackNode = .ok n ∧ n.stack.id < k.next) :
    Ends (Killed o) (fun r => Owned r.1 r.2 ext rest) (duplicateBlocks o copy bs k p) := by
  induction bs generalizing k p with
  | nil => exact h
  | cons b bs ih =>
    obtain ⟨m, hm, hborn⟩ := hbs b (List.mem_cons_self ..)
    rcases hcl : Client.stackClone k p m with ⟨k1, p1, i⟩
    obtain ⟨ho1, hnext, n1, hn1⟩ := h.stackClone hborn hcl
    refine Ends.bind (Q := fun r => Owned r.1 r.2 ext rest ∧ r.1.next = k.next) ?_
      fun r _ hr => ?_
    · have heq : processRbDuplicateBlock o copy k p b =
          (processRbInsertBlock o k1 p1 b.addr b.size i b.flags >>= fun r =>
            .ok (r.1, { r.2 with bytesUsed := r.2.bytesUsed + b.size })) := by
        rw [processRbDuplicateBlock, hm]
        dsimp only [bind, Except.bind]
        rw [hcl]
        rfl
      rw [heq]
      refine (processRbInsertBlock_ends hn1).bind fun r1 h1 _ => ?_
      obtain ⟨-, n1', hn1', rfl⟩ := processRbInsertBlock_eq_ok.mp h1
      exact ⟨ho1.copyBlock hn1', hnext⟩
    · refine ih hr.1 fun b' hb' => ?_
      obtain ⟨n, hn, hlt⟩ := hbs b' (List.mem_cons_of_mem _ hb')
      exact ⟨n, hn, hr.2 ▸ hlt⟩

/-- Other counters on the same nodes, accounted for by other references. -/
theorem Owned.rerefs {k' : Stacks} {p' : Process} {ext' : NodeId → ℕ} (h : Owned k p ext rest)
    (hre : Rerefs p p') (hrefs : Refs k' p'.nodes (fun i => p.refs i + ext' i) rest) :
    Owned k' p' ext' rest := by
  obtain ⟨c, rfl⟩ := hre
  refine ⟨hrefs, fun n hn => ?_, ?_, h.restorable⟩
  · rw [Process.nodes_mapNodes] at hn
    obtain ⟨m, hm, rfl⟩ := List.mem_map.mp hn
    exact h.fresh m hm
  · rw [Process.nodes_mapNodes, List.length_map]
    exact h.trees

/-- The references a dump takes are the ones it holds. -/
theorem Owned.dumpBegin_ok (h : Owned k p ext rest) : ∃ k' p' arr,
    dumpBegin k p = .ok (k', p', arr) ∧ Rerefs p p' ∧
      Owned k' p' (fun i => ext i + arr.count i) rest := by
  unfold dumpBegin
  split
  · exact ⟨k, p, [], rfl, .refl p, h⟩
  · obtain ⟨k', p', h1, hre, hrefs⟩ := dumpGet_refs (p.nodes.map (·.id)) h.refs fun i hi => hi
    refine ⟨k', p', p.nodes.map (·.id), ?_, hre, ?_⟩
    · dsimp only
      rw [h1]
      obtain ⟨c, rfl⟩ := hre
      show (if p.stackTrees ≠ _ then _ else _) = _
      rw [if_neg (by rw [h.trees, List.length_map]; exact fun hne => hne rfl)]
    · exact h.rerefs hre (hrefs.congr fun i => by simp only [Process.refs]; omega)

theorem Owned.dumpPut_ok {arr : List NodeId} (h : Owned k p (fun i => ext i + arr.count i) rest) :
    ∃ k' p', dumpPut arr k p = .ok (k', p') ∧ Rerefs p p' ∧ Owned k' p' ext rest := by
  obtain ⟨k', p', h1, hre, hrefs⟩ := dumpPut_refs (R := fun i => p.refs i + ext i)
    (h.refs.congr fun i => Nat.add_assoc ..)
  exact ⟨k', p', h1, hre, h.rerefs hre hrefs⟩

/-- A dump to a file returns and changes nothing. -/
theorem Owned.processDumpSortby_ok (h : Owned k p ext rest) : ∃ k' p',
    processDumpSortby k p = .ok (k', p') ∧ Rerefs p p' ∧ Owned k' p' ext rest := by
  obtain ⟨k1, p1, arr, h1, hre1, ho1⟩ := h.dumpBegin_ok
  obtain ⟨k2, p2, h2, hre2, ho2⟩ := ho1.dumpPut_ok
  refine ⟨k2, p2, ?_, hre1.trans hre2, ho2⟩
  rw [processDumpSortby, h1]
  exact h2

end Functions

end Mtrace.Client
