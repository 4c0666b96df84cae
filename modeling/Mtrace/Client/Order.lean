import Mtrace.Client.Statistics

/-!
# The order of the block table

The blocks of a record stand in the order of their addresses, which all searches in the table rely
on.  Insertions and removals keep the order; `process_munmap` does not always, because it moves the
beginning of a block in place, past other blocks if there are any.
-/

namespace Mtrace.Client

open RbTree Machine

/-- The blocks stand in the order of their addresses, no two at the same one. -/
def Process.Ordered (p : Process) : Prop := p.blocks.Pairwise fun b b' => b.addr < b'.addr

/-! ## Searches -/

section Searches

variable {bs : List RbBlock} {p : Process}

theorem monoCut_insertCut (h : bs.Pairwise fun b b' => b.addr < b'.addr) (addr : UInt64) :
    MonoCut (insertCut addr) bs := by
  refine h.imp fun {b b'} hlt => ?_
  rw [UInt64.lt_iff_toNat_lt] at hlt
  have hif : insertCut addr b' ≠ .lt → insertCut addr b = .gt := by
    unfold insertCut
    simp only [UInt64.lt_iff_toNat_lt]
    split
    · exact fun hne => absurd rfl hne
    · rw [if_neg (by omega)]; exact fun _ => rfl
  exact ⟨fun hne => by rw [hif hne]; decide, fun hgt => hif (by rw [hgt]; decide)⟩

theorem monoCut_addrCut (h : bs.Pairwise fun b b' => b.addr < b'.addr) (addr : UInt64) :
    MonoCut (addrCut addr) bs := by
  refine h.imp fun {b b'} hlt => ?_
  rw [UInt64.lt_iff_toNat_lt] at hlt
  have hif : addrCut addr b' ≠ .lt → addrCut addr b = .gt := by
    unfold addrCut
    simp only [UInt64.lt_iff_toNat_lt, ← UInt64.toNat_inj]
    split
    · rw [if_neg (by omega), if_neg (by omega)]; exact fun _ => rfl
    split
    · exact fun hne => absurd rfl hne
    · rw [if_neg (by omega), if_neg (by omega)]; exact fun _ => rfl
  exact ⟨fun hne => by rw [hif hne]; decide, fun hgt => hif (by rw [hgt]; decide)⟩

theorem monoCut_rangeCut (h : bs.Pairwise fun b b' => b.addr < b'.addr) (addr size : UInt64) :
    MonoCut (rangeCut addr size) bs := by
  refine h.imp fun {b b'} hlt => ?_
  rw [UInt64.lt_iff_toNat_lt] at hlt
  unfold rangeCut
  simp only [startsIn_iff, UInt64.lt_iff_toNat_lt]
  constructor
  · split
    · intro _
      split
      · decide
      · rw [if_neg (by omega)]; decide
    split
    · exact fun hne => absurd rfl hne
    · rw [if_neg (by omega), if_neg (by omega)]; exact fun _ => by decide
  · split
    · exact fun hne => by cases hne
    split
    · exact fun hne => by cases hne
    · rw [if_neg (by omega), if_neg (by omega)]; exact fun _ => rfl

namespace Process.Ordered

/-- In an ordered table an address is found exactly if a block has it. -/
theorem search_isSome (h : p.Ordered) (a : UInt64) :
    (processRbSearch p.blockTable a).isSome ↔ ∃ b ∈ p.blocks, b.addr = a := by
  have hnone := find_eq_none_iff (monoCut_addrCut h a)
  rw [Option.isSome_iff_ne_none]
  refine (not_congr hnone).trans ?_
  push Not
  exact exists_congr fun b => and_congr_right fun _ => addrCut_eq_eq

theorem searchRange_eq_none (h : p.Ordered) {addr size : UInt64} :
    processRbSearchRange p.blockTable addr size = none ↔
      ∀ b ∈ p.blocks, startsIn addr size b = false := by
  refine (find_eq_none_iff (monoCut_rangeCut h addr size)).trans ?_
  refine forall_congr' fun b => imp_congr_right fun _ => ?_
  rw [Ne, rangeCut_eq_eq, Bool.not_eq_true]

end Process.Ordered

end Searches

/-! ## Changes -/

namespace Process.Ordered

variable {p : Process}

theorem of_blocks {p' : Process} (h : p.Ordered) (hb : p'.blockTable = p.blockTable) :
    p'.Ordered := by
  unfold Process.Ordered Process.blocks
  rw [hb]
  exact h

theorem of_nil (hb : p.blocks = []) : p.Ordered := by
  unfold Process.Ordered
  rw [hb]
  exact .nil

/-- The blocks around a node of an ordered table. -/
theorem at_loc (h : p.Ordered) {x : Loc RbBlock} (hx : x.tree = p.blockTable) :
    (x.before ++ x.val :: x.after).Pairwise fun b b' => b.addr < b'.addr := by
  rw [← toList_tree, hx]
  exact h

theorem eq_of_addr (h : p.Ordered) {b b' : RbBlock} (hb : b ∈ p.blocks) (hb' : b' ∈ p.blocks)
    (heq : b.addr = b'.addr) : b = b' := by
  have hnodup : (p.blocks.map (·.addr)).Nodup :=
    List.pairwise_map.mpr (h.imp fun hlt => UInt64.ne_of_lt hlt)
  exact List.inj_on_of_nodup_map hnodup hb hb' heq

/-- The other blocks of the table are those at other addresses. -/
theorem mem_erase (h : p.Ordered) {x : Loc RbBlock} (hx : x.tree = p.blockTable) {b : RbBlock} :
    b ∈ x.before ++ x.after ↔ b ∈ p.blocks ∧ b.addr ≠ x.val.addr := by
  have hp := Process.blocks_of_tree hx
  obtain ⟨-, h2, h12⟩ := List.pairwise_append.mp (h.at_loc hx)
  have h3 := (List.pairwise_cons.mp h2).1
  rw [hp]
  simp only [List.mem_append, List.mem_cons]
  constructor
  · rintro (hb | hb)
    · exact ⟨.inl hb, UInt64.ne_of_lt (h12 b hb x.val (List.mem_cons_self ..))⟩
    · exact ⟨.inr (.inr hb), (UInt64.ne_of_lt (h3 b hb)).symm⟩
  · rintro ⟨hb | rfl | hb, hne⟩
    · exact .inl hb
    · exact absurd rfl hne
    · exact .inr hb

theorem addBlock (h : p.Ordered) {b : RbBlock} (hb : ∀ b' ∈ p.blocks, b'.addr ≠ b.addr) :
    (p.addBlock b).Ordered := by
  have hp : p.blocks = (p.blockTable.gap (insertCut b.addr)).before ++
      (p.blockTable.gap (insertCut b.addr)).after :=
    toList_of_find_none (find_insertCut p.blockTable b.addr)
  obtain ⟨hbefore, hafter⟩ := gap_cut (monoCut_insertCut h b.addr)
  have hord : p.blocks.Pairwise fun b b' => b.addr < b'.addr := h
  rw [hp] at hb hord
  obtain ⟨h1, h2, h12⟩ := List.pairwise_append.mp hord
  show (RbPath.insertNew _ b).toList.Pairwise _
  rw [toList_insertNew]
  refine List.pairwise_append.mpr ⟨h1, List.pairwise_cons.mpr ⟨fun y hy => ?_, h2⟩,
    fun x hx y hy => ?_⟩
  · have hlt := hafter y hy
    unfold insertCut at hlt
    split at hlt
    · assumption
    · cases hlt
  · rcases List.mem_cons.mp hy with rfl | hy
    · have hgt := hbefore x hx
      unfold insertCut at hgt
      split at hgt
      · cases hgt
      next hnot =>
        exact UInt64.lt_of_le_of_ne (UInt64.not_lt.mp hnot) (hb x (List.mem_append_left _ hx))
    · exact h12 x hx y hy

theorem dropBlock (h : p.Ordered) {x : Loc RbBlock} (hx : x.tree = p.blockTable) :
    (p.dropBlock x).Ordered := by
  show x.erase.toList.Pairwise _
  rw [toList_erase]
  exact (h.at_loc hx).sublist ((List.sublist_cons_self ..).append_left _)

/-- A block may be rewritten as long as its address stays between those of its neighbours. -/
theorem set (h : p.Ordered) {x : Loc RbBlock} (hx : x.tree = p.blockTable) {b : RbBlock}
    (hle : x.val.addr ≤ b.addr) (hlt : ∀ b' ∈ p.blocks, x.val.addr < b'.addr → b.addr < b'.addr) :
    (x.set b).toList.Pairwise fun b b' => b.addr < b'.addr := by
  have hp := Process.blocks_of_tree hx
  obtain ⟨h1, h2, h12⟩ := List.pairwise_append.mp (h.at_loc hx)
  obtain ⟨h3, h2⟩ := List.pairwise_cons.mp h2
  rw [toList_set]
  refine List.pairwise_append.mpr ⟨h1, List.pairwise_cons.mpr ⟨fun y hy => ?_, h2⟩,
    fun y hy z hz => ?_⟩
  · exact hlt y (by rw [hp]; simp [hy]) (h3 y hy)
  · rcases List.mem_cons.mp hz with rfl | hz
    · exact UInt64.lt_of_lt_of_le (h12 y hy x.val (List.mem_cons_self ..)) hle
    · exact h12 y hy z (List.mem_cons_of_mem _ hz)

theorem markBlock (h : p.Ordered) {x : Loc RbBlock} (hx : x.tree = p.blockTable) :
    (p.markBlock x).Ordered :=
  h.set hx (UInt64.le_refl _) fun _ _ hlt => hlt

end Process.Ordered

/-- The changes that put no block into the table and move none. -/
def Change.shrinks : Change → Prop
  | .drop _ | .mark _ | .silent => True
  | .alloc _ | .restore _ | .trim _ _ => False

theorem Process.Ordered.chain {s s' : Stacks × Process} (hc : Chain Change.shrinks s s')
    (h : s.2.Ordered) : s'.2.Ordered := by
  refine hc.invariant (P := fun s => s.2.Ordered) (fun l s s' hl h hc => ?_) h
  cases hc with
  | alloc => exact hl.elim
  | restore => exact hl.elim
  | trim => exact hl.elim
  | drop hx hn => exact h.dropBlock hx
  | mark hx hn hleak => exact h.markBlock hx
  | link hf op ignore => exact h
  | stamp i a b => exact h
  | hold hi hn => exact h
  | await pid => exact h
  | release hp hi hn => exact h
  | forget hp hi => exact h

/-! ## Messages -/

/-- Where a range that is unmapped ends inside a block, no other block starts inside that block; or
none does so before the cut, and the range starts less than `2 ^ 32` bytes before the block. -/
def CutsClear (p : Process) (m : MtAllocPayload) : Prop :=
  ∀ b ∈ p.blocks, p.mmapped b = true → startsIn m.ptr m.size b = true →
    m.ptr.toNat + m.size.toNat < b.addr.toNat + b.size.toNat →
      (b.addr.toNat + b.size.toNat ≤ 2 ^ 64 ∧
        ∀ b' ∈ p.blocks, b.addr < b'.addr → b.addr.toNat + b.size.toNat ≤ b'.addr.toNat) ∨
      b.addr - m.ptr < 0x100000000 ∧ ∀ b' ∈ p.blocks, b.addr < b'.addr → m.ptr + m.size < b'.addr

section Messages

variable {o : Options} {env : Env} {k : Stacks} {p : Process} {m : MtAllocPayload}
  {r : Stacks × Process}

theorem Process.Ordered.processAlloc {op : MtOperation} (h : p.Ordered)
    (hfree : p.tracing = true → m.ptr.toNat + max m.size.toNat 1 < 2 ^ 64 ∨
      ∀ b ∈ p.blocks, b.addr ≠ m.ptr)
    (hr : processAlloc o env k p op m = .ok r) : r.2.Ordered := by
  rcases processAlloc_cases hr with ⟨-, rfl⟩ | ⟨ht, k1, p1, k2, p2, i, n, h1, h2, hn, rfl⟩
  · exact h
  obtain ⟨hord, hsub⟩ := evictLoop_induct
    (P := fun _ p' => p'.Ordered ∧ ∀ b ∈ p'.blocks, b ∈ p.blocks)
    (fun k' p' x n ⟨hord, hsub⟩ hs _ => ⟨hord.dropBlock (find_some hs).1,
      fun b hb => hsub b (mem_of_mem_dropBlock (find_some hs).1 hb)⟩)
    _ k p (k1, p1) ⟨h, fun _ hb => hb⟩ h1
  have hnone := hord.searchRange_eq_none.mp (evictLoop_done le_rfl h1)
  obtain ⟨-, hbl, -⟩ := stackAdd_chain (C := Change.shrinks) trivial h2
  refine (hord.of_blocks hbl).addBlock fun b hb haddr => ?_
  replace haddr : b.addr = m.ptr := haddr
  rw [Process.blocks, hbl] at hb
  rcases hfree ht with hnw | hno
  · have hin : startsIn m.ptr m.size b = true :=
      startsIn_iff.mpr ⟨by rw [haddr], by rw [haddr]; omega, hnw⟩
    rw [hnone b hb] at hin
    cases hin
  · exact hno b (hsub b hb) haddr

theorem Process.Ordered.processFree {op : MtOperation} (h : p.Ordered)
    (hr : processFree o env k p op m = .ok r) : r.2.Ordered :=
  Process.Ordered.chain (s := (k, p)) (processFree_chain trivial (fun _ _ _ _ => trivial) hr) h

theorem Process.Ordered.processReallocDone (h : p.Ordered)
    (hfree : ∀ re, Restores p re (.reallocDone m) → ∀ b ∈ p.blocks, b.addr ≠ re.addr)
    (hr : processReallocDone o k p m = .ok r) : r.2.Ordered := by
  rcases processReallocDone_cases hr with ⟨-, rfl⟩ | ⟨ht, before, re, after, hf, hrest⟩
  · exact h
  have hlist := (findRealloc_eq_some hf).1
  rcases hrest with ⟨i, n, hz, ha, hi, hn, hdel⟩ | ⟨-, hdel⟩
  · have hadd : (p.addBlock (re.block i)).Ordered :=
      h.addBlock (hfree re ⟨ht, hz, ha, before, after, hf⟩)
    exact Process.Ordered.chain
      (reallocDel_chain (p := p.addBlock (re.block i)) trivial hlist hdel) hadd
  · exact Process.Ordered.chain (s := (k, p)) (reallocDel_chain trivial hlist hdel) h

/-- What a pass cuts off a block is no less than what the range covers of it. -/
theorem Remains.le_sub_munmapOff {ptr size ptr' size' : UInt64} {b : RbBlock}
    (h : Remains ptr size ptr' size') (hs : Client.startsIn ptr' size' b = true) :
    ptr.toNat + size.toNat ≤ b.addr.toNat + (size' - munmapOff ptr' b).toNat := by
  obtain ⟨hle, hend, -⟩ := h
  obtain ⟨h1, h2, h3⟩ := startsIn_iff.mp hs
  have hoff := toNat_munmapOff h1
  have hmod := Nat.mod_le (b.addr.toNat - ptr'.toNat) (2 ^ 32)
  rw [UInt64.toNat_sub_of_le _ _ (UInt64.le_iff_toNat_le.mpr (by omega))]
  omega

/-- The block that `process_munmap` cuts stays at its place. -/
theorem Process.Ordered.trimBlock {p' : Process} {ptr size : UInt64} {x : Loc RbBlock}
    (h : p'.Ordered) (hx : x.tree = p'.blockTable) (hsub : ∀ b ∈ p'.blocks, b ∈ p.blocks)
    (hrem : Remains m.ptr m.size ptr size) (hst : startsIn ptr size x.val = true)
    (hmm : p.mmapped x.val = true) (hclear : CutsClear p m)
    (hlt : size - munmapOff ptr x.val < x.val.size) :
    (p'.trimBlock x (size - munmapOff ptr x.val)).Ordered := by
  have hxp : x.val ∈ p'.blocks := by rw [Process.blocks_of_tree hx]; simp
  have hge := hrem.le_sub_munmapOff hst
  have hin := startsIn_iff.mp (hrem.startsIn hst)
  have hlt' := UInt64.lt_iff_toNat_lt.mp hlt
  have hadd := UInt64.toNat_add x.val.addr (size - munmapOff ptr x.val)
  rcases hclear x.val (hsub _ hxp) hmm (hrem.startsIn hst) (by omega) with ⟨hnw, hno⟩ | ⟨hnear, hno⟩
  · rw [Nat.mod_eq_of_lt (by omega)] at hadd
    refine h.set hx (UInt64.le_iff_toNat_le.mpr ?_) fun b' hb' hb => UInt64.lt_iff_toNat_lt.mpr ?_
    · show _ ≤ (x.val.addr + (size - munmapOff ptr x.val)).toNat
      omega
    · show (x.val.addr + (size - munmapOff ptr x.val)).toNat < _
      have := hno b' (hsub b' hb') hb
      omega
  · -- the cut is at the end of the range
    have hcut : x.val.addr + (size - munmapOff ptr x.val) = m.ptr + m.size := by
      rw [hrem.sub_munmapOff hst hnear, add_sub_cancel]
    refine h.set hx (UInt64.le_iff_toNat_le.mpr ?_) fun b' hb' hb => ?_
    · show _ ≤ (x.val.addr + (size - munmapOff ptr x.val)).toNat
      rw [hcut, UInt64.toNat_add]
      omega
    · show x.val.addr + (size - munmapOff ptr x.val) < _
      rw [hcut]
      exact hno b' (hsub b' hb') hb

theorem Process.Ordered.processMunmap (h : p.Ordered) (hclear : p.tracing = true → CutsClear p m)
    (hr : processMunmap o k p m = .ok r) : r.2.Ordered := by
  unfold Client.processMunmap at hr
  cases ht : p.tracing with
  | false =>
    simp only [ht, Bool.not_false, if_true] at hr
    cases hr
    exact h
  | true =>
    simp only [ht, Bool.not_true, Bool.false_eq_true, if_false] at hr
    let P (p' : Process) (ptr size : UInt64) : Prop :=
      p'.Ordered ∧ (∀ b ∈ p'.blocks, b ∈ p.blocks) ∧ (∀ b, p'.mmapped b = p.mmapped b) ∧
        Remains m.ptr m.size ptr size
    refine munmapLoop_induct (P := fun _ => P) (Q := fun _ => Process.Ordered)
      (fun _ _ _ _ hP => hP.1) ?_ ?_ _ k p m.ptr m.size r
      ⟨h, fun _ hb => hb, fun _ => rfl, .refl _ _⟩ hr
    · rintro k' p' ptr size x n ⟨hord, hsub, hmm, hrem⟩ hs hn hm hlt
      exact hord.trimBlock (find_some hs).1 hsub hrem (startsIn_of_searchRange hs)
        (hmm x.val ▸ mmapped_of_deref hn hm) (hclear ht) hlt
    · rintro k' p' ptr size x n ⟨hord, hsub, hmm, hrem⟩ hs hn hm hlt
      have hx := (find_some hs).1
      have hord' := hord.dropBlock hx
      split
      · exact hord'
      next hz =>
        exact ⟨hord', fun b hb => hsub b (mem_of_mem_dropBlock hx hb),
          fun b => (mmapped_dropBlock p' x b).trans (hmm b),
          hrem.drop (startsIn_of_searchRange hs) hlt hz⟩

theorem Process.Ordered.duplicateBlocks {copy : Process} {bs : List RbBlock} (h : p.Ordered)
    (hbs : bs.Pairwise fun b b' => b.addr ≠ b'.addr)
    (hnew : ∀ b ∈ bs, ∀ b' ∈ p.blocks, b'.addr ≠ b.addr)
    (hr : duplicateBlocks o copy bs k p = .ok r) : r.2.Ordered := by
  induction bs generalizing k p with
  | nil => cases hr; exact h
  | cons b bs ih =>
    obtain ⟨r1, h1, h2⟩ := bind_eq_ok.mp hr
    obtain ⟨n, k1, p1, i, n1, -, hclone, -, rfl⟩ := processRbDuplicateBlock_cases h1
    have hbl : p1.blockTable = p.blockTable := stackClone_blockTable hclone
    obtain ⟨hb, hbs'⟩ := List.pairwise_cons.mp hbs
    have hp1 : ∀ b' ∈ p1.blocks, b' ∈ p.blocks := fun b' hb' => by
      rw [Process.blocks, hbl] at hb'; exact hb'
    refine ih (p := p1.copyBlock b i) ?_ hbs' (fun x hx y hy => ?_) h2
    · exact (h.of_blocks hbl).addBlock fun b' hb' => hnew b (List.mem_cons_self ..) b' (hp1 b' hb')
    · rcases mem_addBlock.mp hy with rfl | hy
      · exact hb x hx
      · exact hnew x (List.mem_cons_of_mem _ hx) y (hp1 y hy)

theorem Process.Ordered.pairwise_postorder (h : p.Ordered) :
    p.blockTable.postorder.Pairwise fun b b' => b.addr ≠ b'.addr := by
  refine ((postorder_perm p.blockTable).pairwise_iff fun hne => Ne.symm hne).mpr ?_
  exact h.imp UInt64.ne_of_lt

theorem Process.Ordered.processLeaksScan (h : p.Ordered) (mode : ScanMode) :
    (processLeaksScan p mode).Ordered := by
  unfold Client.processLeaksScan
  split
  · exact h
  · show (p.blockTable.map _).toList.Pairwise _
    rw [toList_map, List.pairwise_map]
    refine h.imp fun hlt => ?_
    split <;> split <;> exact hlt

end Messages

/-! ## Runs -/

/-- The message puts no second block at an address and moves none past another one. -/
def OrderFits (p : Process) : MtMsg → Prop
  | .alloc _ _ m => p.tracing = true → m.ptr.toNat + max m.size.toNat 1 < 2 ^ 64 ∨
      ∀ b ∈ p.blocks, b.addr ≠ m.ptr
  | .munmap m => p.tracing = true → CutsClear p m
  | .reallocDone m => ∀ re, Restores p re (.reallocDone m) → ∀ b ∈ p.blocks, b.addr ≠ re.addr
  | _ => True

/-- The message an event hands to the process it is about is one of those. -/
def OrderKept (c : State) (e : Event) : Prop :=
  ∀ p, c.target e = some p → ∀ pid sw m, e = .msg pid sw m → OrderFits p m

section Runs

variable {o : Options} {env : Env} {c : State} {doTrace : Bool}

theorem Process.Emptied.ordered {p p1 : Process} (h : p.Emptied p1) : p1.Ordered := by
  obtain ⟨cnt, rfl⟩ := h
  exact .of_nil rfl

theorem Process.Ordered.evolves {p p' : Process} {e : Event} {ext : NodeId → ℕ}
    {rest : StackId → ℕ} (h : p.Ordered) (ho : Owned c.heap p ext rest) (hc : p.Counted)
    (hall : ∀ q ∈ c.processes, q.Ordered)
    (hm : ∀ pid sw m, e = .msg pid sw m → OrderFits p m) (hev : Evolves o env c p e p') :
    p'.Ordered := by
  cases hev with
  | alloc hr => exact h.processAlloc (hm _ _ _ rfl) hr
  | free hr => exact h.processFree hr
  | reallocDone hr => exact h.processReallocDone (hm _ _ _ rfl) hr
  | munmap hr => exact h.processMunmap (hm _ _ _ rfl) hr
  | @fork _ _ ppid parent k' p' hparent hppid hr =>
    obtain ⟨k1, -, hdup⟩ := ho.processDuplicate_cases hc hr
    obtain ⟨p1, hd, -, -, hs⟩ := duplicateFrom_cases hdup
    refine Process.Ordered.of_blocks ?_ hs.blockTable
    split at hd
    · cases hd
      exact .of_nil rfl
    · exact Process.Ordered.duplicateBlocks (.of_nil rfl) (hall parent hparent).pairwise_postorder
        (fun _ _ b' hb' => by cases hb') hd
  | attach => exact .of_nil rfl
  | scan hsc hs =>
    exact (Process.Ordered.chain (s := (c.heap, p))
      (scanBlocks_chain (fun _ _ => trivial) hsc) h).of_blocks hs.blockTable
  | reset hem hs => exact hem.ordered.of_blocks hs.blockTable
  | start hem hs => exact hem.ordered.of_blocks hs.blockTable
  | select hs mode => exact (h.of_blocks hs.blockTable).processLeaksScan mode
  | same hs => exact h.of_blocks hs.blockTable

/-- The order of the table, and that a search by address misses no block. -/
theorem blocks_ordered (h : Reach o env OrderKept doTrace c) : ∀ p ∈ c.processes, p.Ordered ∧
    ∀ a, (processRbSearch p.blockTable a).isSome ↔ ∃ b ∈ p.blocks, b.addr = a := by
  have hord : ∀ p ∈ c.processes, p.Ordered := by
    refine h.records (fun _ _ _ => .of_nil rfl) ?_
    intro c e p p' hac hok hI ht hev
    have hp := target_mem hac ht
    have hac' := accounted_entered hac e
    exact (hI p hp).evolves (hac'.owned p hp) (hac'.counted p hp) hI (hok p ht) hev
  exact fun p hp => ⟨hord p hp, (hord p hp).search_isSome⟩

/-- A mapping over part of another one, and then an `munmap` that ends in the older of the two: its
block moves past the other, which no search finds any more. -/
def overlapEvents : List Event :=
  startEvents ++ [
    .msg 1 false (.alloc .mmap isAllocOp_mmap ⟨0x1000, 0x10000, callAt 0x10⟩),
    .msg 1 false (.alloc .mmap isAllocOp_mmap ⟨0x2000, 0x1000, callAt 0x10⟩),
    .msg 1 false (.munmap ⟨0x1000, 0x3000, []⟩)]

theorem munmap_breaks_order : Reachable plainOptions plainEnv true (stateAfter overlapEvents) ∧
    ∃ p ∈ (stateAfter overlapEvents).processes, ¬ p.Ordered ∧
      (∃ b ∈ p.blocks, b.addr = 0x2000) ∧ processRbSearch p.blockTable 0x2000 = none := by
  refine ⟨reachable_stateAfter _, _, List.mem_singleton_self _, fun hord => ?_, ?_, rfl⟩
  · have hlt := List.pairwise_iff_getElem.mp hord 0 1 (by decide) (by decide) (by decide)
    revert hlt
    decide
  · exact ⟨_, List.mem_cons_of_mem _ (List.mem_singleton_self _), rfl⟩

/-- A mapping inside of another one. -/
def nestedEvents : List Event :=
  startEvents ++ [
    .msg 1 false (.alloc .mmap isAllocOp_mmap ⟨0x1000, 0x10000, callAt 0x10⟩),
    .msg 1 false (.alloc .mmap isAllocOp_mmap ⟨0x8000, 0x1000, callAt 0x10⟩),
    .msg 1 false (.alloc .malloc isAllocOp_malloc ⟨0x602010, 16, callAt 0x20⟩),
    .msg 1 false (.free .reallocEnter isFreeOp_reallocEnter ⟨0x602010, 1, []⟩)]

/-- The first pages of the outer one are unmapped, and a `realloc` fails. -/
def cutEvents : List Event :=
  [.msg 1 false (.munmap ⟨0x1000, 0x3000, []⟩), .msg 1 false (.reallocDone ⟨0, 1, []⟩)]

theorem reach_nested : Reach plainOptions plainEnv OrderKept true (stateAfter nestedEvents) := by
  refine Machine.reach_run nestedEvents _ _ (fun e he c p _ pid sw m hm => ?_) .init rfl
  simp only [nestedEvents, startEvents, List.cons_append, List.nil_append, List.mem_cons,
    List.not_mem_nil, or_false] at he
  rcases he with rfl | rfl | rfl | rfl | rfl | rfl <;> cases hm
  · trivial
  · trivial
  · exact fun _ => .inl (by decide)
  · exact fun _ => .inl (by decide)
  · exact fun _ => .inl (by decide)
  · trivial

theorem blocks_ordered_nested :
    (stateAfter (nestedEvents ++ cutEvents)).processes.map (fun p => p.blocks.map (·.addr)) =
      [[0x4000, 0x8000, 0x602010]] ∧
    ∀ p ∈ (stateAfter (nestedEvents ++ cutEvents)).processes, p.Ordered ∧
      ∀ a, (processRbSearch p.blockTable a).isSome ↔ ∃ b ∈ p.blocks, b.addr = a := by
  have hcut :
      OrderKept (stateAfter nestedEvents) (.msg 1 false (.munmap ⟨0x1000, 0x3000, []⟩)) := by
    intro p hp pid sw m hm
    cases hp
    cases hm
    intro _ b hb _ hstarts hlt
    rcases hb with _ | ⟨_, _ | ⟨_, _ | ⟨_, hb⟩⟩⟩
    · refine .inr ⟨by decide, fun b' hb' habove => ?_⟩
      rcases hb' with _ | ⟨_, _ | ⟨_, _ | ⟨_, hb'⟩⟩⟩
      · exact absurd habove (by decide)
      · decide
    · exact absurd hstarts (by decide)
  refine ⟨rfl, fun p hp => blocks_ordered (.step (.step reach_nested hcut rfl)
    (e := .msg 1 false (.reallocDone ⟨0, 1, []⟩)) ?_ rfl) p hp⟩
  intro p hp pid sw m hm
  cases hp
  cases hm
  rintro re ⟨-, -, -, before, after, hfind⟩ b hb
  cases hfind
  rcases hb with _ | ⟨_, _ | ⟨_, _ | ⟨_, hb⟩⟩⟩
  · decide
  · decide

end Runs

end Mtrace.Client
