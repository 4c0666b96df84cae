import Mtrace.RedBlack
import Mtrace.Client.Order
import Mtrace.Client.Unmap

/-!
# Exact unmapping

When `process_munmap` takes exactly the range of its message out of a table of mappings.

1. The block tables are red-black trees, in every run of the client.
2. For a range whose blocks start less than `2 ^ 32` bytes behind its beginning, the passes `Sweeps`
   it if the first search finds the lowest of these blocks: `rb_erase` then keeps the lowest one on
   top of the others.
3. `processMunmap_exact`.
-/

namespace Mtrace.Client

open RbTree Machine Allocator

/-! ## The shape of the table -/

section Shape

variable {o : Options} {env : Env} {c : State} {doTrace : Bool} {p : Process} {k : Stacks}

theorem redBlack_addBlock (h : p.blockTable.RedBlack) (b : RbBlock) :
    (p.addBlock b).blockTable.RedBlack := by
  refine h.insert (find_none_of_ne fun b' _ => ?_) b
  unfold insertCut
  split <;> decide

theorem Changed.redBlack {l : Change} {s s' : Stacks × Process} (hc : Changed l s s')
    (h : s.2.blockTable.RedBlack) : s'.2.blockTable.RedBlack := by
  cases hc with
  | alloc hs hn => exact redBlack_addBlock h _
  | restore hn => exact redBlack_addBlock h _
  | drop hx hn => exact RbRoot.RedBlack.erase (hx ▸ h)
  | trim hx hn size => exact RbRoot.RedBlack.set (hx ▸ h) _
  | mark hx hn hl => exact RbRoot.RedBlack.set (hx ▸ h) _
  | link hf op ignore => exact h
  | stamp i a b => exact h
  | hold hi hn => exact h
  | await pid => exact h
  | release hp hi hn => exact h
  | forget hp hi => exact h

theorem Chain.redBlack {C : Change → Prop} {s s' : Stacks × Process} (hc : Chain C s s')
    (h : s.2.blockTable.RedBlack) : s'.2.blockTable.RedBlack :=
  hc.invariant (P := fun s => s.2.blockTable.RedBlack) (fun _ _ _ _ h hc => hc.redBlack h) h

theorem redBlack_duplicateBlocks {copy : Process} {bs : List RbBlock} {r : Stacks × Process}
    (h : p.blockTable.RedBlack) (hr : duplicateBlocks o copy bs k p = .ok r) :
    r.2.blockTable.RedBlack := by
  induction bs generalizing k p with
  | nil => cases hr; exact h
  | cons b bs ih =>
    obtain ⟨r1, h1, h2⟩ := bind_eq_ok.mp hr
    obtain ⟨n, k1, p1, i, n1, -, hclone, -, rfl⟩ := processRbDuplicateBlock_cases h1
    have hbl : p1.blockTable = p.blockTable := stackClone_blockTable hclone
    exact ih (p := p1.copyBlock b i) (redBlack_addBlock (hbl ▸ h) _) h2

theorem redBlack_processLeaksScan (h : p.blockTable.RedBlack) (mode : ScanMode) :
    (processLeaksScan p mode).blockTable.RedBlack := by
  unfold processLeaksScan
  split
  · exact h
  · exact h.map _

theorem redBlack_evolves {p' : Process} {e : Event} {ext : NodeId → ℕ} {rest : StackId → ℕ}
    (h : p.blockTable.RedBlack) (ho : Owned c.heap p ext rest) (hc : p.Counted)
    (hev : Evolves o env c p e p') : p'.blockTable.RedBlack := by
  have hchain : ∀ {r : Stacks × Process}, Chain (fun _ => True) (c.heap, p) r →
      r.2.blockTable.RedBlack := fun hch => hch.redBlack h
  cases hev with
  | alloc hr => exact hchain (processAlloc_chain trivial (fun _ _ _ _ => trivial)
      (fun _ _ => trivial) hr)
  | free hr => exact hchain (processFree_chain trivial (fun _ _ _ _ => trivial) hr)
  | reallocDone hr => exact hchain (processReallocDone_chain trivial
      (fun _ _ _ _ _ _ _ _ _ => trivial) hr)
  | munmap hr => exact hchain (processMunmap_chain
      (fun _ _ _ _ _ _ _ _ _ => by split <;> trivial) hr)
  | @fork _ _ ppid parent k' p' hparent hppid hr =>
    obtain ⟨k1, -, hdup⟩ := ho.processDuplicate_cases hc hr
    obtain ⟨p1, hd, -, -, hs⟩ := duplicateFrom_cases hdup
    rw [hs.blockTable]
    split at hd
    · cases hd
      exact redBlack_nil
    · exact redBlack_duplicateBlocks redBlack_nil hd
  | attach => exact redBlack_nil
  | scan hsc hs =>
    rw [hs.blockTable]
    exact hchain (scanBlocks_chain (fun _ _ => trivial) hsc)
  | reset hem hs =>
    obtain ⟨cnt, rfl⟩ := hem
    rw [hs.blockTable]
    exact redBlack_nil
  | start hem hs =>
    obtain ⟨cnt, rfl⟩ := hem
    rw [hs.blockTable]
    exact redBlack_nil
  | select hs mode => exact redBlack_processLeaksScan (hs.blockTable ▸ h) mode
  | same hs => rw [hs.blockTable]; exact h

/-- Every block table the client builds is a red-black tree. -/
theorem tables_redBlack {ok : State → Event → Prop} (h : Reach o env ok doTrace c) :
    ∀ p ∈ c.processes, p.blockTable.RedBlack := by
  refine h.records (fun _ _ _ => redBlack_nil) ?_
  intro c e p p' hac _ hI ht hev
  have hp := target_mem hac ht
  have hac' := accounted_entered hac e
  exact redBlack_evolves (hI p hp) (hac'.owned p hp) (hac'.counted p hp) hev

end Shape

/-! ## The lowest block first -/

/-- Of the blocks that start in `R`, the search finds the lowest. -/
def LowestFirst (t : RbRoot RbBlock) (R : Span) : Prop :=
  ∀ b ∈ t.toList, b.span.StartsIn R →
    ∃ x, processRbSearchRange t R.addr R.size = some x ∧ x.val.addr ≤ b.addr

/-- The blocks that start in `R` start less than `2 ^ 32` bytes behind its beginning. -/
def Close (bs : List RbBlock) (R : Span) : Prop :=
  ∀ b ∈ bs, b.span.StartsIn R → b.addr - R.addr < 0x100000000

section Lowest

variable {o : Options} {k : Stacks} {p : Process} {R : Span} {x : Loc RbBlock}

/-- Where a pass over a close range goes on: at the end of the block it took out. -/
theorem toNat_behind_close (hz : R.size ≠ 0) (hst : x.val.span.StartsIn R)
    (hnear : x.val.addr - R.addr < 0x100000000) (hend : x.val.span.last ≤ R.last)
    (hR : R.last < 2 ^ 64) (hne : x.val.size ≠ 0) :
    (behind R x.val).addr.toNat = x.val.span.last ∧
      (behind R x.val).addr.toNat + (behind R x.val).size.toNat = R.last := by
  obtain ⟨hoff, hd, hlast, -⟩ := toNat_sub_munmapOff hst hz
  have hle : R.addr.toNat ≤ x.val.addr.toNat := hst.1
  have hxl : x.val.span.last = x.val.addr.toNat + max x.val.size.toNat 1 := rfl
  have hsize := Span.toNat_ne_zero hne
  rw [UInt64.lt_iff_toNat_lt,
    UInt64.toNat_sub_of_le _ _ (UInt64.le_iff_toNat_le.mpr hle)] at hnear
  rw [Nat.mod_eq_of_lt (show _ < 2 ^ 32 from hnear)] at hoff
  have hlt : ¬ R.size - munmapOff R.addr x.val < x.val.size := by
    rw [UInt64.lt_iff_toNat_lt]
    omega
  obtain ⟨-, hsum⟩ := toNat_behind hR hst hz hlt
  refine ⟨?_, hsum⟩
  have hrest : (behind R x.val).size.toNat =
      (R.size - munmapOff R.addr x.val).toNat - x.val.size.toNat :=
    UInt64.toNat_sub_of_le _ _ (UInt64.not_lt.mp hlt)
  omega

/-- The block found first is below the others, and none of them reaches into it. -/
theorem after_of_lowestFirst (hord : p.Ordered) (hT : Separate p.spans)
    (hs : processRbSearchRange p.blockTable R.addr R.size = some x)
    (hfirst : LowestFirst p.blockTable R) {b : RbBlock} (hb : b ∈ x.before ++ x.after)
    (hst : b.span.StartsIn R) : x.val.span.last ≤ b.addr.toNat := by
  have hx := mem_of_find hs
  obtain ⟨hbp, hne⟩ := (hord.mem_erase (find_some hs).1).mp hb
  obtain ⟨y, hy, hle⟩ := hfirst b hbp hst
  cases hs.symm.trans hy
  rcases hT.apart (mem_spans hx) (mem_spans hbp) fun h => hne (congrArg Span.addr h).symm with
    hap | hap
  · exact hap
  · rw [UInt64.le_iff_toNat_le] at hle
    have hlt := b.span.addr_lt_last
    have hap' : b.span.last ≤ x.val.addr.toNat := hap
    have hlt' : b.addr.toNat < b.span.last := hlt
    omega

/-- When the lowest block is taken out, the next search finds the lowest of the others. -/
theorem lowestFirst_erase (hord : p.Ordered) (hrb : p.blockTable.RedBlack)
    (hT : Separate p.spans) (hs : processRbSearchRange p.blockTable R.addr R.size = some x)
    (hfirst : LowestFirst p.blockTable R) (haddr : (behind R x.val).addr.toNat = x.val.span.last)
    (hle : R.addr.toNat ≤ (behind R x.val).addr.toNat)
    (hlast : (behind R x.val).last = R.last) (hR : R.last < 2 ^ 64) :
    LowestFirst x.erase (behind R x.val) := by
  have htree := (find_some hs).1
  have hord' := hord.dropBlock htree
  have hmem : ∀ {b}, b ∈ x.erase.toList → b ∈ x.before ++ x.after := fun hb => by
    rwa [toList_erase] at hb
  -- the blocks of the rest of the range are the other blocks of the range
  have hcut : ∀ w ∈ x.erase.toList,
      rangeCut R.addr R.size w = .eq ↔
        rangeCut (behind R x.val).addr (behind R x.val).size w = .eq := by
    intro w hw
    rw [rangeCut_eq_eq, rangeCut_eq_eq, startsIn_iff_span, startsIn_iff_span, hlast]
    refine and_congr_left fun _ => ⟨fun hin => ?_, fun hin => ?_⟩
    · have hge := after_of_lowestFirst hord hT hs hfirst (hmem hw) hin
      exact ⟨haddr.trans_le hge, hlast ▸ hin.2⟩
    · exact ⟨hle.trans hin.1, hlast ▸ hin.2⟩
  have hno : ∀ w ∈ x.before, rangeCut R.addr R.size w ≠ .eq := by
    intro w hw heq
    obtain ⟨hin, -⟩ := startsIn_iff_span.mp (rangeCut_eq_eq.mp heq)
    have hge := after_of_lowestFirst hord hT hs hfirst (List.mem_append_left _ hw) hin
    have hlt := UInt64.lt_iff_toNat_lt.mp
      ((List.pairwise_append.mp (hord.at_loc htree)).2.2 w hw _ (List.mem_cons_self ..))
    have hxl := x.val.span.addr_lt_last
    have hxl' : x.val.addr.toNat < x.val.span.last := hxl
    omega
  intro b hb hin
  rcases hy : processRbSearchRange x.erase (behind R x.val).addr (behind R x.val).size with _ | y
  · have := hord'.searchRange_eq_none.mp hy b hb
    rw [startsIn_iff_span.mpr ⟨hin, hlast ▸ hR⟩] at this
    cases this
  · refine ⟨y, rfl, ?_⟩
    have hm' := monoCut_rangeCut hord' (behind R x.val).addr (behind R x.val).size
    have hbefore := first_of_erase hrb (monoCut_rangeCut hord _ _) hs hno hm' hcut hy
    have hsplit := toList_of_find hy
    rw [hsplit] at hb
    rcases List.mem_append.mp hb with hb | hb
    · exact absurd (rangeCut_eq_eq.mpr (startsIn_iff_span.mpr ⟨hin, hlast ▸ hR⟩)) (hbefore b hb)
    · rcases List.mem_cons.mp hb with rfl | hb
      · exact UInt64.le_refl _
      · have hpair := (List.pairwise_append.mp (hord'.at_loc (find_some hy).1)).2.1
        exact UInt64.le_of_lt ((List.pairwise_cons.mp hpair).1 b hb)

theorem sweeps_iff_lowestFirst (hord : p.Ordered) (hrb : p.blockTable.RedBlack)
    (hT : Separate p.spans) (hm : ∀ b ∈ p.blocks, p.mmapped b = true ∧ b.size ≠ 0)
    (hz : R.size ≠ 0) (hR : R.last < 2 ^ 64) (hclose : Close p.blocks R) :
    Sweeps p.mmapped p.blockTable R ↔ LowestFirst p.blockTable R := by
  induction hn : p.blocks.length generalizing p R with
  | zero =>
    have hnil := List.eq_nil_of_length_eq_zero hn
    refine iff_of_true (.done fun b hb => ?_) fun b hb => ?_
    · rw [show p.blockTable.toList = [] from hnil] at hb; cases hb
    · rw [show p.blockTable.toList = [] from hnil] at hb; cases hb
  | succ n ih =>
    rcases hs : processRbSearchRange p.blockTable R.addr R.size with _ | x
    · have hno : ∀ b ∈ p.blocks, ¬ b.span.StartsIn R := fun b hb hin => by
        have := hord.searchRange_eq_none.mp hs b hb
        rw [startsIn_iff_span.mpr ⟨hin, hR⟩] at this
        cases this
      exact iff_of_true (.done hno) fun b hb hin => absurd hin (hno b hb)
    have htree := (find_some hs).1
    have hxb : x.val ∈ p.blocks := mem_of_find hs
    have hst := (startsIn_iff_span.mp (startsIn_of_searchRange hs)).1
    have hnear := hclose _ hxb hst
    have hmem : ∀ {b}, b ∈ p.blocks → b = x.val ∨ b ∈ x.before ++ x.after := fun hb => by
      rw [Process.blocks_of_tree htree] at hb
      simp only [List.mem_append, List.mem_cons] at hb ⊢
      tauto
    rw [sweeps_iff_of_search hs]
    constructor
    · rintro ⟨-, ⟨-, -, honly⟩ | ⟨hend, hskip, -⟩⟩ b hb hin
      · refine ⟨x, hs, ?_⟩
        rcases hmem hb with rfl | hb
        · exact UInt64.le_refl _
        · exact absurd hin (honly b hb)
      · refine ⟨x, hs, ?_⟩
        rcases hmem hb with rfl | hb
        · exact UInt64.le_refl _
        · have hle := UInt64.le_iff_toNat_le.mp (hskip b hb hin)
          have haddr := (toNat_behind_close hz hst hnear hend hR (hm _ hxb).2).1
          have hxl : x.val.addr.toNat < x.val.span.last := x.val.span.addr_lt_last
          rw [UInt64.le_iff_toNat_le]
          omega
    · intro hfirst
      refine ⟨(hm _ hxb).1, ?_⟩
      rcases Nat.lt_or_ge R.last x.val.span.last with hend | hend
      · refine .inl ⟨hend, hnear, fun b hb hin => ?_⟩
        have hge := after_of_lowestFirst hord hT hs hfirst hb hin
        have hlt : b.addr.toNat < R.last := hin.2
        omega
      · obtain ⟨haddr, hsum⟩ := toNat_behind_close hz hst hnear hend hR (hm _ hxb).2
        refine .inr ⟨hend, fun b hb hin => ?_, fun hz' => ?_⟩
        · rw [UInt64.le_iff_toNat_le, haddr]
          exact after_of_lowestFirst hord hT hs hfirst hb hin
        · have hlast : (behind R x.val).last = R.last := by
            have := Span.toNat_ne_zero hz'
            show (behind R x.val).addr.toNat + max (behind R x.val).size.toNat 1 = _
            omega
          have hle : R.addr.toNat ≤ (behind R x.val).addr.toNat := by
            have h1 : R.addr.toNat ≤ x.val.addr.toNat := hst.1
            have h2 : x.val.addr.toNat < x.val.span.last := x.val.span.addr_lt_last
            omega
          have hsub : ∀ b ∈ (p.dropBlock x).blocks, b ∈ p.blocks := fun b hb =>
            mem_of_mem_dropBlock htree hb
          have hrest : LowestFirst x.erase (behind R x.val) :=
            lowestFirst_erase hord hrb hT hs hfirst haddr hle hlast hR
          have hih := ih (p := p.dropBlock x) (R := behind R x.val) (hord.dropBlock htree)
            (RbRoot.RedBlack.erase (htree ▸ hrb))
            (spans_dropBlock hord htree ▸ hT.mono (release_subset _ _))
            (fun b hb => ⟨(mmapped_dropBlock p x b).trans (hm b (hsub b hb)).1,
              (hm b (hsub b hb)).2⟩)
            hz' (hlast ▸ hR) (fun b hb hin => ?_) ?_
          · rw [show (p.dropBlock x).mmapped = p.mmapped from
              funext fun b => mmapped_dropBlock p x b] at hih
            exact hih.mpr hrest
          · have hin' : b.span.StartsIn R := ⟨hle.trans hin.1, hlast ▸ hin.2⟩
            have hlt := hclose b (hsub b hb) hin'
            have h1 : (behind R x.val).addr.toNat ≤ b.addr.toNat := hin.1
            rw [UInt64.lt_iff_toNat_lt, UInt64.toNat_sub_of_le _ _
              (UInt64.le_iff_toNat_le.mpr (hle.trans h1))] at hlt
            rw [UInt64.lt_iff_toNat_lt, UInt64.toNat_sub_of_le _ _ (UInt64.le_iff_toNat_le.mpr h1)]
            omega
          · have hlen : p.blocks.length = (p.dropBlock x).blocks.length + 1 := by
              rw [Process.blocks_of_tree htree, blocks_dropBlock, List.perm_middle.length_eq,
                List.length_cons]
            omega

end Lowest

/-! ## The handler -/

/-- The range `R` and nothing else has been taken out of the blocks of `p`. -/
structure Unmapped (R : Span) (p p' : Process) : Prop where
  spans : p'.spans = cut R p.spans
  covered : covered p'.spans = covered p.spans \ R.addrs
  others : ∀ b ∈ p.blocks, R.Apart b.span → b ∈ p'.blocks

section Handler

variable {o : Options} {k : Stacks} {p : Process} {m : MtAllocPayload} {r : Stacks × Process}
  {ext : NodeId → ℕ} {rest : StackId → ℕ}

/-- Over a table of mappings `process_munmap` returns. -/
theorem munmapLoop_returns (fuel : ℕ) (h : Owned k p ext rest)
    (hm : ∀ b ∈ p.blocks, p.mmapped b = true) (ptr size : UInt64) :
    Ends (fun _ => False) (fun _ => True) (munmapLoop o fuel k p ptr size) := by
  induction fuel generalizing k p ptr size with
  | zero => trivial
  | succ fuel ih =>
    unfold munmapLoop
    rcases hs : processRbSearchRange p.blockTable ptr size with _ | x
    · trivial
    obtain ⟨n, hn⟩ := h.deref_block (mem_of_find hs)
    have hmap : isMmap n.stack.operation = true := mmapped_eq hn ▸ hm _ (mem_of_find hs)
    dsimp only
    rw [hn]
    show Ends _ _ (if _ then _ else if _ then _ else _)
    rw [hmap, if_neg (by decide), if_pos (le_addr_of_searchRange hs)]
    split
    · trivial
    rw [processRbDeleteBlock_ok hn]
    show Ends _ _ (if _ then _ else _)
    split
    · trivial
    · refine ih (h.dropBlock (toList_of_find hs) hn) (fun b hb => ?_) _ _
      exact (mmapped_dropBlock p x b).trans (hm b (mem_of_mem_dropBlock (find_some hs).1 hb))

/-- Blocks outside of the range are left as they are, whatever else goes wrong. -/
theorem munmapLoop_others {fuel : ℕ} {R : Span} (hord : p.Ordered)
    (h : munmapLoop o fuel k p R.addr R.size = .ok r) :
    ∀ b ∈ p.blocks, R.Apart b.span → b ∈ r.2.blocks := by
  intro b hb hap
  let P (p' : Process) (ptr size : UInt64) : Prop :=
    p'.Ordered ∧ b ∈ p'.blocks ∧ Remains R.addr R.size ptr size
  have hother : ∀ {p' : Process} {ptr size : UInt64} {x : Loc RbBlock}, P p' ptr size →
      processRbSearchRange p'.blockTable ptr size = some x → b ∈ x.before ++ x.after := by
    rintro p' ptr size x ⟨hord', hb', hrem⟩ hs
    have hin := (startsIn_iff_span.mp (hrem.startsIn (startsIn_of_searchRange hs))).1
    exact (hord'.mem_erase (find_some hs).1).mpr ⟨hb', fun heq => hin.not_apart
      (hord'.eq_of_addr hb' (mem_of_find hs) heq ▸ hap)⟩
  refine munmapLoop_induct (P := fun _ => P) (Q := fun _ p' => b ∈ p'.blocks)
    (fun _ _ _ _ hP => hP.2.1) ?_ ?_ fuel k p R.addr R.size r ⟨hord, hb, .refl _ _⟩ h
  · intro k' p' ptr size x n hP hs hn hm hlt
    have hmem := hother hP hs
    rw [blocks_trimBlock]
    rw [List.mem_append] at hmem ⊢
    exact hmem.imp id (List.mem_cons_of_mem _)
  · intro k' p' ptr size x n hP hs hn hm hlt
    have hmem := hother hP hs
    rw [← blocks_dropBlock p'] at hmem
    split
    · exact hmem
    next hz =>
      exact ⟨hP.1.dropBlock (find_some hs).1, hmem, hP.2.2.drop (startsIn_of_searchRange hs) hlt hz⟩

/-- A range that reaches the end of the address space is not found to hold anything. -/
theorem sweeps_iff_of_last (hR : (range m).last = 2 ^ 64) (hord : p.Ordered) :
    processRbSearchRange p.blockTable m.ptr m.size = none ∧
      (Sweeps p.mmapped p.blockTable (range m) ↔ ∀ b ∈ p.blocks, ¬ b.span.StartsIn (range m)) := by
  have hnone : processRbSearchRange p.blockTable m.ptr m.size = none := by
    refine hord.searchRange_eq_none.mpr fun b _ => ?_
    rw [← Bool.not_eq_true]
    exact fun h => absurd (startsIn_iff_span (R := range m).mp h).2 (by omega)
  refine ⟨hnone, fun h => ?_, .done⟩
  cases h with
  | done h => exact h
  | cut hs => cases hnone.symm.trans hs
  | drop hs => cases hnone.symm.trans hs

/-- When `process_munmap` takes exactly its range out of a table of mappings. -/
theorem processMunmap_exact (h : Owned k p ext rest) (ht : p.tracing = true) (hord : p.Ordered)
    (hrb : p.blockTable.RedBlack) (hT : Separate p.spans)
    (hm : ∀ b ∈ p.blocks, p.mmapped b = true ∧ b.size ≠ 0) (hz : m.size ≠ 0)
    (hR : (range m).last ≤ 2 ^ 64) : ∃ r, processMunmap o k p m = .ok r ∧
      (Unmapped (range m) p r.2 ↔
        NoReach (range m) p.spans ∧ Sweeps p.mmapped p.blockTable (range m)) ∧
      (Close p.blocks (range m) → (Unmapped (range m) p r.2 ↔
        NoReach (range m) p.spans ∧ LowestFirst p.blockTable (range m))) := by
  have hends := munmapLoop_returns (o := o) (p.blockTable.size + 1) h (fun b hb => (hm b hb).1)
    m.ptr m.size
  rw [← processMunmap_eq ht] at hends
  rcases hr : processMunmap o k p m with f | r
  · rw [hr] at hends
    exact hends.elim
  have hexact : Unmapped (range m) p r.2 ↔ r.2.spans = cut (range m) p.spans := by
    refine ⟨Unmapped.spans, fun heq => ⟨heq, heq ▸ covered_cut hT, ?_⟩⟩
    rw [processMunmap_eq ht] at hr
    exact munmapLoop_others (R := range m) hord hr
  refine ⟨r, rfl, ?_⟩
  rw [hexact]
  rcases Nat.lt_or_eq_of_le hR with hR | hR
  · rw [spans_processMunmap_iff ht hord hT hR hz hr]
    refine ⟨Iff.rfl, fun hclose => and_congr_right fun _ => ?_⟩
    exact sweeps_iff_lowestFirst hord hrb hT hm hz hR hclose
  · obtain ⟨hnone, hsw⟩ := sweeps_iff_of_last hR hord
    have hself : r.2.spans = p.spans := by
      have hid : Idle p (range m) := fun x hx => by cases hnone.symm.trans hx
      exact (spans_processMunmap_self_iff ht hord hT hr).mpr hid
    have hno : r.2.spans = cut (range m) p.spans ↔
        NoReach (range m) p.spans ∧ ∀ b ∈ p.blocks, ¬ b.span.StartsIn (range m) := by
      rw [hself, eq_comm, cut_eq_self_iff hT]
      constructor
      · intro hap
        refine ⟨fun s hs hlt => ?_, fun b hb hin => hin.not_apart (hap _ (mem_spans hb))⟩
        have hlen := (range m).addr_lt_last
        rcases hap s hs with h1 | h1
        · omega
        · exact h1
      · rintro ⟨hreach, hno⟩ _ ⟨b, hb, rfl⟩
        exact hreach.apart (mem_spans hb) (hno b hb)
    refine ⟨hno.trans (and_congr_right fun _ => hsw.symm), fun _ => hno.trans
      (and_congr_right fun _ => ⟨fun hno b hb hin => absurd hin (hno b hb),
        fun hfirst b hb hin => ?_⟩)⟩
    obtain ⟨x, hx, -⟩ := hfirst b hb hin
    cases hnone.symm.trans hx

/-- A mapping of two pages. -/
def mappedState : State :=
  stateAfter (startEvents ++
    [.msg 1 false (.alloc .mmap isAllocOp_mmap ⟨0x1000, 0x2000, callAt 0x10⟩)])

theorem mapped_table : Reachable plainOptions plainEnv true mappedState ∧
    ∃ p ∈ mappedState.processes, p.tracing = true ∧ p.Ordered ∧ p.spans = {⟨0x1000, 0x2000⟩} ∧
      (∀ b ∈ p.blocks, p.mmapped b = true ∧ b.size ≠ 0) ∧
      processRbSearchRange p.blockTable 0x2000 0x1000 = none ∧
      (processRbSearchRange p.blockTable 0x1000 0x1000).isSome = true := by
  refine ⟨reachable_stateAfter _, _, List.mem_singleton_self _, by decide +kernel, ?_, ?_,
    by decide +kernel, by decide +kernel, by decide +kernel⟩
  · exact List.pairwise_singleton ..
  · ext s
    constructor
    · rintro ⟨b, hb, rfl⟩
      cases List.mem_singleton.mp hb
      rfl
    · rintro rfl
      exact ⟨_, List.mem_singleton_self _, rfl⟩

theorem separate_singleton {s : Span} (h : s.last ≤ 2 ^ 64) : Separate {s} :=
  ⟨Set.pairwise_singleton _ _, fun _ ht => Set.mem_singleton_iff.mp ht ▸ h⟩

/-- The lower page is unmapped. -/
theorem processMunmap_exact_lower : ∃ p ∈ mappedState.processes, ∃ r,
    processMunmap plainOptions mappedState.heap p ⟨0x1000, 0x1000, []⟩ = .ok r ∧
      Unmapped ⟨0x1000, 0x1000⟩ p r.2 := by
  obtain ⟨hreach, p, hp, ht, hord, hsp, hm, -, hlow⟩ := mapped_table
  have hT : Separate p.spans := hsp ▸ separate_singleton (by decide)
  have haddr : ∀ b ∈ p.blocks, b.addr = 0x1000 := fun b hb => by
    have hb' := mem_spans hb
    rw [hsp] at hb'
    exact congrArg Span.addr (Set.mem_singleton_iff.mp hb')
  obtain ⟨r, hr, -, hclose⟩ := processMunmap_exact (o := plainOptions)
    (m := ⟨0x1000, 0x1000, []⟩) ((Reach.accounted hreach).owned p hp) ht hord
    (tables_redBlack hreach p hp) hT hm (by decide) (by decide)
  refine ⟨p, hp, r, hr, (hclose fun b hb _ => ?_).mpr ⟨fun s hs hlt => ?_, fun b hb _ => ?_⟩⟩
  · rw [haddr b hb]
    decide
  · rw [hsp] at hs
    cases Set.mem_singleton_iff.mp hs
    exact absurd hlt (by decide)
  · obtain ⟨x, hx⟩ := Option.isSome_iff_exists.mp hlow
    refine ⟨x, hx, ?_⟩
    rw [haddr b hb, haddr _ (mem_of_find hx)]
    exact UInt64.le_refl _

/-- The upper page is not: no search finds a block that starts below the range. -/
theorem upper_page_stays : Reachable plainOptions plainEnv true mappedState ∧
    ∃ p ∈ mappedState.processes, p.tracing = true ∧ Separate p.spans ∧
      (∀ b ∈ p.blocks, p.mmapped b = true ∧ b.size ≠ 0) ∧
      ∃ r, processMunmap plainOptions mappedState.heap p ⟨0x2000, 0x1000, []⟩ = .ok r ∧
        ¬ Unmapped ⟨0x2000, 0x1000⟩ p r.2 := by
  obtain ⟨hreach, p, hp, ht, hord, hsp, hm, hnone, -⟩ := mapped_table
  have hT : Separate p.spans := hsp ▸ separate_singleton (by decide)
  refine ⟨hreach, p, hp, ht, hT, hm, (mappedState.heap, p), ?_, fun hun => ?_⟩
  · rw [processMunmap_eq ht]
    unfold munmapLoop
    rw [show processRbSearchRange p.blockTable _ _ = none from hnone]
  · have hap := (cut_eq_self_iff hT).mp hun.spans.symm ⟨0x1000, 0x2000⟩ (hsp ▸ rfl)
    revert hap
    unfold Span.Apart
    decide

end Handler

end Mtrace.Client
