import Mathlib.Data.Nat.Bitwise
import Mtrace.Server.Transparent

/-!
# Moving breakpoints between text and hardware

`reorder_hw_bp` gives the slots to the breakpoints that are hit most.  The breakpoints that have a
slot keep it, so there is a free or a lesser one for each of the others; with it every operation is
known to keep `Transparent`, over whole runs.
-/

namespace Mtrace.Server

/-- How many slots from `i` on are not in use. -/
def freeSlots (hwBpSet i : ℕ) : ℕ :=
  ((List.range' i (hwBreakpoints - i)).filter fun j => !hwBpSet.testBit j).length

theorem freeSlots_of_ge (hwBpSet : ℕ) {i : ℕ} (h : hwBreakpoints ≤ i) :
    freeSlots hwBpSet i = 0 := by
  unfold freeSlots
  rw [Nat.sub_eq_zero_of_le h]
  rfl

theorem freeSlots_eq (hwBpSet : ℕ) {i : ℕ} (h : i < hwBreakpoints) :
    freeSlots hwBpSet i = (if hwBpSet.testBit i then 0 else 1) + freeSlots hwBpSet (i + 1) := by
  have hn : hwBreakpoints - i = hwBreakpoints - (i + 1) + 1 := by omega
  unfold freeSlots
  rw [hn, List.range'_succ, List.filter_cons]
  by_cases hbit : hwBpSet.testBit i = true
  · simp [hbit]
  · simp [hbit, Nat.add_comm]

/-- The next slot is free, and the free slots behind it are all the others. -/
theorem nextSlot_spec (hwBpSet fuel i : ℕ) (hfuel : hwBreakpoints ≤ i + fuel)
    (hfree : 0 < freeSlots hwBpSet i) :
    i ≤ Traced.nextSlot hwBpSet fuel i ∧ Traced.nextSlot hwBpSet fuel i < hwBreakpoints ∧
      freeSlots hwBpSet i = freeSlots hwBpSet (Traced.nextSlot hwBpSet fuel i + 1) + 1 := by
  have hi : i < hwBreakpoints := by
    by_contra hge
    rw [freeSlots_of_ge hwBpSet (not_lt.mp hge)] at hfree
    exact hfree.false
  induction fuel generalizing i with
  | zero => omega
  | succ fuel ih =>
    rw [Traced.nextSlot]
    have hsum := freeSlots_eq hwBpSet hi
    by_cases hbit : hwBpSet.testBit i = true
    · rw [if_pos hbit] at hsum ⊢
      rw [Nat.zero_add] at hsum
      rw [hsum] at hfree ⊢
      have hi' : i + 1 < hwBreakpoints := by
        by_contra hge
        rw [freeSlots_of_ge hwBpSet (not_lt.mp hge)] at hfree
        exact hfree.false
      obtain ⟨hle, hlt, heq⟩ := ih (i + 1) (by omega) hfree hi'
      exact ⟨by omega, hlt, heq⟩
    · rw [if_neg hbit] at hsum ⊢
      exact ⟨le_rfl, hi, by omega⟩

/-- The next slot is not in use. -/
theorem testBit_nextSlot (hwBpSet fuel i : ℕ) (hfuel : hwBreakpoints ≤ i + fuel)
    (hfree : 0 < freeSlots hwBpSet i) :
    hwBpSet.testBit (Traced.nextSlot hwBpSet fuel i) = false := by
  have hi : i < hwBreakpoints := by
    by_contra hge
    rw [freeSlots_of_ge hwBpSet (not_lt.mp hge)] at hfree
    exact hfree.false
  induction fuel generalizing i with
  | zero => omega
  | succ fuel ih =>
    rw [Traced.nextSlot]
    have hsum := freeSlots_eq hwBpSet hi
    by_cases hbit : hwBpSet.testBit i = true
    · rw [if_pos hbit] at hsum ⊢
      rw [Nat.zero_add] at hsum
      rw [hsum] at hfree
      have hi' : i + 1 < hwBreakpoints := by
        by_contra hge
        rw [freeSlots_of_ge hwBpSet (not_lt.mp hge)] at hfree
        exact hfree.false
      exact ih (i + 1) (by omega) hfree hi'
    · rw [if_neg hbit]
      exact Bool.not_eq_true _ ▸ hbit

/-- Marking a slot takes away at most one. -/
theorem freeSlots_mark (hwBpSet : ℕ) (slot i : ℕ) :
    freeSlots hwBpSet i ≤ freeSlots (hwBpSet ||| 1 <<< slot) i + 1 := by
  unfold freeSlots
  have hsplit : ∀ l : List ℕ, l.Nodup →
      (l.filter fun j => !hwBpSet.testBit j).length ≤
        (l.filter fun j => !(hwBpSet ||| 1 <<< slot).testBit j).length + 1 := by
    intro l hl
    have hsub : (l.filter fun j => !hwBpSet.testBit j) ⊆
        slot :: l.filter fun j => !(hwBpSet ||| 1 <<< slot).testBit j := by
      intro j hj
      obtain ⟨hj, hbit⟩ := List.mem_filter.mp hj
      by_cases hjs : j = slot
      · exact hjs ▸ List.mem_cons_self
      · refine List.mem_cons_of_mem _ (List.mem_filter.mpr ⟨hj, ?_⟩)
        rw [Nat.testBit_or, Nat.one_shiftLeft, Nat.testBit_two_pow_of_ne (Ne.symm hjs),
          Bool.or_false]
        exact hbit
    exact (List.subperm_of_subset (hl.filter _) hsub).length_le
  exact hsplit _ List.nodup_range'

section Reorder

variable {orig : UInt64 → UInt8} {t : Traced}

/-- The breakpoints that `reorder_hw_bp` picks from. -/
structure Ranked (t : Traced) (hs : List Handle) : Prop where
  nodup : hs.Nodup
  live : ∀ h ∈ hs, h ∈ t.breakpoints
  type : ∀ h ∈ hs, (t.bp h).type.geHw = true
  enabled : ∀ h ∈ hs, (t.bp h).enabled = true

theorem Ranked.tail {h : Handle} {hs : List Handle} (hr : Ranked t (h :: hs)) : Ranked t hs where
  nodup := (List.nodup_cons.mp hr.nodup).2
  live := fun g hg => hr.live g (List.mem_cons_of_mem h hg)
  type := fun g hg => hr.type g (List.mem_cons_of_mem h hg)
  enabled := fun g hg => hr.enabled g (List.mem_cons_of_mem h hg)

theorem Ranked.sublist {hs hs' : List Handle} (hr : Ranked t hs) (hsub : hs'.Sublist hs) :
    Ranked t hs' where
  nodup := hr.nodup.sublist hsub
  live := fun g hg => hr.live g (hsub.mem hg)
  type := fun g hg => hr.type g (hsub.mem hg)
  enabled := fun g hg => hr.enabled g (hsub.mem hg)

/-- Two breakpoints do not share a slot. -/
theorem slot_injective (ht : Transparent orig t) {h g : Handle} (hh : h ∈ t.breakpoints)
    (hg : g ∈ t.breakpoints) (hhw : (t.bp h).hw = true) (ghw : (t.bp g).hw = true)
    (htype : (t.bp h).type.geHw = true) (gtype : (t.bp g).type.geHw = true)
    (heq : (t.bp h).hwBpSlot = (t.bp g).hwBpSlot) : h = g := by
  obtain ⟨-, -, -, -, -, hslot⟩ := (ht.placed h hh).hard_of_hw hhw (ne_scratch_of_geHw htype)
  obtain ⟨-, -, -, -, -, gslot⟩ := (ht.placed g hg).hard_of_hw ghw (ne_scratch_of_geHw gtype)
  rw [heq, gslot] at hslot
  exact (Option.some.inj hslot).symm

/-- Every breakpoint that has a slot marks it; the others are to move, and enough slots are left
for them. -/
theorem splitHw_eq {bp : Handle → Breakpoint} (hs : List Handle) (hwBpSet : ℕ)
    (hslot : ∀ h ∈ hs, (bp h).hw = true → 0 < (bp h).hwBpSlot ∧ (bp h).hwBpSlot < hwBreakpoints)
    (hown : hs.Pairwise fun h g =>
      (bp h).hw = true → (bp g).hw = true → (bp h).hwBpSlot ≠ (bp g).hwBpSlot)
    (hmarked : ∀ h ∈ hs, (bp h).hw = true → hwBpSet.testBit (bp h).hwBpSlot = false) :
    ∃ hwBpSet', Traced.splitHw bp hwBpSet hs = .ok (hwBpSet', hs.filter fun h => !(bp h).hw) ∧
      (∀ j, hwBpSet.testBit j = true → hwBpSet'.testBit j = true) ∧
      (∀ h ∈ hs, (bp h).hw = true → hwBpSet'.testBit (bp h).hwBpSlot = true) ∧
      freeSlots hwBpSet 1 + (hs.filter fun h => !(bp h).hw).length ≤
        freeSlots hwBpSet' 1 + hs.length := by
  induction hs generalizing hwBpSet with
  | nil => exact ⟨hwBpSet, rfl, fun _ hj => hj, fun h hh => (by cases hh), le_rfl⟩
  | cons h hs ih =>
    obtain ⟨hfirst, hown⟩ := List.pairwise_cons.mp hown
    have hslot' := fun g hg => hslot g (List.mem_cons_of_mem h hg)
    rw [Traced.splitHw]
    by_cases hhw : (bp h).hw = true
    · obtain ⟨hlo, hhi⟩ := hslot h List.mem_cons_self hhw
      have hself : (hwBpSet ||| 1 <<< (bp h).hwBpSlot).testBit (bp h).hwBpSlot = true := by
        rw [Nat.testBit_or, Nat.one_shiftLeft, Nat.testBit_two_pow_self, Bool.or_true]
      have hnext : ∀ g ∈ hs, (bp g).hw = true →
          (hwBpSet ||| 1 <<< (bp h).hwBpSlot).testBit (bp g).hwBpSlot = false := by
        intro g hg ghw
        rw [Nat.testBit_or, hmarked g (List.mem_cons_of_mem h hg) ghw, Nat.one_shiftLeft,
          Nat.testBit_two_pow_of_ne (hfirst g hg hhw ghw), Bool.or_false]
      obtain ⟨set', heq, hkeep, hall, hcount⟩ := ih _ hslot' hown hnext
      have h1 : ((bp h).hwBpSlot != hwBpScratchSlot) = true := by
        rw [bne_iff_ne]
        exact hlo.ne'
      have h2 : decide ((bp h).hwBpSlot < hwBreakpoints) = true := decide_eq_true hhi
      have h3 := hmarked h List.mem_cons_self hhw
      have hmark := freeSlots_mark hwBpSet (bp h).hwBpSlot 1
      have hfilter : (h :: hs).filter (fun h => !(bp h).hw) = hs.filter fun h => !(bp h).hw := by
        rw [List.filter_cons, hhw]
        rfl
      rw [if_pos hhw, hfilter]
      dsimp only
      rw [h1, h2, h3]
      refine ⟨set', heq, fun j hj => hkeep j ?_, fun g hg ghw => ?_, ?_⟩
      · rw [Nat.testBit_or, hj, Bool.true_or]
      · rcases List.mem_cons.mp hg with rfl | hg
        · exact hkeep _ hself
        · exact hall g hg ghw
      · rw [List.length_cons]
        omega
    · have hoff : (bp h).hw = false := Bool.not_eq_true _ ▸ hhw
      have hfilter : (h :: hs).filter (fun h => !(bp h).hw) =
          h :: hs.filter fun h => !(bp h).hw := by
        rw [List.filter_cons, hoff]
        rfl
      rw [if_neg hhw, hfilter]
      obtain ⟨set', heq, hkeep, hall, hcount⟩ :=
        ih hwBpSet hslot' hown fun g hg => hmarked g (List.mem_cons_of_mem h hg)
      rw [heq]
      refine ⟨set', rfl, hkeep, fun g hg ghw => ?_, ?_⟩
      · rcases List.mem_cons.mp hg with rfl | hg
        · exact absurd ghw hhw
        · exact hall g hg ghw
      · rw [List.length_cons, List.length_cons]
        omega

theorem splitHw_spec (ht : Transparent orig t) (hs : List Handle) (hwBpSet : ℕ)
    (hr : Ranked t hs)
    (hmarked : ∀ h ∈ hs, (t.bp h).hw = true → hwBpSet.testBit (t.bp h).hwBpSlot = false) :
    ∃ hwBpSet' moved, Traced.splitHw t.bp hwBpSet hs = .ok (hwBpSet', moved) ∧
      moved.Sublist hs ∧ (∀ h ∈ moved, (t.bp h).hw = false) ∧
      freeSlots hwBpSet 1 + moved.length ≤ freeSlots hwBpSet' 1 + hs.length := by
  have hslot : ∀ h ∈ hs, (t.bp h).hw = true →
      0 < (t.bp h).hwBpSlot ∧ (t.bp h).hwBpSlot < hwBreakpoints := by
    intro h hh hhw
    obtain ⟨-, -, -, hlo, hhi, -⟩ :=
      (ht.placed h (hr.live h hh)).hard_of_hw hhw (ne_scratch_of_geHw (hr.type h hh))
    exact ⟨hlo, hhi⟩
  have hown : hs.Pairwise fun h g =>
      (t.bp h).hw = true → (t.bp g).hw = true → (t.bp h).hwBpSlot ≠ (t.bp g).hwBpSlot := by
    refine hr.nodup.imp_of_mem fun {h g} hh hg hne hhw ghw heq => hne ?_
    exact slot_injective ht (hr.live h hh) (hr.live g hg) hhw ghw (hr.type h hh) (hr.type g hg) heq
  obtain ⟨set', heq, -, -, hcount⟩ := splitHw_eq hs hwBpSet hslot hown hmarked
  exact ⟨set', _, heq, List.filter_sublist, fun h hh => by simpa using (List.mem_filter.mp hh).2,
    hcount⟩

/-- One round of the last loop: out of the text, then the slot is freed, then taken. -/
theorem moveRound_spec {h : Handle} {hs : List Handle} {j : ℕ} (ht : Transparent orig t)
    (hr : Ranked t (h :: hs)) (hsoft : ∀ g ∈ h :: hs, (t.bp g).hw = false) (hlo : 0 < j)
    (hhi : j < hwBreakpoints) :
    ∃ t1 t2 t3, t.disableSwBreakpoint h = .ok t1 ∧ Transparent orig t1 ∧ t1.evict j = .ok t2 ∧
      t2.takeSlot h j = .ok t3 ∧ Transparent orig t3 ∧ Ranked t3 hs ∧
      ∀ g ∈ hs, (t3.bp g).hw = false := by
  have hh := hr.live h List.mem_cons_self
  have hsw : (t.bp h).sw = true := (ht.placed h hh).sw_of_enabled
    (hr.enabled h List.mem_cons_self) (hsoft h List.mem_cons_self)
  obtain ⟨t1, heq1, ht1, honly1, hoff1⟩ := disableSwBreakpoint_spec ht hh hsw
  obtain ⟨t2, heq2, ht2, hbps2, hslot2, hkeep2⟩ := evict_spec ht1 hlo hhi
  have hbp2 := hkeep2 h hoff1.hw
  have hge2 : (t2.bp h).type.geHw = true := by
    rw [hbp2, honly1.type]
    exact hr.type h List.mem_cons_self
  have hh2 : h ∈ t2.breakpoints := by
    rw [hbps2, honly1.breakpoints]
    exact hh
  obtain ⟨t3, heq3, ht3, honly3⟩ := takeSlot_spec ht2 hh2 (hoff1.of_eq hbp2) hge2 hlo hhi hslot2
  have hsame : ∀ g ∈ hs, t3.bp g = t.bp g := by
    intro g hg
    have hgh : g ≠ h := fun heq => (List.nodup_cons.mp hr.nodup).1 (heq ▸ hg)
    have h1 := honly1.others g hgh
    rw [honly3.others g hgh, hkeep2 g, h1]
    rw [h1]
    exact hsoft g (List.mem_cons_of_mem h hg)
  refine ⟨t1, t2, t3, heq1, ht1, heq2, heq3, ht3, ⟨hr.tail.nodup, ?_, ?_, ?_⟩, ?_⟩
  · intro g hg
    rw [honly3.breakpoints, hbps2, honly1.breakpoints]
    exact hr.tail.live g hg
  · intro g hg
    rw [hsame g hg]
    exact hr.tail.type g hg
  · intro g hg
    rw [hsame g hg]
    exact hr.tail.enabled g hg
  · intro g hg
    rw [hsame g hg]
    exact hsoft g (List.mem_cons_of_mem h hg)

/-- The breakpoints that move are in the text before. -/
theorem moveToHw_spec (hs : List Handle) (hwBpSet : ℕ) (t : Traced) (i : ℕ)
    (ht : Transparent orig t) (hr : Ranked t hs) (hsoft : ∀ h ∈ hs, (t.bp h).hw = false)
    (hlo : 0 < i) (hfree : hs.length ≤ freeSlots hwBpSet i) :
    ∃ t', Traced.moveToHw hwBpSet t i hs = .ok t' ∧ Transparent orig t' := by
  induction hs generalizing t i with
  | nil => exact ⟨t, rfl, ht⟩
  | cons h hs ih =>
    rw [List.length_cons] at hfree
    obtain ⟨hle, hhi, hcount⟩ := nextSlot_spec hwBpSet hwBreakpoints i (by omega) (by omega)
    rw [Traced.moveToHw]
    generalize Traced.nextSlot hwBpSet hwBreakpoints i = j at *
    obtain ⟨t1, t2, t3, heq1, -, heq2, heq3, ht3, hr3, hsoft3⟩ :=
      moveRound_spec ht hr hsoft (by omega) hhi
    obtain ⟨t4, heq4, ht4⟩ := ih t3 (j + 1) ht3 hr3 hsoft3 (by omega) (by omega)
    refine ⟨t4, ?_, ht4⟩
    rw [heq1]
    dsimp only [bind, Except.bind]
    rw [heq2]
    dsimp only
    rw [heq3]
    exact heq4

theorem clearHwcnt_bp (t : Traced) (hs : List Handle) (h : Handle) :
    ∃ c, (t.clearHwcnt hs).bp h = (t.bp h).setHwcnt c := by
  show ∃ c, (if h ∈ hs then (t.bp h).setHwcnt 0 else t.bp h) = _
  split
  · exact ⟨0, rfl⟩
  · exact ⟨(t.bp h).hwcnt, rfl⟩

theorem Ranked.clearHwcnt {hs : List Handle} (hr : Ranked t hs) (hs' : List Handle) :
    Ranked (t.clearHwcnt hs') hs := by
  refine ⟨hr.nodup, hr.live, ?_, ?_⟩
  · intro h hh
    obtain ⟨c, hc⟩ := clearHwcnt_bp t hs' h
    rw [hc]
    exact hr.type h hh
  · intro h hh
    obtain ⟨c, hc⟩ := clearHwcnt_bp t hs' h
    rw [hc]
    exact hr.enabled h hh

/-- The breakpoints that `reorder_hw_bp` moves: in the text, and with a slot left for each. -/
theorem moved_spec {qsort : (Handle → Handle → ℤ) → List Handle → List Handle}
    (hq : ∀ cmp hs, (qsort cmp hs).Perm hs) (ht : Transparent orig t) {hs : List Handle}
    (hr : Ranked t hs) :
    Transparent orig (t.clearHwcnt (qsort (Traced.hwBpSort t.bp) hs)) ∧
    ∃ set' moved, Traced.splitHw (t.clearHwcnt (qsort (Traced.hwBpSort t.bp) hs)).bp 0
        ((qsort (Traced.hwBpSort t.bp) hs).take (hwBreakpoints - 1)) = .ok (set', moved) ∧
      Ranked (t.clearHwcnt (qsort (Traced.hwBpSort t.bp) hs)) moved ∧
      (∀ h ∈ moved, ((t.clearHwcnt (qsort (Traced.hwBpSort t.bp) hs)).bp h).hw = false) ∧
      moved.length ≤ freeSlots set' (hwBpScratchSlot + 1) := by
  have hperm := hq (Traced.hwBpSort t.bp) hs
  generalize qsort (Traced.hwBpSort t.bp) hs = sorted at *
  have hsorted : Ranked t sorted :=
    ⟨hperm.nodup_iff.mpr hr.nodup, fun h hh => hr.live h (hperm.mem_iff.mp hh),
      fun h hh => hr.type h (hperm.mem_iff.mp hh),
      fun h hh => hr.enabled h (hperm.mem_iff.mp hh)⟩
  have hclear : Transparent orig (t.clearHwcnt sorted) := ht.hwcnt (clearHwcnt_bp t sorted)
  have htop : Ranked (t.clearHwcnt sorted) (sorted.take (hwBreakpoints - 1)) :=
    (hsorted.clearHwcnt sorted).sublist (List.take_sublist _ _)
  obtain ⟨set', moved, heq, hsub, hoff, hcount⟩ := splitHw_spec hclear _ 0 htop
    (fun h _ _ => Nat.zero_testBit _)
  have hthree : (sorted.take (hwBreakpoints - 1)).length ≤ freeSlots 0 1 :=
    (List.length_take_le _ _).trans (by decide)
  refine ⟨hclear, set', moved, heq, htop.sublist hsub, hoff, ?_⟩
  rw [show hwBpScratchSlot + 1 = 1 from rfl]
  omega

/-- The breakpoints in the list of a leader that are enabled. -/
theorem ranked_hwBpList (ht : Transparent orig t) :
    Ranked t (t.hwBpList.filter fun h => (t.bp h).enabled) ∧
      (t.hwBpList.filter fun h => (t.bp h).enabled).length ≤ t.hwBpNum := by
  refine ⟨⟨ht.listNodup.filter _, fun h hh => ((ht.list h).mp (List.mem_filter.mp hh).1).1,
    fun h hh => ((ht.list h).mp (List.mem_filter.mp hh).1).2,
    fun h hh => (List.mem_filter.mp hh).2⟩, ?_⟩
  rw [ht.num]
  exact List.length_filter_le _ _

theorem reorderHwBp_spec {qsort : (Handle → Handle → ℤ) → List Handle → List Handle}
    (hq : ∀ cmp hs, (qsort cmp hs).Perm hs) (ht : Transparent orig t) :
    ∃ t', t.reorderHwBp qsort = .ok t' ∧ Transparent orig t' := by
  unfold Traced.reorderHwBp
  by_cases hnum : t.hwBpNum = 0
  · rw [if_pos hnum]
    exact ⟨t, rfl, ht⟩
  · rw [if_neg hnum]
    dsimp only
    obtain ⟨hranked, hlen⟩ := ranked_hwBpList ht
    generalize (t.hwBpList.filter fun h => (t.bp h).enabled) = hs at *
    rw [decide_eq_true hlen]
    by_cases hfew : hs.length < hwBreakpoints - 1
    · rw [if_pos hfew]
      exact ⟨_, rfl, ht.hwcnt (clearHwcnt_bp t hs)⟩
    · rw [if_neg hfew]
      obtain ⟨hclear, set', moved, heq, hr, hoff, hfree⟩ := moved_spec hq ht hranked
      generalize qsort (Traced.hwBpSort t.bp) hs = sorted at *
      obtain ⟨t', heq', ht'⟩ :=
        moveToHw_spec moved set' _ (hwBpScratchSlot + 1) hclear hr hoff (by decide) hfree
      refine ⟨t', ?_, ht'⟩
      show (Traced.splitHw (t.clearHwcnt sorted).bp 0 _ >>= _) = _
      rw [heq]
      exact heq'

end Reorder

/-! ## Whole runs -/

theorem transparent_start (text : UInt64 → UInt8) (threads : ℕ) :
    Transparent text (Traced.start text threads) where
  fresh := fun _ h => (by cases h)
  nodup := List.nodup_nil
  live := fun _ => ⟨fun h => (by cases h), fun h => (by cases h)⟩
  distinct := fun _ h => (by cases h)
  placed := fun _ h => (by cases h)
  dead := fun _ _ => rfl
  patched := fun _ h => (by cases h)
  saved := fun _ h => (by cases h)
  elsewhere := fun _ _ => rfl
  slots := fun _ _ _ _ h => (by cases h)
  threads := by
    intro s hs i _
    rw [List.eq_of_mem_replicate hs]
    rfl
  list := fun _ => ⟨fun h => (by cases h), fun h => (by cases h.1)⟩
  listNodup := List.nodup_nil
  num := rfl

/-- One operation: it returns, and the text stays as it is to be. -/
theorem transparent_step {qsort : (Handle → Handle → ℤ) → List Handle → List Handle}
    (hq : ∀ cmp hs, (qsort cmp hs).Perm hs) (nohwbp : Bool) {orig : UInt64 → UInt8} {t : Traced}
    (ht : Transparent orig t) (op : BpOp) :
    ∃ t', t.step qsort nohwbp op = .ok t' ∧ Transparent orig t' := by
  cases op with
  | insert addr type garbage => exact breakpointInsert_spec ht nohwbp addr type garbage
  | enable h => exact breakpointEnable_spec ht h
  | disable h =>
    obtain ⟨t', heq, ht', -⟩ := breakpointDisable_spec ht h
    exact ⟨t', heq, ht'⟩
  | delete h => exact breakpointDelete_spec ht h
  | reorder => exact reorderHwBp_spec hq ht
  | skip h => exact skipBreakpoint_spec ht h
  | hit h =>
    refine ⟨_, rfl, ?_⟩
    split
    · exact setHwcnt_spec ht fun bp => bp.hwcnt + 1
    · exact ht

theorem transparent_of_reach {qsort : (Handle → Handle → ℤ) → List Handle → List Handle}
    (hq : ∀ cmp hs, (qsort cmp hs).Perm hs) {nohwbp : Bool} {orig : UInt64 → UInt8} {threads : ℕ}
    {t : Traced} (hr : Machine.Reach (Traced.step qsort nohwbp) (fun _ _ => True)
      (Traced.start orig threads) t) : Transparent orig t := by
  refine hr.invariant (transparent_start orig threads) ?_
  intro s op s' hs _ hstep
  obtain ⟨s1, heq, hs1⟩ := transparent_step hq nohwbp hs op
  rw [heq] at hstep
  cases hstep
  exact hs1

/-- Whatever is done with the breakpoints of a process, its text differs from the original only
where a breakpoint has its software form, no breakpoint has two forms, disabling them all gives the
text back, and no operation runs into an assertion. -/
theorem breakpoints_transparent (qsort : (Handle → Handle → ℤ) → List Handle → List Handle)
    (hq : ∀ cmp hs, (qsort cmp hs).Perm hs) (nohwbp : Bool) (orig : UInt64 → UInt8) (threads : ℕ)
    (t : Traced)
    (hr : Machine.Reach (Traced.step qsort nohwbp) (fun _ _ => True)
      (Traced.start orig threads) t) :
    (∀ a, t.text a ≠ orig a → ∃ h ∈ t.breakpoints, (t.bp h).sw = true ∧ (t.bp h).addr = a) ∧
      (∀ h, (t.bp h).sw = true → h ∈ t.breakpoints ∧
        t.text (t.bp h).addr = breakInsnValue ∧ (t.bp h).origValue = orig (t.bp h).addr) ∧
      (∀ h, ¬((t.bp h).sw = true ∧ (t.bp h).hw = true)) ∧
      (∀ order, order.Perm t.breakpoints →
        ∃ t', t.breakpointDisableAll order = .ok t' ∧ t'.text = orig) ∧
      ∀ op, ∃ t', t.step qsort nohwbp op = .ok t' := by
  have ht := transparent_of_reach hq hr
  have hlive : ∀ h, (t.bp h).sw = true → h ∈ t.breakpoints := by
    intro h hsw
    by_contra hnot
    rw [ht.dead h hnot] at hsw
    cases hsw
  refine ⟨?_, ?_, ?_, ?_, ?_⟩
  · intro a hne
    by_contra hnone
    push Not at hnone
    refine hne ?_
    by_cases ha : ∃ h ∈ t.breakpoints, (t.bp h).addr = a
    · obtain ⟨h, hh, rfl⟩ := ha
      have hsw : (t.bp h).sw = false := Bool.not_eq_true _ ▸ fun hsw => hnone h hh hsw rfl
      exact ht.text_of_not_sw hh hsw
    · exact ht.elsewhere a fun h hh heq => ha ⟨h, hh, heq⟩
  · intro h hsw
    refine ⟨hlive h hsw, ?_, ht.saved h (hlive h hsw) hsw⟩
    rw [ht.patched h (hlive h hsw)]
    exact Breakpoint.over_of_sw hsw _
  · rintro h ⟨hsw, hhw⟩
    rw [(ht.placed h (hlive h hsw)).not_both hsw] at hhw
    cases hhw
  · intro order hperm
    obtain ⟨t', heq, ht', hbps, -, hall⟩ := breakpointDisableAll_spec order ht
    refine ⟨t', heq, text_eq_of_disabled ht' ?_⟩
    intro g hg
    rw [hbps] at hg
    exact hall g hg (.inl (hperm.mem_iff.mpr hg))
  · intro op
    obtain ⟨t', heq, -⟩ := transparent_step hq nohwbp ht op
    exact ⟨t', heq⟩

/-- A stable sort. -/
def stableSort (cmp : Handle → Handle → ℤ) (hs : List Handle) : List Handle :=
  hs.mergeSort fun a b => decide (cmp a b ≤ 0)

/-- A process of two threads with a breakpoint in hardware and one in the text. -/
def twoBreakpoints : Traced :=
  match Machine.run (Traced.step stableSort false) (.start (fun _ => 0x55) 1)
      [.insert 0x1000 .auto 0, .insert 0x2000 .sw 0x12345678, .skip 1] with
  | .ok t => t
  | .error _ => .start (fun _ => 0x55) 1

theorem reach_twoBreakpoints : Machine.Reach (Traced.step stableSort false) (fun _ _ => True)
    (.start (fun _ => 0x55) 1) twoBreakpoints :=
  Machine.reach_run [.insert 0x1000 .auto 0, .insert 0x2000 .sw 0x12345678, .skip 1] _ _
    (fun _ _ _ => trivial) .init rfl

theorem breakpoints_transparent_two :
    twoBreakpoints.text 0x2000 = breakInsnValue ∧
      ∀ order, order.Perm twoBreakpoints.breakpoints →
        ∃ t', twoBreakpoints.breakpointDisableAll order = .ok t' ∧ t'.text = fun _ => 0x55 := by
  refine ⟨by decide, ?_⟩
  exact (breakpoints_transparent stableSort (fun _ hs => hs.mergeSort_perm _) false _ 1 _
    reach_twoBreakpoints).2.2.2.1

end Mtrace.Server
