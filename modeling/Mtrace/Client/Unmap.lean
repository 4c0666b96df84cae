import Mtrace.Client.Table

/-!
# Unmapping

`process_munmap` against the range it is called for.  A pass of its loop looks for a block that
starts in what remains of the range, takes out as much of it as the range covers, and goes on behind
it.  This takes the range out of the table exactly if

1. no block reaches into the range from below, since the search does not find such a block, and
2. the loop `Sweeps` the range: the search, which returns the block nearest to the root of the tree,
   never skips a block, each block found was mapped, and the block in which the range ends starts
   less than `2 ^ 32` bytes behind the point the pass began at.
-/

namespace Mtrace.Client

open RbTree Machine Allocator

/-- What remains of the range behind a block that a pass has taken out. -/
def behind (R : Span) (b : RbBlock) : Span :=
  ⟨R.addr + munmapOff R.addr b + b.size, R.size - munmapOff R.addr b - b.size⟩

/-- The passes over a table `t` of blocks take out all of `R` and nothing else. -/
inductive Sweeps (mmapped : RbBlock → Bool) : RbRoot RbBlock → Span → Prop where
  | done {t : RbRoot RbBlock} {R : Span} (h : ∀ b ∈ t.toList, ¬ b.span.StartsIn R) :
      Sweeps mmapped t R
  /-- The range ends in the block that is found. -/
  | cut {t : RbRoot RbBlock} {R : Span} {x : Loc RbBlock}
      (hs : processRbSearchRange t R.addr R.size = some x) (hm : mmapped x.val = true)
      (hend : R.last < x.val.span.last) (hnear : x.val.addr - R.addr < 0x100000000)
      (honly : ∀ b ∈ x.before ++ x.after, ¬ b.span.StartsIn R) : Sweeps mmapped t R
  /-- The block that is found ends in the range. -/
  | drop {t : RbRoot RbBlock} {R : Span} {x : Loc RbBlock}
      (hs : processRbSearchRange t R.addr R.size = some x) (hm : mmapped x.val = true)
      (hend : x.val.span.last ≤ R.last)
      (hskip : ∀ b ∈ x.before ++ x.after, b.span.StartsIn R → (behind R x.val).addr ≤ b.addr)
      (hrest : (behind R x.val).size ≠ 0 → Sweeps mmapped x.erase (behind R x.val)) :
      Sweeps mmapped t R

/-- The loop finds nothing to take out: a call with size `0` takes nothing out of a block that has
bytes. -/
def Idle (p : Process) (R : Span) : Prop :=
  ∀ x, processRbSearchRange p.blockTable R.addr R.size = some x →
    p.mmapped x.val = false ∨ R.size = 0 ∧ x.val.size ≠ 0

theorem sweeps_iff_of_search {mmapped : RbBlock → Bool} {t : RbRoot RbBlock} {R : Span}
    {x : Loc RbBlock} (hs : processRbSearchRange t R.addr R.size = some x) :
    Sweeps mmapped t R ↔ mmapped x.val = true ∧
      (R.last < x.val.span.last ∧ x.val.addr - R.addr < 0x100000000 ∧
          (∀ b ∈ x.before ++ x.after, ¬ b.span.StartsIn R) ∨
        x.val.span.last ≤ R.last ∧
          (∀ b ∈ x.before ++ x.after, b.span.StartsIn R → (behind R x.val).addr ≤ b.addr) ∧
          ((behind R x.val).size ≠ 0 → Sweeps mmapped x.erase (behind R x.val))) := by
  constructor
  · intro h
    cases h with
    | done h =>
      exact absurd (startsIn_iff_span.mp (startsIn_of_searchRange hs)).1 (h _ (mem_of_find hs))
    | cut hs' hm hend hnear honly =>
      cases hs.symm.trans hs'
      exact ⟨hm, .inl ⟨hend, hnear, honly⟩⟩
    | drop hs' hm hend hskip hrest =>
      cases hs.symm.trans hs'
      exact ⟨hm, .inr ⟨hend, hskip, hrest⟩⟩
  · rintro ⟨hm, ⟨hend, hnear, honly⟩ | ⟨hend, hskip, hrest⟩⟩
    · exact .cut hs hm hend hnear honly
    · exact .drop hs hm hend hskip hrest

section Unmap

variable {o : Options} {k : Stacks} {p : Process} {r : Stacks × Process} {R : Span}

theorem mmapped_eq {b : RbBlock} {n : RbStack} (hn : p.deref b.stackNode = .ok n) :
    p.mmapped b = isMmap n.stack.operation := by
  rw [Process.mmapped, (Process.deref_eq_ok.mp hn).1]
  rfl

/-- The other blocks of an ordered table, as ranges. -/
theorem forall_others (h : p.Ordered) {x : Loc RbBlock} (hx : x.tree = p.blockTable)
    {P : Span → Prop} :
    (∀ b ∈ x.before ++ x.after, P b.span) ↔ ∀ s ∈ release x.val.addr p.spans, P s := by
  rw [← spans_dropBlock h hx, ← blocks_dropBlock p]
  exact ⟨fun hb s ⟨b, hb', hs⟩ => hs ▸ hb b hb', fun hs b hb => hs _ (mem_spans hb)⟩

/-! ## A pass -/

/-- What a pass takes off a block, when the range starts before it. -/
theorem toNat_sub_munmapOff {b : RbBlock} (hst : b.span.StartsIn R) (hz : R.size ≠ 0) :
    (munmapOff R.addr b).toNat = (b.addr.toNat - R.addr.toNat) % 2 ^ 32 ∧
      (R.size - munmapOff R.addr b).toNat = R.size.toNat - (munmapOff R.addr b).toNat ∧
      R.last = R.addr.toNat + R.size.toNat ∧ R.len = R.size := by
  have hz' := Span.toNat_ne_zero hz
  have hlast : R.last = R.addr.toNat + R.size.toNat := by unfold Span.last; omega
  obtain ⟨h1, h2⟩ := hst
  have hoff := toNat_munmapOff (show R.addr.toNat ≤ b.addr.toNat from h1)
  have hmod := Nat.mod_le (b.addr.toNat - R.addr.toNat) (2 ^ 32)
  refine ⟨hoff, UInt64.toNat_sub_of_le _ _ (UInt64.le_iff_toNat_le.mpr ?_), hlast, if_neg hz⟩
  replace h2 : b.addr.toNat < R.last := h2
  omega

/-- Where a pass goes on behind a block. -/
theorem toNat_behind {b : RbBlock} (hR : R.last < 2 ^ 64) (hst : b.span.StartsIn R)
    (hz : R.size ≠ 0) (hlt : ¬ R.size - munmapOff R.addr b < b.size) :
    R.addr.toNat ≤ (behind R b).addr.toNat ∧
      (behind R b).addr.toNat + (behind R b).size.toNat = R.last := by
  obtain ⟨hoff, hd, hlast, -⟩ := toNat_sub_munmapOff hst hz
  rw [UInt64.lt_iff_toNat_lt] at hlt
  have hsize : (behind R b).size.toNat = (R.size - munmapOff R.addr b).toNat - b.size.toNat :=
    UInt64.toNat_sub_of_le _ _ (UInt64.le_iff_toNat_le.mpr (by omega))
  have haddr : (behind R b).addr.toNat =
      R.addr.toNat + (munmapOff R.addr b).toNat + b.size.toNat := by
    show (R.addr + munmapOff R.addr b + b.size).toNat = _
    rw [UInt64.toNat_add, UInt64.toNat_add]
    have hmod := Nat.mod_le (b.addr.toNat - R.addr.toNat) (2 ^ 32)
    obtain ⟨h1, h2⟩ := hst
    replace h2 : b.addr.toNat < R.last := h2
    omega
  have hmod := Nat.mod_le (b.addr.toNat - R.addr.toNat) (2 ^ 32)
  obtain ⟨h1, h2⟩ := hst
  replace h2 : b.addr.toNat < R.last := h2
  omega

theorem last_behind {b : RbBlock} (hR : R.last < 2 ^ 64) (hst : b.span.StartsIn R)
    (hz : R.size ≠ 0) (hlt : ¬ R.size - munmapOff R.addr b < b.size)
    (hz' : (behind R b).size ≠ 0) : (behind R b).last = R.last := by
  obtain ⟨-, hsum⟩ := toNat_behind hR hst hz hlt
  have := Span.toNat_ne_zero hz'
  show (behind R b).addr.toNat + max (behind R b).size.toNat 1 = _
  omega

/-- The part of a block that a pass cuts off at its beginning. -/
theorem trim_within {s : Span} {d : UInt64} (hs : s.last ≤ 2 ^ 64) (hd : d < s.size) :
    (s.addr + d).toNat = s.addr.toNat + d.toNat ∧ Span.last ⟨s.addr + d, s.size - d⟩ = s.last := by
  rw [UInt64.lt_iff_toNat_lt] at hd
  have hlast : s.last = s.addr.toNat + max s.size.toNat 1 := rfl
  have haddr : (s.addr + d).toNat = s.addr.toNat + d.toNat := by
    rw [UInt64.toNat_add, Nat.mod_eq_of_lt (by omega)]
  have hsize : (s.size - d).toNat = s.size.toNat - d.toNat :=
    UInt64.toNat_sub_of_le _ _ (UInt64.le_iff_toNat_le.mpr hd.le)
  refine ⟨haddr, ?_⟩
  unfold Span.last
  dsimp only
  omega

/-- What is left of a member, when bytes are cut off at its beginning, is not a member. -/
theorem trim_not_mem {T : Set Span} {s : Span} {d : UInt64} (hT : Separate T) (hs : s ∈ T)
    (hd : d < s.size) (hd0 : d.toNat ≠ 0) : (⟨s.addr + d, s.size - d⟩ : Span) ∉ T := by
  intro hmem
  obtain ⟨haddr, hlast⟩ := trim_within (hT.fits s hs) hd
  have hlt := Span.addr_lt_last ⟨s.addr + d, s.size - d⟩
  have hin : Span.StartsIn ⟨s.addr + d, s.size - d⟩ s :=
    ⟨haddr ▸ Nat.le_add_right .., hlast ▸ hlt⟩
  have heq := congrArg (fun t => t.addr.toNat) (hT.eq_of_startsIn hmem hs hin)
  dsimp only at heq
  omega

/-- The loop puts no range into the table that is not part of one it had, and leaves those below
the range alone. -/
theorem munmapLoop_within {fuel : ℕ} {ptr size : UInt64} (hord : p.Ordered)
    (hT : Separate p.spans) (h : munmapLoop o fuel k p ptr size = .ok r) :
    (∀ t ∈ r.2.spans, ∃ s ∈ p.spans, s.addr.toNat ≤ t.addr.toNat ∧ t.last ≤ s.last) ∧
      ∀ s ∈ p.spans, s.addr < ptr → s ∈ r.2.spans := by
  let Q (p' : Process) : Prop :=
    (∀ t ∈ p'.spans, ∃ s ∈ p.spans, s.addr.toNat ≤ t.addr.toNat ∧ t.last ≤ s.last) ∧
      ∀ s ∈ p.spans, s.addr < ptr → s ∈ p'.spans
  let P (p' : Process) (ptr' size' : UInt64) : Prop :=
    p'.Ordered ∧ p'.spans ⊆ p.spans ∧ (∀ s ∈ p.spans, s.addr < ptr → s ∈ p'.spans) ∧
      Remains ptr size ptr' size'
  have hQ : ∀ p' : Process, p'.spans ⊆ p.spans → (∀ s ∈ p.spans, s.addr < ptr → s ∈ p'.spans) →
      Q p' := fun p' hsub hlow => ⟨fun t ht => ⟨t, hsub ht, le_rfl, le_rfl⟩, hlow⟩
  -- a block that is found starts behind the beginning of the range
  have hkeep : ∀ (p' : Process) (ptr' size' : UInt64) (x : Loc RbBlock), P p' ptr' size' →
      processRbSearchRange p'.blockTable ptr' size' = some x →
      ∀ s ∈ p.spans, s.addr < ptr → s ∈ release x.val.addr p'.spans := by
    rintro p' ptr' size' x ⟨-, -, hlow, hrem⟩ hs s hs' hlt
    refine ⟨hlow s hs' hlt, fun heq => ?_⟩
    have hle := UInt64.le_trans hrem.le (le_addr_of_searchRange hs)
    rw [← heq, UInt64.le_iff_toNat_le] at hle
    rw [UInt64.lt_iff_toNat_lt] at hlt
    omega
  refine munmapLoop_induct (P := fun _ => P) (Q := fun _ => Q)
    (fun _ p' _ _ hP => hQ p' hP.2.1 hP.2.2.1) ?_ ?_ fuel k p ptr size r
    ⟨hord, le_rfl, fun _ hs _ => hs, .refl _ _⟩ h
  · rintro k' p' ptr' size' x n hP hs hn hm hlt
    have hlow := hkeep p' ptr' size' x hP hs
    obtain ⟨hord', hsub, -, -⟩ := hP
    have hx : x.val.span ∈ p.spans := hsub (mem_spans (mem_of_find hs))
    obtain ⟨haddr, hlast⟩ := trim_within (s := x.val.span) (hT.fits _ hx) hlt
    show Q _
    constructor
    · intro t ht
      rw [spans_trimBlock hord' (find_some hs).1] at ht
      rcases ht with rfl | ht
      · exact ⟨x.val.span, hx, haddr ▸ Nat.le_add_right .., hlast.le⟩
      · exact ⟨t, hsub ht.1, le_rfl, le_rfl⟩
    · intro s hs' hlt'
      rw [spans_trimBlock hord' (find_some hs).1]
      exact .inr (hlow s hs' hlt')
  · rintro k' p' ptr' size' x n hP hs hn hm hlt
    have hx := (find_some hs).1
    have hlow := hkeep p' ptr' size' x hP hs
    obtain ⟨hord', hsub, -, hrem⟩ := hP
    have hdrop := spans_dropBlock hord' hx
    have hsub' : (p'.dropBlock x).spans ⊆ p.spans :=
      hdrop ▸ (release_subset _ _).trans hsub
    split
    · exact hQ _ hsub' (hdrop ▸ hlow)
    next hz =>
      exact ⟨hord'.dropBlock hx, hsub', hdrop ▸ hlow,
        hrem.drop (startsIn_of_searchRange hs) hlt hz⟩

/-! ## The range taken out -/

/-- The pass that cuts the block in which the range ends. -/
theorem trim_eq_cut_iff {x : Loc RbBlock} (hord : p.Ordered) (hT : Separate p.spans)
    (hR : R.last < 2 ^ 64) (hz : R.size ≠ 0) (hreach : NoReach R p.spans)
    (hs : processRbSearchRange p.blockTable R.addr R.size = some x)
    (hlt : R.size - munmapOff R.addr x.val < x.val.size) :
    R.last < x.val.span.last ∧
      ((p.trimBlock x (R.size - munmapOff R.addr x.val)).spans = cut R p.spans ↔
        x.val.addr - R.addr < 0x100000000 ∧
          ∀ b ∈ x.before ++ x.after, ¬ b.span.StartsIn R) := by
  have htree := (find_some hs).1
  have hx : x.val.span ∈ p.spans := mem_spans (mem_of_find hs)
  have hst := (startsIn_iff_span.mp (startsIn_of_searchRange hs)).1
  obtain ⟨hoff, hd, hlast, hlen⟩ := toNat_sub_munmapOff hst hz
  obtain ⟨haddr, -⟩ := trim_within (s := x.val.span) (hT.fits _ hx) hlt
  have hmod := Nat.mod_le (x.val.addr.toNat - R.addr.toNat) (2 ^ 32)
  have hlt' := UInt64.lt_iff_toNat_lt.mp hlt
  have hle : R.addr.toNat ≤ x.val.addr.toNat := hst.1
  have hin : x.val.addr.toNat < R.last := hst.2
  have hxl : x.val.span.last = x.val.addr.toNat + max x.val.size.toNat 1 := rfl
  have hbeyond : R.last < x.val.span.last := by omega
  have hsub : (x.val.addr - R.addr).toNat = x.val.addr.toNat - R.addr.toNat :=
    UInt64.toNat_sub_of_le _ _ (UInt64.le_iff_toNat_le.mpr hle)
  refine ⟨hbeyond, ?_⟩
  rw [spans_trimBlock hord htree, forall_others (P := fun s => ¬ s.StartsIn R) hord htree]
  constructor
  · intro heq
    have honly : ∀ s ∈ release x.val.addr p.spans, ¬ s.StartsIn R := fun s hs' hin' =>
      hin'.not_apart (apart_of_mem_cut hT (heq ▸ .inr hs'))
    refine ⟨?_, honly⟩
    have hmem := heq.trans (cut_of_beyond hT hreach hx hst hbeyond honly) ▸ Set.mem_insert ..
    rcases hmem with h | h
    · -- the cut is at the end of the range
      have hend := congrArg (fun s => s.addr.toNat) h
      dsimp only at hend
      replace haddr : (x.val.addr + (R.size - munmapOff R.addr x.val)).toNat =
        x.val.addr.toNat + (R.size - munmapOff R.addr x.val).toNat := haddr
      rw [haddr, Span.toNat_end hR, hd, hoff, hlast] at hend
      rw [UInt64.lt_iff_toNat_lt, hsub]
      have := Nat.mod_lt (x.val.addr.toNat - R.addr.toNat) (show 0 < 2 ^ 32 by decide)
      show _ < 2 ^ 32
      omega
    · exact absurd h.1 (trim_not_mem hT hx hlt (by omega))
  · rintro ⟨hnear, honly⟩
    rw [cut_of_beyond hT hreach hx hst hbeyond honly, hlen]
    have hcut : R.size - munmapOff R.addr x.val = R.addr + R.size - x.val.addr :=
      (Remains.refl _ _).sub_munmapOff (startsIn_of_searchRange hs) hnear
    have h1 : x.val.addr + (R.size - munmapOff R.addr x.val) = R.addr + R.size := by
      rw [hcut, add_sub_cancel]
    have h2 : x.val.size - (R.size - munmapOff R.addr x.val) =
        x.val.addr + x.val.size - (R.addr + R.size) := by
      rw [hcut]
      abel
    rw [h1, h2]
    rfl

/-- The pass that takes out a block, and the passes behind it. -/
theorem drop_eq_cut_iff {x : Loc RbBlock} {T' : Set Span} (hord : p.Ordered)
    (hT : Separate p.spans) (hR : R.last < 2 ^ 64) (hz : R.size ≠ 0)
    (hreach : NoReach R p.spans)
    (hs : processRbSearchRange p.blockTable R.addr R.size = some x)
    (hlt : ¬ R.size - munmapOff R.addr x.val < x.val.size)
    (hwithin : ∀ t ∈ T', ∃ s ∈ release x.val.addr p.spans,
      s.addr.toNat ≤ t.addr.toNat ∧ t.last ≤ s.last)
    (hbelow : ∀ s ∈ release x.val.addr p.spans, s.addr < (behind R x.val).addr → s ∈ T')
    (hdone : (behind R x.val).size = 0 → T' = release x.val.addr p.spans)
    {C : Prop} (hrest : (behind R x.val).size ≠ 0 →
      NoReach (behind R x.val) (release x.val.addr p.spans) →
      (T' = cut (behind R x.val) (release x.val.addr p.spans) ↔ C)) :
    T' = cut R p.spans ↔ x.val.span.last ≤ R.last ∧
      (∀ b ∈ x.before ++ x.after, b.span.StartsIn R → (behind R x.val).addr ≤ b.addr) ∧
      ((behind R x.val).size ≠ 0 → C) := by
  have htree := (find_some hs).1
  have hx : x.val.span ∈ p.spans := mem_spans (mem_of_find hs)
  have hst := (startsIn_iff_span.mp (startsIn_of_searchRange hs)).1
  obtain ⟨hle, hsum⟩ := toNat_behind hR hst hz hlt
  have hlen := (toNat_sub_munmapOff hst hz).2.2.2
  have hothers : (∀ b ∈ x.before ++ x.after, b.span.StartsIn R → (behind R x.val).addr ≤ b.addr) ↔
      ∀ s ∈ release x.val.addr p.spans, s.StartsIn R → (behind R x.val).addr ≤ s.addr :=
    forall_others (P := fun s => s.StartsIn R → (behind R x.val).addr ≤ s.addr) hord htree
  rw [hothers]
  -- the two sides of the range behind the block
  have hcut : x.val.span.last ≤ R.last →
      (∀ s ∈ release x.val.addr p.spans, s.StartsIn R → (behind R x.val).addr ≤ s.addr) →
      (behind R x.val).size ≠ 0 →
      cut (behind R x.val) (release x.val.addr p.spans) = cut R p.spans ∧
        NoReach (behind R x.val) (release x.val.addr p.spans) := by
    intro hend hskip hz'
    have hlast := last_behind hR hst hz hlt hz'
    refine cut_of_within hT hreach hx hst hend hlast hle ?_ fun s hs' hin =>
      UInt64.le_iff_toNat_le.mp (hskip s hs' hin)
    rw [← UInt64.toNat_inj, Span.toNat_end (hlast ▸ hR), Span.toNat_end hR, hlast]
  constructor
  · intro heq
    have hend : x.val.span.last ≤ R.last := by
      by_contra hgt
      rw [not_le] at hgt
      -- what is left of the block behind the range would be part of another one
      have hpart : (⟨R.addr + R.len, x.val.addr + x.val.size - (R.addr + R.len)⟩ : Span) ∈ T' :=
        heq ▸ ⟨_, hx, .high hst.2 hgt⟩
      obtain ⟨s, hs', hsle, hsla⟩ := hwithin _ hpart
      have hadd := Span.addr_lt_last ⟨R.addr + R.len, x.val.addr + x.val.size - (R.addr + R.len)⟩
      have hend := Span.toNat_end hR
      dsimp only at hsle hadd
      have hne : x.val.span ≠ s := fun h => hs'.2 (h ▸ rfl)
      rcases hT.apart hx hs'.1 hne with hap | hap
      · omega
      · have := hst.2
        omega
    have hskip : ∀ s ∈ release x.val.addr p.spans, s.StartsIn R →
        (behind R x.val).addr ≤ s.addr := by
      intro s hs' hin
      by_contra hgt
      rw [UInt64.not_le] at hgt
      exact hin.not_apart (apart_of_mem_cut hT (heq ▸ hbelow s hs' hgt))
    refine ⟨hend, hskip, fun hz' => ?_⟩
    obtain ⟨hcut, hreach'⟩ := hcut hend hskip hz'
    exact (hrest hz' hreach').mp (heq.trans hcut.symm)
  · rintro ⟨hend, hskip, hC⟩
    by_cases hz' : (behind R x.val).size = 0
    · rw [hdone hz', cut_of_inside hT hreach hx hst hend]
      · rfl
      · intro s hs' hin
        have h1 := UInt64.le_iff_toNat_le.mp (hskip s hs' hin)
        have h2 := hin.2
        rw [hz'] at hsum
        replace hsum : (behind R x.val).addr.toNat + 0 = R.last := hsum
        omega
    · obtain ⟨hcut, hreach'⟩ := hcut hend hskip hz'
      exact ((hrest hz' hreach').mpr (hC hz')).trans hcut

/-- The loop takes a range out of the table exactly if it sweeps it. -/
theorem munmapLoop_eq_cut_iff {fuel : ℕ} (hfuel : p.blocks.length < fuel) (hord : p.Ordered)
    (hT : Separate p.spans) (hR : R.last < 2 ^ 64) (hz : R.size ≠ 0)
    (hreach : NoReach R p.spans) (h : munmapLoop o fuel k p R.addr R.size = .ok r) :
    r.2.spans = cut R p.spans ↔ Sweeps p.mmapped p.blockTable R := by
  induction fuel generalizing k p R with
  | zero => exact absurd hfuel (by omega)
  | succ fuel ih =>
    rcases munmapLoop_cases h with ⟨hs, rfl⟩ | ⟨x, n, hs, hn, hpass⟩
    · have hno : ∀ b ∈ p.blocks, ¬ b.span.StartsIn R := fun b hb hin => by
        have := hord.searchRange_eq_none.mp hs b hb
        rw [startsIn_iff_span.mpr ⟨hin, hR⟩] at this
        cases this
      refine iff_of_true ((cut_eq_self_iff hT).mpr ?_).symm (.done hno)
      rintro _ ⟨b, hb, rfl⟩
      exact hreach.apart (mem_spans hb) (hno b hb)
    have htree := (find_some hs).1
    have hx : x.val.span ∈ p.spans := mem_spans (mem_of_find hs)
    have hst := (startsIn_iff_span.mp (startsIn_of_searchRange hs)).1
    rw [sweeps_iff_of_search hs, mmapped_eq hn]
    rcases hpass with ⟨hm, rfl⟩ | ⟨hm, hlt, rfl⟩ | ⟨hm, hlt, hrest⟩
    · -- a block that was not mapped stays
      refine iff_of_false (fun heq => ?_) fun h => by rw [hm] at h; cases h.1
      exact hst.not_apart (apart_of_mem_cut hT (heq ▸ hx))
    · obtain ⟨hend, hiff⟩ := trim_eq_cut_iff hord hT hR hz hreach hs hlt
      rw [hiff, hm]
      constructor
      · exact fun h => ⟨rfl, .inl ⟨hend, h⟩⟩
      · rintro ⟨-, ⟨-, h⟩ | ⟨h, -⟩⟩
        · exact h
        · omega
    · have hdrop := spans_dropBlock hord htree
      have hord' := hord.dropBlock htree
      have hT' : Separate (p.dropBlock x).spans := hdrop ▸ hT.mono (release_subset _ _)
      have hiff : r.2.spans = cut R p.spans ↔ x.val.span.last ≤ R.last ∧
          (∀ b ∈ x.before ++ x.after, b.span.StartsIn R → (behind R x.val).addr ≤ b.addr) ∧
          ((behind R x.val).size ≠ 0 → Sweeps p.mmapped x.erase (behind R x.val)) := by
        split at hrest
        next hz' =>
          cases hrest
          refine drop_eq_cut_iff hord hT hR hz hreach hs hlt ?_ ?_ (fun _ => hdrop)
            fun h => absurd hz' h
          · exact fun t ht => ⟨t, hdrop ▸ ht, le_rfl, le_rfl⟩
          · exact fun s hs' _ => hdrop ▸ hs'
        next hz' =>
          obtain ⟨hwithin, hbelow⟩ := munmapLoop_within hord' hT' hrest
          rw [hdrop] at hwithin hbelow
          refine drop_eq_cut_iff hord hT hR hz hreach hs hlt hwithin hbelow
            (fun h => absurd h hz') fun _ hreach' => ?_
          have hlast := last_behind hR hst hz hlt hz'
          have hlen : (p.dropBlock x).blocks.length < fuel := by
            rw [blocks_dropBlock, List.length_append]
            rw [Process.blocks_of_tree htree, List.length_append, List.length_cons] at hfuel
            omega
          have := ih (R := behind R x.val) hlen hord' hT' (hlast ▸ hR) hz' (hdrop ▸ hreach') hrest
          rw [hdrop, show (p.dropBlock x).mmapped = p.mmapped from
            funext fun b => mmapped_dropBlock p x b] at this
          exact this
      rw [hiff, hm]
      constructor
      · exact fun h => ⟨rfl, .inr h⟩
      · rintro ⟨-, ⟨hend, hnear, -⟩ | h⟩
        · -- the block ends in the range
          obtain ⟨hoff, hd, hlast, -⟩ := toNat_sub_munmapOff hst hz
          have hle : R.addr.toNat ≤ x.val.addr.toNat := hst.1
          have hin : x.val.addr.toNat < R.last := hst.2
          have hxl : x.val.span.last = x.val.addr.toNat + max x.val.size.toNat 1 := rfl
          rw [UInt64.lt_iff_toNat_lt,
            UInt64.toNat_sub_of_le _ _ (UInt64.le_iff_toNat_le.mpr hle)] at hnear
          rw [Nat.mod_eq_of_lt (show _ < 2 ^ 32 from hnear)] at hoff
          rw [UInt64.lt_iff_toNat_lt] at hlt
          omega
        · exact h

end Unmap

/-! ## The handler -/

section Handler

variable {o : Options} {k : Stacks} {p : Process} {m : MtAllocPayload} {r : Stacks × Process}

theorem processMunmap_eq (ht : p.tracing = true) :
    processMunmap o k p m = munmapLoop o (p.blockTable.size + 1) k p m.ptr m.size := by
  unfold processMunmap
  rw [ht]
  rfl

theorem spans_processMunmap_iff (ht : p.tracing = true) (hord : p.Ordered)
    (hT : Separate p.spans) (hR : (range m).last < 2 ^ 64) (hz : m.size ≠ 0)
    (hr : processMunmap o k p m = .ok r) :
    r.2.spans = cut (range m) p.spans ↔
      NoReach (range m) p.spans ∧ Sweeps p.mmapped p.blockTable (range m) := by
  rw [processMunmap_eq ht] at hr
  have hfuel : p.blocks.length < p.blockTable.size + 1 := by
    rw [Process.blocks, length_toList]
    exact Nat.lt_succ_self _
  have hreach : r.2.spans = cut (range m) p.spans → NoReach (range m) p.spans := by
    intro heq
    refine NoReach.of_cut hT ?_
    rintro s ⟨hs, hlt⟩
    rw [← heq]
    exact (munmapLoop_within hord hT hr).2 s hs (UInt64.lt_iff_toNat_lt.mpr hlt)
  constructor
  · intro heq
    exact ⟨hreach heq, (munmapLoop_eq_cut_iff (R := range m) hfuel hord hT hR hz (hreach heq) hr).mp
      heq⟩
  · rintro ⟨hreach, hsw⟩
    exact (munmapLoop_eq_cut_iff (R := range m) hfuel hord hT hR hz hreach hr).mpr hsw

/-- When `process_munmap` leaves the ranges as they are. -/
theorem spans_processMunmap_self_iff (ht : p.tracing = true) (hord : p.Ordered)
    (hT : Separate p.spans) (hr : processMunmap o k p m = .ok r) :
    r.2.spans = p.spans ↔ Idle p (range m) := by
  rw [processMunmap_eq ht] at hr
  have hidle : ∀ x, processRbSearchRange p.blockTable m.ptr m.size = some x →
      (Idle p (range m) ↔ p.mmapped x.val = false ∨ m.size = 0 ∧ x.val.size ≠ 0) := by
    intro x hs
    constructor
    · exact fun h => h x hs
    · intro h y hs'
      cases hs.symm.trans hs'
      exact h
  rcases munmapLoop_cases hr with ⟨hs, rfl⟩ | ⟨x, n, hs, hn, hpass⟩
  · refine iff_of_true rfl fun x hs' => ?_
    cases hs.symm.trans hs'
  have htree := (find_some hs).1
  have hx : x.val.span ∈ p.spans := mem_spans (mem_of_find hs)
  have hst : x.val.span.StartsIn (range m) :=
    (startsIn_iff_span.mp (startsIn_of_searchRange hs)).1
  -- a call with size `0` finds a block at the address it is called for
  have hzero : m.size = 0 → m.size - munmapOff m.ptr x.val = 0 := by
    intro h0
    obtain ⟨h1, h2⟩ := startsIn_iff.mp (startsIn_of_searchRange hs)
    have haddr : x.val.addr = m.ptr := by
      rw [h0, show (0 : UInt64).toNat = 0 from rfl] at h2
      rw [← UInt64.toNat_inj]
      omega
    rw [munmapOff, haddr, UInt64.sub_self, h0]
    rfl
  rw [hidle x hs, mmapped_eq hn]
  rcases hpass with ⟨hm, rfl⟩ | ⟨hm, hlt, rfl⟩ | ⟨hm, hlt, hrest⟩
  · exact iff_of_true rfl (.inl hm)
  · rw [hm, spans_trimBlock hord htree]
    by_cases h0 : m.size = 0
    · have hne : x.val.size ≠ 0 := fun h => by
        rw [h, UInt64.lt_iff_toNat_lt] at hlt
        exact Nat.not_lt_zero _ hlt
      refine iff_of_true ?_ (.inr ⟨h0, hne⟩)
      rw [hzero h0, UInt64.add_zero, UInt64.sub_zero]
      ext s
      constructor
      · rintro (rfl | hs')
        · exact hx
        · exact hs'.1
      · intro hs'
        by_cases haddr : s.addr = x.val.addr
        · exact .inl (hT.eq_of_addr hs' hx haddr)
        · exact .inr ⟨hs', haddr⟩
    · refine iff_of_false (fun heq => ?_) fun h => h.elim (fun h => by cases h) fun h => h0 h.1
      obtain ⟨hoff, hd, hlast, -⟩ := toNat_sub_munmapOff hst h0
      have hmod := Nat.mod_le (x.val.addr.toNat - m.ptr.toNat) (2 ^ 32)
      have hin : m.ptr.toNat ≤ x.val.addr.toNat ∧ x.val.addr.toNat < (range m).last := hst
      refine trim_not_mem hT hx hlt ?_ (heq ▸ Set.mem_insert ..)
      replace hoff : (munmapOff m.ptr x.val).toNat = (x.val.addr.toNat - m.ptr.toNat) %
        2 ^ 32 := hoff
      replace hlast : (range m).last = m.ptr.toNat + m.size.toNat := hlast
      replace hd : (m.size - munmapOff m.ptr x.val).toNat = _ := hd
      rw [hd]
      show m.size.toNat - (munmapOff m.ptr x.val).toNat ≠ 0
      omega
  · rw [hm]
    refine iff_of_false (fun heq => ?_) ?_
    · -- the block is gone, and no part of another one is in its place
      have hdrop := spans_dropBlock hord htree
      have hwithin : ∀ t ∈ r.2.spans, ∃ s ∈ release x.val.addr p.spans,
          s.addr.toNat ≤ t.addr.toNat ∧ t.last ≤ s.last := by
        split at hrest
        · cases hrest
          exact fun t ht => ⟨t, hdrop ▸ ht, le_rfl, le_rfl⟩
        · exact hdrop ▸ (munmapLoop_within (hord.dropBlock htree)
            (hdrop ▸ hT.mono (release_subset _ _)) hrest).1
      obtain ⟨s, hs', h1, h2⟩ := hwithin _ (heq ▸ hx)
      have hlt := x.val.span.addr_lt_last
      rcases hT.apart hs'.1 hx (fun h => hs'.2 (h ▸ rfl)) with hap | hap
      · omega
      · omega
    · rintro (h | ⟨h0, hne⟩)
      · cases h
      · rw [hzero h0, UInt64.not_lt, UInt64.le_iff_toNat_le] at hlt
        exact Span.toNat_ne_zero hne (Nat.le_zero.mp hlt)

end Handler

end Mtrace.Client
