import Mtrace.ByteOrder
import Mtrace.Client.Process

/-!
# The request of a leak scan

What `process_leaks_scan` sends: the addresses of the selected blocks in the order of the table, and
a mask of low bits that none of them has.
-/

namespace Mtrace.Client

/-- The byte order of the host the process runs on. -/
def Process.order (env : Env) (p : Process) : ByteOrder :=
  if env.bigEndian != p.swapEndian then .big else .little

/-- `process->put_ulong`. -/
def Process.putUlong (env : Env) (p : Process) (v : UInt64) : List UInt8 :=
  (p.order env).bytes p.ptrSize v.toNat

/-- The loop of `set_block`, with a bound on its passes: 64 shifts clear every mask. -/
def shrinkMask (addr : UInt64) : ℕ → UInt64 → UInt64
  | 0, mask => mask
  | fuel + 1, mask => if addr &&& mask ≠ 0 then shrinkMask addr fuel (mask >>> 1) else mask

/-- The fields of `struct block_helper` that `set_block` writes. -/
structure BlockHelper where
  len : UInt32
  mask : UInt64
  data : List UInt8
  deriving DecidableEq, Repr

/-- `set_block`; the mark on the block is the effect `processLeaksScan` has on the table. -/
def setBlock (env : Env) (p : Process) (mode : ScanMode) (bh : BlockHelper) (b : RbBlock) :
    BlockHelper :=
  if setBlockSelects mode p b then
    ⟨bh.len + 1, shrinkMask b.addr 64 bh.mask, bh.data ++ p.putUlong env b.addr⟩
  else bh

def collectBlocks (env : Env) (p : Process) (mode : ScanMode) : BlockHelper :=
  p.blocks.foldl (setBlock env p mode) ⟨0, 0xffffffffffffffff, []⟩

/-- `struct mt_scan_payload`. -/
def mtScanPayload (o : ByteOrder) (ptrSize mask : ℕ) (data : List UInt8) : List UInt8 :=
  o.bytes 4 ptrSize ++ (o.bytes 4 0 ++ (o.bytes 8 mask ++ data))

/-- The payload `process_leaks_scan` hands to `client_send_msg`; `payload_len` is an
`unsigned int`.  For a process without allocations nothing is sent. -/
def leaksScanPayload (env : Env) (p : Process) (mode : ScanMode) : Option (List UInt8) :=
  if p.nAllocations = 0 then none
  else
    let bh := collectBlocks env p mode
    let payloadLen := UInt32.ofNat (16 + bh.len.toNat * p.ptrSize)
    some ((mtScanPayload (p.order env) p.ptrSize bh.mask.toNat bh.data).take payloadLen.toNat)

/-- The addresses of the blocks that a scan is about. -/
def Process.selected (p : Process) (mode : ScanMode) : List ℕ :=
  (p.blocks.filter (setBlockSelects mode p)).map fun b => b.addr.toNat

/-! ## The mask -/

/-- A mask of the `k` low bits. -/
def LowMask (mask : UInt64) (k : ℕ) : Prop := mask.toNat = 2 ^ k - 1

theorem LowMask.and_eq_zero_iff {mask : UInt64} {k : ℕ} (h : LowMask mask k) (addr : UInt64) :
    addr &&& mask = 0 ↔ 2 ^ k ∣ addr.toNat := by
  rw [← UInt64.toNat_inj, UInt64.toNat_and, h, Nat.and_two_pow_sub_one_eq_mod]
  exact (Nat.dvd_iff_mod_eq_zero).symm

theorem LowMask.shift {mask : UInt64} {k : ℕ} (h : LowMask mask (k + 1)) :
    LowMask (mask >>> 1) k := by
  have h1 : (mask >>> 1).toNat = mask.toNat / 2 := by
    rw [UInt64.toNat_shiftRight]
    exact Nat.shiftRight_one _
  have hpos : 0 < 2 ^ k := Nat.two_pow_pos k
  unfold LowMask at h ⊢
  rw [h1, h, pow_succ]
  omega

/-- The loop stops at a mask of low bits that the address does not have. -/
theorem shrinkMask_spec (addr : UInt64) (fuel k : ℕ) (mask : UInt64) (hk : k ≤ fuel)
    (h : LowMask mask k) :
    ∃ k' ≤ k, LowMask (shrinkMask addr fuel mask) k' ∧ 2 ^ k' ∣ addr.toNat := by
  induction fuel generalizing k mask with
  | zero =>
    obtain rfl : k = 0 := by omega
    exact ⟨0, le_rfl, h, by rw [pow_zero]; exact Nat.one_dvd _⟩
  | succ fuel ih =>
    rw [shrinkMask]
    by_cases hbit : addr &&& mask = 0
    · rw [if_neg (not_not.mpr hbit)]
      exact ⟨k, le_rfl, h, (h.and_eq_zero_iff addr).mp hbit⟩
    · rw [if_pos hbit]
      -- a mask without bits would not have been shifted
      obtain ⟨j, rfl⟩ : ∃ j, k = j + 1 := by
        refine Nat.exists_eq_succ_of_ne_zero ?_
        rintro rfl
        exact hbit ((h.and_eq_zero_iff addr).mpr (by rw [pow_zero]; exact Nat.one_dvd _))
      obtain ⟨k', hk', hmask, hdvd⟩ := ih j _ (by omega) h.shift
      exact ⟨k', by omega, hmask, hdvd⟩

/-! ## The walk over the blocks -/

/-- What `set_block` has collected from blocks with the addresses `xs`. -/
structure Collected (env : Env) (p : Process) (xs : List ℕ) (bh : BlockHelper) : Prop where
  len : bh.len = UInt32.ofNat xs.length
  data : bh.data = (p.order env).array p.ptrSize xs
  mask : ∃ k ≤ 64, LowMask bh.mask k ∧ ∀ a ∈ xs, 2 ^ k ∣ a

theorem collected_nil (env : Env) (p : Process) :
    Collected env p [] ⟨0, 0xffffffffffffffff, []⟩ where
  len := rfl
  data := rfl
  mask := ⟨64, le_rfl, by unfold LowMask; decide, by simp⟩

theorem Collected.setBlock {env : Env} {p : Process} {mode : ScanMode} {xs : List ℕ}
    {bh : BlockHelper} {b : RbBlock} (h : Collected env p xs bh)
    (hb : setBlockSelects mode p b = true) :
    Collected env p (xs ++ [b.addr.toNat]) (setBlock env p mode bh b) := by
  obtain ⟨k, hk, hmask, hdvd⟩ := h.mask
  obtain ⟨k', hk', hmask', hdvd'⟩ := shrinkMask_spec b.addr 64 k bh.mask hk hmask
  unfold Client.setBlock
  rw [if_pos hb]
  refine ⟨?_, ?_, k', by omega, hmask', ?_⟩
  · show bh.len + 1 = _
    rw [h.len, List.length_append, UInt32.ofNat_add]
    rfl
  · show bh.data ++ p.putUlong env b.addr = _
    rw [h.data, ByteOrder.array_append]
    simp [ByteOrder.array, Process.putUlong]
  · intro a ha
    rcases List.mem_append.mp ha with ha | ha
    · exact (Nat.pow_dvd_pow 2 hk').trans (hdvd a ha)
    · rw [List.mem_singleton] at ha
      rw [ha]
      exact hdvd'

theorem Collected.foldl {env : Env} {p : Process} {mode : ScanMode} (bs : List RbBlock)
    {xs : List ℕ} {bh : BlockHelper} (h : Collected env p xs bh) :
    Collected env p (xs ++ (bs.filter (setBlockSelects mode p)).map fun b => b.addr.toNat)
      (bs.foldl (Client.setBlock env p mode) bh) := by
  induction bs generalizing xs bh with
  | nil => simpa using h
  | cons b bs ih =>
    rw [List.foldl_cons]
    by_cases hb : setBlockSelects mode p b = true
    · have hnext := ih (h.setBlock hb)
      rw [List.filter_cons_of_pos hb, List.map_cons]
      simpa using hnext
    · have hkeep : Client.setBlock env p mode bh b = bh := if_neg hb
      rw [List.filter_cons_of_neg hb, hkeep]
      exact ih h

theorem collected_collectBlocks (env : Env) (p : Process) (mode : ScanMode) :
    Collected env p (p.selected mode) (collectBlocks env p mode) :=
  (collected_nil env p).foldl p.blocks

theorem leaksScanPayload_eq_none_iff (env : Env) (p : Process) (mode : ScanMode) :
    leaksScanPayload env p mode = none ↔ p.nAllocations = 0 := by
  unfold leaksScanPayload
  by_cases h : p.nAllocations = 0
  · rw [if_pos h]
    exact ⟨fun _ => h, fun _ => rfl⟩
  · rw [if_neg h]
    exact ⟨fun hn => (by cases hn), fun h' => absurd h' h⟩

/-- The payload of a scan over fewer than `2 ^ 28` blocks is complete. -/
theorem leaksScanPayload_eq (env : Env) (p : Process) (mode : ScanMode) {payload : List UInt8}
    (hsize : p.blocks.length < 2 ^ 28) (h : leaksScanPayload env p mode = some payload) :
    payload = mtScanPayload (p.order env) p.ptrSize (collectBlocks env p mode).mask.toNat
      ((p.order env).array p.ptrSize (p.selected mode)) := by
  have hc := collected_collectBlocks env p mode
  have hlen : (p.selected mode).length < 2 ^ 28 := by
    refine lt_of_le_of_lt ?_ hsize
    unfold Process.selected
    rw [List.length_map]
    exact List.length_filter_le _ _
  have hptr : p.ptrSize ≤ 8 := by unfold Process.ptrSize; split <;> omega
  have hmul : (p.selected mode).length * p.ptrSize ≤ (p.selected mode).length * 8 :=
    Nat.mul_le_mul_left _ hptr
  have hn : (collectBlocks env p mode).len.toNat = (p.selected mode).length := by
    rw [hc.len, UInt32.toNat_ofNat']
    omega
  have hne : p.nAllocations ≠ 0 := by
    intro h0
    rw [(leaksScanPayload_eq_none_iff env p mode).mpr h0] at h
    cases h
  unfold leaksScanPayload at h
  rw [if_neg hne] at h
  cases h
  rw [hn, hc.data, UInt32.toNat_ofNat', Nat.mod_eq_of_lt (by omega)]
  apply List.take_of_length_le
  unfold mtScanPayload
  simp only [List.length_append, ByteOrder.length_bytes, ByteOrder.length_array]
  omega

end Mtrace.Client
