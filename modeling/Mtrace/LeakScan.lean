import Mtrace.Client.Bulk
import Mtrace.Client.Client
import Mtrace.Client.Scan
import Mtrace.Server.Scan

/-!
# A leak scan from end to end

The client's request, run through the server's `mem_scan`.  The process runs on the host of the
server, so the server reads the request in the byte order of the process.
-/

namespace Mtrace

open Client Server

/-- The aligned words of a page. -/
def Server.Page.words (o : ByteOrder) (w : ℕ) (page : Page) : List ℕ :=
  (List.range (pageSize / w)).map (o.word w page.bytes)

section Request

variable (o : ByteOrder) {w mask : ℕ} {xs : List ℕ}

/-- The fields of a request as `mem_scan` reads them. -/
theorem mtScanPayload_fields (hw : w < 256 ^ 4) (hmask : mask < 256 ^ 8) (data : List UInt8) :
    o.value ((mtScanPayload o w mask data).take 4) = w ∧
      o.value (((mtScanPayload o w mask data).drop 8).take 8) = mask ∧
      (mtScanPayload o w mask data).drop 16 = data := by
  have h4 (n : ℕ) : (o.bytes 4 n).length = 4 := o.length_bytes 4 n
  have h8 : (o.bytes 8 mask).length = 8 := o.length_bytes 8 mask
  have hdrop8 : (mtScanPayload o w mask data).drop 8 = o.bytes 8 mask ++ data := by
    unfold mtScanPayload
    rw [← List.append_assoc]
    exact List.drop_left' (by rw [List.length_append, h4, h4])
  have hdrop16 : (mtScanPayload o w mask data).drop 16 =
      ((mtScanPayload o w mask data).drop 8).drop 8 := by
    rw [List.drop_drop]
  refine ⟨?_, ?_, ?_⟩
  · unfold mtScanPayload
    rw [List.take_left' (h4 w)]
    exact o.value_bytes_self hw
  · rw [hdrop8, List.take_left' h8]
    exact o.value_bytes_self hmask
  · rw [hdrop16, hdrop8, List.drop_left' h8]

/-- The answer to a request: the addresses that no word of the pages has. -/
theorem memScan_eq (hw : w = 4 ∨ w = 8) (hmask : mask < 256 ^ 8) (hx : Searchable w mask xs)
    (mem : Memory) :
    memScan o (some mem) (mtScanPayload o w mask (o.array w xs)) =
      o.array w (xs.filter (· ∉ mem.scannedPages.flatMap (Page.words o w))) := by
  have hw4 : w < 256 ^ 4 := by rcases hw with rfl | rfl <;> decide
  have hwpos : 0 < w := by omega
  obtain ⟨hptr, hmaskv, hblocks⟩ := mtScanPayload_fields o hw4 hmask (o.array w xs)
  have hn : ((mtScanPayload o w mask (o.array w xs)).length - 16) / w = xs.length := by
    rw [← List.length_drop, hblocks, ByteOrder.length_array, Nat.mul_div_cancel _ hwpos]
  have hval : (if w = 4 then getVal32 o else getVal64 o) = o.word w := by
    rcases hw with rfl | rfl <;> rfl
  unfold memScan
  rw [hptr, hmaskv, hblocks]
  dsimp only
  rw [hn, hval]
  by_cases hnil : xs = []
  · subst hnil
    rfl
  · have hlen : xs.length ≠ 0 := fun h => hnil (List.length_eq_zero_iff.mp h)
    have hstart : Blocks.Holds o w ⟨xs.length, o.array w xs⟩ xs :=
      ⟨rfl, [], (List.append_nil _).symm⟩
    obtain ⟨hleft, rest, hrest⟩ := strikes_scanMaps mem mem.maps _ xs hnil hx hstart
    rw [if_neg hlen, hleft, hrest, List.take_left' (ByteOrder.length_array o w _)]
    rfl

end Request

theorem mem_selected {p : Process} {mode : ScanMode} {a : ℕ} :
    a ∈ p.selected mode ↔
      ∃ b ∈ p.blocks, setBlockSelects mode p b = true ∧ b.addr.toNat = a := by
  unfold Process.selected
  simp only [List.mem_map, List.mem_filter, and_assoc]

/-- The addresses of a request are as `mem_scan` needs them. -/
theorem searchable_selected (env : Env) (p : Process) (mode : ScanMode)
    (hsorted : p.blocks.Pairwise fun b b' => b.addr < b'.addr)
    (hfits : ∀ b ∈ p.blocks, b.addr.toNat < 256 ^ p.ptrSize) :
    Searchable p.ptrSize (collectBlocks env p mode).mask.toNat (p.selected mode) where
  sorted := by
    refine List.Pairwise.map _ ?_ (hsorted.filter _)
    intro b b' hlt
    exact UInt64.lt_iff_toNat_lt.mp hlt
  fits := by
    intro x hx
    obtain ⟨b, hb, -, rfl⟩ := mem_selected.mp hx
    exact hfits b hb
  masked := by
    obtain ⟨k, -, hmask, hdvd⟩ := (collected_collectBlocks env p mode).mask
    intro x hx
    rw [hmask, Nat.and_two_pow_sub_one_eq_mod]
    exact Nat.mod_eq_zero_of_dvd (hdvd x hx)

/-- A scan yields exactly the addresses of the selected blocks that no aligned word of the scanned
pages has, and its mask skips no word that is such an address.  The addresses of a process are words
of `ptr_size` bytes: `get_ulong` has read them. -/
theorem leaksScan_exact (env : Env) (p : Process) (mode : ScanMode) (hcount : p.Counted)
    (hsize : p.blocks.length < 2 ^ 28)
    (hsorted : p.blocks.Pairwise fun b b' => b.addr < b'.addr)
    (hfits : ∀ b ∈ p.blocks, b.addr.toNat < 256 ^ p.ptrSize) :
    (p.blocks = [] ∧ leaksScanPayload env p mode = none) ∨
      ∃ payload, leaksScanPayload env p mode = some payload ∧
        (∀ mem : Memory, ∃ leaks,
          memScan (p.order env) (some mem) payload = (p.order env).array p.ptrSize leaks ∧
            leaks.Pairwise (· < ·) ∧
            ∀ a, a ∈ leaks ↔
              (∃ b ∈ p.blocks, setBlockSelects mode p b = true ∧ b.addr.toNat = a) ∧
                ∀ page ∈ mem.scannedPages, a ∉ page.words (p.order env) p.ptrSize) ∧
        ∀ b ∈ p.blocks, setBlockSelects mode p b = true →
          b.addr.toNat &&& (p.order env).value ((payload.drop 8).take 8) = 0 := by
  have hx := searchable_selected env p mode hsorted hfits
  have hw : p.ptrSize = 4 ∨ p.ptrSize = 8 := by
    unfold Process.ptrSize
    split
    · exact .inr rfl
    · exact .inl rfl
  have hmask : (collectBlocks env p mode).mask.toNat < 256 ^ 8 :=
    (collectBlocks env p mode).mask.toNat_lt
  rcases hpay : leaksScanPayload env p mode with _ | payload
  · left
    have hzero := (leaksScanPayload_eq_none_iff env p mode).mp hpay
    rw [hcount, ← UInt64.toNat_inj, UInt64.toNat_ofNat'] at hzero
    have hlen : p.blocks.length = 0 := by
      rw [Nat.mod_eq_of_lt (by omega)] at hzero
      exact hzero
    exact ⟨List.length_eq_zero_iff.mp hlen, rfl⟩
  · right
    have heq := leaksScanPayload_eq env p mode hsize hpay
    refine ⟨payload, rfl, ?_, ?_⟩
    · intro mem
      refine ⟨_, by rw [heq]; exact memScan_eq _ hw hmask hx mem, (hx.filter _).sorted, ?_⟩
      intro a
      simp only [List.mem_filter, mem_selected, List.mem_flatMap, decide_eq_true_eq, not_exists,
        not_and]
    · intro b hb hsel
      have hptr : p.ptrSize < 256 ^ 4 := by omega
      have hfield := (mtScanPayload_fields (p.order env) hptr hmask
        ((p.order env).array p.ptrSize (p.selected mode))).2.1
      rw [heq, hfield]
      exact hx.masked _ (mem_selected.mpr ⟨b, hb, hsel, rfl⟩)

/-- Three blocks of a 64-bit process, of which the last one is ignored. -/
def threeBlocks : Process :=
  { processNew 1 false true with
    is64bit := true
    nAllocations := 3
    blockTable := .node .black (.node .red .nil ⟨0, 0x602010, 16, 0⟩ .nil) ⟨0, 0x602030, 16, 0⟩
      (.node .red .nil ⟨blockIgnore, 0x602050, 16, 0⟩ .nil) }

theorem length_heldWords (x : ℕ) :
    (ByteOrder.little.array 8 (x :: List.replicate 511 0)).length = pageSize := by
  rw [ByteOrder.length_array, List.length_cons, List.length_replicate]
  rfl

/-- A page whose first word is `x`, with zeros behind it. -/
def heldPage (x : ℕ) : Page :=
  ⟨ByteOrder.little.array 8 (x :: List.replicate 511 0), length_heldWords x⟩

theorem words_heldPage {x : ℕ} (hx : x < 256 ^ 8) :
    (heldPage x).words .little 8 = x :: List.replicate 511 0 := by
  have hfits : ∀ a ∈ x :: List.replicate 511 0, a < 256 ^ 8 := by
    intro a ha
    rcases List.mem_cons.mp ha with rfl | ha
    · exact hx
    · rw [(List.mem_replicate.mp ha).2]
      exact Nat.pow_pos (by decide)
  have hlen : (x :: List.replicate 511 0).length = pageSize / 8 := by
    rw [List.length_cons, List.length_replicate]
    rfl
  have hwords : (heldPage x).words .little 8 = (List.range (pageSize / 8)).map
      (ByteOrder.little.word 8 (ByteOrder.little.array 8 (x :: List.replicate 511 0))) := rfl
  rw [hwords]
  refine List.ext_getElem ?_ fun i _ hi => ?_
  · rw [hlen, List.length_map, List.length_range]
  · have hword := ByteOrder.little.word_array 8 _ [] hfits hi
    rw [List.append_nil] at hword
    rw [List.getElem_map, List.getElem_range, hword]

/-- The memory of a process that keeps a pointer to its first block. -/
def heldMemory : Memory := ⟨[(0x7000, 0x8000)], fun _ => some (heldPage 0x602010), fun _ => none⟩

/-- The block that memory points to and the one that is ignored do not leak, the other one does. -/
theorem leaksScan_exact_threeBlocks : ∃ payload leaks,
    leaksScanPayload plainEnv threeBlocks .all = some payload ∧
      memScan .little (some heldMemory) payload = ByteOrder.little.array 8 leaks ∧
      leaks.Pairwise (· < ·) ∧ 0x602010 ∉ leaks ∧ 0x602030 ∈ leaks ∧ 0x602050 ∉ leaks := by
  have hscan := leaksScan_exact plainEnv threeBlocks .all rfl (by decide) (by decide) (by decide)
  obtain ⟨hnil, -⟩ | ⟨payload, hpayload, hmem, -⟩ := hscan
  · exact absurd hnil (List.cons_ne_nil _ _)
  obtain ⟨leaks, hanswer, hsorted, hleaks⟩ := hmem heldMemory
  have hword (a : ℕ) : (∀ page ∈ heldMemory.scannedPages,
      a ∉ page.words (threeBlocks.order plainEnv) threeBlocks.ptrSize) ↔
        a ≠ 0x602010 ∧ a ≠ 0 := by
    have hpages : heldMemory.scannedPages = [heldPage 0x602010] := rfl
    have hwords := words_heldPage (x := 0x602010) (by decide)
    rw [hpages, List.forall_mem_singleton]
    show a ∉ (heldPage 0x602010).words .little 8 ↔ _
    rw [hwords, List.mem_cons, List.mem_replicate]
    omega
  refine ⟨payload, leaks, hpayload, hanswer, hsorted, ?_, ?_, ?_⟩
  · rw [hleaks, hword]
    exact fun h => h.2.1 rfl
  · rw [hleaks, hword]
    exact ⟨⟨⟨0, 0x602030, 16, 0⟩, by decide, rfl, rfl⟩, by decide, by decide⟩
  · rw [hleaks]
    rintro ⟨⟨b, hb, hsel, haddr⟩, -⟩
    revert b
    decide

end Mtrace
