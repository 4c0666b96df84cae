import Mathlib.Data.List.Nodup
import Mtrace.Bisect
import Mtrace.ByteOrder

/-!
# The scan for leaks

`mem_scan` of `sysdeps/linux-gnu/os.c`: the server reads the writeable pages of a process and
strikes every address it finds there from the array of the request, which shrinks while it is
searched.  What is left at the end is the answer.  Numbers are those of a host with 64-bit
`unsigned long`. -/

namespace Mtrace.Server

open ByteOrder

def pageSize : ℕ := 4096

/-- The contents of `page_buf`. -/
structure Page where
  bytes : List UInt8
  length_eq : bytes.length = pageSize

/-- The memory of the task: its writeable mappings, and a page as `lseek` and `read` on
`/proc/<pid>/mem` and as `copy_from_proc` yield it. -/
structure Memory where
  maps : List (ℕ × ℕ)
  read : ℕ → Option Page
  copyFromProc : ℕ → Option Page

def getVal32 (o : ByteOrder) (data : List UInt8) (index : ℕ) : ℕ := o.word 4 data index

def getVal64 (o : ByteOrder) (data : List UInt8) (index : ℕ) : ℕ := o.word 8 data index

/-- `find_block`.  As `n` is not `0`, the condition of its loop also holds at the entry. -/
def findBlock (getVal : List UInt8 → ℕ → ℕ) (arr : List UInt8) (n addr : ℕ) : ℕ :=
  if addr < getVal arr 0 then n
  else if getVal arr (n - 1) < addr then n
  else (Bisect.search (getVal arr) addr n 0 n).getD n

/-- The variables `n` and `blocks` of `mem_scan`. -/
structure Blocks where
  n : ℕ
  blocks : List UInt8
  deriving DecidableEq, Repr

/-- What stays fixed during a scan: `ptr_size`, `mask` and `get_val`. -/
structure Scan where
  ptrSize : ℕ
  mask : ℕ
  getVal : List UInt8 → ℕ → ℕ

namespace Scan

/-- The body of the innermost loop; the loops are left when `n` is `0`. -/
def scanWord (c : Scan) (s : Blocks) (addr : ℕ) : Blocks :=
  if addr &&& c.mask ≠ 0 then s
  else
    let found := findBlock c.getVal s.blocks s.n addr
    if found ≠ s.n then
      let n := s.n - 1
      if n = 0 then ⟨n, s.blocks⟩
      else if found ≠ n then
        ⟨n, memmove s.blocks (found * c.ptrSize) ((found + 1) * c.ptrSize)
          ((n - found) * c.ptrSize)⟩
      else ⟨n, s.blocks⟩
    else s

/-- The words of a page. -/
def pageWords (c : Scan) (page : Page) : List ℕ :=
  (List.range (pageSize / c.ptrSize)).map (c.getVal page.bytes)

def scanWords (c : Scan) : Blocks → List ℕ → Blocks
  | s, [] => s
  | s, addr :: addrs =>
    let s := c.scanWord s addr
    if s.n = 0 then s else c.scanWords s addrs

end Scan

namespace Memory

/-- The page at `start`, and `do_peek`: after a `read` that fails the mapping is read through
`ptrace`. -/
def readPage (mem : Memory) (doPeek : Bool) (start : ℕ) : Option Page × Bool :=
  if doPeek then (mem.copyFromProc start, true)
  else match mem.read start with
    | some page => (some page, false)
    | none => (mem.copyFromProc start, true)

/-- The next pages from `start` on, up to one that cannot be read. -/
def mapPages (mem : Memory) : ℕ → Bool → ℕ → List Page
  | 0, _, _ => []
  | pages + 1, doPeek, start =>
    match mem.readPage doPeek start with
    | (none, _) => []
    | (some page, doPeek) => page :: mem.mapPages pages doPeek (start + pageSize)

/-- How often the loop `while (start < end)` runs. -/
def pageCount (start stop : ℕ) : ℕ := (stop - start + (pageSize - 1)) / pageSize

/-- The pages of mappings; the array of the mappings ends with an empty one. -/
def pagesOf (mem : Memory) : List (ℕ × ℕ) → List Page
  | [] => []
  | (start, stop) :: maps =>
    if start = 0 ∨ stop = 0 then []
    else mem.mapPages (pageCount start stop) false start ++ mem.pagesOf maps

/-- The pages that a scan reads. -/
def scannedPages (mem : Memory) : List Page := mem.pagesOf mem.maps

end Memory

namespace Scan

/-- The loop over the pages of a mapping. -/
def scanMap (c : Scan) (mem : Memory) : ℕ → Bool → ℕ → Blocks → Blocks
  | 0, _, _, s => s
  | pages + 1, doPeek, start, s =>
    match mem.readPage doPeek start with
    | (none, _) => s
    | (some page, doPeek) =>
      let s := c.scanWords s (c.pageWords page)
      if s.n = 0 then s else c.scanMap mem pages doPeek (start + pageSize) s

/-- The loop over the mappings. -/
def scanMaps (c : Scan) (mem : Memory) : List (ℕ × ℕ) → Blocks → Blocks
  | [], s => s
  | (start, stop) :: maps, s =>
    if start = 0 ∨ stop = 0 then s
    else
      let s := c.scanMap mem (Memory.pageCount start stop) false start s
      if s.n = 0 then s else c.scanMaps mem maps s

end Scan

/-- `mem_scan` on a host of byte order `o`: the bytes `report_scan` sends.  `none` stands for the
`-1` of `open_mem`, which ends the server before it returns that (`memScanChecked`). -/
def memScan (o : ByteOrder) (openMem : Option Memory) (payload : List UInt8) : List UInt8 :=
  let ptrSize := o.value (payload.take 4)
  let mask := o.value ((payload.drop 8).take 8)
  let blocks := payload.drop 16
  let n := (payload.length - 16) / ptrSize
  if n = 0 then []
  else
    let getVal := if ptrSize = 4 then getVal32 o else getVal64 o
    match openMem with
    | none => []
    | some mem =>
      let s := (Scan.mk ptrSize mask getVal).scanMaps mem mem.maps ⟨n, blocks⟩
      s.blocks.take (s.n * ptrSize)

/-! ## The array of the request -/

/-- The array holds the addresses `xs`. -/
def Blocks.Holds (o : ByteOrder) (w : ℕ) (s : Blocks) (xs : List ℕ) : Prop :=
  s.n = xs.length ∧ ∃ rest, s.blocks = o.array w xs ++ rest

/-- The addresses are increasing words of `w` bytes without the bits of the mask. -/
structure Searchable (w mask : ℕ) (xs : List ℕ) : Prop where
  sorted : xs.Pairwise (· < ·)
  fits : ∀ x ∈ xs, x < 256 ^ w
  masked : ∀ x ∈ xs, x &&& mask = 0

theorem Searchable.nodup {w mask : ℕ} {xs : List ℕ} (h : Searchable w mask xs) : xs.Nodup :=
  h.sorted.imp fun hlt => hlt.ne

theorem Searchable.filter {w mask : ℕ} {xs : List ℕ} (h : Searchable w mask xs) (q : ℕ → Bool) :
    Searchable w mask (xs.filter q) where
  sorted := h.sorted.filter q
  fits := fun x hx => h.fits x ((List.mem_filter.mp hx).1)
  masked := fun x hx => h.masked x ((List.mem_filter.mp hx).1)

section Search

variable {o : ByteOrder} {w mask : ℕ} {s : Blocks} {xs : List ℕ}

theorem word_of_holds (h : s.Holds o w xs) (hx : Searchable w mask xs) {i : ℕ}
    (hi : i < xs.length) : o.word w s.blocks i = xs[i] := by
  obtain ⟨-, rest, hrest⟩ := h
  rw [hrest]
  exact o.word_array w xs rest hx.fits hi

theorem word_lt_word (h : s.Holds o w xs) (hx : Searchable w mask xs) (i j : ℕ) (hij : i < j)
    (hj : j < xs.length) : o.word w s.blocks i < o.word w s.blocks j := by
  rw [word_of_holds h hx (hij.trans hj), word_of_holds h hx hj]
  exact List.pairwise_iff_getElem.mp hx.sorted i j (hij.trans hj) hj hij

theorem word_le_word (h : s.Holds o w xs) (hx : Searchable w mask xs) {i j : ℕ} (hij : i ≤ j)
    (hj : j < xs.length) : o.word w s.blocks i ≤ o.word w s.blocks j := by
  rcases hij.eq_or_lt with rfl | hlt
  · exact le_rfl
  · exact (word_lt_word h hx i j hlt hj).le

/-- `find_block` yields the index of an address of the array, and `n` for every other one. -/
theorem findBlock_spec (h : s.Holds o w xs) (hx : Searchable w mask xs) (hne : xs ≠ [])
    (addr : ℕ) :
    (addr ∉ xs ∧ findBlock (o.word w) s.blocks s.n addr = s.n) ∨
      ∃ i, ∃ hi : i < xs.length, xs[i] = addr ∧ findBlock (o.word w) s.blocks s.n addr = i := by
  have hpos : 0 < xs.length := List.length_pos_iff.mpr hne
  rw [h.1]
  unfold findBlock
  by_cases hmem : addr ∈ xs
  · right
    obtain ⟨i, hi, hxi⟩ := List.getElem_of_mem hmem
    have hwi : o.word w s.blocks i = addr := (word_of_holds h hx hi).trans hxi
    refine ⟨i, hi, hxi, ?_⟩
    rw [if_neg, if_neg, Bisect.search_complete (word_lt_word h hx) (by omega)
      (Nat.zero_le i) hi hwi]
    · rfl
    · rw [not_lt, ← hwi]
      exact word_le_word h hx (by omega) (by omega)
    · rw [not_lt, ← hwi]
      exact word_le_word h hx (Nat.zero_le i) hi
  · left
    refine ⟨hmem, ?_⟩
    -- an index that the search yields would have the address
    have hnone : Bisect.search (o.word w s.blocks) addr xs.length 0 xs.length = none := by
      rcases hs : Bisect.search (o.word w s.blocks) addr xs.length 0 xs.length with _ | i
      · rfl
      · obtain ⟨hi, hword⟩ := Bisect.search_sound hs
        rw [word_of_holds h hx hi] at hword
        exact absurd (hword ▸ List.getElem_mem hi) hmem
    rw [hnone, Option.getD_none]
    split
    · rfl
    · split <;> rfl

/-- One word of the memory strikes its address. -/
theorem scanWord_spec (h : s.Holds o w xs) (hx : Searchable w mask xs) (hne : xs ≠ [])
    (addr : ℕ) :
    ((Scan.mk w mask (o.word w)).scanWord s addr).Holds o w (xs.erase addr) := by
  unfold Scan.scanWord
  by_cases hmask : addr &&& mask = 0
  · rw [if_neg (not_not.mpr hmask)]
    dsimp only
    rcases findBlock_spec h hx hne addr with ⟨hmem, hfound⟩ | ⟨i, hi, rfl, hfound⟩
    · rw [hfound, if_neg (not_not.mpr rfl), List.erase_of_not_mem hmem]
      exact h
    · obtain ⟨hn, rest, hrest⟩ := h
      have hlen : (xs.eraseIdx i).length = s.n - 1 := by
        rw [List.length_eraseIdx_of_lt hi, hn]
      rw [hfound, if_pos (by omega), List.Nodup.erase_getElem hx.nodup i hi]
      by_cases hlast : s.n - 1 = 0
      · have hnil : xs.eraseIdx i = [] := List.length_eq_zero_iff.mp (hlen.trans hlast)
        rw [if_pos hlast, hnil]
        exact ⟨hlast, s.blocks, rfl⟩
      · rw [if_neg hlast]
        by_cases hend : i = s.n - 1
        · -- the last address needs no move
          have htake : xs.eraseIdx i = xs.take i := by
            rw [List.eraseIdx_eq_take_drop_succ, List.drop_eq_nil_of_le (by omega),
              List.append_nil]
          rw [if_neg (not_not.mpr hend), htake]
          refine ⟨?_, o.array w (xs.drop i) ++ rest, ?_⟩
          · rw [List.length_take]
            show s.n - 1 = _
            omega
          · rw [← List.append_assoc, ← array_append, List.take_append_drop]
            exact hrest
        · rw [if_pos hend, hn, hrest]
          obtain ⟨rest', hmove⟩ := o.memmove_array w xs rest hi
          exact ⟨by rw [hlen, hn], rest', hmove⟩
  · -- a word that the mask skips is not in the array
    rw [if_pos hmask, List.erase_of_not_mem fun hmem => hmask (hx.masked addr hmem)]
    exact h

end Search

/-! ## Whole runs -/

/-- From `s` to `s'` exactly the addresses in `ws` are struck. -/
def Strikes (o : ByteOrder) (w mask : ℕ) (s s' : Blocks) (ws : List ℕ) : Prop :=
  ∀ xs, xs ≠ [] → Searchable w mask xs → s.Holds o w xs → s'.Holds o w (xs.filter (· ∉ ws))

section Strikes

variable {o : ByteOrder} {w mask : ℕ} {s s' s'' : Blocks}

theorem Strikes.refl (s : Blocks) : Strikes o w mask s s [] := by
  intro xs _ _ h
  have hall : xs.filter (· ∉ []) = xs := List.filter_eq_self.mpr (by simp)
  rw [hall]
  exact h

/-- Two parts of a scan one after another; an empty array ends it. -/
theorem Strikes.andThen {ws ws' : List ℕ} (h : Strikes o w mask s s' ws)
    (h' : Strikes o w mask s' s'' ws') :
    Strikes o w mask s (if s'.n = 0 then s' else s'') (ws ++ ws') := by
  intro xs hne hx hs
  have hfirst := h xs hne hx hs
  have hboth : xs.filter (· ∉ ws ++ ws') = (xs.filter (· ∉ ws)).filter (· ∉ ws') := by
    rw [List.filter_filter]
    congr 1
    funext x
    simp [Bool.and_comm]
  rw [hboth]
  by_cases hn : s'.n = 0
  · have hnil : xs.filter (· ∉ ws) = [] := List.length_eq_zero_iff.mp (hfirst.1.symm.trans hn)
    rw [if_pos hn]
    rw [hnil] at hfirst ⊢
    exact hfirst
  · have hrest : xs.filter (· ∉ ws) ≠ [] := by
      intro hnil
      rw [hnil] at hfirst
      exact hn hfirst.1
    rw [if_neg hn]
    exact h' _ hrest (hx.filter _) hfirst

theorem strikes_scanWords (s : Blocks) (ws : List ℕ) :
    Strikes o w mask s ((Scan.mk w mask (o.word w)).scanWords s ws) ws := by
  induction ws generalizing s with
  | nil => exact .refl s
  | cons addr ws ih =>
    have hword : Strikes o w mask s ((Scan.mk w mask (o.word w)).scanWord s addr) [addr] := by
      intro xs hne hx hs
      have h := scanWord_spec hs hx hne addr
      have hfilter : xs.filter (· ∉ [addr]) = xs.erase addr := by
        rw [List.Nodup.erase_eq_filter hx.nodup]
        congr 1
        funext x
        simp [bne, Bool.beq_eq_decide_eq]
      rw [hfilter]
      exact h
    exact hword.andThen (ih _)

theorem strikes_scanMap (mem : Memory) (pages : ℕ) (doPeek : Bool) (start : ℕ) (s : Blocks) :
    Strikes o w mask s ((Scan.mk w mask (o.word w)).scanMap mem pages doPeek start s)
      ((mem.mapPages pages doPeek start).flatMap (Scan.mk w mask (o.word w)).pageWords) := by
  induction pages generalizing doPeek start s with
  | zero => exact .refl s
  | succ pages ih =>
    rw [Scan.scanMap, Memory.mapPages]
    rcases mem.readPage doPeek start with ⟨page | page, doPeek'⟩
    · exact .refl s
    · exact (strikes_scanWords s _).andThen (ih _ _ _)

theorem strikes_scanMaps (mem : Memory) (maps : List (ℕ × ℕ)) (s : Blocks) :
    Strikes o w mask s ((Scan.mk w mask (o.word w)).scanMaps mem maps s)
      ((mem.pagesOf maps).flatMap (Scan.mk w mask (o.word w)).pageWords) := by
  induction maps generalizing s with
  | nil => exact .refl s
  | cons m maps ih =>
    rw [Scan.scanMaps, Memory.pagesOf]
    by_cases hend : m.1 = 0 ∨ m.2 = 0
    · rw [if_pos hend, if_pos hend]
      exact .refl s
    · rw [if_neg hend, if_neg hend, List.flatMap_append]
      exact (strikes_scanMap mem _ _ _ s).andThen (ih _)

end Strikes

end Mtrace.Server
