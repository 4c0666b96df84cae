import Mathlib.Data.List.GetD
import Mathlib.Data.UInt
import Mathlib.Logic.Function.Basic
import Mtrace.Server.Memory

/-!
# Patching the memory of a task

`copy_to_proc` and `copy_from_to_proc`, by which break instructions get into the text and out of it.
Memory is written in words of eight bytes; the last word is filled up with what is there.
-/

namespace Mtrace.Server

/-- The memory with other bytes from an address on. -/
def pokeBytes (proc : ProcMem) (addr : UInt64) (bytes : List UInt8) : ProcMem := fun a =>
  bytes[(a - addr).toNat]?.or (proc a)

/-- Whether the word at an address can be written, and `errno` where it cannot be read or written. 
A word can be read that is mapped; `errno` is 0 otherwise, so that a word of ones is no error. -/
structure Ptrace where
  writable : UInt64 → Bool
  errno : UInt64 → Errno

namespace Ptrace

variable (pt : Ptrace)

/-- `PTRACE_PEEKTEXT`. -/
def peek (proc : ProcMem) (addr : UInt64) : Option (List UInt8) := bytesAt proc addr 8

/-- `PTRACE_POKETEXT`. -/
def poke (proc : ProcMem) (addr : UInt64) (word : List UInt8) : Option ProcMem :=
  if pt.writable addr then some (pokeBytes proc addr word) else none

/-- What is returned where a word cannot be read or written. -/
def failed (addr : UInt64) (numBytes : ℕ) : ℤ :=
  if numBytes ≠ 0 ∧ pt.errno addr = .eio then numBytes else -1

end Ptrace

/-- `copy_to_proc`; `numBytes` have been written already. -/
def copyToProc (pt : Ptrace) (proc : ProcMem) (addr : UInt64) (numBytes : ℕ) (src : List UInt8) :
    ℤ × ProcMem :=
  if src = [] then (numBytes, proc)
  else
    let n := min 8 src.length
    let rest := if src.length < 8 then (Ptrace.peek proc addr).map (·.drop n) else some []
    match rest with
    | none => (pt.failed addr numBytes, proc)
    | some rest =>
      match pt.poke proc addr (src.take n ++ rest) with
      | none => (pt.failed addr numBytes, proc)
      | some proc => copyToProc pt proc (addr + .ofNat n) (numBytes + n) (src.drop n)
termination_by src.length
decreasing_by
  have hpos := List.length_pos_iff.mpr ‹¬ src = []›
  rw [List.length_drop]
  omega

/-- What `copy_from_to_proc` returns, what it has written to `dst`, and the memory. -/
structure Exchanged where
  ret : ℤ
  dst : List UInt8
  proc : ProcMem

/-- `copy_from_to_proc`; what is in `dst` has been exchanged already. -/
def copyFromToProc (pt : Ptrace) (proc : ProcMem) (addr : UInt64) (src dst : List UInt8) :
    Exchanged :=
  if src = [] then ⟨dst.length, dst, proc⟩
  else
    match Ptrace.peek proc addr with
    | none => ⟨pt.failed addr dst.length, dst, proc⟩
    | some word =>
      let n := min 8 src.length
      match pt.poke proc addr (src.take n ++ word.drop n) with
      | none => ⟨pt.failed addr dst.length, dst ++ word.take n, proc⟩
      | some proc => copyFromToProc pt proc (addr + .ofNat n) (src.drop n) (dst ++ word.take n)
termination_by src.length
decreasing_by
  have hpos := List.length_pos_iff.mpr ‹¬ src = []›
  rw [List.length_drop]
  omega

/-- The words of a range can be read and written. -/
def Patchable (pt : Ptrace) (proc : ProcMem) (addr : UInt64) (len : ℕ) : Prop :=
  ∀ k, 8 * k < len → (Ptrace.peek proc (addr + .ofNat (8 * k))).isSome = true ∧
    pt.writable (addr + .ofNat (8 * k)) = true

/-! ## Bytes from an address on -/

section Bytes

variable {proc : ProcMem} {addr : UInt64} {bytes xs ys : List UInt8} {i n : ℕ}

theorem add_ofNat_add_ofNat (addr : UInt64) (m n : ℕ) :
    addr + .ofNat m + .ofNat n = addr + .ofNat (m + n) := by
  rw [UInt64.ofNat_add, UInt64.add_assoc]

theorem bytesAt_eq_some :
    bytesAt proc addr n = some bytes ↔
      bytes.length = n ∧ ∀ i < n, proc (addr + .ofNat i) = bytes[i]? := by
  induction n generalizing addr bytes with
  | zero => simp [bytesAt, eq_comm]
  | succ n ih =>
    have hzero : addr + .ofNat 0 = addr := UInt64.add_zero addr
    have hsucc (i : ℕ) : addr + 1 + .ofNat i = addr + .ofNat (i + 1) := by
      rw [Nat.add_comm i, ← add_ofNat_add_ofNat]
      rfl
    have hnext (bs : List UInt8) : bytesAt proc (addr + 1) n = some bs ↔
        bs.length = n ∧ ∀ i < n, proc (addr + .ofNat (i + 1)) = bs[i]? := by
      rw [ih]
      simp only [hsucc]
    constructor
    · intro h
      obtain ⟨b, hb, h⟩ := Option.bind_eq_some_iff.mp h
      obtain ⟨bs, hbs, heq⟩ := Option.bind_eq_some_iff.mp h
      cases heq
      obtain ⟨hlen, hall⟩ := (hnext bs).mp hbs
      refine ⟨by rw [List.length_cons, hlen], fun i hi => ?_⟩
      cases i with
      | zero =>
        rw [hzero]
        exact hb
      | succ i => exact hall i (Nat.lt_of_succ_lt_succ hi)
    · rintro ⟨hlen, hall⟩
      cases bytes with
      | nil => cases hlen
      | cons b bs =>
        have hb : proc addr = some b := by
          rw [← hzero]
          exact hall 0 (Nat.succ_pos n)
        have hbs := (hnext bs).mpr
          ⟨Nat.succ.inj hlen, fun i hi => hall (i + 1) (Nat.succ_lt_succ hi)⟩
        rw [bytesAt, hb, hbs]
        rfl

/-- Every address is at some offset from another one. -/
theorem exists_offset (addr a : UInt64) : ∃ i < 2 ^ 64, a = addr + .ofNat i := by
  refine ⟨(a - addr).toNat, UInt64.toNat_lt _, ?_⟩
  rw [UInt64.ofNat_toNat, UInt64.add_comm, UInt64.sub_add_cancel]

theorem pokeBytes_add (hi : i < 2 ^ 64) :
    pokeBytes proc addr bytes (addr + .ofNat i) = bytes[i]?.or (proc (addr + .ofNat i)) := by
  have hoffset : (addr + .ofNat i - addr).toNat = i := by
    rw [UInt64.add_comm, UInt64.add_sub_cancel, UInt64.toNat_ofNat', Nat.mod_eq_of_lt hi]
  unfold pokeBytes
  rw [hoffset]

/-- No byte outside of the range changes. -/
theorem pokeBytes_outside (hle : bytes.length ≤ i) (hi : i < 2 ^ 64) :
    pokeBytes proc addr bytes (addr + .ofNat i) = proc (addr + .ofNat i) := by
  rw [pokeBytes_add hi, List.getElem?_eq_none hle, Option.none_or]

theorem pokeBytes_inside (hlt : i < bytes.length) (hi : i < 2 ^ 64) :
    pokeBytes proc addr bytes (addr + .ofNat i) = bytes[i]? := by
  rw [pokeBytes_add hi, List.getElem?_eq_getElem hlt, Option.some_or]

theorem pokeBytes_append (h : xs.length + ys.length ≤ 2 ^ 64) :
    pokeBytes (pokeBytes proc addr xs) (addr + .ofNat xs.length) ys =
      pokeBytes proc addr (xs ++ ys) := by
  funext a
  obtain ⟨i, hi, rfl⟩ := exists_offset addr a
  by_cases hlt : i < xs.length
  · -- the address is before the second part, or as far behind it
    have hwrap : addr + .ofNat i = addr + .ofNat xs.length + .ofNat (2 ^ 64 - xs.length + i) := by
      have hsum : xs.length + (2 ^ 64 - xs.length + i) = 2 ^ 64 + i := by omega
      rw [add_ofNat_add_ofNat, hsum, UInt64.ofNat_add]
      have hzero : UInt64.ofNat (2 ^ 64) = 0 := rfl
      rw [hzero, UInt64.zero_add]
    have hfirst : pokeBytes proc addr xs (addr + .ofNat i) = xs[i]? := pokeBytes_inside hlt hi
    have hboth : pokeBytes proc addr (xs ++ ys) (addr + .ofNat i) = (xs ++ ys)[i]? :=
      pokeBytes_inside (by rw [List.length_append]; omega) hi
    rw [hboth, List.getElem?_append_left hlt, ← hfirst, hwrap]
    exact pokeBytes_outside (by omega) (by omega)
  · have hsplit : addr + .ofNat i = addr + .ofNat xs.length + .ofNat (i - xs.length) := by
      rw [add_ofNat_add_ofNat, Nat.add_sub_cancel' (Nat.le_of_not_lt hlt)]
    have hfirst : pokeBytes proc addr xs (addr + .ofNat i) = proc (addr + .ofNat i) :=
      pokeBytes_outside (Nat.le_of_not_lt hlt) hi
    rw [pokeBytes_add hi, List.getElem?_append_right (Nat.le_of_not_lt hlt), hsplit,
      pokeBytes_add (by omega), ← hsplit, hfirst]

/-- Bytes are written in two parts. -/
theorem pokeBytes_take_drop (hn : n ≤ xs.length) (h : xs.length ≤ 2 ^ 64) :
    pokeBytes (pokeBytes proc addr (xs.take n)) (addr + .ofNat n) (xs.drop n) =
      pokeBytes proc addr xs := by
  have happend : pokeBytes (pokeBytes proc addr (xs.take n))
      (addr + .ofNat (xs.take n).length) (xs.drop n) = _ :=
    pokeBytes_append (by rw [List.length_take, List.length_drop]; omega)
  rw [List.length_take_of_le hn, List.take_append_drop] at happend
  exact happend

/-- The bytes behind those that were written. -/
theorem bytesAt_behind (h : xs.length + n ≤ 2 ^ 64) :
    bytesAt (pokeBytes proc addr xs) (addr + .ofNat xs.length) n =
      bytesAt proc (addr + .ofNat xs.length) n := by
  have hsame : ∀ i < n, pokeBytes proc addr xs (addr + .ofNat xs.length + .ofNat i) =
      proc (addr + .ofNat xs.length + .ofNat i) := by
    intro i hi
    rw [add_ofNat_add_ofNat]
    exact pokeBytes_outside (Nat.le_add_right _ _) (by omega)
  apply Option.ext
  intro bs
  rw [bytesAt_eq_some, bytesAt_eq_some]
  exact and_congr_right fun _ => forall₂_congr fun i hi => by rw [hsame i hi]

/-- Writing what is there. -/
theorem pokeBytes_same (h : bytesAt proc addr n = some bytes) :
    pokeBytes proc addr bytes = proc := by
  obtain ⟨hlen, hall⟩ := bytesAt_eq_some.mp h
  funext a
  obtain ⟨i, hi, rfl⟩ := exists_offset addr a
  by_cases hlt : i < bytes.length
  · rw [pokeBytes_inside hlt hi, hall i (hlen ▸ hlt)]
  · exact pokeBytes_outside (Nat.le_of_not_lt hlt) hi

theorem pokeBytes_again (h : xs.length = ys.length) :
    pokeBytes (pokeBytes proc addr xs) addr ys = pokeBytes proc addr ys := by
  funext a
  obtain ⟨i, hi, rfl⟩ := exists_offset addr a
  by_cases hlt : i < ys.length
  · rw [pokeBytes_inside hlt hi, pokeBytes_inside hlt hi]
  · rw [pokeBytes_outside (Nat.le_of_not_lt hlt) hi, pokeBytes_outside (Nat.le_of_not_lt hlt) hi]
    exact pokeBytes_outside (by omega) hi

/-- A word whose end is what is there. -/
theorem pokeBytes_filled {word : List UInt8} (h : Ptrace.peek proc addr = some word)
    (hn : xs.length = n) : pokeBytes proc addr (xs ++ word.drop n) = pokeBytes proc addr xs := by
  subst hn
  obtain ⟨hlen, hall⟩ := bytesAt_eq_some.mp h
  funext a
  obtain ⟨i, hi, rfl⟩ := exists_offset addr a
  by_cases hlt : i < xs.length
  · rw [pokeBytes_inside (by rw [List.length_append]; omega) hi, pokeBytes_inside hlt hi,
      List.getElem?_append_left hlt]
  · have hold : pokeBytes proc addr xs (addr + .ofNat i) = proc (addr + .ofNat i) :=
      pokeBytes_outside (Nat.le_of_not_lt hlt) hi
    rw [hold, pokeBytes_add hi, List.getElem?_append_right (Nat.le_of_not_lt hlt),
      List.getElem?_drop, Nat.add_sub_cancel' (Nat.le_of_not_lt hlt)]
    by_cases hword : i < 8
    · rw [← hall i hword, Option.or_self]
    · rw [List.getElem?_eq_none (by omega), Option.none_or]

theorem bytesAt_isSome_iff :
    (bytesAt proc addr n).isSome = true ↔ ∀ i < n, (proc (addr + .ofNat i)).isSome = true := by
  constructor
  · intro h i hi
    obtain ⟨bs, hbs⟩ := Option.isSome_iff_exists.mp h
    obtain ⟨hlen, hall⟩ := bytesAt_eq_some.mp hbs
    rw [hall i hi, List.getElem?_eq_getElem (hlen ▸ hi)]
    rfl
  · intro h
    have hbytes : bytesAt proc addr n =
        some ((List.range n).map fun i => (proc (addr + .ofNat i)).getD 0) := by
      refine bytesAt_eq_some.mpr ⟨by rw [List.length_map, List.length_range], fun i hi => ?_⟩
      obtain ⟨b, hb⟩ := Option.isSome_iff_exists.mp (h i hi)
      rw [List.getElem?_map, List.getElem?_range hi, Option.map_some, hb]
      rfl
    rw [hbytes]
    rfl

/-- What is mapped stays so. -/
theorem isSome_pokeBytes {a : UInt64} (h : (proc a).isSome = true) :
    (pokeBytes proc addr bytes a).isSome = true := by
  unfold pokeBytes
  rw [Option.isSome_or, h, Bool.or_true]

end Bytes

/-! ## The loops -/

section Loops

variable {pt : Ptrace} {proc : ProcMem} {addr : UInt64} {src dst old : List UInt8} {m n : ℕ}

theorem Patchable.poke (h : Patchable pt proc addr n) (a : UInt64) (bytes : List UInt8) :
    Patchable pt (pokeBytes proc a bytes) addr n := by
  intro k hk
  obtain ⟨hpeek, hwrite⟩ := h k hk
  exact ⟨bytesAt_isSome_iff.mpr fun i hi => isSome_pokeBytes (bytesAt_isSome_iff.mp hpeek i hi),
    hwrite⟩

/-- The words behind the first. -/
theorem Patchable.next (h : Patchable pt proc addr n) :
    Patchable pt proc (addr + .ofNat (min 8 n)) (n - min 8 n) := by
  intro k hk
  have hmin : min 8 n = 8 := by omega
  rw [hmin] at hk ⊢
  have hnext := h (k + 1) (by omega)
  rw [add_ofNat_add_ofNat, Nat.add_comm 8, ← Nat.mul_succ]
  exact hnext

/-- The words behind the first, after that was written. -/
theorem Patchable.behind (h : Patchable pt proc addr src.length) (a : UInt64) (bytes : List UInt8) :
    Patchable pt (pokeBytes proc a bytes) (addr + .ofNat (min 8 src.length))
      (src.drop (min 8 src.length)).length := by
  rw [List.length_drop]
  exact h.next.poke a bytes

theorem Patchable.first (h : Patchable pt proc addr n) (hn : n ≠ 0) :
    ∃ word, Ptrace.peek proc addr = some word ∧ pt.writable addr = true := by
  have hzero : addr + .ofNat (8 * 0) = addr := UInt64.add_zero addr
  obtain ⟨hpeek, hwrite⟩ := h 0 (Nat.pos_of_ne_zero hn)
  rw [hzero] at hpeek hwrite
  obtain ⟨word, hword⟩ := Option.isSome_iff_exists.mp hpeek
  exact ⟨word, hword, hwrite⟩

/-- A range of words is mapped, byte by byte. -/
theorem Patchable.mapped (h : Patchable pt proc addr n) : (bytesAt proc addr n).isSome = true := by
  rw [bytesAt_isSome_iff]
  intro i hi
  have hword := bytesAt_isSome_iff.mp (h (i / 8) (by omega)).1 (i % 8) (Nat.mod_lt _ (by decide))
  rw [add_ofNat_add_ofNat, Nat.div_add_mod] at hword
  exact hword

theorem poke_eq (hwrite : pt.writable addr = true) (word : List UInt8) :
    pt.poke proc addr word = some (pokeBytes proc addr word) := if_pos hwrite

/-- `copy_to_proc` writes its bytes and no others. -/
theorem copyToProc_eq (h : Patchable pt proc addr src.length) (hlen : src.length ≤ 2 ^ 64) :
    copyToProc pt proc addr m src = (((m + src.length : ℕ) : ℤ), pokeBytes proc addr src) := by
  induction hn : src.length using Nat.strong_induction_on generalizing proc addr src m with
  | _ n ih =>
    rw [copyToProc]
    by_cases hnil : src = []
    · rw [if_pos hnil, ← hn, hnil]
      rfl
    rw [if_neg hnil]
    have hpos := List.length_pos_iff.mpr hnil
    obtain ⟨word, hpeek, hwrite⟩ := h.first (Nat.ne_of_gt hpos)
    have hmin : min 8 src.length ≤ src.length := Nat.min_le_right _ _
    have hdrop : (src.drop (min 8 src.length)).length = src.length - min 8 src.length :=
      List.length_drop
    -- what is written of the word is the same with the bytes behind the range
    have hrest : ∃ rest, (if src.length < 8 then
          (Ptrace.peek proc addr).map (·.drop (min 8 src.length)) else some []) = some rest ∧
        pokeBytes proc addr (src.take (min 8 src.length) ++ rest) =
          pokeBytes proc addr (src.take (min 8 src.length)) := by
      by_cases hlast : src.length < 8
      · rw [if_pos hlast, hpeek]
        exact ⟨_, rfl, pokeBytes_filled hpeek (List.length_take_of_le hmin)⟩
      · rw [if_neg hlast]
        exact ⟨[], rfl, by rw [List.append_nil]⟩
    obtain ⟨rest, hrest, hsame⟩ := hrest
    dsimp only
    rw [hrest]
    dsimp only
    rw [poke_eq hwrite, hsame]
    dsimp only
    rw [ih _ (by omega) (h.behind _ _) (by omega) rfl, pokeBytes_take_drop hmin hlen, hdrop]
    congr 2
    omega

/-- `copy_from_to_proc` writes its bytes and no others, and gets those that were there. -/
theorem copyFromToProc_eq (h : Patchable pt proc addr src.length) (hlen : src.length ≤ 2 ^ 64)
    (hold : bytesAt proc addr src.length = some old) :
    copyFromToProc pt proc addr src dst =
      ⟨((dst.length + src.length : ℕ) : ℤ), dst ++ old, pokeBytes proc addr src⟩ := by
  induction hn : src.length using Nat.strong_induction_on generalizing proc addr src dst old with
  | _ n ih =>
    rw [copyFromToProc]
    by_cases hnil : src = []
    · subst hnil
      cases hold
      rw [if_pos rfl, ← hn, List.append_nil]
      rfl
    rw [if_neg hnil]
    have hpos := List.length_pos_iff.mpr hnil
    obtain ⟨word, hpeek, hwrite⟩ := h.first (Nat.ne_of_gt hpos)
    have hmin : min 8 src.length ≤ src.length := Nat.min_le_right _ _
    have htake := List.length_take_of_le hmin
    have hdrop : (src.drop (min 8 src.length)).length = src.length - min 8 src.length :=
      List.length_drop
    -- of the word, the bytes in the range are those that were there
    have hparts : bytesAt proc addr (min 8 src.length + (src.length - min 8 src.length)) =
        some old := by
      rw [Nat.add_sub_cancel' (Nat.min_le_right _ _)]
      exact hold
    have hword : bytesAt proc addr (min 8 src.length + (8 - min 8 src.length)) = some word := by
      rw [Nat.add_sub_cancel' (Nat.min_le_left _ _)]
      exact hpeek
    obtain ⟨hfirst, hbehind⟩ := bytesAt_split hparts
    have hsame := Option.some.inj ((bytesAt_split hword).1.symm.trans hfirst)
    have hlater : bytesAt (pokeBytes proc addr (src.take (min 8 src.length)))
        (addr + .ofNat (src.take (min 8 src.length)).length) (src.length - min 8 src.length) = _ :=
      bytesAt_behind (by omega)
    rw [htake, hbehind, ← hdrop] at hlater
    rw [hpeek]
    dsimp only
    rw [poke_eq hwrite, pokeBytes_filled hpeek htake]
    dsimp only
    rw [ih _ (by omega) (h.behind _ _) (by omega) hlater rfl, pokeBytes_take_drop hmin hlen, hsame,
      hdrop, List.append_assoc, List.take_append_drop]
    have holdlen := length_bytesAt hold
    congr 1
    rw [List.length_append, List.length_take]
    omega

end Loops

/-- A patch gets the bytes that it replaces, and changes no others; writing them back restores the
memory. -/
theorem patch_reversible (pt : Ptrace) (proc : ProcMem) (addr : UInt64) (src : List UInt8)
    (hlen : src.length < 2 ^ 64) (h : Patchable pt proc addr src.length) :
    ∃ dst proc', copyFromToProc pt proc addr src [] = ⟨src.length, dst, proc'⟩ ∧
      bytesAt proc addr src.length = some dst ∧ bytesAt proc' addr src.length = some src ∧
      (∀ i < 2 ^ 64, src.length ≤ i → proc' (addr + .ofNat i) = proc (addr + .ofNat i)) ∧
      copyToProc pt proc' addr 0 dst = ((src.length : ℤ), proc) := by
  obtain ⟨dst, hdst⟩ := Option.isSome_iff_exists.mp h.mapped
  have hdstlen := length_bytesAt hdst
  refine ⟨dst, pokeBytes proc addr src, ?_, hdst, ?_, ?_, ?_⟩
  · rw [copyFromToProc_eq h hlen.le hdst, List.length_nil, Nat.zero_add, List.nil_append]
  · exact bytesAt_eq_some.mpr ⟨rfl, fun i hi => pokeBytes_inside hi (by omega)⟩
  · exact fun i hi hle => pokeBytes_outside hle hi
  · have hback : Patchable pt (pokeBytes proc addr src) addr dst.length := by
      rw [hdstlen]
      exact h.poke _ _
    rw [copyToProc_eq hback (by omega), pokeBytes_again hdstlen.symm, pokeBytes_same hdst, hdstlen,
      Nat.zero_add]

/-- Eleven bytes in two words of the page, the second of them in part. -/
theorem patch_reversible_eleven : ∃ dst proc',
    copyFromToProc ⟨fun _ => true, fun _ => .eio⟩ onePage 0x1003 (List.replicate 11 0xcc) [] =
        ⟨11, dst, proc'⟩ ∧
      copyToProc ⟨fun _ => true, fun _ => .eio⟩ proc' 0x1003 0 dst = (11, onePage) := by
  have hpatchable : Patchable ⟨fun _ => true, fun _ => .eio⟩ onePage 0x1003
      (List.replicate 11 (0xcc : UInt8)).length := by
    intro k hk
    rw [List.length_replicate] at hk
    have hk : k = 0 ∨ k = 1 := by omega
    obtain rfl | rfl := hk <;> exact ⟨by decide +kernel, rfl⟩
  obtain ⟨dst, proc', hpatch, -, -, -, hback⟩ :=
    patch_reversible _ onePage 0x1003 (List.replicate 11 0xcc) (by decide) hpatchable
  exact ⟨dst, proc', hpatch, hback⟩

end Mtrace.Server
