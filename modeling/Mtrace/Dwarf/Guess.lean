import Mathlib.Data.List.TakeWhile
import Mtrace.Dwarf.Words
import Mtrace.Dwarf.Step

/-!
# The window of a guess

The loops of `dwarf_step` that look for a return address on the stack.  They are written for nine
chunks of 512 bytes, and look at the first one of them nine times; and `call_op` has a part of the
instructions only that call a function.
-/

namespace Mtrace.Dwarf

open Server

namespace Space

variable (s : Space)

/-- The first word that is taken for a return address, and the cursor behind it. -/
def firstGuess : List UInt64 → Cursor → Option ℕ × Cursor
  | [], c => (none, c)
  | ip :: ips, c =>
    match s.isGuess c ip with
    | (true, c) => (some 0, c)
    | (false, c) => ((firstGuess ips c).1.map (· + 1), (firstGuess ips c).2)

/-- Words of a buffer, from an index on. -/
def bufWords (buf : List UInt8) (j m : ℕ) : List UInt64 :=
  (List.range' j m).map fun k => s.getval buf (.ofNat (k * s.addrSize))

end Space

section First

variable {s : Space} {c c' : Cursor} {ips ips' : List UInt64} {j : ℕ}

theorem firstGuess_cons_true {ip : UInt64} (h : s.isGuess c ip = (true, c')) :
    s.firstGuess (ip :: ips) c = (some 0, c') := by
  rw [Space.firstGuess, h]

theorem firstGuess_cons_false {ip : UInt64} (h : s.isGuess c ip = (false, c')) :
    s.firstGuess (ip :: ips) c =
      ((s.firstGuess ips c').1.map (· + 1), (s.firstGuess ips c').2) := by
  rw [Space.firstGuess, h]

theorem firstGuess_append_some (h : s.firstGuess ips c = (some j, c')) :
    s.firstGuess (ips ++ ips') c = (some j, c') := by
  induction ips generalizing c j with
  | nil => cases h
  | cons ip ips ih =>
    rw [List.cons_append]
    cases hguess : s.isGuess c ip with
    | mk found c1 =>
      cases found with
      | true =>
        rw [firstGuess_cons_true hguess] at h ⊢
        exact h
      | false =>
        rw [firstGuess_cons_false hguess] at h ⊢
        cases hrest : s.firstGuess ips c1 with
        | mk k c2 =>
          rw [hrest] at h
          obtain ⟨hk, rfl⟩ := Prod.mk.inj h
          obtain ⟨i, rfl, hi⟩ := Option.map_eq_some_iff.mp hk
          rw [ih hrest, ← hi]
          rfl

theorem firstGuess_append_none (h : s.firstGuess ips c = (none, c')) :
    s.firstGuess (ips ++ ips') c =
      ((s.firstGuess ips' c').1.map (· + ips.length), (s.firstGuess ips' c').2) := by
  induction ips generalizing c with
  | nil =>
    cases h
    rw [List.nil_append]
    simp
  | cons ip ips ih =>
    rw [List.cons_append]
    cases hguess : s.isGuess c ip with
    | mk found c1 =>
      cases found with
      | true =>
        rw [firstGuess_cons_true hguess] at h
        cases h
      | false =>
        rw [firstGuess_cons_false hguess] at h ⊢
        cases hrest : s.firstGuess ips c1 with
        | mk k c2 =>
          rw [hrest] at h
          have hk : k = none := Option.map_eq_none_iff.mp (Prod.mk.inj h).1
          have hc : c2 = c' := (Prod.mk.inj h).2
          rw [hk, hc] at hrest
          rw [ih hrest, Option.map_map]
          rfl

theorem firstGuess_lt (h : s.firstGuess ips c = (some j, c')) : j < ips.length := by
  induction ips generalizing c j with
  | nil => cases h
  | cons ip ips ih =>
    cases hguess : s.isGuess c ip with
    | mk found c1 =>
      cases found with
      | true =>
        rw [firstGuess_cons_true hguess] at h
        cases h
        exact Nat.succ_pos _
      | false =>
        rw [firstGuess_cons_false hguess] at h
        cases hrest : s.firstGuess ips c1 with
        | mk k c2 =>
          rw [hrest] at h
          obtain ⟨hk, rfl⟩ := Prod.mk.inj h
          obtain ⟨i, rfl, rfl⟩ := Option.map_eq_some_iff.mp hk
          exact Nat.succ_lt_succ (ih hrest)

end First

/-! ## A chunk -/

section Scan

variable {s : Space} {copies : ℕ → UInt64 → Copy} {cfa : UInt64} {st : GuessState} {c' : Cursor}
  {j m t : ℕ}

/-- The pass over the word at an index, if it is within the count and `buf`. -/
theorem guessStep_word (hi : st.i = .ofNat (j * s.addrSize)) (hbuf : (j + 1) * s.addrSize ≤ 512)
    (hn : UInt64.ofNat ((j + 1) * s.addrSize) ≤ st.n) :
    s.guessStep copies cfa st =
      match s.isGuess st.cursor (s.getval st.buf (.ofNat (j * s.addrSize))) with
      | (true, c) => .inr (.ok (true, s.takeGuess (cfa + .ofNat ((j + 1) * s.addrSize))
          (s.getval st.buf (.ofNat (j * s.addrSize))) c))
      | (false, cursor) => .inl { st with i := .ofNat ((j + 1) * s.addrSize), cursor } := by
  have hnext : st.i + .ofNat s.addrSize = .ofNat ((j + 1) * s.addrSize) := by
    rw [hi, Nat.succ_mul, UInt64.ofNat_add]
  have hcfa : cfa + st.i + .ofNat s.addrSize = cfa + .ofNat ((j + 1) * s.addrSize) := by
    rw [UInt64.add_assoc, hnext]
  have hin : ¬ (512 : UInt64) < .ofNat ((j + 1) * s.addrSize) := by
    rw [UInt64.lt_iff_toNat_lt, toNat_ofNat_of_lt (by omega)]
    exact Nat.not_lt.mpr hbuf
  unfold Space.guessStep
  dsimp only
  rw [hcfa, hnext, hi]
  exact (if_pos hn).trans (if_neg hin)

theorem bufWords_succ (buf : List UInt8) (j m : ℕ) :
    s.bufWords buf j (m + 1) = s.getval buf (.ofNat (j * s.addrSize)) :: s.bufWords buf
    (j + 1) m := by
  unfold Space.bufWords
  rw [List.range'_succ, List.map_cons]

/-- The passes over some words: without a guess they get to the word behind them. -/
theorem run_scan (hi : st.i = .ofNat (j * s.addrSize)) (hbuf : (j + m) * s.addrSize ≤ 512)
    (hn : UInt64.ofNat ((j + m) * s.addrSize) ≤ st.n) :
    Orbit.run (s.guessStep copies cfa) m st =
      match s.firstGuess (s.bufWords st.buf j m) st.cursor with
      | (none, cursor) => .inl { st with i := .ofNat ((j + m) * s.addrSize), cursor }
      | (some t, c) => .inr (.ok (true, s.takeGuess (cfa + .ofNat ((j + t + 1) * s.addrSize))
          (s.getval st.buf (.ofNat ((j + t) * s.addrSize))) c)) := by
  induction m generalizing st j with
  | zero =>
    rw [Nat.add_zero, ← hi]
    rfl
  | succ m ih =>
    have hle : (j + 1) * s.addrSize ≤ (j + (m + 1)) * s.addrSize :=
      Nat.mul_le_mul_right _ (by omega)
    have hone : UInt64.ofNat ((j + 1) * s.addrSize) ≤ st.n := by
      rw [UInt64.le_iff_toNat_le, toNat_ofNat_of_lt (by omega)] at hn ⊢
      omega
    have hsplit : j + 1 + m = j + (m + 1) := by omega
    rw [Orbit.run, guessStep_word hi (hle.trans hbuf) hone, bufWords_succ]
    cases hguess : s.isGuess st.cursor (s.getval st.buf (.ofNat (j * s.addrSize))) with
    | mk found c1 =>
      cases found with
      | true =>
        rw [firstGuess_cons_true hguess]
        rfl
      | false =>
        rw [firstGuess_cons_false hguess]
        dsimp only
        have hrest := @ih { st with i := .ofNat ((j + 1) * s.addrSize), cursor := c1 } (j + 1) rfl
          (by rw [hsplit]; exact hbuf) (by rw [hsplit]; exact hn)
        rw [hrest, hsplit]
        dsimp only
        cases s.firstGuess (s.bufWords st.buf (j + 1) m) c1 with
        | mk found c2 =>
          cases found with
          | none => rfl
          | some t =>
            have ht : j + 1 + t = j + (t + 1) := by omega
            dsimp only [Option.map_some]
            rw [ht]

end Scan

/-! ## The stack above the CFA -/

namespace Space

variable (s : Space)

/-- A word of the task. -/
def stackWord (addr : UInt64) : UInt64 :=
  .ofNat (ByteOrder.leValue
    ((List.range s.addrSize).map fun i => (s.proc (addr + .ofNat i)).getD 0))

/-- The words from an address on. -/
def window (addr : UInt64) (m : ℕ) : List UInt64 :=
  (List.range m).map fun j => s.stackWord (addr + .ofNat (j * s.addrSize))

/-- The words of a chunk. -/
def chunkWords : ℕ := 512 / s.addrSize

/-- The chunks that the loop is written for can be read. -/
def WindowReadable (cfa : UInt64) : Prop := ∀ i < 4608, (s.proc (cfa + .ofNat i)).isSome = true

/-- `process_vm_readv` reads what is mapped, or the kernel does not have it. -/
def Answers : Prop :=
  (Available s.proc s.vm ∨ Missing s.vm) ∧ (s.nosys = true → Missing s.vm)

end Space

section Window

variable {s : Space} {cfa : UInt64} {buf : List UInt8} {c : Cursor}

theorem chunkWords_mul (s : Space) : s.chunkWords * s.addrSize = 512 := by
  unfold Space.chunkWords
  obtain h | h := addrSize_cases s <;> rw [h]

theorem chunkWords_pos (s : Space) : 0 < s.chunkWords := by
  have hmul := chunkWords_mul s
  apply Nat.pos_of_ne_zero
  intro hzero
  rw [hzero] at hmul
  omega

theorem chunkWords_le (s : Space) : s.chunkWords ≤ 128 := by
  unfold Space.chunkWords
  apply Nat.div_le_of_le_mul
  obtain h | h := addrSize_cases s <;> rw [h]
  decide

/-- A range of bytes that are mapped is mapped. -/
theorem bytesAt_eq (proc : ProcMem) (addr : UInt64) (n : ℕ)
    (h : ∀ i < n, (proc (addr + .ofNat i)).isSome = true) :
    bytesAt proc addr n = some ((List.range n).map fun i => (proc (addr + .ofNat i)).getD 0) := by
  induction n generalizing addr with
  | zero => rfl
  | succ n ih =>
    have hnext : ∀ i, addr + .ofNat (i + 1) = addr + 1 + .ofNat i := by
      intro i
      rw [UInt64.ofNat_add, UInt64.add_assoc, UInt64.add_comm 1]
      rfl
    have hfirst := h 0 (Nat.succ_pos n)
    have hzero : addr + .ofNat 0 = addr := UInt64.add_zero addr
    obtain ⟨b, hb⟩ := Option.isSome_iff_exists.mp hfirst
    have hrest := ih (addr + 1) fun i hi => hnext i ▸ h (i + 1) (Nat.succ_lt_succ hi)
    rw [hzero] at hb
    rw [bytesAt, hb, hrest, List.range_succ_eq_map, List.map_cons, List.map_map, hzero, hb]
    refine congrArg some (congrArg (b :: ·) (List.map_congr_left fun i _ => ?_))
    exact congrArg (fun a => (proc a).getD 0) (hnext i).symm

/-- A chunk that can be read is copied as a whole. -/
theorem copied_eq (h : s.WindowReadable cfa) (hvm : s.Answers) (off : ℕ) :
    (s.copied off cfa).written = ((List.range 512).map fun i => (s.proc (cfa + .ofNat i)).getD 0) ∧
      (s.copied off cfa).failed = false := by
  have hbytes := bytesAt_eq s.proc cfa 512 fun i hi => h i (by omega)
  have hreads : LastMapped s.proc cfa 512 := .inl rfl
  obtain ⟨hret, hdst⟩ : (copyFromProc s.proc s.vm s.errno s.nosys cfa 512).ret = (512 : ℕ) ∧
      (copyFromProc s.proc s.vm s.errno s.nosys cfa 512).dst = _ :=
    (copyFromProc_reads_iff hbytes hvm.1 hvm.2).mpr (.inr hreads)
  constructor
  · show (copyFromProc s.proc s.vm s.errno s.nosys cfa 512).dst.take 512 = _
    rw [hdst, List.take_of_length_le (by rw [List.length_map, List.length_range])]
  · show decide ((copyFromProc s.proc s.vm s.errno s.nosys cfa 512).ret < 0) = false
    rw [hret]
    rfl

theorem take_drop_range {α : Type} (f : ℕ → α) (rest : List α) {k a n : ℕ} (h : k + a ≤ n) :
    ((((List.range n).map f ++ rest).drop k).take a) = (List.range a).map fun i => f (k + i) := by
  have hlen : ((List.range n).map f).length = n := by rw [List.length_map, List.length_range]
  have hshift : List.range' k a = (List.range a).map (k + ·) := by
    rw [List.range_eq_range', List.map_add_range', Nat.add_zero]
  rw [List.drop_append_of_le_length (by omega), List.take_append_of_le_length
    (by rw [List.length_drop, hlen]; omega), ← List.map_drop, ← List.map_take, List.range_eq_range',
    List.drop_range', List.take_range'_of_length_ge (by omega), Nat.mul_one, Nat.zero_add, hshift,
    List.map_map]
  rfl

/-- The words of the buffer are those of the task. -/
theorem bufWords_eq (h : s.WindowReadable cfa) (hvm : s.Answers) (off : ℕ) :
    s.bufWords (Space.guessChunk s.copied cfa off buf c).buf 0 s.chunkWords =
      s.window cfa s.chunkWords := by
  have hmul := chunkWords_mul s
  unfold Space.bufWords Space.window Space.guessChunk
  rw [← List.range_eq_range']
  apply List.map_congr_left
  intro j hj
  have hlt := List.mem_range.mp hj
  have hnext : (j + 1) * s.addrSize ≤ s.chunkWords * s.addrSize := Nat.mul_le_mul_right _ hlt
  rw [Nat.succ_mul] at hnext
  unfold Space.getval Space.stackWord
  dsimp only
  rw [(copied_eq h hvm off).1, toNat_ofNat_of_lt (by omega),
    take_drop_range _ _ (by omega : j * s.addrSize + s.addrSize ≤ 512)]
  congr 2
  apply List.map_congr_left
  intro i _
  rw [add_ofNat_add]

theorem getval_eq (h : s.WindowReadable cfa) (hvm : s.Answers) (off : ℕ) {j : ℕ}
    (hj : j < s.chunkWords) :
    s.getval (Space.guessChunk s.copied cfa off buf c).buf (.ofNat (j * s.addrSize)) =
      s.stackWord (cfa + .ofNat (j * s.addrSize)) := by
  have hwords : s.bufWords (Space.guessChunk s.copied cfa off buf c).buf 0 s.chunkWords = _ :=
    bufWords_eq h hvm off
  have hget := congrArg (fun l => l[j]?) hwords
  unfold Space.bufWords Space.window at hget
  rw [← List.range_eq_range'] at hget
  simpa [hj] using hget

/-- The passes over a chunk, of which all words are looked at. -/
theorem run_chunk (h : s.WindowReadable cfa) (hvm : s.Answers) (off : ℕ) :
    ∃ buf', Orbit.run (s.guessStep s.copied cfa) (s.chunkWords + 1)
        (Space.guessChunk s.copied cfa off buf c) =
      match s.firstGuess (s.window cfa s.chunkWords) c with
      | (some t, c) => .inr (.ok (true, s.takeGuess (cfa + .ofNat ((t + 1) * s.addrSize))
          (s.stackWord (cfa + .ofNat (t * s.addrSize))) c))
      | (none, c) =>
        if off + 512 ≤ 4096 then .inl (Space.guessChunk s.copied cfa (off + 512) buf' c)
        else .inr (.ok (false, c)) := by
  refine ⟨(Space.guessChunk s.copied cfa off buf c).buf, ?_⟩
  have hmul := chunkWords_mul s
  have hn : (Space.guessChunk s.copied cfa off buf c).n = 512 := by
    obtain ⟨hwritten, hfailed⟩ := copied_eq h hvm off
    unfold Space.guessChunk Copy.size
    dsimp only
    rw [hwritten, hfailed, List.length_map, List.length_range]
    rfl
  have hfive : UInt64.ofNat 512 = 512 := rfl
  have hzero : (Space.guessChunk s.copied cfa off buf c).i = .ofNat (0 * s.addrSize) := by
    rw [Nat.zero_mul]
    rfl
  have hscan : Orbit.run (s.guessStep s.copied cfa) s.chunkWords _ = _ := run_scan hzero
    (by rw [Nat.zero_add, hmul]) (by rw [Nat.zero_add, hmul, hn]; exact UInt64.le_refl _)
  rw [bufWords_eq h hvm off] at hscan
  have hcursor : (Space.guessChunk s.copied cfa off buf c).cursor = c := rfl
  rw [hcursor] at hscan
  rw [Orbit.run_add, hscan]
  cases hfirst : s.firstGuess (s.window cfa s.chunkWords) c with
  | mk found c' =>
    cases found with
    | some t =>
      have hlt := firstGuess_lt hfirst
      have hlen : (s.window cfa s.chunkWords).length = s.chunkWords := by
        unfold Space.window
        rw [List.length_map, List.length_range]
      dsimp only
      rw [Nat.zero_add, getval_eq h hvm off (hlen ▸ hlt)]
    | none =>
      dsimp only
      rw [Orbit.run, Space.guessStep, Nat.zero_add, hmul, hn, hfive]
      have hsize : ¬ 512 + UInt64.ofNat s.addrSize ≤ (512 : UInt64) := by
        obtain h | h := addrSize_cases s <;> rw [h] <;> decide
      dsimp only
      have hfull : ¬ (512 : UInt64) < 512 := by decide
      have hoff : (Space.guessChunk s.copied cfa off buf c).off = off := rfl
      rw [if_neg hsize, if_neg hfull, hoff]
      by_cases hlast : off + 512 ≤ 4096
      · rw [if_pos hlast]
        rfl
      · rw [if_neg hlast]

/-- The words that the loops look at. -/
def Space.lookedAt (s : Space) (cfa : UInt64) (chunks : ℕ) : List UInt64 :=
  (List.replicate chunks (s.window cfa s.chunkWords)).flatten

theorem length_window (cfa : UInt64) (m : ℕ) : (s.window cfa m).length = m := by
  unfold Space.window
  rw [List.length_map, List.length_range]

/-- The passes from a chunk on: each chunk is the first one again. -/
theorem run_chunks (h : s.WindowReadable cfa) (hvm : s.Answers) {k : ℕ} (hk : k ≤ 8) :
    Orbit.run (s.guessStep s.copied cfa) ((k + 1) * (s.chunkWords + 1))
        (Space.guessChunk s.copied cfa (512 * (8 - k)) buf c) =
      .inr (.ok (match s.firstGuess (s.lookedAt cfa (k + 1)) c with
        | (some t, c) =>
          (true, s.takeGuess (cfa + .ofNat ((t % s.chunkWords + 1) * s.addrSize))
            (s.stackWord (cfa + .ofNat (t % s.chunkWords * s.addrSize))) c)
        | (none, c) => (false, c))) := by
  have hlen := length_window (s := s) cfa s.chunkWords
  induction k generalizing buf c with
  | zero =>
    obtain ⟨buf', hchunk⟩ := @run_chunk s cfa buf c h hvm (512 * (8 - 0))
    have hone : s.lookedAt cfa (0 + 1) = s.window cfa s.chunkWords := by
      unfold Space.lookedAt
      simp
    rw [Nat.zero_add, Nat.one_mul, hchunk, hone]
    cases hfirst : s.firstGuess (s.window cfa s.chunkWords) c with
    | mk found c' =>
      cases found with
      | some t =>
        have hlt := firstGuess_lt hfirst
        rw [hlen] at hlt
        dsimp only
        rw [Nat.mod_eq_of_lt hlt]
      | none => rfl
  | succ k ih =>
    obtain ⟨buf', hchunk⟩ := @run_chunk s cfa buf c h hvm (512 * (8 - (k + 1)))
    have hpasses : (k + 1 + 1) * (s.chunkWords + 1) =
        (s.chunkWords + 1) + (k + 1) * (s.chunkWords + 1) := by rw [Nat.succ_mul, Nat.add_comm]
    have hone :
        s.lookedAt cfa (k + 1 + 1) = s.window cfa s.chunkWords ++ s.lookedAt cfa (k + 1) := by
      unfold Space.lookedAt
      rw [List.replicate_succ, List.flatten_cons]
    rw [hpasses, Orbit.run_add, hchunk, hone]
    cases hfirst : s.firstGuess (s.window cfa s.chunkWords) c with
    | mk found c' =>
      cases found with
      | some t =>
        have hlt := firstGuess_lt hfirst
        rw [hlen] at hlt
        dsimp only
        rw [firstGuess_append_some hfirst]
        dsimp only
        rw [Nat.mod_eq_of_lt hlt]
      | none =>
        have hoff : 512 * (8 - (k + 1)) + 512 = 512 * (8 - k) := by omega
        have hmore : 512 * (8 - (k + 1)) + 512 ≤ 4096 := by omega
        dsimp only
        rw [if_pos hmore, hoff]
        dsimp only
        rw [ih (Nat.le_of_succ_le hk), firstGuess_append_none hfirst, hlen]
        cases s.firstGuess (s.lookedAt cfa (k + 1)) c' with
        | mk found c2 =>
          cases found with
          | none => rfl
          | some t =>
            dsimp only [Option.map_some]
            rw [Nat.add_mod_right]

end Window

/-! ## Return addresses -/

/-- The bytes of an operand behind its ModRM byte: an index byte and a displacement. -/
def operandSize (modrm sib : UInt8) : ℕ :=
  let mod := modrm >>> 6
  let rm := modrm &&& 7
  if mod = 3 then 0
  else (if rm = 4 then 1 else 0) +
    if mod = 1 then 1
    else if mod = 2 then 4
    else if rm = 5 ∨ rm = 4 ∧ sib &&& 7 = 5 then 4 else 0

/-- The length of a near call on x86 from its opcode on: `E8` with a displacement of four bytes, or
`FF /2` with an operand. -/
def callLength (opcode modrm sib : UInt8) : Option ℕ :=
  if opcode = 0xe8 then some 5
  else if opcode = 0xff ∧ modrm >>> 3 &&& 7 = 2 then some (2 + operandSize modrm sib)
  else none

namespace Space

variable (s : Space)

/-- A byte of the text of a library, in its image. -/
def textByte (l : Libref) (addr : UInt64) : UInt8 :=
  s.image (l.mmapAddr + l.txtOffset + (addr - l.txtVaddr))

/-- A call instruction in the text of a library ends at an address. -/
def behindCall (l : Libref) (ip : UInt64) : Bool :=
  (List.range 8).any fun n => decide (.ofNat n ≤ ip - l.txtVaddr) &&
    callLength (s.textByte l (ip - .ofNat n)) (s.textByte l (ip - .ofNat n + 1))
      (s.textByte l (ip - .ofNat n + 2)) == some n

/-- An address in the text of a library of the task, behind a call instruction. -/
def isReturn (ip : UInt64) : Bool :=
  s.libs.toList.any fun lib => lib.libref.inText ip && s.behindCall lib.libref ip

end Space

/-! ## What the guess finds -/

section Finds

variable {s : Space} {buf : List UInt8} {c c' : Cursor} {e : DwarfError}

/-- The guess as one look at the words of nine chunks. -/
theorem guessCaller_eq (h : s.WindowReadable c.cfa) (hvm : s.Answers) :
    s.guessCaller s.copied c.cfa buf c' =
      .ok (match s.firstGuess (s.lookedAt c.cfa 9) c' with
        | (some t, c1) =>
          (true, s.takeGuess (c.cfa + .ofNat ((t % s.chunkWords + 1) * s.addrSize))
            (s.stackWord (c.cfa + .ofNat (t % s.chunkWords * s.addrSize))) c1)
        | (none, c1) => (false, c1)) := by
  have hpasses : (8 + 1) * (s.chunkWords + 1) ≤ 9 * 129 := by
    have hle := chunkWords_le s
    omega
  have hrun := Orbit.run_of_done (@run_chunks s c.cfa buf c' h hvm 8 le_rfl) hpasses
  rw [Nat.sub_self, Nat.mul_zero] at hrun
  unfold Space.guessCaller
  rw [hrun]

theorem dwarfStep_eq (hvalid : c.valid = true) (hunwind : s.unwindStep c = .error (.error e) c')
    (h : s.WindowReadable c.cfa) (hvm : s.Answers) :
    s.dwarfStep s.copied buf c =
      match s.firstGuess (s.lookedAt c.cfa 9) c' with
      | (some t, c1) =>
        .ok () (s.takeGuess (c.cfa + .ofNat ((t % s.chunkWords + 1) * s.addrSize))
          (s.stackWord (c.cfa + .ofNat (t % s.chunkWords * s.addrSize))) c1)
      | (none, c1) => .error (.error e) { c1 with valid := false } := by
  unfold Space.dwarfStep
  rw [if_neg (by rw [hvalid]; decide), hunwind]
  dsimp only
  rw [guessCaller_eq h hvm]
  cases s.firstGuess (s.lookedAt c.cfa 9) c' with
  | mk found c1 =>
    cases found with
    | none => rfl
    | some t => rfl

/-- The first return address among the words of the nine chunks. -/
def Space.firstReturn (s : Space) (cfa : UInt64) : Option ℕ :=
  (s.window cfa (9 * s.chunkWords)).findIdx? s.isReturn

/-- The step gets to the first word of the nine chunks that is a return address, and fails if there
is none. -/
def FindsFirst (s : Space) (cfa : UInt64) (r : EStateM.Result Halt Cursor Unit) : Prop :=
  match s.firstReturn cfa with
  | some j => ∃ c1, r = .ok () c1 ∧ c1.ip = s.stackWord (cfa + .ofNat (j * s.addrSize)) ∧
      c1.cfa = cfa + .ofNat ((j + 1) * s.addrSize)
  | none => ∀ c1, r ≠ .ok () c1

/-- The word of the first chunk that `call_op` takes first for a return address, in nine looks at
that chunk of which each begins with the library that the one before has left. -/
def Space.firstTaken (s : Space) (cfa : UInt64) (c : Cursor) : Option ℕ :=
  (s.firstGuess (s.lookedAt cfa 9) c).1.map (· % s.chunkWords)

theorem firstReturn_lt {cfa : UInt64} {j : ℕ} (h : s.firstReturn cfa = some j) :
    j < 9 * s.chunkWords := by
  have hlt := (List.findIdx?_eq_some_iff_findIdx_eq.mp h).1
  rw [length_window] at hlt
  exact hlt

/-- Two words of the window at the same place are the same one. -/
theorem word_inj {cfa : UInt64} {i j : ℕ} (hi : i < 9 * s.chunkWords) (hj : j < 9 * s.chunkWords)
    (h : cfa + .ofNat ((i + 1) * s.addrSize) = cfa + .ofNat ((j + 1) * s.addrSize)) : i = j := by
  have hmul := chunkWords_mul s
  have hpos := addrSize_pos (s := s)
  have hbound {k : ℕ} (hk : k < 9 * s.chunkWords) : (k + 1) * s.addrSize < 2 ^ 64 := by
    have hle : (k + 1) * s.addrSize ≤ 9 * s.chunkWords * s.addrSize := Nat.mul_le_mul_right _ hk
    rw [Nat.mul_assoc, hmul] at hle
    omega
  have hnum := congrArg UInt64.toNat ((UInt64.add_right_inj _).mp h)
  rw [toNat_ofNat_of_lt (hbound hi), toNat_ofNat_of_lt (hbound hj)] at hnum
  exact Nat.succ.inj (Nat.eq_of_mul_eq_mul_right hpos hnum)

/-- The guess searches its window exactly if the first return address of the nine chunks is in the
first one, and is the word of it that `call_op` takes first, or if there is no return address, and
no word of the first chunk is taken for one. -/
theorem guess_finds_first_iff (hvalid : c.valid = true)
    (hunwind : s.unwindStep c = .error (.error e) c') (h : s.WindowReadable c.cfa)
    (hvm : s.Answers) :
    FindsFirst s c.cfa (s.dwarfStep s.copied buf c) ↔
      (∃ j < s.chunkWords, s.firstReturn c.cfa = some j ∧ s.firstTaken c.cfa c' = some j) ∨
        s.firstReturn c.cfa = none ∧ s.firstTaken c.cfa c' = none := by
  rw [dwarfStep_eq hvalid hunwind h hvm]
  unfold FindsFirst Space.firstTaken
  cases hreturn : s.firstReturn c.cfa with
  | none =>
    cases hlooked : s.firstGuess (s.lookedAt c.cfa 9) c' with
    | mk found c1 =>
      cases found with
      | none => exact iff_of_true (fun c2 hok => by cases hok) (.inr ⟨rfl, rfl⟩)
      | some t =>
        refine iff_of_false (fun hfails => hfails _ rfl) ?_
        rintro (⟨_, -, heq, -⟩ | ⟨-, heq⟩) <;> cases heq
  | some j =>
    have hj := firstReturn_lt hreturn
    cases hlooked : s.firstGuess (s.lookedAt c.cfa 9) c' with
    | mk found c1 =>
      cases found with
      | none =>
        refine iff_of_false ?_ ?_
        · rintro ⟨c2, hok, -⟩
          cases hok
        · rintro (⟨_, -, -, heq⟩ | ⟨heq, -⟩) <;> cases heq
      | some t =>
        -- a word of the first chunk is taken
        have hmod := Nat.mod_lt t (chunkWords_pos s)
        constructor
        · rintro ⟨c2, hok, -, hcfa⟩
          cases hok
          have hword := word_inj (hmod.trans_le (Nat.le_mul_of_pos_left _ (by decide))) hj hcfa
          exact .inl ⟨j, hword ▸ hmod, rfl, congrArg some hword⟩
        · rintro (⟨_, -, hsame, htaken⟩ | ⟨heq, -⟩)
          · cases hsame
            cases htaken
            exact ⟨_, rfl, rfl, rfl⟩
          · cases heq

end Finds

/-- A library without unwind tables; its text begins with a call. -/
def callLib : Libref :=
  { Libref.new .lib with txtVaddr := 0x400000, txtSize := 0x1000, mmapAddr := 0x10000 }

/-- Text that begins with these bytes.  The first word of the stack is an address in the text,
another one is the address behind the bytes, and all others are 0. -/
def callAt (text : List UInt8) (addr : UInt64) : Space where
  is64bit := true
  image a := text.getD (a - 0x10000).toNat 0
  proc a := some (if a = addr then .ofNat text.length else if a = 0x7000 then 0x10
    else if a = addr + 2 ∨ a = 0x7002 then 0x40 else 0)
  vm _ _ := .error .enosys
  errno _ := .eio
  nosys := false
  regs _ := 0
  libs := .node .black .nil ⟨0, callLib⟩ .nil
  passes := 0

/-- `call` with a displacement. -/
def callRel : List UInt8 := [0xe8, 0, 0, 0, 0]

/-- `call *%rdi`. -/
def callRdi : List UInt8 := [0xff, 0xd7]

/-- A frame in the library, of which no register is known. -/
def callCursor : Cursor := ⟨0x7000, 0x400010, 0, false, true, some callLib, .zero, fun _ => .null⟩

/-- The cursor after the frame pointer was tried. -/
def callTried : Cursor := ⟨0x7000, 0, 0, false, true, none, .zero, fun _ => .null⟩

theorem unwindStep_callAt (text : List UInt8) (addr : UInt64) :
    (callAt text addr).unwindStep callCursor = .error (.error .noInfo) callTried := rfl

theorem answers_callAt (text : List UInt8) (addr : UInt64) : (callAt text addr).Answers :=
  ⟨.inr fun _ _ => rfl, fun h => absurd h Bool.false_ne_true⟩

/-- The second word is the return address. -/
theorem guess_finds_first_call :
    FindsFirst (callAt callRel 0x7008) callCursor.cfa
        ((callAt callRel 0x7008).dwarfStep (callAt callRel 0x7008).copied [] callCursor) ∧
      (callAt callRel 0x7008).firstReturn callCursor.cfa = some 1 := by
  have hreturn : (callAt callRel 0x7008).firstReturn callCursor.cfa = some 1 := by decide +kernel
  have htaken : (callAt callRel 0x7008).firstTaken callCursor.cfa callTried = some 1 := by
    decide +kernel
  refine ⟨?_, hreturn⟩
  rw [guess_finds_first_iff rfl (unwindStep_callAt callRel 0x7008) (fun _ _ => rfl)
    (answers_callAt callRel 0x7008)]
  exact .inl ⟨1, by decide, hreturn, htaken⟩

/-- Where no word is taken, the step fails. -/
theorem dwarfStep_of_none {s : Space} {c c' : Cursor} {e : DwarfError} (hvalid : c.valid = true)
    (hunwind : s.unwindStep c = .error (.error e) c') (h : s.WindowReadable c.cfa) (hvm : s.Answers)
    (hnone : (s.firstGuess (s.lookedAt c.cfa 9) c').1 = none) (c1 : Cursor) :
    s.dwarfStep s.copied [] c ≠ .ok () c1 := by
  intro hok
  rw [dwarfStep_eq hvalid hunwind h hvm] at hok
  cases hlooked : s.firstGuess (s.lookedAt c.cfa 9) c' with
  | mk found c2 =>
    rw [hlooked] at hnone hok
    cases hnone
    cases hok

/-- The only return address is in the second chunk, which is not looked at. -/
theorem guess_misses_second_chunk :
    ¬ FindsFirst (callAt callRel 0x7200) callCursor.cfa
      ((callAt callRel 0x7200).dwarfStep (callAt callRel 0x7200).copied [] callCursor) := by
  have hreturn : (callAt callRel 0x7200).firstReturn callCursor.cfa = some 64 := by decide +kernel
  have hnone : ((callAt callRel 0x7200).firstGuess
      ((callAt callRel 0x7200).lookedAt callCursor.cfa 9) callTried).1 = none := by decide +kernel
  unfold FindsFirst
  rw [hreturn]
  rintro ⟨c1, hok, -⟩
  exact dwarfStep_of_none rfl (unwindStep_callAt callRel 0x7200) (fun _ _ => rfl)
    (answers_callAt callRel 0x7200) hnone c1 hok

/-- A call through a register that is not in `call_op`. -/
theorem guess_misses_call_rdi :
    ¬ FindsFirst (callAt callRdi 0x7008) callCursor.cfa
      ((callAt callRdi 0x7008).dwarfStep (callAt callRdi 0x7008).copied [] callCursor) := by
  have hreturn : (callAt callRdi 0x7008).firstReturn callCursor.cfa = some 1 := by decide +kernel
  have hnone : ((callAt callRdi 0x7008).firstGuess
      ((callAt callRdi 0x7008).lookedAt callCursor.cfa 9) callTried).1 = none := by decide +kernel
  unfold FindsFirst
  rw [hreturn]
  rintro ⟨c1, hok, -⟩
  exact dwarfStep_of_none rfl (unwindStep_callAt callRdi 0x7008) (fun _ _ => rfl)
    (answers_callAt callRdi 0x7008) hnone c1 hok

/-! ## What the guess reads -/

section Inside

variable {s : Space} {copies : ℕ → UInt64 → Copy} {cfa : UInt64} {buf : List UInt8} {c : Cursor}
  {st st' : GuessState}

/-- The words that are written as a whole. -/
def Space.wholeWords (s : Space) (written : List UInt8) : List UInt64 :=
  s.bufWords written 0 (written.length / s.addrSize)

/-- A chunk that the loops get to, and some words of it without a guess. -/
structure InChunk (s : Space) (copies : ℕ → UInt64 → Copy) (cfa : UInt64) (x : GuessState)
    (st : GuessState) (buf : List UInt8) (c : Cursor) (j : ℕ) : Prop where
  reached : Orbit.Reaches (s.guessStep copies cfa) x (Space.guessChunk copies cfa st.off buf c)
  run : Orbit.run (s.guessStep copies cfa) j (Space.guessChunk copies cfa st.off buf c) = .inl st
  i : st.i = .ofNat (j * s.addrSize)
  le : j * s.addrSize ≤ 512
  n : st.n = (copies st.off cfa).size

/-- The count of a copy that fails bounds nothing. -/
theorem le_max64 (x : UInt64) : x ≤ 0xffffffffffffffff := by
  rw [UInt64.le_iff_toNat_le]
  exact Nat.le_of_lt_succ x.toNat_lt

theorem InChunk.start {x : GuessState} {off : ℕ}
    (h : Orbit.Reaches (s.guessStep copies cfa) x (Space.guessChunk copies cfa off buf c)) :
    InChunk s copies cfa x (Space.guessChunk copies cfa off buf c) buf c 0 where
  reached := h
  run := rfl
  i := by rw [Nat.zero_mul]; rfl
  le := by omega
  n := rfl

/-- What a pass that goes on does: it goes to the next word, or to the next chunk. -/
theorem guessStep_cases (h : s.guessStep copies cfa st = .inl st') :
    (st.i + .ofNat s.addrSize ≤ st.n ∧ ¬ 512 < st.i + .ofNat s.addrSize ∧
      ∃ cursor, st' = { st with i := st.i + .ofNat s.addrSize, cursor }) ∨
    st' = Space.guessChunk copies cfa (st.off + 512) st.buf st.cursor := by
  unfold Space.guessStep at h
  dsimp only at h
  split_ifs at h with hn hbuf _ hoff
  · cases hguess : s.isGuess st.cursor (s.getval st.buf st.i) with
    | mk found c1 =>
      rw [hguess] at h
      cases found with
      | true => cases h
      | false => exact .inl ⟨hn, hbuf, c1, (Sum.inl.inj h).symm⟩
  · exact .inr (Sum.inl.inj h).symm

theorem InChunk.next {x : GuessState} {j : ℕ} (h : InChunk s copies cfa x st buf c j)
    (hstep : s.guessStep copies cfa st = .inl st') :
    ∃ buf' c' j', InChunk s copies cfa x st' buf' c' j' := by
  have hpass : Orbit.run (s.guessStep copies cfa) (j + 1)
      (Space.guessChunk copies cfa st.off buf c) = .inl st' := by
    rw [Orbit.run_of_run h.run, Orbit.run, hstep]
    rfl
  obtain ⟨-, hbuf, cursor, rfl⟩ | rfl := guessStep_cases hstep
  · have hnext : st.i + .ofNat s.addrSize = .ofNat ((j + 1) * s.addrSize) := by
      rw [h.i, Nat.succ_mul, UInt64.ofNat_add]
    have hsize := addrSize_le (s := s)
    have hle := h.le
    have hmul : (j + 1) * s.addrSize = j * s.addrSize + s.addrSize := Nat.succ_mul _ _
    rw [hnext, UInt64.lt_iff_toNat_lt, toNat_ofNat_of_lt (by omega)] at hbuf
    exact ⟨buf, c, j + 1, h.reached, hpass, hnext, Nat.le_of_not_lt hbuf, h.n⟩
  · exact ⟨st.buf, st.cursor, 0, .start (h.reached.trans ⟨j + 1, hpass⟩)⟩

theorem inChunk_of_reaches
    (h : Orbit.Reaches (s.guessStep copies cfa) (Space.guessChunk copies cfa 0 buf c) st) :
    ∃ buf' c' j, InChunk s copies cfa (Space.guessChunk copies cfa 0 buf c) st buf' c' j := by
  apply Orbit.Reaches.invariant _ _ h
  · rintro y z ⟨buf', c', j, hy⟩ hstep
    exact hy.next hstep
  · exact ⟨buf, c, 0, .start (.refl _)⟩

/-- The words of the buffer that a copy wrote are its own. -/
theorem bufWords_written (off : ℕ) :
    s.bufWords (Space.guessChunk copies cfa off buf c).buf 0
        ((copies off cfa).written.length / s.addrSize) =
      s.wholeWords (copies off cfa).written := by
  unfold Space.wholeWords Space.bufWords Space.guessChunk Space.getval
  rw [← List.range_eq_range']
  apply List.map_congr_left
  intro k hk
  have hfits := (copies off cfa).fits
  have hend : (k + 1) * s.addrSize ≤ (copies off cfa).written.length :=
    (Nat.mul_le_mul_right _ (List.mem_range.mp hk)).trans (Nat.div_mul_le_self _ _)
  rw [Nat.succ_mul] at hend
  have hpos := addrSize_pos (s := s)
  dsimp only
  rw [toNat_ofNat_of_lt (by omega), List.drop_append_of_le_length (by omega),
    List.take_append_of_le_length (by rw [List.length_drop]; omega)]

/-- The passes over the words that a failed copy wrote. -/
theorem run_failed (off : ℕ) (hfailed : (copies off cfa).failed = true) :
    Orbit.run (s.guessStep copies cfa) ((copies off cfa).written.length / s.addrSize)
        (Space.guessChunk copies cfa off buf c) =
      match s.firstGuess (s.wholeWords (copies off cfa).written) c with
      | (none, cursor) => .inl { Space.guessChunk copies cfa off buf c with
          i := .ofNat ((copies off cfa).written.length / s.addrSize * s.addrSize), cursor }
      | (some t, c1) => .inr (.ok (true, s.takeGuess (cfa + .ofNat ((t + 1) * s.addrSize))
          (s.getval (Space.guessChunk copies cfa off buf c).buf
            (.ofNat (t * s.addrSize))) c1)) := by
  have hfits := (copies off cfa).fits
  have hle := Nat.div_mul_le_self (copies off cfa).written.length s.addrSize
  have hn : (Space.guessChunk copies cfa off buf c).n = 0xffffffffffffffff := by
    unfold Space.guessChunk Copy.size
    dsimp only
    rw [hfailed]
    rfl
  have hcursor : (Space.guessChunk copies cfa off buf c).cursor = c := rfl
  have hzero : (Space.guessChunk copies cfa off buf c).i = .ofNat (0 * s.addrSize) := by
    rw [Nat.zero_mul]
    rfl
  have hwithin : (0 + (copies off cfa).written.length / s.addrSize) * s.addrSize ≤ 512 := by
    rw [Nat.zero_add]
    omega
  have hbelow : UInt64.ofNat ((0 + (copies off cfa).written.length / s.addrSize) * s.addrSize) ≤
      (Space.guessChunk copies cfa off buf c).n := by
    rw [hn]
    exact le_max64 _
  have hscan : Orbit.run (s.guessStep copies cfa) _ _ = _ := run_scan hzero hwithin hbelow
  simpa only [bufWords_written, hcursor, Nat.zero_add] using hscan

/-- Every word that the loops read was written by the copy, exactly if each copy that fails wrote
a return address first. -/
theorem guess_inside_iff :
    (∀ st, Orbit.Reaches (s.guessStep copies cfa) (Space.guessChunk copies cfa 0 buf c) st →
      st.i + .ofNat s.addrSize ≤ st.n →
      st.i.toNat + s.addrSize ≤ (copies st.off cfa).written.length) ↔
    ∀ off buf' c', Orbit.Reaches (s.guessStep copies cfa) (Space.guessChunk copies cfa 0 buf c)
        (Space.guessChunk copies cfa off buf' c') →
      (copies off cfa).failed = true →
      (s.firstGuess (s.wholeWords (copies off cfa).written) c').1.isSome = true := by
  have hsize := addrSize_le (s := s)
  have hpos := addrSize_pos (s := s)
  constructor
  · intro h off buf' c' hreached hfailed
    have hfits := (copies off cfa).fits
    have hle := Nat.div_mul_le_self (copies off cfa).written.length s.addrSize
    have hrun := @run_failed s copies cfa buf' c' off hfailed
    cases hfirst : s.firstGuess (s.wholeWords (copies off cfa).written) c' with
    | mk found c1 =>
      cases found with
      | some t => rfl
      | none =>
        -- the word behind the last whole one is read
        rw [hfirst] at hrun
        have hlast := h _ (hreached.trans ⟨_, hrun⟩)
        have hmore : (copies off cfa).written.length <
            (copies off cfa).written.length / s.addrSize * s.addrSize + s.addrSize := by
          rw [← Nat.succ_mul]
          exact Nat.lt_mul_of_div_lt (Nat.lt_succ_self _) hpos
        have hn : (Space.guessChunk copies cfa off buf' c').n = 0xffffffffffffffff := by
          unfold Space.guessChunk Copy.size
          dsimp only
          rw [hfailed]
          rfl
        have hoff : (Space.guessChunk copies cfa off buf' c').off = off := rfl
        dsimp only at hlast
        rw [hn, hoff, toNat_ofNat_of_lt (by omega)] at hlast
        exact absurd (hlast (le_max64 _)) (by omega)
  · intro h st hreached hread
    obtain ⟨buf', c', j, hin⟩ := inChunk_of_reaches hreached
    have hfits := (copies st.off cfa).fits
    have hle := hin.le
    rw [hin.i, toNat_ofNat_of_lt (by omega)]
    cases hfailed : (copies st.off cfa).failed with
    | false =>
      have hsum : st.i + .ofNat s.addrSize = .ofNat (j * s.addrSize + s.addrSize) := by
        rw [hin.i, UInt64.ofNat_add]
      have hn : st.n = .ofNat (copies st.off cfa).written.length := by
        rw [hin.n, Copy.size, hfailed]
        rfl
      rw [hsum, hn, UInt64.le_iff_toNat_le, toNat_ofNat_of_lt (by omega),
        toNat_ofNat_of_lt (by omega)] at hread
      exact hread
    | true =>
      have hsome := h st.off buf' c' hin.reached hfailed
      have hrun := @run_failed s copies cfa buf' c' st.off hfailed
      cases hfirst : s.firstGuess (s.wholeWords (copies st.off cfa).written) c' with
      | mk found c1 =>
        rw [hfirst] at hsome hrun
        cases found with
        | none => cases hsome
        | some t =>
          have hbefore : j < (copies st.off cfa).written.length / s.addrSize := by
            by_contra hge
            have hdone := Orbit.run_of_done hrun (Nat.le_of_not_lt hge)
            rw [hin.run] at hdone
            cases hdone
          calc j * s.addrSize + s.addrSize = (j + 1) * s.addrSize := (Nat.succ_mul _ _).symm
            _ ≤ (copies st.off cfa).written.length / s.addrSize * s.addrSize :=
              Nat.mul_le_mul_right _ hbefore
            _ ≤ (copies st.off cfa).written.length := Nat.div_mul_le_self _ _

end Inside

/-- The stack cannot be read: the copy fails, and the buffer is taken for full. -/
theorem guess_reads_unwritten : ∃ (s : Space) (buf : List UInt8) (st : GuessState),
    Orbit.Reaches (s.guessStep s.copied 0x7000)
    (Space.guessChunk s.copied 0x7000 0 buf callCursor) st ∧
      st.i + .ofNat s.addrSize ≤ st.n ∧
      ¬ st.i.toNat + s.addrSize ≤ (s.copied st.off 0x7000).written.length := by
  refine ⟨{ callAt [] 0 with proc := fun _ => none }, [], _, .refl _, ?_, ?_⟩
  · decide +kernel
  · decide +kernel

end Mtrace.Dwarf
