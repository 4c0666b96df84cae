import Mathlib.Data.Int.Notation
import Mathlib.Data.List.Basic
import Mathlib.Data.Nat.Notation

/-!
# Reading the memory of a task

`copy_from_proc`: one `process_vm_readv` for more than a word, and otherwise, or where the kernel
does not have that call, one `PTRACE_PEEKTEXT` for each word.
-/

namespace Mtrace.Server

/-- The values of `errno` that are told apart. -/
inductive Errno where
  | efault
  | enosys
  | eio
  | other
  deriving DecidableEq, Repr

/-- The memory of a task: the bytes that are mapped. -/
abbrev ProcMem := UInt64 → Option UInt8

/-- `process_vm_readv` of one range: the bytes it reads, or its `errno`. -/
abbrev VmReadv := UInt64 → ℕ → Except Errno (List UInt8)

/-- The bytes of a range, if all of it is mapped. -/
def bytesAt (proc : ProcMem) (addr : UInt64) : ℕ → Option (List UInt8)
  | 0 => some []
  | n + 1 => do return (← proc addr) :: (← bytesAt proc (addr + 1) n)

/-- What `copy_from_proc` returns, what it has written to `dst`, and `process_vm_call_nosys`. -/
structure Copied where
  ret : ℤ
  dst : List UInt8
  nosys : Bool

/-- The loop over the words; a `PTRACE_PEEKTEXT` fails with `errno` if one of its bytes is not
mapped. -/
@[semireducible]
def copyWords (proc : ProcMem) (errno : UInt64 → Errno) (addr : UInt64) (len : ℕ)
    (done : List UInt8) : ℤ × List UInt8 :=
  if len = 0 then (done.length, done)
  else
    match bytesAt proc addr 8 with
    | none => if done ≠ [] ∧ errno addr = .eio then (done.length, done) else (-1, done)
    | some word =>
      let n := min 8 len
      copyWords proc errno (addr + .ofNat n) (len - n) (done ++ word.take n)
termination_by len
decreasing_by omega

/-- `copy_from_proc`. -/
def copyFromProc (proc : ProcMem) (vm : VmReadv) (errno : UInt64 → Errno) (nosys : Bool)
    (addr : UInt64) (len : ℕ) : Copied :=
  let words (nosys : Bool) : Copied :=
    ⟨(copyWords proc errno addr len []).1, (copyWords proc errno addr len []).2, nosys⟩
  if 8 < len ∧ nosys = false then
    match vm addr len with
    | .ok bytes => ⟨bytes.length, bytes, nosys⟩
    | .error .efault => words nosys
    | .error .enosys => words true
    | .error _ => ⟨-1, [], nosys⟩
  else words nosys

/-- The kernel has `process_vm_readv`, which reads a range that is mapped. -/
def Available (proc : ProcMem) (vm : VmReadv) : Prop :=
  ∀ addr len bytes, bytesAt proc addr len = some bytes → vm addr len = .ok bytes

/-- The kernel does not have it. -/
def Missing (vm : VmReadv) : Prop := ∀ addr len, vm addr len = .error .enosys

section Words

variable {proc : ProcMem} {errno : UInt64 → Errno} {addr : UInt64} {len m n : ℕ}
  {bytes done : List UInt8}

theorem bytesAt_add : bytesAt proc addr (m + n) = (bytesAt proc addr m).bind fun bs =>
    (bytesAt proc (addr + .ofNat m) n).map (bs ++ ·) := by
  induction m generalizing addr with
  | zero =>
    rw [Nat.zero_add]
    show _ = (bytesAt proc (addr + 0) n).map _
    rw [UInt64.add_zero]
    exact Option.map_id'.symm
  | succ m ih =>
    have hnext : addr + 1 + .ofNat m = addr + .ofNat (m + 1) := by
      rw [UInt64.ofNat_add, UInt64.add_assoc, UInt64.add_comm 1]
      rfl
    rw [Nat.succ_add, bytesAt, bytesAt, ih, hnext]
    cases proc addr with
    | none => rfl
    | some b =>
      cases bytesAt proc (addr + 1) m with
      | none => rfl
      | some bs =>
        cases bytesAt proc (addr + .ofNat (m + 1)) n with
        | none => rfl
        | some cs => rfl

theorem length_bytesAt (h : bytesAt proc addr n = some bytes) : bytes.length = n := by
  induction n generalizing addr bytes with
  | zero =>
    cases h
    rfl
  | succ n ih =>
    obtain ⟨b, -, h⟩ := Option.bind_eq_some_iff.mp h
    obtain ⟨bs, hbs, heq⟩ := Option.bind_eq_some_iff.mp h
    cases heq
    rw [List.length_cons, ih hbs]

/-- A range that is mapped is one behind the other. -/
theorem bytesAt_split (h : bytesAt proc addr (m + n) = some bytes) :
    bytesAt proc addr m = some (bytes.take m) ∧
      bytesAt proc (addr + .ofNat m) n = some (bytes.drop m) := by
  rw [bytesAt_add] at h
  obtain ⟨bs, hbs, h⟩ := Option.bind_eq_some_iff.mp h
  obtain ⟨cs, hcs, rfl⟩ := Option.map_eq_some_iff.mp h
  have hlen := length_bytesAt hbs
  rw [hbs, hcs, ← hlen, List.take_left, List.drop_left]
  exact ⟨rfl, rfl⟩

/-- The last word of the loop, of which a part may be outside of the range. -/
def LastMapped (proc : ProcMem) (addr : UInt64) (len : ℕ) : Prop :=
  len % 8 = 0 ∨ (bytesAt proc (addr + .ofNat (8 * (len / 8))) 8).isSome

/-- Behind a word, the last word is the same. -/
theorem lastMapped_next (h : 8 ≤ len) :
    LastMapped proc (addr + .ofNat 8) (len - 8) ↔ LastMapped proc addr len := by
  have hmod : (len - 8) % 8 = len % 8 := by omega
  have hlast : addr + .ofNat 8 + .ofNat (8 * ((len - 8) / 8)) = addr + .ofNat (8 * (len / 8)) := by
    rw [UInt64.add_assoc, ← UInt64.ofNat_add]
    congr 2
    omega
  unfold LastMapped
  rw [hmod, hlast]

/-- The loop reads a range that is mapped exactly if its last word is. -/
theorem copyWords_reads_iff (h : bytesAt proc addr len = some bytes) :
    copyWords proc errno addr len done = (((done ++ bytes).length : ℤ), done ++ bytes) ↔
      LastMapped proc addr len := by
  induction len using Nat.strongRecOn generalizing addr bytes done with
  | ind len ih =>
    have hlen := length_bytesAt h
    rw [copyWords]
    by_cases hzero : len = 0
    · subst hzero
      rw [if_pos rfl, List.eq_nil_of_length_eq_zero hlen, List.append_nil]
      exact iff_of_true rfl (.inl rfl)
    rw [if_neg hzero]
    by_cases hword : 8 ≤ len
    · -- the word is in the range
      have hsplit : bytesAt proc addr (8 + (len - 8)) = some bytes := by
        rw [Nat.add_sub_cancel' hword]
        exact h
      obtain ⟨hfirst, hrest⟩ := bytesAt_split hsplit
      have hih := @ih (len - 8) (by omega) _ _ (done ++ bytes.take 8) hrest
      rw [List.append_assoc, List.take_append_drop, lastMapped_next hword] at hih
      simp only [hfirst, Nat.min_eq_left hword, List.take_take, Nat.min_self]
      exact hih
    · -- the word is the last one
      have hlast : LastMapped proc addr len ↔ (bytesAt proc addr 8).isSome = true := by
        have hdiv : len / 8 = 0 := by omega
        have hmod : len % 8 ≠ 0 := by omega
        unfold LastMapped
        rw [hdiv]
        show _ ∨ (bytesAt proc (addr + 0) 8).isSome = true ↔ _
        rw [UInt64.add_zero]
        exact or_iff_right hmod
      rw [hlast]
      cases hpeek : bytesAt proc addr 8 with
      | none =>
        have hlonger : (done.length : ℤ) ≠ ((done ++ bytes).length : ℤ) := by
          rw [List.length_append]
          omega
        apply iff_of_false
        · dsimp only
          split
          · exact fun heq => hlonger (congrArg Prod.fst heq)
          · exact fun heq => absurd (congrArg Prod.fst heq) (by dsimp only; omega)
        · exact Bool.false_ne_true
      | some word =>
        have hsplit : bytesAt proc addr (len + (8 - len)) = some word := by
          rw [Nat.add_sub_cancel' (by omega)]
          exact hpeek
        have hbytes : bytes = word.take len :=
          Option.some.inj (h.symm.trans (bytesAt_split hsplit).1)
        apply iff_of_true
        · simp only [Nat.min_eq_right (Nat.le_of_not_le hword), Nat.sub_self, ← hbytes]
          rw [copyWords, if_pos rfl]
        · rfl

end Words

/-! ## The call -/

section Copy

variable {proc : ProcMem} {vm : VmReadv} {errno : UInt64 → Errno} {nosys : Bool} {addr : UInt64}
  {len : ℕ} {bytes : List UInt8}

/-- At most a word is peeked at once, from its address to the end of that word. -/
theorem copyFromProc_word (hpos : 0 < len) (hlen : len ≤ 8) :
    copyFromProc proc vm errno nosys addr len = match bytesAt proc addr 8 with
      | some word => ⟨len, word.take len, nosys⟩
      | none => ⟨-1, [], nosys⟩ := by
  have hwords : copyWords proc errno addr len [] = match bytesAt proc addr 8 with
      | some word => ((len : ℤ), word.take len)
      | none => (-1, []) := by
    rw [copyWords, if_neg (Nat.ne_of_gt hpos)]
    cases hword : bytesAt proc addr 8 with
    | none => exact if_neg fun h => h.1 rfl
    | some word =>
      have htake : (word.take len).length = len := by
        rw [List.length_take, length_bytesAt hword, Nat.min_eq_left hlen]
      dsimp only
      rw [Nat.min_eq_right hlen, Nat.sub_self, List.nil_append, copyWords, if_pos rfl, htake]
  unfold copyFromProc
  dsimp only
  rw [if_neg fun h => Nat.not_lt_of_le hlen h.1, hwords]
  cases bytesAt proc addr 8 <;> rfl

/-- A range that is mapped is read, and all of it, exactly if `process_vm_readv` reads it, or if the
last of the words from its beginning on is mapped to its end. -/
theorem copyFromProc_reads_iff (h : bytesAt proc addr len = some bytes)
    (hvm : Available proc vm ∨ Missing vm) (hnosys : nosys = true → Missing vm) :
    ((copyFromProc proc vm errno nosys addr len).ret = len ∧
        (copyFromProc proc vm errno nosys addr len).dst = bytes) ↔
      (8 < len ∧ Available proc vm) ∨ LastMapped proc addr len := by
  have hwords : copyWords proc errno addr len [] = ((([] ++ bytes).length : ℤ), [] ++ bytes) ↔
      LastMapped proc addr len := copyWords_reads_iff h
  rw [List.nil_append, length_bytesAt h, Prod.ext_iff] at hwords
  have hmissing (hgone : Missing vm) : ¬ Available proc vm := by
    intro hhere
    cases (hgone addr len).symm.trans (hhere addr len bytes h)
  unfold copyFromProc
  dsimp only
  by_cases hlong : 8 < len ∧ nosys = false
  · rw [if_pos hlong]
    obtain hvm | hvm := hvm
    · rw [hvm addr len bytes h]
      exact iff_of_true ⟨congrArg Nat.cast (length_bytesAt h), rfl⟩ (.inl ⟨hlong.1, hvm⟩)
    · rw [hvm addr len, or_iff_right fun hfast => hmissing hvm hfast.2]
      exact hwords
  · have hslow : ¬ (8 < len ∧ Available proc vm) := by
      rintro ⟨hlt, hhere⟩
      cases hflag : nosys with
      | true => exact hmissing (hnosys hflag) hhere
      | false => exact hlong ⟨hlt, hflag⟩
    rw [if_neg hlong, or_iff_right hslow]
    exact hwords

end Copy

/-- A page at 0x1000 is mapped. -/
def onePage : ProcMem := fun addr => if 0x1000 ≤ addr ∧ addr < 0x2000 then some 0 else none

/-- A kernel without `process_vm_readv`. -/
def noReadv : VmReadv := fun _ _ => .error .enosys

theorem copyFromProc_reads_three :
    (copyFromProc onePage noReadv (fun _ => .eio) false 0x1000 3).ret = 3 ∧
      (copyFromProc onePage noReadv (fun _ => .eio) false 0x1000 3).dst = [0, 0, 0] := by
  have hmapped : bytesAt onePage 0x1000 3 = some [0, 0, 0] := rfl
  have hnosys : false = true → Missing noReadv := fun h => absurd h Bool.false_ne_true
  have hlast : LastMapped onePage 0x1000 3 := .inr rfl
  exact (copyFromProc_reads_iff hmapped (.inr fun _ _ => rfl) hnosys).mpr (.inr hlast)

/-- The last byte of the page is mapped and not read, with the call or without it. -/
theorem copyFromProc_misses_last : bytesAt onePage 0x1fff 1 = some [0] ∧ ∀ vm errno nosys,
    (copyFromProc onePage vm errno nosys 0x1fff 1).ret = -1 := by
  refine ⟨rfl, fun vm errno nosys => ?_⟩
  have hpeek : bytesAt onePage 0x1fff 8 = none := rfl
  have hwords : copyWords onePage errno 0x1fff 1 [] = (-1, []) := by
    rw [copyWords]
    simp [hpeek]
  unfold copyFromProc
  simp [hwords]

end Mtrace.Server
