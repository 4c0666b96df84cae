import Mathlib.Data.UInt
import Mathlib.Logic.Function.Basic
import Mathlib.Tactic.FinCases

/-!
# The debug registers

`sysdeps/linux-gnu/x86/arch.c`: a hardware breakpoint of a task has its address in one of four debug
registers, and its mode in bits of the control register, which all of them share.  The server keeps
what it wrote and writes what is different.
-/

namespace Mtrace.Server

/-! ## The task -/

/-- How `PTRACE_POKEUSER` ends. -/
inductive PokeUser where
  | written
  | esrch
  | failed
  deriving DecidableEq, Repr

/-- The fields of `struct arch_task_data`, and `u_debugreg` of the tracee. -/
structure DebugTask where
  is64bit : Bool
  dr7 : UInt64
  hwBp : ℕ → UInt64
  debugreg : ℕ → UInt64

/-- `PTRACE_POKEUSER` of debug registers. -/
abbrev PokeDebugreg := ℕ → UInt64 → PokeUser

/-- `BP_X`, `BP_RW` and `BP_W`. -/
def bpX : ℕ := 1
def bpRw : ℕ := 2
def bpW : ℕ := 4

namespace DebugTask

variable (ptrace : PokeDebugreg) (t : DebugTask)

/-- The tracee after a write. -/
def poke (n : ℕ) (val : UInt64) : DebugTask :=
  if ptrace n val = .written then { t with debugreg := Function.update t.debugreg n val } else t

/-- `_apply_hw_bp`. -/
def writeHwBp (dr7 : UInt32) : ℤ × DebugTask :=
  let t := { t with dr7 := dr7.toUInt64 }
  (if ptrace 7 t.dr7 = .failed then -1 else 0, t.poke ptrace 7 t.dr7)

/-- `apply_hw_bp`. -/
def applyHwBp (dr7 : UInt32) : ℤ × DebugTask :=
  if dr7.toUInt64 = t.dr7 then (0, t) else t.writeHwBp ptrace dr7

/-- The address of a 32-bit task. -/
def slotAddr (addr : UInt64) : UInt64 := if t.is64bit then addr else addr &&& 0xffffffff

/-- `set_breakpoint_addr`. -/
def setBreakpointAddr (addr : UInt64) (n : ℕ) : ℤ × DebugTask :=
  let addr := t.slotAddr addr
  if t.hwBp n = addr then (0, t)
  else if ptrace n addr = .failed then (-1, t)
  else (0, { t.poke ptrace n addr with hwBp := Function.update t.hwBp n addr })

end DebugTask

/-- The bits of a slot: its type and length, and its enable bits. -/
def slotMask (n : UInt32) : UInt32 := 0b1111 <<< (16 + 4 * n) ||| 0b11 <<< (2 * n)

/-- The two bits of a type in `set_breakpoint_mode`. -/
def typeMode (type : ℕ) : Option UInt32 :=
  if type = bpX then some 0b0000
  else if type = bpW then some 0b0001
  else if type = bpRw then some 0b0011
  else none

/-- The two bits of a length. -/
def lenMode (len : ℕ) : UInt32 :=
  if len = 1 then 0b0000 else if len = 2 then 0b0100 else if len = 4 then 0b1100
  else if len = 8 then 0b1000 else 0

/-- Bit 8 says that there is a local enable bit, unless the slot has just got one. -/
def localExact (dr7 : UInt32) : UInt32 :=
  if dr7 &&& 0b01010101 = 0 then dr7 &&& ~~~((1 : UInt32) <<< 8) else dr7

/-- The same for bit 9 and the global enable bits. -/
def globalExact (dr7 : UInt32) : UInt32 :=
  if dr7 &&& 0b10101010 = 0 then dr7 &&& ~~~((1 : UInt32) <<< 9) else dr7

/-- The control register of `set_breakpoint_mode`. -/
def modeDr7 (dr7 : UInt32) (n mode : UInt32) (isLocal isGlobal : Bool) : UInt32 :=
  let dr7 := dr7 &&& ~~~slotMask n ||| mode <<< (16 + 4 * n)
  let dr7 := if isLocal then dr7 ||| 0b01 <<< (2 * n) ||| (1 : UInt32) <<< 8 else localExact dr7
  if isGlobal then dr7 ||| 0b10 <<< (2 * n) ||| (1 : UInt32) <<< 9 else globalExact dr7

namespace DebugTask

variable (ptrace : PokeDebugreg) (t : DebugTask)

/-- `set_breakpoint_mode`. -/
def setBreakpointMode (n : ℕ) (type len : ℕ) (isLocal isGlobal : Bool) : ℤ × DebugTask :=
  match typeMode type with
  | none => (-1, t)
  | some mode =>
    t.applyHwBp ptrace
      (modeDr7 t.dr7.toUInt32 (.ofNat n) (mode ||| lenMode len) isLocal isGlobal)

/-- `set_hw_bp`. -/
def setHwBp (n : ℕ) (addr : UInt64) : ℤ × DebugTask :=
  match t.setBreakpointAddr ptrace addr n with
  | (ret, t) => if ret = -1 then (-1, t) else t.setBreakpointMode ptrace n bpX 1 true false

/-- `reset_hw_bp`. -/
def resetHwBp (n : ℕ) : ℤ × DebugTask :=
  let dr7 := t.dr7.toUInt32 &&& ~~~slotMask (.ofNat n)
  t.applyHwBp ptrace (globalExact (localExact dr7))

/-- `arch_task_init`. -/
def archTaskInit : ℤ × DebugTask :=
  { t with hwBp := fun n => if n < 4 then 0 else t.hwBp n }.writeHwBp ptrace 0

end DebugTask

/-! ## Sequences of operations -/

/-- A call of `set_hw_bp` or `reset_hw_bp`. -/
inductive HwBpCall where
  | set (n : Fin 4) (addr : UInt64)
  | reset (n : Fin 4)
  deriving DecidableEq, Repr

namespace HwBpCall

def slot : HwBpCall → Fin 4
  | set n _ | reset n => n

/-- What a call returns, and the task. -/
def run (ptrace : PokeDebugreg) (t : DebugTask) : HwBpCall → ℤ × DebugTask
  | set n addr => t.setHwBp ptrace n addr
  | reset n => t.resetHwBp ptrace n

/-- The address that a call leaves in an enabled slot. -/
def addr? : HwBpCall → Option UInt64
  | set _ addr => some addr
  | reset _ => none

end HwBpCall

/-- The task after some calls. -/
def DebugTask.calls (ptrace : PokeDebugreg) (t : DebugTask) (cs : List HwBpCall) : DebugTask :=
  cs.foldl (fun t c => (c.run ptrace t).2) t

/-- The address for which a slot is enabled by the last of these calls for it. -/
def lastSet (cs : List HwBpCall) (n : Fin 4) : Option UInt64 :=
  (cs.reverse.find? (·.slot = n)).bind HwBpCall.addr?

/-! ## The control register -/

/-- The control register for four slots, each enabled or not. -/
def dr7Bits (b0 b1 b2 b3 : Bool) : UInt64 :=
  (if b0 then 0x001 else 0) ||| (if b1 then 0x004 else 0) ||| (if b2 then 0x010 else 0) |||
    (if b3 then 0x040 else 0) ||| if b0 || b1 || b2 || b3 then 0x100 else 0

/-- The same for the slots that are enabled for an address. -/
def dr7Of (on : Fin 4 → Option UInt64) : UInt64 :=
  dr7Bits (on 0).isSome (on 1).isSome (on 2).isSome (on 3).isSome

/-- The control register without a slot. -/
def clearDr7 (dr7 n : UInt32) : UInt32 := globalExact (localExact (dr7 &&& ~~~slotMask n))

theorem modeDr7_bits : ∀ b0 b1 b2 b3 : Bool,
    (modeDr7 (dr7Bits b0 b1 b2 b3).toUInt32 0 0 true false).toUInt64 = dr7Bits true b1 b2 b3 ∧
      (modeDr7 (dr7Bits b0 b1 b2 b3).toUInt32 1 0 true false).toUInt64 = dr7Bits b0 true b2 b3 ∧
      (modeDr7 (dr7Bits b0 b1 b2 b3).toUInt32 2 0 true false).toUInt64 = dr7Bits b0 b1 true b3 ∧
      (modeDr7 (dr7Bits b0 b1 b2 b3).toUInt32 3 0 true false).toUInt64 = dr7Bits b0 b1 b2 true := by
  decide +kernel

theorem clearDr7_bits : ∀ b0 b1 b2 b3 : Bool,
    (clearDr7 (dr7Bits b0 b1 b2 b3).toUInt32 0).toUInt64 = dr7Bits false b1 b2 b3 ∧
      (clearDr7 (dr7Bits b0 b1 b2 b3).toUInt32 1).toUInt64 = dr7Bits b0 false b2 b3 ∧
      (clearDr7 (dr7Bits b0 b1 b2 b3).toUInt32 2).toUInt64 = dr7Bits b0 b1 false b3 ∧
      (clearDr7 (dr7Bits b0 b1 b2 b3).toUInt32 3).toUInt64 = dr7Bits b0 b1 b2 false := by
  decide +kernel

section Registers

variable {on : Fin 4 → Option UInt64}

theorem modeDr7_dr7Of (n : Fin 4) (addr : UInt64) :
    (modeDr7 (dr7Of on).toUInt32 (.ofNat n) 0 true false).toUInt64 =
      dr7Of (Function.update on n (some addr)) := by
  obtain ⟨h0, h1, h2, h3⟩ := modeDr7_bits (on 0).isSome (on 1).isSome (on 2).isSome (on 3).isSome
  fin_cases n
  · exact h0
  · exact h1
  · exact h2
  · exact h3

theorem clearDr7_dr7Of (n : Fin 4) :
    (clearDr7 (dr7Of on).toUInt32 (.ofNat n)).toUInt64 = dr7Of (Function.update on n none) := by
  obtain ⟨h0, h1, h2, h3⟩ := clearDr7_bits (on 0).isSome (on 1).isSome (on 2).isSome (on 3).isSome
  fin_cases n
  · exact h0
  · exact h1
  · exact h2
  · exact h3

end Registers

/-! ## The slots -/

/-- The debug registers are those of these enabled slots, and the server knows what is in them. -/
structure DebugTask.Mirrors (t : DebugTask) (on : Fin 4 → Option UInt64) : Prop where
  dr7 : t.dr7 = dr7Of on
  written : t.debugreg 7 = t.dr7
  cached : ∀ n : Fin 4, t.debugreg n = t.hwBp n
  addr : ∀ n a, on n = some a → t.debugreg n = t.slotAddr a

/-- No slot is enabled, and the server knows what is in the address registers. -/
structure DebugTask.Fresh (t : DebugTask) : Prop where
  dr7 : t.dr7 = 0
  written : t.debugreg 7 = 0
  cached : ∀ n : Fin 4, t.debugreg n = t.hwBp n

section Slots

variable {ptrace : PokeDebugreg} {t : DebugTask} {on : Fin 4 → Option UInt64} {c : HwBpCall}
  {cs : List HwBpCall} {n : Fin 4}

theorem DebugTask.Fresh.mirrors (h : t.Fresh) : t.Mirrors fun _ => none where
  dr7 := h.dr7
  written := h.written.trans h.dr7.symm
  cached := h.cached
  addr _ _ h := by cases h

theorem poke_written (hptrace : ∀ n val, ptrace n val = .written) (n : ℕ) (val : UInt64) :
    t.poke ptrace n val = { t with debugreg := Function.update t.debugreg n val } :=
  if_pos (hptrace n val)

/-- The control register is written where it changes. -/
theorem applyHwBp_written (hptrace : ∀ n val, ptrace n val = .written)
    (hwritten : t.debugreg 7 = t.dr7) (dr7 : UInt32) : (t.applyHwBp ptrace dr7).1 = 0 ∧
      (t.applyHwBp ptrace dr7).2 =
        { t with dr7 := dr7.toUInt64, debugreg := Function.update t.debugreg 7 dr7.toUInt64 } := by
  unfold DebugTask.applyHwBp
  by_cases hsame : dr7.toUInt64 = t.dr7
  · rw [if_pos hsame, hsame, ← hwritten, Function.update_eq_self, hwritten]
    exact ⟨rfl, rfl⟩
  · rw [if_neg hsame]
    unfold DebugTask.writeHwBp
    dsimp only
    rw [hptrace, poke_written hptrace]
    exact ⟨rfl, rfl⟩

/-- The address register is written where it changes. -/
theorem setBreakpointAddr_written (hptrace : ∀ n val, ptrace n val = .written)
    (hcached : t.debugreg n = t.hwBp n) (addr : UInt64) :
    t.setBreakpointAddr ptrace addr n =
      (0, { t with
        hwBp := Function.update t.hwBp n (t.slotAddr addr)
        debugreg := Function.update t.debugreg n (t.slotAddr addr) }) := by
  unfold DebugTask.setBreakpointAddr
  dsimp only
  by_cases hsame : t.hwBp n = t.slotAddr addr
  · rw [if_pos hsame, ← hsame, Function.update_eq_self, ← hcached, Function.update_eq_self]
  · rw [if_neg hsame, hptrace, if_neg (by decide), poke_written hptrace]

/-- A task without addresses in its debug registers is so when the server has got it. -/
theorem archTaskInit_fresh (hptrace : ∀ n val, ptrace n val = .written)
    (hnew : ∀ n : Fin 4, t.debugreg n = 0) : (t.archTaskInit ptrace).2.Fresh := by
  unfold DebugTask.archTaskInit DebugTask.writeHwBp
  dsimp only
  rw [poke_written hptrace]
  refine ⟨rfl, ?_, fun n => ?_⟩
  · dsimp only
    rw [Function.update_self]
    rfl
  · dsimp only
    rw [Function.update_of_ne (by omega), hnew n, if_pos n.isLt]

theorem ne_seven (n : Fin 4) : (n : ℕ) ≠ 7 := by
  have hlt := n.isLt
  omega

/-- `set_hw_bp` enables its slot for the address, and no other call of it is needed. -/
theorem DebugTask.Mirrors.setHwBp (h : t.Mirrors on) (hptrace : ∀ n val, ptrace n val = .written)
    (n : Fin 4) (addr : UInt64) : (t.setHwBp ptrace n addr).1 = 0 ∧
      (t.setHwBp ptrace n addr).2.is64bit = t.is64bit ∧
      (t.setHwBp ptrace n addr).2.Mirrors (Function.update on n (some addr)) := by
  have haddr := setBreakpointAddr_written hptrace (h.cached n) addr
  set t1 : DebugTask := { t with
    hwBp := Function.update t.hwBp n (t.slotAddr addr)
    debugreg := Function.update t.debugreg n (t.slotAddr addr) } with ht1
  have hwritten : t1.debugreg 7 = t1.dr7 := by
    rw [ht1]
    dsimp only
    rw [Function.update_of_ne (ne_seven n).symm, h.written]
  have hmode : t.setHwBp ptrace n addr = t1.applyHwBp ptrace
      (modeDr7 t1.dr7.toUInt32 (.ofNat n) 0 true false) := by
    unfold DebugTask.setHwBp
    rw [haddr]
    rfl
  obtain ⟨hret, htask⟩ := applyHwBp_written hptrace hwritten
    (modeDr7 t1.dr7.toUInt32 (.ofNat n) 0 true false)
  have hdr7 : t1.dr7 = dr7Of on := h.dr7
  rw [hdr7, modeDr7_dr7Of n addr] at htask
  rw [hmode]
  refine ⟨hret, ?_⟩
  rw [hdr7, htask]
  refine ⟨rfl, rfl, ?_, fun m => ?_, fun m a hm => ?_⟩
  · dsimp only
    rw [Function.update_self]
  · dsimp only
    rw [Function.update_of_ne (ne_seven m), ht1]
    dsimp only
    by_cases hsame : (m : ℕ) = n
    · rw [hsame, Function.update_self, Function.update_self]
    · rw [Function.update_of_ne hsame, Function.update_of_ne hsame, h.cached m]
  · dsimp only
    rw [Function.update_of_ne (ne_seven m), ht1]
    dsimp only
    by_cases hsame : m = n
    · rw [hsame, Function.update_self] at hm
      cases hm
      rw [hsame, Function.update_self]
      rfl
    · rw [Function.update_of_ne hsame] at hm
      rw [Function.update_of_ne fun heq => hsame (Fin.ext heq)]
      exact h.addr m a hm

/-- `reset_hw_bp` disables its slot. -/
theorem DebugTask.Mirrors.resetHwBp (h : t.Mirrors on) (hptrace : ∀ n val, ptrace n val = .written)
    (n : Fin 4) : (t.resetHwBp ptrace n).1 = 0 ∧ (t.resetHwBp ptrace n).2.is64bit = t.is64bit ∧
      (t.resetHwBp ptrace n).2.Mirrors (Function.update on n none) := by
  obtain ⟨hret, htask⟩ := applyHwBp_written hptrace h.written (clearDr7 t.dr7.toUInt32 (.ofNat n))
  rw [h.dr7, clearDr7_dr7Of n] at htask
  refine ⟨hret, ?_⟩
  have hreset : t.resetHwBp ptrace n =
      t.applyHwBp ptrace (clearDr7 (dr7Of on).toUInt32 (.ofNat n)) := by
    rw [← h.dr7]
    rfl
  rw [hreset, htask]
  refine ⟨rfl, rfl, ?_, fun m => ?_, fun m a hm => ?_⟩
  · dsimp only
    rw [Function.update_self]
  · dsimp only
    rw [Function.update_of_ne (ne_seven m), h.cached m]
  · dsimp only
    rw [Function.update_of_ne (ne_seven m)]
    by_cases hsame : m = n
    · rw [hsame, Function.update_self] at hm
      cases hm
    · rw [Function.update_of_ne hsame] at hm
      exact h.addr m a hm

theorem lastSet_append (cs : List HwBpCall) (c : HwBpCall) :
    lastSet (cs ++ [c]) = Function.update (lastSet cs) c.slot c.addr? := by
  funext n
  unfold lastSet
  rw [List.reverse_append, List.reverse_singleton, List.singleton_append]
  by_cases hsame : c.slot = n
  · rw [List.find?_cons_of_pos (by simpa using hsame), ← hsame, Function.update_self]
    rfl
  · rw [List.find?_cons_of_neg (by simpa using hsame), Function.update_of_ne fun h => hsame h.symm]

/-- Whatever is called, the registers are those of the last calls for each slot. -/
theorem mirrors_calls (hptrace : ∀ n val, ptrace n val = .written) (h : t.Fresh)
    (cs : List HwBpCall) :
    (t.calls ptrace cs).is64bit = t.is64bit ∧ (t.calls ptrace cs).Mirrors (lastSet cs) := by
  induction cs using List.reverseRecOn with
  | nil => exact ⟨rfl, h.mirrors⟩
  | append_singleton cs c ih =>
    obtain ⟨hbits, hmirrors⟩ := ih
    have hcalls : t.calls ptrace (cs ++ [c]) = (c.run ptrace (t.calls ptrace cs)).2 := by
      unfold DebugTask.calls
      rw [List.foldl_append]
      rfl
    rw [hcalls, lastSet_append]
    cases c with
    | set n addr =>
      obtain ⟨-, hkept, hset⟩ := hmirrors.setHwBp hptrace n addr
      exact ⟨hkept.trans hbits, hset⟩
    | reset n =>
      obtain ⟨-, hkept, hreset⟩ := hmirrors.resetHwBp hptrace n
      exact ⟨hkept.trans hbits, hreset⟩

theorem dr7Bits_enable : ∀ b0 b1 b2 b3 : Bool,
    ((dr7Bits b0 b1 b2 b3).toNat.testBit 0 = b0 ∧ (dr7Bits b0 b1 b2 b3).toNat.testBit 2 = b1 ∧
      (dr7Bits b0 b1 b2 b3).toNat.testBit 4 = b2 ∧ (dr7Bits b0 b1 b2 b3).toNat.testBit 6 = b3) ∧
    ((dr7Bits b0 b1 b2 b3).toNat.testBit 1 = false ∧ (dr7Bits b0 b1 b2 b3).toNat.testBit 3 = false ∧
      (dr7Bits b0 b1 b2 b3).toNat.testBit 5 = false ∧
      (dr7Bits b0 b1 b2 b3).toNat.testBit 7 = false) ∧
    (dr7Bits b0 b1 b2 b3).toNat.testBit 8 = (b0 || b1 || b2 || b3) ∧
    (dr7Bits b0 b1 b2 b3).toNat < 2 ^ 9 := by
  decide +kernel

/-- The bits of the control register for these slots. -/
theorem testBit_dr7Of (on : Fin 4 → Option UInt64) :
    (∀ n : Fin 4, (dr7Of on).toNat.testBit (2 * n) = (on n).isSome ∧
      (dr7Of on).toNat.testBit (2 * n + 1) = false) ∧
    ((dr7Of on).toNat.testBit 8 = true ↔ ∃ n, (on n).isSome = true) ∧
    ∀ k, 9 ≤ k → (dr7Of on).toNat.testBit k = false := by
  obtain ⟨⟨h0, h2, h4, h6⟩, ⟨h1, h3, h5, h7⟩, h8, hlt⟩ :=
    dr7Bits_enable (on 0).isSome (on 1).isSome (on 2).isSome (on 3).isSome
  refine ⟨fun n => ?_, ?_, fun k hk => ?_⟩
  · fin_cases n
    · exact ⟨h0, h1⟩
    · exact ⟨h2, h3⟩
    · exact ⟨h4, h5⟩
    · exact ⟨h6, h7⟩
  · rw [show (dr7Of on).toNat.testBit 8 = _ from h8, Fin.exists_fin_succ]
    simp [Fin.exists_fin_succ, or_assoc]
  · exact Nat.testBit_lt_two_pow (hlt.trans_le (Nat.pow_le_pow_right (by decide) hk))

theorem toNat_slotAddr (t : DebugTask) (addr : UInt64) :
    (t.slotAddr addr).toNat = if t.is64bit then addr.toNat else addr.toNat % 2 ^ 32 := by
  unfold DebugTask.slotAddr
  cases t.is64bit with
  | true => rfl
  | false =>
    rw [if_neg Bool.false_ne_true, if_neg Bool.false_ne_true, UInt64.toNat_and]
    exact Nat.and_two_pow_sub_one_eq_mod addr.toNat 32

/-- Whatever is called, bit `2 * n` of the control register says whether the last call for slot `n`
was `set_hw_bp`, bit 8 whether there is such a slot, and the others are 0; the address register of
such a slot has the last address, and the tracee has the control register of the server. -/
theorem dr7_mirrors_slots (hptrace : ∀ n val, ptrace n val = .written) (h : t.Fresh)
    (cs : List HwBpCall) :
    (∀ n : Fin 4,
      (t.calls ptrace cs).dr7.toNat.testBit (2 * n) = (lastSet cs n).isSome ∧
        (t.calls ptrace cs).dr7.toNat.testBit (2 * n + 1) = false) ∧
    ((t.calls ptrace cs).dr7.toNat.testBit 8 = true ↔ ∃ n, (lastSet cs n).isSome = true) ∧
    (∀ k, 9 ≤ k → (t.calls ptrace cs).dr7.toNat.testBit k = false) ∧
    (∀ n addr, lastSet cs n = some addr →
      ((t.calls ptrace cs).debugreg n).toNat =
        if t.is64bit then addr.toNat else addr.toNat % 2 ^ 32) ∧
    (t.calls ptrace cs).debugreg 7 = (t.calls ptrace cs).dr7 := by
  obtain ⟨hbits, hmirrors⟩ := mirrors_calls hptrace h cs
  obtain ⟨henable, hexact, hzero⟩ := testBit_dr7Of (lastSet cs)
  rw [← hmirrors.dr7] at henable hexact hzero
  refine ⟨henable, hexact, hzero, fun n addr hn => ?_, hmirrors.written⟩
  rw [hmirrors.addr n addr hn, toNat_slotAddr, hbits]

end Slots

/-- Two slots of a 32-bit task; the first is disabled and set again, and the second disabled. -/
theorem dr7_mirrors_slots_reset :
    let t : DebugTask := ⟨false, 0, fun _ => 0, fun _ => 0⟩
    let cs : List HwBpCall := [.set 0 0x1000, .set 2 0x2000, .reset 0, .set 0 0x100003000, .reset 2]
    (∀ n : Fin 4,
      (t.calls (fun _ _ => .written) cs).dr7.toNat.testBit (2 * n) = (lastSet cs n).isSome ∧
        (t.calls (fun _ _ => .written) cs).dr7.toNat.testBit (2 * n + 1) = false) ∧
    (t.calls (fun _ _ => .written) cs).dr7 = 0x101 ∧
    (t.calls (fun _ _ => .written) cs).debugreg 0 = 0x3000 := by
  intro t cs
  have hfresh : t.Fresh := ⟨rfl, rfl, fun _ => rfl⟩
  have hptrace : ∀ n val, (fun _ _ => .written : PokeDebugreg) n val = .written := fun _ _ => rfl
  have hmirrors := dr7_mirrors_slots hptrace hfresh cs
  exact ⟨hmirrors.1, by decide +kernel, by decide +kernel⟩

end Mtrace.Server
