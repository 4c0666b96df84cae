import Mathlib.Data.List.Nodup
import Mathlib.Data.UInt
import Mathlib.Logic.Function.Basic
import Mtrace.Machine

/-!
# Breakpoints

`breakpoint.c` and `skip_breakpoint` of `trace.c` for a process on x86: a break instruction of one
byte and four hardware slots, of which the first is the scratch slot of each thread.  The process is
stopped wherever its text is written, and `ptrace` succeeds.  A failed `assert` ends the server; the
error is the text of the assertion.

A `struct breakpoint *` is a `Handle`.  A structure stays readable after it was deleted; one that
was never created counts as deleted.
-/

namespace Mtrace.Server

/-- A `struct breakpoint *`. -/
abbrev Handle := ℕ

/-- `BP_SW`, `BP_HW_SCRATCH`, `BP_HW` and `BP_AUTO`. -/
inductive BpType where
  | sw
  | hwScratch
  | hw
  | auto
  deriving DecidableEq, Repr

/-- The test `type >= BP_HW`. -/
def BpType.geHw : BpType → Bool
  | .hw | .auto => true
  | _ => false

/-- `BREAKPOINT_VALUE`. -/
def breakInsnValue : UInt8 := 0xcc

/-- `HW_BREAKPOINTS`. -/
def hwBreakpoints : ℕ := 4

/-- `HW_BP_SCRATCH_SLOT`. -/
def hwBpScratchSlot : ℕ := 0

/-- `struct breakpoint`; `shared` is the storage of the union. -/
structure Breakpoint where
  addr : UInt64
  type : BpType
  hwcnt : UInt32
  enabled : Bool
  deleted : Bool
  sw : Bool
  hw : Bool
  wasHw : Bool
  breakInsn : Bool
  shared : UInt32
  deriving DecidableEq, Repr

namespace Breakpoint

/-- `orig_value`, the first byte of the union. -/
def origValue (b : Breakpoint) : UInt8 := b.shared.toUInt8

/-- `hw_bp_slot`, all of the union. -/
def hwBpSlot (b : Breakpoint) : ℕ := b.shared.toNat

/-- Writing `orig_value` leaves the other bytes of the union. -/
def setOrigValue (b : Breakpoint) (v : UInt8) : Breakpoint :=
  { b with shared := b.shared &&& 0xffffff00 ||| v.toUInt32 }

def setHwBpSlot (b : Breakpoint) (slot : ℕ) : Breakpoint := { b with shared := .ofNat slot }

def setHwcnt (b : Breakpoint) (hwcnt : UInt32) : Breakpoint := { b with hwcnt }

/-- A handle without a structure. -/
def none : Breakpoint := ⟨0, .sw, 0, false, true, false, false, false, false, 0⟩

@[simp] theorem origValue_setOrigValue (b : Breakpoint) (v : UInt8) :
    (b.setOrigValue v).origValue = v := by
  have h : (0xffffff00 : UInt32).toUInt8 = 0 := rfl
  unfold setOrigValue origValue
  rw [UInt32.toUInt8_or, UInt32.toUInt8_and, h, UInt8.and_zero, UInt8.zero_or,
    UInt8.toUInt8_toUInt32]

theorem hwBpSlot_setHwBpSlot (b : Breakpoint) {slot : ℕ} (h : slot < hwBreakpoints) :
    (b.setHwBpSlot slot).hwBpSlot = slot := by
  unfold setHwBpSlot hwBpSlot
  rw [UInt32.toNat_ofNat']
  exact Nat.mod_eq_of_lt (h.trans (by decide))

end Breakpoint

/-- `hw_bp` of a task. -/
abbrev Slots := ℕ → Option Handle

/-- The text of a process and the fields of its leader; `hwBp` belongs to the leader itself and
`threads` to the other tasks. -/
structure Traced where
  text : UInt64 → UInt8
  bp : Handle → Breakpoint
  next : Handle
  /-- The dictionary `breakpoints`. -/
  breakpoints : List Handle
  hwBpList : List Handle
  hwBpNum : ℕ
  hwBp : Slots
  threads : List Slots

/-- `assert`. -/
def check (holds : Bool) (expr : String) : Except String Unit :=
  if holds then .ok () else .error expr

namespace Traced

def setBp (t : Traced) (h : Handle) (f : Breakpoint → Breakpoint) : Traced :=
  { t with bp := Function.update t.bp h (f (t.bp h)) }

/-- `each_task` over the slots of the tasks, the leader last. -/
def eachTask (t : Traced) (f : Slots → Except String Slots) : Except String Traced := do
  let threads ← t.threads.mapM f
  let hwBp ← f t.hwBp
  return { t with threads, hwBp }

/-! ## Software breakpoints -/

def enableSwBreakpoint (t : Traced) (h : Handle) : Except String Traced := do
  let bp := t.bp h
  check (!bp.sw) "bp->sw == 0"
  check (!bp.hw) "bp->hw == 0"
  let value := t.text bp.addr
  return { t with text := Function.update t.text bp.addr breakInsnValue }.setBp h fun bp =>
    { bp.setOrigValue value with
      breakInsn := breakInsnValue == value
      wasHw := false
      sw := true
      enabled := true }

def disableSwBreakpoint (t : Traced) (h : Handle) : Except String Traced := do
  let bp := t.bp h
  check bp.sw "bp->sw"
  check (!bp.hw) "bp->hw == 0"
  return { t with text := Function.update t.text bp.addr bp.origValue }.setBp h fun bp =>
    { bp with sw := false, enabled := false }

def breakpointFind (t : Traced) (addr : UInt64) : Option Handle :=
  t.breakpoints.find? fun h => (t.bp h).addr = addr

/-! ## Hardware breakpoints -/

/-- `enable_hw_bp` for one task. -/
def enableHwBp (bp : Breakpoint) (h : Handle) (slots : Slots) : Except String Slots := do
  let slot := bp.hwBpSlot
  check (bp.type != .sw) "bp->type != BP_SW"
  check (!bp.type.geHw || slots slot == none)
    "bp->type < BP_HW || task->hw_bp[slot] == NULL"
  check (!bp.sw) "bp->sw == 0"
  return Function.update slots slot (some h)

/-- `disable_hw_bp` for one task. -/
def disableHwBp (bp : Breakpoint) (h : Handle) (slots : Slots) : Except String Slots := do
  let slot := bp.hwBpSlot
  check (!bp.sw) "bp->sw == 0"
  match slots slot with
  | none => return slots
  | some g =>
    check (g == h) "task->hw_bp[slot] == bp"
    return Function.update slots slot none

def hw2swBp (t : Traced) (h : Handle) : Except String Traced := do
  let t ← t.eachTask (disableHwBp (t.bp h) h)
  (t.setBp h fun bp => { bp with hw := false }).enableSwBreakpoint h

/-- Puts a breakpoint into a slot of every task. -/
def takeSlot (t : Traced) (h : Handle) (slot : ℕ) : Except String Traced :=
  let t := t.setBp h fun bp =>
    { bp.setHwBpSlot slot with enabled := true, hw := true, wasHw := true }
  t.eachTask (enableHwBp (t.bp h) h)

/-- `hw_bp_sort`; the difference of the counters is an `unsigned int` read as an `int`. -/
def hwBpSort (bp : Handle → Breakpoint) (p q : Handle) : ℤ :=
  if (bp p).type ≠ (bp q).type then
    if (bp p).type = .hw then -1 else 1
  else ((bp q).hwcnt - (bp p).hwcnt).toInt32.toInt

def clearHwcnt (t : Traced) (hs : List Handle) : Traced :=
  { t with bp := fun h => if h ∈ hs then (t.bp h).setHwcnt 0 else t.bp h }

/-- The loop of `reorder_hw_bp` that sorts the slots in use, as bits, from the breakpoints that have
to move. -/
def splitHw (bp : Handle → Breakpoint) : ℕ → List Handle → Except String (ℕ × List Handle)
  | hwBpSet, [] => .ok (hwBpSet, [])
  | hwBpSet, h :: hs =>
    if (bp h).hw then do
      let slot := (bp h).hwBpSlot
      check (slot != hwBpScratchSlot) "bp_list[i]->hw_bp_slot != HW_BP_SCRATCH_SLOT"
      check (slot < hwBreakpoints) "bp_list[i]->hw_bp_slot < HW_BREAKPOINTS"
      check (!hwBpSet.testBit slot) "(hw_bp_set & 1 << bp_list[i]->hw_bp_slot) == 0"
      splitHw bp (hwBpSet ||| 1 <<< slot) hs
    else do
      let (hwBpSet, moved) ← splitHw bp hwBpSet hs
      return (hwBpSet, h :: moved)

/-- The loop `while(hw_bp_set & (1 << i)) ++i`, with a bound on its passes. -/
def nextSlot (hwBpSet : ℕ) : ℕ → ℕ → ℕ
  | 0, i => i
  | fuel + 1, i => if hwBpSet.testBit i then nextSlot hwBpSet fuel (i + 1) else i

/-- Frees a slot for another breakpoint. -/
def evict (t : Traced) (slot : ℕ) : Except String Traced :=
  match t.hwBp slot with
  | some g => t.hw2swBp g
  | none => .ok t

/-- The last loop of `reorder_hw_bp`. -/
def moveToHw (hwBpSet : ℕ) : Traced → ℕ → List Handle → Except String Traced
  | t, _, [] => .ok t
  | t, i, h :: hs => do
    let i := nextSlot hwBpSet hwBreakpoints i
    let t ← t.disableSwBreakpoint h
    let t ← t.evict i
    let t ← t.takeSlot h i
    moveToHw hwBpSet t (i + 1) hs

/-- `reorder_hw_bp` with a given `qsort`. -/
def reorderHwBp (qsort : (Handle → Handle → ℤ) → List Handle → List Handle) (t : Traced) :
    Except String Traced :=
  if t.hwBpNum = 0 then .ok t
  else do
    let bpList := t.hwBpList.filter fun h => (t.bp h).enabled
    check (bpList.length ≤ t.hwBpNum) "n < leader->hw_bp_num"
    if bpList.length < hwBreakpoints - 1 then return t.clearHwcnt bpList
    else do
      let bpList := qsort (hwBpSort t.bp) bpList
      let t := t.clearHwcnt bpList
      let (hwBpSet, moved) ← splitHw t.bp 0 (bpList.take (hwBreakpoints - 1))
      moveToHw hwBpSet t (hwBpScratchSlot + 1) moved

/-- The loop of `insert_hw_bp_slot`: the slot it stops at, which it has freed. -/
def findSlot (h : Handle) : ℕ → ℕ → Traced → Except String (Option (Traced × ℕ))
  | 0, _, _ => .ok none
  | fuel + 1, i, t =>
    match t.hwBp i with
    | none => .ok (some (t, i))
    | some g =>
      if (t.bp h).type = .hw ∧ (t.bp g).type = .auto then do
        let t ← t.hw2swBp g
        return some (t, i)
      else findSlot h fuel (i + 1) t

/-- `insert_hw_bp_slot`; `none` when every slot is taken. -/
def insertHwBpSlot (t : Traced) (h : Handle) : Except String (Option Traced) := do
  match ← findSlot h (hwBreakpoints - 1) (hwBpScratchSlot + 1) t with
  | none => return none
  | some (t, i) =>
    let t ← (t.setBp h (·.setHwcnt 0)).takeSlot h i
    return some t

/-- `remove_hw_scratch_bp_cb` for one task. -/
def removeHwScratchBp (bp : Breakpoint) (h : Handle) (slots : Slots) : Except String Slots :=
  if slots hwBpScratchSlot = some h then do
    check (bp.hwBpSlot == hwBpScratchSlot)
      "task->hw_bp[HW_BP_SCRATCH_SLOT]->hw_bp_slot == HW_BP_SCRATCH_SLOT"
    disableHwBp bp h slots
  else .ok slots

/-! ## The operations -/

def breakpointEnable (t : Traced) (h : Handle) : Except String Traced :=
  if (t.bp h).deleted || (t.bp h).enabled then .ok t
  else if (t.bp h).type = .hwScratch then .ok (t.setBp h fun bp => { bp with enabled := true })
  else do
    let r ← if (t.bp h).type.geHw then t.insertHwBpSlot h else .ok none
    match r with
    | some t => return t
    | none => (t.setBp h fun bp => { bp with hw := false }).enableSwBreakpoint h

def breakpointDisable (t : Traced) (h : Handle) : Except String Traced :=
  if (t.bp h).deleted || !(t.bp h).enabled then .ok t
  else if (t.bp h).hw then
    if (t.bp h).type ≠ .hwScratch then do
      check ((t.bp h).hwBpSlot != hwBpScratchSlot) "bp->hw_bp_slot != HW_BP_SCRATCH_SLOT"
      let t ← t.eachTask (disableHwBp (t.bp h) h)
      return t.setBp h fun bp => { bp with hw := false, enabled := false }
    else do
      check ((t.bp h).hwBpSlot == hwBpScratchSlot) "bp->hw_bp_slot == HW_BP_SCRATCH_SLOT"
      let t ← t.eachTask (removeHwScratchBp (t.bp h) h)
      return t.setBp h fun bp => { bp with enabled := false }
  else t.disableSwBreakpoint h

/-- The structure `breakpoint_new` fills in.  Of the union it writes `hw_bp_slot` or `orig_value`;
`garbage` is what `malloc` left there. -/
def newBreakpoint (nohwbp : Bool) (addr : UInt64) (type : BpType) (garbage : UInt32) :
    Breakpoint :=
  let type := if nohwbp then .sw else type
  let b : Breakpoint := ⟨addr, type, 0, false, false, false, false, false, false, garbage⟩
  if type = .hwScratch then { b.setHwBpSlot hwBpScratchSlot with hw := true }
  else b.setOrigValue 0

/-- `breakpoint_new` for an address without a breakpoint. -/
def breakpointNew (nohwbp : Bool) (t : Traced) (addr : UInt64) (type : BpType)
    (garbage : UInt32) : Traced :=
  let b := newBreakpoint nohwbp addr type garbage
  { t with
    bp := Function.update t.bp t.next b
    next := t.next + 1
    breakpoints := t.breakpoints ++ [t.next]
    hwBpList := if b.type.geHw then t.hwBpList ++ [t.next] else t.hwBpList
    hwBpNum := if b.type.geHw then t.hwBpNum + 1 else t.hwBpNum }

def breakpointInsert (nohwbp : Bool) (t : Traced) (addr : UInt64) (type : BpType)
    (garbage : UInt32) : Except String Traced :=
  if addr = 0 then .ok t
  else match t.breakpointFind addr with
    | some h => t.breakpointEnable h
    | none => (t.breakpointNew nohwbp addr type garbage).breakpointEnable t.next

def breakpointDelete (t : Traced) (h : Handle) : Except String Traced :=
  if (t.bp h).deleted then .ok t
  else do
    let t ← t.breakpointDisable h
    let t := if (t.bp h).type.geHw then
        { t with hwBpList := t.hwBpList.erase h, hwBpNum := t.hwBpNum - 1 }
      else t
    let t := { t with breakpoints := t.breakpoints.erase h }
    return t.setBp h fun bp => { bp with deleted := true }

/-- `skip_breakpoint`; the single step between leaves the text and the breakpoints. -/
def skipBreakpoint (t : Traced) (h : Handle) : Except String Traced :=
  if (t.bp h).sw && (t.bp h).enabled then do
    let t ← t.breakpointDisable h
    t.breakpointEnable h
  else .ok t

/-- `breakpoint_disable_all`; `dict_apply_to_all` visits the dictionary in some order. -/
def breakpointDisableAll (order : List Handle) (t : Traced) : Except String Traced :=
  order.foldlM breakpointDisable t

/-- A process before its first breakpoint, with some threads. -/
def start (text : UInt64 → UInt8) (threads : ℕ) : Traced :=
  ⟨text, fun _ => .none, 0, [], [], 0, fun _ => none, List.replicate threads fun _ => none⟩

end Traced

/-- The operations on the breakpoints of a process; `hit` is the count in `handle_breakpoint`. -/
inductive BpOp where
  | insert (addr : UInt64) (type : BpType) (garbage : UInt32)
  | enable (h : Handle)
  | disable (h : Handle)
  | delete (h : Handle)
  | reorder
  | skip (h : Handle)
  | hit (h : Handle)

def Traced.step (qsort : (Handle → Handle → ℤ) → List Handle → List Handle) (nohwbp : Bool)
    (t : Traced) : BpOp → Except String Traced
  | .insert addr type garbage => t.breakpointInsert nohwbp addr type garbage
  | .enable h => t.breakpointEnable h
  | .disable h => t.breakpointDisable h
  | .delete h => t.breakpointDelete h
  | .reorder => t.reorderHwBp qsort
  | .skip h => t.skipBreakpoint h
  | .hit h =>
    .ok (if !(t.bp h).deleted && (t.bp h).type.geHw then
      t.setBp h fun bp => bp.setHwcnt (bp.hwcnt + 1)
    else t)

end Mtrace.Server
