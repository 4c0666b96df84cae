import Mtrace.Arm.Architecture

/-! # The addresses where a single step sets its breakpoints

`arm_get_next_pcs` of the ARM port: an ARM processor has no single step, so that the places where
the program can go on after the instruction at `pc` are computed, and each gets a breakpoint.  The
entries of `next_pcs` are a list, in the order in which they are written; -1 is `none`.  That a
register of a stopped task can be read is taken for granted. -/

namespace Mtrace.Arm

/-- `arm_get_register`. -/
def armGetRegister (task : Task) (reg : ℕ) : Word := task.uregs reg

/-- `arm_get_register_offpc`. -/
def armGetRegisterOffpc (task : Task) (reg : ℕ) : Word :=
  if reg = 15 then armGetRegister task reg + 8 else armGetRegister task reg

/-- The shifts of `arm_get_shifted_register`. -/
def shiftRegister (shifttype : ℕ) (res : Word) (shift : ℕ) (carry : Bool) : Word :=
  match shifttype with
  | 0 => if shift ≥ 32 then 0 else res <<< shift
  | 1 => if shift ≥ 32 then 0 else res >>> shift
  | 2 =>
    let shift := if shift ≥ 32 then 31 else shift
    if res &&& 0x80000000 ≠ 0 then ~~~(~~~res >>> shift) else res >>> shift
  | _ =>
    let shift := shift % 32
    if shift = 0 then res >>> 1 ||| (if carry then 0x80000000 else 0)
    else res >>> shift ||| res <<< (32 - shift)

/-- `arm_get_shifted_register`. -/
def armGetShiftedRegister (task : Task) (inst : Word) (carry : Bool) (pc : Word) : Word :=
  let rm := bits inst 0 3
  let shifttype := bits inst 5 6
  let shift :=
    if bit inst 4 = 1 then (armGetRegisterOffpc task (bits inst 8 11)).toNat % 256
    else bits inst 7 11
  let res := if rm = 15 then pc + (if bit inst 4 = 1 then 12 else 8) else armGetRegister task rm
  shiftRegister shifttype res shift carry

/-- `arm_branch_dest`. -/
def armBranchDest (pc insn : Word) : Word :=
  pc + ((((insn &&& 0xffffff) ^^^ 0x800000) - 0x800000) <<< 2) + 8

/-- How a case of the switch is left: to the label `finish`, or with a `return 0`. -/
inductive Exit
  | finish (nextPcs : List Word)
  | done (nextPcs : List Word)
  deriving DecidableEq

/-- The inner switch, with the operands and the carry. -/
def aluResult (opcode : ℕ) (operand1 operand2 : Word) (c : Bool) : Word :=
  match opcode with
  | 0x0 => operand1 &&& operand2
  | 0x1 => operand1 ^^^ operand2
  | 0x2 => operand1 - operand2
  | 0x3 => operand2 - operand1
  | 0x4 => operand1 + operand2
  | 0x5 => operand1 + operand2 + (if c then 1 else 0)
  | 0x6 => operand1 - operand2 + (if c then 1 else 0)
  | 0x7 => operand2 - operand1 + (if c then 1 else 0)
  -- `tst`, `teq`, `cmp` and `cmn`
  | 0x8 | 0x9 | 0xa | 0xb => 0
  | 0xc => operand1 ||| operand2
  | 0xd => operand2
  | 0xe => operand1 &&& ~~~operand2
  | 0xf => ~~~operand2
  | _ => 0

/-- The second operand of data processing; the label `invalid` leads to `finish`. -/
def operand2 (task : Task) (inst : Word) (c : Bool) (pc : Word) : Word :=
  if bit inst 25 = 1 then
    let immval := BitVec.ofNat 32 (bits inst 0 7)
    let rotate := 2 * bits inst 8 11
    immval >>> rotate ||| immval <<< (32 - rotate)
  else armGetShiftedRegister task inst c pc

/-- The cases of data processing. -/
def dataProcessing (task : Task) (inst : Word) (c : Bool) (pc : Word) : Exit :=
  if bits inst 12 15 ≠ 15 then .finish []
  else if bits inst 22 25 = 0 ∧ bits inst 4 7 = 9 then .finish []
  else if bits inst 4 27 = 0x12fff1 ∨ bits inst 4 27 = 0x12fff3 then
    .done [armGetRegisterOffpc task (bits inst 0 3)]
  else
    .finish [aluResult (bits inst 21 24) (armGetRegisterOffpc task (bits inst 16 19))
      (operand2 task inst c pc) c]

/-- The cases of a data transfer. -/
def dataTransfer (task : Task) (inst : Word) (c : Bool) (pc : Word) : Option Exit :=
  if bit inst 20 = 0 ∨ bits inst 12 15 ≠ 15 then some (.finish [])
  else if bit inst 22 = 1 then some (.finish [])
  else do
    let base := armGetRegisterOffpc task (bits inst 16 19)
    let base :=
      if bit inst 24 = 1 then
        let offset :=
          if bit inst 25 = 1 then armGetShiftedRegister task inst c pc
          else BitVec.ofNat 32 (bits inst 0 11)
        if bit inst 23 = 1 then base + offset else base - offset
      else base
    let next ← task.word base
    some (.finish [next])

/-- The cases of a block transfer. -/
def blockTransfer (task : Task) (inst : Word) : Option Exit :=
  if bit inst 20 = 0 then some (.finish [])
  else if bit inst 15 = 1 then do
    let rnVal := armGetRegister task (bits inst 16 19)
    let pre := bit inst 24
    let offset : Word :=
      if bit inst 23 = 1 then
        BitVec.ofNat 32 (bitCount (bits inst 0 14) 32 * 4) + (if pre = 1 then 4 else 0)
      else if pre = 1 then -4
      else 0
    let next ← task.word (rnVal + offset)
    some (.finish [next])
  else some (.finish [])

/-- The switch over bits 24 to 27. -/
def executed (task : Task) (inst : Word) (pc : Word) : Option Exit :=
  match bits inst 24 27 with
  | 0x0 | 0x1 | 0x2 | 0x3 => some (dataProcessing task inst task.carry pc)
  | 0x4 | 0x5 | 0x6 | 0x7 => dataTransfer task inst task.carry pc
  | 0x8 | 0x9 => blockTransfer task inst
  | 0xb | 0xa => some (.finish [armBranchDest pc inst])
  | _ => some (.finish [])

/-- The end of `arm_get_next_pcs`. -/
def Exit.nextPcs (pc : Word) (cond : ℕ) : Exit → List Word
  | .finish nextPcs => if nextPcs = [] ∨ cond ≠ 14 then nextPcs ++ [pc + 4] else nextPcs
  | .done nextPcs => nextPcs

/-- The branch for `COND_NV`. -/
def unconditional (inst pc : Word) : Exit :=
  if bits inst 24 27 = 10 ∨ bits inst 24 27 = 11 then
    let addr := armBranchDest pc inst ||| ((inst >>> 24) &&& 1) <<< 1
    .finish [addr ||| 1]
  else .finish []

/-- `arm_get_next_pcs`. -/
def armGetNextPcs (task : Task) (pc : Word) : Option (List Word) := do
  let inst ← task.word pc
  let cond := bits inst 28 31
  let exit ← (if cond = 15 then some (unconditional inst pc) else executed task inst pc)
  some (exit.nextPcs pc cond)

@[simp] theorem nextPcs_done (pc : Word) (cond : ℕ) (nextPcs : List Word) :
    (Exit.done nextPcs).nextPcs pc cond = nextPcs := rfl

theorem nextPcs_finish (pc : Word) (cond : ℕ) (nextPcs : List Word) :
    (Exit.finish nextPcs).nextPcs pc cond =
      if nextPcs = [] ∨ cond ≠ 14 then nextPcs ++ [pc + 4] else nextPcs := rfl

end Mtrace.Arm
