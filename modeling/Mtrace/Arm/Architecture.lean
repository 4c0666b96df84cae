import Mtrace.Shifts

/-! # The ARM instruction set, as far as it decides where a program goes on

The next instruction of a program that runs ARM instructions in user mode, as the architecture
(version 7) defines it.  `decode` sorts the words by what they do to the program counter, after the
encoding tables; `Task.exec` is what an instruction that is executed does to it; `Task.next` is the
address of the next instruction.  An address with bit 0 set stands for a Thumb instruction at the
even address below it.

Where the architecture leaves a word or what it does to the program counter UNPREDICTABLE or
UNDEFINED, or where the instruction raises an exception, there is no next address.  A word that
cannot write the program counter without being UNPREDICTABLE is `plain` also if it is
UNPREDICTABLE. -/

namespace Mtrace.Arm

abbrev Word := BitVec 32

/-- The bits of a word from `st` to `fn`. -/
def bits (obj : Word) (st fn : ℕ) : ℕ := obj.toNat / 2 ^ st % 2 ^ (fn + 1 - st)

/-- The bit `st` of a word. -/
def bit (obj : Word) (st : ℕ) : ℕ := bits obj st st

/-- A stopped task: the words that `PTRACE_PEEKUSER` reads, by their numbers (0 to 15 are the
registers, with the address of the instruction in 15, and 16 is the status), and its memory. -/
structure Task where
  uregs : ℕ → Word
  mem : Word → Option (BitVec 8)

/-- The word at an address. -/
def Task.word (task : Task) (addr : Word) : Option Word := do
  let b0 ← task.mem addr
  let b1 ← task.mem (addr + 1)
  let b2 ← task.mem (addr + 2)
  let b3 ← task.mem (addr + 3)
  some (b3 ++ b2 ++ b1 ++ b0)

/-- The address of the instruction. -/
def Task.pc (task : Task) : Word := task.uregs 15

/-- The value of a register as an operand: the program counter is two instructions ahead. -/
def Task.operandReg (task : Task) (r : ℕ) : Word :=
  if r = 15 then task.pc + 8 else task.uregs r

/-- The carry flag. -/
def Task.carry (task : Task) : Bool := (task.uregs 16).getLsbD 29

/-- Whether a condition holds of the flags. -/
def Task.condition (task : Task) (cond : ℕ) : Bool :=
  let n := (task.uregs 16).getLsbD 31
  let z := (task.uregs 16).getLsbD 30
  let c := task.carry
  let v := (task.uregs 16).getLsbD 28
  let holds := match cond / 2 with
    | 0 => z
    | 1 => c
    | 2 => n
    | 3 => v
    | 4 => c && !z
    | 5 => n == v
    | 6 => n == v && !z
    | _ => true
  if cond % 2 = 1 ∧ cond ≠ 15 then !holds else holds

/-- The operations of data processing that write a register. -/
inductive AluOp
  | and | eor | sub | rsb | add | adc | sbc | rsc | orr | mov | bic | mvn
  deriving DecidableEq, Repr

/-- The four encodings between are comparisons, or other instructions. -/
def AluOp.ofBits : ℕ → Option AluOp
  | 0 => some .and
  | 1 => some .eor
  | 2 => some .sub
  | 3 => some .rsb
  | 4 => some .add
  | 5 => some .adc
  | 6 => some .sbc
  | 7 => some .rsc
  | 12 => some .orr
  | 13 => some .mov
  | 14 => some .bic
  | 15 => some .mvn
  | _ => none

/-- A second operand, or the offset of a load: a constant, or a register that is shifted by a
constant. -/
inductive Operand
  | imm (value : Word)
  | shifted (rm type imm5 : ℕ)
  deriving DecidableEq, Repr

/-- The instructions by what they do to the program counter. -/
inductive Insn
  /-- Leaves it alone, as the next two do. -/
  | plain
  /-- A move to the status register, or a hint such as `NOP`. -/
  | status
  /-- `SDIV` and `UDIV`. -/
  | divide (rd rm rn : ℕ)
  /-- `B` and `BL`. -/
  | branch (imm24 : BitVec 24)
  /-- `BLX` to an address. -/
  | branchThumb (h : BitVec 1) (imm24 : BitVec 24)
  /-- `BX` and `BLX` to a register. -/
  | exchange (rm : ℕ)
  /-- `BXJ`, on a processor whose Jazelle extension is trivial. -/
  | jazelle (rm : ℕ)
  /-- Data processing with the program counter as destination. -/
  | alu (op : AluOp) (rn : ℕ) (operand2 : Operand)
  /-- `LDR` into the program counter: with the offset added before or not, up or down. -/
  | load (pre up : Bool) (rn : ℕ) (offset : Operand)
  /-- `LDM` with the program counter in the list. -/
  | loadMultiple (pre up : Bool) (rn registers : ℕ)
  deriving DecidableEq, Repr

namespace Decode

variable (w : Word)

/-- A field of four bits from `st` on is the program counter. -/
def isPc (st : ℕ) : Prop := bits w st (st + 3) = 15

instance (st : ℕ) : Decidable (isPc w st) := by unfold isPc; infer_instance

/-- Instructions without a condition: the memory hints and extensions, `SRS` and `RFE` (not in user
mode), `BLX` to an address, and those of coprocessors. -/
def unconditional : Option Insn :=
  if bits w 25 27 = 4 then none
  else if bits w 25 27 = 5 then some (.branchThumb (w.extractLsb' 24 1) (w.extractLsb' 0 24))
  else if bits w 24 27 = 15 then none
  else some .plain

/-- An operation with the program counter as destination; a register may not be shifted by a
register then. -/
def operation (op : AluOp) : Option Insn :=
  if bit w 25 = 1 then
    some (.alu op (bits w 16 19)
      (.imm ((BitVec.ofNat 32 (bits w 0 7)).rotateRight (2 * bits w 8 11))))
  else if bit w 4 = 1 then none
  else some (.alu op (bits w 16 19) (.shifted (bits w 0 3) (bits w 5 6) (bits w 7 11)))

/-- The miscellaneous instructions whose field of the destination is all ones. -/
def miscellaneous : Option Insn :=
  if bits w 4 27 = 0x12fff1 then some (.exchange (bits w 0 3))
  else if bits w 4 27 = 0x12fff2 ∧ ¬ isPc w 0 then some (.jazelle (bits w 0 3))
  else if bits w 4 27 = 0x12fff3 ∧ ¬ isPc w 0 then some (.exchange (bits w 0 3))
  else if bits w 20 27 = 0x12 ∧ bits w 4 11 = 0 ∧ bits w 16 19 ≠ 0 ∧ ¬ isPc w 0 then some .status
  else if bits w 20 27 = 0x32 then some .status
  else none

/-- Data processing and miscellaneous instructions. -/
def dataProcessing : Option Insn :=
  -- `BKPT`, `HVC` and `SMC` raise exceptions.
  if bits w 23 27 = 2 ∧ bit w 20 = 0 ∧ bits w 4 7 = 7 then none
  else if ¬ isPc w 12 then some .plain
  -- Multiplications, and transfers of other sizes than a word or a byte.
  else if bit w 25 = 0 ∧ bit w 4 = 1 ∧ bit w 7 = 1 then none
  -- The return from an exception (not in user mode), and comparisons.
  else if bit w 20 = 1 then none
  else
    match AluOp.ofBits (bits w 21 24) with
    | some op => operation w op
    | none => miscellaneous w

/-- Loads and stores of a word or a byte. -/
def loadStore : Option Insn :=
  if bit w 20 = 0 ∨ ¬ isPc w 12 then some .plain
  -- A byte, or an access as in user mode.
  else if bit w 22 = 1 ∨ bit w 24 = 0 ∧ bit w 21 = 1 then none
  -- The program counter is no base that is written back, and no offset.
  else if isPc w 16 ∧ ¬ (bit w 24 = 1 ∧ bit w 21 = 0) ∨ bit w 25 = 1 ∧ isPc w 0 then none
  else
    some (.load (bit w 24 = 1) (bit w 23 = 1) (bits w 16 19)
      (if bit w 25 = 1 then .shifted (bits w 0 3) (bits w 5 6) (bits w 7 11)
       else .imm (.ofNat 32 (bits w 0 11))))

/-- The media instructions: with the field of the destination or of an addend all ones they are
divisions, products without an addend and sums of differences. -/
def media : Option Insn :=
  if bits w 20 27 = 0x7f ∧ bits w 4 7 = 15 then none
  else if ¬ isPc w 12 then some .plain
  else if (bits w 20 27 = 0x71 ∨ bits w 20 27 = 0x73) ∧ bits w 5 7 = 0 then
    if isPc w 16 ∨ isPc w 8 ∨ isPc w 0 then none
    else some (.divide (bits w 16 19) (bits w 8 11) (bits w 0 3))
  else if bits w 20 27 = 0x70 ∧ bit w 7 = 0 ∨ bits w 20 27 = 0x75 ∧ bits w 6 7 = 0 ∨
      bits w 20 27 = 0x78 ∧ bits w 5 7 = 0 then
    some .plain
  else none

/-- Block transfers. -/
def blockTransfer : Option Insn :=
  if bit w 20 = 0 ∨ bit w 15 = 0 then some .plain
  -- The return from an exception, and a base that is the program counter or both loaded and written
  -- back.
  else if bit w 22 = 1 ∨ isPc w 16 ∨ bit w 21 = 1 ∧ bit w (bits w 16 19) = 1 then none
  else some (.loadMultiple (bit w 24 = 1) (bit w 23 = 1) (bits w 16 19) (bits w 0 15))

end Decode

/-- The encoding tables of the instruction set. -/
def decode (w : Word) : Option Insn :=
  if bits w 28 31 = 15 then Decode.unconditional w
  else
    match bits w 25 27 with
    | 0 | 1 => Decode.dataProcessing w
    | 2 => Decode.loadStore w
    | 3 => if bit w 4 = 1 then Decode.media w else Decode.loadStore w
    | 4 => Decode.blockTransfer w
    | 5 => some (.branch (w.extractLsb' 0 24))
    | _ => some .plain

/-- A register that is shifted by a constant: 0 stands for 32 in the two shifts to the right, and
for a rotation through the carry. -/
def shift (type imm5 : ℕ) (value : Word) (carry : Bool) : Word :=
  match type with
  | 0 => value <<< imm5
  | 1 => value >>> (if imm5 = 0 then 32 else imm5)
  | 2 => value.sshiftRight (if imm5 = 0 then 32 else imm5)
  | _ => if imm5 = 0 then Shifts.rotateExtend value carry else value.rotateRight imm5

def Task.operand (task : Task) : Operand → Word
  | .imm value => value
  | .shifted rm type imm5 => shift type imm5 (task.operandReg rm) task.carry

/-- The result of an operation. -/
def AluOp.result (op : AluOp) (a b : Word) (carry : Bool) : Word :=
  match op with
  | .and => a &&& b
  | .eor => a ^^^ b
  | .sub => Shifts.addWithCarry a (~~~b) true
  | .rsb => Shifts.addWithCarry (~~~a) b true
  | .add => Shifts.addWithCarry a b false
  | .adc => Shifts.addWithCarry a b carry
  | .sbc => Shifts.addWithCarry a (~~~b) carry
  | .rsc => Shifts.addWithCarry (~~~a) b carry
  | .orr => a ||| b
  | .mov => b
  | .bic => a &&& ~~~b
  | .mvn => ~~~b

/-- The address that a load takes its word from. -/
def Task.loadAddress (task : Task) (pre up : Bool) (rn : ℕ) (offset : Operand) : Word :=
  let base := task.operandReg rn
  if pre then
    if up then base + task.operand offset else base - task.operand offset
  else base

/-- How many of the registers from 0 below `n` are in a list. -/
def bitCount (registers n : ℕ) : ℕ := (List.range n).countP registers.testBit

/-- Where a block transfer starts. -/
def Task.blockStart (task : Task) (pre up : Bool) (rn registers : ℕ) : Word :=
  let base := task.operandReg rn
  let size := BitVec.ofNat 32 (4 * bitCount registers 16)
  match pre, up with
  | false, true => base
  | true, true => base + 4
  | false, false => base - size + 4
  | true, false => base - size

/-- The loads of the registers of a list below 15, and the address after them. -/
def Task.loadRegisters (task : Task) (registers : ℕ) : ℕ → Word → Option Word
  | 0, address => some address
  | i + 1, address => do
    let address ← task.loadRegisters registers i address
    if registers.testBit i then
      let _ ← task.word address
      some (address + 4)
    else some address

/-- A branch that may change to Thumb instructions. -/
def exchangeTo (address : Word) : Option Word :=
  if address.getLsbD 0 then some (address &&& ~~~1 ||| 1)
  else if address.getLsbD 1 then none
  else some address

/-- Words are loaded from addresses that are multiples of four. -/
def Task.loadPc (task : Task) (address : Word) : Option Word :=
  if address.toNat % 4 = 0 then (task.word address).bind exchangeTo else none

/-- A block transfer from an address: the program counter comes last. -/
def Task.loadBlock (task : Task) (registers : ℕ) (start : Word) : Option Word :=
  if start.toNat % 4 = 0 then (task.loadRegisters registers 15 start).bind task.loadPc else none

/-- Where the program goes on after an instruction that is executed. -/
def Task.exec (task : Task) : Insn → Option Word
  | .plain | .status | .divide .. => some (task.pc + 4)
  | .branch imm24 => some ((task.pc + 8 + (imm24 ++ 0#2).signExtend 32) &&& ~~~3)
  | .branchThumb h imm24 =>
    some (((task.pc + 8) &&& ~~~3) + (imm24 ++ (h ++ 0#1)).signExtend 32 ||| 1)
  | .exchange rm | .jazelle rm => exchangeTo (task.operandReg rm)
  | .alu op rn operand2 =>
    exchangeTo (op.result (task.operandReg rn) (task.operand operand2) task.carry)
  | .load pre up rn offset => task.loadPc (task.loadAddress pre up rn offset)
  | .loadMultiple pre up rn registers =>
    task.loadBlock registers (task.blockStart pre up rn registers)

/-- Whether the flags let an instruction be executed. -/
def Task.passes (task : Task) (w : Word) : Bool := task.condition (bits w 28 31)

/-- The address of the next instruction. -/
def Task.next (task : Task) : Option Word := do
  if task.pc.toNat % 4 = 0 then
    let w ← task.word task.pc
    let insn ← decode w
    if task.passes w then task.exec insn else some (task.pc + 4)
  else none

end Mtrace.Arm
