import Mtrace.Dwarf.Apply

/-!
# The program of a frame

`run_cfi_program` and `parse_fde`: the instructions of the CIE and those of the FDE make the row of
an instruction pointer, the rules by which the registers of the caller are found. -/

namespace Mtrace.Dwarf

/-- `enum dwarf_cfa`; the six low bits of an opcode with a high one are an operand. -/
inductive CfaOp where
  | advanceLoc (operand : UInt8)
  | offset (operand : UInt8)
  | restore (operand : UInt8)
  | nop
  | setLoc
  | advanceLoc1
  | advanceLoc2
  | advanceLoc4
  | offsetExtended
  | restoreExtended
  | undefined
  | sameValue
  | register
  | rememberState
  | restoreState
  | defCfa
  | defCfaRegister
  | defCfaOffset
  | defCfaExpression
  | expression
  | offsetExtendedSf
  | defCfaSf
  | defCfaOffsetSf
  | valExpression
  | loUser
  | mipsAdvanceLoc8
  | gnuWindowSave
  | gnuArgsSize
  | gnuNegativeOffsetExtended
  | hiUser
  | unknown
  deriving DecidableEq, Repr

/-- The opcodes without an operand in them. -/
def cfaOps : List (UInt8 × CfaOp) :=
  [(0x00, .nop), (0x01, .setLoc), (0x02, .advanceLoc1), (0x03, .advanceLoc2), (0x04, .advanceLoc4),
    (0x05, .offsetExtended), (0x06, .restoreExtended), (0x07, .undefined), (0x08, .sameValue),
    (0x09, .register), (0x0a, .rememberState), (0x0b, .restoreState), (0x0c, .defCfa),
    (0x0d, .defCfaRegister), (0x0e, .defCfaOffset), (0x0f, .defCfaExpression), (0x10, .expression),
    (0x11, .offsetExtendedSf), (0x12, .defCfaSf), (0x13, .defCfaOffsetSf), (0x16, .valExpression),
    (0x1c, .loUser), (0x1d, .mipsAdvanceLoc8), (0x2d, .gnuWindowSave), (0x2e, .gnuArgsSize),
    (0x2f, .gnuNegativeOffsetExtended), (0x3c, .hiUser)]

/-- `DWARF_CFA_OPCODE_MASK` is 0xc0, and `DWARF_CFA_OPERAND_MASK` 0x3f. -/
def CfaOp.decode (op : UInt8) : CfaOp :=
  if op &&& 0xc0 = 0x40 then .advanceLoc (op &&& 0x3f)
  else if op &&& 0xc0 = 0x80 then .offset (op &&& 0x3f)
  else if op &&& 0xc0 = 0xc0 then .restore (op &&& 0x3f)
  else (cfaOps.lookup op).getD .unknown

/-- The local variables of `run_cfi_program`; the stack of states is from its top. -/
structure CfiState where
  currIp : UInt64
  rs : RegState
  regStack : List RegState

namespace CfiState

/-- `set_reg`. -/
def setReg (r : CfiState) (regnum : UInt64) (saved : DwarfWhere) (val : UInt64) : CfiState :=
  { r with rs := Function.update r.rs regnum.toNat ⟨saved, val⟩ }

/-- `curr_ip += delta * dci->code_align`. -/
def advance (r : CfiState) (dci : CieInfo) (delta : UInt64) : CfiState :=
  { r with currIp := r.currIp + delta * dci.codeAlign }

/-- The rule of a register becomes the one that the CIE gives it. -/
def restoreReg (r : CfiState) (initial : RegState) (regnum : UInt64) : CfiState :=
  { r with rs := Function.update r.rs regnum.toNat (initial regnum.toNat) }

end CfiState

namespace Space

variable (s : Space)

/-- `dwarf_to_regnum` and the check of what it returns. -/
def checkRegnum (val : UInt64) : Reader UInt64 :=
  let val := val.toUInt32.toUInt64
  if .ofNat s.numRegs ≤ val then Reader.fail .badReg else return val

/-- `read_regnum`. -/
def readRegnum : Reader UInt64 := do s.checkRegnum (← s.readUleb128)

/-- A rule for the columns of the CFA. -/
def setCfaReg (r : CfiState) (saved : DwarfWhere) (val : UInt64) : CfiState :=
  r.setReg (.ofNat s.cfaRegColumn) saved val

def setCfaOff (r : CfiState) (val : UInt64) : CfiState :=
  r.setReg (.ofNat s.cfaOffColumn) .undef val

/-- The `case` of an instruction: the state after it, and the length of a block of bytes that is to
be passed over. -/
def cfiExecute (gp : UInt64) (dci : CieInfo) (initial : RegState) (op : CfaOp) (r : CfiState) :
    Reader (CfiState × UInt64) :=
  match op with
  | .advanceLoc operand => return (r.advance dci operand.toUInt64, 0)
  | .advanceLoc1 => do return (r.advance dci (← s.read 1), 0)
  | .advanceLoc2 => do return (r.advance dci (← s.read 2), 0)
  | .advanceLoc4 => do return (r.advance dci (← s.read 4), 0)
  | .mipsAdvanceLoc8 => Reader.fail .inval
  | .offset operand => do
    let regnum ← s.checkRegnum operand.toUInt64
    let val ← s.readUleb128
    return (r.setReg regnum .cfarel (val * dci.dataAlign), 0)
  | .offsetExtended => do
    let regnum ← s.readRegnum
    let val ← s.readUleb128
    return (r.setReg regnum .cfarel (val * dci.dataAlign), 0)
  | .offsetExtendedSf => do
    let regnum ← s.readRegnum
    let val ← s.readSleb128
    return (r.setReg regnum .cfarel (val * dci.dataAlign), 0)
  | .restore operand =>
    let regnum := operand.toUInt64
    if .ofNat s.numRegs ≤ regnum then Reader.fail .inval
      else return (r.restoreReg initial regnum, 0)
  | .restoreExtended => do
    let regnum ← s.readUleb128
    if .ofNat s.numRegs ≤ regnum then Reader.fail .inval
      else return (r.restoreReg initial regnum, 0)
  | .nop => return (r, 0)
  | .setLoc => do
    let currIp ← s.readEncodedPointer gp dci.fdeEncoding true dci.startIp
    return ({ r with currIp }, 0)
  | .undefined => do return (r.setReg (← s.readRegnum) .undef 0, 0)
  | .sameValue => do return (r.setReg (← s.readRegnum) .same 0, 0)
  | .register => do
    let regnum ← s.readRegnum
    let n ← s.checkRegnum (← s.readUleb128)
    return (r.setReg regnum .reg n, 0)
  | .rememberState =>
    if 16 ≤ r.regStack.length then Reader.fail .inval
    else return ({ r with regStack := r.rs :: r.regStack }, 0)
  | .restoreState =>
    match r.regStack with
    | [] => Reader.fail .inval
    | rs :: regStack => return ({ r with rs, regStack }, 0)
  | .defCfa => do
    let regnum ← s.readRegnum
    let val ← s.readUleb128
    return (s.setCfaOff (s.setCfaReg r .reg regnum) val, 0)
  | .defCfaSf => do
    let regnum ← s.readRegnum
    let val ← s.readSleb128
    return (s.setCfaOff (s.setCfaReg r .reg regnum) (val * dci.dataAlign), 0)
  | .defCfaRegister => do return (s.setCfaReg r .reg (← s.readRegnum), 0)
  | .defCfaOffset => do return (s.setCfaOff r (← s.readUleb128), 0)
  | .defCfaOffsetSf => do return (s.setCfaOff r ((← s.readSleb128) * dci.dataAlign), 0)
  | .defCfaExpression => do
    let addr ← get
    let n ← s.readUleb128
    return (s.setCfaReg r .expr addr, n)
  | .expression => do
    let regnum ← s.readRegnum
    let addr ← get
    let n ← s.readUleb128
    return (r.setReg regnum .expr addr, n)
  | .valExpression => do
    let regnum ← s.readRegnum
    let addr ← get
    let n ← s.readUleb128
    return (r.setReg regnum .valExpr addr, n)
  | .gnuArgsSize => do
    let _ ← s.readUleb128
    return (r, 0)
  | .gnuNegativeOffsetExtended => do
    let regnum ← s.readRegnum
    let val ← s.readUleb128
    return (r.setReg regnum .cfarel (-(val * dci.dataAlign)), 0)
  | .gnuWindowSave | .loUser | .hiUser => Reader.fail .inval
  -- the `switch` has no `default`
  | .unknown => return (r, 0)

/-- The instruction at a position, and the length of its block. -/
def cfiInstr (gp : UInt64) (dci : CieInfo) (initial : RegState) (r : CfiState) :
    Reader (CfiState × UInt64) := do
  let op := CfaOp.decode (← s.read8)
  s.cfiExecute gp dci initial op r

/-- The loop of `run_cfi_program`. -/
def cfiLoop (gp : UInt64) (dci : CieInfo) (initial : RegState) (ip endAddr : UInt64) :
    ℕ → CfiState → Reader CfiState
  | 0, _ => throw .running
  | passes + 1, r => do
    if r.currIp ≤ ip ∧ (← get) < endAddr then
      let (r, n) ← s.cfiInstr gp dci initial r
      modify fun addr => addr + n
      cfiLoop gp dci initial ip endAddr passes r
    else return r

/-- `run_cfi_program`. -/
def runCfiProgram (gp : UInt64) (dci : CieInfo) (initial rs : RegState) (ip endAddr : UInt64) :
    Reader RegState :=
  return (← s.cfiLoop gp dci initial ip endAddr s.passes ⟨dci.startIp, rs, []⟩).rs

/-- The row before the instructions of the CIE. -/
def sameRow : RegState := fun _ => ⟨.same, 0⟩

/-- What `run_cfi_program` is given as the row of the CIE while that is not known. -/
def zeroRow : RegState := fun _ => ⟨.undef, 0⟩

/-- The two runs of `parse_fde`. -/
def cfiRow (gp : UInt64) (dci : CieInfo) (ip : UInt64) : Except Halt RegState :=
  match s.runCfiProgram gp dci zeroRow sameRow 0xffffffffffffffff dci.cieInstrEnd
      dci.cieInstrStart with
  | .error h _ => .error h
  | .ok initial _ =>
    match s.runCfiProgram gp dci initial initial ip dci.fdeInstrEnd dci.fdeInstrStart with
    | .error h _ => .error h
    | .ok rs _ => .ok rs

/-- `parse_fde`. -/
def parseFde (gp ip : UInt64) : Unwinder RegState := do
  let dci := (← get).dci
  if .ofNat s.numRegs ≤ dci.retAddrColumn then throw (.error .badReg)
  modify fun c => { c with retAddrColumn := dci.retAddrColumn }
  Unwinder.ofExcept (s.cfiRow gp dci ip)

end Space

end Mtrace.Dwarf
