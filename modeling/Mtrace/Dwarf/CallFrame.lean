import Mtrace.Dwarf.Operands
import Mtrace.Dwarf.Cfi

/-!
# The call frame table of the standard

What the instructions of a CIE and of an FDE mean: they make a table with a row for each location,
and a row says how the CFA and the registers of the caller are found.  Registers, offsets and
locations are numbers without a width; an expression is its block of bytes. -/

namespace Mtrace.Dwarf.Standard

/-! ## Rows -/

/-- How a register of the caller is found. -/
inductive Rule where
  | undefined
  | sameValue
  | offset (off : ℤ)
  | register (reg : ℕ)
  | expression (block : List UInt8)
  | valExpression (block : List UInt8)
  deriving DecidableEq, Repr

/-- How the CFA is found. -/
inductive CfaRule where
  | regOffset (reg : ℕ) (off : ℤ)
  | expression (block : List UInt8)
  deriving DecidableEq, Repr

/-- A row; there is no rule for the CFA before an instruction gives one. -/
structure Row where
  cfa : Option CfaRule
  rule : ℕ → Rule

/-- The row before the first instruction. -/
def Row.start : Row := ⟨none, fun _ => .sameValue⟩

def Row.setRule (row : Row) (reg : ℕ) (rule : Rule) : Row :=
  { row with rule := Function.update row.rule reg rule }

def Row.setCfa (row : Row) (cfa : CfaRule) : Row := { row with cfa := some cfa }

/-- The register and the offset of the CFA, where its rule has them. -/
def Row.regOffset (row : Row) : Option (ℕ × ℤ) :=
  match row.cfa with
  | some (.regOffset reg off) => some (reg, off)
  | _ => none

theorem Row.cfa_of_regOffset {row : Row} {reg : ℕ} {off : ℤ} (h : row.regOffset = some (reg, off)) :
    row.cfa = some (.regOffset reg off) := by
  unfold Row.regOffset at h
  split at h
  · cases h
    assumption
  · cases h

/-! ## Pointers -/

/-- How the value of a pointer stands, by the low bits of its encoding. -/
def pointerKind (addrSize : ℕ) (format : UInt8) : Option Kind :=
  [((0x00 : UInt8), Kind.unsigned addrSize), (0x01, .uleb128), (0x02, .unsigned 2),
    (0x03, .unsigned 4), (0x04, .unsigned 8), (0x09, .sleb128), (0x0a, .signed 2),
    (0x0b, .signed 4), (0x0c, .signed 8)].lookup format

/-- What the value of a pointer is relative to: nothing, its own place, the data or the function. -/
def pointerBase (place gp func : UInt64) (encoding : UInt8) : Option UInt64 :=
  [((0x00 : UInt8), (0 : UInt64)), (0x10, place), (0x30, gp), (0x40, func)].lookup
    (encoding &&& 0x70)

/-- The pointer at the beginning of the bytes from `place` on; 0 stands for none. -/
def pointer (s : Space) (gp func : UInt64) (encoding : UInt8) (place : UInt64) (bs : List UInt8) :
    Option (UInt64 × List UInt8) :=
  if encoding = 0xff then none
  -- `DW_EH_PE_aligned`
  else if encoding = 0x50 then do
    let aligned := (place + .ofNat s.addrSize - 1) &&& -.ofNat s.addrSize
    let (v, rest) ← (Kind.unsigned s.addrSize).decode (bs.drop (aligned - place).toNat)
    return (.ofInt v, rest)
  else do
    let kind ← pointerKind s.addrSize (encoding &&& 0x0f)
    let (v, rest) ← kind.decode bs
    if UInt64.ofInt v = 0 then none
    else do
      let val := s.trim (.ofInt v + (← pointerBase place gp func encoding))
      -- `DW_EH_PE_indirect`
      if encoding &&& 0x80 = 0 then return (val, rest)
      else return (← (s.access val s.addrSize).toOption, rest)

/-! ## Instructions -/

/-- What the instructions of a program refer to: the factors, the row that the CIE has made, and the
location that an encoded pointer stands for. -/
structure Table where
  codeAlign : ℕ
  dataAlign : ℤ
  initial : Option Row
  location : List UInt8 → Option (ℕ × List UInt8)

structure TableState where
  rest : List UInt8
  loc : ℕ
  row : Row
  stack : List Row

/-- The operands of an instruction, but for pointers and blocks. -/
def cfaKinds : CfaOp → List Kind
  | .advanceLoc1 => [.unsigned 1]
  | .advanceLoc2 => [.unsigned 2]
  | .advanceLoc4 => [.unsigned 4]
  | .offset _ | .restoreExtended | .undefined | .sameValue | .defCfaRegister | .defCfaOffset
  | .expression | .valExpression | .gnuArgsSize => [.uleb128]
  | .defCfaOffsetSf => [.sleb128]
  | .offsetExtended | .register | .defCfa | .gnuNegativeOffsetExtended => [.uleb128, .uleb128]
  | .offsetExtendedSf | .defCfaSf => [.uleb128, .sleb128]
  | _ => []

/-- A block behind its length. -/
def decodeBlock (bs : List UInt8) : Option (List UInt8 × List UInt8) := do
  let (n, bs) ← Leb128.decode bs
  if n.value ≤ bs.length then some (bs.take n.value, bs.drop n.value) else none

/-- The instructions of the standard and of GCC that are implemented for this machine. -/
def implemented : CfaOp → Bool
  | .mipsAdvanceLoc8 | .gnuWindowSave | .loUser | .hiUser | .unknown => false
  | _ => true

namespace TableState

variable (st : TableState)

def advance (t : Table) (delta : ℕ) : TableState := { st with loc := st.loc + delta * t.codeAlign }

def setRule (reg : ℕ) (rule : Rule) : TableState := { st with row := st.row.setRule reg rule }

def setCfa (cfa : CfaRule) : TableState := { st with row := st.row.setCfa cfa }

/-- The rule of a register becomes the one of the CIE, which has none for itself. -/
def restore (t : Table) (reg : ℕ) : Option TableState := do
  let initial ← t.initial
  return st.setRule reg (initial.rule reg)

end TableState

namespace Table

variable (t : Table)

/-- Executes an instruction with these operands.  The register and the offset of the CFA can only be
changed alone where its rule has them. -/
def execute (op : CfaOp) (x y : ℤ) (st : TableState) : Option TableState :=
  match op with
  | .advanceLoc delta => some (st.advance t delta.toNat)
  | .advanceLoc1 | .advanceLoc2 | .advanceLoc4 => some (st.advance t x.toNat)
  | .setLoc => do
    let (loc, rest) ← t.location st.rest
    if st.loc < loc then some { st with rest, loc } else none
  | .offset reg => some (st.setRule reg.toNat (.offset (x * t.dataAlign)))
  | .offsetExtended | .offsetExtendedSf => some (st.setRule x.toNat (.offset (y * t.dataAlign)))
  | .gnuNegativeOffsetExtended => some (st.setRule x.toNat (.offset (-(y * t.dataAlign))))
  | .restore reg => st.restore t reg.toNat
  | .restoreExtended => st.restore t x.toNat
  | .undefined => some (st.setRule x.toNat .undefined)
  | .sameValue => some (st.setRule x.toNat .sameValue)
  | .register => some (st.setRule x.toNat (.register y.toNat))
  | .rememberState => some { st with stack := st.row :: st.stack }
  | .restoreState =>
    match st.stack with
    | [] => none
    | row :: stack => some { st with row, stack }
  | .defCfa => some (st.setCfa (.regOffset x.toNat y))
  | .defCfaSf => some (st.setCfa (.regOffset x.toNat (y * t.dataAlign)))
  | .defCfaRegister => do
    let (_, off) ← st.row.regOffset
    return st.setCfa (.regOffset x.toNat off)
  | .defCfaOffset => do
    let (reg, _) ← st.row.regOffset
    return st.setCfa (.regOffset reg x)
  | .defCfaOffsetSf => do
    let (reg, _) ← st.row.regOffset
    return st.setCfa (.regOffset reg (x * t.dataAlign))
  | .defCfaExpression => do
    let (block, rest) ← decodeBlock st.rest
    return { st with rest }.setCfa (.expression block)
  | .expression => do
    let (block, rest) ← decodeBlock st.rest
    return { st with rest }.setRule x.toNat (.expression block)
  | .valExpression => do
    let (block, rest) ← decodeBlock st.rest
    return { st with rest }.setRule x.toNat (.valExpression block)
  | .gnuArgsSize | .nop => some st
  | .mipsAdvanceLoc8 | .gnuWindowSave | .loUser | .hiUser | .unknown => none

/-- How a program ends: with a row, or at an instruction that is not implemented. -/
inductive Outcome where
  | row (row : Row)
  | unimplemented

/-- A step; the program goes no further than the row of the location `limit`. -/
def step (limit : Option ℕ) (st : TableState) : Option (TableState ⊕ Outcome) :=
  match st.rest with
  | [] => some (.inr (.row st.row))
  | opcode :: bs =>
    if limit.any (· < st.loc) then some (.inr (.row st.row))
    else if implemented (.decode opcode) then do
      let ((x, y), rest) ← decodeOperands (cfaKinds (.decode opcode)) bs
      return .inl (← t.execute (.decode opcode) x y { st with rest })
    else some (.inr .unimplemented)

/-- The outcome after at most so many steps. -/
def eval (limit : Option ℕ) : ℕ → TableState → Option Outcome
  | 0, _ => none
  | n + 1, st =>
    match t.step limit st with
    | some (.inl st) => eval limit n st
    | some (.inr r) => some r
    | none => none

end Table

end Mtrace.Dwarf.Standard

/-! ## The row of an instruction pointer -/

namespace Mtrace.Dwarf.Space

open Standard Server

variable (s : Space) (libref : Libref) (dci : CieInfo)

/-- What the program up to `endAddr` refers to.  The location of a pointer is moved to where the
task has the image, as the one at the beginning of the FDE is. -/
def frameTable (endAddr : UInt64) (initial : Option Row) : Table where
  codeAlign := dci.codeAlign.toNat
  dataAlign := dci.dataAlign.toInt64.toInt
  initial
  location bs := do
    let (p, rest) ← pointer s libref.pltgot (dci.startIp - libref.txtVaddr + libref.mmapAddr)
      dci.fdeEncoding (endAddr - .ofNat bs.length) bs
    return ((s.trim (p - libref.mmapAddr + libref.txtVaddr)).toNat, rest)

/-- The row that the standard has for an instruction pointer: the instructions of the CIE make the
first row, and those of the FDE the others. -/
def standardRow (ip : UInt64) : Option Table.Outcome :=
  let cie := s.block dci.cieInstrStart (dci.cieInstrEnd.toNat - dci.cieInstrStart.toNat)
  let fde := s.block dci.fdeInstrStart (dci.fdeInstrEnd.toNat - dci.fdeInstrStart.toNat)
  match (s.frameTable libref dci dci.cieInstrEnd none).eval none (cie.length + 1)
      ⟨cie, dci.startIp.toNat, .start, []⟩ with
  | some (.row row) =>
    (s.frameTable libref dci dci.fdeInstrEnd (some row)).eval (some ip.toNat) (fde.length + 1)
      ⟨fde, dci.startIp.toNat, row, []⟩
  | out => out

end Mtrace.Dwarf.Space
