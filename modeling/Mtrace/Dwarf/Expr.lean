import Mtrace.Dwarf.Cursor

/-!
# Expressions

`dwarf_eval_expr`: the operations of an expression are read from the image and work on a stack of 64
words.  The operands of an operation are read as the table `dwarf_operands` says, before its `case`
runs; an operation that has none there finds those of an operation before it.
-/

namespace Mtrace.Dwarf

/-! ## Operations -/

/-- `VAL8` to `ADDR`. -/
inductive OperandType where
  | val8
  | val16
  | val32
  | val64
  | uleb128
  | sleb128
  | offset
  | addr
  deriving DecidableEq, Repr

/-- The operations that push their operand. -/
inductive ConstOp where
  | addr
  | const1u
  | const1s
  | const2u
  | const2s
  | const4u
  | const4s
  | const8u
  | const8s
  | constu
  | consts
  deriving DecidableEq, Repr

/-- The operations on the top of the stack. -/
inductive UnOp where
  | abs
  | neg
  | not
  | plusUconst
  deriving DecidableEq, Repr

/-- The operations on the two words at the top of the stack. -/
inductive BinOp where
  | and
  | div
  | minus
  | mod
  | mul
  | or
  | plus
  | shl
  | shr
  | shra
  | xor
  | le
  | ge
  | eq
  | lt
  | gt
  | ne
  deriving DecidableEq, Repr

/-- The operations that are named and not implemented. -/
inductive OtherOp where
  | xderef
  | fbreg
  | piece
  | xderefSize
  | pushObjectAddress
  | call2
  | call4
  | callRef
  deriving DecidableEq, Repr

/-- `enum dwarf_expr_op`. -/
inductive ExprOp where
  | lit (n : UInt8)
  | reg (n : UInt8)
  | breg (n : UInt8)
  | regx
  | bregx
  | const (op : ConstOp)
  | deref
  | derefSize
  | dup
  | drop
  | pick
  | over
  | swap
  | rot
  | unary (op : UnOp)
  | binary (op : BinOp)
  | skip
  | bra
  | nop
  | other (op : OtherOp)
  | unknown
  deriving DecidableEq, Repr

/-- The operations that are one value of the enumeration each. -/
def exprOps : List (UInt8 × ExprOp) :=
  [(0x03, .const .addr), (0x06, .deref), (0x08, .const .const1u), (0x09, .const .const1s),
    (0x0a, .const .const2u), (0x0b, .const .const2s), (0x0c, .const .const4u),
    (0x0d, .const .const4s), (0x0e, .const .const8u), (0x0f, .const .const8s),
    (0x10, .const .constu), (0x11, .const .consts), (0x12, .dup), (0x13, .drop), (0x14, .over),
    (0x15, .pick), (0x16, .swap), (0x17, .rot), (0x18, .other .xderef), (0x19, .unary .abs),
    (0x1a, .binary .and), (0x1b, .binary .div), (0x1c, .binary .minus), (0x1d, .binary .mod),
    (0x1e, .binary .mul), (0x1f, .unary .neg), (0x20, .unary .not), (0x21, .binary .or),
    (0x22, .binary .plus), (0x23, .unary .plusUconst), (0x24, .binary .shl), (0x25, .binary .shr),
    (0x26, .binary .shra), (0x27, .binary .xor), (0x28, .bra), (0x29, .binary .eq),
    (0x2a, .binary .ge), (0x2b, .binary .gt), (0x2c, .binary .le), (0x2d, .binary .lt),
    (0x2e, .binary .ne), (0x2f, .skip), (0x90, .regx), (0x91, .other .fbreg), (0x92, .bregx),
    (0x93, .other .piece), (0x94, .derefSize), (0x95, .other .xderefSize), (0x96, .nop),
    (0x97, .other .pushObjectAddress), (0x98, .other .call2), (0x99, .other .call4),
    (0x9a, .other .callRef)]

/-- The operation of an opcode: `DW_OP_lit0` to `DW_OP_lit31`, `DW_OP_reg0` to `DW_OP_reg31`,
`DW_OP_breg0` to `DW_OP_breg31`, or one of the others. -/
def ExprOp.decode (opcode : UInt8) : ExprOp :=
  if 0x30 ≤ opcode ∧ opcode ≤ 0x4f then .lit (opcode - 0x30)
  else if 0x50 ≤ opcode ∧ opcode ≤ 0x6f then .reg (opcode - 0x50)
  else if 0x70 ≤ opcode ∧ opcode ≤ 0x8f then .breg (opcode - 0x70)
  else (exprOps.lookup opcode).getD .unknown

/-- `dwarf_operands`. -/
def ExprOp.operands : ExprOp → List OperandType
  | .const .addr => [.addr]
  | .const .const1u | .const .const1s => [.val8]
  | .const .const2u | .const .const2s => [.val16]
  | .const .const4u | .const .const4s => [.val32]
  | .const .const8u | .const .const8s => [.val64]
  | .pick => [.val8]
  | .unary .plusUconst => [.uleb128]
  | .skip | .bra => [.val16]
  | .breg _ => [.sleb128]
  | .regx => [.uleb128]
  | .other .fbreg => [.sleb128]
  | .bregx => [.uleb128, .sleb128]
  | .other .piece => [.uleb128]
  | .derefSize | .other .xderefSize => [.val8]
  | .other .call2 => [.val16]
  | .other .call4 => [.val32]
  | .other .callRef => [.offset]
  | _ => []

/-- The local variables of `dwarf_eval_expr`; the stack is from its top. -/
structure ExprState where
  addr : UInt64
  operand1 : UInt64
  operand2 : UInt64
  stack : List UInt64
  deriving DecidableEq, Repr

namespace ExprState

def invalid {α : Type} : Except Halt α := .error (.error .inval)

/-- `push`; `MAX_EXPR_STACK_SIZE` is 64. -/
def push (e : ExprState) (x : UInt64) : Except Halt ExprState :=
  if e.stack.length < 64 then .ok { e with stack := x :: e.stack } else invalid

/-- `pop`. -/
def pop (e : ExprState) : Except Halt (UInt64 × ExprState) :=
  match e.stack with
  | x :: stack => .ok (x, { e with stack })
  | [] => invalid

/-- `pick`. -/
def pick (e : ExprState) (n : UInt64) : Except Halt UInt64 :=
  match e.stack[n.toNat]? with
  | some x => .ok x
  | none => invalid

end ExprState

/-- An operation of C that is not defined for all operands; a shift is given the value and the
count. -/
inductive Arith where
  | div (a b : Int64)
  | mod (a b : UInt64)
  | shl (a count : UInt64)
  | shr (a count : UInt64)
  | sar (a : Int64) (count : UInt64)
  deriving DecidableEq, Repr

/-- What the processor does: a division may trap, and a shift takes the low six bits of its
count. -/
def Arith.run : Arith → Except Halt UInt64
  | .div a b =>
    if b = 0 ∨ a = .minValue ∧ b = -1 then .error (.crash "SIGFPE") else .ok (a / b).toUInt64
  | .mod a b => if b = 0 then .error (.crash "SIGFPE") else .ok (a % b)
  | .shl a count => .ok (a <<< (count &&& 63))
  | .shr a count => .ok (a >>> (count &&& 63))
  | .sar a count => .ok (.ofBitVec (a.toBitVec.sshiftRight (count &&& 63).toNat))

/-- A comparison as a value. -/
def ofTest (b : Bool) : UInt64 := if b then 1 else 0

/-- A number with the sign in bit `bits - 1`. -/
def signExtend (bits val : UInt64) : UInt64 :=
  if val &&& (1 : UInt64) <<< (bits - 1) ≠ 0 then val |||
    (0xffffffffffffffff : UInt64) <<< bits else val

namespace Space

variable (s : Space)

/-- The width of a word of the task. -/
def wordBits : ℕ := 8 * s.addrSize

/-- `sword`. -/
def sword (val : UInt64) : Int64 :=
  if s.is64bit then val.toInt64 else val.toUInt32.toInt32.toInt64

/-- What an operation on the top `tmp1` and the word `tmp2` below it comes to. -/
def binary (op : BinOp) (tmp1 tmp2 : UInt64) : UInt64 ⊕ Arith :=
  match op with
  | .and => .inl (tmp1 &&& tmp2)
  | .div => if tmp1 ≠ 0 then .inr (.div (s.sword tmp2) (s.sword tmp1)) else .inl tmp1
  | .minus => .inl (tmp2 - tmp1)
  | .mod => if tmp1 ≠ 0 then .inr (.mod tmp2 tmp1) else .inl tmp1
  | .mul => if tmp1 ≠ 0 then .inl (tmp2 * tmp1) else .inl tmp1
  | .or => .inl (tmp1 ||| tmp2)
  | .plus => .inl (tmp1 + tmp2)
  | .shl => .inr (.shl tmp2 tmp1)
  | .shr => .inr (.shr tmp2 tmp1)
  | .shra => .inr (.sar (s.sword tmp2) tmp1)
  | .xor => .inl (tmp1 ^^^ tmp2)
  | .le => .inl (ofTest (decide (s.sword tmp2 ≤ s.sword tmp1)))
  | .ge => .inl (ofTest (decide (s.sword tmp2 ≥ s.sword tmp1)))
  | .eq => .inl (ofTest (decide (s.sword tmp2 = s.sword tmp1)))
  | .lt => .inl (ofTest (decide (s.sword tmp2 < s.sword tmp1)))
  | .gt => .inl (ofTest (decide (s.sword tmp2 > s.sword tmp1)))
  | .ne => .inl (ofTest (decide (s.sword tmp2 ≠ s.sword tmp1)))

def unary (op : UnOp) (operand1 tmp1 : UInt64) : UInt64 :=
  match op with
  | .abs => if tmp1 &&& (1 : UInt64) <<< (8 * UInt64.ofNat s.addrSize - 1) ≠ 0 then -tmp1 else tmp1
  | .neg => -tmp1
  | .not => ~~~tmp1
  | .plusUconst => tmp1 + operand1

/-- What `operand1` is made to before it is pushed. -/
def const (op : ConstOp) (operand1 : UInt64) : UInt64 :=
  match op with
  | .const1s => signExtend 8 operand1
  | .const2s => signExtend 16 operand1
  | .const4s => signExtend 32 operand1
  | _ => operand1

/-- `read_operand`. -/
def readOperand : OperandType → Reader UInt64
  | .val8 => s.read 1
  | .val16 => s.read 2
  | .val32 => s.read 4
  | .val64 => s.read 8
  | .uleb128 => s.readUleb128
  | .sleb128 => s.readSleb128
  | .offset => Reader.fail .inval
  | .addr => s.read s.addrSize

/-- The operands of an operation, after those that were read before. -/
def readOperands (operands : List OperandType) (operand1 operand2 : UInt64) :
    Reader (UInt64 × UInt64) :=
  match operands with
  | [] => return (operand1, operand2)
  | [type] => return (← s.readOperand type, operand2)
  | type1 :: type2 :: _ => return (← s.readOperand type1, ← s.readOperand type2)

/-- The word of `DW_OP_deref_size`; the bytes above those asked for are to be cut off.  The `#if` of
three bytes compares with a name that is not defined and takes the other byte order. -/
def derefSize (addr size : UInt64) : Except Halt UInt64 :=
  if size = 1 then s.access addr 1
  else if size = 2 then s.access addr 2
  else if size = 3 then return (← s.access addr 4) >>> 8
  else if size = 4 then s.access addr 4
  else if size = 5 ∨ size = 6 ∨ size = 7 then
    return (← s.access addr 8) &&& (0xffffffffffffffff : UInt64) <<< (8 * size)
  else if size = 8 then s.access addr 8
  else ExprState.invalid

/-- The `case` of an operation: the state after it, or the place that is returned. -/
def execute (c : Cursor) (op : ExprOp) (e : ExprState) : Except Halt (ExprState ⊕ DwarfLoc) :=
  match op with
  | .lit n => return .inl (← e.push n.toUInt64)
  | .breg n => do
    let tmp1 ← s.getReg c n.toUInt64
    return .inl (← e.push (tmp1 + e.operand1))
  | .bregx => do
    let tmp1 ← s.getReg c e.operand1
    return .inl (← e.push (tmp1 + e.operand2))
  | .reg n => return .inr (.ofReg n.toUInt64)
  | .regx => return .inr (.ofReg e.operand1)
  | .const op => do
    let operand1 := const op e.operand1
    return .inl (← ({ e with operand1 } : ExprState).push operand1)
  | .deref => do
    let (tmp1, e) ← e.pop
    let tmp2 ← s.access tmp1 s.addrSize
    return .inl (← e.push tmp2)
  | .derefSize => do
    let (tmp1, e) ← e.pop
    let tmp2 ← s.derefSize tmp1 e.operand1
    return .inl (← e.push tmp2)
  | .dup => return .inl (← e.push (← e.pick 0))
  | .drop => return .inl (← e.pop).2
  | .pick => return .inl (← e.push (← e.pick e.operand1))
  | .over => return .inl (← e.push (← e.pick 1))
  | .swap => do
    let (tmp1, e) ← e.pop
    let (tmp2, e) ← e.pop
    return .inl (← (← e.push tmp1).push tmp2)
  | .rot => do
    let (tmp1, e) ← e.pop
    let (tmp2, e) ← e.pop
    let (tmp3, e) ← e.pop
    return .inl (← (← (← e.push tmp1).push tmp3).push tmp2)
  | .unary op => do
    let (tmp1, e) ← e.pop
    return .inl (← e.push (s.unary op e.operand1 tmp1))
  | .binary op => do
    let (tmp1, e) ← e.pop
    let (tmp2, e) ← e.pop
    match s.binary op tmp1 tmp2 with
    | .inl tmp1 => return .inl (← e.push tmp1)
    | .inr arith => return .inl (← e.push (← arith.run))
  | .skip => return .inl { e with addr := e.addr + sval16 e.operand1 }
  | .bra => do
    let (tmp1, e) ← e.pop
    if tmp1 ≠ 0 then return .inl { e with addr := e.addr + sval16 e.operand1 }
    else return .inl e
  | .nop => return .inl e
  | .other _ | .unknown => ExprState.invalid

/-- The opcode at a position and its operands, after those that were read before. -/
def readOp (operand1 operand2 : UInt64) : Reader (ExprOp × UInt64 × UInt64) := do
  let op := ExprOp.decode (← s.read8)
  return (op, ← s.readOperands op.operands operand1 operand2)

def fetch (e : ExprState) : Except Halt (ExprOp × ExprState) :=
  match s.readOp e.operand1 e.operand2 e.addr with
  | .ok (op, operand1, operand2) addr => .ok (op, { e with addr, operand1, operand2 })
  | .error h _ => .error h

/-- A pass of the loop of `dwarf_eval_expr`, or what is behind it. -/
def exprStep (c : Cursor) (endAddr : UInt64) (e : ExprState) :
    ExprState ⊕ Except Halt DwarfLoc :=
  if e.addr < endAddr then
    match (do let (op, e) ← s.fetch e; s.execute c op e) with
    | .ok (.inl e) => .inl e
    | .ok (.inr loc) => .inr (.ok loc)
    | .error h => .inr (.error h)
  else .inr (do return .ofMem (← e.pop).1)

def exprLoop (c : Cursor) (endAddr : UInt64) : ℕ → ExprState → Except Halt DwarfLoc
  | 0, _ => .error .running
  | passes + 1, e =>
    match s.exprStep c endAddr e with
    | .inl e => exprLoop c endAddr passes e
    | .inr r => r

/-- The length in front of an expression: the state with the CFA pushed, and the end. -/
def exprStart (c : Cursor) (addr : UInt64) : Except Halt (ExprState × UInt64) :=
  match s.readUleb128 addr with
  | .ok len addr => .ok (⟨addr, 0, 0, [c.cfa]⟩, addr + len)
  | .error h _ => .error h

/-- `dwarf_eval_expr`. -/
def evalExpr (c : Cursor) (addr : UInt64) : Except Halt DwarfLoc := do
  let (e, endAddr) ← s.exprStart c addr
  s.exprLoop c endAddr s.passes e

end Space

end Mtrace.Dwarf
