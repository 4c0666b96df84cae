import Mtrace.ByteOrder
import Mtrace.Leb128
import Mtrace.Dwarf.Expr

/-!
# The stack machine of the standard

What a DWARF expression means: the operations work on words of a given width, with arithmetic modulo
`2 ^ w`, on a stack of 64 of them.  An expression is a block of bytes; a jump leads to a place in it
or to its end.  Operations that the unwinder does not know have no meaning here.
-/

namespace Mtrace.Dwarf.Standard

variable {w : ℕ}

/-! ## Operands -/

/-- How an operand stands behind its opcode. -/
inductive Kind where
  | unsigned (size : ℕ)
  | signed (size : ℕ)
  | uleb128
  | sleb128
  deriving DecidableEq, Repr

/-- An operand, and the bytes behind it. -/
def Kind.decode : Kind → List UInt8 → Option (ℤ × List UInt8)
  | .unsigned size, bs =>
    if size ≤ bs.length then some (ByteOrder.leValue (bs.take size), bs.drop size) else none
  | .signed size, bs =>
    if size ≤ bs.length then
      some ((ByteOrder.leValue (bs.take size) : ℤ).bmod (256 ^ size), bs.drop size)
    else none
  | .uleb128, bs => (Leb128.decode bs).map fun r => (r.1.value, r.2)
  | .sleb128, bs => (Leb128.decode bs).map fun r => (r.1.signed, r.2)

/-- The operands of an operation, for addresses of a size. -/
def kinds (addrSize : ℕ) : ExprOp → List Kind
  | .const .addr => [.unsigned addrSize]
  | .const .const1u => [.unsigned 1]
  | .const .const1s => [.signed 1]
  | .const .const2u => [.unsigned 2]
  | .const .const2s => [.signed 2]
  | .const .const4u => [.unsigned 4]
  | .const .const4s => [.signed 4]
  | .const .const8u => [.unsigned 8]
  | .const .const8s => [.signed 8]
  | .const .constu => [.uleb128]
  | .const .consts => [.sleb128]
  | .pick => [.unsigned 1]
  | .unary .plusUconst => [.uleb128]
  | .skip | .bra => [.signed 2]
  | .breg _ => [.sleb128]
  | .regx => [.uleb128]
  | .bregx => [.uleb128, .sleb128]
  | .derefSize => [.unsigned 1]
  | _ => []

/-- An operation with its operands. -/
structure Instr where
  op : ExprOp
  operand1 : ℤ
  operand2 : ℤ
  deriving DecidableEq, Repr

def decodeOperands : List Kind → List UInt8 → Option ((ℤ × ℤ) × List UInt8)
  | [], bs => some ((0, 0), bs)
  | [kind], bs => do
    let (operand1, bs) ← kind.decode bs
    return ((operand1, 0), bs)
  | kind1 :: kind2 :: _, bs => do
    let (operand1, bs) ← kind1.decode bs
    let (operand2, bs) ← kind2.decode bs
    return ((operand1, operand2), bs)

def decodeInstr (addrSize : ℕ) : List UInt8 → Option (Instr × List UInt8)
  | [] => none
  | opcode :: bs => do
    let ((operand1, operand2), bs) ← decodeOperands (kinds addrSize (.decode opcode)) bs
    return (⟨.decode opcode, operand1, operand2⟩, bs)

/-! ## Operations -/

/-- What an expression is evaluated over: the values and the places of the registers, and the
memory, which gives the number in so many bytes at an address. -/
structure Machine (w : ℕ) where
  code : List UInt8
  addrSize : ℕ
  reg : ℕ → Option (BitVec w)
  place : ℕ → Option DwarfLoc
  mem : BitVec w → ℕ → Option ℕ

structure State (w : ℕ) where
  off : ℕ
  stack : List (BitVec w)
  deriving DecidableEq, Repr

/-- An address in memory, or the place of a register. -/
inductive Result (w : ℕ) where
  | mem (addr : BitVec w)
  | place (loc : DwarfLoc)
  deriving DecidableEq, Repr

def push (stack : List (BitVec w)) (x : BitVec w) : Option (List (BitVec w)) :=
  if stack.length < 64 then some (x :: stack) else none

def pop : List (BitVec w) → Option (BitVec w × List (BitVec w))
  | [] => none
  | x :: stack => some (x, stack)

def ofBool (b : Bool) : BitVec w := if b then 1 else 0

def unary (op : UnOp) (operand : ℤ) (x : BitVec w) : BitVec w :=
  match op with
  | .abs => x.abs
  | .neg => -x
  | .not => ~~~x
  | .plusUconst => x + .ofInt w operand

/-- An operation on the second word of the stack and its top; divisions have no result for 0. -/
def binary (op : BinOp) (x top : BitVec w) : Option (BitVec w) :=
  match op with
  | .and => some (x &&& top)
  | .div => if top = 0 then none else some (x.sdiv top)
  | .minus => some (x - top)
  | .mod => if top = 0 then none else some (x % top)
  | .mul => some (x * top)
  | .or => some (x ||| top)
  | .plus => some (x + top)
  | .shl => some (x <<< top.toNat)
  | .shr => some (x >>> top.toNat)
  | .shra => some (x.sshiftRight top.toNat)
  | .xor => some (x ^^^ top)
  | .le => some (ofBool (x.sle top))
  | .ge => some (ofBool (top.sle x))
  | .eq => some (ofBool (x == top))
  | .lt => some (ofBool (x.slt top))
  | .gt => some (ofBool (top.slt x))
  | .ne => some (ofBool (x != top))

namespace Machine

variable (m : Machine w)

/-- Where a jump from an offset leads. -/
def jump (off : ℕ) (dist : ℤ) : Option ℕ :=
  if 0 ≤ off + dist ∧ off + dist ≤ m.code.length then some (off + dist).toNat else none

/-- Executes an operation, with the offset behind it. -/
def execute (i : Instr) (off : ℕ) (stack : List (BitVec w)) : Option (State w ⊕ Result w) :=
  match i.op with
  | .lit n => do return .inl ⟨off, ← push stack (.ofNat w n.toNat)⟩
  | .breg n => do
    let x ← m.reg n.toNat
    return .inl ⟨off, ← push stack (x + .ofInt w i.operand1)⟩
  | .bregx => do
    let x ← m.reg i.operand1.toNat
    return .inl ⟨off, ← push stack (x + .ofInt w i.operand2)⟩
  | .reg n => do return .inr (.place (← m.place n.toNat))
  | .regx => do return .inr (.place (← m.place i.operand1.toNat))
  | .const _ => do return .inl ⟨off, ← push stack (.ofInt w i.operand1)⟩
  | .deref => do
    let (x, stack) ← pop stack
    return .inl ⟨off, ← push stack (.ofNat w (← m.mem x m.addrSize))⟩
  | .derefSize => do
    let (x, stack) ← pop stack
    if 1 ≤ i.operand1 ∧ i.operand1 ≤ 8 then
      return .inl ⟨off, ← push stack (.ofNat w (← m.mem x i.operand1.toNat))⟩
    else none
  | .dup => do return .inl ⟨off, ← push stack (← stack[0]?)⟩
  | .drop => do return .inl ⟨off, (← pop stack).2⟩
  | .pick => do return .inl ⟨off, ← push stack (← stack[i.operand1.toNat]?)⟩
  | .over => do return .inl ⟨off, ← push stack (← stack[1]?)⟩
  | .swap => do
    let (x, stack) ← pop stack
    let (y, stack) ← pop stack
    return .inl ⟨off, y :: x :: stack⟩
  | .rot => do
    let (x, stack) ← pop stack
    let (y, stack) ← pop stack
    let (z, stack) ← pop stack
    return .inl ⟨off, y :: z :: x :: stack⟩
  | .unary op => do
    let (x, stack) ← pop stack
    return .inl ⟨off, unary op i.operand1 x :: stack⟩
  | .binary op => do
    let (top, stack) ← pop stack
    let (x, stack) ← pop stack
    return .inl ⟨off, (← binary op x top) :: stack⟩
  | .skip => do return .inl ⟨← m.jump off i.operand1, stack⟩
  | .bra => do
    let (x, stack) ← pop stack
    if x = 0 then return .inl ⟨off, stack⟩ else return .inl ⟨← m.jump off i.operand1, stack⟩
  | .nop => some (.inl ⟨off, stack⟩)
  | .other _ | .unknown => none

/-- A step; at its end an expression stands for the address at the top of the stack. -/
def step (st : State w) : Option (State w ⊕ Result w) :=
  if st.off = m.code.length then do return .inr (.mem (← pop st.stack).1)
  else do
    let (i, rest) ← decodeInstr m.addrSize (m.code.drop st.off)
    m.execute i (m.code.length - rest.length) st.stack

/-- The result after at most so many steps. -/
def eval : ℕ → State w → Option (Result w)
  | 0, _ => none
  | n + 1, st =>
    match m.step st with
    | some (.inl st) => eval n st
    | some (.inr r) => some r
    | none => none

end Machine

end Mtrace.Dwarf.Standard
