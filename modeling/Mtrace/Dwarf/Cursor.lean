import Mtrace.Dwarf.Entry

/-!
# The cursor

`struct dwarf_cursor`: the frame that unwinding got to, with the place of every register of it.  A
place is an address in the task, a register of the stopped task, or the value itself.
-/

namespace Mtrace.Dwarf

open Server

/-- `DWARF_LOC_TYPE_MEM`, `DWARF_LOC_TYPE_REG` and `DWARF_LOC_TYPE_VAL`. -/
inductive LocType where
  | mem
  | reg
  | val
  deriving DecidableEq, Repr

/-- `struct dwarf_loc`. -/
structure DwarfLoc where
  val : UInt64
  type : LocType
  deriving DecidableEq, Repr

namespace DwarfLoc

/-- `DWARF_NULL_LOC`. -/
def null : DwarfLoc := ⟨0, .mem⟩

instance : Inhabited DwarfLoc := ⟨null⟩

/-- `DWARF_MEM_LOC`. -/
def ofMem (val : UInt64) : DwarfLoc := ⟨val, .mem⟩

/-- `DWARF_REG_LOC`. -/
def ofReg (val : UInt64) : DwarfLoc := ⟨val, .reg⟩

/-- `DWARF_VAL_LOC`. -/
def ofVal (val : UInt64) : DwarfLoc := ⟨val, .val⟩

end DwarfLoc

/-- `struct dwarf_cursor`; `loc` is an array of `num_regs` places. -/
structure Cursor where
  cfa : UInt64
  ip : UInt64
  retAddrColumn : UInt64
  usePrevInstr : Bool
  valid : Bool
  libref : Option Libref
  dci : CieInfo
  loc : ℕ → DwarfLoc

/-- `c->loc[reg] = loc`. -/
def Cursor.setLoc (c : Cursor) (reg : ℕ) (loc : DwarfLoc) : Cursor :=
  { c with loc := Function.update c.loc reg loc }

@[simp] theorem Cursor.setLoc_loc (c : Cursor) (reg : ℕ) (loc : DwarfLoc) :
    (c.setLoc reg loc).loc = Function.update c.loc reg loc := rfl

@[simp] theorem Cursor.setLoc_cfa (c : Cursor) (reg : ℕ) (loc : DwarfLoc) :
    (c.setLoc reg loc).cfa = c.cfa := rfl

@[simp] theorem Cursor.setLoc_ip (c : Cursor) (reg : ℕ) (loc : DwarfLoc) :
    (c.setLoc reg loc).ip = c.ip := rfl

/-! ## Registers -/

/-- `dwarf_to_regnum_map64`: RAX, RDX, RCX, RBX, RSI, RDI, RBP, RSP, R8 to R15 and RIP, as they are
numbered in `sys/reg.h`. -/
def regnumMap64 : List ℕ := [10, 12, 11, 5, 13, 14, 4, 19, 9, 8, 7, 6, 3, 2, 1, 0, 16]

/-- `dwarf_to_regnum_map32`: EAX, ECX, EDX, EBX, ESP, EBP, ESI, EDI and EIP. -/
def regnumMap32 : List ℕ := [10, 11, 12, 5, 19, 4, 13, 14, 16]

namespace Space

variable (s : Space)

/-- The map of the task's mode. -/
def regnumMap : List ℕ := if s.is64bit then regnumMap64 else regnumMap32

/-- `num_regs`. -/
def numRegs : ℕ := s.regnumMap.length

/-- `ip_reg`. -/
def ipReg : ℕ := if s.is64bit then 16 else 8

/-- `ret_reg`, the stack pointer. -/
def retReg : ℕ := if s.is64bit then 7 else 4

/-- The `bp` of `struct arch_reg`. -/
def bpReg : ℕ := if s.is64bit then 6 else 5

/-- `fetch_reg`; the case of `R13`, which is 2, takes `r15`. -/
def fetchReg (reg : ℕ) : UInt64 := s.trim (s.regs (if reg = 2 then 0 else reg))

/-- `dwarf_access_reg`, of an `unsigned int`. -/
def accessReg (reg : UInt64) : Except Halt UInt64 :=
  match s.regnumMap[reg.toUInt32.toNat]? with
  | some map => .ok (s.fetchReg map)
  | none => .error (.error .badReg)

/-- `dwarf_get`. -/
def dwarfGet (loc : DwarfLoc) : Except Halt UInt64 :=
  match loc.type with
  | .reg => s.accessReg loc.val
  | .mem => s.access (s.trim loc.val) s.addrSize
  | .val => .ok (s.trim loc.val)

/-- `dwarf_get_reg`, of an `unsigned int`. -/
def getReg (c : Cursor) (reg : UInt64) : Except Halt UInt64 :=
  let reg := reg.toUInt32.toNat
  if s.numRegs ≤ reg then .error (.error .badReg)
  else if reg = s.ipReg then .ok c.ip
  else if reg = s.retReg then .ok c.cfa
  else s.dwarfGet (c.loc reg)

/-! ## The library of an address -/

/-- `dwarf_locate_map`: whether there is a library, and the cursor with it. -/
def locateMap (c : Cursor) (ip : UInt64) : Bool × Cursor :=
  let ip := if c.usePrevInstr then ip - 1 else ip
  if c.libref.any (·.inText ip) then (true, c)
  else
    let libref := addr2libref s.libs ip
    (libref.isSome, { c with libref })

/-! ## The first frame -/

/-- The cursor of `dwarf_init_unwind` after `dwarf_arch_init_unwind`. -/
def archInitUnwind : Cursor where
  cfa := s.fetchReg 19
  ip := s.fetchReg 16
  retAddrColumn := 0
  usePrevInstr := false
  valid := true
  libref := none
  dci := .zero
  loc reg := .ofReg (.ofNat reg)

/-- `dwarf_init_unwind`. -/
def initUnwind : Bool × Cursor := s.locateMap s.archInitUnwind s.archInitUnwind.ip

end Space

theorem numRegs_le {s : Space} : s.numRegs ≤ 17 := by
  unfold Space.numRegs Space.regnumMap
  split <;> decide

end Mtrace.Dwarf
