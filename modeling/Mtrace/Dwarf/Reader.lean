import Mtrace.ByteOrder
import Mtrace.Server.Library
import Mtrace.Server.Memory

/-!
# Reading unwind tables

The access functions of `dwarf.c` and `dwarf_read_encoded_pointer`, for a server on x86-64.  The
tables are read from the image of the file in the memory of the server; only a pointer behind an
indirect encoding is read from the traced task.

A loop without a bound in the source makes `passes` passes at most.
-/

namespace Mtrace.Dwarf

open RbTree Server

/-- `DWARF_EBADREG` and the other codes that are returned negated. -/
inductive DwarfError where
  | badReg
  | badFrame
  | inval
  | badVersion
  | noInfo
  deriving DecidableEq, Repr

/-- How a function of `dwarf.c` ends without a value. -/
inductive Halt where
  | error (e : DwarfError)
  /-- The server dies. -/
  | crash (what : String)
  /-- A loop is not done after all its passes. -/
  | running
  deriving DecidableEq, Repr

/-- `struct dwarf_cie_info`. -/
structure CieInfo where
  startIp : UInt64
  ipRange : UInt64
  cieInstrStart : UInt64
  cieInstrEnd : UInt64
  fdeInstrStart : UInt64
  fdeInstrEnd : UInt64
  codeAlign : UInt64
  dataAlign : UInt64
  retAddrColumn : UInt64
  abi : UInt16
  tag : UInt16
  fdeEncoding : UInt8
  lsdaEncoding : UInt8
  sizedAugmentation : Bool
  haveAbiMarker : Bool
  signalFrame : Bool
  deriving DecidableEq, Repr

def CieInfo.zero : CieInfo := ⟨0, 0, 0, 0, 0, 0, 0, 0, 0, 0, 0, 0, 0, false, false, false⟩

/-- What unwinding reads: the images in the memory of the server, the memory of the stopped task,
with what the system calls for it do, its registers, and the libraries of its leader. -/
structure Space where
  is64bit : Bool
  image : UInt64 → UInt8
  proc : ProcMem
  vm : VmReadv
  errno : UInt64 → Errno
  nosys : Bool
  regs : ℕ → UInt64
  libs : RbRoot Library
  passes : ℕ

/-- What moves a position `*addr`; where it fails, the position stays where it got to. -/
abbrev Reader := EStateM Halt UInt64

def Reader.fail {α : Type} (e : DwarfError) : Reader α := throw (.error e)

theorem pure_eq_ok {ε σ α : Type} {s s' : σ} {a b : α} :
    (pure a : EStateM ε σ α) s = .ok b s' ↔ a = b ∧ s = s' :=
  ⟨fun h => EStateM.Result.ok.inj h, fun ⟨ha, hs⟩ => ha ▸ hs ▸ rfl⟩

theorem bind_eq_ok {ε σ α β : Type} {x : EStateM ε σ α} {f : α → EStateM ε σ β} {s s' : σ} {b : β} :
    (x >>= f) s = .ok b s' ↔ ∃ a s1, x s = .ok a s1 ∧ f a s1 = .ok b s' := by
  show EStateM.bind x f s = _ ↔ _
  unfold EStateM.bind
  cases x s with
  | ok a s1 => exact ⟨fun h => ⟨a, s1, rfl, h⟩, fun ⟨_, _, h, hf⟩ => (by cases h; exact hf)⟩
  | error e s1 => exact ⟨fun h => (by cases h), fun ⟨_, _, h, _⟩ => (by cases h)⟩

namespace Space

variable (s : Space)

/-- `DWARF_ADDR_SIZE`. -/
def addrSize : ℕ := if s.is64bit then 8 else 4

/-- `val = (uint32_t)val` unless the task has 64 bits. -/
def trim (val : UInt64) : UInt64 := if s.is64bit then val else val.toUInt32.toUInt64

/-! ## Memory -/

/-- A number in an image. -/
def word (addr : UInt64) (size : ℕ) : UInt64 :=
  .ofNat (ByteOrder.leValue ((List.range size).map fun i => s.image (addr + .ofNat i)))

/-- `dwarf_read8`, `dwarf_read16`, `dwarf_read32` and `dwarf_read64` from an image. -/
def read (size : ℕ) : Reader UInt64 := do
  let addr ← get
  if addr = 0 then Reader.fail .inval
  else do
    set (addr + .ofNat size)
    return s.word addr size

def read8 : Reader UInt8 := return (← s.read 1).toUInt8

/-- `dwarf_readw`. -/
def readw : Reader UInt64 := s.read s.addrSize

/-- A number that `copy_from_proc` has read as a whole. -/
def copyFromProc (addr : UInt64) (size : ℕ) : Option UInt64 :=
  let copied := Server.copyFromProc s.proc s.vm s.errno s.nosys addr size
  if copied.ret = size then some (.ofNat (ByteOrder.leValue copied.dst)) else none

theorem copyFromProc_eq {size : ℕ} (hpos : 0 < size) (hsize : size ≤ 8) (addr : UInt64) :
    s.copyFromProc addr size = (bytesAt s.proc addr 8).map fun word =>
      .ofNat (ByteOrder.leValue (word.take size)) := by
  unfold copyFromProc
  dsimp only
  rw [copyFromProc_word hpos hsize]
  cases bytesAt s.proc addr 8 with
  | none => exact if_neg (by dsimp only; omega)
  | some word => exact if_pos rfl

/-- The same accesses in the task. -/
def access (addr : UInt64) (size : ℕ) : Except Halt UInt64 :=
  if addr = 0 then .error (.error .inval)
  else match s.copyFromProc addr size with
    | some val => .ok val
    | none => .error (.error .inval)

/-- The number in so many bytes of the memory of the task, if all of them are mapped. -/
def number (addr : UInt64) (size : ℕ) : Option ℕ := (bytesAt s.proc addr size).map ByteOrder.leValue

/-- Where a number is mapped, so is the word of eight bytes that `PTRACE_PEEKTEXT` reads, and not at
the null address. -/
def Peekable (addr : UInt64) (size : ℕ) : Prop :=
  (s.number addr size).isSome → addr ≠ 0 ∧ (bytesAt s.proc addr 8).isSome

variable {s}

theorem access_eq_ok {addr val : UInt64} {size : ℕ} (hpos : 0 < size) (hsize : size ≤ 8)
    (h : s.access addr size = .ok val) :
    addr ≠ 0 ∧ ∃ word, bytesAt s.proc addr 8 = some word ∧
      val = .ofNat (ByteOrder.leValue (word.take size)) := by
  unfold access at h
  rw [copyFromProc_eq s hpos hsize] at h
  split at h
  case isTrue => cases h
  case isFalse hnz =>
    cases hword : bytesAt s.proc addr 8 with
    | none =>
      rw [hword] at h
      cases h
    | some word =>
      rw [hword] at h
      cases h
      exact ⟨hnz, word, rfl, rfl⟩

theorem bytesAt_take {addr : UInt64} {size : ℕ} {word : List UInt8} (hsize : size ≤ 8)
    (h : bytesAt s.proc addr 8 = some word) : bytesAt s.proc addr size = some (word.take size) := by
  have hsum : 8 = size + (8 - size) := by omega
  rw [hsum] at h
  exact (bytesAt_split h).1

/-- What is read of the memory of the task is the number there. -/
theorem number_of_access {addr val : UInt64} {size : ℕ} (hpos : 0 < size) (hsize : size ≤ 8)
    (h : s.access addr size = .ok val) : ∃ n, s.number addr size = some n ∧ val = .ofNat n := by
  obtain ⟨-, word, hword, hval⟩ := access_eq_ok hpos hsize h
  refine ⟨_, ?_, hval⟩
  unfold number
  rw [bytesAt_take hsize hword]
  rfl

/-- A number is read where the word at its address can be. -/
theorem access_of_number {addr : UInt64} {size n : ℕ} (hpos : 0 < size) (hsize : size ≤ 8)
    (hpeek : s.Peekable addr size) (h : s.number addr size = some n) :
    s.access addr size = .ok (.ofNat n) := by
  obtain ⟨hnz, hword⟩ := hpeek (by rw [h]; rfl)
  obtain ⟨word, hword⟩ := Option.isSome_iff_exists.mp hword
  unfold number at h
  rw [bytesAt_take hsize hword] at h
  unfold access
  rw [if_neg hnz, copyFromProc_eq s hpos hsize, hword, ← Option.some.inj h]
  rfl

theorem number_lt {addr : UInt64} {size n : ℕ} (h : s.number addr size = some n) :
    n < 256 ^ size := by
  obtain ⟨bytes, hbytes, rfl⟩ := Option.map_eq_some_iff.mp h
  exact (ByteOrder.leValue_lt bytes).trans_eq (congrArg (256 ^ ·) (length_bytesAt hbytes))

variable (s)

/-! ## Numbers -/

/-- The loop of `dwarf_read_uleb128` and `dwarf_read_sleb128`: the value, the shift and the last
byte. -/
def leb128 : ℕ → UInt64 → UInt64 → Reader (UInt64 × UInt64 × UInt8)
  | 0, _, _ => throw .running
  | passes + 1, val, shift => do
    let byte ← s.read8
    let val := val ||| (byte &&& 0x7f).toUInt64 <<< shift
    if byte &&& 0x80 = 0 then return (val, shift + 7, byte)
    else leb128 passes val (shift + 7)

def readUleb128 : Reader UInt64 := return (← s.leb128 s.passes 0 0).1

def readSleb128 : Reader UInt64 := do
  let (val, shift, byte) ← s.leb128 s.passes 0 0
  if shift < 64 ∧ byte &&& 0x40 ≠ 0 then return val ||| (0xffffffffffffffff : UInt64) <<< shift
  else return val

/-- An `int16_t` as an address. -/
def sval16 (val : UInt64) : UInt64 := val.toUInt16.toInt16.toInt64.toUInt64

/-- An `int32_t` as an address. -/
def sval32 (val : UInt64) : UInt64 := val.toUInt32.toInt32.toInt64.toUInt64

/-- The first `switch` of `dwarf_read_encoded_pointer`.  Without a place for the value, a number of
fixed size is passed over and counts as 0. -/
def readFormat (format : UInt8) (want : Bool) : Reader UInt64 :=
  let fixed (r : Reader UInt64) : Reader UInt64 := do
    let val ← r
    return if want then val else 0
  if format = 0x00 then fixed s.readw
  else if format = 0x01 then s.readUleb128
  else if format = 0x02 then fixed (s.read 2)
  else if format = 0x03 then fixed (s.read 4)
  else if format = 0x04 then fixed (s.read 8)
  else if format = 0x09 then s.readSleb128
  else if format = 0x0a then return sval16 (← fixed (s.read 2))
  else if format = 0x0b then return sval32 (← fixed (s.read 4))
  else if format = 0x0c then fixed (s.read 8)
  else Reader.fail .inval

/-- The second `switch`: 0 is a special value and always absolute.  `gp` is the global pointer of
the library. -/
def applyEncoding (gp : UInt64) (encoding : UInt8) (want : Bool)
    (initialAddr startIp val : UInt64) :
    Reader UInt64 :=
  if val = 0 then return 0
  else do
    let val ←
      if encoding &&& 0x70 = 0x00 then pure val
      else if encoding &&& 0x70 = 0x10 then pure (val + initialAddr)
      else if encoding &&& 0x70 = 0x30 then pure (val + gp)
      else if encoding &&& 0x70 = 0x40 then pure (val + startIp)
      else Reader.fail .inval
    let val := s.trim val
    if encoding &&& 0x80 = 0 then return val
    else if want then
      match s.access val s.addrSize with
      | .ok val => return val
      | .error e => throw e
    else return 0

/-- `dwarf_read_encoded_pointer_local`; `want` is whether there is a place for the value. -/
def readEncodedPointer (gp : UInt64) (encoding : UInt8) (want : Bool) (startIp : UInt64) :
    Reader UInt64 := do
  let initialAddr ← get
  if encoding = 0xff then return 0
  else if encoding = 0x50 then do
    set ((initialAddr + .ofNat s.addrSize - 1) &&& -.ofNat s.addrSize)
    let val ← s.readw
    return if want then val else 0
  else do
    let val ← s.readFormat (encoding &&& 0x0f) want
    s.applyEncoding gp encoding want initialAddr startIp val

end Space

/-- What is true of each address of a list can be decided for one after the other. -/
theorem forall_of_all {xs : List UInt64} {p : UInt64 → Prop} [DecidablePred p]
    (h : (xs.all fun x => decide (p x)) = true) : ∀ x ∈ xs, p x :=
  fun x hx => of_decide_eq_true (List.all_eq_true.mp h x hx)

end Mtrace.Dwarf
