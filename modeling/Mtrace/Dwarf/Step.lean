import Mtrace.Orbit
import Mtrace.Dwarf.Cfi

/-!
# A step to the caller

`dwarf_step`: the frame of the caller by the unwind tables, else by the frame pointer, else by a
guess: the first word above the CFA that looks like the address behind a call.
-/

namespace Mtrace.Dwarf

open Server

namespace Space

variable (s : Space)

/-- `dwarf_locate_map`, for those who go on only with a library. -/
def locate (ip : UInt64) : Unwinder Unit := fun c =>
  match s.locateMap c ip with
  | (true, c) => .ok () c
  | (false, c) => .error (.error .noInfo) c

/-- `fetch_proc_info`. -/
def fetchProcInfo (ip : UInt64) : Unwinder UInt64 := fun c =>
  match c.libref with
  | none => .error (.crash "SIGSEGV") c
  | some libref =>
    match s.searchUnwindTable libref ip c.dci with
    | (.ok (), dci) => .ok libref.pltgot { c with dci, usePrevInstr := !dci.signalFrame }
    | (.error h, dci) => .error h { c with dci }

/-- The part of `dwarf_step` that goes by the tables. -/
def tableStep (ip : UInt64) : Unwinder Unit := do
  let gp ← s.fetchProcInfo ip
  let rs ← s.parseFde gp ip
  s.applyRegState rs
  s.locate (← get).ip

/-- All registers are marked unsaved. -/
def clearLoc (c : Cursor) : Cursor :=
  { c with loc := fun i => if i < s.numRegs then .null else c.loc i }

/-- The end of `dwarf_arch_step`, by the value of the frame pointer. -/
def chainStep (rbp : UInt64) : Unwinder Unit := fun c =>
  let size := UInt64.ofNat s.addrSize
  if c.cfa < rbp ∧ rbp - c.cfa ≤ 128 * 1024 then
    let c := { (c.setLoc s.bpReg (.ofMem rbp)).setLoc s.ipReg (.ofMem (rbp + size)) with
      cfa := rbp + size * 2
      usePrevInstr := false
      retAddrColumn := .ofNat s.ipReg }
    match s.callerIp c with
    | .ok ip => .ok () { c with ip }
    | .error h => .error h c
  -- the CFA is as it was
  else .error (.error .badFrame) c

/-- `dwarf_arch_step`; `is_plt_entry` never finds one. -/
def archStep : Unwinder Unit := fun c =>
  if c.dci.signalFrame then .error (.error .badFrame) c
  else if c.loc s.bpReg = .null then .ok () { c with ip := 0 }
  else
    match s.dwarfGet (c.loc s.bpReg) with
    | .error h => .error h (s.clearLoc c)
    | .ok rbp => s.chainStep rbp (s.clearLoc c)

/-- `dwarf_step` up to the guess. -/
def unwindStep : Unwinder Unit := fun c =>
  let ip := if c.usePrevInstr then c.ip - 1 else c.ip
  match s.tableStep ip c with
  | .error (.error .noInfo) c => (do s.archStep; s.locate (← get).ip : Unwinder Unit) { c with ip }
  | .error (.error e) c => .error (.error e) { c with ip }
  | r => r

end Space

/-! ## The guess -/

/-- `struct call_op`; the mask and the opcode of each byte. -/
structure CallOp where
  off : UInt64
  bytes : List (UInt8 × UInt8)
  deriving DecidableEq, Repr

/-- `call_op`. -/
def callOp : List CallOp :=
  [⟨5, [(0xff, 0xe8)]⟩, ⟨3, [(0xff, 0xff), (0xff, 0x14)]⟩, ⟨2, [(0xff, 0xff), (0xfc, 0x10)]⟩,
    ⟨4, [(0xff, 0xff), (0xff, 0x54)]⟩, ⟨3, [(0xff, 0xff), (0xfc, 0x50)]⟩,
    ⟨7, [(0xff, 0xff), (0xff, 0x94)]⟩, ⟨6, [(0xff, 0xff), (0xfc, 0x90)]⟩,
    ⟨2, [(0xff, 0xff), (0xfc, 0xd0)]⟩]

/-- What a call of `copy_from_proc` for the 512 bytes of `buf` does: the bytes that it writes, and
whether it returns -1 instead of their number. -/
structure Copy where
  written : List UInt8
  fits : written.length ≤ 512
  failed : Bool

/-- The count that it returns, as a `size_t`. -/
def Copy.size (copy : Copy) : UInt64 :=
  if copy.failed then 0xffffffffffffffff else .ofNat copy.written.length

/-- The local variables of the loops; `buf` is uninitialised at first. -/
structure GuessState where
  off : ℕ
  i : UInt64
  n : UInt64
  buf : List UInt8
  cursor : Cursor

namespace Space

variable (s : Space)

/-- The bytes at an address of the image are those of a call instruction. -/
def matchesOp (addr : UInt64) : List (UInt8 × UInt8) → Bool
  | [] => true
  | (mask, op) :: bytes => (s.image addr &&& mask == op) && matchesOp (addr + 1) bytes

/-- `dwarf_arch_check_call`. -/
def checkCall (libref : Libref) (ip : UInt64) : Bool :=
  callOp.any fun p => decide (p.off ≤ ip - libref.txtVaddr) &&
    s.matchesOp (libref.mmapAddr + ip - p.off - libref.txtVaddr) p.bytes

/-- Whether a word is taken for a return address, and the cursor with its library. -/
def isGuess (c : Cursor) (ip : UInt64) : Bool × Cursor :=
  let (found, c) := s.locateMap c ip
  (found && c.libref.any (s.checkCall · ip), c)

/-- `getval`. -/
def getval (buf : List UInt8) (i : UInt64) : UInt64 :=
  .ofNat (ByteOrder.leValue ((buf.drop i.toNat).take s.addrSize))

/-- The cursor at a guess. -/
def takeGuess (cfa ip : UInt64) (c : Cursor) : Cursor :=
  { s.clearLoc c with cfa, ip, retAddrColumn := 0 }

/-- The next pass of the outer loop, which copies into `buf`.  It is the same address for all of
them. -/
def guessChunk (copies : ℕ → UInt64 → Copy) (cfa : UInt64) (off : ℕ) (buf : List UInt8)
    (cursor : Cursor) : GuessState :=
  let copy := copies off cfa
  { off, i := 0, n := copy.size, buf := copy.written ++ buf.drop copy.written.length, cursor }

/-- A pass of the inner loop, or what is behind it; the result is whether there is a guess. -/
def guessStep (copies : ℕ → UInt64 → Copy) (cfa : UInt64) (st : GuessState) :
    GuessState ⊕ Except Halt (Bool × Cursor) :=
  let size := UInt64.ofNat s.addrSize
  if st.i + size ≤ st.n then
    -- a word behind the end of `buf`
    if 512 < st.i + size then .inr (.error (.crash "SIGSEGV"))
    else
      let ip := s.getval st.buf st.i
      match s.isGuess st.cursor ip with
      | (true, c) => .inr (.ok (true, s.takeGuess (cfa + st.i + size) ip c))
      | (false, cursor) => .inl { st with i := st.i + size, cursor }
  else if st.n < 512 then .inr (.ok (false, st.cursor))
  else if st.off + 512 ≤ 4096 then
    .inl (guessChunk copies cfa (st.off + 512) st.buf st.cursor)
  else .inr (.ok (false, st.cursor))

/-- What `copy_from_proc` does in a pass of the outer loop. -/
def copied (_ : ℕ) (addr : UInt64) : Copy where
  written := (Server.copyFromProc s.proc s.vm s.errno s.nosys addr 512).dst.take 512
  fits := List.length_take_le 512 _
  failed := decide ((Server.copyFromProc s.proc s.vm s.errno s.nosys addr 512).ret < 0)

/-- The loops; there are 129 passes at most in a chunk. -/
def guessCaller (copies : ℕ → UInt64 → Copy) (cfa : UInt64) (buf : List UInt8) (c : Cursor) :
    Except Halt (Bool × Cursor) :=
  match Orbit.run (s.guessStep copies cfa) (9 * 129) (guessChunk copies cfa 0 buf c) with
  | .inl _ => .error .running
  | .inr r => r

/-- `dwarf_step`. -/
def dwarfStep (copies : ℕ → UInt64 → Copy) (buf : List UInt8) : Unwinder Unit := fun c =>
  if c.valid = false then .error (.error .inval) c
  else
    match s.unwindStep c with
    | .error (.error e) c' =>
      match s.guessCaller copies c.cfa buf c' with
      | .ok (true, c') => .ok () c'
      | .ok (false, c') => .error (.error e) { c' with valid := false }
      | .error h => .error h c'
    | r => r

end Space

end Mtrace.Dwarf
