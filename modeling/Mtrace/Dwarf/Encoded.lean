import Mtrace.Orbit
import Mtrace.Dwarf.Operands

/-!
# Encoded numbers

`dwarf_read_uleb128`, `dwarf_read_sleb128` and `dwarf_read_encoded_pointer` in full: they read from
an image of the server where `as` is null, else from the task, and may be called without a place for
the value. -/

namespace Mtrace.Dwarf

open Leb128

namespace Space

variable (s : Space) (inTask : Bool)

/-! ## Reading -/

/-- `dwarf_access_mem`; without a place for the value nothing is looked at. -/
def accessMem (want : Bool) (addr : UInt64) (size : ℕ) : Except Halt UInt64 :=
  if addr = 0 then .error (.error .inval)
  else if want = false then .ok 0
  else if inTask then
    match s.copyFromProc addr size with
    | some val => .ok val
    | none => .error (.error .inval)
  else .ok (s.word addr size)

/-- `dwarf_read8`, `dwarf_read16`, `dwarf_read32` and `dwarf_read64`. -/
def readMem (want : Bool) (size : ℕ) : Reader UInt64 := fun addr =>
  match s.accessMem inTask want addr size with
  | .ok val => .ok val (addr + .ofNat size)
  | .error e => .error e addr

/-- `dwarf_readw`, which reads into a variable of its own. -/
def readWord (want : Bool) : Reader UInt64 := do
  let val ← s.readMem inTask true s.addrSize
  return if want then val else 0

/-- What the loop over a LEB128 number has in its variables. -/
structure LebPass where
  addr : UInt64
  val : UInt64
  shift : UInt64

/-- A pass of that loop; at its end, the value, the shift and the last byte. -/
def lebPass (st : LebPass) : LebPass ⊕ EStateM.Result Halt UInt64 (UInt64 × UInt64 × UInt8) :=
  match s.readMem inTask true 1 st.addr with
  | .error e addr => .inr (.error e addr)
  | .ok byte addr =>
    let byte := byte.toUInt8
    let val := st.val ||| (byte &&& 0x7f).toUInt64 <<< st.shift
    if byte &&& 0x80 = 0 then .inr (.ok (val, st.shift + 7, byte) addr)
    else .inl ⟨addr, val, st.shift + 7⟩

def lebLoop : Reader (UInt64 × UInt64 × UInt8) := fun addr =>
  match Orbit.run (s.lebPass inTask) s.passes ⟨addr, 0, 0⟩ with
  | .inl st => .error .running st.addr
  | .inr r => r

/-- `dwarf_read_uleb128`. -/
def dwarfReadUleb128 : Reader UInt64 := return (← s.lebLoop inTask).1

/-- `dwarf_read_sleb128`. -/
def dwarfReadSleb128 : Reader UInt64 := do
  let (val, shift, byte) ← s.lebLoop inTask
  if shift < 64 ∧ byte &&& 0x40 ≠ 0 then return val ||| (0xffffffffffffffff : UInt64) <<< shift
  else return val

/-- The first `switch` of `dwarf_read_encoded_pointer`. -/
def encodedFormat (want : Bool) (format : UInt8) : Reader UInt64 :=
  if format = 0x00 then s.readWord inTask want
  else if format = 0x01 then s.dwarfReadUleb128 inTask
  else if format = 0x02 then s.readMem inTask want 2
  else if format = 0x03 then s.readMem inTask want 4
  else if format = 0x04 then s.readMem inTask want 8
  else if format = 0x09 then s.dwarfReadSleb128 inTask
  else if format = 0x0a then return sval16 (← s.readMem inTask want 2)
  else if format = 0x0b then return sval32 (← s.readMem inTask want 4)
  else if format = 0x0c then s.readMem inTask want 8
  else Reader.fail .inval

/-- `dwarf_read_encoded_pointer`; `want` is whether there is a place for the value.  An indirect
pointer is always in the task. -/
def dwarfReadEncodedPointer (gp : UInt64) (encoding : UInt8) (want : Bool) (startIp : UInt64) :
    Reader UInt64 := do
  let initialAddr ← get
  if encoding = 0xff then return 0
  else if encoding = 0x50 then do
    set ((initialAddr + .ofNat s.addrSize - 1) &&& -.ofNat s.addrSize)
    s.readWord inTask want
  else do
    let val ← s.encodedFormat inTask want (encoding &&& 0x0f)
    s.applyEncoding gp encoding want initialAddr startIp val

end Space

/-! ## Bytes in memory -/

namespace Space

variable (s : Space) (inTask : Bool)

/-- A byte as `dwarf_access_mem` can read it: in the task it needs the word from there on. -/
def byteAt (addr : UInt64) : Option UInt8 :=
  if inTask then (Server.bytesAt s.proc addr 8).bind List.head? else some (s.image addr)

/-- Bytes that can be read from an address on. -/
def Holds : UInt64 → List UInt8 → Prop
  | _, [] => True
  | addr, b :: bs => addr ≠ 0 ∧ s.byteAt inTask addr = some b ∧ Holds (addr + 1) bs

/-- The same bytes in an image. -/
def mirror : Space := { s with image := fun addr => (s.byteAt inTask addr).getD 0 }

end Space

section Memory

variable {s : Space} {inTask : Bool} {a val shift : UInt64} {b : UInt8} {bs rest : List UInt8}
  {m : Leb}

theorem readMem_image (size : ℕ) : s.readMem false true size = s.read size := by
  funext addr
  show (match s.accessMem false true addr size with | .ok val => _ | .error e => _) = _
  unfold Space.accessMem
  by_cases h0 : addr = 0
  · rw [if_pos h0, h0]
    rfl
  · rw [if_neg h0, read_eq size h0]
    rfl

theorem readMem_byte (ha : a ≠ 0) (hb : s.byteAt inTask a = some b) :
    ∃ byte : UInt64, byte.toUInt8 = b ∧ s.readMem inTask true 1 a = .ok byte (a + 1) := by
  have hone : (UInt64.ofNat (ByteOrder.leValue [b])).toUInt8 = b := by
    apply UInt8.toNat_inj.mp
    simp [ByteOrder.leValue_cons]
  refine ⟨_, hone, ?_⟩
  unfold Space.readMem Space.accessMem
  rw [if_neg ha]
  unfold Space.byteAt at hb
  cases inTask with
  | false =>
    cases Option.some.inj hb
    have hword : s.word a 1 = .ofNat (ByteOrder.leValue [s.image a]) := word_eq_block a 1
    rw [← hword]
    rfl
  | true =>
    have hcopy : s.copyFromProc a 1 = some (.ofNat (ByteOrder.leValue [b])) := by
      obtain ⟨word, hword, hhead⟩ := Option.bind_eq_some_iff.mp hb
      obtain ⟨rest, rfl⟩ := List.head?_eq_some_iff.mp hhead
      rw [s.copyFromProc_eq (by decide) (by decide), hword]
      rfl
    rw [hcopy]
    rfl

/-- A pass over a byte that can be read. -/
theorem lebPass_byte (ha : a ≠ 0) (hb : s.byteAt inTask a = some b) :
    s.lebPass inTask ⟨a, val, shift⟩ =
      if b &&& 0x80 = 0 then
        .inr (.ok (val ||| (b &&& 0x7f).toUInt64 <<< shift, shift + 7, b) (a + 1))
      else .inl ⟨a + 1, val ||| (b &&& 0x7f).toUInt64 <<< shift, shift + 7⟩ := by
  obtain ⟨byte, rfl, hread⟩ := readMem_byte ha hb
  unfold Space.lebPass
  dsimp only
  rw [hread]

theorem holds_mirror (h : s.Holds inTask a bs) : (s.mirror inTask).Holds false a bs := by
  induction bs generalizing a with
  | nil => trivial
  | cons b bs ih =>
    obtain ⟨ha, hb, hbs⟩ := h
    refine ⟨ha, ?_, ih hbs⟩
    show some ((s.byteAt inTask a).getD 0) = some b
    rw [hb]
    rfl

theorem block_of_holds (h : s.Holds false a bs) : s.block a bs.length = bs := by
  induction bs generalizing a with
  | nil => rfl
  | cons b bs ih =>
    obtain ⟨-, hb, hbs⟩ := h
    have hbyte : s.image a = b := Option.some.inj hb
    rw [List.length_cons, Space.block, hbyte, ih hbs]

/-- Bytes that can be read do not go around the end of the addresses. -/
theorem fits_of_holds (h : s.Holds inTask a bs) :
    bs = [] ∨ a ≠ 0 ∧ a.toNat + bs.length ≤ 2 ^ 64 := by
  induction bs generalizing a with
  | nil => exact .inl rfl
  | cons b bs ih =>
    obtain ⟨ha, -, hbs⟩ := h
    have hlt := a.toNat_lt
    refine .inr ⟨ha, ?_⟩
    obtain rfl | ⟨hnext, hfits⟩ := ih hbs
    · exact hlt
    · have hsucc : (a + 1).toNat = (a.toNat + 1) % 2 ^ 64 := UInt64.toNat_add a 1
      have hpos : (a + 1).toNat ≠ 0 := fun h0 => hnext (UInt64.toNat_inj.mp h0)
      rw [List.length_cons]
      omega

/-- The loop sees the bytes of the number alone. -/
theorem run_mirror (h : s.Holds inTask a bs) (hdecode : decode bs = some (m, rest)) (p : ℕ) :
    Orbit.run (s.lebPass inTask) p ⟨a, val, shift⟩ =
      Orbit.run ((s.mirror inTask).lebPass false) p ⟨a, val, shift⟩ := by
  induction p generalizing a val shift bs m with
  | zero => rfl
  | succ p ih =>
    cases bs with
    | nil => cases hdecode
    | cons b bs =>
      obtain ⟨ha, hb, hbs⟩ := h
      have hholds : s.Holds inTask a (b :: bs) := ⟨ha, hb, hbs⟩
      obtain ⟨-, hb', -⟩ := holds_mirror hholds
      rw [Orbit.run, Orbit.run, lebPass_byte ha hb, lebPass_byte ha hb']
      by_cases hlast : b &&& 0x80 = 0
      · rw [if_pos hlast]
      · rw [if_neg hlast]
        obtain ⟨m, hm, -⟩ := decode_more (fun hlt => hlast ((last_iff b).mpr hlt)) hdecode
        exact ih hbs hm

/-- In an image, the loop is that of the numbers there. -/
theorem lebLoop_image : s.lebLoop false = s.leb128 s.passes 0 0 := by
  have hrun (p : ℕ) (val shift addr : UInt64) :
      (match Orbit.run (s.lebPass false) p ⟨addr, val, shift⟩ with
        | .inl st => .error .running st.addr
        | .inr r => r) = s.leb128 p val shift addr := by
    induction p generalizing val shift addr with
    | zero => rfl
    | succ p ih =>
      by_cases h0 : addr = 0
      · rw [h0]
        rfl
      · rw [Orbit.run, lebPass_byte h0 rfl, leb128_succ p val shift h0]
        by_cases hlast : s.image addr &&& 0x80 = 0
        · rw [if_pos hlast, if_pos hlast]
        · rw [if_neg hlast, if_neg hlast]
          exact ih ..
  funext addr
  exact hrun s.passes 0 0 addr

theorem lebLoop_mirror (h : s.Holds inTask a bs) (hdecode : decode bs = some (m, rest)) :
    s.lebLoop inTask a = (s.mirror inTask).leb128 s.passes 0 0 a := by
  have himage : (s.mirror inTask).lebLoop false = (s.mirror inTask).leb128 s.passes 0 0 :=
    lebLoop_image
  rw [← himage]
  unfold Space.lebLoop
  rw [run_mirror h hdecode]
  rfl

end Memory

/-! ## LEB128 numbers -/

/-- No shift of the loop is as wide as the number. -/
def Space.ShiftsInside (s : Space) (inTask : Bool) (a : UInt64) : Prop :=
  ∀ st, Orbit.Reaches (s.lebPass inTask) ⟨a, 0, 0⟩ st → st.shift < 64

section Numbers

variable {s : Space} {inTask : Bool} {a : UInt64} {bs rest : List UInt8} {m : Leb} {n : ℕ}

theorem shiftsInside_of_holds (h : s.Holds inTask a bs) (hdecode : decode bs = some (m, rest))
    (hshort : m.size ≤ 10) : s.ShiftsInside inTask a := by
  intro st hst
  -- behind `k` groups the rest of the number is there
  have hinv : ∃ (k : ℕ) (m : Leb) (bs : List UInt8), st.shift = .ofNat (7 * k) ∧ k + m.size ≤ 10 ∧
      s.Holds inTask st.addr bs ∧ decode bs = some (m, rest) := by
    apply Orbit.Reaches.invariant _ _ hst
    · rintro x y ⟨k, m, bs, hshift, hsize, hbs, hm⟩ hstep
      cases bs with
      | nil => cases hm
      | cons b bs =>
        obtain ⟨ha, hb, hbs⟩ := hbs
        have hpass : s.lebPass inTask x = _ := lebPass_byte ha hb
        rw [hpass] at hstep
        split at hstep
        case isTrue => cases hstep
        case isFalse hmore =>
          cases hstep
          obtain ⟨m', hm', rfl⟩ := decode_more (fun hlt => hmore ((last_iff b).mpr hlt)) hm
          dsimp only at hsize
          refine ⟨k + 1, m', bs, ?_, by omega, hbs, hm'⟩
          dsimp only
          rw [hshift, Nat.mul_succ, UInt64.ofNat_add]
          rfl
    · exact ⟨0, m, bs, rfl, by omega, h, hdecode⟩
  obtain ⟨k, m', bs', hshift, hsize, -, hm'⟩ := hinv
  have hpos := size_pos hm'
  rw [hshift, UInt64.lt_iff_toNat_lt, toNat_ofNat_of_lt (by omega)]
  show 7 * k < 64
  omega

theorem ofInt_toInt (v : Int64) : UInt64.ofInt v.toInt = v.toUInt64 := by
  have hvalue : UInt64.ofInt v.toInt = (Int64.ofInt v.toInt).toUInt64 := by
    apply UInt64.toNat_inj.mp
    rw [toNat_ofInt]
    exact (BitVec.toNat_ofInt ..).symm
  rw [hvalue, Int64.ofInt_toInt]

/-- The bytes of a number as a block of the mirror. -/
theorem block_mirror (h : s.Holds inTask a bs) (hdecode : decode bs = some (m, rest)) :
    decode ((s.mirror inTask).block a bs.length) = some (m, rest) ∧ a ≠ 0 ∧
      a.toNat + bs.length ≤ 2 ^ 64 := by
  obtain rfl | hfits := fits_of_holds h
  · cases hdecode
  rw [block_of_holds (holds_mirror h)]
  exact ⟨hdecode, hfits⟩

theorem dwarfReadUleb128_holds (h : s.Holds inTask a bs) (hdecode : decode bs = some (m, rest))
    (hshort : m.size ≤ 10) (hp : 10 ≤ s.passes) :
    s.dwarfReadUleb128 inTask a = .ok (.ofNat m.value) (a + .ofNat m.size) := by
  obtain ⟨hblock, ha, hfits⟩ := block_mirror h hdecode
  have hread : (s.mirror inTask).readUleb128 a = .ok (.ofNat m.value) (a + .ofNat m.size) :=
    readUleb128_eq hblock hshort ha hfits hp
  have hloop := lebLoop_mirror h hdecode
  rw [← hread]
  show EStateM.bind (s.lebLoop inTask) _ a =
    EStateM.bind ((s.mirror inTask).leb128 s.passes 0 0) _ a
  unfold EStateM.bind
  rw [hloop]

theorem dwarfReadSleb128_holds (h : s.Holds inTask a bs) (hdecode : decode bs = some (m, rest))
    (hshort : m.size ≤ 10) (hp : 10 ≤ s.passes) :
    s.dwarfReadSleb128 inTask a = .ok (.ofInt m.signed) (a + .ofNat m.size) := by
  obtain ⟨hblock, ha, hfits⟩ := block_mirror h hdecode
  have hread : (s.mirror inTask).readSleb128 a = .ok (.ofInt m.signed) (a + .ofNat m.size) :=
    readSleb128_eq hblock hshort ha hfits hp
  have hloop := lebLoop_mirror h hdecode
  rw [← hread]
  show EStateM.bind (s.lebLoop inTask) _ a =
    EStateM.bind ((s.mirror inTask).leb128 s.passes 0 0) _ a
  unfold EStateM.bind
  rw [hloop]

end Numbers

/-- A number in one to ten groups is read back, and the shifts of the loop are less than 64: those
that are not negative as ULEB128, and those with a sign as SLEB128. -/
theorem leb128_inverts (s : Space) (inTask : Bool) (a : UInt64) (n : ℕ) (hn : n ≤ 9)
    (hp : 10 ≤ s.passes) :
    (∀ v : UInt64, v.toNat < 128 ^ (n + 1) → s.Holds inTask a (encode n v.toNat) →
      s.dwarfReadUleb128 inTask a = .ok v (a + .ofNat (n + 1)) ∧ s.ShiftsInside inTask a) ∧
    ∀ v : Int64, -(64 * 128 ^ n) ≤ v.toInt → v.toInt < 64 * 128 ^ n →
      s.Holds inTask a (encode n v.toInt) →
      s.dwarfReadSleb128 inTask a = .ok v.toUInt64 (a + .ofNat (n + 1)) ∧
        s.ShiftsInside inTask a := by
  constructor
  · intro v hv h
    obtain ⟨negative, hdecode⟩ := value_encode (n := n) (Int.natCast_nonneg v.toNat)
      (by exact_mod_cast hv) []
    rw [List.append_nil] at hdecode
    have hshort : n + 1 ≤ 10 := by omega
    refine ⟨?_, shiftsInside_of_holds h hdecode hshort⟩
    have hread := dwarfReadUleb128_holds h hdecode hshort hp
    rw [Int.toNat_natCast, UInt64.ofNat_toNat] at hread
    exact hread
  · intro v hlow hhigh h
    obtain ⟨m, hdecode, hsize, hsigned⟩ := signed_encode hlow hhigh []
    rw [List.append_nil] at hdecode
    have hshort : m.size ≤ 10 := by omega
    refine ⟨?_, shiftsInside_of_holds h hdecode hshort⟩
    have hread := dwarfReadSleb128_holds h hdecode hshort hp
    rw [hsigned, hsize, ofInt_toInt] at hread
    exact hread

/-- An image that begins with -129 as SLEB128, in three groups. -/
def paddedLeb : Space where
  is64bit := true
  image addr := [0xff, 0xfe, 0x7f].getD (addr.toNat - 0x1000) 0
  proc _ := none
  vm _ _ := .error .enosys
  errno _ := .eio
  nosys := false
  regs _ := 0
  libs := .nil
  passes := 10

theorem leb128_inverts_padded :
    paddedLeb.dwarfReadUleb128 false 0x1000 = .ok 0x1fff7f 0x1003 ∧
      paddedLeb.dwarfReadSleb128 false 0x1000 = .ok (-129) 0x1003 := by
  obtain ⟨hunsigned, hsigned⟩ := leb128_inverts paddedLeb false 0x1000 2 (by decide) le_rfl
  have hbytes : paddedLeb.Holds false 0x1000 [0xff, 0xfe, 0x7f] :=
    ⟨by decide, by decide +kernel, by decide, by decide +kernel, by decide, by decide +kernel,
      trivial⟩
  exact ⟨(hunsigned 0x1fff7f (by decide) hbytes).1,
    (hsigned (-129) (by decide) (by decide) hbytes).1⟩

/-! ## Encoded pointers -/

section Pointers

variable {s : Space} {inTask : Bool} {gp startIp initialAddr a a' v : UInt64}
  {encoding format : UInt8}

/-- In an image, a number that is passed over is read and dropped. -/
theorem readMem_want (want : Bool) (size : ℕ) :
    s.readMem false want size = (do
      let val ← s.read size
      return if want then val else 0 : Reader UInt64) := by
  funext addr
  rw [← readMem_image]
  show (match s.accessMem false want addr size with | .ok val => _ | .error e => _) =
    EStateM.bind (s.readMem false true size) _ addr
  unfold EStateM.bind Space.readMem Space.accessMem
  by_cases h0 : addr = 0
  · rw [if_pos h0, if_pos h0]
  · rw [if_neg h0, if_neg h0]
    cases want <;> rfl

theorem dwarfReadUleb128_image : s.dwarfReadUleb128 false = s.readUleb128 := by
  unfold Space.dwarfReadUleb128 Space.readUleb128
  rw [lebLoop_image]

theorem dwarfReadSleb128_image : s.dwarfReadSleb128 false = s.readSleb128 := by
  unfold Space.dwarfReadSleb128 Space.readSleb128
  rw [lebLoop_image]

/-- In an image, the pointers are those of `dwarf_read_encoded_pointer_local`. -/
theorem dwarfReadEncodedPointer_image (want : Bool) :
    s.dwarfReadEncodedPointer false gp encoding want startIp =
      s.readEncodedPointer gp encoding want startIp := by
  have hword : s.readWord false want = (do
      let val ← s.readw
      return if want then val else 0 : Reader UInt64) := by
    unfold Space.readWord Space.readw
    rw [readMem_image]
  have hformat : s.encodedFormat false want = fun format => s.readFormat format want := by
    funext format
    unfold Space.encodedFormat Space.readFormat
    rw [hword, dwarfReadUleb128_image, dwarfReadSleb128_image, readMem_want, readMem_want,
      readMem_want]
  unfold Space.dwarfReadEncodedPointer Space.readEncodedPointer
  rw [hword, hformat]

/-- A number of fixed size is passed over where it can be read. -/
theorem readMem_skip {size : ℕ} (h : s.readMem inTask true size a = .ok v a') :
    s.readMem inTask false size a = .ok 0 a' := by
  unfold Space.readMem at h ⊢
  cases hread : s.accessMem inTask true a size with
  | error e =>
    rw [hread] at h
    cases h
  | ok val =>
    rw [hread] at h
    cases h
    unfold Space.accessMem at hread ⊢
    by_cases h0 : a = 0
    · rw [if_pos h0] at hread
      cases hread
    · rw [if_neg h0]
      rfl

theorem readWord_skip (h : s.readWord inTask true a = .ok v a') :
    s.readWord inTask false a = .ok 0 a' := by
  obtain ⟨val, a1, hread, h⟩ := bind_eq_ok.mp h
  obtain ⟨-, rfl⟩ := pure_eq_ok.mp h
  exact bind_eq_ok.mpr ⟨val, a1, hread, rfl⟩

/-- A number that is passed over is 0, unless it is read all the same. -/
theorem encodedFormat_skip (h : s.encodedFormat inTask true format a = .ok v a') :
    ∃ v', s.encodedFormat inTask false format a = .ok v' a' ∧ (v' = v ∨ v' = 0) := by
  unfold Space.encodedFormat at h ⊢
  by_cases h00 : format = 0x00
  · rw [if_pos h00] at h ⊢
    exact ⟨0, readWord_skip h, .inr rfl⟩
  rw [if_neg h00] at h ⊢
  by_cases h01 : format = 0x01
  · rw [if_pos h01] at h ⊢
    exact ⟨v, h, .inl rfl⟩
  rw [if_neg h01] at h ⊢
  by_cases h02 : format = 0x02
  · rw [if_pos h02] at h ⊢
    exact ⟨0, readMem_skip h, .inr rfl⟩
  rw [if_neg h02] at h ⊢
  by_cases h03 : format = 0x03
  · rw [if_pos h03] at h ⊢
    exact ⟨0, readMem_skip h, .inr rfl⟩
  rw [if_neg h03] at h ⊢
  by_cases h04 : format = 0x04
  · rw [if_pos h04] at h ⊢
    exact ⟨0, readMem_skip h, .inr rfl⟩
  rw [if_neg h04] at h ⊢
  by_cases h09 : format = 0x09
  · rw [if_pos h09] at h ⊢
    exact ⟨v, h, .inl rfl⟩
  rw [if_neg h09] at h ⊢
  by_cases h0a : format = 0x0a
  · rw [if_pos h0a] at h ⊢
    obtain ⟨val, a1, hread, h⟩ := bind_eq_ok.mp h
    obtain ⟨-, rfl⟩ := pure_eq_ok.mp h
    exact ⟨0, bind_eq_ok.mpr ⟨0, a1, readMem_skip hread, rfl⟩, .inr rfl⟩
  rw [if_neg h0a] at h ⊢
  by_cases h0b : format = 0x0b
  · rw [if_pos h0b] at h ⊢
    obtain ⟨val, a1, hread, h⟩ := bind_eq_ok.mp h
    obtain ⟨-, rfl⟩ := pure_eq_ok.mp h
    exact ⟨0, bind_eq_ok.mpr ⟨0, a1, readMem_skip hread, rfl⟩, .inr rfl⟩
  rw [if_neg h0b] at h ⊢
  by_cases h0c : format = 0x0c
  · rw [if_pos h0c] at h ⊢
    exact ⟨0, readMem_skip h, .inr rfl⟩
  · rw [if_neg h0c] at h
    cases h

/-- An indirect pointer is followed for its value alone. -/
theorem indirect_of_want {val : UInt64}
    (h : (if encoding &&& 0x80 = 0 then return s.trim val
      else if true then
        match s.access (s.trim val) s.addrSize with
        | .ok val => return val
        | .error e => throw e
      else return 0 : Reader UInt64) a = .ok v a') :
    a' = a ∧ ∃ v', (if encoding &&& 0x80 = 0 then return s.trim val
      else if false then
        match s.access (s.trim val) s.addrSize with
        | .ok val => return val
        | .error e => throw e
      else return 0 : Reader UInt64) a = .ok v' a := by
  by_cases hdirect : encoding &&& 0x80 = 0
  · rw [if_pos hdirect] at h ⊢
    exact ⟨(pure_eq_ok.mp h).2.symm, s.trim val, rfl⟩
  · rw [if_neg hdirect, if_pos rfl] at h
    rw [if_neg hdirect]
    refine ⟨?_, 0, rfl⟩
    cases hget : s.access (s.trim val) s.addrSize with
    | ok w =>
      rw [hget] at h
      exact (pure_eq_ok.mp h).2.symm
    | error e =>
      rw [hget] at h
      cases h

/-- Where a number can be applied, that needs no place for the value. -/
theorem applyEncoding_of_want {val : UInt64}
    (h : s.applyEncoding gp encoding true initialAddr startIp val a = .ok v a') :
    a' = a ∧ ∃ v', s.applyEncoding gp encoding false initialAddr startIp val a = .ok v' a := by
  unfold Space.applyEncoding at h ⊢
  by_cases hzero : val = 0
  · rw [if_pos hzero] at h ⊢
    exact ⟨(pure_eq_ok.mp h).2.symm, 0, rfl⟩
  rw [if_neg hzero] at h ⊢
  by_cases habs : encoding &&& 0x70 = 0x00
  · rw [if_pos habs] at h ⊢
    exact indirect_of_want h
  rw [if_neg habs] at h ⊢
  by_cases hpc : encoding &&& 0x70 = 0x10
  · rw [if_pos hpc] at h ⊢
    exact indirect_of_want h
  rw [if_neg hpc] at h ⊢
  by_cases hdata : encoding &&& 0x70 = 0x30
  · rw [if_pos hdata] at h ⊢
    exact indirect_of_want h
  rw [if_neg hdata] at h ⊢
  by_cases hfunc : encoding &&& 0x70 = 0x40
  · rw [if_pos hfunc] at h ⊢
    exact indirect_of_want h
  · rw [if_neg hfunc] at h
    cases h

end Pointers

/-- Where a pointer is read, it is passed over to the same address. -/
theorem dwarfReadEncodedPointer_skips (s : Space) (inTask : Bool) (gp : UInt64) (encoding : UInt8)
    (startIp a a' v : UInt64)
    (h : s.dwarfReadEncodedPointer inTask gp encoding true startIp a = .ok v a') :
    ∃ v', s.dwarfReadEncodedPointer inTask gp encoding false startIp a = .ok v' a' := by
  unfold Space.dwarfReadEncodedPointer at h ⊢
  obtain ⟨initialAddr, a1, hget, h⟩ := bind_eq_ok.mp h
  cases hget
  by_cases homit : encoding = 0xff
  · rw [if_pos homit] at h
    exact ⟨v, bind_eq_ok.mpr ⟨a, a, rfl, (congrFun (if_pos homit) a).trans h⟩⟩
  by_cases haligned : encoding = 0x50
  · rw [if_neg homit, if_pos haligned] at h
    obtain ⟨_, a2, hset, h⟩ := bind_eq_ok.mp h
    cases hset
    refine ⟨0, bind_eq_ok.mpr ⟨a, a, rfl, ?_⟩⟩
    rw [if_neg homit, if_pos haligned]
    exact bind_eq_ok.mpr ⟨(), _, rfl, readWord_skip h⟩
  rw [if_neg homit, if_neg haligned] at h
  obtain ⟨val, a2, hformat, h⟩ := bind_eq_ok.mp h
  obtain ⟨val', hskip, hval⟩ := encodedFormat_skip hformat
  obtain ⟨rfl, v', hv'⟩ := applyEncoding_of_want h
  have happly : ∃ v', s.applyEncoding gp encoding false a startIp val' a' = .ok v' a' := by
    obtain rfl | rfl := hval
    · exact ⟨v', hv'⟩
    · exact ⟨0, rfl⟩
  obtain ⟨w, hw⟩ := happly
  refine ⟨w, bind_eq_ok.mpr ⟨a, a, rfl, ?_⟩⟩
  rw [if_neg homit, if_neg haligned]
  exact bind_eq_ok.mpr ⟨val', a', hskip, hw⟩

/-- The three bytes at the start of the image as an unsigned number relative to the task's `gp`. -/
theorem dwarfReadEncodedPointer_skips_padded :
    ∃ v', paddedLeb.dwarfReadEncodedPointer false 0x8000 0x31 false 0 0x1000 = .ok v' 0x1003 :=
  dwarfReadEncodedPointer_skips paddedLeb false 0x8000 0x31 0 0x1000 0x1003 0x207f7f rfl

end Mtrace.Dwarf
