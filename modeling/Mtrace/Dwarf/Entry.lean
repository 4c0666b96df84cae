import Mtrace.Dwarf.Reader

/-!
# Entries of the unwind tables

`parse_cie`, `dwarf_extract_cfi_from_fde` and `dwarf_search_unwind_table`: the entry of an
instruction pointer, found by a binary search, with the program that describes its frame.
-/

namespace Mtrace.Dwarf

open Server

/-- `*addr` and the entry that is filled in. -/
structure Parse where
  addr : UInt64
  dci : CieInfo
  deriving DecidableEq, Repr

abbrev Parser := EStateM Halt Parse

namespace Parser

def fail {α : Type} (e : DwarfError) : Parser α := throw (.error e)

def lift {α : Type} (r : Reader α) : Parser α := fun p =>
  match r p.addr with
  | .ok a addr => .ok a { p with addr }
  | .error e addr => .error e { p with addr }

instance : MonadLift Reader Parser := ⟨lift⟩

def getAddr : Parser UInt64 := return (← get).addr

def getDci : Parser CieInfo := return (← get).dci

def setDci (f : CieInfo → CieInfo) : Parser Unit := modify fun p => { p with dci := f p.dci }

/-- A call that gets the position by value. -/
def at' {α : Type} (addr : UInt64) (r : Parser α) : Parser α := fun p =>
  match r { p with addr } with
  | .ok a p' => .ok a { p' with addr := p.addr }
  | .error e p' => .error e { p' with addr := p.addr }

/-- Whether a call that may return an error code returns without one. -/
def succeeds {α : Type} (r : Reader α) : Parser Bool := fun p =>
  match r p.addr with
  | .ok _ addr => .ok true { p with addr }
  | .error (.error _) addr => .ok false { p with addr }
  | .error e addr => .error e { p with addr }

end Parser

namespace Space

variable (s : Space)

/-! ## The common part -/

/-- The loop that reads the augmentation string, of which four characters are kept. -/
def readAugstr : ℕ → List UInt8 → Reader (List UInt8)
  | 0, _ => throw .running
  | passes + 1, augstr => do
    let ch ← s.read8
    if ch = 0 then return augstr
    else readAugstr passes (if augstr.length < 4 then augstr ++ [ch] else augstr)

/-- The loop over the rest of the augmentation string; it returns the encoding of the FDE. -/
def parseAugstr (gp : UInt64) : List UInt8 → UInt8 → Parser UInt8
  | [], fdeEncoding => return fdeEncoding
  | ch :: augstr, fdeEncoding =>
    -- 'L'
    if ch = 0x4c then do
      let enc ← s.read8
      Parser.setDci fun dci => { dci with lsdaEncoding := enc }
      parseAugstr gp augstr fdeEncoding
    -- 'R'
    else if ch = 0x52 then do
      let enc ← s.read8
      parseAugstr gp augstr enc
    -- 'P', which goes on like 'S' when its pointer could be read
    else if ch = 0x50 then do
      let handlerEncoding ← s.read8
      let ok ← Parser.succeeds (s.readEncodedPointer gp handlerEncoding false 0)
      if ok then
        Parser.setDci fun dci => { dci with signalFrame := true, haveAbiMarker := true }
      parseAugstr gp augstr fdeEncoding
    -- 'S'
    else if ch = 0x53 then do
      Parser.setDci fun dci => { dci with signalFrame := true, haveAbiMarker := true }
      parseAugstr gp augstr fdeEncoding
    else do
      let dci ← Parser.getDci
      if dci.sizedAugmentation then return fdeEncoding
      else Parser.fail .inval

/-- The length and the id of a CIE; the result is its end. -/
def parseCieHeader : Reader UInt64 := do
  let u32val ← s.read 4
  if u32val ≠ 0xffffffff then do
    let cieEndAddr := (← get) + u32val
    let cieId ← s.read 4
    if cieId ≠ 0 then Reader.fail .inval
    else return cieEndAddr
  else do
    let u64val ← s.read 8
    let cieEndAddr := (← get) + u64val
    let cieId ← s.read 8
    if cieId ≠ 0 then Reader.fail .inval
    else return cieEndAddr

def parseCie (gp : UInt64) : Parser Unit := do
  Parser.setDci fun dci => { dci with lsdaEncoding := 0xff }
  let cieInstrEnd ← s.parseCieHeader
  Parser.setDci fun dci => { dci with cieInstrEnd }
  let version ← s.read8
  if version ≠ 3 ∧ version ≠ 1 then Parser.fail .badVersion
  let augstr ← s.readAugstr s.passes []
  let codeAlign ← s.readUleb128
  Parser.setDci fun dci => { dci with codeAlign }
  let dataAlign ← s.readSleb128
  Parser.setDci fun dci => { dci with dataAlign }
  -- `dwarf_to_regnum` returns an `unsigned int`
  let column ← if version = 1 then (do return (← s.read8).toUInt64) else s.readUleb128
  Parser.setDci fun dci => { dci with retAddrColumn := column.toUInt32.toUInt64 }
  let mut rest := augstr
  if augstr.head? = some 0x7a then
    Parser.setDci fun dci => { dci with sizedAugmentation := true }
    let _ ← s.readUleb128
    rest := augstr.tail
  let fdeEncoding ← s.parseAugstr gp rest (if s.is64bit then 0x04 else 0x03)
  let addr ← Parser.getAddr
  Parser.setDci fun dci => { dci with fdeEncoding, cieInstrStart := addr }

/-! ## The entry of a function -/

/-- The length of an FDE and the distance to its CIE: the end of the FDE and the address of the CIE,
if there is one. -/
def fdeHeader : Reader (UInt64 × Option UInt64) := do
  let u32val ← s.read 4
  if u32val ≠ 0xffffffff then
    if u32val = 0 then Reader.fail .noInfo
    else do
      let addr ← get
      let cieOffset := sval32 (← s.read 4)
      return (addr + u32val, if cieOffset = 0 then none else some (addr - cieOffset))
  else do
    let u64val ← s.read 8
    let addr ← get
    let cieOffset ← s.read 8
    return (addr + u64val, if cieOffset = 0 then none else some (addr - cieOffset))

/-- The size of the augmentation of an FDE, if it has one. -/
def fdeAugSize : Parser UInt64 := do
  if (← Parser.getDci).sizedAugmentation then s.readUleb128 else pure 0

/-- The ABI and the tag of a signal frame. -/
def fdeAbi : Parser Unit := do
  if (← Parser.getDci).haveAbiMarker then
    let abi ← s.read 2
    Parser.setDci fun dci => { dci with abi := abi.toUInt16 }
    let tag ← s.read 2
    Parser.setDci fun dci => { dci with tag := tag.toUInt16 }

/-- `dwarf_extract_cfi_from_fde` behind the initial location. -/
def fdeRest (gp : UInt64) (fdeEndAddr startIp : UInt64) : Parser Unit := do
  let dci ← Parser.getDci
  let ipRange ← s.readEncodedPointer gp (dci.fdeEncoding &&& 0x0f) true 0
  Parser.setDci fun dci => { dci with ipRange }
  let augSize ← s.fdeAugSize
  let addr ← Parser.getAddr
  Parser.setDci fun dci =>
    { dci with fdeInstrStart := addr + augSize, fdeInstrEnd := fdeEndAddr }
  let _ ← s.readEncodedPointer gp dci.lsdaEncoding false startIp
  s.fdeAbi

/-- `dwarf_extract_cfi_from_fde`. -/
def extractCfiFromFde (gp : UInt64) : Parser Unit := do
  let (fdeEndAddr, cieAddr) ← s.fdeHeader
  Parser.setDci fun _ => .zero
  match cieAddr with
  | none => return ()
  | some cieAddr => do
    Parser.at' cieAddr (s.parseCie gp)
    let dci ← Parser.getDci
    let startIp ← s.readEncodedPointer gp dci.fdeEncoding true 0
    Parser.setDci fun dci => { dci with startIp }
    s.fdeRest gp fdeEndAddr startIp

/-! ## The search -/

/-- `start_ip_offset` of an entry of the table. -/
def tableStartIp (fdeTab i : UInt64) : Int32 :=
  (s.word (fdeTab + 8 * i) 4).toUInt32.toInt32

/-- `fde_offset`, as an address. -/
def tableFde (fdeTab i : UInt64) : UInt64 := sval32 (s.word (fdeTab + 8 * i + 4) 4)

/-- The loop of `lookup`. -/
def lookupLoop (fdeTab : UInt64) (relIp : Int32) :
    ℕ → UInt64 → UInt64 → Option UInt64 → Except Halt (Option UInt64)
  | 0, _, _, _ => .error .running
  | passes + 1, lo, hi, f =>
    let mid := (lo + hi) / 2
    if relIp < s.tableStartIp fdeTab mid then
      if lo < mid then lookupLoop fdeTab relIp passes lo mid f else .ok f
    else if mid + 1 < hi then lookupLoop fdeTab relIp passes (mid + 1) hi (some mid)
    else .ok (some mid)

def lookup (fdeTab fdeCount : UInt64) (relIp : Int32) : Except Halt (Option UInt64) :=
  if fdeCount = 0 then .ok none else s.lookupLoop fdeTab relIp s.passes 0 fdeCount none

end Space

/-- The range check of `dwarf_search_unwind_table`. -/
def CieInfo.inRange (dci : CieInfo) (ip : UInt64) : Bool :=
  !(decide (ip < dci.startIp) || decide (ip ≥ dci.startIp + dci.ipRange))

/-- `dwarf_search_unwind_table`: what it returns, and the entry it leaves in the cursor. -/
def Space.searchUnwindTable (s : Space) (libref : Libref) (ip : UInt64) (dci : CieInfo) :
    Except Halt Unit × CieInfo :=
  match s.lookup libref.fdeTab libref.fdeCount (ip - libref.ehHdrVaddr).toUInt32.toInt32 with
  | .error e => (.error e, dci)
  | .ok none => (.error (.error .noInfo), dci)
  | .ok (some e) =>
    let fdeAddr := libref.mmapAddr + s.tableFde libref.fdeTab e + libref.ehHdrOffset
    match s.extractCfiFromFde libref.pltgot ⟨fdeAddr, dci⟩ with
    | .error e p => (.error e, p.dci)
    | .ok _ p =>
      let dci := { p.dci with
        startIp := s.trim (p.dci.startIp - libref.mmapAddr + libref.txtVaddr) }
      if dci.inRange ip then (.ok (), dci) else (.error (.error .noInfo), dci)

end Mtrace.Dwarf
