import Mtrace.Dwarf.Entry

/-!
# From an ELF file to its library

`elf_read` and `elf_lib_init` of `mtelf.c` and `dwarf_get_unwind_table`: the program headers of a
file decide which part of it is mapped into the server, and where its text and its unwind tables
are. The file can be opened and mapped, and has the symbol tables the server asks for. -/

namespace Mtrace.Dwarf

open Server

/-- `p_type`. -/
inductive PhdrType where
  | load
  | gnuEhFrame
  | interp
  | dynamic
  | other
  deriving DecidableEq, Repr

/-- `GElf_Phdr`. -/
structure Phdr where
  type : PhdrType
  flags : UInt32
  offset : UInt64
  vaddr : UInt64
  filesz : UInt64
  align : UInt64
  deriving DecidableEq, Repr

/-- `struct mt_elf`. -/
structure MtElf where
  loadbase : UInt64
  loadsize : UInt64
  vstart : UInt64
  bias : UInt64
  entryAddr : UInt64
  interp : UInt64
  txtHdr : Phdr
  ehHdr : Phdr
  dyn : UInt64
  pltgot : UInt64
  deriving DecidableEq, Repr

/-- `PAGEALIGN`. -/
def pageAlign : UInt64 := 4095

/-- `memset` of a header. -/
def Phdr.zero : Phdr := ⟨.other, 0, 0, 0, 0, 0⟩

/-- A file that was opened; the loop has its own variables for `loadbase` and `loadsize`. -/
def MtElf.new : MtElf := ⟨0xffffffffffffffff, 0, 0, 0, 0, 0, .zero, .zero, 0, 0⟩

/-- A round of the loop over the program headers. -/
def MtElf.readPhdr (mte : MtElf) (phdr : Phdr) : MtElf :=
  match phdr.type with
  | .load =>
    let align := if phdr.align ≠ 0 then phdr.align - 1 else phdr.align
    let vstart := phdr.vaddr &&& ~~~align
    { mte with
      vstart := if mte.vstart > vstart then vstart else mte.vstart
      loadbase := if mte.loadbase > phdr.offset then phdr.offset else mte.loadbase
      loadsize :=
        if mte.loadsize < phdr.offset + phdr.filesz then phdr.offset + phdr.filesz
        else mte.loadsize
      -- `PF_X` without `PF_W`
      txtHdr := if phdr.flags &&& 3 = 1 then phdr else mte.txtHdr }
  | .gnuEhFrame => { mte with ehHdr := phdr }
  | .interp => { mte with interp := phdr.vaddr }
  | .dynamic => { mte with dyn := phdr.vaddr }
  | .other => mte

/-- `elf_read`; `pltgot` is the `DT_PLTGOT` of the file. -/
def elfRead (phdrs : List Phdr) (pltgot : UInt64) : Option MtElf :=
  if phdrs.any fun phdr => phdr.type = .load then
    let mte := phdrs.foldl MtElf.readPhdr .new
    let loadbase := mte.loadbase &&& ~~~pageAlign
    some { mte with
      loadbase
      loadsize := (mte.loadsize + (mte.loadbase - loadbase) + pageAlign) &&& ~~~pageAlign
      pltgot }
  else none

/-- `dwarf_get_unwind_table`, which aborts where it fails. -/
def Space.getUnwindTable (s : Space) (libref : Libref) : Except Halt Libref :=
  let hdr := libref.mmapAddr + libref.ehHdrOffset
  let table : Reader (UInt64 × UInt64) := do
    let version ← s.read8
    let ehFramePtrEnc ← s.read8
    let fdeCountEnc ← s.read8
    let tableEnc ← s.read8
    if version ≠ 1 then Reader.fail .noInfo
    let _ ← s.readEncodedPointer libref.pltgot ehFramePtrEnc true 0
    let fdeCount ← s.readEncodedPointer libref.pltgot fdeCountEnc true 0
    if tableEnc ≠ 0x3b then Reader.fail .inval
    return (← get, fdeCount)
  match table hdr with
  | .ok (fdeTab, fdeCount) _ => .ok { libref with fdeTab, fdeCount }
  | .error _ _ => .error (.crash "abort")

/-- The fields that `elf_lib_init` sets, for an image mapped at `mmapAddr`. -/
def MtElf.libref (mte : MtElf) (mmapAddr : UInt64) (l : Libref) : Libref :=
  { l with
    mmapAddr
    entry := mte.entryAddr
    mmapOffset := mte.loadbase
    mmapSize := mte.loadsize
    txtVaddr := mte.txtHdr.vaddr - mte.vstart + mte.bias
    txtSize := mte.txtHdr.filesz
    txtOffset := mte.txtHdr.offset - mte.loadbase
    bias := mte.bias
    ehHdrOffset := mte.ehHdr.offset - mte.loadbase
    ehHdrVaddr := mte.ehHdr.vaddr - mte.vstart + mte.bias
    pltgot := mte.pltgot - mte.vstart + mte.bias
    dyn := mte.dyn - mte.vstart + mte.bias }

/-- `elf_lib_init`. -/
def Space.elfLibInit (s : Space) (mte : MtElf) (mmapAddr : UInt64) (l : Libref) :
    Except Halt Libref :=
  let libref := mte.libref mmapAddr l
  if mte.ehHdr.filesz ≠ 0 ∧ mte.dyn ≠ 0 then s.getUnwindTable libref else .ok libref

/-- `elf_read_library`; `eEntry` is the entry point in the header of the file. -/
def Space.elfReadLibrary (s : Space) (phdrs : List Phdr) (pltgot eEntry bias mmapAddr : UInt64)
    (filename : String) : Option (Except Halt Libref) := do
  let mte ← elfRead phdrs pltgot
  let mte := { mte with bias, entryAddr := eEntry - mte.vstart + bias }
  return s.elfLibInit mte mmapAddr { Libref.new .lib with filename }

end Mtrace.Dwarf
