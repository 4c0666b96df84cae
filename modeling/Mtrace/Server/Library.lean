import Mathlib.Data.UInt
import Mtrace.RbTree

/-!
# Libraries of a process

`library.c`: the libraries mapped into a process are in a list, in the order they were added, and in
a tree by the address of their text.  A `struct library *` is a number; the symbols of a library and
the breakpoints on them are not part of this model.
-/

namespace Mtrace.Server

open RbTree

/-- `LIBTYPE_LIB`, `LIBTYPE_MAIN` and `LIBTYPE_LOADER`. -/
inductive LibType where
  | lib
  | main
  | loader
  deriving DecidableEq, Repr

/-- `struct libref`: an ELF file at the place where the loader put it, and its image in the memory
of the server. -/
structure Libref where
  dyn : UInt64
  bias : UInt64
  entry : UInt64
  filename : String
  txtVaddr : UInt64
  txtSize : UInt64
  txtOffset : UInt64
  mmapAddr : UInt64
  mmapOffset : UInt64
  mmapSize : UInt64
  pltgot : UInt64
  ehHdrOffset : UInt64
  ehHdrVaddr : UInt64
  fdeTab : UInt64
  fdeCount : UInt64
  type : LibType
  deriving DecidableEq, Repr

/-- `libref_new`. -/
def Libref.new (type : LibType) : Libref :=
  ⟨0, 0, 0, "", 0, 0, 0, 0, 0, 0, 0, 0, 0, 0, 0, type⟩

/-- The test of `addr2libref`. -/
def Libref.inText (l : Libref) (addr : UInt64) : Bool :=
  decide (l.txtVaddr ≤ addr) && decide (addr < l.txtVaddr + l.txtSize)

/-- `struct library`, with its address. -/
structure Library where
  node : ℕ
  libref : Libref
  deriving DecidableEq, Repr

/-- The descent of `addr2libref`: greater addresses are on the left. -/
def addrCut (addr : UInt64) (this : Library) : Ordering :=
  if this.libref.inText addr then .eq
  else if this.libref.txtVaddr < addr then .lt else .gt

def addr2libref (tree : RbRoot Library) (addr : UInt64) : Option Libref :=
  (tree.find (addrCut addr)).map fun x => x.val.libref

/-- The descent of `insert_lib`. -/
def libCut (lib this : Library) : Ordering :=
  if this.libref.txtVaddr < lib.libref.txtVaddr then .lt else .gt

def insertLib (tree : RbRoot Library) (lib : Library) : RbRoot Library :=
  (tree.gap (libCut lib)).insertNew lib

end Mtrace.Server
