import Mathlib.Data.UInt
import Mtrace.RbMap

/-!
# The symbols of a file

`bin_file_lookup` keeps the symbols that are in use in a tree by their addresses.  What a symbol is
depends on the address in the file, which is that of the process less the bias of the mapping; the
tree knows the address of the process only.

`bin_file_lookup_fresh_iff`: a sequence of calls goes as with an empty tree exactly if, whenever an
address is looked up whose symbol is in use, both biases give the same symbol.
-/

namespace Mtrace.Client

open RbTree

/-! ## Files -/

/-- An `asection`; whether it has `SEC_ALLOC`. -/
structure Section where
  alloc : Bool
  vma : UInt64
  size : UInt64
  deriving DecidableEq, Repr

/-- The part of `struct sym_info` that is looked for. -/
structure SymInfo where
  filename : Option String
  functionname : Option String
  line : UInt32
  found : Bool
  deriving DecidableEq, Repr

/-- An open file: whether it has `EXEC_P`, its sections, what `bfd_find_nearest_line` sets, and
`bfd_demangle`. -/
structure Bfd where
  execP : Bool
  sections : List Section
  findNearestLine : Section → UInt64 → SymInfo → SymInfo
  demangle : String → Option String

namespace Bfd

variable (abfd : Bfd)

def findAddressInSection (pc : UInt64) (psi : SymInfo) (sec : Section) : SymInfo :=
  if psi.found then psi
  else if sec.alloc = false then psi
  else if pc < sec.vma then psi
  else if pc ≥ sec.vma + sec.size then psi
  else abfd.findNearestLine sec (pc - sec.vma) psi

/-- The name that is shown for a function. -/
def symName (functionname : Option String) : String :=
  match functionname with
  | none => "?"
  | some name => if name = "" then "?" else (abfd.demangle name).getD name

/-- `sym_buf` and `si_info` for an address in the file. -/
def symBuf (pc : UInt64) : Option String × Bool :=
  let si := abfd.sections.foldl (abfd.findAddressInSection pc) ⟨none, none, 0, false⟩
  if si.found then
    let name := abfd.symName si.functionname
    match si.filename with
    | some filename =>
      if si.line ≠ 0 then (some (filename ++ ":" ++ toString si.line.toNat ++ " " ++ name), true)
      else (some (filename ++ " " ++ name), true)
    | none => (some name, false)
  else (none, false)

/-- `si.pc`. -/
def pc (addr off : UInt64) : UInt64 := if abfd.execP then addr else addr - off

end Bfd

/-- `struct rb_sym`. -/
structure RbSym where
  addr : UInt64
  sym : Option String
  siInfo : Bool
  refcnt : ℕ
  deriving DecidableEq, Repr

/-- `struct bin_file`. -/
structure BinFile where
  abfd : Bfd
  symTable : RbRoot RbSym

/-- The descent of `bin_file_lookup`. -/
def symCut (addr : UInt64) (this : RbSym) : Ordering :=
  if addr < this.addr then .lt else if this.addr < addr then .gt else .eq

namespace BinFile

/-- `bin_file_lookup`. -/
def lookup (f : BinFile) (addr off : UInt64) : RbSym × BinFile :=
  match f.symTable.find (symCut addr) with
  | some x =>
    let this := { x.val with refcnt := x.val.refcnt + 1 }
    (this, { f with symTable := x.set this })
  | none =>
    let buf := f.abfd.symBuf (f.abfd.pc addr off)
    let this : RbSym := ⟨addr, buf.1, buf.2, 1⟩
    (this, { f with symTable := (f.symTable.gap (symCut addr)).insertNew this })

/-- `bin_file_sym_put` of the symbol of an address, if there is one. -/
def symPut (f : BinFile) (addr : UInt64) : Option BinFile :=
  match f.symTable.find (symCut addr) with
  | some x =>
    let this := { x.val with refcnt := x.val.refcnt - 1 }
    if this.refcnt = 0 then some { f with symTable := x.erase }
    else some { f with symTable := x.set this }
  | none => none

end BinFile

/-! ## Calls -/

/-- What is done with a file. -/
inductive SymCall where
  | lookup (addr off : UInt64)
  | put (addr : UInt64)
  deriving DecidableEq, Repr

/-- The address, the name and the line information of a symbol. -/
def RbSym.shown (s : RbSym) : UInt64 × Option String × Bool := (s.addr, s.sym, s.siInfo)

/-- Each lookup returns what it would with an empty tree; what is not in use is not put. -/
def BinFile.Fresh : BinFile → List SymCall → Prop
  | _, [] => True
  | f, .lookup addr off :: calls =>
    (f.lookup addr off).1.shown = (BinFile.lookup { f with symTable := .nil } addr off).1.shown ∧
      BinFile.Fresh (f.lookup addr off).2 calls
  | f, .put addr :: calls => ∀ f', f.symPut addr = some f' → f'.Fresh calls

/-- For the addresses whose symbols are in use, the bias of the call that began it, and the number
of users. -/
abbrev Users := UInt64 → Option (UInt64 × ℕ)

def Users.lookup (u : Users) (addr off : UInt64) : Users :=
  Function.update u addr
    (some (match u addr with | some (off', n) => (off', n + 1) | none => (off, 1)))

def Users.put (u : Users) (addr : UInt64) : Option Users :=
  (u addr).map fun r => Function.update u addr (if r.2 - 1 = 0 then none else some (r.1, r.2 - 1))

/-- Whenever the symbol of an address is in use that is looked up, both biases give the same one. -/
def Users.Agree (abfd : Bfd) : Users → List SymCall → Prop
  | _, [] => True
  | u, .lookup addr off :: calls =>
    (∀ off' n, u addr = some (off', n) →
      abfd.symBuf (abfd.pc addr off') = abfd.symBuf (abfd.pc addr off)) ∧
      Users.Agree abfd (u.lookup addr off) calls
  | u, .put addr :: calls => ∀ u', u.put addr = some u' → Users.Agree abfd u' calls

/-! ## The tree -/

section Tree

variable {f : BinFile} {u : Users} {addr off : UInt64}

/-- The key of a symbol. -/
def RbSym.key (s : RbSym) : ℕ := s.addr.toNat

theorem symCut_eq (addr : UInt64) : symCut addr = keyCut RbSym.key addr.toNat := by
  funext this
  unfold symCut keyCut RbSym.key
  simp only [UInt64.lt_iff_toNat_lt]

/-- The tree has the symbols that are in use. -/
structure BinFile.Holds (f : BinFile) (u : Users) : Prop where
  sorted : f.symTable.Sorted RbSym.key
  entry : ∀ addr, f.symTable.entry RbSym.key addr.toNat = (u addr).map fun r =>
    ⟨addr, (f.abfd.symBuf (f.abfd.pc addr r.1)).1, (f.abfd.symBuf (f.abfd.pc addr r.1)).2, r.2⟩

theorem update_toNat {β : Type} (g : ℕ → Option β) (a b : UInt64) (r : Option β) :
    Function.update g a.toNat r b.toNat = if b = a then r else g b.toNat := by
  by_cases hb : b = a
  · rw [if_pos hb, hb, Function.update_self]
  · rw [if_neg hb, Function.update_of_ne fun h => hb (UInt64.toNat_inj.mp h)]

/-- A symbol that is in use gets another user. -/
theorem lookup_of_some (off : UInt64) (h : f.Holds u) {off' : UInt64} {n : ℕ}
    (hu : u addr = some (off', n)) :
    (f.lookup addr off).1.shown = (addr, f.abfd.symBuf (f.abfd.pc addr off')) ∧
      (f.lookup addr off).2.abfd = f.abfd ∧ (f.lookup addr off).2.Holds (u.lookup addr off) := by
  have hentry := h.entry addr
  rw [hu, Option.map_some] at hentry
  unfold RbRoot.entry at hentry
  rw [← symCut_eq] at hentry
  obtain ⟨x, hfind, hx⟩ := Option.map_eq_some_iff.mp hentry
  have hkey := hfind
  rw [symCut_eq] at hkey
  unfold BinFile.lookup
  rw [hfind]
  dsimp only
  have hset := sorted_set h.sorted hkey
    (v := { x.val with refcnt := x.val.refcnt + 1 }) (find_key hkey).2
  refine ⟨?_, rfl, hset.1, fun b => ?_⟩
  · unfold RbSym.shown
    rw [hx]
  · rw [hset.2, update_toNat, h.entry b]
    unfold Users.lookup
    rw [hu]
    by_cases hb : b = addr
    · subst hb
      rw [if_pos rfl, Function.update_self, hx]
      rfl
    · rw [if_neg hb, Function.update_of_ne hb]

/-- Another one is made. -/
theorem lookup_of_none (off : UInt64) (h : f.Holds u) (hu : u addr = none) :
    (f.lookup addr off).1.shown = (addr, f.abfd.symBuf (f.abfd.pc addr off)) ∧
      (f.lookup addr off).2.abfd = f.abfd ∧ (f.lookup addr off).2.Holds (u.lookup addr off) := by
  have hentry := h.entry addr
  rw [hu, Option.map_none] at hentry
  unfold RbRoot.entry at hentry
  rw [Option.map_eq_none_iff] at hentry
  have hfind := hentry
  rw [← symCut_eq] at hfind
  unfold BinFile.lookup
  rw [hfind]
  dsimp only
  have hnew := sorted_insertNew h.sorted (v := ⟨addr, (f.abfd.symBuf (f.abfd.pc addr off)).1,
    (f.abfd.symBuf (f.abfd.pc addr off)).2, 1⟩) hentry rfl
  rw [symCut_eq]
  refine ⟨rfl, rfl, hnew.1, fun b => ?_⟩
  have hupdate := congrFun hnew.2 b.toNat
  refine hupdate.trans ?_
  unfold RbSym.key
  rw [update_toNat]
  unfold Users.lookup
  rw [hu]
  by_cases hb : b = addr
  · subst hb
    rw [if_pos rfl, Function.update_self]
    rfl
  · rw [if_neg hb, Function.update_of_ne hb]
    exact h.entry b

/-- A user less. -/
theorem symPut_holds (addr : UInt64) (h : f.Holds u) : (f.symPut addr = none ∧ u.put addr = none) ∨
    ∃ f' u', f.symPut addr = some f' ∧ u.put addr = some u' ∧ f'.abfd = f.abfd ∧ f'.Holds u' := by
  have hentry := h.entry addr
  unfold RbRoot.entry at hentry
  rw [← symCut_eq] at hentry
  unfold BinFile.symPut Users.put
  cases hu : u addr with
  | none =>
    rw [hu, Option.map_none, Option.map_eq_none_iff] at hentry
    rw [hentry]
    exact .inl ⟨rfl, rfl⟩
  | some r =>
    rw [hu, Option.map_some] at hentry
    obtain ⟨x, hfind, hx⟩ := Option.map_eq_some_iff.mp hentry
    have hkey := hfind
    rw [symCut_eq] at hkey
    have hrefcnt : x.val.refcnt = r.2 := by rw [hx]
    rw [hfind, Option.map_some]
    dsimp only
    rw [hrefcnt]
    by_cases hlast : r.2 - 1 = 0
    · obtain ⟨hsorted, hupdate⟩ := sorted_erase h.sorted hkey
      rw [if_pos hlast, if_pos hlast]
      refine .inr ⟨_, _, rfl, rfl, rfl, hsorted, fun b => ?_⟩
      rw [hupdate, update_toNat, h.entry b]
      by_cases hb : b = addr
      · rw [if_pos hb, hb, Function.update_self]
        rfl
      · rw [if_neg hb, Function.update_of_ne hb]
    · obtain ⟨hsorted, hupdate⟩ := sorted_set h.sorted hkey
        (v := { x.val with refcnt := r.2 - 1 }) (find_key hkey).2
      rw [if_neg hlast, if_neg hlast]
      refine .inr ⟨_, _, rfl, rfl, rfl, hsorted, fun b => ?_⟩
      rw [hupdate, update_toNat, h.entry b]
      by_cases hb : b = addr
      · rw [if_pos hb, hb, Function.update_self, hx]
        rfl
      · rw [if_neg hb, Function.update_of_ne hb]

/-- With an empty tree the symbol is the one of both addresses. -/
theorem lookup_fresh (f : BinFile) (addr off : UInt64) :
    (BinFile.lookup { f with symTable := .nil } addr off).1.shown =
      (addr, f.abfd.symBuf (f.abfd.pc addr off)) := rfl

/-- From a tree that has the symbols that are in use. -/
theorem fresh_iff_agree (h : f.Holds u) (calls : List SymCall) :
    f.Fresh calls ↔ u.Agree f.abfd calls := by
  induction calls generalizing f u with
  | nil => exact Iff.rfl
  | cons call calls ih =>
    cases call with
    | lookup addr off =>
      unfold BinFile.Fresh Users.Agree
      rw [lookup_fresh]
      cases hu : u addr with
      | none =>
        obtain ⟨hshown, habfd, hholds⟩ := lookup_of_none off h hu
        rw [ih hholds, habfd, hshown]
        exact and_congr_left fun _ => iff_of_true rfl fun _ _ hsome => by cases hsome
      | some r =>
        obtain ⟨hshown, habfd, hholds⟩ := lookup_of_some off h hu
        rw [ih hholds, habfd, hshown]
        refine and_congr_left fun _ => ?_
        constructor
        · intro heq off' n hsome
          cases hsome
          exact (Prod.ext_iff.mp heq).2
        · intro hagree
          rw [hagree r.1 r.2 rfl]
    | put addr =>
      unfold BinFile.Fresh Users.Agree
      rcases symPut_holds addr h with ⟨hput, hput'⟩ | ⟨f', u', hput, hput', habfd, hholds⟩
      · rw [hput, hput']
        apply iff_of_true
        · exact fun _ hsome => by cases hsome
        · exact fun _ hsome => by cases hsome
      · rw [hput, hput']
        constructor
        · intro hfresh u'' hsome
          cases hsome
          rw [← habfd]
          exact (ih hholds).mp (hfresh f' rfl)
        · intro hagree f'' hsome
          cases hsome
          apply (ih hholds).mpr
          rw [habfd]
          exact hagree u' rfl

end Tree

/-- In any sequence of calls the symbols are those of an empty tree, exactly if the biases agree
that an address is looked up with while its symbol is in use. -/
theorem bin_file_lookup_fresh_iff (abfd : Bfd) (calls : List SymCall) :
    BinFile.Fresh ⟨abfd, .nil⟩ calls ↔ Users.Agree abfd (fun _ => none) calls :=
  fresh_iff_agree (f := ⟨abfd, .nil⟩) ⟨sorted_nil, fun _ => rfl⟩ calls

/-- For a program that is not moved no bias matters. -/
theorem bin_file_lookup_exec {abfd : Bfd} (h : abfd.execP = true) (u : Users)
    (calls : List SymCall) : u.Agree abfd calls := by
  induction calls generalizing u with
  | nil => exact trivial
  | cons call calls ih =>
    cases call with
    | lookup addr off =>
      refine ⟨fun off' n _ => ?_, ih _⟩
      unfold Bfd.pc
      rw [if_pos h, if_pos h]
    | put addr => exact fun u' _ => ih u'

/-- A library with a function of a page each. -/
def twoFunctions : Bfd where
  execP := false
  sections := [⟨true, 0, 0x2000⟩]
  findNearestLine _ off _ := ⟨none, some (if off < 0x1000 then "first" else "second"), 0, true⟩
  demangle _ := none

/-- It is mapped at `0x10000` in one process and at `0x11000` in another one. -/
theorem bin_file_lookup_stale :
    ¬ BinFile.Fresh ⟨twoFunctions, .nil⟩ [.lookup 0x11000 0x10000, .lookup 0x11000 0x11000] ∧
    (BinFile.lookup (BinFile.lookup ⟨twoFunctions, .nil⟩ 0x11000 0x10000).2 0x11000 0x11000).1.sym =
      some "second" ∧
    (BinFile.lookup ⟨twoFunctions, .nil⟩ 0x11000 0x11000).1.sym = some "first" := by
  refine ⟨fun h => ?_, by decide, by decide⟩
  have hshown := h.2.1
  revert hshown
  decide

end Mtrace.Client
