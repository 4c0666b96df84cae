import Mathlib.Data.List.Pairwise
import Mtrace.Offers
import Mtrace.Server.Realloc

/-!
# The functions that are intercepted

`populate_symtab` of `mtelf.c` takes the intercepted functions from the symbol tables of a file, and
`library_add` and `library_delete` keep a breakpoint on each while the file is mapped.  An address
that has several names is intercepted as the function of the lowest level.

The server is connected, and there is memory for symbols and breakpoints.
-/

namespace Mtrace.Server

/-! ## Symbol tables -/

/-- `GElf_Sym`, with its name from the string table. -/
structure ElfSym where
  info : UInt8
  value : UInt64
  shndx : UInt16
  name : String
  deriving DecidableEq, Repr

/-- What `elf_read` has found in a file; `gelf_getsym` fails for some entries of a table. -/
structure SymFile where
  filename : String
  bias : UInt64
  symtab : Option (List (Option ElfSym))
  dynsym : List (Option ElfSym)

/-- The options that matter here: those of a hit and `opt_O`, the files that are left out. -/
structure SymOptions extends HitOptions where
  omitted : List String

/-- The column `level` of `flist`. -/
def Function.level (f : Function) : ℕ :=
  if f.name ∈ ["malloc", "free", "realloc", "calloc", "posix_memalign", "mmap", "munmap",
    "memalign", "mremap", "reallocarray"] then 0 else 1

def flistMatchesSymbol (opts : SymOptions) (symName : String) : Option Function :=
  flist.find? fun f => !(opts.nocpp && f.name.toList.head? == some '_') && symName == f.name

/-- `STT_FUNC` with a value and a section. -/
def ElfSym.isFunction (sym : ElfSym) : Bool :=
  sym.info &&& 0xf == 2 && sym.value != 0 && sym.shndx != 0

/-- The name without its version. -/
def ElfSym.snip (sym : ElfSym) : String := String.ofList (sym.name.toList.takeWhile (· != '@'))

def libraryFindSymbol (list : List Symbol) (addr : UInt64) : Option Symbol :=
  list.find? fun sym => sym.libsym.addr == addr

/-- The assignment to `func` of the symbol that was found. -/
def setFunc (addr : UInt64) (func : Function) : List Symbol → List Symbol
  | [] => []
  | sym :: syms =>
    if sym.libsym.addr == addr then { sym with func } :: syms else sym :: setFunc addr func syms

/-- A round of `populate_this_symtab`. -/
def populateSym (opts : SymOptions) (bias : UInt64) (list : List Symbol) :
    Option ElfSym → List Symbol
  | none => list
  | some sym =>
    if sym.isFunction then
      match flistMatchesSymbol opts sym.snip with
      | none => list
      | some func =>
        let addr := sym.value + bias
        match libraryFindSymbol list addr with
        | none => list ++ [⟨⟨addr⟩, func⟩]
        | some libsym =>
          if libsym.func.level > func.level then setFunc addr func list else list
    else list

def populateThisSymtab (opts : SymOptions) (bias : UInt64) (list : List Symbol)
    (symtab : List (Option ElfSym)) : List Symbol :=
  symtab.foldl (populateSym opts bias) list

/-- `populate_symtab`: the `sym_list` of the library. -/
def populateSymtab (opts : SymOptions) (file : SymFile) : List Symbol :=
  if file.filename ∈ opts.omitted then []
  else
    let list := match file.symtab with
      | some symtab => populateThisSymtab opts file.bias [] symtab
      | none => []
    populateThisSymtab opts file.bias list file.dynsym

/-! ## Breakpoints on the symbols -/

/-- `breakpoint_new`. -/
def breakpointNew (opts : SymOptions) (addr : UInt64) (libsym : Option Symbol) (type : BpType) :
    HitBp :=
  ⟨addr, if opts.nohwbp then .sw else type, false, libsym, false⟩

/-- `cb_breakpoint_for_symbol`. -/
def breakpointForSymbol (opts : SymOptions) (bps : BpDict) (sym : Symbol) :
    Except String BpDict := do
  let addr := sym.libsym.addr
  match bps addr with
  | some bp =>
    check bp.libsym.isNone "bp->libsym == NULL"
    return Function.update bps addr (some { bp with libsym := some sym })
  | none => return Function.update bps addr (some (breakpointNew opts addr (some sym) .auto))

/-- `breakpoint_delete` of the breakpoint at an address, if there is one. -/
def breakpointDeleteAt (bps : BpDict) (addr : UInt64) : BpDict :=
  match bps addr with
  | some _ => Function.update bps addr none
  | none => bps

/-- A library of the process. -/
structure MappedFile where
  node : ℕ
  file : SymFile

/-- The libraries of a process and its breakpoints. -/
structure MapState where
  libs : List MappedFile
  bps : BpDict

/-- A library comes or goes, the server puts a breakpoint into the loader or takes it away, or a
task hits a breakpoint. -/
inductive MapEvent where
  | add (lib : MappedFile)
  | delete (node : ℕ)
  | insert (addr : UInt64)
  | remove (addr : UInt64)
  | hit (t : HitTask) (addr ra : UInt64)

namespace MapState

def init : MapState := ⟨[], fun _ => none⟩

def libraryAdd (opts : SymOptions) (s : MapState) (lib : MappedFile) : Except String MapState := do
  let bps ← (populateSymtab opts lib.file).foldlM (breakpointForSymbol opts) s.bps
  return ⟨s.libs ++ [lib], bps⟩

def libraryDelete (opts : SymOptions) (s : MapState) (lib : MappedFile) : MapState :=
  ⟨s.libs.filter (·.node != lib.node),
    (populateSymtab opts lib.file).foldl (fun bps sym => breakpointDeleteAt bps sym.libsym.addr)
      s.bps⟩

def step (opts : SymOptions) (s : MapState) : MapEvent → Except String MapState
  | .add lib => s.libraryAdd opts lib
  | .delete node =>
    match s.libs.find? (·.node == node) with
    | some lib => .ok (s.libraryDelete opts lib)
    | none => .ok s
  | .insert addr =>
    .ok { s with bps := Function.update s.bps addr (some (breakpointNew opts addr none .sw)) }
  | .remove addr => .ok { s with bps := breakpointDeleteAt s.bps addr }
  | .hit t addr ra =>
    match s.bps addr with
    | some bp => do
      let (bps, _, _) ← handleBreakpoint opts.toHitOptions s.bps t bp ra
      return { s with bps }
    | none => .ok s

/-- Libraries are mapped apart from each other, and the loader has no intercepted function where the
server puts its own breakpoints. -/
def Allowed (opts : SymOptions) (s : MapState) : MapEvent → Prop
  | .add lib => (∀ lib' ∈ s.libs, lib'.node ≠ lib.node) ∧ ∀ sym ∈ populateSymtab opts lib.file,
      (∀ lib' ∈ s.libs, ∀ sym' ∈ populateSymtab opts lib'.file,
        sym'.libsym.addr ≠ sym.libsym.addr) ∧
      ∀ bp, s.bps sym.libsym.addr = some bp → bp.callAfter = true
  | .insert addr => s.bps addr = none
  | .remove addr => ∀ bp, s.bps addr = some bp → bp.libsym = none
  | .delete _ => True
  | .hit _ _ _ => True

end MapState

/-! ## What the tables name -/

/-- The address of a symbol. -/
abbrev Symbol.addr (sym : Symbol) : UInt64 := sym.libsym.addr

/-- The level of a symbol. -/
abbrev Symbol.level (sym : Symbol) : ℕ := sym.func.level

/-- The intercepted function that an entry names. -/
def ElfSym.named (opts : SymOptions) (bias : UInt64) (sym : ElfSym) : Option Symbol :=
  if sym.isFunction then
    (flistMatchesSymbol opts sym.snip).map fun func => ⟨⟨sym.value + bias⟩, func⟩
  else none

namespace SymFile

/-- The intercepted functions that the tables name, in their order. -/
def named (opts : SymOptions) (file : SymFile) : List Symbol :=
  if file.filename ∈ opts.omitted then []
  else (file.symtab.getD [] ++ file.dynsym).filterMap (·.bind (ElfSym.named opts file.bias))

/-- The function of an address: the first of those of the lowest level. -/
def intercepted (opts : SymOptions) (file : SymFile) (addr : UInt64) : Option Symbol :=
  ((file.named opts).filter fun sym => decide (sym.libsym.addr = addr)).argmin (·.func.level)

end SymFile

/-- The function of an address of the process. -/
def MapState.intercepted (opts : SymOptions) (s : MapState) (addr : UInt64) : Option Symbol :=
  s.libs.findSome? fun lib => lib.file.intercepted opts addr

section Tables

variable {opts : SymOptions} {bias addr : UInt64} {list : List Symbol} {file : SymFile}
  {sym : Symbol}

@[simp] theorem libraryFindSymbol_cons (syms : List Symbol) :
    libraryFindSymbol (sym :: syms) addr =
      if sym.addr = addr then some sym else libraryFindSymbol syms addr := by
  unfold libraryFindSymbol
  by_cases h : sym.libsym.addr = addr <;> simp [h]

@[simp] theorem setFunc_cons (func : Function) (syms : List Symbol) :
    setFunc addr func (sym :: syms) =
      if sym.addr = addr then ⟨sym.libsym, func⟩ :: syms else sym :: setFunc addr func syms := by
  simp [setFunc]

/-- A symbol is found and changed as an offer is made. -/
theorem offer_eq (addr : UInt64) (func : Function) (list : List Symbol) :
    (match libraryFindSymbol list addr with
      | none => list ++ [⟨⟨addr⟩, func⟩]
      | some libsym => if libsym.func.level > func.level then setFunc addr func list else list) =
      Offers.offer Symbol.addr Symbol.level ⟨⟨addr⟩, func⟩ list := by
  induction list with
  | nil => rfl
  | cons sym syms ih =>
    unfold Offers.offer
    rw [libraryFindSymbol_cons, setFunc_cons]
    by_cases h : sym.addr = addr
    · have hlibsym : sym.libsym = ⟨addr⟩ := by rw [← h]
      rw [if_pos h, if_pos h, if_pos h, hlibsym]
    · rw [if_neg h, if_neg h, if_neg h, ← ih]
      cases libraryFindSymbol syms addr with
      | none => rfl
      | some libsym =>
        dsimp only
        split <;> rfl

/-- A round makes an offer for what the entry names. -/
theorem populateSym_eq (opts : SymOptions) (bias : UInt64) (list : List Symbol)
    (sym : Option ElfSym) :
    populateSym opts bias list sym = match sym.bind (ElfSym.named opts bias) with
      | none => list
      | some sym => Offers.offer Symbol.addr Symbol.level sym list := by
  cases sym with
  | none => rfl
  | some sym =>
    dsimp only [populateSym, Option.bind_some, ElfSym.named]
    by_cases hf : sym.isFunction = true
    · rw [if_pos hf, if_pos hf]
      cases flistMatchesSymbol opts sym.snip with
      | none => rfl
      | some func => exact offer_eq (sym.value + bias) func list
    · rw [if_neg hf, if_neg hf]

theorem populateThisSymtab_eq (opts : SymOptions) (bias : UInt64) (list : List Symbol)
    (symtab : List (Option ElfSym)) :
    populateThisSymtab opts bias list symtab =
      (symtab.filterMap (·.bind (ElfSym.named opts bias))).foldl
        (fun l x => Offers.offer Symbol.addr Symbol.level x l) list := by
  unfold populateThisSymtab
  induction symtab generalizing list with
  | nil => rfl
  | cons sym syms ih =>
    rw [List.foldl_cons, ih, populateSym_eq, List.filterMap_cons]
    cases sym.bind (ElfSym.named opts bias) <;> rfl

theorem populateSymtab_eq (opts : SymOptions) (file : SymFile) :
    populateSymtab opts file = Offers.take Symbol.addr Symbol.level (file.named opts) := by
  unfold populateSymtab SymFile.named Offers.take
  by_cases h : file.filename ∈ opts.omitted
  · rw [if_pos h, if_pos h, List.foldl_nil]
  · rw [if_neg h, if_neg h, List.filterMap_append, List.foldl_append]
    cases file.symtab with
    | none => exact populateThisSymtab_eq ..
    | some symtab =>
      dsimp only
      rw [populateThisSymtab_eq, populateThisSymtab_eq, Option.getD_some]

theorem nodup_populateSymtab (opts : SymOptions) (file : SymFile) :
    ((populateSymtab opts file).map Symbol.addr).Nodup := by
  rw [populateSymtab_eq]
  exact Offers.nodup_take ..

/-- The symbols of a library are the functions of its addresses. -/
theorem mem_populateSymtab :
    sym ∈ populateSymtab opts file ↔ file.intercepted opts sym.addr = some sym := by
  rw [populateSymtab_eq, Offers.mem_take]
  rfl

theorem intercepted_addr (h : file.intercepted opts addr = some sym) : sym.addr = addr := by
  have hmem := List.argmin_mem h
  simpa using List.of_mem_filter hmem

theorem mem_addrs {addr : UInt64} :
    addr ∈ (populateSymtab opts file).map Symbol.addr ↔ (file.intercepted opts addr).isSome := by
  rw [List.mem_map, Option.isSome_iff_exists]
  constructor
  · rintro ⟨sym, hsym, rfl⟩
    exact ⟨sym, mem_populateSymtab.mp hsym⟩
  · rintro ⟨sym, hsym⟩
    have haddr := intercepted_addr hsym
    subst haddr
    exact ⟨sym, mem_populateSymtab.mpr hsym, rfl⟩

theorem intercepted_func (h : file.intercepted opts addr = some sym) : sym.func ∈ flist := by
  have hmem := List.mem_of_mem_filter (List.argmin_mem h)
  unfold SymFile.named at hmem
  split at hmem
  · cases hmem
  · obtain ⟨entry, -, hentry⟩ := List.mem_filterMap.mp hmem
    obtain ⟨elfSym, -, hnamed⟩ := Option.bind_eq_some_iff.mp hentry
    unfold ElfSym.named at hnamed
    split at hnamed
    · obtain ⟨func, hfunc, rfl⟩ := Option.map_eq_some_iff.mp hnamed
      exact List.mem_of_find?_eq_some hfunc
    · cases hnamed

end Tables

/-! ## Breakpoints with a symbol -/

/-- The symbol that the breakpoint at an address has. -/
def BpDict.named (bps : BpDict) (addr : UInt64) : Option Symbol := (bps addr).bind (·.libsym)

/-- What is in the dictionary is not deleted. -/
def BpDict.Live (bps : BpDict) : Prop := ∀ addr bp, bps addr = some bp → bp.deleted = false

section Breakpoints

variable {opts : SymOptions} {bps bps' : BpDict} {addr : UInt64} {sym : Symbol} {bp : HitBp}
  {file : SymFile} {t t' : HitTask} {ra : UInt64} {invocations : List Invocation}

theorem BpDict.named_update (bps : BpDict) (addr addr' : UInt64) (bp : Option HitBp) :
    BpDict.named (Function.update bps addr bp) addr' =
      if addr' = addr then bp.bind (·.libsym) else bps.named addr' := by
  unfold BpDict.named
  by_cases h : addr' = addr <;> simp [h]

theorem BpDict.Live.update (h : bps.Live) (addr : UInt64) (hbp : bp.deleted = false) :
    BpDict.Live (Function.update bps addr (some bp)) := by
  intro addr' bp' h'
  by_cases ha : addr' = addr
  · rw [ha, Function.update_self] at h'
    cases h'
    exact hbp
  · rw [Function.update_of_ne ha] at h'
    exact h addr' bp' h'

/-- A symbol gets the breakpoint of its address, or a new one. -/
theorem breakpointForSymbol_spec (opts : SymOptions) (h : bps.named sym.addr = none)
    (hl : bps.Live) :
    ∃ bps', breakpointForSymbol opts bps sym = .ok bps' ∧ bps'.Live ∧
      ∀ addr, bps'.named addr = if addr = sym.addr then some sym else bps.named addr := by
  cases hbp : bps sym.libsym.addr with
  | none =>
    refine ⟨Function.update bps sym.addr (some (breakpointNew opts sym.addr (some sym) .auto)), ?_,
      hl.update _ rfl, fun addr => BpDict.named_update bps sym.addr addr _⟩
    simp only [breakpointForSymbol, hbp]
    rfl
  | some bp =>
    have hnone : bp.libsym = none := by
      unfold BpDict.named at h
      rwa [hbp, Option.bind_some] at h
    refine ⟨Function.update bps sym.addr (some { bp with libsym := some sym }), ?_,
      hl.update _ (hl _ bp hbp), fun addr => BpDict.named_update bps sym.addr addr _⟩
    simp only [breakpointForSymbol, hbp, check, hnone]
    rfl

/-- The loop of `library_add` over symbols of different addresses. -/
theorem breakpointForSymbols_spec {syms : List Symbol} (hnd : (syms.map Symbol.addr).Nodup)
    (h : ∀ sym ∈ syms, bps.named sym.addr = none) (hl : bps.Live) :
    ∃ bps', syms.foldlM (breakpointForSymbol opts) bps = .ok bps' ∧ bps'.Live ∧
      (∀ sym ∈ syms, bps'.named sym.addr = some sym) ∧
      ∀ addr, addr ∉ syms.map Symbol.addr → bps'.named addr = bps.named addr := by
  induction syms generalizing bps with
  | nil => exact ⟨bps, rfl, hl, by simp, fun _ _ => rfl⟩
  | cons sym syms ih =>
    obtain ⟨hnew, hnd⟩ := List.nodup_cons.mp hnd
    obtain ⟨bps1, hbps1, hl1, hnamed1⟩ :=
      breakpointForSymbol_spec opts (h sym List.mem_cons_self) hl
    have hother : ∀ sym' ∈ syms, sym'.addr ≠ sym.addr := fun sym' hsym' he =>
      hnew (he ▸ List.mem_map_of_mem hsym')
    have h1 : ∀ sym' ∈ syms, bps1.named sym'.addr = none := fun sym' hsym' => by
      rw [hnamed1, if_neg (hother sym' hsym')]
      exact h sym' (List.mem_cons_of_mem _ hsym')
    obtain ⟨bps', hbps', hl', hin, hout⟩ := ih hnd h1 hl1
    refine ⟨bps', Machine.bind_eq_ok.mpr ⟨bps1, hbps1, hbps'⟩, hl', ?_, fun addr haddr => ?_⟩
    · intro sym' hsym'
      rcases List.mem_cons.mp hsym' with rfl | hsym'
      · rw [hout _ hnew, hnamed1, if_pos rfl]
      · exact hin sym' hsym'
    · rw [List.map_cons, List.mem_cons, not_or] at haddr
      rw [hout addr haddr.2, hnamed1, if_neg haddr.1]

/-- `library_add` of a file that names nothing where there is a symbol already. -/
theorem addFile_spec (h : ∀ addr, (file.intercepted opts addr).isSome → bps.named addr = none)
    (hl : bps.Live) :
    ∃ bps', (populateSymtab opts file).foldlM (breakpointForSymbol opts) bps = .ok bps' ∧
      bps'.Live ∧ ∀ addr, bps'.named addr = (file.intercepted opts addr).or (bps.named addr) := by
  have hfree : ∀ sym ∈ populateSymtab opts file, bps.named sym.addr = none := fun sym hsym =>
    h sym.addr (Option.isSome_iff_exists.mpr ⟨sym, mem_populateSymtab.mp hsym⟩)
  obtain ⟨bps', hbps', hl', hin, hout⟩ :=
    breakpointForSymbols_spec (nodup_populateSymtab opts file) hfree hl
  refine ⟨bps', hbps', hl', fun addr => ?_⟩
  cases hsym : file.intercepted opts addr with
  | none =>
    refine hout addr fun hmem => ?_
    rw [mem_addrs, hsym] at hmem
    cases hmem
  | some sym =>
    have haddr := intercepted_addr hsym
    subst haddr
    exact hin sym (mem_populateSymtab.mpr hsym)

theorem breakpointDeleteAt_eq (bps : BpDict) (addr : UInt64) :
    breakpointDeleteAt bps addr = Function.update bps addr none := by
  unfold breakpointDeleteAt
  cases h : bps addr with
  | none => exact (Function.update_eq_self_iff.mpr h.symm).symm
  | some bp => rfl

/-- The loop of `library_delete`. -/
theorem deleteSymbols_eq (syms : List Symbol) (bps : BpDict) (addr : UInt64) :
    syms.foldl (fun bps sym => breakpointDeleteAt bps sym.libsym.addr) bps addr =
      if addr ∈ syms.map Symbol.addr then none else bps addr := by
  induction syms generalizing bps with
  | nil => simp
  | cons sym syms ih =>
    rw [List.foldl_cons, ih, breakpointDeleteAt_eq]
    simp only [List.map_cons, List.mem_cons]
    by_cases hmem : addr ∈ syms.map Symbol.addr
    · rw [if_pos hmem, if_pos (.inr hmem)]
    · rw [if_neg hmem]
      by_cases ha : addr = sym.addr
      · rw [if_pos (.inl ha), ha, Function.update_self]
      · rw [if_neg (not_or.mpr ⟨ha, hmem⟩), Function.update_of_ne ha]

theorem insertReturnBp_named {bp : HitBp} (h : insertReturnBp opts.toHitOptions bps ra = some bp)
    (hl : bps.Live) : bp.libsym = bps.named ra ∧ bp.deleted = false := by
  unfold insertReturnBp at h
  unfold BpDict.named
  split at h
  · cases h
  · split at h
    next hbp =>
      cases h
      rw [hbp]
      exact ⟨rfl, hl ra bp hbp⟩
    next hbp =>
      cases h
      rw [hbp]
      exact ⟨rfl, rfl⟩

/-- A hit takes no symbol from a breakpoint and gives none to one. -/
theorem handleEntry_named (opts : SymOptions) (t : HitTask) (sym : Symbol) (ra : UInt64)
    (hl : bps.Live) :
    (handleEntry opts.toHitOptions bps t sym ra).1.Live ∧
      (handleEntry opts.toHitOptions bps t sym ra).1.named = bps.named := by
  unfold handleEntry
  split
  · split
    next => exact ⟨hl, rfl⟩
    next bp hins =>
      obtain ⟨hlibsym, hdel⟩ := insertReturnBp_named hins hl
      refine ⟨hl.update ra hdel, funext fun addr => ?_⟩
      rw [BpDict.named_update]
      split
      next ha => rw [ha, Option.bind_some, hlibsym]
      next => rfl
  · exact ⟨hl, rfl⟩

theorem handleBreakpoint_named
    (h : handleBreakpoint opts.toHitOptions bps t bp ra = .ok (bps', t', invocations))
    (hl : bps.Live) : bps'.Live ∧ bps'.named = bps.named := by
  obtain ⟨t1, outs, -, ⟨rfl, -, -⟩ | ⟨sym, -, -, hentry, -⟩⟩ := handleBreakpoint_cases h
  · exact ⟨hl, rfl⟩
  · have hnamed := handleEntry_named opts t1 sym ra hl
    rwa [hentry] at hnamed

/-- A task in no call reports the function whose breakpoint it hits. -/
theorem handleBreakpoint_idle (opts : HitOptions) (bps : BpDict) (hdel : bp.deleted = false)
    (ht : t.breakpoint = none) (ra : UInt64) : ∃ bps' t',
      handleBreakpoint opts bps t bp ra = .ok (bps', t', bp.libsym.toList.map .reportIn) := by
  have hafter : handleCallAfter t bp = .ok (t, []) := by
    unfold handleCallAfter
    rw [ht]
  rw [handleBreakpoint_eq hdel, hafter]
  have hstart : (if bp.callAfter = true then .ok (t, []) else .ok (t, [])) =
      (.ok (t, []) : Except String (HitTask × List Invocation)) := ite_self _
  rw [hstart]
  dsimp only [bind, Except.bind]
  rw [ht]
  cases bp.libsym with
  | none => exact ⟨bps, t, rfl⟩
  | some sym => exact ⟨(handleEntry opts bps t sym ra).1, (handleEntry opts bps t sym ra).2, rfl⟩

end Breakpoints

/-! ## Runs -/

/-- No address has a function of both. -/
def MappedFile.Apart (opts : SymOptions) (lib lib' : MappedFile) : Prop :=
  ∀ addr, lib.file.intercepted opts addr = none ∨ lib'.file.intercepted opts addr = none

instance (opts : SymOptions) : Std.Symm (MappedFile.Apart opts) :=
  ⟨fun _ _ h addr => (h addr).symm⟩

namespace MapState

/-- The breakpoints with a symbol are those on the functions of the libraries. -/
structure Sound (opts : SymOptions) (s : MapState) : Prop where
  live : s.bps.Live
  named : ∀ addr sym, s.bps.named addr = some sym ↔
    ∃ lib ∈ s.libs, lib.file.intercepted opts addr = some sym
  nodes : (s.libs.map MappedFile.node).Nodup
  apart : s.libs.Pairwise (MappedFile.Apart opts)

section Runs

variable {opts : SymOptions} {s s' : MapState} {addr : UInt64} {lib : MappedFile}

theorem Sound.named_eq (h : s.Sound opts) (addr : UInt64) :
    s.bps.named addr = s.intercepted opts addr := by
  unfold MapState.intercepted
  cases hsym : s.libs.findSome? fun lib => lib.file.intercepted opts addr with
  | none =>
    refine Option.eq_none_iff_forall_not_mem.mpr fun sym hmem => ?_
    obtain ⟨lib, hlib, hlibsym⟩ := (h.named addr sym).mp hmem
    rw [List.findSome?_eq_none_iff.mp hsym lib hlib] at hlibsym
    cases hlibsym
  | some sym =>
    obtain ⟨lib, hlib, hlibsym⟩ := List.exists_of_findSome?_eq_some hsym
    exact (h.named addr sym).mpr ⟨lib, hlib, hlibsym⟩

theorem sound_init (opts : SymOptions) : init.Sound opts where
  live := fun _ _ h => by cases h
  named := fun _ _ => by simp [init, BpDict.named]
  nodes := List.nodup_nil
  apart := .nil

/-- A file that is mapped apart from the others names nothing where there is a symbol already. -/
theorem Allowed.apart (hok : s.Allowed opts (.add lib)) {lib' : MappedFile}
    (hlib' : lib' ∈ s.libs) : lib'.Apart opts lib := by
  intro addr
  cases hsym : lib.file.intercepted opts addr with
  | none => exact .inr rfl
  | some sym =>
    refine .inl (Option.eq_none_iff_forall_not_mem.mpr fun sym' hsym' => ?_)
    have haddr := intercepted_addr hsym
    have haddr' := intercepted_addr hsym'
    rw [← haddr] at hsym
    rw [← haddr'] at hsym'
    exact (hok.2 sym (mem_populateSymtab.mpr hsym)).1 lib' hlib' sym'
      (mem_populateSymtab.mpr hsym') (haddr'.trans haddr.symm)

/-- A library comes: no assertion fails, and its functions get breakpoints. -/
theorem Sound.add (h : s.Sound opts) (hok : s.Allowed opts (.add lib)) :
    ∃ s', s.libraryAdd opts lib = .ok s' ∧ s'.Sound opts := by
  have hfree : ∀ addr, (lib.file.intercepted opts addr).isSome → s.bps.named addr = none := by
    intro addr hsome
    refine Option.eq_none_iff_forall_not_mem.mpr fun sym' hmem => ?_
    obtain ⟨lib', hlib', hsym'⟩ := (h.named addr sym').mp hmem
    rcases hok.apart hlib' addr with hnone | hnone
    · simp [hnone] at hsym'
    · simp [hnone] at hsome
  obtain ⟨bps', hbps', hl', hnamed⟩ := addFile_spec hfree h.live
  refine ⟨⟨s.libs ++ [lib], bps'⟩, Machine.bind_eq_ok.mpr ⟨bps', hbps', rfl⟩, hl', ?_, ?_, ?_⟩
  · intro addr sym
    dsimp only
    rw [hnamed, Option.or_eq_some_iff, h.named addr sym]
    simp only [List.mem_append, List.mem_singleton]
    constructor
    · rintro (hsym | ⟨-, lib', hlib', hsym⟩)
      · exact ⟨lib, .inr rfl, hsym⟩
      · exact ⟨lib', .inl hlib', hsym⟩
    · rintro ⟨lib', hlib' | rfl, hsym⟩
      · rcases hok.apart hlib' addr with hnone | hnone
        · simp [hnone] at hsym
        · exact .inr ⟨hnone, lib', hlib', hsym⟩
      · exact .inl hsym
  · dsimp only
    rw [List.map_append, List.nodup_append]
    exact ⟨h.nodes, List.nodup_singleton _, by simpa using hok.1⟩
  · refine List.pairwise_append.mpr ⟨h.apart, List.pairwise_singleton _ _, ?_⟩
    intro lib' hlib' l hl
    rw [List.mem_singleton.mp hl]
    exact hok.apart hlib'

theorem deleteFile_named (s : MapState) (lib : MappedFile) (addr : UInt64) :
    (s.libraryDelete opts lib).bps.named addr =
      if (lib.file.intercepted opts addr).isSome then none else s.bps.named addr := by
  unfold BpDict.named libraryDelete
  dsimp only
  rw [deleteSymbols_eq]
  simp only [mem_addrs]
  split <;> rfl

/-- A library goes: no other one has a function at an address of it. -/
theorem Sound.delete (h : s.Sound opts) (hlib : lib ∈ s.libs) :
    (s.libraryDelete opts lib).Sound opts where
  live := by
    intro addr bp hbp
    dsimp only [libraryDelete] at hbp
    rw [deleteSymbols_eq] at hbp
    split at hbp
    · cases hbp
    · exact h.live addr bp hbp
  named := by
    intro addr sym
    rw [deleteFile_named]
    simp only [libraryDelete, List.mem_filter, bne_iff_ne]
    constructor
    · intro hnamed
      split at hnamed
      · cases hnamed
      next hnone =>
        obtain ⟨lib', hlib', hsym⟩ := (h.named addr sym).mp hnamed
        refine ⟨lib', ⟨hlib', fun hnode => hnone ?_⟩, hsym⟩
        obtain rfl := List.inj_on_of_nodup_map h.nodes hlib' hlib hnode
        exact Option.isSome_iff_exists.mpr ⟨sym, hsym⟩
    · rintro ⟨lib', ⟨hlib', hnode⟩, hsym⟩
      have hne : lib' ≠ lib := fun he => hnode (congrArg MappedFile.node he)
      rcases h.apart.forall hlib' hlib hne addr with hnone | hnone
      · simp [hnone] at hsym
      · simpa [hnone] using (h.named addr sym).mpr ⟨lib', hlib', hsym⟩
  nodes := h.nodes.sublist (List.filter_sublist.map _)
  apart := h.apart.sublist List.filter_sublist

/-- Breakpoints change, but not those with a symbol. -/
theorem Sound.bps (h : s.Sound opts) {bps : BpDict} (hl : bps.Live)
    (hnamed : bps.named = s.bps.named) : Sound opts { s with bps } :=
  ⟨hl, fun addr sym => by dsimp only; rw [hnamed]; exact h.named addr sym, h.nodes, h.apart⟩

theorem Sound.step (h : s.Sound opts) {e : MapEvent} (hok : s.Allowed opts e)
    (hs : s.step opts e = .ok s') : s'.Sound opts := by
  cases e with
  | add lib =>
    obtain ⟨s'', hs'', hsound⟩ := h.add hok
    cases hs''.symm.trans hs
    exact hsound
  | delete node =>
    unfold MapState.step at hs
    dsimp only at hs
    split at hs
    next lib hfind =>
      cases hs
      exact h.delete (List.mem_of_find?_eq_some hfind)
    next =>
      cases hs
      exact h
  | insert addr =>
    cases hs
    have hnone : s.bps addr = none := hok
    refine h.bps (h.live.update addr rfl) (funext fun addr' => ?_)
    rw [BpDict.named_update]
    split
    next ha => rw [ha, BpDict.named, hnone]; rfl
    next => rfl
  | remove addr =>
    cases hs
    have hbare : s.bps.named addr = none := by
      unfold BpDict.named
      cases hbp : s.bps addr with
      | none => rfl
      | some bp => exact hok bp hbp
    rw [breakpointDeleteAt_eq]
    refine h.bps (fun addr' bp hbp => ?_) (funext fun addr' => ?_)
    · by_cases ha : addr' = addr
      · simp [ha] at hbp
      · rw [Function.update_of_ne ha] at hbp
        exact h.live addr' bp hbp
    · rw [BpDict.named_update]
      split
      next ha => rw [ha, hbare]; rfl
      next => rfl
  | hit t addr ra =>
    unfold MapState.step at hs
    dsimp only at hs
    split at hs
    next bp hbp =>
      obtain ⟨⟨bps, t', invocations⟩, hhit, hs⟩ := Machine.bind_eq_ok.mp hs
      cases hs
      obtain ⟨hl, hnamed⟩ := handleBreakpoint_named hhit h.live
      exact h.bps hl hnamed
    next =>
      cases hs
      exact h

/-- In every map that is reached the dictionary is one that `handle_breakpoint` is followed from:
what its breakpoints intercept is in `flist`. -/
theorem Sound.intercepts (h : s.Sound opts) : s.bps.Intercepts := by
  intro addr bp sym hbp hsym
  have hnamed : s.bps.named addr = some sym := by
    unfold BpDict.named
    rw [hbp, Option.bind_some, hsym]
  obtain ⟨lib, -, hlib⟩ := (h.named addr sym).mp hnamed
  exact intercepted_func hlib

end Runs

end MapState

/-- However libraries come and go, no `assert` about a symbol fails, and a task that is in no call
reports the function of the lowest level that the symbol tables name where it is; where they name
none it reports nothing. -/
theorem reportIn_lowest_level (opts : SymOptions) {s : MapState}
    (hr : Machine.Reach (MapState.step opts) (MapState.Allowed opts) .init s) :
    (∀ lib, s.Allowed opts (.add lib) → ∃ s', s.libraryAdd opts lib = .ok s') ∧ ∀ addr,
      ((s.intercepted opts addr).isSome → (s.bps addr).isSome) ∧
      ∀ (bp : HitBp) (t : HitTask) (ra : UInt64), s.bps addr = some bp → t.breakpoint = none →
        ∃ bps' t', handleBreakpoint opts.toHitOptions s.bps t bp ra =
          .ok (bps', t', (s.intercepted opts addr).toList.map .reportIn) := by
  have h : s.Sound opts :=
    hr.invariant (MapState.sound_init opts) fun _ _ _ h hok hs => h.step hok hs
  refine ⟨fun lib hok => (h.add hok).imp fun _ hs => hs.1, fun addr => ⟨?_, ?_⟩⟩
  · intro hsome
    rw [← h.named_eq addr] at hsome
    unfold BpDict.named at hsome
    cases hbp : s.bps addr with
    | none => simp [hbp] at hsome
    | some bp => rfl
  · intro bp t ra hbp ht
    have hnamed : s.intercepted opts addr = bp.libsym := by
      rw [← h.named_eq addr, BpDict.named, hbp, Option.bind_some]
    rw [hnamed]
    exact handleBreakpoint_idle opts.toHitOptions s.bps (h.live addr bp hbp) ht ra

/-! ## A sample library -/

/-- A library that defines `operator new` as another name of `malloc`, with versions. -/
def sampleFile : SymFile :=
  ⟨"libtcmalloc.so", 0x10000, none, [some ⟨0x12, 0x500, 7, "_Znwm"⟩, none,
    some ⟨0x12, 0x500, 7, "malloc@@TC_4"⟩, some ⟨0x12, 0, 0, "free"⟩]⟩

def sampleOptions : SymOptions := ⟨⟨false, false⟩, []⟩

/-- The symbol of both names. -/
def sampleSym : Symbol := ⟨⟨0x10500⟩, ⟨"malloc", none, some reportMallocOut⟩⟩

theorem populateSymtab_sample : populateSymtab sampleOptions sampleFile = [sampleSym] := rfl

theorem intercepted_sample : sampleFile.intercepted sampleOptions 0x10500 = some sampleSym :=
  mem_populateSymtab.mp (populateSymtab_sample ▸ List.mem_singleton_self _)

theorem reportIn_lowest_level_sample :
    ∃ s bp bps' t', MapState.init.libraryAdd sampleOptions ⟨0, sampleFile⟩ = .ok s ∧
      s.bps 0x10500 = some bp ∧
      handleBreakpoint ⟨false, false⟩ s.bps ⟨none, none, none⟩ bp 0x400000 =
        .ok (bps', t', [.reportIn sampleSym]) := by
  have hok : MapState.init.Allowed sampleOptions (.add ⟨0, sampleFile⟩) :=
    ⟨fun lib h => (by cases h), fun sym _ => ⟨fun lib h => (by cases h), fun bp h => (by cases h)⟩⟩
  obtain ⟨s, hs⟩ := (reportIn_lowest_level sampleOptions .init).1 _ hok
  obtain ⟨-, hall⟩ := reportIn_lowest_level sampleOptions
    (.step (e := .add ⟨0, sampleFile⟩) .init hok hs)
  have hlibs : s.libs = [⟨0, sampleFile⟩] := by
    obtain ⟨bps, -, hs⟩ := Machine.bind_eq_ok.mp hs
    cases hs
    rfl
  have hsym : s.intercepted sampleOptions 0x10500 = some sampleSym := by
    unfold MapState.intercepted
    rw [hlibs, List.findSome?_cons]
    dsimp only
    rw [intercepted_sample]
  obtain ⟨hbps, hhit⟩ := hall 0x10500
  rw [hsym] at hbps hhit
  obtain ⟨bp, hbp⟩ := Option.isSome_iff_exists.mp (hbps rfl)
  obtain ⟨bps', t', ht⟩ := hhit bp ⟨none, none, none⟩ 0x400000 hbp rfl
  exact ⟨s, bp, bps', t', hs, hbp, ht⟩

end Mtrace.Server
