import Mtrace.Dwarf.Frames

/-!
# Taking a backtrace

The loop of `report_alloc64` and `report_alloc32` over `backtrace_get_ip` and `backtrace_step`.  Its
counter stays at a frame of the loader and at an address that has just been stored; a frame is
refused only if both its instruction pointer and its CFA are those of the frame before it.
-/

namespace Mtrace.Dwarf

open Relation

/-- `dwarf_get_ip`. -/
def Cursor.getIp (c : Cursor) : UInt64 := if c.valid then c.ip else 0

/-- `dwarf_location_type` is `LIBTYPE_LOADER`. -/
def Cursor.inLoader (c : Cursor) : Bool := c.libref.any (·.type = .loader)

/-- What the loop has: `data` of the payload up to `i`, and the cursor of the task. -/
structure Backtrace where
  data : List UInt64
  cursor : Cursor

namespace Space

variable (s : Space)

/-- `data` with the address of the frame, where it is stored; the loop is left at the address 0. -/
def storeIp (bt : Backtrace) : Option (List UInt64) :=
  let ip := s.trim bt.cursor.getIp
  if bt.cursor.inLoader then some bt.data
  else if bt.data.getLast? = some ip then some bt.data
  else if ip = 0 then none
  else some (bt.data ++ [ip])

/-- A pass of the loop.  Whatever is on the stack of the processor is in `buf` of `dwarf_step`. -/
def backtracePass (depth : ℕ) (buf : Fin 512 → UInt8) (bt : Backtrace) :
    Backtrace ⊕ Except Halt (List UInt64) :=
  if depth ≤ bt.data.length then .inr (.ok bt.data)
  else
    match s.storeIp bt with
    | none => .inr (.ok bt.data)
    | some data =>
      match s.dwarfStep s.copied (.ofFn buf) bt.cursor with
      | .ok () cursor => .inl ⟨data, cursor⟩
      | .error (.error _) _ => .inr (.ok data)
      | .error h _ => .inr (.error h)

/-- `backtrace_init_unwind`, behind the address of the symbol; where it fails, there is no loop. -/
def backtraceStart (addr : UInt64) : Option Backtrace :=
  match s.initUnwind with
  | (true, cursor) => some ⟨[s.trim addr], cursor⟩
  | (false, _) => none

/-- The loop ends, whatever is in `buf`, if no call of `dwarf_step` goes on for ever. -/
def BacktraceEnds (depth : ℕ) (addr : UInt64) : Prop :=
  ∀ bt ∈ s.backtraceStart addr, Orbit.EndsAlways (s.backtracePass depth) bt

/-- The loop gets from one state to the other. -/
def BacktraceGoes (depth : ℕ) : Backtrace → Backtrace → Prop :=
  ReflTransGen (Orbit.Goes (s.backtracePass depth))

end Space

/-! ## Passes -/

section Passes

variable {s : Space} {depth : ℕ} {addr : UInt64} {bt bt' : Backtrace} {data : List UInt64}

/-- An address is added, or none is. -/
theorem storeIp_cases (h : s.storeIp bt = some data) :
    data = bt.data ∨ data.length = bt.data.length + 1 := by
  unfold Space.storeIp at h
  dsimp only at h
  split at h
  · exact .inl (Option.some.inj h).symm
  split at h
  · exact .inl (Option.some.inj h).symm
  split at h
  · cases h
  · cases h
    exact .inr List.length_append

/-- All that a pass can do: `data` gets an address or stays, and the cursor goes to the caller. -/
theorem goes_cases (h : Orbit.Goes (s.backtracePass depth) bt bt') :
    bt.data.length < depth ∧ s.storeIp bt = some bt'.data ∧
      ∃ buf, s.dwarfStep s.copied buf bt.cursor = .ok () bt'.cursor := by
  obtain ⟨buf, h⟩ := h
  unfold Space.backtracePass at h
  split at h
  · cases h
  next hdepth =>
    cases hstore : s.storeIp bt with
    | none =>
      rw [hstore] at h
      cases h
    | some data =>
      rw [hstore] at h
      dsimp only at h
      split at h
      next cursor hstep =>
        cases h
        exact ⟨Nat.lt_of_not_le hdepth, rfl, .ofFn buf, hstep⟩
      next => cases h
      next => cases h

end Passes

/-! ## Frames that go up -/

/-- An address that is stored counts more than any CFA. -/
def Backtrace.progress (bt : Backtrace) : ℕ := bt.data.length * 2 ^ 64 + bt.cursor.cfa.toNat

/-- The caller's frame is above one of which no address is stored. -/
def Space.Ascends (s : Space) (bt : Backtrace) : Prop :=
  s.storeIp bt = some bt.data → ∀ buf c', s.dwarfStep s.copied buf bt.cursor = .ok () c' →
    bt.cursor.cfa < c'.cfa

/-- A pass stores an address, or its frame is above the one before. -/
theorem progress_lt {s : Space} {depth : ℕ} {bt bt' : Backtrace} (hup : s.Ascends bt)
    (h : Orbit.Goes (s.backtracePass depth) bt bt') :
    bt.progress < bt'.progress ∧ bt.progress < depth * 2 ^ 64 := by
  obtain ⟨hdepth, hstore, buf, hstep⟩ := goes_cases h
  have hcfa := bt.cursor.cfa.toNat_lt
  unfold Backtrace.progress
  refine ⟨?_, by omega⟩
  obtain hsame | hmore := storeIp_cases hstore
  · rw [hsame] at hstore ⊢
    have hlt := UInt64.lt_iff_toNat_lt.mp (hup hstore buf _ hstep)
    omega
  · rw [hmore]
    omega

theorem backtraceEnds_of_ascends {s : Space} {depth : ℕ} {addr : UInt64}
    (h : ∀ bt₀ ∈ s.backtraceStart addr, ∀ bt, s.BacktraceGoes depth bt₀ bt → s.Ascends bt) :
    s.BacktraceEnds depth addr :=
  fun bt₀ hstart => Orbit.endsAlways_of_increasing Backtrace.progress (depth * 2 ^ 64)
    fun bt _ hbt hpass => progress_lt (h bt₀ hstart bt hbt) hpass

/-! ## A backtrace that goes on for ever -/

section Unchanged

variable {s : Space} {c c1 : Cursor} {rs : RegState} {ip : UInt64}

theorem applyRules_same {cfa : UInt64} {is : List ℕ} (h : ∀ i ∈ is, (rs i).saved = .same) :
    s.applyRules rs cfa is c = .ok () c := by
  induction is with
  | nil => rfl
  | cons i is ih =>
    have hrule : s.applyRule cfa c i (rs i) = .ok (c.loc i) := by
      unfold Space.applyRule
      rw [h i List.mem_cons_self]
    have hplace : c.setLoc i (c.loc i) = c := by
      unfold Cursor.setLoc
      rw [Function.update_eq_self]
    rw [applyRules_cons_ok hrule, hplace]
    exact ih fun j hj => h j (List.mem_cons_of_mem i hj)

/-- The row of an entry, and what the cursor takes over from the entry. -/
theorem hasRow_of_search {l : Server.Libref} {dci : CieInfo}
    (hip : (if c.usePrevInstr then c.ip - 1 else c.ip) = ip) (hl : c.libref = some l)
    (hsearch : s.searchUnwindTable l ip c.dci = (.ok (), dci))
    (hcolumn : ¬ .ofNat s.numRegs ≤ dci.retAddrColumn) (hrow : s.cfiRow l.pltgot dci ip = .ok rs) :
    ∃ c1, s.HasRow c rs c1 ∧ c1.libref = c.libref ∧ c1.dci = dci ∧
      c1.retAddrColumn = dci.retAddrColumn ∧ c1.usePrevInstr = !dci.signalFrame := by
  have hinfo : s.fetchProcInfo ip c =
      .ok l.pltgot { c with dci, usePrevInstr := !dci.signalFrame } := by
    unfold Space.fetchProcInfo
    rw [hl]
    dsimp only
    rw [hsearch]
  refine ⟨{ c with dci, usePrevInstr := !dci.signalFrame, retAddrColumn := dci.retAddrColumn },
    ⟨l.pltgot, _, hip ▸ hinfo, ?_⟩, rfl, rfl, rfl, rfl⟩
  rw [hip]
  unfold Space.parseFde
  refine bind_eq_ok.mpr ⟨_, _, rfl, ?_⟩
  dsimp only
  rw [if_neg hcolumn]
  refine bind_eq_ok.mpr ⟨(), _, rfl, ?_⟩
  rw [hrow]
  rfl

/-- A row that leaves all registers as they were leads to the same frame, with another CFA. -/
theorem dwarfStep_unchanged {copies : ℕ → UInt64 → Copy} {buf : List UInt8} (h : s.HasRow c rs c1)
    (hvalid : c.valid = true) (hbase : rs s.cfaRegColumn = ⟨.reg, .ofNat s.retReg⟩)
    (hsame : ∀ i < s.numRegs, (rs i).saved = .same) (hret : s.retReg < s.numRegs)
    (hoff : (rs s.cfaOffColumn).val ≠ 0) (hip : s.callerIp c1 = .ok c.ip)
    (hlib : c1.libref.any (·.inText (c1.lookedUp c.ip)) = true) :
    ∃ c2, s.dwarfStep copies buf c = .ok () c2 ∧ c2.ip = c.ip ∧ c2.valid = c.valid ∧
      c2.libref = c1.libref ∧ c2.loc = c.loc ∧ c2.dci = c1.dci := by
  obtain ⟨hkept, hcfa, hloc, hvalid'⟩ := h.kept
  have hrow : s.rowCfa c1 rs = .ok (c.cfa + (rs s.cfaOffColumn).val) := by
    unfold Space.rowCfa
    rw [hbase]
    dsimp only
    rw [if_pos ⟨rfl, hsame _ hret⟩, ← hcfa]
    rfl
  have hmoves : ¬ (c.ip = c1.ip ∧ c.cfa + (rs s.cfaOffColumn).val = c1.cfa) := by
    rintro ⟨-, heq⟩
    rw [hcfa] at heq
    exact hoff (UInt64.add_eq_left.mp heq)
  have hcaller : s.callerIp { c1 with cfa := c.cfa + (rs s.cfaOffColumn).val } = .ok c.ip := hip
  have happly : s.applyRegState rs c1 =
      .ok () { c1 with cfa := c.cfa + (rs s.cfaOffColumn).val } := by
    show (Unwinder.ofExcept (s.rowCfa c1 rs) >>= _) c1 = _
    rw [hrow]
    refine bind_eq_ok.mpr ⟨_, c1, rfl, bind_eq_ok.mpr ⟨(), c1,
      applyRules_same fun i hi => hsame i (List.mem_range.mp hi), ?_⟩⟩
    rw [finishFrame_eq, hcaller]
    dsimp only
    rw [if_neg hmoves, ← hkept]
  have hlocate : s.locateMap { c1 with cfa := c.cfa + (rs s.cfaOffColumn).val } c1.ip =
      (true, { c1 with cfa := c.cfa + (rs s.cfaOffColumn).val }) := by
    rw [locateMap_eq, if_pos]
    rw [hkept]
    exact hlib
  have hstep : s.dwarfStep copies buf c = .ok () _ :=
    dwarfStep_of_row h hvalid happly (by rw [hlocate])
  rw [hlocate] at hstep
  exact ⟨_, hstep, hkept, hvalid', rfl, hloc, rfl⟩

end Unchanged

namespace Space

variable (s : Space)

/-- The stopped task is in a function of the library `l` for which the tables have the entry `dci`. 
Its rows leave all registers as they were, the return address too, and the CFA is not the stack
pointer. -/
structure Unsaved (l : Server.Libref) (dci : CieInfo) : Prop where
  found : s.initUnwind.1 = true
  libref : s.initUnwind.2.libref = some l
  loader : l.type ≠ .loader
  ip_ne_zero : s.trim (s.fetchReg 16) ≠ 0
  text : l.inText (s.fetchReg 16 - 1) = true
  column : dci.retAddrColumn = .ofNat s.ipReg
  signalFrame : dci.signalFrame = false
  search : ∀ ip ∈ [s.fetchReg 16, s.fetchReg 16 - 1], ∀ dci' ∈ [.zero, dci],
    s.searchUnwindTable l ip dci' = (.ok (), dci)
  row : ∀ ip ∈ [s.fetchReg 16, s.fetchReg 16 - 1], ∃ rs, s.cfiRow l.pltgot dci ip = .ok rs ∧
    rs s.cfaRegColumn = ⟨.reg, .ofNat s.retReg⟩ ∧ (rs s.cfaOffColumn).val ≠ 0 ∧
    ∀ i < s.numRegs, (rs i).saved = .same

/-- What no step changes then: the frame is that of the stopped task, whatever its CFA is. -/
structure Stuck (l : Server.Libref) (dci : CieInfo) (c : Cursor) : Prop where
  ip : c.ip = s.fetchReg 16
  valid : c.valid = true
  libref : c.libref = some l
  loc : c.loc s.ipReg = .ofReg (.ofNat s.ipReg)
  dci : c.dci ∈ [.zero, dci]

/-- The loop is at that frame, with nothing stored behind its address. -/
structure Stalled (l : Server.Libref) (dci : CieInfo) (addr : UInt64) (bt : Backtrace) : Prop where
  cursor : s.Stuck l dci bt.cursor
  data : bt.data = [s.trim addr] ∨ bt.data = [s.trim addr, s.trim (s.fetchReg 16)]

end Space

section Unsaved

variable {s : Space} {l : Server.Libref} {dci : CieInfo} {c : Cursor} {bt : Backtrace} {depth : ℕ}
  {addr : UInt64}

theorem regs_numbered : s.ipReg < s.numRegs ∧ s.retReg < s.numRegs := by
  unfold Space.ipReg Space.retReg Space.numRegs Space.regnumMap
  cases s.is64bit <;> decide

theorem accessReg_ipReg : s.accessReg (.ofNat s.ipReg) = .ok (s.fetchReg 16) := by
  unfold Space.accessReg Space.ipReg Space.regnumMap
  cases s.is64bit <;> rfl

theorem Space.Unsaved.stuck_init (h : s.Unsaved l dci) : s.Stuck l dci s.initUnwind.2 := by
  obtain ⟨hip, -, hloc, hvalid⟩ := initUnwind_kept (s := s)
  have hdci : s.initUnwind.2.dci = .zero := by
    unfold Space.initUnwind
    rw [locateMap_eq]
    split <;> rfl
  refine ⟨hip, hvalid, h.libref, ?_, ?_⟩
  · rw [hloc]
    rfl
  · rw [hdci]
    exact List.mem_cons_self

/-- A step from the frame leads to the same frame, with another CFA. -/
theorem Space.Unsaved.step (h : s.Unsaved l dci) (hc : s.Stuck l dci c)
    (copies : ℕ → UInt64 → Copy) (buf : List UInt8) :
    ∃ c', s.dwarfStep copies buf c = .ok () c' ∧ s.Stuck l dci c' := by
  have hip : (if c.usePrevInstr then c.ip - 1 else c.ip) ∈ [s.fetchReg 16, s.fetchReg 16 - 1] := by
    rw [hc.ip]
    cases c.usePrevInstr with
    | true => exact List.mem_cons_of_mem _ (List.mem_singleton_self _)
    | false => exact List.mem_cons_self
  obtain ⟨rs, hcfi, hbase, hoff, hsame⟩ := h.row _ hip
  obtain ⟨hipReg, hretReg⟩ := regs_numbered (s := s)
  have hle := numRegs_le (s := s)
  have hcolumn : ¬ .ofNat s.numRegs ≤ dci.retAddrColumn := by
    rw [h.column, UInt64.le_iff_toNat_le, toNat_ofNat_of_lt (by omega),
      toNat_ofNat_of_lt (by omega)]
    omega
  obtain ⟨c1, hrow, hlibref, hdci, hra, huse⟩ := hasRow_of_search rfl hc.libref
    (h.search _ hip _ hc.dci) hcolumn hcfi
  obtain ⟨-, -, hloc, -⟩ := hrow.kept
  have hcaller : s.callerIp c1 = .ok c.ip := by
    have hnat : (UInt64.ofNat s.ipReg).toNat = s.ipReg := toNat_ofNat_of_lt (by omega)
    unfold Space.callerIp
    have hnotNull : DwarfLoc.ofReg (.ofNat s.ipReg) ≠ .null := fun hnull => by
      cases congrArg DwarfLoc.type hnull
    rw [hra, h.column, hnat, hloc, hc.loc, hc.ip, if_neg hnotNull]
    exact accessReg_ipReg
  have hlib : c1.libref.any (·.inText (c1.lookedUp c.ip)) = true := by
    unfold Cursor.lookedUp
    rw [huse, h.signalFrame, hlibref, hc.ip, hc.libref]
    exact h.text
  obtain ⟨c2, hstep, hip2, hvalid, hlibref2, hloc2, hdci2⟩ := dwarfStep_unchanged hrow hc.valid
    hbase hsame hretReg hoff hcaller hlib
  refine ⟨c2, hstep, hip2.trans hc.ip, hvalid.trans hc.valid,
    hlibref2.trans (hlibref.trans hc.libref),
    (congrFun hloc2 _).trans hc.loc, ?_⟩
  rw [hdci2, hdci]
  exact List.mem_cons_of_mem _ (List.mem_singleton_self _)

/-- The address of the frame is stored once at most. -/
theorem Space.Unsaved.pass (h : s.Unsaved l dci) (hdepth : 3 ≤ depth) (buf : Fin 512 → UInt8)
    (hbt : s.Stalled l dci addr bt) :
    ∃ bt', s.backtracePass depth buf bt = .inl bt' ∧ s.Stalled l dci addr bt' := by
  obtain ⟨hc, hdata⟩ := hbt
  have hloader : bt.cursor.inLoader = false := by
    unfold Cursor.inLoader
    rw [hc.libref]
    exact decide_eq_false h.loader
  have hip : s.trim bt.cursor.getIp = s.trim (s.fetchReg 16) := by
    unfold Cursor.getIp
    rw [if_pos hc.valid, hc.ip]
  obtain ⟨data, hstore, hdata'⟩ : ∃ data, s.storeIp bt = some data ∧
      (data = [s.trim addr] ∨ data = [s.trim addr, s.trim (s.fetchReg 16)]) := by
    unfold Space.storeIp
    dsimp only
    rw [hip, hloader, if_neg Bool.false_ne_true]
    split
    · exact ⟨bt.data, rfl, hdata⟩
    case isFalse hlast =>
      rw [if_neg h.ip_ne_zero]
      obtain hdata | hdata := hdata
      · exact ⟨_, rfl, .inr (by rw [hdata]; rfl)⟩
      · exact absurd (by rw [hdata]; rfl) hlast
  obtain ⟨c', hstep, hc'⟩ := h.step hc s.copied (.ofFn buf)
  refine ⟨⟨data, c'⟩, ?_, hc', hdata'⟩
  have hlt : ¬ depth ≤ bt.data.length := by
    obtain hdata | hdata := hdata
    · rw [hdata]
      exact Nat.not_le_of_lt (Nat.lt_of_lt_of_le (by decide : 1 < 3) hdepth)
    · rw [hdata]
      exact Nat.not_le_of_lt (Nat.lt_of_lt_of_le (by decide : 2 < 3) hdepth)
  unfold Space.backtracePass
  rw [if_neg hlt, hstore]
  dsimp only
  rw [hstep]

theorem Space.Unsaved.not_ends (h : s.Unsaved l dci) (hdepth : 3 ≤ depth) :
    ¬ s.BacktraceEnds depth addr := by
  intro hends
  have hstart : (⟨[s.trim addr], s.initUnwind.2⟩ : Backtrace) ∈ s.backtraceStart addr := by
    have hfound := h.found
    unfold Space.backtraceStart
    cases hinit : s.initUnwind with
    | mk found c =>
      rw [hinit] at hfound
      cases hfound
      rfl
  obtain ⟨n, r, hend⟩ := hends _ hstart fun _ _ => 0
  obtain ⟨bt, hrun, -⟩ := Orbit.runWith_stays
    (fun buf _ hbt => h.pass hdepth buf hbt) (x := ⟨[s.trim addr], s.initUnwind.2⟩)
    ⟨h.stuck_init, .inl rfl⟩ n
  cases hrun.symm.trans hend

end Unsaved

namespace Space

variable (s : Space)

/-- The cursor at the caller, if the tables lead to it. -/
def tableCursor (c : Cursor) : Option Cursor :=
  match s.tableStep (if c.usePrevInstr then c.ip - 1 else c.ip) c with
  | .ok () c' => some c'
  | .error _ _ => none

end Space

section Computed

variable {s : Space} {c c' : Cursor}

/-- What the tables say of a frame does not depend on what is in `buf`. -/
theorem dwarfStep_of_table {copies : ℕ → UInt64 → Copy} {buf : List UInt8} (hvalid : c.valid = true)
    (h : s.tableCursor c = some c') : s.dwarfStep copies buf c = .ok () c' := by
  unfold Space.tableCursor at h
  unfold Space.dwarfStep Space.unwindStep
  rw [if_neg (by rw [hvalid]; decide)]
  dsimp only
  split at h
  case h_1 c1 htable =>
    cases h
    rw [htable]
  case h_2 => cases h

end Computed

/-- A frame outside of the loader, with its address and its CFA. -/
def Cursor.IsAt (c : Cursor) (ip cfa : UInt64) : Prop :=
  c.valid = true ∧ c.inLoader = false ∧ c.getIp = ip ∧ c.cfa = cfa

instance (c : Cursor) (ip cfa : UInt64) : Decidable (c.IsAt ip cfa) :=
  inferInstanceAs (Decidable (_ ∧ _ ∧ _ ∧ _))

/-- What is stored of a frame of the task. -/
theorem storeIp_at {bt : Backtrace} {ip cfa : UInt64} (h : bt.cursor.IsAt ip cfa) (hnz : ip ≠ 0) :
    (stoppedTask 2).storeIp bt =
      some (if bt.data.getLast? = some ip then bt.data else bt.data ++ [ip]) := by
  have hip : (stoppedTask 2).trim bt.cursor.getIp = ip := h.2.2.1
  unfold Space.storeIp
  dsimp only
  rw [h.2.1, hip, if_neg Bool.false_ne_true, if_neg hnz]
  split <;> rfl

theorem start_stoppedTask {bt : Backtrace} (h : bt ∈ (stoppedTask 2).backtraceStart 0x400044) :
    bt.cursor = (stoppedTask 2).initUnwind.2 ∧ bt.data = [0x400044] := by
  unfold Space.backtraceStart at h
  cases hinit : (stoppedTask 2).initUnwind with
  | mk found c =>
    rw [hinit] at h
    cases found with
    | true =>
      cases h
      exact ⟨rfl, rfl⟩
    | false => cases h

/-- The frames of `stoppedTask`. -/
theorem frames_stoppedTask : ∃ c1 c2, (stoppedTask 2).initUnwind.2.IsAt 0x400044 0x7000 ∧
    (stoppedTask 2).tableCursor (stoppedTask 2).initUnwind.2 = some c1 ∧ c1.IsAt 0x400048 0x7010 ∧
    (stoppedTask 2).tableCursor c1 = some c2 ∧ c2.IsAt 0x40004c 0x7020 := by
  have hfirst : (stoppedTask 2).initUnwind.2.IsAt 0x400044 0x7000 := by decide +kernel
  have hnext : ((stoppedTask 2).tableCursor (stoppedTask 2).initUnwind.2).any (fun c1 =>
      decide (c1.IsAt 0x400048 0x7010) && ((stoppedTask 2).tableCursor c1).any fun c2 =>
        decide (c2.IsAt 0x40004c 0x7020)) = true := by decide +kernel
  obtain ⟨c1, hc1, hboth⟩ := (Option.any_eq_true ..).mp hnext
  obtain ⟨hat1, hlast⟩ := Bool.and_eq_true_iff.mp hboth
  obtain ⟨c2, hc2, hat2⟩ := (Option.any_eq_true ..).mp hlast
  exact ⟨c1, c2, hfirst, hc1, of_decide_eq_true hat1, hc2, of_decide_eq_true hat2⟩

/-- The function of `unwindTables` without the rule of its CIE that says where the return address
is. -/
def unsavedReturn : Space :=
  { stoppedTask 2 with
    image := fun addr =>
      if 0x7f0000001074 ≤ addr ∧ addr < 0x7f0000001076 then 0 else (mapped 0x1040).image addr }

/-- The entry of the function. -/
def unsavedEntry : CieInfo :=
  (unsavedReturn.searchUnwindTable (librefOf 0x1040 oneSegment) 0x400044 .zero).2

/-- The CFA is 8 above the stack pointer, and nothing is said of any register. -/
def onlyCfa (r : Except Halt RegState) : Bool :=
  match r with
  | .ok rs =>
    decide (rs 17 = ⟨.reg, 7⟩ ∧ (rs 18).val ≠ 0 ∧ ∀ i ∈ List.range 17, (rs i).saved = .same)
  | .error _ => false

theorem unsaved_unsavedReturn :
    unsavedReturn.Unsaved (librefOf 0x1040 oneSegment) unsavedEntry where
  found := by decide +kernel
  libref := by decide +kernel
  loader := by decide +kernel
  ip_ne_zero := by decide +kernel
  text := by decide +kernel
  column := by decide +kernel
  signalFrame := by decide +kernel
  search ip hip dci' hdci := by
    have hsearch : ∀ ip ∈ [unsavedReturn.fetchReg 16, unsavedReturn.fetchReg 16 - 1],
        ([.zero, unsavedEntry] : List CieInfo).all (fun dci' =>
          decide (unsavedReturn.searchUnwindTable (librefOf 0x1040 oneSegment) ip dci' =
            (.ok (), unsavedEntry))) = true := forall_of_all (by decide +kernel)
    exact of_decide_eq_true (List.all_eq_true.mp (hsearch ip hip) dci' hdci)
  row ip hip := by
    have honly : ∀ ip ∈ [unsavedReturn.fetchReg 16, unsavedReturn.fetchReg 16 - 1],
        onlyCfa (unsavedReturn.cfiRow (librefOf 0x1040 oneSegment).pltgot unsavedEntry ip) = true :=
      forall_of_all (by decide +kernel)
    have honly := honly ip hip
    cases hrow : unsavedReturn.cfiRow (librefOf 0x1040 oneSegment).pltgot unsavedEntry ip with
    | ok rs =>
      rw [hrow] at honly
      obtain ⟨hcfa, hoff, hsame⟩ := of_decide_eq_true honly
      exact ⟨rs, rfl, hcfa, hoff, fun i hi => hsame i (List.mem_range.mpr hi)⟩
    | error e =>
      rw [hrow] at honly
      cases honly

end Mtrace.Dwarf
