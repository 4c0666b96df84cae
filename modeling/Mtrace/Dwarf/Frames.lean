import Mtrace.Dwarf.Locate
import Mtrace.Dwarf.Guess
import Mtrace.Dwarf.Rules
import Mtrace.Dwarf.StartIp
import Mtrace.Dwarf.Words

/-!
# The registers of the callers

The row of a frame says where the registers of its caller are: the return address is saved at an
offset from the CFA, and so are the registers that the frame uses; the others are as they were.  The
frames of a chain follow from the registers of the stopped task and its stack; `dwarf_step` finds
them one after the other, as the places of registers. -/

namespace Mtrace.Dwarf

/-! ## Frames -/

/-- A frame of a chain.  Its CFA is that of the row which led to it, and the stack pointer at first;
a register whose place cannot be read has no value. -/
structure Frame where
  ip : UInt64
  cfa : UInt64
  reg : ℕ → Option UInt64

namespace Space

variable (s : Space)

/-- A word on the stack of the task. -/
def savedWord (addr : UInt64) : Option UInt64 :=
  (s.number (s.trim addr) s.addrSize).map .ofNat

/-- The frame of the stopped task. -/
def contextFrame : Frame where
  ip := s.trim (s.regs 16)
  cfa := s.trim (s.regs 19)
  reg n := s.regnumMap[n]?.map fun map => s.trim (s.regs map)

/-- The register on which the CFA of a row is based. -/
def cfaBase (rs : RegState) : ℕ := (rs s.cfaRegColumn).val.toNat

/-- The row gives the CFA as a register and an offset, the return address, in the column `ra`, as
saved at an offset from the CFA, and the other registers as saved so or unchanged. -/
structure Complete (rs : RegState) (ra : ℕ) : Prop where
  cfa : (rs s.cfaRegColumn).saved = .reg
  base : s.cfaBase rs < s.numRegs
  column : ra < s.numRegs
  ret : (rs ra).saved = .cfarel
  others : ∀ i < s.numRegs, (rs i).saved = .same ∨ (rs i).saved = .cfarel

end Space

/-- The frame of the caller.  Its stack pointer is the CFA, unless that is saved too. -/
def Frame.caller (f : Frame) (s : Space) (rs : RegState) (ra : ℕ) : Option Frame := do
  let base ← f.reg (s.cfaBase rs)
  let cfa := s.trim (base + (rs s.cfaOffColumn).val)
  let ip ← s.savedWord (cfa + (rs ra).val)
  return {
    ip, cfa
    reg := fun i =>
      if i = s.ipReg then some ip
      else if (rs i).saved = .cfarel then s.savedWord (cfa + (rs i).val)
      else if i = s.retReg then some cfa
      else f.reg i }

/-! ## Chains -/

namespace Space

variable (s : Space)

/-- The tables have the row `rs` for the frame at which the cursor is; `c'` is the cursor with what
`dwarf_step` notes before it applies the row. -/
def HasRow (c : Cursor) (rs : RegState) (c' : Cursor) : Prop :=
  ∃ gp mid, s.fetchProcInfo (if c.usePrevInstr then c.ip - 1 else c.ip) c = .ok gp mid ∧
    s.parseFde gp (if c.usePrevInstr then c.ip - 1 else c.ip) mid = .ok rs c'

/-- The register with the number 13 of a 64-bit task is known: it has been saved by one of these
frames, or the context has the same value in `r15`. -/
def KnowsR13 (rows : List RegState) : Prop :=
  s.is64bit = true → s.regs 2 = s.regs 0 ∨ ∃ rs ∈ rows, (rs 13).saved = .cfarel

/-- `dwarf_init_unwind` and successful calls of `dwarf_step` along a chain of frames with complete
rows, the last one first, each of which meets a condition. -/
inductive Unwinds (meets : List RegState → Frame → RegState → Cursor → Frame → Prop) :
    List RegState → Cursor → Frame → Prop where
  | init : Unwinds meets [] s.initUnwind.2 s.contextFrame
  | step {rows : List RegState} {c c1 c' : Cursor} {f f' : Frame} {rs : RegState}
      {copies : ℕ → UInt64 → Copy} {buf : List UInt8} (h : Unwinds meets rows c f)
      (hrow : s.HasRow c rs c1) (hcomplete : s.Complete rs c1.retAddrColumn.toNat)
      (hcaller : f.caller s rs c1.retAddrColumn.toNat = some f') (hmeets : meets rows f rs c1 f')
      (hstep : s.dwarfStep copies buf c = .ok () c') : Unwinds meets (rs :: rows) c' f'

/-- The condition for a step. -/
structure Traceable (rows : List RegState) (f : Frame) (rs : RegState) (c : Cursor) (f' : Frame) :
    Prop where
  /-- A stack pointer on which the CFA is based is the CFA of the frame before. -/
  stack : s.cfaBase rs = s.retReg → f.reg s.retReg = some f.cfa
  r13 : s.cfaBase rs = 13 → s.KnowsR13 rows
  /-- The CFA does not wrap around the end of the addresses of a 32-bit task. -/
  fits : ∀ base, f.reg (s.cfaBase rs) = some base →
    s.trim (base + (rs s.cfaOffColumn).val) = base + (rs s.cfaOffColumn).val
  moves : ¬ (f'.ip = f.ip ∧ f'.cfa = f.cfa)
  /-- The return address is in a library. -/
  located : (s.locateMap c f'.ip).1 = true
  /-- Where a register is saved, more than its own bytes can be read. -/
  readable : ∀ i < s.numRegs, (rs i).saved = .cfarel →
    s.Peekable (s.trim (f'.cfa + (rs i).val)) s.addrSize

end Space

/-! ## A step -/

section Step

variable {s : Space} {c c1 c2 : Cursor} {rs : RegState} {ip : UInt64}

theorem fetchProcInfo_kept {gp : UInt64} (h : s.fetchProcInfo ip c = .ok gp c1) :
    c1.ip = c.ip ∧ c1.cfa = c.cfa ∧ c1.loc = c.loc ∧ c1.valid = c.valid := by
  unfold Space.fetchProcInfo at h
  cases hlib : c.libref with
  | none =>
    rw [hlib] at h
    cases h
  | some libref =>
    rw [hlib] at h
    dsimp only at h
    cases hsearch : s.searchUnwindTable libref ip c.dci with
    | mk r dci =>
      rw [hsearch] at h
      cases r with
      | error e => cases h
      | ok u =>
        cases h
        exact ⟨rfl, rfl, rfl, rfl⟩

theorem parseFde_kept {gp : UInt64} (h : s.parseFde gp ip c = .ok rs c1) :
    c1.ip = c.ip ∧ c1.cfa = c.cfa ∧ c1.loc = c.loc ∧ c1.valid = c.valid := by
  unfold Space.parseFde at h
  obtain ⟨_, _, hget, h⟩ := bind_eq_ok.mp h
  cases hget
  split at h
  · cases h
  · obtain ⟨_, _, hset, h⟩ := bind_eq_ok.mp h
    cases hset
    cases hrow : s.cfiRow gp c.dci ip with
    | error e =>
      rw [hrow] at h
      cases h
    | ok row =>
      rw [hrow] at h
      cases h
      exact ⟨rfl, rfl, rfl, rfl⟩

/-- Nothing of the frame changes until the row is applied. -/
theorem Space.HasRow.kept (h : s.HasRow c rs c1) :
    c1.ip = c.ip ∧ c1.cfa = c.cfa ∧ c1.loc = c.loc ∧ c1.valid = c.valid := by
  obtain ⟨gp, mid, hinfo, hfde⟩ := h
  obtain ⟨hip, hcfa, hloc, hvalid⟩ := fetchProcInfo_kept hinfo
  obtain ⟨hip', hcfa', hloc', hvalid'⟩ := parseFde_kept hfde
  exact ⟨hip'.trans hip, hcfa'.trans hcfa, hloc'.trans hloc, hvalid'.trans hvalid⟩

/-- A row that can be applied, with the caller in a library, is all of `dwarf_step`. -/
theorem dwarfStep_of_row {copies : ℕ → UInt64 → Copy} {buf : List UInt8} (h : s.HasRow c rs c1)
    (hvalid : c.valid = true) (happly : s.applyRegState rs c1 = .ok () c2)
    (hlocate : (s.locateMap c2 c2.ip).1 = true) :
    s.dwarfStep copies buf c = .ok () (s.locateMap c2 c2.ip).2 := by
  obtain ⟨gp, mid, hinfo, hfde⟩ := h
  have hlocated : s.locate c2.ip c2 = .ok () (s.locateMap c2 c2.ip).2 := by
    unfold Space.locate
    cases hmap : s.locateMap c2 c2.ip with
    | mk found c3 =>
      rw [hmap] at hlocate
      cases hlocate
      rfl
  have htable : s.tableStep (if c.usePrevInstr then c.ip - 1 else c.ip) c =
      .ok () (s.locateMap c2 c2.ip).2 :=
    bind_eq_ok.mpr ⟨gp, mid, hinfo, bind_eq_ok.mpr ⟨rs, c1, hfde, bind_eq_ok.mpr ⟨(), c2, happly,
      bind_eq_ok.mpr ⟨c2, c2, rfl, hlocated⟩⟩⟩⟩
  unfold Space.dwarfStep Space.unwindStep
  rw [if_neg (by rw [hvalid]; decide)]
  dsimp only
  rw [htable]

/-- The library of an address depends on what is cached alone. -/
theorem locateMap_congr (hlib : c2.libref = c1.libref) (hprev : c2.usePrevInstr = c1.usePrevInstr) :
    (s.locateMap c2 ip).1 = (s.locateMap c1 ip).1 := by
  have hlooked : c2.lookedUp ip = c1.lookedUp ip := by
    unfold Cursor.lookedUp
    rw [hprev]
  rw [locateMap_eq, locateMap_eq, hlib, hlooked]
  split <;> rfl

theorem locateMap_kept (ip : UInt64) : (s.locateMap c ip).2.ip = c.ip ∧
    (s.locateMap c ip).2.cfa = c.cfa ∧ (s.locateMap c ip).2.loc = c.loc ∧
      (s.locateMap c ip).2.valid = c.valid := by
  rw [locateMap_eq]
  split
  · exact ⟨rfl, rfl, rfl, rfl⟩
  · exact ⟨rfl, rfl, rfl, rfl⟩

theorem dwarfGet_null : s.dwarfGet .null = .error (.error .inval) := by
  show (if s.trim 0 = 0 then _ else _ : Except Halt UInt64) = _
  rw [trim_zero, if_pos rfl]

/-- A row of registers that are saved on the stack or unchanged is applied at once. -/
theorem applyRegState_ok {cfa ip : UInt64}
    (hcfa : s.rowCfa c rs = .ok cfa)
    (hrules : ∀ i < s.numRegs, (rs i).saved = .same ∨ (rs i).saved = .cfarel)
    (hra : c.retAddrColumn.toNat < s.numRegs) (hret : (rs c.retAddrColumn.toNat).saved = .cfarel)
    (hip : s.dwarfGet (.ofMem (cfa + (rs c.retAddrColumn.toNat).val)) = .ok ip)
    (hmoves : ¬ (ip = c.ip ∧ cfa = c.cfa)) :
    s.applyRegState rs c = .ok () { c.upTo
      (fun i => if (rs i).saved = .cfarel then .ofMem (cfa + (rs i).val) else c.loc i)
        s.numRegs with
        cfa, ip } := by
  set loc := fun i => if (rs i).saved = .cfarel then DwarfLoc.ofMem (cfa + (rs i).val) else c.loc i
    with hloc
  have hloop : s.applyRules rs cfa (List.range s.numRegs) c = .ok () (c.upTo loc s.numRegs) := by
    refine applyRules_upTo fun i hi => ?_
    have hself : (c.upTo loc i).loc i = c.loc i := if_neg (lt_irrefl i)
    unfold Space.applyRule
    obtain hsame | hsaved := hrules i hi
    · rw [hsame]
      dsimp only
      rw [hself, hloc]
      dsimp only
      rw [if_neg (by rw [hsame]; decide)]
    · rw [hsaved]
      dsimp only
      rw [hloc]
      dsimp only
      rw [if_pos hsaved]
  have hplace : (c.upTo loc s.numRegs).loc c.retAddrColumn.toNat =
      .ofMem (cfa + (rs c.retAddrColumn.toNat).val) :=
    (if_pos hra).trans (if_pos hret)
  have hcaller : s.callerIp { c.upTo loc s.numRegs with cfa } = .ok ip := by
    unfold Space.callerIp
    show (if (c.upTo loc s.numRegs).loc c.retAddrColumn.toNat = .null then .ok 0
      else s.dwarfGet ((c.upTo loc s.numRegs).loc c.retAddrColumn.toNat)) = Except.ok ip
    rw [hplace, if_neg, hip]
    intro hnull
    rw [hnull, dwarfGet_null] at hip
    cases hip
  show (Unwinder.ofExcept (s.rowCfa c rs) >>= _) c = _
  rw [hcfa]
  refine bind_eq_ok.mpr ⟨cfa, c, rfl, bind_eq_ok.mpr ⟨(), _, hloop, ?_⟩⟩
  rw [finishFrame_eq, hcaller]
  dsimp only
  rw [if_neg hmoves]

end Step

/-! ## The whole chain -/

/-- The cursor is at a frame, with the places of its registers. -/
structure Recovered (s : Space) (rows : List RegState) (c : Cursor) (f : Frame) : Prop where
  ip : c.ip = f.ip
  cfa : c.cfa = f.cfa
  valid : c.valid = true
  ipReg : f.reg s.ipReg = some f.ip
  loc : ∀ r < s.numRegs, r ≠ s.ipReg → r ≠ s.retReg → (r = 13 → s.KnowsR13 rows) → ∀ v,
    f.reg r = some v → s.dwarfGet (c.loc r) = .ok v
  /-- While no frame has saved `R13`, it is where it was. -/
  r13 : ¬ s.KnowsR13 rows → c.loc 13 = .ofReg 13 ∧ f.reg 13 = some (s.trim (s.regs 2))

section Chain

variable {s : Space} {rows : List RegState} {c c1 : Cursor} {f f' : Frame} {rs : RegState}

/-- A place in a register is read as the context has it, but for the case of `R13`. -/
theorem accessReg_eq {r map : ℕ} (hmap : s.regnumMap[r]? = some map)
    (hr13 : map = 2 → s.regs 2 = s.regs 0) :
    s.dwarfGet (.ofReg (.ofNat r)) = .ok (s.trim (s.regs map)) := by
  have hlt : r < s.numRegs := (List.getElem?_eq_some_iff.mp hmap).1
  have hle := numRegs_le (s := s)
  have hnat : (UInt64.ofNat r).toUInt32.toNat = r := by
    rw [UInt64.toNat_toUInt32, UInt64.toNat_ofNat']
    omega
  show s.accessReg (.ofNat r) = _
  unfold Space.accessReg
  rw [hnat, hmap]
  dsimp only
  unfold Space.fetchReg
  split
  case isTrue h2 => rw [h2, hr13 h2]
  case isFalse => rfl

theorem regnumMap64_idxOf {r map : ℕ} (h : regnumMap64[r]? = some map) :
    r = regnumMap64.idxOf map := by
  obtain ⟨hlt, rfl⟩ := List.getElem?_eq_some_iff.mp h
  have hnodup : regnumMap64.Nodup := by decide
  exact (hnodup.idxOf_getElem r hlt).symm

/-- The number 2 of `R13` is that of the register 13 of a 64-bit task alone. -/
theorem regnumMap_eq_two {r : ℕ} (h : s.regnumMap[r]? = some 2) : s.is64bit = true ∧ r = 13 := by
  unfold Space.regnumMap at h
  split at h
  case isTrue h64 => exact ⟨h64, regnumMap64_idxOf h⟩
  case isFalse =>
    exact absurd (List.mem_of_getElem? h) (by decide)

/-- `R13` is neither the instruction pointer nor the stack pointer. -/
theorem r13_numbered (h64 : s.is64bit = true) : 13 < s.numRegs ∧ 13 ≠ s.ipReg ∧ 13 ≠ s.retReg := by
  unfold Space.numRegs Space.regnumMap Space.ipReg Space.retReg
  rw [if_pos h64, if_pos h64, if_pos h64]
  decide

/-- `R13` is read from `r15`. -/
theorem dwarfGet_r13 (h64 : s.is64bit = true) :
    s.dwarfGet (.ofReg 13) = .ok (s.trim (s.regs 0)) := by
  show s.accessReg 13 = _
  unfold Space.accessReg Space.regnumMap
  rw [if_pos h64]
  rfl

theorem Space.is64bit_of_unknown (s : Space) (h : ¬ s.KnowsR13 rows) : s.is64bit = true :=
  (Classical.not_imp.mp h).1

theorem regnumMap_ipReg : s.regnumMap[s.ipReg]? = some 16 := by
  unfold Space.regnumMap Space.ipReg
  cases s.is64bit with
  | true => rfl
  | false => rfl

theorem initUnwind_kept : s.initUnwind.2.ip = s.archInitUnwind.ip ∧
    s.initUnwind.2.cfa = s.archInitUnwind.cfa ∧ s.initUnwind.2.loc = s.archInitUnwind.loc ∧
      s.initUnwind.2.valid = s.archInitUnwind.valid := locateMap_kept _

theorem recovered_init : Recovered s [] s.initUnwind.2 s.contextFrame := by
  obtain ⟨hip, hcfa, hloc, hvalid⟩ := initUnwind_kept (s := s)
  constructor
  case ip => rw [hip]; rfl
  case cfa => rw [hcfa]; rfl
  case valid => rw [hvalid]; rfl
  case ipReg =>
    show s.regnumMap[s.ipReg]?.map _ = _
    rw [regnumMap_ipReg]
    rfl
  case loc =>
    intro r hr hrip hrret hr13 v hv
    obtain ⟨map, hmap, rfl⟩ := Option.map_eq_some_iff.mp hv
    rw [hloc]
    refine accessReg_eq hmap fun h2 => ?_
    rw [h2] at hmap
    obtain ⟨h64, h13⟩ := regnumMap_eq_two hmap
    obtain hsame | ⟨row, hrow, -⟩ := hr13 h13 h64
    · exact hsame
    · cases hrow
  case r13 =>
    intro hunknown
    have h64 := s.is64bit_of_unknown hunknown
    refine ⟨by rw [hloc]; rfl, ?_⟩
    show s.regnumMap[13]?.map _ = _
    unfold Space.regnumMap
    rw [if_pos h64]
    rfl

/-- The CFA of a row is that of the frame. -/
theorem Recovered.rowCfa (h : Recovered s rows c f) (hcfa : (rs s.cfaRegColumn).saved = .reg)
    (hbase : s.cfaBase rs < s.numRegs) (hstack : s.cfaBase rs = s.retReg →
    f.reg s.retReg = some f.cfa)
    (hr13 : s.cfaBase rs = 13 → s.KnowsR13 rows) {base : UInt64}
    (hreg : f.reg (s.cfaBase rs) = some base) :
    s.rowCfa c rs = .ok (base + (rs s.cfaOffColumn).val) := by
  have hle := numRegs_le (s := s)
  have hnat : (rs s.cfaRegColumn).val.toUInt32.toNat = s.cfaBase rs := by
    unfold Space.cfaBase at hbase ⊢
    rw [UInt64.toNat_toUInt32]
    omega
  have hget : s.getReg c (rs s.cfaRegColumn).val = .ok base := by
    unfold Space.getReg
    rw [hnat]
    dsimp only
    rw [if_neg (by omega)]
    by_cases hip : s.cfaBase rs = s.ipReg
    · rw [hip, h.ipReg] at hreg
      rw [if_pos hip, h.ip, Option.some.inj hreg]
    by_cases hret : s.cfaBase rs = s.retReg
    · rw [hret, hstack hret] at hreg
      rw [if_neg hip, if_pos hret, h.cfa, Option.some.inj hreg]
    · rw [if_neg hip, if_neg hret]
      exact h.loc _ hbase hip hret hr13 _ hreg
  unfold Space.rowCfa
  rw [hcfa]
  dsimp only
  by_cases hspecial : (rs s.cfaRegColumn).val = .ofNat s.retReg ∧ (rs s.retReg).saved = .same
  · have hret : s.cfaBase rs = s.retReg := by
      unfold Space.cfaBase
      rw [hspecial.1]
      unfold Space.retReg
      split <;> rfl
    rw [hret, hstack hret] at hreg
    rw [if_pos hspecial, h.cfa, Option.some.inj hreg]
    rfl
  · rw [if_neg hspecial, hget]
    rfl

theorem savedWord_eq_some {addr v : UInt64} (hpeek : s.Peekable (s.trim addr) s.addrSize)
    (h : s.savedWord addr = some v) : s.dwarfGet (.ofMem addr) = .ok v := by
  obtain ⟨n, hn, rfl⟩ := Option.map_eq_some_iff.mp h
  exact Space.access_of_number addrSize_pos addrSize_le hpeek hn

theorem Recovered.of_kept (h : Recovered s rows c f)
    (hkept : c1.ip = c.ip ∧ c1.cfa = c.cfa ∧ c1.loc = c.loc ∧ c1.valid = c.valid) :
    Recovered s rows c1 f := by
  obtain ⟨hip, hcfa, hloc, hvalid⟩ := hkept
  constructor
  case ip => rw [hip, h.ip]
  case cfa => rw [hcfa, h.cfa]
  case valid => rw [hvalid, h.valid]
  case ipReg => exact h.ipReg
  case loc =>
    rw [hloc]
    exact h.loc
  case r13 =>
    rw [hloc]
    exact h.r13

/-- A row that leaves `R13` alone does not make it known. -/
theorem Space.KnowsR13.of_cons (h : s.KnowsR13 (rs :: rows)) (hrs : (rs 13).saved ≠ .cfarel) :
    s.KnowsR13 rows := by
  intro h64
  obtain hsame | ⟨row, hmem, hsaved⟩ := h h64
  · exact .inl hsame
  · obtain rfl | hmem := List.mem_cons.mp hmem
    · exact absurd hsaved hrs
    · exact .inr ⟨row, hmem, hsaved⟩

/-- A row that saves `R13` makes it known, and what is known stays so. -/
theorem Space.not_knowsR13_of_cons (h : ¬ s.KnowsR13 (rs :: rows)) :
    (rs 13).saved ≠ .cfarel ∧ ¬ s.KnowsR13 rows := by
  refine ⟨fun hsaved => h fun _ => .inr ⟨rs, List.mem_cons_self, hsaved⟩,
    fun hknown => h fun h64 => ?_⟩
  obtain hsame | ⟨row, hmem, hsaved⟩ := hknown h64
  · exact .inl hsame
  · exact .inr ⟨row, List.mem_cons_of_mem _ hmem, hsaved⟩

/-- `dwarf_step` gets from a frame to its caller. -/
theorem Recovered.step {copies : ℕ → UInt64 → Copy} {buf : List UInt8} {c' : Cursor}
    (h : Recovered s rows c f) (hrow : s.HasRow c rs c1)
    (hcomplete : s.Complete rs c1.retAddrColumn.toNat)
    (hcaller : f.caller s rs c1.retAddrColumn.toNat = some f')
    (hmeets : s.Traceable rows f rs c1 f')
    (hstep : s.dwarfStep copies buf c = .ok () c') : Recovered s (rs :: rows) c' f' := by
  have h1 : Recovered s rows c1 f := h.of_kept hrow.kept
  obtain ⟨base, hbase, hcaller⟩ := Option.bind_eq_some_iff.mp hcaller
  obtain ⟨ip, hip, hcaller⟩ := Option.bind_eq_some_iff.mp hcaller
  have hfits := hmeets.fits base hbase
  rw [hfits] at hip hcaller
  obtain rfl := Option.some.inj hcaller
  set cfa := base + (rs s.cfaOffColumn).val with hcfa
  have hrowCfa : s.rowCfa c1 rs = .ok cfa :=
    h1.rowCfa hcomplete.cfa hcomplete.base hmeets.stack hmeets.r13 hbase
  have hmoves : ¬ (ip = c1.ip ∧ cfa = c1.cfa) := by
    rw [h1.ip, h1.cfa]
    exact hmeets.moves
  have happly := applyRegState_ok hrowCfa hcomplete.others hcomplete.column hcomplete.ret
    (savedWord_eq_some (hmeets.readable _ hcomplete.column hcomplete.ret) hip) hmoves
  set c2 : Cursor := { c1.upTo (fun i => if (rs i).saved = .cfarel then .ofMem (cfa + (rs i).val)
    else c1.loc i) s.numRegs with cfa, ip } with hc2
  have hcongr : (s.locateMap c2 ip).1 = (s.locateMap c1 ip).1 := locateMap_congr rfl rfl
  have hlocated : (s.locateMap c2 c2.ip).1 = true := hcongr.trans hmeets.located
  rw [dwarfStep_of_row hrow h.valid happly hlocated] at hstep
  cases hstep
  -- the library does not touch the frame
  refine Recovered.of_kept (c := c2) ?_ (locateMap_kept _)
  constructor
  case ip => rfl
  case cfa => rfl
  case valid => exact h1.valid
  case ipReg => exact if_pos rfl
  case loc =>
    intro r hr hrip hrret hr13 v hv
    dsimp only at hv
    rw [if_neg hrip] at hv
    have hplace : c2.loc r = if (rs r).saved = .cfarel then .ofMem (cfa + (rs r).val)
      else c1.loc r := if_pos hr
    rw [hplace]
    by_cases hsaved : (rs r).saved = .cfarel
    · rw [if_pos hsaved] at hv ⊢
      exact savedWord_eq_some (hmeets.readable r hr hsaved) hv
    · rw [if_neg hsaved, if_neg hrret] at hv
      rw [if_neg hsaved]
      refine h1.loc r hr hrip hrret (fun h13 => ?_) v hv
      rw [h13] at hsaved
      exact (hr13 h13).of_cons hsaved
  case r13 =>
    intro hunknown
    obtain ⟨hsaved, hbefore⟩ := s.not_knowsR13_of_cons hunknown
    obtain ⟨hplace, hvalue⟩ := h1.r13 hbefore
    have h64 := s.is64bit_of_unknown hunknown
    obtain ⟨hlt, hrip, hrret⟩ := r13_numbered h64
    constructor
    · show (if 13 < s.numRegs then (if (rs 13).saved = .cfarel then _ else c1.loc 13) else _) = _
      rw [if_pos hlt, if_neg hsaved, hplace]
    · show (if 13 = s.ipReg then _ else if (rs 13).saved = .cfarel then _
        else if 13 = s.retReg then _ else f.reg 13) = _
      rw [if_neg hrip, if_neg hsaved, if_neg hrret, hvalue]

theorem recovered_of_unwinds (h : s.Unwinds s.Traceable rows c f) : Recovered s rows c f := by
  induction h with
  | init => exact recovered_init
  | step _ hrow hcomplete hcaller hmeets hstep ih =>
    exact ih.step hrow hcomplete hcaller hmeets hstep

end Chain

/-- Along a chain of traceable frames the cursor has the instruction pointer and the CFA of each,
and reads all of its registers exactly when it knows `R13`. -/
theorem unwinds_recovers_iff (s : Space) (rows : List RegState) (c : Cursor) (f : Frame)
    (h : s.Unwinds s.Traceable rows c f) :
    (c.ip = f.ip ∧ c.cfa = f.cfa ∧ ∀ r < s.numRegs, r ≠ s.ipReg → r ≠ s.retReg → ∀ v,
        f.reg r = some v → s.dwarfGet (c.loc r) = .ok v) ↔ s.KnowsR13 rows := by
  have hrecovered := recovered_of_unwinds h
  constructor
  · rintro ⟨-, -, hregs⟩
    by_contra hunknown
    have h64 := s.is64bit_of_unknown hunknown
    obtain ⟨hplace, hvalue⟩ := hrecovered.r13 hunknown
    obtain ⟨hlt, hrip, hrret⟩ := r13_numbered h64
    have hget : s.dwarfGet (c.loc 13) = .ok (s.trim (s.regs 2)) := hregs 13 hlt hrip hrret _ hvalue
    rw [hplace, dwarfGet_r13 h64] at hget
    have hsame := Except.ok.inj hget
    unfold Space.trim at hsame
    rw [if_pos h64, if_pos h64] at hsame
    exact hunknown fun _ => .inl hsame.symm
  · intro hknown
    exact ⟨hrecovered.ip, hrecovered.cfa, fun r hr hrip hrret =>
      hrecovered.loc r hr hrip hrret fun _ => hknown⟩

/-! ## A chain of two frames -/

section Computed

variable {s : Space} {rs : RegState} {ra : ℕ} {rows : List RegState} {c : Cursor} {f f' : Frame}

instance (s : Space) (rows : List RegState) : Decidable (s.KnowsR13 rows) :=
  inferInstanceAs (Decidable (s.is64bit = true → _))

theorem complete_iff : s.Complete rs ra ↔ (rs s.cfaRegColumn).saved = .reg ∧
    s.cfaBase rs < s.numRegs ∧ ra < s.numRegs ∧ (rs ra).saved = .cfarel ∧
      ∀ i < s.numRegs, (rs i).saved = .same ∨ (rs i).saved = .cfarel :=
  ⟨fun ⟨hcfa, hbase, hcolumn, hret, hothers⟩ => ⟨hcfa, hbase, hcolumn, hret, hothers⟩,
    fun ⟨hcfa, hbase, hcolumn, hret, hothers⟩ => ⟨hcfa, hbase, hcolumn, hret, hothers⟩⟩

instance : Decidable (s.Complete rs ra) := decidable_of_iff' _ complete_iff

instance (addr : UInt64) (size : ℕ) : Decidable (s.Peekable addr size) :=
  inferInstanceAs (Decidable (_ = true → _ ∧ _))

theorem traceable_iff : s.Traceable rows f rs c f' ↔
    (s.cfaBase rs = s.retReg → f.reg s.retReg = some f.cfa) ∧
      (s.cfaBase rs = 13 → s.KnowsR13 rows) ∧
      (f.reg (s.cfaBase rs)).all (fun base => s.trim (base + (rs s.cfaOffColumn).val) ==
        base + (rs s.cfaOffColumn).val) = true ∧
      ¬ (f'.ip = f.ip ∧ f'.cfa = f.cfa) ∧ (s.locateMap c f'.ip).1 = true ∧
      ∀ i < s.numRegs, (rs i).saved = .cfarel →
        s.Peekable (s.trim (f'.cfa + (rs i).val)) s.addrSize := by
  rw [Option.all_eq_true]
  exact ⟨fun ⟨hstack, hr13, hfits, hmoves, hlocated, hreadable⟩ =>
      ⟨hstack, hr13, fun base hbase => beq_iff_eq.mpr (hfits base hbase), hmoves, hlocated,
        hreadable⟩,
    fun ⟨hstack, hr13, hfits, hmoves, hlocated, hreadable⟩ =>
      ⟨hstack, hr13, fun base hbase => beq_iff_eq.mp (hfits base hbase), hmoves, hlocated,
        hreadable⟩⟩

instance : Decidable (s.Traceable rows f rs c f') := decidable_of_iff' _ traceable_iff

end Computed

/-- The rows, the cursor and the frame that a chain got to. -/
structure Chain where
  rows : List RegState
  cursor : Cursor
  frame : Frame

namespace Space

variable (s : Space)

/-- The row for the frame of a cursor, with the cursor. -/
def rowOf (c : Cursor) : EStateM.Result Halt Cursor RegState :=
  let ip := if c.usePrevInstr then c.ip - 1 else c.ip
  (do s.parseFde (← s.fetchProcInfo ip) ip : Unwinder RegState) c

/-- One more frame of a chain, if its row is complete and it is traceable. -/
def nextFrame (chain : Chain) : Option Chain :=
  match s.rowOf chain.cursor, s.dwarfStep s.copied [] chain.cursor with
  | .ok rs c, .ok _ c' => do
    let f' ← chain.frame.caller s rs c.retAddrColumn.toNat
    if s.Complete rs c.retAddrColumn.toNat ∧ s.Traceable chain.rows chain.frame rs c f' then
      some ⟨rs :: chain.rows, c', f'⟩
    else none
  | _, _ => none

/-- The chain of so many frames above the stopped task. -/
def chain : ℕ → Option Chain
  | 0 => some ⟨[], s.initUnwind.2, s.contextFrame⟩
  | k + 1 => do s.nextFrame (← chain k)

end Space

theorem unwinds_nextFrame {s : Space} {chain chain' : Chain}
    (h : s.Unwinds s.Traceable chain.rows chain.cursor chain.frame)
    (hnext : s.nextFrame chain = some chain') :
    s.Unwinds s.Traceable chain'.rows chain'.cursor chain'.frame := by
  unfold Space.nextFrame at hnext
  cases hrow : s.rowOf chain.cursor with
  | error e c =>
    rw [hrow] at hnext
    cases hnext
  | ok rs c =>
    cases hstep : s.dwarfStep s.copied [] chain.cursor with
    | error e c' =>
      rw [hrow, hstep] at hnext
      cases hnext
    | ok u c' =>
      rw [hrow, hstep] at hnext
      obtain ⟨f', hcaller, hnext⟩ := Option.bind_eq_some_iff.mp hnext
      split at hnext
      case isTrue hmeets =>
        cases hnext
        exact .step h (bind_eq_ok.mp hrow) hmeets.1 hcaller hmeets.2 hstep
      case isFalse => cases hnext

theorem unwinds_chain {s : Space} {k : ℕ} {chain : Chain} (h : s.chain k = some chain) :
    s.Unwinds s.Traceable chain.rows chain.cursor chain.frame := by
  induction k generalizing chain with
  | zero =>
    cases h
    exact .init
  | succ k ih =>
    obtain ⟨before, hbefore, hnext⟩ := Option.bind_eq_some_iff.mp h
    exact unwinds_nextFrame (ih hbefore) hnext

/-- The row of the function in `unwindTables` with `DW_CFA_def_cfa_offset 16` and RBP saved below
the return address. -/
def savingTables : List UInt8 :=
  unwindTables.take 0x38 ++
    [0x14, 0x00, 0x00, 0x00, 0x1c, 0x00, 0x00, 0x00, 0xc0, 0xef, 0xff, 0xff, 0x10, 0x00, 0x00, 0x00,
      0x00, 0x0e, 0x10, 0x86, 0x02, 0x00, 0x00, 0x00]

/-- Two frames of that function, of which the first was called from `0x400048`, with `0x1111` in
RBP, and the second from `0x40004c`, with `0x2222`. -/
def twoFrames : List UInt64 := [0x1111, 0x400048, 0x2222, 0x40004c]

/-- A task stopped in the function; its `rbx` is 3 and its `r15` is 2. -/
def stoppedTask (r13 : UInt64) : Space :=
  { mapped 0x1040 with
    image := fun a => savingTables.getD (a - 0x7f0000001040).toNat 0
    proc := fun addr => (twoFrames.flatMap fun word => ByteOrder.leBytes 8 word.toNat)[
      (addr - 0x7000).toNat]?
    regs := fun n => if n = 16 then 0x400044 else if n = 19 then 0x7000
      else if n = 5 then 3 else if n = 2 then r13 else if n = 0 then 2 else 0
    libs := .node .black .nil ⟨0, librefOf 0x1040 oneSegment⟩ .nil }

/-- A chain that was computed. -/
theorem exists_chain {s : Space} {k : ℕ} {P : Chain → Prop} [DecidablePred P]
    (h : (s.chain k).any (fun chain => decide (P chain)) = true) :
    ∃ chain : Chain, s.Unwinds s.Traceable chain.rows chain.cursor chain.frame ∧ P chain := by
  obtain ⟨chain, hchain, hp⟩ := (Option.any_eq_true ..).mp h
  exact ⟨chain, unwinds_chain hchain, of_decide_eq_true hp⟩

/-- The second frame has the RBP that the first one saved last; `rbx` is that of the stopped
task. -/
theorem unwinds_recovers_twoFrames :
    ∃ rows c f, (stoppedTask 2).Unwinds (stoppedTask 2).Traceable rows c f ∧ rows.length = 2 ∧
      c.ip = 0x40004c ∧ c.cfa = 0x7020 ∧ (stoppedTask 2).dwarfGet (c.loc 6) = .ok 0x2222 ∧
      (stoppedTask 2).dwarfGet (c.loc 3) = .ok 3 ∧ (stoppedTask 2).dwarfGet (c.loc 13) = .ok 2 := by
  obtain ⟨⟨rows, c, f⟩, hchain, hlen, hip, hcfa, hrbp, hrbx, hr13⟩ :=
    exists_chain (s := stoppedTask 2) (k := 2) (P := fun chain => chain.rows.length = 2 ∧
      chain.frame.ip = 0x40004c ∧ chain.frame.cfa = 0x7020 ∧ chain.frame.reg 6 = some 0x2222 ∧
      chain.frame.reg 3 = some 3 ∧ chain.frame.reg 13 = some 2) (by decide +kernel)
  have hknows : (stoppedTask 2).KnowsR13 rows := fun _ => .inl rfl
  obtain ⟨hcip, hccfa, hregs⟩ := (unwinds_recovers_iff (stoppedTask 2) rows c f hchain).mpr hknows
  exact ⟨rows, c, f, hchain, hlen, hcip.trans hip, hccfa.trans hcfa,
    hregs 6 (by decide) (by decide) (by decide) _ hrbp,
    hregs 3 (by decide) (by decide) (by decide) _ hrbx,
    hregs 13 (by decide) (by decide) (by decide) _ hr13⟩

/-- The frame of the caller has the `r13` of the stopped task, which is 1; it is read as 2. -/
theorem r13_read_from_r15 :
    ∃ rows c f, (stoppedTask 1).Unwinds (stoppedTask 1).Traceable rows c f ∧ f.reg 13 = some 1 ∧
      (stoppedTask 1).dwarfGet (c.loc 13) = .ok 2 := by
  obtain ⟨⟨rows, c, f⟩, hchain, hreg, hget⟩ :=
    exists_chain (s := stoppedTask 1) (k := 2) (P := fun chain => chain.frame.reg 13 = some 1 ∧
      (stoppedTask 1).dwarfGet (chain.cursor.loc 13) = .ok 2) (by decide +kernel)
  exact ⟨rows, c, f, hchain, hreg, hget⟩

end Mtrace.Dwarf
