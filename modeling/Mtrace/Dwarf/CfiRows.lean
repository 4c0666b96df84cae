import Mtrace.Dwarf.CfiLoop

/-!
# The rows in memory

`run_cfi_program` on the rows as they are in memory: a row is an array of `num_regs + 2` registers,
and `reg_stack` has room for 16 of them, with the offset of the next one in `reg_stack_ptr`.  All
accesses to the registers of the two rows are recorded.

`executeRows_refines`: a `case` on the arrays does what it does on rows that are put on a list.
-/

namespace Mtrace.Dwarf

/-- An access to `rs_initial->reg` or `rs_current->reg`. -/
structure RowAccess where
  initial : Bool
  index : UInt64
  deriving DecidableEq, Repr

/-- The variables of `run_cfi_program`; the registers in `reg_stack` are at their offsets in
bytes. -/
structure RowState where
  addr : UInt64
  currIp : UInt64
  rs : RegState
  regStack : ℕ → DwarfReg
  regStackPtr : UInt32
  accesses : List RowAccess

abbrev RowM := EStateM Halt RowState

namespace RowM

def invalid {α : Type} : RowM α := throw (.error .inval)

/-- What reads on from `*addr`. -/
def ofReader {α : Type} (r : Reader α) : RowM α := fun st =>
  match r st.addr with
  | .ok a addr => .ok a { st with addr }
  | .error h addr => .error h { st with addr }

/-- `set_reg` of `rs_current`; it takes the register as an `unsigned int`. -/
def setReg (regnum : UInt64) (saved : DwarfWhere) (val : UInt64) : RowM Unit :=
  modify fun st => { st with
    rs := Function.update st.rs regnum.toUInt32.toNat ⟨saved, val⟩
    accesses := ⟨false, regnum.toUInt32.toUInt64⟩ :: st.accesses }

/-- `rs_current->reg[regnum] = rs_initial->reg[regnum]`. -/
def restoreReg (initial : RegState) (regnum : UInt64) : RowM Unit :=
  modify fun st => { st with
    rs := Function.update st.rs regnum.toNat (initial regnum.toNat)
    accesses := ⟨false, regnum⟩ :: ⟨true, regnum⟩ :: st.accesses }

/-- `curr_ip += delta * dci->code_align`. -/
def advance (dci : CieInfo) (delta : UInt64) : RowM Unit :=
  modify fun st => { st with currIp := st.currIp + delta * dci.codeAlign }

/-- `*addr += n`. -/
def skip (n : UInt64) : RowM Unit := modify fun st => { st with addr := st.addr + n }

end RowM

namespace Space

open RowM

variable (s : Space)

/-- The registers of a row, with the columns of the CFA. -/
def rowLen : ℕ := s.numRegs + 2

/-- `regs_size`; a `struct dwarf_reg` has 16 bytes. -/
def regsSize : UInt32 := 2 * 16 + 16 * .ofNat s.numRegs

/-- The registers that are copied with a row. -/
def copiedRow : List RowAccess := (List.range s.rowLen).map fun i => ⟨false, .ofNat i⟩

/-- The `memcpy` of `DW_CFA_remember_state`. -/
def saveRow : RowM Unit := modify fun st => { st with
  regStack := fun off =>
    if st.regStackPtr.toNat ≤ off ∧ off < st.regStackPtr.toNat + s.regsSize.toNat then
      st.rs ((off - st.regStackPtr.toNat) / 16)
    else st.regStack off
  regStackPtr := st.regStackPtr + s.regsSize
  accesses := s.copiedRow ++ st.accesses }

/-- The `memcpy` of `DW_CFA_restore_state`. -/
def loadRow : RowM Unit := modify fun st => { st with
  rs := fun i =>
    if i < s.rowLen then st.regStack ((st.regStackPtr - s.regsSize).toNat + 16 * i) else st.rs i
  regStackPtr := st.regStackPtr - s.regsSize
  accesses := s.copiedRow ++ st.accesses }

/-- The `case` of an instruction. -/
def executeRows (gp : UInt64) (dci : CieInfo) (initial : RegState) (op : CfaOp) : RowM Unit := do
  match op with
  | .advanceLoc operand => advance dci operand.toUInt64
  | .advanceLoc1 => advance dci (← ofReader (s.read 1))
  | .advanceLoc2 => advance dci (← ofReader (s.read 2))
  | .advanceLoc4 => advance dci (← ofReader (s.read 4))
  | .mipsAdvanceLoc8 => invalid
  | .offset operand =>
    let regnum ← ofReader (s.checkRegnum operand.toUInt64)
    let val ← ofReader s.readUleb128
    setReg regnum .cfarel (val * dci.dataAlign)
  | .offsetExtended =>
    let regnum ← ofReader s.readRegnum
    let val ← ofReader s.readUleb128
    setReg regnum .cfarel (val * dci.dataAlign)
  | .offsetExtendedSf =>
    let regnum ← ofReader s.readRegnum
    let val ← ofReader s.readSleb128
    setReg regnum .cfarel (val * dci.dataAlign)
  | .restore operand =>
    let regnum := operand.toUInt64
    if .ofNat s.numRegs ≤ regnum then invalid else restoreReg initial regnum
  | .restoreExtended =>
    let regnum ← ofReader s.readUleb128
    if .ofNat s.numRegs ≤ regnum then invalid else restoreReg initial regnum
  | .nop => return ()
  | .setLoc =>
    let currIp ← ofReader (s.readEncodedPointer gp dci.fdeEncoding true dci.startIp)
    modify fun st => { st with currIp }
  | .undefined => setReg (← ofReader s.readRegnum) .undef 0
  | .sameValue => setReg (← ofReader s.readRegnum) .same 0
  | .register =>
    let regnum ← ofReader s.readRegnum
    let val ← ofReader s.readUleb128
    let n ← ofReader (s.checkRegnum val)
    setReg regnum .reg n
  | .rememberState =>
    if 16 * s.regsSize.toUInt64 - (← get).regStackPtr.toUInt64 < s.regsSize.toUInt64 then invalid
    else s.saveRow
  | .restoreState => if (← get).regStackPtr = 0 then invalid else s.loadRow
  | .defCfa =>
    let regnum ← ofReader s.readRegnum
    let val ← ofReader s.readUleb128
    setReg (.ofNat s.cfaRegColumn) .reg regnum
    setReg (.ofNat s.cfaOffColumn) .undef val
  | .defCfaSf =>
    let regnum ← ofReader s.readRegnum
    let val ← ofReader s.readSleb128
    setReg (.ofNat s.cfaRegColumn) .reg regnum
    setReg (.ofNat s.cfaOffColumn) .undef (val * dci.dataAlign)
  | .defCfaRegister => setReg (.ofNat s.cfaRegColumn) .reg (← ofReader s.readRegnum)
  | .defCfaOffset => setReg (.ofNat s.cfaOffColumn) .undef (← ofReader s.readUleb128)
  | .defCfaOffsetSf =>
    setReg (.ofNat s.cfaOffColumn) .undef ((← ofReader s.readSleb128) * dci.dataAlign)
  | .defCfaExpression =>
    setReg (.ofNat s.cfaRegColumn) .expr (← get).addr
    skip (← ofReader s.readUleb128)
  | .expression =>
    let regnum ← ofReader s.readRegnum
    setReg regnum .expr (← get).addr
    skip (← ofReader s.readUleb128)
  | .valExpression =>
    let regnum ← ofReader s.readRegnum
    setReg regnum .valExpr (← get).addr
    skip (← ofReader s.readUleb128)
  | .gnuArgsSize => let _ ← ofReader s.readUleb128
  | .gnuNegativeOffsetExtended =>
    let regnum ← ofReader s.readRegnum
    let val ← ofReader s.readUleb128
    setReg regnum .cfarel (-(val * dci.dataAlign))
  | .gnuWindowSave | .loUser | .hiUser => invalid
  -- the `switch` has no `default`
  | .unknown => return ()

/-- The body of the loop. -/
def rowPass (gp : UInt64) (dci : CieInfo) (initial : RegState) : RowM Unit := do
  s.executeRows gp dci initial (.decode (← ofReader s.read8))

/-- A pass of the loop of `run_cfi_program`, or its end, with the variables at the end. -/
def rowStep (gp : UInt64) (dci : CieInfo) (initial : RegState) (ip endAddr : UInt64)
    (st : RowState) : RowState ⊕ Except Halt Unit × RowState :=
  if st.currIp ≤ ip ∧ st.addr < endAddr then
    match s.rowPass gp dci initial st with
    | .ok _ st => .inl st
    | .error h st => .inr (.error h, st)
  else .inr (.ok (), st)

end Space

/-! ## One level to the other -/

/-- All accesses are inside of a row, and `reg_stack` has between 0 and 16 rows. -/
structure RowState.Good (s : Space) (st : RowState) : Prop where
  inside : ∀ a ∈ st.accesses, a.index.toNat < s.rowLen
  rows : ∃ k ≤ 16, st.regStackPtr.toNat = k * s.regsSize.toNat

/-- The registers in memory are those of the rows, of which the last one saved comes first. -/
structure RowState.Holds (s : Space) (st : RowState) (r : CfiState) : Prop where
  currIp : st.currIp = r.currIp
  rs : ∀ i < s.rowLen, st.rs i = r.rs i
  ptr : st.regStackPtr.toNat = r.regStack.length * s.regsSize.toNat
  room : r.regStack.length ≤ 16
  saved : ∀ k row, r.regStack.reverse[k]? = some row →
    ∀ i < s.rowLen, st.regStack (k * s.regsSize.toNat + 16 * i) = row i

/-- The results on the two levels agree, and the variables are good. -/
def RowRefines {α β : Type} (s : Space) (Q : α → RowState → β → UInt64 → Prop)
    (x : EStateM.Result Halt RowState α) (y : EStateM.Result Halt UInt64 β) : Prop :=
  match x, y with
  | .ok a st, .ok b addr => st.Good s ∧ Q a st b addr
  | .error h st, .error h' _ => st.Good s ∧ h = h'
  | _, _ => False

/-- How a `case` ends: the block is passed over. -/
def RowDone (s : Space) (_ : Unit) (st : RowState) (r : CfiState × UInt64) (addr : UInt64) : Prop :=
  st.addr = addr + r.2 ∧ st.Holds s r.1

section Sizes

variable {s : Space} {st : RowState} {r : CfiState}

theorem regsSize_toNat (s : Space) : s.regsSize.toNat = 16 * s.rowLen := by
  unfold Space.regsSize Space.rowLen Space.numRegs Space.regnumMap
  split <;> rfl

theorem rowLen_le (s : Space) : s.rowLen ≤ 19 := Nat.add_le_add_right numRegs_le 2

theorem rowLen_pos (s : Space) : 0 < s.rowLen := Nat.succ_pos _

theorem regnum_lt {val : UInt64} (h : ¬ .ofNat s.numRegs ≤ val) : val.toNat < s.numRegs := by
  rw [UInt64.le_iff_toNat_le, UInt64.toNat_ofNat'] at h
  have hle := numRegs_le (s := s)
  omega

theorem RowState.Good.withAddr (h : st.Good s) (addr : UInt64) : RowState.Good s { st with addr } :=
  ⟨h.inside, h.rows⟩

theorem RowState.Holds.withAddr (h : st.Holds s r) (addr : UInt64) :
    RowState.Holds s { st with addr } r :=
  ⟨h.currIp, h.rs, h.ptr, h.room, h.saved⟩

end Sizes

section Refines

open RowM

variable {s : Space} {α β γ δ : Type} {Q : α → RowState → β → UInt64 → Prop}
  {Q' : γ → RowState → δ → UInt64 → Prop} {st : RowState} {r : CfiState} {addr : UInt64}

theorem rowRefines_bind {m : RowM α} {f : α → RowM γ} {y : Reader β} {g : β → Reader δ}
    (hm : RowRefines s Q (m st) (y addr))
    (hf : ∀ a st' b addr', st'.Good s → Q a st' b addr' → RowRefines s Q' (f a st') (g b addr')) :
    RowRefines s Q' ((m >>= f) st) ((y >>= g) addr) := by
  show RowRefines s Q' (EStateM.bind m f st) (EStateM.bind y g addr)
  unfold EStateM.bind
  cases hx : m st with
  | ok a st' =>
    rw [hx] at hm
    cases hy : y addr with
    | ok b addr' =>
      rw [hy] at hm
      exact hf a st' b addr' hm.1 hm.2
    | error h addr' =>
      rw [hy] at hm
      exact hm.elim
  | error h st' =>
    rw [hx] at hm
    cases hy : y addr with
    | ok b addr' =>
      rw [hy] at hm
      exact hm.elim
    | error h' addr' =>
      rw [hy] at hm
      exact hm

theorem rowRefines_ofReader (hst : st.Good s) (read : Reader α) :
    RowRefines s (fun a st' b addr' => read st.addr = .ok b addr' ∧ a = b ∧
      st' = { st with addr := addr' }) (ofReader read st) (read st.addr) := by
  unfold ofReader
  cases hr : read st.addr with
  | ok a addr' => exact ⟨hst.withAddr addr', rfl, rfl, rfl⟩
  | error h addr' => exact ⟨hst.withAddr addr', rfl⟩

theorem checkRegnum_lt {val regnum addr' : UInt64} (h : s.checkRegnum val addr = .ok regnum addr') :
    regnum.toNat < s.numRegs := by
  unfold Space.checkRegnum at h
  split at h
  · cases h
  next hlt =>
    obtain ⟨rfl, -⟩ := pure_eq_ok.mp h
    exact regnum_lt hlt

theorem readRegnum_lt {regnum addr' : UInt64} (h : s.readRegnum addr = .ok regnum addr') :
    regnum.toNat < s.numRegs := by
  obtain ⟨val, addr1, -, hcheck⟩ := bind_eq_ok.mp h
  exact checkRegnum_lt hcheck

/-! ### Registers -/

theorem toUInt32_regnum {regnum : UInt64} (h : regnum.toNat < s.rowLen) :
    regnum.toUInt32.toNat = regnum.toNat := by
  rw [UInt64.toNat_toUInt32]
  have hle := rowLen_le s
  omega

/-- `set_reg` of a register of the row. -/
theorem rowRefines_setReg (hst : st.Good s) (h : st.Holds s r) {regnum : UInt64}
    (hlt : regnum.toNat < s.rowLen) (saved : DwarfWhere) (val : UInt64) :
    RowRefines s (fun _ st' r' addr' => st'.addr = addr' ∧ st'.Holds s r')
      (setReg regnum saved val st) ((pure (r.setReg regnum saved val) :
        Reader CfiState) st.addr) := by
  have hindex := toUInt32_regnum hlt
  refine ⟨⟨?_, hst.rows⟩, rfl, ⟨h.currIp, ?_, h.ptr, h.room, h.saved⟩⟩
  · intro a ha
    rcases List.mem_cons.mp ha with rfl | ha
    · show regnum.toUInt32.toUInt64.toNat < s.rowLen
      rw [UInt32.toNat_toUInt64, hindex]
      exact hlt
    · exact hst.inside a ha
  · intro i hi
    show Function.update st.rs regnum.toUInt32.toNat _ i = Function.update r.rs regnum.toNat _ i
    rw [hindex]
    by_cases heq : i = regnum.toNat
    · rw [heq, Function.update_self, Function.update_self]
    · rw [Function.update_of_ne heq, Function.update_of_ne heq]
      exact h.rs i hi

/-- A rule that is set at the end of a `case`. -/
theorem rowRefines_rule (hst : st.Good s) (h : st.Holds s r) {regnum : UInt64}
    (hlt : regnum.toNat < s.rowLen) (saved : DwarfWhere) (val : UInt64) :
    RowRefines s (RowDone s) (setReg regnum saved val st)
      ((pure (r.setReg regnum saved val, 0) : Reader (CfiState × UInt64)) st.addr) := by
  obtain ⟨hgood, haddr, hholds⟩ := rowRefines_setReg hst h hlt saved val
  exact ⟨hgood, haddr.trans (UInt64.add_zero _).symm, hholds⟩

theorem rowRefines_restoreReg (hst : st.Good s) (h : st.Holds s r) (initial : RegState)
    {regnum : UInt64} (hlt : regnum.toNat < s.numRegs) :
    RowRefines s (RowDone s) (restoreReg initial regnum st)
      ((pure (r.restoreReg initial regnum, 0) : Reader (CfiState × UInt64)) st.addr) := by
  have hrow : regnum.toNat < s.rowLen := Nat.lt_add_right 2 hlt
  refine ⟨⟨?_, hst.rows⟩, (UInt64.add_zero _).symm, ⟨h.currIp, ?_, h.ptr, h.room, h.saved⟩⟩
  · intro a ha
    rcases List.mem_cons.mp ha with rfl | ha
    · exact hrow
    rcases List.mem_cons.mp ha with rfl | ha
    · exact hrow
    · exact hst.inside a ha
  · intro i hi
    show Function.update st.rs regnum.toNat _ i = Function.update r.rs regnum.toNat _ i
    by_cases heq : i = regnum.toNat
    · rw [heq, Function.update_self, Function.update_self]
    · rw [Function.update_of_ne heq, Function.update_of_ne heq]
      exact h.rs i hi

theorem rowRefines_restore (hst : st.Good s) (h : st.Holds s r) (initial : RegState)
    (regnum : UInt64) : RowRefines s (RowDone s)
      ((if .ofNat s.numRegs ≤ regnum then invalid else restoreReg initial regnum : RowM Unit) st)
      ((if .ofNat s.numRegs ≤ regnum then Reader.fail .inval
        else return (r.restoreReg initial regnum, 0) : Reader (CfiState × UInt64)) st.addr) := by
  split
  next => exact ⟨hst, rfl⟩
  next hlt => exact rowRefines_restoreReg hst h initial (regnum_lt hlt)

theorem rowRefines_advance (hst : st.Good s) (h : st.Holds s r) (dci : CieInfo) (delta : UInt64) :
    RowRefines s (RowDone s) (advance dci delta st)
      ((pure (r.advance dci delta, 0) : Reader (CfiState × UInt64)) st.addr) := by
  refine ⟨⟨hst.inside, hst.rows⟩, (UInt64.add_zero _).symm, ⟨?_, h.rs, h.ptr, h.room, h.saved⟩⟩
  show st.currIp + delta * dci.codeAlign = r.currIp + delta * dci.codeAlign
  rw [h.currIp]

/-! ### Saved rows -/

theorem copiedRow_inside (s : Space) : ∀ a ∈ s.copiedRow, a.index.toNat < s.rowLen := by
  intro a ha
  obtain ⟨i, hi, rfl⟩ := List.mem_map.mp ha
  have hlt := List.mem_range.mp hi
  rw [UInt64.toNat_ofNat']
  exact (Nat.mod_le _ _).trans_lt hlt

theorem saveRow_good (hst : st.Good s) (h : st.Holds s r) (hroom : r.regStack.length < 16) :
    RowRefines s (RowDone s) (s.saveRow st)
      ((pure ({ r with regStack := r.rs :: r.regStack }, 0) :
        Reader (CfiState × UInt64)) st.addr) := by
  have hsize := regsSize_toNat s
  have hle := rowLen_le s
  have hptr : (st.regStackPtr + s.regsSize).toNat = (r.regStack.length + 1) * s.regsSize.toNat := by
    have hbound : (r.regStack.length + 1) * s.regsSize.toNat ≤ 16 * s.regsSize.toNat :=
      Nat.mul_le_mul_right _ hroom
    rw [UInt32.toNat_add, h.ptr, ← Nat.succ_mul, Nat.succ_eq_add_one]
    apply Nat.mod_eq_of_lt
    omega
  refine ⟨⟨?_, r.regStack.length + 1, hroom, hptr⟩, (UInt64.add_zero _).symm,
    ⟨h.currIp, h.rs, hptr, hroom, ?_⟩⟩
  · intro a ha
    rcases List.mem_append.mp ha with ha | ha
    · exact copiedRow_inside s a ha
    · exact hst.inside a ha
  · intro k row hk i hi
    have hoff : 16 * i < s.regsSize.toNat := by omega
    rw [List.reverse_cons] at hk
    show (if _ then _ else _) = row i
    rw [h.ptr]
    by_cases hlast : k = r.regStack.length
    · subst hlast
      rw [List.getElem?_append_right (by simp), List.length_reverse, Nat.sub_self] at hk
      cases hk
      rw [if_pos ⟨Nat.le_add_right _ _, Nat.add_lt_add_left hoff _⟩, Nat.add_sub_cancel_left,
        Nat.mul_div_cancel_left _ (by decide)]
      exact h.rs i hi
    · have hlt : k < r.regStack.length := by
        have hlen := (List.getElem?_eq_some_iff.mp hk).1
        simp at hlen
        omega
      rw [List.getElem?_append_left (by simpa using hlt)] at hk
      have hbelow : (k + 1) * s.regsSize.toNat ≤ r.regStack.length * s.regsSize.toNat :=
        Nat.mul_le_mul_right _ hlt
      rw [Nat.succ_mul] at hbelow
      rw [if_neg (by omega)]
      exact h.saved k row hk i hi

theorem loadRow_good (hst : st.Good s) (h : st.Holds s r) {row : RegState} {rows : List RegState}
    (hrows : r.regStack = row :: rows) : RowRefines s (RowDone s) (s.loadRow st)
      ((pure ({ r with rs := row, regStack := rows }, 0) :
        Reader (CfiState × UInt64)) st.addr) := by
  have hroom := h.room
  have hptr := h.ptr
  rw [hrows, List.length_cons] at hroom hptr
  rw [Nat.succ_mul] at hptr
  have hback : (st.regStackPtr - s.regsSize).toNat = rows.length * s.regsSize.toNat := by
    have hle : s.regsSize ≤ st.regStackPtr := by
      rw [UInt32.le_iff_toNat_le]
      omega
    rw [UInt32.toNat_sub_of_le _ _ hle]
    omega
  have hsaved := h.saved
  rw [hrows, List.reverse_cons] at hsaved
  refine ⟨⟨?_, rows.length, Nat.le_of_succ_le hroom, hback⟩, (UInt64.add_zero _).symm,
    ⟨h.currIp, ?_, hback, Nat.le_of_succ_le hroom, ?_⟩⟩
  · intro a ha
    rcases List.mem_append.mp ha with ha | ha
    · exact copiedRow_inside s a ha
    · exact hst.inside a ha
  · intro i hi
    show (if _ then _ else _) = row i
    rw [if_pos hi, hback]
    refine hsaved rows.length row ?_ i hi
    rw [List.getElem?_append_right (by simp)]
    simp
  · intro k row' hk i hi
    refine hsaved k row' ?_ i hi
    rw [List.getElem?_append_left (List.getElem?_eq_some_iff.mp hk).1]
    exact hk

/-- The comparison for room counts the rows. -/
theorem full_iff (h : st.Holds s r) :
    16 * s.regsSize.toUInt64 - st.regStackPtr.toUInt64 < s.regsSize.toUInt64 ↔
      16 ≤ r.regStack.length := by
  have hsize := regsSize_toNat s
  have hle := rowLen_le s
  have hpos := rowLen_pos s
  have hroom := h.room
  have hmul : r.regStack.length * s.regsSize.toNat ≤ 16 * s.regsSize.toNat :=
    Nat.mul_le_mul_right _ hroom
  have htotal : (16 * s.regsSize.toUInt64).toNat = 16 * s.regsSize.toNat := by
    rw [UInt64.toNat_mul, UInt32.toNat_toUInt64]
    exact Nat.mod_eq_of_lt (by simpa using by omega)
  have hptr : st.regStackPtr.toUInt64.toNat = r.regStack.length * s.regsSize.toNat := by
    rw [UInt32.toNat_toUInt64, h.ptr]
  have hsub : st.regStackPtr.toUInt64 ≤ 16 * s.regsSize.toUInt64 := by
    rw [UInt64.le_iff_toNat_le, htotal, hptr]
    exact hmul
  rw [UInt64.lt_iff_toNat_lt, UInt64.toNat_sub_of_le _ _ hsub, htotal, hptr, UInt32.toNat_toUInt64,
    ← Nat.sub_mul]
  constructor
  · intro hlt
    by_contra hmore
    have hone : 1 * s.regsSize.toNat ≤ (16 - r.regStack.length) * s.regsSize.toNat :=
      Nat.mul_le_mul_right _ (by omega)
    omega
  · intro hfull
    rw [Nat.sub_eq_zero_of_le hfull, Nat.zero_mul]
    omega

theorem empty_iff (h : st.Holds s r) : st.regStackPtr = 0 ↔ r.regStack = [] := by
  have hsize := regsSize_toNat s
  have hpos := rowLen_pos s
  rw [← UInt32.toNat_inj, h.ptr, UInt32.toNat_zero, Nat.mul_eq_zero, List.length_eq_zero_iff]
  exact or_iff_left (by omega)

/-! ### Instructions -/

/-- A register that is read, then a number, then its rule. -/
theorem rowRefines_regnum_val (hst : st.Good s) (h : st.Holds s r) {read : Reader UInt64}
    (hread : ∀ addr regnum addr', read addr = .ok regnum addr' → regnum.toNat < s.numRegs)
    (number : Reader UInt64) (saved : DwarfWhere) (f : UInt64 → UInt64) :
    RowRefines s (RowDone s)
      ((do
        let regnum ← ofReader read
        let val ← ofReader number
        setReg regnum saved (f val) : RowM Unit) st)
      ((do
        let regnum ← read
        let val ← number
        return (r.setReg regnum saved (f val), 0) : Reader (CfiState × UInt64)) st.addr) := by
  apply rowRefines_bind (rowRefines_ofReader hst read)
  rintro regnum st1 _ addr1 hst1 ⟨hok, rfl, rfl⟩
  have hlt := Nat.lt_add_right 2 (hread _ _ _ hok)
  apply rowRefines_bind (rowRefines_ofReader hst1 number)
  rintro val st2 _ addr2 hst2 ⟨-, rfl, rfl⟩
  exact rowRefines_rule hst2 ((h.withAddr addr1).withAddr addr2) hlt saved (f val)

theorem cfaReg_toNat (s : Space) : (UInt64.ofNat s.cfaRegColumn).toNat = s.numRegs := by
  have hle := numRegs_le (s := s)
  rw [UInt64.toNat_ofNat']
  exact Nat.mod_eq_of_lt (by unfold Space.cfaRegColumn; omega)

theorem cfaOff_toNat (s : Space) : (UInt64.ofNat s.cfaOffColumn).toNat = s.numRegs + 1 := by
  have hle := numRegs_le (s := s)
  rw [UInt64.toNat_ofNat']
  exact Nat.mod_eq_of_lt (by unfold Space.cfaOffColumn; omega)

theorem cfaReg_lt (s : Space) : (UInt64.ofNat s.cfaRegColumn).toNat < s.rowLen := by
  rw [cfaReg_toNat]
  exact Nat.lt_add_of_pos_right (by decide)

theorem cfaOff_lt (s : Space) : (UInt64.ofNat s.cfaOffColumn).toNat < s.rowLen := by
  rw [cfaOff_toNat]
  exact Nat.lt_succ_self _

/-- A register and an offset for the CFA. -/
theorem rowRefines_defCfa (hst : st.Good s) (h : st.Holds s r) (number : Reader UInt64)
    (f : UInt64 → UInt64) :
    RowRefines s (RowDone s)
      ((do
        let regnum ← ofReader s.readRegnum
        let val ← ofReader number
        setReg (.ofNat s.cfaRegColumn) .reg regnum
        setReg (.ofNat s.cfaOffColumn) .undef (f val) : RowM Unit) st)
      ((do
        let regnum ← s.readRegnum
        let val ← number
        return (s.setCfaOff (s.setCfaReg r .reg regnum) (f val), 0) :
          Reader (CfiState × UInt64)) st.addr) := by
  apply rowRefines_bind (rowRefines_ofReader hst s.readRegnum)
  rintro regnum st1 _ addr1 hst1 ⟨-, rfl, rfl⟩
  apply rowRefines_bind (rowRefines_ofReader hst1 number)
  rintro val st2 _ addr2 hst2 ⟨-, rfl, rfl⟩
  have hholds := (h.withAddr addr1).withAddr addr2
  have hreg := rowRefines_setReg hst2 hholds (cfaReg_lt s) .reg regnum
  have hoff := rowRefines_rule hreg.1 hreg.2.2 (cfaOff_lt s) .undef (f val)
  exact hoff

/-- A block is passed over behind a rule that has its address. -/
theorem rowRefines_block (hst : st.Good s) (h : st.Holds s r) {regnum : UInt64}
    (hlt : regnum.toNat < s.rowLen) (saved : DwarfWhere) :
    RowRefines s (RowDone s)
      ((do
        setReg regnum saved (← get).addr
        skip (← ofReader s.readUleb128) : RowM Unit) st)
      ((do
        let addr ← get
        let n ← s.readUleb128
        return (r.setReg regnum saved addr, n) : Reader (CfiState × UInt64)) st.addr) := by
  obtain ⟨hgood, -, hholds⟩ := rowRefines_setReg hst h hlt saved st.addr
  apply rowRefines_bind (rowRefines_ofReader hgood s.readUleb128)
  rintro n st2 _ addr2 hst2 ⟨-, rfl, rfl⟩
  have hback := hholds.withAddr (addr2 + n)
  exact ⟨hst2.withAddr (addr2 + n), rfl, hback⟩

/-- A `case` on the arrays does what it does on the list. -/
theorem executeRows_refines (gp : UInt64) (dci : CieInfo) (initial : RegState) (op : CfaOp)
    (hst : st.Good s) (h : st.Holds s r) :
    RowRefines s (RowDone s) (s.executeRows gp dci initial op st)
      (s.cfiExecute gp dci initial op r st.addr) := by
  have hadvance (size : ℕ) : RowRefines s (RowDone s)
      ((do advance dci (← ofReader (s.read size)) : RowM Unit) st)
      ((do return (r.advance dci (← s.read size), 0) : Reader (CfiState × UInt64)) st.addr) := by
    apply rowRefines_bind (rowRefines_ofReader hst (s.read size))
    rintro val st1 _ addr1 hst1 ⟨-, rfl, rfl⟩
    exact rowRefines_advance hst1 (h.withAddr addr1) dci val
  have hregnum (addr regnum addr' : UInt64) (hok : s.readRegnum addr = .ok regnum addr') :
      regnum.toNat < s.numRegs := readRegnum_lt hok
  have hsame (saved : DwarfWhere) : RowRefines s (RowDone s)
      ((do setReg (← ofReader s.readRegnum) saved 0 : RowM Unit) st)
      ((do return (r.setReg (← s.readRegnum) saved 0, 0) :
        Reader (CfiState × UInt64)) st.addr) := by
    apply rowRefines_bind (rowRefines_ofReader hst s.readRegnum)
    rintro regnum st1 _ addr1 hst1 ⟨hok, rfl, rfl⟩
    exact rowRefines_rule hst1 (h.withAddr addr1) (Nat.lt_add_right 2 (readRegnum_lt hok)) saved 0
  have hoffset (number : Reader UInt64) (f : UInt64 → UInt64) : RowRefines s (RowDone s)
      ((do setReg (.ofNat s.cfaOffColumn) .undef (f (← ofReader number)) : RowM Unit) st)
      ((do return (s.setCfaOff r (f (← number)), 0) : Reader (CfiState × UInt64)) st.addr) := by
    apply rowRefines_bind (rowRefines_ofReader hst number)
    rintro val st1 _ addr1 hst1 ⟨-, rfl, rfl⟩
    exact rowRefines_rule hst1 (h.withAddr addr1) (cfaOff_lt s) .undef (f val)
  have hdone (h' : st.Holds s r) : RowRefines s (RowDone s) ((pure () : RowM Unit) st)
      ((pure (r, 0) : Reader (CfiState × UInt64)) st.addr) :=
    ⟨hst, (UInt64.add_zero _).symm, h'⟩
  have hblock (saved : DwarfWhere) : RowRefines s (RowDone s)
      ((do
        let regnum ← ofReader s.readRegnum
        setReg regnum saved (← get).addr
        skip (← ofReader s.readUleb128) : RowM Unit) st)
      ((do
        let regnum ← s.readRegnum
        let addr ← get
        let n ← s.readUleb128
        return (r.setReg regnum saved addr, n) : Reader (CfiState × UInt64)) st.addr) := by
    apply rowRefines_bind (rowRefines_ofReader hst s.readRegnum)
    rintro regnum st1 _ addr1 hst1 ⟨hok, rfl, rfl⟩
    exact rowRefines_block hst1 (h.withAddr addr1) (Nat.lt_add_right 2 (readRegnum_lt hok)) saved
  cases op with
  | advanceLoc operand => exact rowRefines_advance hst h dci _
  | advanceLoc1 => exact hadvance 1
  | advanceLoc2 => exact hadvance 2
  | advanceLoc4 => exact hadvance 4
  | mipsAdvanceLoc8 => exact ⟨hst, rfl⟩
  | offset operand =>
    exact rowRefines_regnum_val hst h (fun _ _ _ => checkRegnum_lt) s.readUleb128 .cfarel
      (· * dci.dataAlign)
  | offsetExtended =>
    exact rowRefines_regnum_val hst h hregnum s.readUleb128 .cfarel (· * dci.dataAlign)
  | offsetExtendedSf =>
    exact rowRefines_regnum_val hst h hregnum s.readSleb128 .cfarel (· * dci.dataAlign)
  | restore operand => exact rowRefines_restore hst h initial operand.toUInt64
  | restoreExtended =>
    apply rowRefines_bind (rowRefines_ofReader hst s.readUleb128)
    rintro regnum st1 _ addr1 hst1 ⟨-, rfl, rfl⟩
    exact rowRefines_restore hst1 (h.withAddr addr1) initial regnum
  | nop => exact hdone h
  | setLoc =>
    apply rowRefines_bind (rowRefines_ofReader hst _)
    rintro currIp st1 _ addr1 hst1 ⟨-, rfl, rfl⟩
    exact ⟨⟨hst1.inside, hst1.rows⟩, (UInt64.add_zero _).symm,
      ⟨rfl, h.rs, h.ptr, h.room, h.saved⟩⟩
  | undefined => exact hsame .undef
  | sameValue => exact hsame .same
  | register =>
    apply rowRefines_bind (rowRefines_ofReader hst s.readRegnum)
    rintro regnum st1 _ addr1 hst1 ⟨hok, rfl, rfl⟩
    have hlt := Nat.lt_add_right 2 (readRegnum_lt hok)
    apply rowRefines_bind (rowRefines_ofReader hst1 s.readUleb128)
    rintro val st2 _ addr2 hst2 ⟨-, rfl, rfl⟩
    apply rowRefines_bind (rowRefines_ofReader hst2 (s.checkRegnum val))
    rintro n st3 _ addr3 hst3 ⟨-, rfl, rfl⟩
    exact rowRefines_rule hst3 (((h.withAddr addr1).withAddr addr2).withAddr addr3) hlt .reg n
  | rememberState =>
    have hfull := full_iff h
    show RowRefines s (RowDone s) ((if _ then _ else _ : RowM Unit) st)
      ((if _ then _ else _ : Reader (CfiState × UInt64)) st.addr)
    by_cases hroom : 16 ≤ r.regStack.length
    · rw [if_pos (hfull.mpr hroom), if_pos hroom]
      exact ⟨hst, rfl⟩
    · rw [if_neg (fun hlt => hroom (hfull.mp hlt)), if_neg hroom]
      exact saveRow_good hst h (Nat.lt_of_not_le hroom)
  | restoreState =>
    have hempty := empty_iff h
    unfold Space.cfiExecute
    show RowRefines s (RowDone s) ((if _ then _ else _ : RowM Unit) st) _
    cases hrows : r.regStack with
    | nil =>
      rw [if_pos (hempty.mpr hrows)]
      exact ⟨hst, rfl⟩
    | cons row rows =>
      have hne : ¬ st.regStackPtr = 0 := by
        rw [hempty, hrows]
        exact List.cons_ne_nil row rows
      rw [if_neg hne]
      exact loadRow_good hst h hrows
  | defCfa => exact rowRefines_defCfa hst h s.readUleb128 id
  | defCfaSf => exact rowRefines_defCfa hst h s.readSleb128 (· * dci.dataAlign)
  | defCfaRegister =>
    apply rowRefines_bind (rowRefines_ofReader hst s.readRegnum)
    rintro regnum st1 _ addr1 hst1 ⟨-, rfl, rfl⟩
    exact rowRefines_rule hst1 (h.withAddr addr1) (cfaReg_lt s) .reg regnum
  | defCfaOffset => exact hoffset s.readUleb128 id
  | defCfaOffsetSf => exact hoffset s.readSleb128 (· * dci.dataAlign)
  | defCfaExpression => exact rowRefines_block hst h (cfaReg_lt s) .expr
  | expression => exact hblock .expr
  | valExpression => exact hblock .valExpr
  | gnuArgsSize =>
    apply rowRefines_bind (rowRefines_ofReader hst s.readUleb128)
    rintro val st1 _ addr1 hst1 ⟨-, rfl, rfl⟩
    exact ⟨hst1, (UInt64.add_zero _).symm, h.withAddr addr1⟩
  | gnuNegativeOffsetExtended =>
    exact rowRefines_regnum_val hst h hregnum s.readUleb128 .cfarel fun val =>
      -(val * dci.dataAlign)
  | gnuWindowSave => exact ⟨hst, rfl⟩
  | loUser => exact ⟨hst, rfl⟩
  | hiUser => exact ⟨hst, rfl⟩
  | unknown => exact hdone h

/-! ### The loop -/

variable {gp : UInt64} {dci : CieInfo} {initial : RegState} {ip endAddr : UInt64}

/-- The results of a pass on the two levels. -/
def RowStepAgrees (s : Space) (x : RowState ⊕ Except Halt Unit × RowState)
    (y : (UInt64 × CfiState) ⊕ EStateM.Result Halt UInt64 CfiState) : Prop :=
  match x, y with
  | .inl st, .inl (addr, r) => st.Good s ∧ st.addr = addr ∧ st.Holds s r
  | .inr (.ok _, st), .inr (.ok r _) => st.Good s ∧ st.Holds s r
  | .inr (.error e, st), .inr (.error e' _) => st.Good s ∧ e = e'
  | _, _ => False

/-- A pass on the arrays is a pass on the list. -/
theorem rowStep_agrees (hst : st.Good s) (h : st.Holds s r) :
    RowStepAgrees s (s.rowStep gp dci initial ip endAddr st)
      (s.cfiStep gp dci initial ip endAddr (st.addr, r)) := by
  have hpass : RowRefines s (RowDone s) (s.rowPass gp dci initial st)
      (s.cfiInstr gp dci initial r st.addr) := by
    apply rowRefines_bind (rowRefines_ofReader hst s.read8)
    rintro opcode st1 _ addr1 hst1 ⟨-, rfl, rfl⟩
    exact executeRows_refines gp dci initial (.decode opcode) hst1 (h.withAddr addr1)
  unfold Space.rowStep Space.cfiStep
  dsimp only
  rw [← h.currIp]
  split
  · cases hx : s.rowPass gp dci initial st with
    | ok u st' =>
      rw [hx] at hpass
      cases hy : s.cfiInstr gp dci initial r st.addr with
      | ok res addr' =>
        rw [hy] at hpass
        exact hpass
      | error e addr' =>
        rw [hy] at hpass
        exact hpass.elim
    | error e st' =>
      rw [hx] at hpass
      cases hy : s.cfiInstr gp dci initial r st.addr with
      | ok res addr' =>
        rw [hy] at hpass
        exact hpass.elim
      | error e' addr' =>
        rw [hy] at hpass
        exact hpass
  · exact ⟨hst, h⟩

/-- A pass that goes on. -/
theorem rowStep_inl {st' : RowState} (hst : st.Good s) (h : st.Holds s r)
    (hstep : s.rowStep gp dci initial ip endAddr st = .inl st') : st'.Good s ∧
      ∃ r', s.cfiStep gp dci initial ip endAddr (st.addr, r) = .inl (st'.addr, r') ∧
        st'.Holds s r' := by
  have hagrees : RowStepAgrees s (s.rowStep gp dci initial ip endAddr st)
      (s.cfiStep gp dci initial ip endAddr (st.addr, r)) := rowStep_agrees hst h
  rw [hstep] at hagrees
  cases hy : s.cfiStep gp dci initial ip endAddr (st.addr, r) with
  | inl y =>
    rw [hy] at hagrees
    obtain ⟨hgood, haddr, hholds⟩ := hagrees
    refine ⟨hgood, y.2, ?_, hholds⟩
    rw [haddr]
  | inr y =>
    rw [hy] at hagrees
    exact hagrees.elim

/-- A pass that does not. -/
theorem rowStep_inr {e : Except Halt Unit} {st' : RowState} (hst : st.Good s) (h : st.Holds s r)
    (hstep : s.rowStep gp dci initial ip endAddr st = .inr (e, st')) : st'.Good s := by
  have hagrees : RowStepAgrees s (s.rowStep gp dci initial ip endAddr st)
      (s.cfiStep gp dci initial ip endAddr (st.addr, r)) := rowStep_agrees hst h
  rw [hstep] at hagrees
  cases hy : s.cfiStep gp dci initial ip endAddr (st.addr, r) with
  | inl y =>
    rw [hy] at hagrees
    cases e <;> exact hagrees.elim
  | inr y =>
    rw [hy] at hagrees
    cases e with
    | ok u =>
      cases y with
      | ok r' a => exact hagrees.1
      | error e' a => exact hagrees.elim
    | error e =>
      cases y with
      | ok r' a => exact hagrees.elim
      | error e' a => exact hagrees.1

end Refines

end Mtrace.Dwarf
