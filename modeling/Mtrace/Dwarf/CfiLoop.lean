import Mtrace.Orbit
import Mtrace.Dwarf.Words
import Mtrace.Dwarf.Cfi

/-!
# The loop over a program

Every instruction moves the position on, unless it has a block so long that the position comes round
the top of the address space.  Without such a block the loop ends, and no opcode is taken from
behind the end of the program. -/

namespace Mtrace.Dwarf

/-! ## Enough passes -/

section Steady

variable {s : Space}

theorem steady_checkRegnum (val : UInt64) : Steady fun _ => s.checkRegnum val := by
  unfold Space.checkRegnum
  apply Steady.ite
  · exact .fail _
  · exact .pure _

theorem steady_readRegnum : Steady fun p => (s.withPasses p).readRegnum :=
  steady_readUleb128.bind fun val => steady_checkRegnum val

theorem steady_cfiExecute (gp : UInt64) (dci : CieInfo) (initial : RegState) (op : CfaOp)
    (r : CfiState) : Steady fun p => (s.withPasses p).cfiExecute gp dci initial op r := by
  have hrestore (regnum : UInt64) : Steady fun _ =>
      (if .ofNat s.numRegs ≤ regnum then Reader.fail .inval
        else return (r.restoreReg initial regnum, 0) : Reader (CfiState × UInt64)) := by
    apply Steady.ite
    · exact .fail _
    · exact .pure _
  unfold Space.cfiExecute
  cases op with
  | advanceLoc operand => exact .pure _
  | advanceLoc1 => exact (steady_read 1).bind fun _ => .pure _
  | advanceLoc2 => exact (steady_read 2).bind fun _ => .pure _
  | advanceLoc4 => exact (steady_read 4).bind fun _ => .pure _
  | mipsAdvanceLoc8 => exact .fail _
  | offset operand =>
    exact (steady_checkRegnum _).bind fun _ => steady_readUleb128.bind fun _ => .pure _
  | offsetExtended => exact steady_readRegnum.bind fun _ => steady_readUleb128.bind fun _ => .pure _
  | offsetExtendedSf => exact steady_readRegnum.bind fun _ =>
    steady_readSleb128.bind fun _ => .pure _
  | restore operand => exact hrestore operand.toUInt64
  | restoreExtended => exact steady_readUleb128.bind hrestore
  | nop => exact .pure _
  | setLoc => exact (steady_readEncodedPointer gp _ true _).bind fun _ => .pure _
  | undefined => exact steady_readRegnum.bind fun _ => .pure _
  | sameValue => exact steady_readRegnum.bind fun _ => .pure _
  | register =>
    exact steady_readRegnum.bind fun _ => steady_readUleb128.bind fun val =>
      (steady_checkRegnum val).bind fun _ => .pure _
  | rememberState => exact .ite (.fail _) (.pure _)
  | restoreState =>
    cases r.regStack with
    | nil => exact .fail _
    | cons rs regStack => exact .pure _
  | defCfa =>
    exact steady_readRegnum.bind fun regnum => steady_readUleb128.bind fun val =>
      .pure (s.setCfaOff (s.setCfaReg r .reg regnum) val, 0)
  | defCfaSf =>
    exact steady_readRegnum.bind fun regnum => steady_readSleb128.bind fun val =>
      .pure (s.setCfaOff (s.setCfaReg r .reg regnum) (val * dci.dataAlign), 0)
  | defCfaRegister =>
    exact steady_readRegnum.bind fun regnum => .pure (s.setCfaReg r .reg regnum, 0)
  | defCfaOffset => exact steady_readUleb128.bind fun val => .pure (s.setCfaOff r val, 0)
  | defCfaOffsetSf =>
    exact steady_readSleb128.bind fun val => .pure (s.setCfaOff r (val * dci.dataAlign), 0)
  | defCfaExpression =>
    exact Steady.get.bind fun addr => steady_readUleb128.bind fun n =>
      .pure (s.setCfaReg r .expr addr, n)
  | expression =>
    exact steady_readRegnum.bind fun _ => Steady.get.bind fun _ =>
      steady_readUleb128.bind fun _ => .pure _
  | valExpression =>
    exact steady_readRegnum.bind fun _ => Steady.get.bind fun _ =>
      steady_readUleb128.bind fun _ => .pure _
  | gnuArgsSize => exact steady_readUleb128.bind fun _ => .pure _
  | gnuNegativeOffsetExtended =>
    exact steady_readRegnum.bind fun _ => steady_readUleb128.bind fun _ => .pure _
  | gnuWindowSave => exact .fail _
  | loUser => exact .fail _
  | hiUser => exact .fail _
  | unknown => exact .pure _

theorem steady_cfiInstr (gp : UInt64) (dci : CieInfo) (initial : RegState) (r : CfiState) :
    Steady fun p => (s.withPasses p).cfiInstr gp dci initial r :=
  ((steady_read 1).bind fun _ => .pure _).bind fun opcode =>
    steady_cfiExecute gp dci initial (.decode opcode) r

end Steady

/-! ## The loop as a machine -/

namespace Space

variable (s : Space)

/-- A pass of the loop, from a position and a state. -/
def cfiStep (gp : UInt64) (dci : CieInfo) (initial : RegState) (ip endAddr : UInt64)
    (x : UInt64 × CfiState) : (UInt64 × CfiState) ⊕ EStateM.Result Halt UInt64 CfiState :=
  if x.2.currIp ≤ ip ∧ x.1 < endAddr then
    match s.cfiInstr gp dci initial x.2 x.1 with
    | .ok (r, n) addr => .inl (addr + n, r)
    | .error h addr => .inr (.error h addr)
  else .inr (.ok x.2 x.1)

/-- The bytes that the instruction at a position takes, with its block. -/
def cfiSize (gp : UInt64) (dci : CieInfo) (initial : RegState) (x : UInt64 × CfiState) : Option ℕ :=
  match s.cfiInstr gp dci initial x.2 x.1 with
  | .ok (_, n) addr => some ((addr - x.1).toNat + n.toNat)
  | .error _ _ => none

end Space

section Loop

variable {s : Space} {gp : UInt64} {dci : CieInfo} {initial : RegState} {ip endAddr : UInt64}
  {x : UInt64 × CfiState}

theorem cfiLoop_eq (n : ℕ) (r : CfiState) (addr : UInt64) :
    s.cfiLoop gp dci initial ip endAddr n r addr =
      match Orbit.run (s.cfiStep gp dci initial ip endAddr) n (addr, r) with
      | .inl x => .error .running x.1
      | .inr result => result := by
  induction n generalizing r addr with
  | zero => rfl
  | succ n ih =>
    rw [Space.cfiLoop, Orbit.run, Space.cfiStep]
    show (if r.currIp ≤ ip ∧ addr < endAddr then _ else _ : Reader CfiState) addr = _
    by_cases h : r.currIp ≤ ip ∧ addr < endAddr
    · rw [if_pos h, if_pos h]
      show EStateM.bind (s.cfiInstr gp dci initial r) _ addr = _
      unfold EStateM.bind
      cases s.cfiInstr gp dci initial r addr with
      | ok res addr' => exact ih res.1 (addr' + res.2)
      | error h addr' => rfl
    · rw [if_neg h, if_neg h]
      rfl

/-- With enough passes for the numbers, a pass of the loop does not depend on their number. -/
theorem cfiStep_steady {p q : ℕ} (hp : enough ≤ p) (hq : enough ≤ q) :
    (s.withPasses p).cfiStep gp dci initial ip endAddr x =
        (s.withPasses q).cfiStep gp dci initial ip endAddr x ∧
      ∀ addr, (s.withPasses p).cfiStep gp dci initial ip endAddr x ≠ .inr
        (.error .running addr) := by
  obtain ⟨heq, hrun⟩ := steady_cfiInstr (s := s) gp dci initial x.2 p q hp hq x.1
  dsimp only at heq hrun
  unfold Space.cfiStep
  rw [← heq]
  refine ⟨rfl, fun addr => ?_⟩
  split
  · cases hinstr : (s.withPasses p).cfiInstr gp dci initial x.2 x.1 with
    | ok res addr' => exact fun h => by cases h
    | error h addr' =>
      intro heq'
      cases heq'
      exact hrun _ hinstr
  · exact fun h => by cases h

end Loop

/-! ## Positions -/

/-- From a position, a reader stays there or gets further; at the top of the address space it may
get to 0, where nothing can be read. -/
def Forward {α : Type} (r : Reader α) (a : UInt64) : Prop :=
  ∀ v a', r a = .ok v a' → a' = a ∨ a ≠ 0 ∧ (a' = 0 ∨ a < a')

namespace Forward

variable {α β : Type} {a : UInt64}

theorem bind {r : Reader α} {f : α → Reader β} (hr : Forward r a) (hf : ∀ v a1, Forward (f v) a1) :
    Forward (r >>= f) a := by
  intro w a2 h
  obtain ⟨v, a1, hr1, hf1⟩ := bind_eq_ok.mp h
  obtain rfl | ⟨hne, hfirst⟩ := hr v a1 hr1
  · exact hf v a1 w a2 hf1
  · obtain rfl | ⟨hne1, hsecond⟩ := hf v a1 w a2 hf1
    · exact .inr ⟨hne, hfirst⟩
    · refine .inr ⟨hne, hsecond.imp_right fun hlt => ?_⟩
      exact UInt64.lt_trans (hfirst.resolve_left hne1) hlt

theorem pure (x : α) : Forward (pure x) a := by
  intro v a' h
  cases h
  exact .inl rfl

theorem fail (e : DwarfError) : Forward (Reader.fail e : Reader α) a := by
  intro v a' h
  cases h

theorem get : Forward get a := by
  intro v a' h
  cases h
  exact .inl rfl

theorem ite {P : Prop} [Decidable P] {r t : Reader α} (hr : Forward r a) (ht : Forward t a) :
    Forward (if P then r else t) a := by
  split
  · exact hr
  · exact ht

end Forward

section Positions

variable {s : Space} {a : UInt64}

theorem toNat_ne_zero (h : a ≠ 0) : a.toNat ≠ 0 := fun h0 => h (UInt64.toNat_inj.mp h0)

theorem forward_read {size : ℕ} (hsize : 0 < size) (h : a.toNat + size < 2 ^ 64) :
    Forward (s.read size) a := by
  intro v a' hread
  by_cases ha : a = 0
  · rw [ha, read_zero] at hread
    cases hread
  · rw [read_eq size ha] at hread
    cases hread
    refine .inr ⟨ha, .inr ?_⟩
    rw [UInt64.lt_iff_toNat_lt, UInt64.toNat_add, toNat_ofNat_of_lt (by omega),
      Nat.mod_eq_of_lt h]
    omega

theorem lt_add_one (h : a + 1 ≠ 0) : a < a + 1 := by
  have hlt := a.toNat_lt
  have hne := toNat_ne_zero h
  have hsucc : (a + 1).toNat = (a.toNat + 1) % 2 ^ 64 := UInt64.toNat_add a 1
  rw [UInt64.lt_iff_toNat_lt, hsucc]
  omega

theorem leb128_forward {p : ℕ} {val shift : UInt64} {v : UInt64 × UInt64 × UInt8} {a' : UInt64}
    (h : s.leb128 p val shift a = .ok v a') : a ≠ 0 ∧ (a' = 0 ∨ a < a') := by
  induction p generalizing val shift a with
  | zero => cases h
  | succ p ih =>
    by_cases ha : a = 0
    · rw [ha, leb128_zero] at h
      cases h
    refine ⟨ha, ?_⟩
    rw [leb128_succ p val shift ha] at h
    split at h
    · cases h
      by_cases hzero : a + 1 = 0
      · exact .inl hzero
      · exact .inr (lt_add_one hzero)
    · obtain ⟨hne, hnext⟩ := ih h
      exact hnext.imp_right (UInt64.lt_trans (lt_add_one hne))

theorem forward_readUleb128 : Forward s.readUleb128 a :=
  .bind (fun _ _ h => .inr (leb128_forward h)) fun _ _ => .pure _

theorem forward_readSleb128 : Forward s.readSleb128 a :=
  .bind (fun _ _ h => .inr (leb128_forward h)) fun _ _ => .ite (.pure _) (.pure _)

theorem forward_readRegnum : Forward s.readRegnum a :=
  forward_readUleb128.bind fun _ _ => .ite (.fail _) (.pure _)

theorem forward_readFormat (format : UInt8) (want : Bool) (h : a.toNat + 8 < 2 ^ 64) :
    Forward (s.readFormat format want) a := by
  have hfixed (size : ℕ) (hpos : 0 < size) (hle : size ≤ 8) :
      Forward (do let val ← s.read size; return if want then val else 0 : Reader UInt64) a :=
    (forward_read hpos (by omega)).bind fun _ _ => .pure _
  unfold Space.readFormat
  apply Forward.ite
  · refine hfixed s.addrSize ?_ ?_ <;> unfold Space.addrSize <;> split <;> decide
  apply Forward.ite
  · exact forward_readUleb128
  apply Forward.ite
  · exact hfixed 2 (by decide) (by decide)
  apply Forward.ite
  · exact hfixed 4 (by decide) (by decide)
  apply Forward.ite
  · exact hfixed 8 (by decide) (by decide)
  apply Forward.ite
  · exact forward_readSleb128
  apply Forward.ite
  · exact (hfixed 2 (by decide) (by decide)).bind fun _ _ => .pure _
  apply Forward.ite
  · exact (hfixed 4 (by decide) (by decide)).bind fun _ _ => .pure _
  apply Forward.ite
  · exact hfixed 8 (by decide) (by decide)
  · exact .fail _

theorem forward_applyEncoding (gp : UInt64) (encoding : UInt8) (want : Bool)
    (initialAddr startIp val : UInt64) :
    Forward (s.applyEncoding gp encoding want initialAddr startIp val) a := by
  unfold Space.applyEncoding
  apply Forward.ite
  · exact .pure _
  refine .ite ((Forward.pure _).bind fun val _ => ?_) (.ite ((Forward.pure _).bind fun val _ => ?_)
    (.ite ((Forward.pure _).bind fun val _ => ?_)
      (.ite ((Forward.pure _).bind fun val _ => ?_) ?_)))
  case refine_5 => exact fun _ _ h => by cases h
  -- the same goes on with each of the values
  all_goals
    apply Forward.ite
    · exact .pure _
    apply Forward.ite
    · cases s.access (s.trim val) s.addrSize with
      | ok val' => exact .pure _
      | error e => exact fun _ _ h => by cases h
    · exact .pure _

/-- The low bits of an address cut off. -/
theorem toNat_and_neg {j : ℕ} {mask : UInt64} (hmask : mask.toBitVec = BitVec.allOnes 64 <<< j) :
    (a &&& mask).toNat = a.toNat / 2 ^ j * 2 ^ j := by
  have hle : a.toNat / 2 ^ j * 2 ^ j ≤ a.toNat := Nat.div_mul_le_self ..
  have hlt := a.toNat_lt
  show (a &&& mask).toBitVec.toNat = _
  rw [UInt64.toBitVec_and, hmask, ← BitVec.shiftLeft_ushiftRight, BitVec.toNat_shiftLeft,
    BitVec.toNat_ushiftRight, Nat.shiftRight_eq_div_pow, Nat.shiftLeft_eq]
  apply Nat.mod_eq_of_lt
  show a.toNat / 2 ^ j * 2 ^ j < 2 ^ 64
  omega

/-- The next address that is a multiple of the size of an address. -/
theorem aligned_bounds (h : a.toNat + 16 < 2 ^ 64) :
    a.toNat ≤ ((a + .ofNat s.addrSize - 1) &&& -.ofNat s.addrSize).toNat ∧
      ((a + .ofNat s.addrSize - 1) &&& -.ofNat s.addrSize).toNat ≤ a.toNat + 7 := by
  have hsum {k : ℕ} (hk : 0 < k) (hk8 : k ≤ 8) : (a + .ofNat k - 1).toNat = a.toNat + k - 1 := by
    have hadd : (a + .ofNat k).toNat = a.toNat + k := by
      rw [UInt64.toNat_add, toNat_ofNat_of_lt (by omega), Nat.mod_eq_of_lt (by omega)]
    rw [UInt64.toNat_sub_of_le, hadd]
    · rfl
    · rw [UInt64.le_iff_toNat_le, hadd]
      show 1 ≤ a.toNat + k
      omega
  unfold Space.addrSize
  cases s.is64bit with
  | true =>
    have hnat : (a + .ofNat 8 - 1 &&& -.ofNat 8).toNat = (a + .ofNat 8 - 1).toNat / 2 ^ 3 * 2 ^ 3 :=
      toNat_and_neg (by decide)
    rw [hsum (by decide) (by decide)] at hnat
    constructor
    · exact hnat.ge.trans' (by omega)
    · exact hnat.le.trans (by omega)
  | false =>
    have hnat : (a + .ofNat 4 - 1 &&& -.ofNat 4).toNat = (a + .ofNat 4 - 1).toNat / 2 ^ 2 * 2 ^ 2 :=
      toNat_and_neg (by decide)
    rw [hsum (by decide) (by decide)] at hnat
    constructor
    · exact hnat.ge.trans' (by omega)
    · exact hnat.le.trans (by omega)

theorem forward_readEncodedPointer (gp : UInt64) (encoding : UInt8) (want : Bool) (startIp : UInt64)
    (ha : a ≠ 0) (h : a.toNat + 16 < 2 ^ 64) :
    Forward (s.readEncodedPointer gp encoding want startIp) a := by
  unfold Space.readEncodedPointer
  intro v a' hread
  obtain ⟨initialAddr, a1, hget, hread⟩ := bind_eq_ok.mp hread
  cases hget
  split at hread
  · cases hread
    exact .inl rfl
  split at hread
  · obtain ⟨_, a1, hset, hread⟩ := bind_eq_ok.mp hread
    cases hset
    obtain ⟨hge, hle⟩ := aligned_bounds (s := s) h
    have hsize : 0 < s.addrSize ∧ s.addrSize ≤ 8 := by
      unfold Space.addrSize
      split <;> decide
    obtain ⟨val, a2, hword, hread⟩ := bind_eq_ok.mp hread
    cases hread
    obtain heq | ⟨-, rfl | hlt⟩ := forward_read hsize.1 (by omega) val _ hword
    · by_cases heq' : a' = a
      · exact .inl heq'
      · refine .inr ⟨ha, .inr ?_⟩
        have hne : a'.toNat ≠ a.toNat := fun h => heq' (UInt64.toNat_inj.mp h)
        rw [UInt64.lt_iff_toNat_lt]
        rw [← heq] at hge
        omega
    · exact .inr ⟨ha, .inl rfl⟩
    · refine .inr ⟨ha, .inr ?_⟩
      rw [UInt64.lt_iff_toNat_lt] at hlt ⊢
      omega
  · exact (forward_readFormat _ want (by omega)).bind
      (fun val _ => forward_applyEncoding gp encoding want _ _ val) v a' hread

theorem forward_checkRegnum (val : UInt64) : Forward (s.checkRegnum val) a := by
  unfold Space.checkRegnum
  exact .ite (.fail _) (.pure _)

/-- The operands of an instruction. -/
theorem forward_cfiExecute (gp : UInt64) (dci : CieInfo) (initial : RegState) (op : CfaOp)
    (r : CfiState) (ha : a ≠ 0) (h : a.toNat + 16 < 2 ^ 64) :
    Forward (s.cfiExecute gp dci initial op r) a := by
  have hread {size : ℕ} (hpos : 0 < size) (hle : size ≤ 8) : Forward (s.read size) a :=
    forward_read hpos (by omega)
  unfold Space.cfiExecute
  cases op with
  | advanceLoc operand => exact .pure _
  | advanceLoc1 => exact (hread (by decide) (by decide)).bind fun _ _ => .pure _
  | advanceLoc2 => exact (hread (by decide) (by decide)).bind fun _ _ => .pure _
  | advanceLoc4 => exact (hread (by decide) (by decide)).bind fun _ _ => .pure _
  | mipsAdvanceLoc8 => exact .fail _
  | offset operand =>
    exact (forward_checkRegnum _).bind fun _ _ => forward_readUleb128.bind fun _ _ => .pure _
  | offsetExtended =>
    exact forward_readRegnum.bind fun _ _ => forward_readUleb128.bind fun _ _ => .pure _
  | offsetExtendedSf =>
    exact forward_readRegnum.bind fun _ _ => forward_readSleb128.bind fun _ _ => .pure _
  | restore operand => exact .ite (.fail _) (.pure _)
  | restoreExtended => exact forward_readUleb128.bind fun _ _ => .ite (.fail _) (.pure _)
  | nop => exact .pure _
  | setLoc => exact (forward_readEncodedPointer gp _ true _ ha h).bind fun _ _ => .pure _
  | undefined => exact forward_readRegnum.bind fun _ _ => .pure _
  | sameValue => exact forward_readRegnum.bind fun _ _ => .pure _
  | register =>
    exact forward_readRegnum.bind fun _ _ => forward_readUleb128.bind fun val _ =>
      (forward_checkRegnum val).bind fun _ _ => .pure _
  | rememberState => exact .ite (.fail _) (.pure _)
  | restoreState =>
    cases r.regStack with
    | nil => exact .fail _
    | cons rs regStack => exact .pure _
  | defCfa => exact forward_readRegnum.bind fun _ _ => forward_readUleb128.bind fun _ _ => .pure _
  | defCfaSf => exact forward_readRegnum.bind fun _ _ => forward_readSleb128.bind fun _ _ => .pure _
  | defCfaRegister => exact forward_readRegnum.bind fun _ _ => .pure _
  | defCfaOffset => exact forward_readUleb128.bind fun _ _ => .pure _
  | defCfaOffsetSf => exact forward_readSleb128.bind fun _ _ => .pure _
  | defCfaExpression =>
    exact Forward.get.bind fun _ _ => forward_readUleb128.bind fun _ _ => .pure _
  | expression =>
    exact forward_readRegnum.bind fun _ _ => Forward.get.bind fun _ _ =>
      forward_readUleb128.bind fun _ _ => .pure _
  | valExpression =>
    exact forward_readRegnum.bind fun _ _ => Forward.get.bind fun _ _ =>
      forward_readUleb128.bind fun _ _ => .pure _
  | gnuArgsSize => exact forward_readUleb128.bind fun _ _ => .pure _
  | gnuNegativeOffsetExtended =>
    exact forward_readRegnum.bind fun _ _ => forward_readUleb128.bind fun _ _ => .pure _
  | gnuWindowSave => exact .fail _
  | loUser => exact .fail _
  | hiUser => exact .fail _
  | unknown => exact .pure _

/-- An instruction is read to a later position, or to 0 at the top of the address space. -/
theorem cfiInstr_forward {gp : UInt64} {dci : CieInfo} {initial : RegState} {r : CfiState}
    {res : CfiState × UInt64} {a' : UInt64} (ha : a.toNat < 2 ^ 63)
    (h : s.cfiInstr gp dci initial r a = .ok res a') : a ≠ 0 ∧ (a' = 0 ∨ a < a') := by
  obtain ⟨opcode, a1, hread, h⟩ := bind_eq_ok.mp h
  by_cases hzero : a = 0
  · rw [hzero, read8_zero] at hread
    cases hread
  rw [read8_eq hzero] at hread
  cases hread
  have hnat : (a + 1).toNat = a.toNat + 1 := by
    have hsucc : (a + 1).toNat = (a.toNat + 1) % 2 ^ 64 := UInt64.toNat_add a 1
    omega
  have hne : a + 1 ≠ 0 := by
    intro h0
    rw [h0] at hnat
    have : (0 : UInt64).toNat = 0 := rfl
    omega
  have hlt := lt_add_one hne
  refine ⟨hzero, ?_⟩
  obtain rfl | ⟨-, hnext⟩ := forward_cfiExecute gp dci initial _ r hne (by omega) res a' h
  · exact .inr hlt
  · exact hnext.imp_right (UInt64.lt_trans hlt)

/-- A number of bytes leads to a later position unless the address space ends before. -/
theorem lt_add_iff {a' n : UInt64} (ha : a ≠ 0) (h : a' = 0 ∨ a < a') :
    a < a' + n ↔ a.toNat + ((a' - a).toNat + n.toNat) < 2 ^ 64 ∨
      2 ^ 64 < (a' - a).toNat + n.toNat := by
  have hlta := a.toNat_lt
  have hltn := n.toNat_lt
  have hsum : (a' + n).toNat = (a'.toNat + n.toNat) % 2 ^ 64 := UInt64.toNat_add a' n
  have hdiff : (a' - a).toNat = (2 ^ 64 - a.toNat + a'.toNat) % 2 ^ 64 := UInt64.toNat_sub a' a
  rw [UInt64.lt_iff_toNat_lt]
  obtain rfl | hlt := h
  · have hzero : (0 : UInt64).toNat = 0 := rfl
    have hpos := toNat_ne_zero ha
    omega
  · rw [UInt64.lt_iff_toNat_lt] at hlt
    have hlta' := a'.toNat_lt
    omega

end Positions

/-! ## The run -/

namespace Space

variable (s : Space)

/-- `run_cfi_program` with enough passes for its numbers, as a machine. -/
def cfiMachine (gp : UInt64) (dci : CieInfo) (initial : RegState) (ip endAddr : UInt64) :
    UInt64 × CfiState → (UInt64 × CfiState) ⊕ EStateM.Result Halt UInt64 CfiState :=
  (s.withPasses enough).cfiStep gp dci initial ip endAddr

/-- `run_cfi_program` from `addr` on comes to a position and a state. -/
def CfiReaches (gp : UInt64) (dci : CieInfo) (initial rs : RegState) (ip endAddr addr : UInt64)
    (x : UInt64 × CfiState) : Prop :=
  Orbit.Reaches (s.cfiMachine gp dci initial ip endAddr) (addr, ⟨dci.startIp, rs, []⟩) x

end Space

section Run

variable {s : Space} {gp : UInt64} {dci : CieInfo} {initial : RegState} {ip endAddr : UInt64}

/-- A pass that goes on has executed the instruction at its position. -/
theorem cfiMachine_eq_inl {x y : UInt64 × CfiState}
    (h : s.cfiMachine gp dci initial ip endAddr x = .inl y) :
    (x.2.currIp ≤ ip ∧ x.1 < endAddr) ∧ ∃ r n addr,
      (s.withPasses enough).cfiInstr gp dci initial x.2 x.1 = .ok (r, n) addr ∧
        y = (addr + n, r) := by
  unfold Space.cfiMachine Space.cfiStep at h
  split at h
  case isTrue hcond =>
    refine ⟨hcond, ?_⟩
    cases hinstr : (s.withPasses enough).cfiInstr gp dci initial x.2 x.1 with
    | ok res addr =>
      rw [hinstr] at h
      cases h
      exact ⟨_, _, addr, rfl, rfl⟩
    | error e addr =>
      rw [hinstr] at h
      cases h
  case isFalse => cases h

theorem cfiMachine_of_instr {x : UInt64 × CfiState} {r : CfiState} {n addr : UInt64}
    (hip : x.2.currIp ≤ ip) (hlt : x.1 < endAddr)
    (h : (s.withPasses enough).cfiInstr gp dci initial x.2 x.1 = .ok (r, n) addr) :
    s.cfiMachine gp dci initial ip endAddr x = .inl (addr + n, r) := by
  unfold Space.cfiMachine Space.cfiStep
  rw [if_pos ⟨hip, hlt⟩, h]

/-- A pass moves the position on exactly if the instruction ends before the top of the address
space, or comes out behind its own opcode again. -/
theorem cfiMachine_advances_iff (hend : endAddr.toNat < 2 ^ 63) {x : UInt64 × CfiState} :
    (∀ y, s.cfiMachine gp dci initial ip endAddr x = .inl y → x.1 < y.1) ↔
      (x.2.currIp ≤ ip → x.1 < endAddr →
        ∀ size, (s.withPasses enough).cfiSize gp dci initial x = some size →
          x.1.toNat + size < 2 ^ 64 ∨ 2 ^ 64 < size) := by
  have hbelow (hlt : x.1 < endAddr) : x.1.toNat < 2 ^ 63 :=
    (UInt64.lt_iff_toNat_lt.mp hlt).trans hend
  constructor
  · intro h hip hlt size hsize
    unfold Space.cfiSize at hsize
    cases hinstr : (s.withPasses enough).cfiInstr gp dci initial x.2 x.1 with
    | ok res addr =>
      obtain ⟨r, n⟩ := res
      rw [hinstr] at hsize
      cases hsize
      have hstep := cfiMachine_of_instr hip hlt hinstr
      obtain ⟨hne, hforward⟩ := cfiInstr_forward (hbelow hlt) hinstr
      exact (lt_add_iff hne hforward).mp (h _ hstep)
    | error e addr =>
      rw [hinstr] at hsize
      cases hsize
  · intro h y hstep
    obtain ⟨⟨hip, hlt⟩, r, n, addr, hinstr, rfl⟩ := cfiMachine_eq_inl hstep
    obtain ⟨hne, hforward⟩ := cfiInstr_forward (hbelow hlt) hinstr
    apply (lt_add_iff hne hforward).mpr
    refine h hip hlt _ ?_
    unfold Space.cfiSize
    rw [hinstr]

/-- With enough passes, the loop ends as the machine does. -/
theorem cfiLoop_of_run {x : UInt64 × CfiState} {res : EStateM.Result Halt UInt64 CfiState} {m p : ℕ}
    (h : Orbit.run (s.cfiMachine gp dci initial ip endAddr) m x = .inr res) (hm : m ≤ p)
    (hp : enough ≤ p) : (s.withPasses p).cfiLoop gp dci initial ip endAddr p x.2 x.1 = res := by
  have hstep : (s.withPasses p).cfiStep gp dci initial ip endAddr =
      s.cfiMachine gp dci initial ip endAddr := funext fun x => (cfiStep_steady hp le_rfl).1
  rw [cfiLoop_eq, hstep, Orbit.run_of_done h hm]

/-- The loop ends if every pass moves the position on. -/
theorem cfiLoop_ends {rs : RegState} {addr : UInt64}
    (h : ∀ x y, s.CfiReaches gp dci initial rs ip endAddr addr x →
      s.cfiMachine gp dci initial ip endAddr x = .inl y → x.1 < y.1) :
    ∃ n, ∀ p ≥ n, ∀ addr', (s.withPasses p).cfiLoop gp dci initial ip endAddr p
      ⟨dci.startIp, rs, []⟩ addr ≠ .error .running addr' := by
  have hends :
      Orbit.Ends (s.cfiMachine gp dci initial ip endAddr) (addr, ⟨dci.startIp, rs, []⟩) := by
    apply Orbit.ends_of_increasing (fun x => x.1.toNat) (2 ^ 64)
    intro x y hx hstep
    exact ⟨UInt64.lt_iff_toNat_lt.mp (h x y hx hstep), x.1.toNat_lt⟩
  obtain ⟨m, res, hm⟩ := hends
  obtain ⟨y, -, hlast⟩ := Orbit.exists_last hm
  refine ⟨max m enough, fun p hp addr' heq => ?_⟩
  have hloop :=
    cfiLoop_of_run hm ((le_max_left m enough).trans hp) ((le_max_right m enough).trans hp)
  rw [hloop.symm.trans heq] at hlast
  exact (cfiStep_steady (s := s) le_rfl (le_refl enough)).2 addr' hlast

end Run

/-- In every pass `run_cfi_program` gets further, and so it ends, and it takes no opcode from behind
its end, exactly if each of its instructions ends before the top of the address space or comes out
behind its own opcode again. -/
theorem cfi_advances_iff (s : Space) (gp : UInt64) (dci : CieInfo) (initial rs : RegState)
    (ip addr : UInt64) {endAddr : UInt64} (hend : endAddr.toNat < 2 ^ 63) :
    ((∀ x y, s.CfiReaches gp dci initial rs ip endAddr addr x →
        s.cfiMachine gp dci initial ip endAddr x = .inl y → x.1 < y.1) ∧
      (∃ n, ∀ p ≥ n, ∀ addr', (s.withPasses p).cfiLoop gp dci initial ip endAddr p
        ⟨dci.startIp, rs, []⟩ addr ≠ .error .running addr') ∧
      ∀ x, s.CfiReaches gp dci initial rs ip endAddr addr x →
        s.cfiMachine gp dci initial ip endAddr x ≠ .inr (.ok x.2 x.1) → x.1 < endAddr) ↔
      ∀ x size, s.CfiReaches gp dci initial rs ip endAddr addr x → x.2.currIp ≤ ip →
        x.1 < endAddr → (s.withPasses enough).cfiSize gp dci initial x = some size →
          x.1.toNat + size < 2 ^ 64 ∨ 2 ^ 64 < size := by
  have hinside (x : UInt64 × CfiState)
      (h : s.cfiMachine gp dci initial ip endAddr x ≠ .inr (.ok x.2 x.1)) : x.1 < endAddr := by
    by_contra hlt
    apply h
    unfold Space.cfiMachine Space.cfiStep
    rw [if_neg fun hcond => hlt hcond.2]
  constructor
  · rintro ⟨h, -, -⟩ x size hx hip hlt hsize
    exact (cfiMachine_advances_iff hend).mp (fun y hy => h x y hx hy) hip hlt size hsize
  · intro h
    have hadvances : ∀ x y, s.CfiReaches gp dci initial rs ip endAddr addr x →
        s.cfiMachine gp dci initial ip endAddr x = .inl y → x.1 < y.1 := by
      intro x y hx hy
      exact (cfiMachine_advances_iff hend).mpr
        (fun hip hlt size hsize => h x size hx hip hlt hsize) y hy
    exact ⟨hadvances, cfiLoop_ends hadvances, fun x _ hne => hinside x hne⟩

/-- `DW_CFA_def_cfa_expression` with the block of a `DW_OP_breg0`, `DW_CFA_offset` and
`DW_CFA_nop`. -/
def blockImage : Space := imageOf [0x0f, 2, 0x70, 0, 0x83, 2, 0]

theorem cfi_advances_block :
    (∀ x y, blockImage.CfiReaches 0 .zero Space.zeroRow Space.sameRow 0 0x10007 0x10000 x →
        blockImage.cfiMachine 0 .zero Space.zeroRow 0 0x10007 x = .inl y → x.1 < y.1) ∧
      (∃ n, ∀ p ≥ n, ∀ addr', (blockImage.withPasses p).cfiLoop 0 .zero Space.zeroRow 0 0x10007 p
        ⟨0, Space.sameRow, []⟩ 0x10000 ≠ .error .running addr') ∧
      ∀ x, blockImage.CfiReaches 0 .zero Space.zeroRow Space.sameRow 0 0x10007 0x10000 x →
        blockImage.cfiMachine 0 .zero Space.zeroRow 0 0x10007 x ≠ .inr (.ok x.2 x.1) →
          x.1 < 0x10007 := by
  have hend : (0x10007 : UInt64).toNat < 2 ^ 63 := by decide
  refine (cfi_advances_iff blockImage 0 .zero Space.zeroRow Space.sameRow 0 0x10000 hend).mpr ?_
  intro x size hx _ hlt hsize
  obtain ⟨c₁, c₂, c₃, hblock, hoffset, hnop, hlast, hsize₁, hsize₂, hsize₃⟩ : ∃ c₁ c₂ c₃,
      blockImage.cfiMachine 0 .zero Space.zeroRow 0 0x10007
        (0x10000, ⟨0, Space.sameRow, []⟩) = .inl (0x10004, c₁) ∧
      blockImage.cfiMachine 0 .zero Space.zeroRow 0 0x10007 (0x10004, c₁) = .inl (0x10006, c₂) ∧
      blockImage.cfiMachine 0 .zero Space.zeroRow 0 0x10007 (0x10006, c₂) = .inl (0x10007, c₃) ∧
      blockImage.cfiMachine 0 .zero Space.zeroRow 0 0x10007 (0x10007, c₃) =
        .inr (.ok c₃ 0x10007) ∧
      (blockImage.withPasses enough).cfiSize 0 .zero Space.zeroRow
        (0x10000, ⟨0, Space.sameRow, []⟩) = some 4 ∧
      (blockImage.withPasses enough).cfiSize 0 .zero Space.zeroRow (0x10004, c₁) = some 2 ∧
      (blockImage.withPasses enough).cfiSize 0 .zero Space.zeroRow (0x10006, c₂) = some 1 :=
    ⟨_, _, _, rfl, rfl, rfl, rfl, rfl, rfl, rfl⟩
  have hstates : x = (0x10000, ⟨0, Space.sameRow, []⟩) ∨ x = (0x10004, c₁) ∨ x = (0x10006, c₂) ∨
      x = (0x10007, c₃) := by
    refine Orbit.Reaches.invariant (P := fun x => x = _ ∨ x = _ ∨ x = _ ∨ x = _)
      (fun x y hx hstep => ?_) (.inl rfl) hx
    obtain rfl | rfl | rfl | rfl := hx
    · cases hblock.symm.trans hstep
      exact .inr (.inl rfl)
    · cases hoffset.symm.trans hstep
      exact .inr (.inr (.inl rfl))
    · cases hnop.symm.trans hstep
      exact .inr (.inr (.inr rfl))
    · cases hlast.symm.trans hstep
  obtain rfl | rfl | rfl | rfl := hstates
  · cases hsize₁.symm.trans hsize
    exact .inl (show (0x10000 : UInt64).toNat + 4 < 2 ^ 64 by decide)
  · cases hsize₂.symm.trans hsize
    exact .inl (show (0x10004 : UInt64).toNat + 2 < 2 ^ 64 by decide)
  · cases hsize₃.symm.trans hsize
    exact .inl (show (0x10006 : UInt64).toNat + 1 < 2 ^ 64 by decide)
  · exact absurd (show (0x10007 : UInt64) < 0x10007 from hlt) (by decide)

/-- `DW_CFA_def_cfa_expression` with a block of `2 ^ 64 - 11` bytes, which leads back to it. -/
def roundBlock : Space :=
  imageOf [0x0f, 0xf5, 0xff, 0xff, 0xff, 0xff, 0xff, 0xff, 0xff, 0xff, 0x01]

theorem cfi_goes_round :
    ¬ ((∀ x y, roundBlock.CfiReaches 0 .zero Space.zeroRow Space.sameRow 0 0x1000b 0x10000 x →
        roundBlock.cfiMachine 0 .zero Space.zeroRow 0 0x1000b x = .inl y → x.1 < y.1) ∧
      (∃ n, ∀ p ≥ n, ∀ addr', (roundBlock.withPasses p).cfiLoop 0 .zero Space.zeroRow 0 0x1000b p
        ⟨0, Space.sameRow, []⟩ 0x10000 ≠ .error .running addr') ∧
      ∀ x, roundBlock.CfiReaches 0 .zero Space.zeroRow Space.sameRow 0 0x1000b 0x10000 x →
        roundBlock.cfiMachine 0 .zero Space.zeroRow 0 0x1000b x ≠ .inr (.ok x.2 x.1) →
          x.1 < 0x1000b) := by
  rintro ⟨h, -, -⟩
  have hpass : roundBlock.cfiMachine 0 .zero Space.zeroRow 0 0x1000b
      (0x10000, ⟨0, Space.sameRow, []⟩) =
        .inl (0x10000, roundBlock.setCfaReg ⟨0, Space.sameRow, []⟩ .expr 0x10001) := rfl
  exact absurd (h _ _ (.refl _) hpass) (by decide)

end Mtrace.Dwarf
