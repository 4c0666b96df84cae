import Mtrace.Arm.NextPcs

/-! # What the code takes an instruction for

`Task.takes` is how each instruction leaves the switch of `arm_get_next_pcs`, in the terms of the
architecture.  The moves to the status register, the hints and `BXJ` are taken for comparisons, a
division for a load, a shift to the right by 32 for none, and the differences with a carry are one
too large.  `armGetNextPcs_takes`: this is what `arm_get_next_pcs` does. -/

namespace Mtrace.Arm

open Shifts

/-! ### Fields -/

theorem bits_lt (w : Word) (st fn : ℕ) : bits w st fn < 2 ^ (fn + 1 - st) :=
  Nat.mod_lt _ (Nat.two_pow_pos _)

theorem opcode_eq (w : Word) : bits w 24 27 = 2 * bits w 25 27 + bit w 24 := by
  simp only [bit, bits]
  omega

/-- The opcode of data processing is a part of the fields that tell `BX` and `BLX`. -/
theorem opcode_of_fields {w : Word} {v : ℕ} (h : bits w 4 27 = v) :
    bits w 21 24 = v / 2 ^ 17 % 16 := by
  subst h
  simp only [bits]
  omega

/-! ### Shifts -/

/-- An operand as the code reads it: a shift to the right by 0, which stands for 32, is no shift. -/
def Operand.taken : Operand → Operand
  | .imm value => .imm value
  | .shifted rm type imm5 =>
    if imm5 = 0 ∧ (type = 1 ∨ type = 2) then .shifted rm 0 0 else .shifted rm type imm5

theorem and_signBit_ne_zero (x : Word) : x &&& 0x80000000 ≠ 0 ↔ x.msb = true := by
  have hbit : (0x80000000 : Word) = BitVec.twoPow 32 31 := by decide
  rw [hbit, BitVec.and_twoPow, BitVec.msb_eq_getLsbD_last]
  cases x.getLsbD (32 - 1) <;> decide

theorem shiftRegister_eq {type imm5 : ℕ} (htype : type < 4) (h : imm5 < 32) (value : Word)
    (carry : Bool) :
    shiftRegister type value imm5 carry =
      if imm5 = 0 ∧ (type = 1 ∨ type = 2) then value else shift type imm5 value carry := by
  have hcases : type = 0 ∨ type = 1 ∨ type = 2 ∨ type = 3 := by omega
  rcases hcases with rfl | rfl | rfl | rfl
  · simp [shiftRegister, shift, Nat.not_le.mpr h]
  · by_cases hzero : imm5 = 0
    · simp [shiftRegister, hzero]
    · simp [shiftRegister, shift, Nat.not_le.mpr h, hzero]
  · unfold shiftRegister shift
    simp only [ge_iff_le, if_neg (show ¬ 32 ≤ imm5 by omega), and_signBit_ne_zero, ← sshiftRight_eq]
    by_cases hzero : imm5 = 0
    · simp [hzero]
    · simp [hzero]
  · unfold shiftRegister shift
    rw [if_neg (show ¬ (imm5 = 0 ∧ (3 = 1 ∨ 3 = 2)) by omega)]
    simp only [Nat.mod_eq_of_lt h, BitVec.rotateRight_def]
    rw [rotateExtend_eq]
    exact rfl

theorem shiftRegister_lsl (value : Word) (shift : ℕ) (carry : Bool) :
    shiftRegister 0 value shift carry = value <<< shift := by
  unfold shiftRegister
  by_cases hall : 32 ≤ shift
  · simp [hall, BitVec.shiftLeft_eq_zero hall]
  · simp [hall]

theorem operand_taken (task : Task) (rm type imm5 : ℕ) :
    task.operand (Operand.taken (.shifted rm type imm5)) =
      if imm5 = 0 ∧ (type = 1 ∨ type = 2) then task.operandReg rm
      else shift type imm5 (task.operandReg rm) task.carry := by
  have htaken : Operand.taken (.shifted rm type imm5) =
      if imm5 = 0 ∧ (type = 1 ∨ type = 2) then .shifted rm 0 0 else .shifted rm type imm5 := rfl
  rw [htaken]
  split_ifs
  · exact BitVec.shiftLeft_zero _
  · exact rfl

/-- An operation as the code does it: with a borrow the differences are one too large. -/
def AluOp.taken (op : AluOp) (a b : Word) (carry : Bool) : Word :=
  match op with
  | .sbc => AluOp.result .sbc a b carry + 1
  | .rsc => AluOp.result .rsc a b carry + 1
  | op => op.result a b carry

theorem aluResult_of_ofBits {opcode : ℕ} {op : AluOp} (h : AluOp.ofBits opcode = some op)
    (a b : Word) (carry : Bool) : aluResult opcode a b carry = op.taken a b carry := by
  have hcarry : (BitVec.ofBool carry).setWidth 32 = if carry then 1 else 0 := by
    cases carry <;> decide
  unfold AluOp.ofBits at h
  split at h <;> cases h
  case h_3 => exact (addWithCarry_not a b).symm
  case h_4 => exact ((addWithCarry_comm _ _ _).trans (addWithCarry_not b a)).symm
  case h_5 => exact (addWithCarry_false a b).symm
  case h_6 =>
    show a + b + _ = addWithCarry a b carry
    rw [← hcarry]
    exact rfl
  case h_7 =>
    show a - b + _ = addWithCarry a (~~~b) carry + 1
    rw [← hcarry]
    exact (addWithCarry_not_add_one a b carry).symm
  case h_8 =>
    show b - a + _ = addWithCarry (~~~a) b carry + 1
    rw [← hcarry, addWithCarry_comm]
    exact (addWithCarry_not_add_one b a carry).symm
  all_goals exact rfl

theorem aluResult_of_none {opcode : ℕ} (h : AluOp.ofBits opcode = none) (a b : Word)
    (carry : Bool) :
    aluResult opcode a b carry = 0 := by
  unfold aluResult
  split <;> first | exact rfl | cases h

/-! ### The cases of the switch -/

/-- The address of a branch. -/
def Task.branchTarget (task : Task) (imm24 : BitVec 24) : Word :=
  task.pc + imm24.signExtend 32 <<< 2 + 8

/-- How an instruction leaves the switch. -/
def Task.takes (task : Task) : Insn → Option Exit
  | .plain => some (.finish [])
  | .status | .jazelle _ => some (.finish [0])
  | .divide rd rm rn =>
    (task.word (task.uregs rd - task.uregs rn <<< ((task.uregs rm).toNat % 256))).map
      fun next => .finish [next]
  | .branch imm24 => some (.finish [task.branchTarget imm24])
  | .branchThumb h imm24 =>
    some (.finish [task.branchTarget imm24 ||| (h ++ 0#1).setWidth 32 ||| 1])
  | .exchange rm => some (.done [task.operandReg rm])
  | .alu op rn operand2 =>
    some (.finish [op.taken (task.operandReg rn) (task.operand operand2.taken) task.carry])
  | .load pre up rn offset =>
    (task.word (task.loadAddress pre up rn offset.taken)).map fun next => .finish [next]
  | .loadMultiple pre up rn registers =>
    (task.word (task.blockStart pre up rn registers +
      BitVec.ofNat 32 (4 * bitCount registers 15))).map fun next => .finish [next]

theorem takes_loadMultiple (task : Task) (pre up : Bool) (rn registers : ℕ) :
    task.takes (.loadMultiple pre up rn registers) =
      (task.word (task.blockStart pre up rn registers +
        BitVec.ofNat 32 (4 * bitCount registers 15))).map fun next => .finish [next] := rfl

theorem armGetRegisterOffpc_eq (task : Task) (reg : ℕ) :
    armGetRegisterOffpc task reg = task.operandReg reg := by
  unfold armGetRegisterOffpc Task.operandReg
  split
  · subst reg
    exact rfl
  · exact rfl

theorem armGetShiftedRegister_eq (task : Task) {w : Word} (h : bit w 4 ≠ 1) :
    armGetShiftedRegister task w task.carry task.pc =
      task.operand (Operand.taken (.shifted (bits w 0 3) (bits w 5 6) (bits w 7 11))) := by
  have hvalue : (if bits w 0 3 = 15 then task.pc + (if bit w 4 = 1 then 12 else 8)
      else armGetRegister task (bits w 0 3)) = task.operandReg (bits w 0 3) := by
    rw [if_neg h]
    exact rfl
  unfold armGetShiftedRegister
  simp only [if_neg h] at hvalue ⊢
  rw [hvalue, operand_taken]
  exact shiftRegister_eq (bits_lt w 5 6) (bits_lt w 7 11) _ _

theorem armGetShiftedRegister_register (task : Task) {w : Word} (hregister : bit w 4 = 1)
    (htype : bits w 5 6 = 0) (hm : bits w 0 3 ≠ 15) (hs : bits w 8 11 ≠ 15) :
    armGetShiftedRegister task w task.carry task.pc =
      task.uregs (bits w 0 3) <<< ((task.uregs (bits w 8 11)).toNat % 256) := by
  unfold armGetShiftedRegister armGetRegisterOffpc
  simp only [if_pos hregister, htype, if_neg hm, if_neg hs, shiftRegister_lsl]
  exact rfl

theorem operand2_imm (task : Task) {w : Word} (h : bit w 25 = 1) (c : Bool) (pc : Word) :
    operand2 task w c pc = (BitVec.ofNat 32 (bits w 0 7)).rotateRight (2 * bits w 8 11) := by
  have hrotate : 2 * bits w 8 11 < 32 := by
    have := bits_lt w 8 11
    omega
  unfold operand2
  rw [if_pos h, BitVec.rotateRight_def, Nat.mod_eq_of_lt hrotate]

theorem operation_takes (task : Task) {w : Word} {op : AluOp} {insn : Insn}
    (hop : AluOp.ofBits (bits w 21 24) = some op) (h : Decode.operation w op = some insn) :
    some (Exit.finish [aluResult (bits w 21 24) (task.operandReg (bits w 16 19))
      (operand2 task w task.carry task.pc) task.carry]) = task.takes insn := by
  rw [aluResult_of_ofBits hop]
  unfold Decode.operation at h
  split_ifs at h with himm hregister
  · cases h
    rw [operand2_imm task himm]
    exact rfl
  · cases h
    unfold operand2
    rw [if_neg himm, armGetShiftedRegister_eq task hregister]
    exact rfl

/-- `BX` and `BLX` are told by their fields, and what else is left over is taken for a
comparison. -/
theorem miscellaneous_takes (task : Task) {w : Word} {insn : Insn}
    (h : Decode.miscellaneous w = some insn) :
    some (if bits w 4 27 = 0x12fff1 ∨ bits w 4 27 = 0x12fff3 then
      Exit.done [task.operandReg (bits w 0 3)] else .finish [0]) = task.takes insn := by
  unfold Decode.miscellaneous at h
  split_ifs at h with hbx hbxj hblx hmsr hhint
  · cases h
    rw [if_pos (Or.inl hbx)]
    exact rfl
  · cases h
    rw [if_neg (by omega)]
    exact rfl
  · cases h
    rw [if_pos (Or.inr hblx.1)]
    exact rfl
  · cases h
    have hfields := hmsr.2.1
    rw [if_neg (by simp only [bits] at hfields ⊢; omega)]
    exact rfl
  · cases h
    rw [if_neg (by simp only [bits] at hhint ⊢; omega)]
    exact rfl

theorem dataProcessing_takes (task : Task) {w : Word} {insn : Insn}
    (h : Decode.dataProcessing w = some insn) :
    some (dataProcessing task w task.carry task.pc) = task.takes insn := by
  unfold Decode.dataProcessing at h
  unfold dataProcessing
  by_cases hexception : bits w 23 27 = 2 ∧ bit w 20 = 0 ∧ bits w 4 7 = 7
  · rw [if_pos hexception] at h
    cases h
  rw [if_neg hexception] at h
  by_cases hpc : Decode.isPc w 12
  case neg =>
    rw [if_pos hpc] at h
    cases h
    have hpc' : bits w 12 15 ≠ 15 := hpc
    rw [if_pos hpc']
    exact rfl
  have hpc' : ¬ bits w 12 15 ≠ 15 := not_not_intro hpc
  rw [if_neg (not_not_intro hpc)] at h
  by_cases hmultiply : bit w 25 = 0 ∧ bit w 4 = 1 ∧ bit w 7 = 1
  · rw [if_pos hmultiply] at h
    cases h
  have hmultiply' : ¬ (bits w 22 25 = 0 ∧ bits w 4 7 = 9) := by
    rintro ⟨hhigh, hlow⟩
    apply hmultiply
    simp only [bit, bits] at hhigh hlow ⊢
    omega
  rw [if_neg hmultiply] at h
  rw [if_neg hpc', if_neg hmultiply', armGetRegisterOffpc_eq, armGetRegisterOffpc_eq]
  by_cases hflags : bit w 20 = 1
  · rw [if_pos hflags] at h
    cases h
  rw [if_neg hflags] at h
  cases hop : AluOp.ofBits (bits w 21 24) with
  | some op =>
    have hexchange : ¬ (bits w 4 27 = 0x12fff1 ∨ bits w 4 27 = 0x12fff3) := by
      rintro (hfields | hfields)
      · rw [opcode_of_fields hfields] at hop
        cases hop
      · rw [opcode_of_fields hfields] at hop
        cases hop
    rw [hop] at h
    rw [if_neg hexchange]
    exact operation_takes task hop h
  | none =>
    rw [hop] at h
    rw [aluResult_of_none hop]
    exact miscellaneous_takes task h

theorem loadAddress_eq (task : Task) (pre up rn : ℕ) (offset : Operand) :
    task.loadAddress (pre = 1) (up = 1) rn offset =
      if pre = 1 then
        if up = 1 then task.operandReg rn + task.operand offset
        else task.operandReg rn - task.operand offset
      else task.operandReg rn := by
  simp [Task.loadAddress]

/-- A load from the address that the code computes. -/
theorem dataTransfer_load (task : Task) {w offset : Word} (hbyte : bit w 22 ≠ 1)
    (hload : ¬ (bit w 20 = 0 ∨ bits w 12 15 ≠ 15))
    (hoffset : (if bit w 25 = 1 then armGetShiftedRegister task w task.carry task.pc
      else BitVec.ofNat 32 (bits w 0 11)) = offset) :
    dataTransfer task w task.carry task.pc =
      (task.word (if bit w 24 = 1 then
          if bit w 23 = 1 then task.operandReg (bits w 16 19) + offset
          else task.operandReg (bits w 16 19) - offset
        else task.operandReg (bits w 16 19))).map fun next => .finish [next] := by
  unfold dataTransfer
  rw [if_neg hload, if_neg hbyte, armGetRegisterOffpc_eq, hoffset]
  exact Option.map_eq_bind.symm

theorem dataTransfer_takes (task : Task) {w : Word} {insn : Insn}
    (hregister : bit w 25 = 1 → bit w 4 ≠ 1) (h : Decode.loadStore w = some insn) :
    dataTransfer task w task.carry task.pc = task.takes insn := by
  unfold Decode.loadStore at h
  by_cases hpc : bit w 20 = 0 ∨ ¬ Decode.isPc w 12
  · have hpc' : bit w 20 = 0 ∨ bits w 12 15 ≠ 15 := hpc
    rw [if_pos hpc] at h
    cases h
    unfold dataTransfer
    rw [if_pos hpc']
    exact rfl
  have hpc' : ¬ (bit w 20 = 0 ∨ bits w 12 15 ≠ 15) := hpc
  rw [if_neg hpc] at h
  split_ifs at h with hbyte hbase hoffset
  · cases h
    have hshifted := armGetShiftedRegister_eq task (hregister hoffset)
    rw [dataTransfer_load task (by omega) hpc' ((if_pos hoffset).trans hshifted), ← loadAddress_eq]
    exact rfl
  · cases h
    have hconstant : BitVec.ofNat 32 (bits w 0 11) =
        task.operand (Operand.taken (.imm (.ofNat 32 (bits w 0 11)))) := rfl
    rw [dataTransfer_load task (by omega) hpc' ((if_neg hoffset).trans hconstant), ← loadAddress_eq]
    exact rfl

/-- A division is taken for a load with a register that is shifted by a register. -/
theorem media_takes (task : Task) {w : Word} {insn : Insn} (hregister : bit w 4 = 1)
    (h : Decode.media w = some insn) :
    dataTransfer task w task.carry task.pc = task.takes insn := by
  unfold Decode.media at h
  by_cases hundefined : bits w 20 27 = 0x7f ∧ bits w 4 7 = 15
  · rw [if_pos hundefined] at h
    cases h
  rw [if_neg hundefined] at h
  by_cases hpc : Decode.isPc w 12
  case neg =>
    have hpc' : bits w 12 15 ≠ 15 := hpc
    rw [if_pos hpc] at h
    cases h
    unfold dataTransfer
    rw [if_pos (Or.inr hpc')]
    exact rfl
  have hpc' : bits w 12 15 = 15 := hpc
  rw [if_neg (not_not_intro hpc)] at h
  split_ifs at h with hdivide hregisters hplain
  · cases h
    obtain ⟨hop, htype⟩ := hdivide
    have hm : bits w 0 3 ≠ 15 := fun heq => hregisters (Or.inr (Or.inr heq))
    have hs : bits w 8 11 ≠ 15 := fun heq => hregisters (Or.inr (Or.inl heq))
    have hd : bits w 16 19 ≠ 15 := fun heq => hregisters (Or.inl heq)
    have hfields : bit w 20 = 1 ∧ bit w 22 = 0 ∧ bit w 23 = 0 ∧ bit w 24 = 1 ∧ bit w 25 = 1 := by
      simp only [bit, bits] at hop ⊢
      omega
    obtain ⟨hload, hbyte, hup, hpre, hshifted⟩ := hfields
    have htype' : bits w 5 6 = 0 := by
      simp only [bits] at htype ⊢
      omega
    have hoffset := armGetShiftedRegister_register task hregister htype' hm hs
    rw [dataTransfer_load task (by omega) (by omega) ((if_pos hshifted).trans hoffset), if_pos hpre,
      if_neg (by omega)]
    unfold Task.takes Task.operandReg
    rw [if_neg hd]
  · cases h
    unfold dataTransfer
    split
    · exact rfl
    · rename_i hload
      have hbyte : bit w 22 = 1 := by
        simp only [bit, bits] at hplain hload hpc' ⊢
        omega
      rw [if_pos hbyte]
      exact rfl

theorem bitCount_succ (registers n : ℕ) :
    bitCount registers (n + 1) = bitCount registers n + if registers.testBit n then 1 else 0 := by
  unfold bitCount
  rw [List.range_succ, List.countP_append, List.countP_singleton]

theorem bitCount_of_le {registers n k : ℕ} (h : registers < 2 ^ n) (hle : n ≤ k) :
    bitCount registers k = bitCount registers n := by
  induction k, hle using Nat.le_induction with
  | base => exact rfl
  | succ k hle ih =>
    have hpow : 2 ^ n ≤ 2 ^ k := Nat.pow_le_pow_right (by decide) hle
    rw [bitCount_succ, ih, Nat.testBit_lt_two_pow (by omega)]
    simp

/-- The fifteen registers below the program counter. -/
theorem bitCount_low (w : Word) : bitCount (bits w 0 14) 32 = bitCount (bits w 0 15) 15 := by
  rw [bitCount_of_le (bits_lt w 0 14) (by decide)]
  have hmod : bits w 0 14 = bits w 0 15 % 2 ^ 15 := by
    simp only [bits]
    omega
  apply List.countP_congr
  intro i hi
  rw [hmod, Nat.testBit_mod_two_pow]
  simp [List.mem_range.mp hi]

theorem bitCount_all {w : Word} (h : bit w 15 = 1) :
    bitCount (bits w 0 15) 16 = bitCount (bits w 0 15) 15 + 1 := by
  have htop : (bits w 0 15).testBit 15 = true := by
    rw [Nat.testBit_eq_decide_div_mod_eq, decide_eq_true_eq]
    simp only [bit, bits] at h ⊢
    omega
  rw [bitCount_succ, if_pos htop]

/-- The word for the program counter is the last one of the transfer. -/
theorem blockTransfer_address (task : Task) {w : Word} (hlist : bit w 15 = 1)
    (hrn : bits w 16 19 ≠ 15) :
    task.blockStart (bit w 24 = 1) (bit w 23 = 1) (bits w 16 19) (bits w 0 15) +
        BitVec.ofNat 32 (4 * bitCount (bits w 0 15) 15) =
      armGetRegister task (bits w 16 19) +
        (if bit w 23 = 1 then
          BitVec.ofNat 32 (bitCount (bits w 0 14) 32 * 4) + (if bit w 24 = 1 then 4 else 0)
        else if bit w 24 = 1 then -4 else 0) := by
  have hbase : task.operandReg (bits w 16 19) = task.uregs (bits w 16 19) := if_neg hrn
  unfold Task.blockStart armGetRegister
  rw [bitCount_low, bitCount_all hlist, hbase]
  generalize bitCount (bits w 0 15) 15 = count
  by_cases hpre : bit w 24 = 1 <;> by_cases hup : bit w 23 = 1
  all_goals
    simp only [hpre, hup, decide_true, decide_false, if_true, if_false]
    bv_omega

theorem blockTransfer_takes (task : Task) {w : Word} {insn : Insn}
    (h : Decode.blockTransfer w = some insn) : blockTransfer task w = task.takes insn := by
  unfold Decode.blockTransfer at h
  unfold blockTransfer
  split_ifs at h with hplain hreturn
  · cases h
    by_cases hstore : bit w 20 = 0
    · rw [if_pos hstore]
      exact rfl
    · rw [if_neg hstore, if_neg (by omega)]
      exact rfl
  · cases h
    have hlist : bit w 15 = 1 := by
      simp only [bit, bits] at hplain ⊢
      omega
    have hrn : bits w 16 19 ≠ 15 := fun heq => hreturn (Or.inr (Or.inl heq))
    have haddress := blockTransfer_address task hlist hrn
    rw [if_neg (by omega), if_pos hlist]
    rw [takes_loadMultiple, haddress]
    exact Option.map_eq_bind.symm

theorem armBranchDest_eq (task : Task) (w : Word) :
    armBranchDest task.pc w = task.branchTarget (w.extractLsb' 0 24) := by
  have hfield : w &&& 0xffffff = (w.extractLsb' 0 24).setWidth 32 := by
    apply BitVec.eq_of_toNat_eq
    rw [BitVec.toNat_and, BitVec.toNat_setWidth, BitVec.extractLsb'_toNat]
    have hmask : (0xffffff : Word).toNat = 2 ^ 24 - 1 := by decide
    rw [hmask, Nat.and_two_pow_sub_one_eq_mod, Nat.shiftRight_zero]
    omega
  unfold armBranchDest Task.branchTarget
  rw [hfield, signExtend_eq (w.extractLsb' 0 24) (by decide)]
  exact rfl

/-- The bit that makes the address of `BLX` one of a Thumb instruction in the second half of a
word. -/
theorem halfword_eq (w : Word) :
    ((w >>> 24) &&& 1) <<< 1 = (w.extractLsb' 24 1 ++ 0#1).setWidth 32 := by
  apply BitVec.eq_of_toNat_eq
  rw [BitVec.toNat_setWidth, BitVec.toNat_append, BitVec.extractLsb'_toNat, BitVec.toNat_shiftLeft,
    BitVec.toNat_and, BitVec.toNat_ushiftRight]
  have hone : (1 : Word).toNat = 2 ^ 1 - 1 := by decide
  rw [hone, Nat.and_two_pow_sub_one_eq_mod]
  simp

theorem unconditional_takes (task : Task) {w : Word} {insn : Insn}
    (h : Decode.unconditional w = some insn) :
    some (unconditional w task.pc) = task.takes insn := by
  unfold Decode.unconditional at h
  unfold unconditional
  split_ifs at h with hreturn hbranch hundefined
  · cases h
    have hop : bits w 24 27 = 10 ∨ bits w 24 27 = 11 := by
      simp only [bits] at hbranch ⊢
      omega
    rw [if_pos hop, armBranchDest_eq, halfword_eq]
    exact rfl
  · cases h
    have hop : ¬ (bits w 24 27 = 10 ∨ bits w 24 27 = 11) := by
      simp only [bits] at hbranch ⊢
      omega
    rw [if_neg hop]
    exact rfl

theorem executed_takes (task : Task) {w : Word} {insn : Insn} (hcond : bits w 28 31 ≠ 15)
    (h : decode w = some insn) : executed task w task.pc = task.takes insn := by
  have hop := opcode_eq w
  have hbit : bit w 24 < 2 := bits_lt w 24 24
  have hbits := bits_lt w 25 27
  have hregister : bits w 25 27 % 2 = bit w 25 := by
    simp only [bit, bits]
    omega
  unfold decode at h
  rw [if_neg hcond] at h
  unfold executed
  generalize bit w 24 = low at hop hbit
  have hlow : low = 0 ∨ low = 1 := by omega
  generalize hhigh : bits w 25 27 = high at h hop hregister hbits
  have hcases : high = 0 ∨ high = 1 ∨ high = 2 ∨ high = 3 ∨ high = 4 ∨ high = 5 ∨ high = 6 ∨
      high = 7 := by omega
  rcases hcases with rfl | rfl | rfl | rfl | rfl | rfl | rfl | rfl
  · rcases hlow with rfl | rfl <;> rw [hop] <;> exact dataProcessing_takes task h
  · rcases hlow with rfl | rfl <;> rw [hop] <;> exact dataProcessing_takes task h
  · have htransfer := dataTransfer_takes task (fun hone => absurd hone (by omega)) h
    rcases hlow with rfl | rfl <;> rw [hop] <;> exact htransfer
  · have htransfer : dataTransfer task w task.carry task.pc = task.takes insn := by
      simp only at h
      split_ifs at h with hmedia
      · exact media_takes task hmedia h
      · exact dataTransfer_takes task (fun _ => hmedia) h
    rcases hlow with rfl | rfl <;> rw [hop] <;> exact htransfer
  · rcases hlow with rfl | rfl <;> rw [hop] <;> exact blockTransfer_takes task h
  · cases h
    have hbranch := congrArg (fun next => some (Exit.finish [next])) (armBranchDest_eq task w)
    rcases hlow with rfl | rfl <;> rw [hop] <;> exact hbranch
  · cases h
    rcases hlow with rfl | rfl <;> rw [hop] <;> exact rfl
  · cases h
    rcases hlow with rfl | rfl <;> rw [hop] <;> exact rfl

/-- What `arm_get_next_pcs` does with an instruction. -/
theorem armGetNextPcs_takes {task : Task} {w : Word} {insn : Insn}
    (hw : task.word task.pc = some w) (h : decode w = some insn) :
    armGetNextPcs task task.pc =
      (task.takes insn).map (Exit.nextPcs task.pc (bits w 28 31)) := by
  unfold armGetNextPcs
  rw [hw, Option.map_eq_bind]
  change ((if bits w 28 31 = 15 then some (unconditional w task.pc)
    else executed task w task.pc).bind _) = _
  by_cases hcond : bits w 28 31 = 15
  · have hdecode : Decode.unconditional w = some insn := by
      unfold decode at h
      rwa [if_pos hcond] at h
    rw [if_pos hcond, unconditional_takes task hdecode]
    exact rfl
  · rw [if_neg hcond, executed_takes task hcond h]
    exact rfl

end Mtrace.Arm
