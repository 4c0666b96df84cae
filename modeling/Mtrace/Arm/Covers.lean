import Mtrace.Arm.Taken

/-! # When the next instruction gets a breakpoint

`Task.Meets` says of an instruction what the place where the program goes on must satisfy for it to
be one of the addresses of `arm_get_next_pcs`, and `arm_next_pcs_cover_iff` that this is exact.

An address that is missed lets the program run away.  It happens for a `BX` or `BLX` that is not
executed, for a move to the status register, a hint or a `BXJ` without a condition, for `SBC` and
`RSC`, for a shift to the right by 32 that matters, for `SDIV` and `UDIV`, and for a load that is
not executed and has an address that cannot be read. -/

namespace Mtrace.Arm

open Shifts

/-- The program goes on at the following word, which `arm_get_next_pcs` adds where the instruction
has a condition. -/
def Task.FallsThrough (task : Task) (w n : Word) : Prop := bits w 28 31 ≠ 14 ∧ n = task.pc + 4

/-- A shift to the right by 32, which is encoded as one by 0. -/
def Operand.By32 : Operand → Prop
  | .imm _ => False
  | .shifted _ type imm5 => imm5 = 0 ∧ (type = 1 ∨ type = 2)

/-- An operand without its shift. -/
def Operand.unshifted : Operand → Operand
  | .imm value => .imm value
  | .shifted rm _ _ => .shifted rm 0 0

/-- The differences that take a borrow away. -/
def AluOp.Borrows (op : AluOp) : Prop := op = .sbc ∨ op = .rsc

instance (op : AluOp) : Decidable op.Borrows := by unfold AluOp.Borrows; infer_instance

/-- What must hold for the place `n` where the program goes on after the instruction. -/
def Task.Meets (task : Task) (w n : Word) : Insn → Prop
  | .plain | .branch _ | .branchThumb _ _ => True
  | .exchange rm => task.passes w ∨ task.operandReg rm = task.pc + 4
  | .status | .jazelle _ => n = 0 ∨ task.FallsThrough w n
  | .divide rd rm rn =>
    ∃ v, task.word (task.uregs rd - task.uregs rn <<< ((task.uregs rm).toNat % 256)) = some v ∧
      (n = v ∨ task.FallsThrough w n)
  | .alu op rn operand2 =>
    -- A shift that is left out may make up for a borrow that is.
    task.FallsThrough w n ∨
      (operand2.By32 → n = op.result (task.operandReg rn)
        (task.operand operand2.unshifted) task.carry +
        if op.Borrows then 1 else 0) ∧
      (¬ operand2.By32 → ¬ op.Borrows)
  | .load pre up rn offset =>
    (offset.By32 → ∃ v, task.word (task.loadAddress pre up rn offset.unshifted) = some v ∧
      (n = v ∨ task.FallsThrough w n)) ∧
    (¬ offset.By32 → task.passes w ∨ (task.word (task.loadAddress pre up rn offset)).isSome)
  | .loadMultiple pre up rn registers =>
    task.passes w ∨ (task.word (task.blockStart pre up rn registers +
      BitVec.ofNat 32 (4 * bitCount registers 15))).isSome

/-- `arm_get_next_pcs` returns a set with the address in it. -/
def Task.Covers (task : Task) (n : Word) : Prop :=
  ∃ nextPcs, armGetNextPcs task task.pc = some nextPcs ∧ n ∈ nextPcs

/-! ### Addresses -/

theorem exchangeTo_eq {a n : Word} (h : exchangeTo a = some n) : n = a := by
  unfold exchangeTo at h
  split_ifs at h with hthumb hodd
  · cases h
    ext i hi
    by_cases hzero : i = 0
    · subst hzero
      simpa using hthumb
    · have hone : (1#32)[i] = false := by
        rw [BitVec.getElem_one, decide_eq_false hzero]
      change (a &&& ~~~1#32 ||| 1#32)[i] = a[i]
      rw [BitVec.getElem_or, BitVec.getElem_and, BitVec.getElem_not, hone, Bool.not_false,
        Bool.and_true, Bool.or_false]
  · exact (Option.some.inj h).symm

theorem loadPc_eq {task : Task} {address n : Word} (h : task.loadPc address = some n) :
    task.word address = some n := by
  unfold Task.loadPc at h
  split at h
  · obtain ⟨v, hv, hn⟩ := Option.bind_eq_some_iff.mp h
    rw [hv, exchangeTo_eq hn]
  · cases h

/-- A sum of multiples of four. -/
theorem aligned_add {a : Word} (h : a.toNat % 4 = 0) (x : Word) :
    (a + x <<< 2 + 8).toNat % 4 = 0 := by
  have hshift : (x <<< 2).toNat % 4 = 0 := by
    rw [BitVec.toNat_shiftLeft, Nat.shiftLeft_eq]
    omega
  bv_omega

theorem pc_add_comm (pc x : Word) : pc + 8 + x = pc + x + 8 := by
  rw [BitVec.add_assoc, BitVec.add_comm 8, ← BitVec.add_assoc]

theorem branchTarget_aligned {task : Task} (h : task.pc.toNat % 4 = 0) (imm24 : BitVec 24) :
    (task.branchTarget imm24).toNat % 2 ^ 2 = 0 :=
  aligned_add h _

theorem and_not_three {a : Word} (h : a.toNat % 2 ^ 2 = 0) : a &&& ~~~3 = a := by
  have hmask := and_not_of_dvd h
  exact hmask

theorem branchTarget_eq {task : Task} (h : task.pc.toNat % 4 = 0) (imm24 : BitVec 24) :
    (task.pc + 8 + (imm24 ++ 0#2).signExtend 32) &&& ~~~3 = task.branchTarget imm24 := by
  have hsum : task.pc + 8 + (imm24 ++ 0#2).signExtend 32 = task.branchTarget imm24 := by
    unfold Task.branchTarget
    rw [signExtend_append, pc_add_comm]
    simp
  rw [hsum]
  exact and_not_three (branchTarget_aligned h imm24)

theorem branchThumb_eq {task : Task} (h : task.pc.toNat % 4 = 0) (half : BitVec 1)
    (imm24 : BitVec 24) :
    ((task.pc + 8) &&& ~~~3) + (imm24 ++ (half ++ 0#1)).signExtend 32 ||| 1 =
      task.branchTarget imm24 ||| (half ++ 0#1).setWidth 32 ||| 1 := by
  have hhalf : ((half ++ 0#1).setWidth 32).toNat < 2 ^ 2 := by
    have := (half ++ 0#1).isLt
    rw [BitVec.toNat_setWidth]
    omega
  have hpc : (task.pc + 8).toNat % 2 ^ 2 = 0 := by
    bv_omega
  have hfield : (imm24.signExtend 32 <<< 2).toNat % 2 ^ 2 = 0 := by
    rw [BitVec.toNat_shiftLeft, Nat.shiftLeft_eq]
    omega
  have halign : (task.pc + 8) &&& ~~~3 = task.pc + 8 := and_not_three hpc
  rw [halign, signExtend_append, or_eq_add hfield hhalf,
    or_eq_add (branchTarget_aligned h imm24) hhalf,
    ← BitVec.add_assoc, pc_add_comm]
  exact rfl

theorem loadRegisters_eq {task : Task} {registers n : ℕ} {a a' : Word}
    (h : task.loadRegisters registers n a = some a') :
    a' = a + BitVec.ofNat 32 (4 * bitCount registers n) := by
  induction n generalizing a' with
  | zero =>
    cases h
    exact (BitVec.add_zero a).symm
  | succ n ih =>
    obtain ⟨b, hb, h⟩ := Option.bind_eq_some_iff.mp h
    rw [bitCount_succ]
    split at h
    · rename_i hbit
      obtain ⟨v, -, h⟩ := Option.bind_eq_some_iff.mp h
      cases h
      rw [ih hb, if_pos hbit]
      bv_omega
    · rename_i hbit
      cases h
      rw [ih hb, if_neg hbit]
      exact rfl

theorem loadBlock_eq {task : Task} {registers : ℕ} {start n : Word}
    (h : task.loadBlock registers start = some n) :
    task.word (start + BitVec.ofNat 32 (4 * bitCount registers 15)) = some n := by
  unfold Task.loadBlock at h
  split at h
  · obtain ⟨address, haddress, hload⟩ := Option.bind_eq_some_iff.mp h
    rw [← loadRegisters_eq haddress]
    exact loadPc_eq hload
  · cases h

/-! ### Instructions -/

theorem passes_of_always {task : Task} {w : Word} (h : bits w 28 31 = 14) :
    task.passes w = true := by
  unfold Task.passes
  rw [h]
  exact rfl

/-- What the next address is told by. -/
structure Task.Goes (task : Task) (w : Word) (insn : Insn) (n : Word) : Prop where
  aligned : task.pc.toNat % 4 = 0
  word : task.word task.pc = some w
  decoded : decode w = some insn
  executed : task.passes w → task.exec insn = some n
  skipped : ¬ task.passes w → n = task.pc + 4

theorem goes_of_next {task : Task} {n : Word} (h : task.next = some n) :
    ∃ w insn, task.Goes w insn n := by
  unfold Task.next at h
  split at h
  · rename_i haligned
    obtain ⟨w, hw, h⟩ := Option.bind_eq_some_iff.mp h
    obtain ⟨insn, hdecode, h⟩ := Option.bind_eq_some_iff.mp h
    refine ⟨w, insn, haligned, hw, hdecode, fun hpass => ?_, fun hskip => ?_⟩
    · rwa [if_pos hpass] at h
    · rw [if_neg hskip] at h
      exact (Option.some.inj h).symm
  · cases h

theorem Task.Goes.fallsThrough {task : Task} {w n : Word} {insn : Insn} (h : task.Goes w insn n)
    (hskip : ¬ task.passes w) : task.FallsThrough w n :=
  ⟨fun halways => hskip (passes_of_always halways), h.skipped hskip⟩

theorem mem_nextPcs_finish {pc v n : Word} {cond : ℕ} :
    n ∈ (Exit.finish [v]).nextPcs pc cond ↔ n = v ∨ cond ≠ 14 ∧ n = pc + 4 := by
  rw [nextPcs_finish]
  by_cases hcond : cond = 14
  · simp [hcond]
  · simp [hcond]

/-- The addresses are those of the exit from the switch. -/
theorem Task.Goes.covers_iff {task : Task} {w n : Word} {insn : Insn} (h : task.Goes w insn n) :
    task.Covers n ↔
      ∃ exit, task.takes insn = some exit ∧ n ∈ exit.nextPcs task.pc (bits w 28 31) := by
  unfold Task.Covers
  rw [armGetNextPcs_takes h.word h.decoded]
  constructor
  · rintro ⟨nextPcs, htakes, hmem⟩
    obtain ⟨exit, hexit, rfl⟩ := Option.map_eq_some_iff.mp htakes
    exact ⟨exit, hexit, hmem⟩
  · rintro ⟨exit, hexit, hmem⟩
    exact ⟨_, Option.map_eq_some_iff.mpr ⟨exit, hexit, rfl⟩, hmem⟩

/-- An instruction that leaves the switch with one address. -/
theorem Task.Goes.covers_of_finish {task : Task} {w n v : Word} {insn : Insn}
    (h : task.Goes w insn n) (htakes : task.takes insn = some (.finish [v])) :
    task.Covers n ↔ n = v ∨ task.FallsThrough w n := by
  rw [h.covers_iff, htakes]
  constructor
  · rintro ⟨exit, hexit, hmem⟩
    cases hexit
    exact mem_nextPcs_finish.mp hmem
  · intro hmem
    exact ⟨_, rfl, mem_nextPcs_finish.mpr hmem⟩

/-- An instruction that leaves it with the word at an address. -/
theorem Task.Goes.covers_of_load {task : Task} {w n address : Word} {insn : Insn}
    (h : task.Goes w insn n)
    (htakes : task.takes insn = (task.word address).map fun next => .finish [next]) :
    task.Covers n ↔ ∃ v, task.word address = some v ∧ (n = v ∨ task.FallsThrough w n) := by
  cases hword : task.word address with
  | none =>
    rw [h.covers_iff, htakes, hword]
    simp
  | some v =>
    rw [h.covers_of_finish (v := v) (by rw [htakes, hword]; exact rfl)]
    simp

/-- A load that the code gets right is only missed where it is not executed and cannot be read. -/
theorem Task.Goes.load_iff {task : Task} {w n address : Word} {insn : Insn} (h : task.Goes w insn n)
    (hexec : task.passes w → task.word address = some n) :
    (∃ v, task.word address = some v ∧ (n = v ∨ task.FallsThrough w n)) ↔
      task.passes w ∨ (task.word address).isSome := by
  constructor
  · rintro ⟨v, hv, -⟩
    rw [hv]
    exact Or.inr rfl
  · rintro (hpass | hsome)
    · exact ⟨n, hexec hpass, Or.inl rfl⟩
    · obtain ⟨v, hv⟩ := Option.isSome_iff_exists.mp hsome
      by_cases hpass : task.passes w
      · exact ⟨n, hexec hpass, Or.inl rfl⟩
      · exact ⟨v, hv, Or.inr (h.fallsThrough hpass)⟩

theorem taken_of_by32 {operand : Operand} (h : operand.By32) :
    operand.taken = operand.unshifted := by
  cases operand with
  | imm value => exact rfl
  | shifted rm type imm5 => exact if_pos h

theorem taken_of_not_by32 {operand : Operand} (h : ¬ operand.By32) : operand.taken = operand := by
  cases operand with
  | imm value => exact rfl
  | shifted rm type imm5 => exact if_neg h

theorem op_taken (op : AluOp) (a b : Word) (carry : Bool) :
    op.taken a b carry = op.result a b carry + if op.Borrows then 1 else 0 := by
  by_cases hborrows : op.Borrows
  · rw [if_pos hborrows]
    rcases hborrows with rfl | rfl <;> exact rfl
  · rw [if_neg hborrows]
    cases op
    case sbc => exact absurd (Or.inl rfl) hborrows
    case rsc => exact absurd (Or.inr rfl) hborrows
    all_goals exact (BitVec.add_zero _).symm

theorem alu_iff {task : Task} {w n : Word} {op : AluOp} {rn : ℕ} {operand2 : Operand}
    (h : task.Goes w (.alu op rn operand2) n) :
    task.Covers n ↔ task.Meets w n (.alu op rn operand2) := by
  rw [h.covers_of_finish rfl, or_comm]
  by_cases hpass : task.passes w
  case neg => exact iff_of_true (Or.inl (h.fallsThrough hpass)) (Or.inl (h.fallsThrough hpass))
  have hn : n = op.result (task.operandReg rn) (task.operand operand2) task.carry :=
    exchangeTo_eq (h.executed hpass)
  apply or_congr_right
  rw [op_taken]
  by_cases h32 : operand2.By32
  · rw [taken_of_by32 h32]
    exact ⟨fun heq => ⟨fun _ => heq, fun hnot => absurd h32 hnot⟩, fun hmeets => hmeets.1 h32⟩
  · rw [taken_of_not_by32 h32, ← hn]
    constructor
    · intro heq
      refine ⟨fun hby => absurd hby h32, fun _ hborrows => ?_⟩
      rw [if_pos hborrows] at heq
      bv_omega
    · intro hmeets
      rw [if_neg (hmeets.2 h32)]
      exact (BitVec.add_zero n).symm

theorem load_iff {task : Task} {w n : Word} {pre up : Bool} {rn : ℕ} {offset : Operand}
    (h : task.Goes w (.load pre up rn offset) n) :
    task.Covers n ↔ task.Meets w n (.load pre up rn offset) := by
  rw [h.covers_of_load rfl]
  by_cases h32 : offset.By32
  · rw [taken_of_by32 h32]
    exact ⟨fun hload => ⟨fun _ => hload, fun hnot => absurd h32 hnot⟩, fun hmeets => hmeets.1 h32⟩
  · rw [taken_of_not_by32 h32, h.load_iff fun hpass => loadPc_eq (h.executed hpass)]
    exact ⟨fun hload => ⟨fun hby => absurd hby h32, fun _ => hload⟩, fun hmeets => hmeets.2 h32⟩

theorem loadMultiple_iff {task : Task} {w n : Word} {pre up : Bool} {rn registers : ℕ}
    (h : task.Goes w (.loadMultiple pre up rn registers) n) :
    task.Covers n ↔ task.Meets w n (.loadMultiple pre up rn registers) := by
  rw [h.covers_of_load (takes_loadMultiple task pre up rn registers)]
  apply h.load_iff
  intro hpass
  exact loadBlock_eq (h.executed hpass)

theorem exchange_iff {task : Task} {w n : Word} {rm : ℕ} (h : task.Goes w (.exchange rm) n) :
    task.Covers n ↔ task.Meets w n (.exchange rm) := by
  have hcovers : task.Covers n ↔ n = task.operandReg rm := by
    rw [h.covers_iff]
    constructor
    · rintro ⟨exit, hexit, hmem⟩
      cases hexit
      simpa using hmem
    · intro heq
      exact ⟨_, rfl, by simp [heq]⟩
  rw [hcovers]
  by_cases hpass : task.passes w
  · exact iff_of_true (exchangeTo_eq (h.executed hpass)) (Or.inl hpass)
  · rw [h.skipped hpass]
    exact ⟨fun heq => Or.inr heq.symm, fun hmeets => (hmeets.resolve_left hpass).symm⟩

/-- A branch goes to the address that the code computes. -/
theorem Task.Goes.covers_of_target {task : Task} {w n v : Word} {insn : Insn}
    (h : task.Goes w insn n) (htakes : task.takes insn = some (.finish [v]))
    (hexec : task.exec insn = some v) : task.Covers n := by
  rw [h.covers_of_finish htakes]
  by_cases hpass : task.passes w
  · have hn := h.executed hpass
    rw [hexec] at hn
    exact Or.inl (Option.some.inj hn).symm
  · exact Or.inr (h.fallsThrough hpass)

theorem plain_covers {task : Task} {w n : Word} (h : task.Goes w .plain n) : task.Covers n := by
  have hn : n = task.pc + 4 := by
    by_cases hpass : task.passes w
    · exact (Option.some.inj (h.executed hpass)).symm
    · exact h.skipped hpass
  rw [h.covers_iff]
  refine ⟨_, rfl, ?_⟩
  rw [nextPcs_finish, if_pos (Or.inl rfl)]
  simp [hn]

/-- The next instruction gets a breakpoint exactly if the instruction at the program counter meets
its condition. -/
theorem arm_next_pcs_cover_iff {task : Task} {n : Word} (h : task.next = some n) :
    task.Covers n ↔
      ∀ w insn, task.word task.pc = some w → decode w = some insn → task.Meets w n insn := by
  obtain ⟨w, insn, hgoes⟩ := goes_of_next h
  have hone : (∀ w insn, task.word task.pc = some w → decode w = some insn → task.Meets w n insn) ↔
      task.Meets w n insn := by
    constructor
    · intro hall
      exact hall w insn hgoes.word hgoes.decoded
    · intro hmeets w' insn' hword hdecode
      cases hgoes.word.symm.trans hword
      cases hgoes.decoded.symm.trans hdecode
      exact hmeets
  rw [hone]
  cases insn with
  | plain => exact iff_of_true (plain_covers hgoes) trivial
  | branch imm24 =>
    have hexec := congrArg some (branchTarget_eq hgoes.aligned imm24)
    exact iff_of_true (hgoes.covers_of_target rfl hexec) trivial
  | branchThumb half imm24 =>
    have hexec := congrArg some (branchThumb_eq hgoes.aligned half imm24)
    exact iff_of_true (hgoes.covers_of_target rfl hexec) trivial
  | status => exact hgoes.covers_of_finish rfl
  | jazelle rm => exact hgoes.covers_of_finish rfl
  | divide rd rm rn => exact hgoes.covers_of_load rfl
  | exchange rm => exact exchange_iff hgoes
  | alu op rn operand2 => exact alu_iff hgoes
  | load pre up rn offset => exact load_iff hgoes
  | loadMultiple pre up rn registers => exact loadMultiple_iff hgoes

instance (task : Task) (n : Word) : Decidable (task.Covers n) :=
  decidable_of_iff ((armGetNextPcs task task.pc).any (·.contains n) = true) (by
    simp [Task.Covers, Option.any_eq_true])

/-- A task that stands at a word, the only one it can read, with two registers, its last result zero
and no carry. -/
def taskAt (inst : Word) : Task where
  uregs r :=
    if r = 15 then 0x8000 else if r = 16 then 0x40000000
    else if r = 1 then 0x9000 else if r = 2 then 0x10 else 0
  mem addr :=
    if addr - 0x8000 < 4 then some ((inst >>> (8 * (addr - 0x8000).toNat)).setWidth 8) else none

/-- `b 0x8048` -/
theorem arm_next_pcs_branch :
    (taskAt 0xea000010).next = some 0x8048 ∧
    ((taskAt 0xea000010).Covers 0x8048 ↔
      ∀ w insn, (taskAt 0xea000010).word (taskAt 0xea000010).pc = some w → decode w = some insn →
        (taskAt 0xea000010).Meets w 0x8048 insn) :=
  ⟨by decide, arm_next_pcs_cover_iff (by decide)⟩

/-- The program goes on at a place without a breakpoint. -/
def Task.Misses (task : Task) (n : Word) : Prop := task.next = some n ∧ ¬ task.Covers n

instance (task : Task) (n : Word) : Decidable (task.Misses n) := by
  unfold Task.Misses
  infer_instance

/-- `nop`, `bxne lr`, `sbc pc, r1, r2`, `mov pc, r2, lsr #32`, `udiv r0, r1, r2` and
`ldrne pc, [r0]`. -/
theorem arm_next_pcs_miss :
    (taskAt 0xe320f000).Misses 0x8004 ∧ (taskAt 0x112fff1e).Misses 0x8004 ∧
      (taskAt 0xe0c1f002).Misses 0x8fef ∧ (taskAt 0xe1a0f022).Misses 0 ∧
      (taskAt 0xe730f211).Misses 0x8004 ∧ (taskAt 0x1590f000).Misses 0x8004 := by
  decide

end Mtrace.Arm
