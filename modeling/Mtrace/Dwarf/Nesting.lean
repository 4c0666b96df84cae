import Mtrace.Dwarf.CfiRows

/-!
# Nested states

Between a `DW_CFA_remember_state` and the `DW_CFA_restore_state` that belongs to it, instructions
may remember and restore states of their own.  The row that was remembered comes back. -/

namespace Mtrace.Dwarf

/-- Sequences of instructions in which every remembered state is restored. -/
inductive Balanced : List CfaOp → Prop where
  | nil : Balanced []
  | cons {op : CfaOp} {ops : List CfaOp} (hsave : op ≠ .rememberState) (hload : op ≠ .restoreState)
      (h : Balanced ops) : Balanced (op :: ops)
  | nest {ops ops' : List CfaOp} (h : Balanced ops) (h' : Balanced ops') :
      Balanced (.rememberState :: (ops ++ .restoreState :: ops'))

/-- The variables in front of the loop of `run_cfi_program`. -/
def rowStart (dci : CieInfo) (rs : RegState) (addr : UInt64) (regStack : ℕ → DwarfReg) : RowState :=
  ⟨addr, dci.startIp, rs, regStack, 0, []⟩

namespace Space

variable (s : Space)

/-- The instruction at a position. -/
def opAt (addr : UInt64) : CfaOp := .decode (s.word addr 1).toUInt8

/-- The loop executes instructions, one in each pass. -/
inductive RunsThrough (gp : UInt64) (dci : CieInfo) (initial : RegState) (ip endAddr : UInt64) :
    List CfaOp → RowState → RowState → Prop where
  | nil (st : RowState) : RunsThrough gp dci initial ip endAddr [] st st
  | cons {op : CfaOp} {ops : List CfaOp} {st st' st'' : RowState} (hop : s.opAt st.addr = op)
      (hstep : s.rowStep gp dci initial ip endAddr st = .inl st')
      (h : RunsThrough gp dci initial ip endAddr ops st' st'') :
      RunsThrough gp dci initial ip endAddr (op :: ops) st st''

/-- The loop comes to these variables. -/
def RowReaches (gp : UInt64) (dci : CieInfo) (initial rs : RegState) (ip endAddr addr : UInt64)
    (regStack : ℕ → DwarfReg) (st : RowState) : Prop :=
  Orbit.Reaches (s.rowStep gp dci initial ip endAddr) (rowStart dci rs addr regStack) st

end Space

/-! ## The saved rows -/

/-- What holds of the value of a reader, if it has one. -/
def Returns {α : Type} (P : α → Prop) (read : Reader α) : Prop :=
  ∀ addr a addr', read addr = .ok a addr' → P a

section Returns

variable {α β : Type} {P : β → Prop} {s : Space} {r r' : CfiState}

theorem returns_pure {b : β} (h : P b) : Returns P (pure b) := by
  intro addr b' addr' heq
  obtain ⟨rfl, -⟩ := pure_eq_ok.mp heq
  exact h

theorem returns_bind {read : Reader α} {f : α → Reader β} (hf : ∀ a, Returns P (f a)) :
    Returns P (read >>= f) := by
  intro addr b addr' heq
  obtain ⟨a, addr1, -, hf'⟩ := bind_eq_ok.mp heq
  exact hf a addr1 b addr' hf'

theorem returns_fail (e : DwarfError) : Returns P (Reader.fail e) := by
  intro addr b addr' heq
  cases heq

theorem returns_ite {c : Prop} [Decidable c] {read read' : Reader β} (h : Returns P read)
    (h' : Returns P read') : Returns P (if c then read else read') := by
  split
  · exact h
  · exact h'

/-- An instruction that is none of the two leaves the saved rows alone. -/
theorem cfiExecute_regStack (gp : UInt64) (dci : CieInfo) (initial : RegState) {op : CfaOp}
    (hsave : op ≠ .rememberState) (hload : op ≠ .restoreState) :
    Returns (fun res : CfiState × UInt64 => res.1.regStack = r.regStack)
      (s.cfiExecute gp dci initial op r) := by
  have hrestore (regnum : UInt64) : Returns (fun res : CfiState × UInt64 =>
      res.1.regStack = r.regStack) (if .ofNat s.numRegs ≤ regnum then Reader.fail .inval
        else return (r.restoreReg initial regnum, 0)) :=
    returns_ite (returns_fail _) (returns_pure rfl)
  cases op with
  | advanceLoc operand => exact returns_pure rfl
  | advanceLoc1 => exact returns_bind fun _ => returns_pure rfl
  | advanceLoc2 => exact returns_bind fun _ => returns_pure rfl
  | advanceLoc4 => exact returns_bind fun _ => returns_pure rfl
  | mipsAdvanceLoc8 => exact returns_fail _
  | offset operand => exact returns_bind fun _ => returns_bind fun _ => returns_pure rfl
  | offsetExtended => exact returns_bind fun _ => returns_bind fun _ => returns_pure rfl
  | offsetExtendedSf => exact returns_bind fun _ => returns_bind fun _ => returns_pure rfl
  | restore operand => exact hrestore _
  | restoreExtended => exact returns_bind fun regnum => hrestore regnum
  | nop => exact returns_pure rfl
  | setLoc => exact returns_bind fun _ => returns_pure rfl
  | undefined => exact returns_bind fun _ => returns_pure rfl
  | sameValue => exact returns_bind fun _ => returns_pure rfl
  | register =>
    exact returns_bind fun _ => returns_bind fun _ => returns_bind fun _ => returns_pure rfl
  | rememberState => exact absurd rfl hsave
  | restoreState => exact absurd rfl hload
  | defCfa => exact returns_bind fun _ => returns_bind fun _ => returns_pure rfl
  | defCfaSf => exact returns_bind fun _ => returns_bind fun _ => returns_pure rfl
  | defCfaRegister => exact returns_bind fun _ => returns_pure rfl
  | defCfaOffset => exact returns_bind fun _ => returns_pure rfl
  | defCfaOffsetSf => exact returns_bind fun _ => returns_pure rfl
  | defCfaExpression => exact returns_bind fun _ => returns_bind fun _ => returns_pure rfl
  | expression =>
    exact returns_bind fun _ => returns_bind fun _ => returns_bind fun _ => returns_pure rfl
  | valExpression =>
    exact returns_bind fun _ => returns_bind fun _ => returns_bind fun _ => returns_pure rfl
  | gnuArgsSize => exact returns_bind fun _ => returns_pure rfl
  | gnuNegativeOffsetExtended => exact returns_bind fun _ => returns_bind fun _ => returns_pure rfl
  | gnuWindowSave => exact returns_fail _
  | loUser => exact returns_fail _
  | hiUser => exact returns_fail _
  | unknown => exact returns_pure rfl

end Returns

/-! ## Runs -/

section Runs

variable {s : Space} {gp : UInt64} {dci : CieInfo} {initial rs : RegState}
  {ip endAddr addr : UInt64}
  {regStack : ℕ → DwarfReg} {st st' : RowState} {r : CfiState} {op : CfaOp} {ops ops' : List CfaOp}

theorem runsThrough_append
    (h : s.RunsThrough gp dci initial ip endAddr (ops ++ ops') st st') :
    ∃ st1, s.RunsThrough gp dci initial ip endAddr ops st st1 ∧
      s.RunsThrough gp dci initial ip endAddr ops' st1 st' := by
  induction ops generalizing st with
  | nil => exact ⟨st, .nil st, h⟩
  | cons op ops ih =>
    cases h with
    | cons hop hstep h =>
      obtain ⟨st1, hops, hops'⟩ := ih h
      exact ⟨st1, .cons hop hstep hops, hops'⟩

/-- The instruction that a pass executes. -/
theorem rowStep_op (hst : st.Good s) (h : st.Holds s r)
    (hstep : s.rowStep gp dci initial ip endAddr st = .inl st') : st'.Good s ∧
      ∃ r', st'.Holds s r' ∧ ∃ n a a',
        s.cfiExecute gp dci initial (s.opAt st.addr) r a = .ok (r', n) a' := by
  obtain ⟨hgood, r', hcfi, hholds⟩ := rowStep_inl hst h hstep
  refine ⟨hgood, r', hholds, ?_⟩
  unfold Space.cfiStep at hcfi
  split at hcfi
  · cases hinstr : s.cfiInstr gp dci initial r st.addr with
    | error e a =>
      dsimp only at hcfi
      rw [hinstr] at hcfi
      cases hcfi
    | ok res a =>
      dsimp only at hcfi
      rw [hinstr] at hcfi
      obtain ⟨opcode, a1, hread, hexec⟩ := bind_eq_ok.mp hinstr
      obtain ⟨val, a2, hval, hpure⟩ := bind_eq_ok.mp hread
      obtain ⟨rfl, rfl⟩ := pure_eq_ok.mp hpure
      have hword : val = s.word st.addr 1 := by
        by_cases ha : st.addr = 0
        · rw [ha] at hval
          cases hval
        · have heq := (read_eq 1 ha).symm.trans hval
          cases heq
          rfl
      subst hword
      obtain ⟨-, rfl⟩ := Prod.ext_iff.mp (Sum.inl.inj hcfi)
      exact ⟨res.2, a2, a, hexec⟩
  · cases hcfi

theorem cfiExecute_remember {res : CfiState × UInt64} {a a' : UInt64}
    (h : s.cfiExecute gp dci initial .rememberState r a = .ok res a') :
    res.1.regStack = r.rs :: r.regStack := by
  unfold Space.cfiExecute at h
  dsimp only at h
  split at h
  · cases h
  · obtain ⟨rfl, -⟩ := pure_eq_ok.mp h
    rfl

theorem cfiExecute_restore {res : CfiState × UInt64} {a a' : UInt64}
    (h : s.cfiExecute gp dci initial .restoreState r a = .ok res a') :
    r.regStack = res.1.rs :: res.1.regStack := by
  unfold Space.cfiExecute at h
  cases hrows : r.regStack with
  | nil =>
    rw [hrows] at h
    cases h
  | cons row rows =>
    rw [hrows] at h
    obtain ⟨rfl, -⟩ := pure_eq_ok.mp h
    rfl

/-- What leaves the saved rows as they are. -/
def KeepsSaved (s : Space) (gp : UInt64) (dci : CieInfo) (initial : RegState) (ip endAddr : UInt64)
    (ops : List CfaOp) : Prop :=
  ∀ st st' r, st.Good s → st.Holds s r → s.RunsThrough gp dci initial ip endAddr ops st st' →
    st'.Good s ∧ ∃ r', st'.Holds s r' ∧ r'.regStack = r.regStack

/-- Around such a sequence the row comes back that was remembered. -/
theorem KeepsSaved.remembered (hkeeps : KeepsSaved s gp dci initial ip endAddr ops)
    (hst : st.Good s)
    (h : st.Holds s r) (hrun : s.RunsThrough gp dci initial ip endAddr
      (.rememberState :: (ops ++ .restoreState :: ops')) st st') :
    ∃ st1 r1, s.RunsThrough gp dci initial ip endAddr ops' st1 st' ∧ st1.Good s ∧ st1.Holds s r1 ∧
      r1.rs = r.rs ∧ r1.regStack = r.regStack := by
  cases hrun with
  | cons hop hstep hrest =>
    obtain ⟨hgood, r1, hholds, n, a, a', hexec⟩ := rowStep_op hst h hstep
    rw [hop] at hexec
    have hsaved := cfiExecute_remember hexec
    obtain ⟨st2, hops, hrest⟩ := runsThrough_append hrest
    obtain ⟨hgood2, r2, hholds2, hstack⟩ := hkeeps _ _ _ hgood hholds hops
    cases hrest with
    | cons hop hstep hrest =>
      obtain ⟨hgood3, r3, hholds3, n', a2, a2', hexec'⟩ := rowStep_op hgood2 hholds2 hstep
      rw [hop] at hexec'
      have hloaded := cfiExecute_restore hexec'
      rw [hstack, hsaved] at hloaded
      obtain ⟨hrow, hrows⟩ := List.cons_eq_cons.mp hloaded
      exact ⟨_, r3, hrest, hgood3, hholds3, hrow.symm, hrows.symm⟩

/-- A balanced sequence is one of them. -/
theorem Balanced.keepsSaved (hops : Balanced ops) : KeepsSaved s gp dci initial ip endAddr ops := by
  induction hops with
  | nil =>
    intro st st' r hst h hrun
    cases hrun
    exact ⟨hst, r, h, rfl⟩
  | cons hsave hload _ ih =>
    intro st st' r hst h hrun
    cases hrun with
    | cons hop hstep hrest =>
      obtain ⟨hgood, r1, hholds, n, a, a', hexec⟩ := rowStep_op hst h hstep
      rw [hop] at hexec
      have hsame : r1.regStack = r.regStack :=
        cfiExecute_regStack gp dci initial hsave hload a (r1, n) a' hexec
      obtain ⟨hgood', r', hholds', hstack⟩ := ih _ _ _ hgood hholds hrest
      exact ⟨hgood', r', hholds', hstack.trans hsame⟩
  | nest _ _ ih ih' =>
    intro st st' r hst h hrun
    obtain ⟨st1, r1, hrest, hgood, hholds, -, hstack⟩ := ih.remembered hst h hrun
    obtain ⟨hgood', r', hholds', hstack'⟩ := ih' _ _ _ hgood hholds hrest
    exact ⟨hgood', r', hholds', hstack'.trans hstack⟩

/-- The variables that the loop comes to are good, and hold rows on a list. -/
theorem rowReaches_good (h : s.RowReaches gp dci initial rs ip endAddr addr regStack st) :
    st.Good s ∧ ∃ r, st.Holds s r := by
  have hstart : (rowStart dci rs addr regStack).Good s ∧
      ∃ r, (rowStart dci rs addr regStack).Holds s r := by
    refine ⟨⟨fun _ ha => absurd ha List.not_mem_nil, 0, Nat.zero_le 16, ?_⟩, ⟨dci.startIp, rs, []⟩,
      ⟨rfl, fun _ _ => rfl, ?_, Nat.zero_le 16, fun k row hk => ?_⟩⟩
    · exact (Nat.zero_mul _).symm
    · exact (Nat.zero_mul _).symm
    · cases hk
  refine Orbit.Reaches.invariant (P := fun st => st.Good s ∧ ∃ r, st.Holds s r) ?_ hstart h
  rintro x y ⟨hgood, r, hholds⟩ hstep
  obtain ⟨hgood', r', -, hholds'⟩ := rowStep_inl hgood hholds hstep
  exact ⟨hgood', r', hholds'⟩

/-- In every run of `run_cfi_program` all registers that are accessed are those of a row, there are
between 0 and 16 saved rows, and a balanced sequence between `DW_CFA_remember_state` and
`DW_CFA_restore_state` leaves all rules as they were. -/
theorem cfi_rows_nest (s : Space) (gp : UInt64) (dci : CieInfo) (initial rs : RegState)
    (ip endAddr addr : UInt64) (regStack : ℕ → DwarfReg) :
    (∀ st, s.RowReaches gp dci initial rs ip endAddr addr regStack st →
      st.Good s ∧ ∀ e st', s.rowStep gp dci initial ip endAddr st = .inr (e, st') → st'.Good s) ∧
    ∀ ops, Balanced ops → ∀ st st', s.RowReaches gp dci initial rs ip endAddr addr regStack st →
      s.RunsThrough gp dci initial ip endAddr (.rememberState :: (ops ++ [.restoreState])) st st' →
        ∀ i < s.numRegs + 2, st'.rs i = st.rs i := by
  constructor
  · intro st h
    obtain ⟨hgood, r, hholds⟩ := rowReaches_good h
    exact ⟨hgood, fun e st' hstep => rowStep_inr hgood hholds hstep⟩
  · intro ops hops st st' h hrun i hi
    obtain ⟨hgood, r, hholds⟩ := rowReaches_good h
    obtain ⟨st1, r1, hrest, -, hholds1, hrow, -⟩ := hops.keepsSaved.remembered hgood hholds hrun
    cases hrest
    rw [hholds1.rs i hi, hholds.rs i hi, hrow]

end Runs

/-! ## A row within a row -/

/-- The passes of the loop for these instructions. -/
def Space.runOps (s : Space) (gp : UInt64) (dci : CieInfo) (initial : RegState)
    (ip endAddr : UInt64) : List CfaOp → RowState → Option RowState
  | [], st => some st
  | op :: ops, st =>
    if s.opAt st.addr = op then
      match s.rowStep gp dci initial ip endAddr st with
      | .inl st' => s.runOps gp dci initial ip endAddr ops st'
      | .inr _ => none
    else none

theorem runsThrough_of_runOps {s : Space} {gp : UInt64} {dci : CieInfo} {initial : RegState}
    {ip endAddr : UInt64} {ops : List CfaOp} {st st' : RowState}
    (h : s.runOps gp dci initial ip endAddr ops st = some st') :
    s.RunsThrough gp dci initial ip endAddr ops st st' := by
  induction ops generalizing st with
  | nil =>
    cases h
    exact .nil _
  | cons op ops ih =>
    unfold Space.runOps at h
    split_ifs at h with hop
    cases hstep : s.rowStep gp dci initial ip endAddr st with
    | inl st₁ =>
      simp only [hstep] at h
      exact .cons hop hstep (ih h)
    | inr e =>
      simp only [hstep] at h
      cases h

/-- The row is remembered, the rule of register 3 changes, and a second row is remembered and
restored in between. -/
def nestImage : Space := imageOf [0x0a, 0x07, 3, 0x0a, 0x84, 1, 0x0b, 0x0b]

def nestOps : List CfaOp := [.undefined, .rememberState, .offset 4, .restoreState]

theorem balanced_nestOps : Balanced nestOps :=
  .cons CfaOp.noConfusion CfaOp.noConfusion
    (.nest (.cons CfaOp.noConfusion CfaOp.noConfusion .nil : Balanced [.offset 4]) .nil)

def nestStart : RowState := rowStart .zero Space.sameRow 0x10000 fun _ => ⟨.undef, 0⟩

theorem cfi_rows_nest_nested : ∃ mid st,
    nestImage.RunsThrough 0 .zero Space.zeroRow 0 0x10008 [.rememberState, .undefined] nestStart
      mid ∧
    nestImage.RunsThrough 0 .zero Space.zeroRow 0 0x10008
      (.rememberState :: (nestOps ++ [.restoreState])) nestStart st ∧
    (nestStart.rs 3).saved = .same ∧ (mid.rs 3).saved = .undef ∧
    ∀ i < nestImage.numRegs + 2, st.rs i = nestStart.rs i := by
  have hmid : ((nestImage.runOps 0 .zero Space.zeroRow 0 0x10008 [.rememberState, .undefined]
      nestStart).map fun st => (st.rs 3).saved) = some .undef := by decide +kernel
  have hrun : (nestImage.runOps 0 .zero Space.zeroRow 0 0x10008
      (.rememberState :: (nestOps ++ [.restoreState])) nestStart).isSome = true := by
    decide +kernel
  obtain ⟨mid, hmid, hundef⟩ := Option.map_eq_some_iff.mp hmid
  obtain ⟨st, hst⟩ := Option.isSome_iff_exists.mp hrun
  have hruns := runsThrough_of_runOps hst
  have hnest := (cfi_rows_nest nestImage 0 .zero Space.zeroRow Space.sameRow 0 0x10008 0x10000
    (fun _ => ⟨.undef, 0⟩)).2 nestOps balanced_nestOps nestStart st (.refl _) hruns
  exact ⟨mid, st, runsThrough_of_runOps hmid, hruns, rfl, hundef, hnest⟩

end Mtrace.Dwarf
