import Mtrace.Dwarf.CfiAgrees

/-!
# The row of an instruction pointer

`run_cfi_program` ends as the program does by the standard, and `parse_fde` makes the row that the
standard has for an instruction pointer.
-/

namespace Mtrace.Dwarf

open Standard Server

/-! ## The loop -/

section Loop

variable {s : Space} {libref : Libref} {dci : CieInfo} {initial : RegState} {first : Option Row}
  {ip endAddr : UInt64} {limit : Option ℕ} {x : UInt64 × CfiState} {st st' : TableState}
  {out : Table.Outcome}

/-- A state of the loop and its position stand for a state of the table. -/
structure InTable (s : Space) (endAddr : UInt64) (x : UInt64 × CfiState)
    (st : TableState) : Prop where
  rest : At s endAddr x.1 st.rest
  state : Stands s x.2 st

/-- The loop goes on to the same location as the program. -/
def LimitAgrees (limit : Option ℕ) (ip : UInt64) : Prop :=
  ∀ currIp : UInt64, limit.any (· < currIp.toNat) = false ↔ currIp ≤ ip

theorem limitAgrees_none : LimitAgrees none 0xffffffffffffffff := by
  intro currIp
  have hlt := currIp.toNat_lt
  have hlast : (0xffffffffffffffff : UInt64).toNat = 2 ^ 64 - 1 := rfl
  rw [UInt64.le_iff_toNat_le, hlast]
  exact iff_of_true rfl (by omega)

theorem limitAgrees_some : LimitAgrees (some ip.toNat) ip := by
  intro currIp
  rw [Option.any_some, decide_eq_false_iff_not, not_lt]
  exact UInt64.le_iff_toNat_le.symm

/-- What a step of a program is. -/
theorem Table.step_cases {t : Table} {res : TableState ⊕ Table.Outcome}
    (h : t.step limit st = some res) :
    ((st.rest = [] ∨ limit.any (· < st.loc) = true) ∧ res = .inr (.row st.row)) ∨
      ∃ opcode bs, st.rest = opcode :: bs ∧ limit.any (· < st.loc) = false ∧
        ((implemented (.decode opcode) = false ∧ res = .inr .unimplemented) ∨
          ∃ x y rest st', decodeOperands (cfaKinds (.decode opcode)) bs = some ((x, y), rest) ∧
            t.execute (.decode opcode) x y { st with rest } = some st' ∧ res = .inl st') := by
  unfold Table.step at h
  cases hrest : st.rest with
  | nil =>
    rw [hrest] at h
    cases h
    exact .inl ⟨.inl rfl, rfl⟩
  | cons opcode bs =>
    rw [hrest] at h
    dsimp only at h
    by_cases hlimit : limit.any (· < st.loc) = true
    · rw [if_pos hlimit] at h
      cases h
      exact .inl ⟨.inr hlimit, rfl⟩
    rw [if_neg hlimit] at h
    refine .inr ⟨opcode, bs, rfl, Bool.eq_false_iff.mpr hlimit, ?_⟩
    by_cases himpl : implemented (.decode opcode) = true
    · rw [if_pos himpl] at h
      obtain ⟨⟨⟨x, y⟩, rest⟩, hdec, h⟩ := Option.bind_eq_some_iff.mp h
      obtain ⟨st', hexec, heq⟩ := Option.bind_eq_some_iff.mp h
      cases heq
      exact .inr ⟨x, y, rest, st', hdec, hexec, rfl⟩
    · rw [if_neg himpl] at h
      cases h
      exact .inl ⟨Bool.eq_false_iff.mpr himpl, rfl⟩

theorem cfiExecute_unimplemented {op : CfaOp} {gp : UInt64} {r : CfiState} {a : UInt64}
    (h : implemented op = false) (hknown : op ≠ .unknown) :
    s.cfiExecute gp dci initial op r a = .error (.error .inval) a := by
  cases op with
  | mipsAdvanceLoc8 => rfl
  | gnuWindowSave => rfl
  | loUser => rfl
  | hiUser => rfl
  | unknown => exact absurd rfl hknown
  | _ => cases h

/-- The loop ends as the program does. -/
def LoopAnswers (s : Space) (res : EStateM.Result Halt UInt64 CfiState) : Table.Outcome → Prop
  | .row row => ∃ r a, res = .ok r a ∧ RowAgrees s r.rs row
  | .unimplemented => ∃ e a, res = .error (.error e) a

/-- A pass stops where the program does. -/
theorem InTable.stop (h : InTable s endAddr x st) (hlimit : LimitAgrees limit ip)
    (hstop : st.rest = [] ∨ limit.any (· < st.loc) = true) :
    s.cfiStep libref.pltgot dci initial ip endAddr x = .inr (.ok x.2 x.1) := by
  unfold Space.cfiStep
  apply if_neg
  rintro ⟨hip, hlt⟩
  obtain hnil | hlater := hstop
  · have hrest := h.rest
    rw [hnil] at hrest
    exact hrest.not_lt_end hlt
  · rw [← h.state.loc, (hlimit x.2.currIp).mpr hip] at hlater
    cases hlater

/-- Otherwise the pass executes the instruction at its position. -/
theorem InTable.instr {opcode : UInt8} {bs : List UInt8} (h : InTable s endAddr x st)
    (hlimit : LimitAgrees limit ip) (hrest : st.rest = opcode :: bs)
    (hgo : limit.any (· < st.loc) = false) (gp : UInt64) (dci : CieInfo) (initial : RegState) :
    (x.2.currIp ≤ ip ∧ x.1 < endAddr) ∧ s.image x.1 = opcode ∧ At s endAddr (x.1 + 1) bs ∧
      s.cfiInstr gp dci initial x.2 x.1 =
        s.cfiExecute gp dci initial (.decode opcode) x.2 (x.1 + 1) := by
  have hat := h.rest
  rw [hrest] at hat
  rw [← h.state.loc] at hgo
  obtain ⟨hop, hnext⟩ := hat.cons
  refine ⟨⟨(hlimit x.2.currIp).mp hgo, hat.lt_end⟩, hop, hnext, ?_⟩
  unfold Space.cfiInstr
  rw [bind_ok (read8_eq hat.ne_zero), hop]

/-- The bytes behind an opcode are those that a faithful pass is about. -/
theorem At.behind {a : UInt64} {opcode : UInt8} {bs : List UInt8}
    (h : At s endAddr a (opcode :: bs)) :
    s.block (a + 1) (endAddr.toNat - a.toNat - 1) = bs := by
  have hlen : endAddr.toNat - a.toNat - 1 = bs.length := by
    have hfits := h.fits
    rw [List.length_cons] at hfits
    omega
  rw [hlen]
  exact h.cons.2.eq.symm

/-- A pass leads where the step of the program leads. -/
theorem InTable.pass (h : InTable s endAddr x st) (hp : 10 ≤ s.passes)
    (hlimit : LimitAgrees limit ip) (hinitial : ∀ row ∈ first, RowAgrees s initial row)
    (hfaithful : x.2.currIp ≤ ip → x.1 < endAddr → s.FaithfulInstr libref dci endAddr x)
    (hstep : (s.frameTable libref dci endAddr first).step limit st = some (.inl st')) :
    ∃ y, s.cfiStep libref.pltgot dci initial ip endAddr x = .inl y ∧ InTable s endAddr y st' := by
  obtain ⟨-, heq⟩ | ⟨opcode, bs, hrest, hgo, ⟨-, heq⟩ | ⟨v, w, rest, _, hdec, hexec, heq⟩⟩ :=
    Table.step_cases hstep
  · cases heq
  · cases heq
  · cases heq
    have hat := h.rest
    rw [hrest] at hat
    obtain ⟨hcond, hop, hnext, hinstr⟩ := h.instr hlimit hrest hgo libref.pltgot dci initial
    obtain ⟨-, hshort, hoperands⟩ := hfaithful hcond.1 hcond.2
    rw [hop, hat.behind] at hshort hoperands
    obtain ⟨r, n, a, hres, hstands, hbehind⟩ := execute_stands h.state hnext hdec hshort hp
      (hoperands v w rest hdec) hinitial hexec
    refine ⟨(a + n, r), ?_, hbehind, hstands⟩
    unfold Space.cfiStep
    rw [if_pos hcond, hinstr, hres]

/-- The last pass ends as the last step of the program. -/
theorem InTable.last (h : InTable s endAddr x st) (initial : RegState)
    (hlimit : LimitAgrees limit ip)
    (hfaithful : x.2.currIp ≤ ip → x.1 < endAddr → s.FaithfulInstr libref dci endAddr x)
    (hstep : (s.frameTable libref dci endAddr first).step limit st = some (.inr out)) :
    ∃ res, s.cfiStep libref.pltgot dci initial ip endAddr x = .inr res ∧ LoopAnswers s res out := by
  obtain ⟨hstop, heq⟩ | ⟨opcode, bs, hrest, hgo, ⟨himpl, heq⟩ | ⟨_, _, _, _, _, _, heq⟩⟩ :=
    Table.step_cases hstep
  · cases heq
    exact ⟨_, h.stop hlimit hstop, x.2, x.1, rfl, h.state.row⟩
  · cases heq
    obtain ⟨hcond, hop, -, hinstr⟩ := h.instr hlimit hrest hgo libref.pltgot dci initial
    obtain ⟨hknown, -⟩ := hfaithful hcond.1 hcond.2
    rw [hop] at hknown
    refine ⟨.error (.error .inval) (x.1 + 1), ?_, .inval, x.1 + 1, rfl⟩
    unfold Space.cfiStep
    rw [if_pos hcond, hinstr, cfiExecute_unimplemented himpl hknown]
  · cases heq

/-- The loop ends as the program does, from any state that stands for one of the table. -/
theorem InTable.run {n : ℕ} (h : InTable s endAddr x st) (hp : 10 ≤ s.passes)
    (hlimit : LimitAgrees limit ip) (hinitial : ∀ row ∈ first, RowAgrees s initial row)
    (hfaithful : ∀ y, Orbit.Reaches (s.cfiStep libref.pltgot dci initial ip endAddr) x y →
      y.2.currIp ≤ ip → y.1 < endAddr → s.FaithfulInstr libref dci endAddr y)
    (heval : (s.frameTable libref dci endAddr first).eval limit n st = some out) :
    ∃ m res, Orbit.run (s.cfiStep libref.pltgot dci initial ip endAddr) m x = .inr res ∧
      LoopAnswers s res out := by
  induction n generalizing x st with
  | zero => cases heval
  | succ n ih =>
    rw [Table.eval] at heval
    cases hstep : (s.frameTable libref dci endAddr first).step limit st with
    | none =>
      rw [hstep] at heval
      cases heval
    | some res =>
      rw [hstep] at heval
      cases res with
      | inl st' =>
        obtain ⟨y, hy, hin⟩ := h.pass hp hlimit hinitial (hfaithful x (.refl x)) hstep
        obtain ⟨m, res, hm, hres⟩ :=
          ih hin (fun z hz => hfaithful z ((Orbit.Reaches.one hy).trans hz)) heval
        refine ⟨m + 1, res, ?_, hres⟩
        rw [Orbit.run, hy]
        exact hm
      | inr out' =>
        cases heval
        obtain ⟨res, hres, hanswers⟩ := h.last initial hlimit (hfaithful x (.refl x)) hstep
        refine ⟨1, res, ?_, hanswers⟩
        rw [Orbit.run, hres]

end Loop

/-! ## The row -/

section Program

variable {s : Space} {libref : Libref} {dci : CieInfo} {initial rs : RegState} {first : Option Row}
  {row : Row} {ip start endAddr : UInt64} {limit : Option ℕ} {out : Table.Outcome} {n : ℕ}

theorem blockAt_withPasses (p : ℕ) {addr : UInt64} {block : List UInt8} :
    BlockAt (s.withPasses p) addr block ↔ BlockAt s addr block := by
  unfold BlockAt
  simp only [block_withPasses]
  have hexpr (a : UInt64) : ExprAt (s.withPasses p) addr a (.ofNat block.length) ↔
      ExprAt s addr a (.ofNat block.length) :=
    ⟨fun h => ⟨h.1, h.2, h.3⟩, fun h => ⟨h.1, h.2, h.3⟩⟩
  exact exists_congr fun a => and_congr_left fun _ => hexpr a

/-- A row does not depend on the number of passes. -/
theorem rowAgrees_withPasses (p : ℕ) : RowAgrees (s.withPasses p) rs row ↔ RowAgrees s rs row := by
  have hcfa : CfaAgrees (s.withPasses p) rs row.cfa ↔ CfaAgrees s rs row.cfa := by
    cases row.cfa with
    | none => exact Iff.rfl
    | some cfa =>
      cases cfa with
      | regOffset n off => exact Iff.rfl
      | expression block => exact and_congr_right fun _ => blockAt_withPasses p
  have hrule (reg : DwarfReg) (rule : Rule) :
      RuleAgrees (s.withPasses p) reg rule ↔ RuleAgrees s reg rule := by
    cases rule with
    | expression block => exact and_congr_right fun _ => blockAt_withPasses p
    | valExpression block => exact and_congr_right fun _ => blockAt_withPasses p
    | _ => exact Iff.rfl
  constructor
  · exact fun h => ⟨hcfa.mp h.cfa, fun i hi => (hrule _ _).mp (h.rule i hi)⟩
  · exact fun h => ⟨hcfa.mpr h.cfa, fun i hi => (hrule _ _).mpr (h.rule i hi)⟩

theorem faithfulInstr_withPasses (p : ℕ) {x : UInt64 × CfiState} :
    (s.withPasses p).FaithfulInstr libref dci endAddr x ↔ s.FaithfulInstr libref dci endAddr x := by
  unfold Space.FaithfulInstr
  rw [block_withPasses]
  exact Iff.rfl

/-- The program of a block that is read from its beginning ends as that of the table. -/
theorem cfiMachine_answers (hrow : RowAgrees s rs row) (hstart : start ≠ 0)
    (hlimit : LimitAgrees limit ip) (hinitial : ∀ row ∈ first, RowAgrees s initial row)
    (hfaithful : ∀ x, s.CfiReaches libref.pltgot dci initial rs ip endAddr start x →
      x.2.currIp ≤ ip → x.1 < endAddr → s.FaithfulInstr libref dci endAddr x)
    (heval : (s.frameTable libref dci endAddr first).eval limit n
      ⟨s.block start (endAddr.toNat - start.toNat), dci.startIp.toNat, row, []⟩ = some out) :
    ∃ m res, Orbit.run (s.cfiMachine libref.pltgot dci initial ip endAddr) m
      (start, ⟨dci.startIp, rs, []⟩) = .inr res ∧ LoopAnswers (s.withPasses enough) res out := by
  by_cases hlt : endAddr < start
  · -- there is no instruction in the block
    have hnone : endAddr.toNat - start.toNat = 0 := by
      rw [UInt64.lt_iff_toNat_lt] at hlt
      omega
    have hover : s.cfiMachine libref.pltgot dci initial ip endAddr (start, ⟨dci.startIp, rs, []⟩) =
        .inr (.ok ⟨dci.startIp, rs, []⟩ start) := by
      unfold Space.cfiMachine Space.cfiStep
      apply if_neg
      rintro ⟨-, hcond⟩
      have hcond : start < endAddr := hcond
      rw [UInt64.lt_iff_toNat_lt] at hlt hcond
      omega
    rw [hnone] at heval
    cases n with
    | zero => cases heval
    | succ n =>
      cases heval
      refine ⟨1, _, ?_, ⟨dci.startIp, rs, []⟩, start, rfl, (rowAgrees_withPasses enough).mpr hrow⟩
      rw [Orbit.run, hover]
  · have hin : InTable (s.withPasses enough) endAddr (start, ⟨dci.startIp, rs, []⟩)
        ⟨s.block start (endAddr.toNat - start.toNat), dci.startIp.toNat, row, []⟩ :=
      { rest :=
          { ne_zero := hstart
            fits := by
              rw [UInt64.lt_iff_toNat_lt] at hlt
              dsimp only
              rw [length_block]
              omega
            eq := by
              rw [length_block]
              exact (block_withPasses ..).symm }
        state := ⟨rfl, (rowAgrees_withPasses enough).mpr hrow, .nil⟩ }
    exact hin.run (by decide : 10 ≤ enough) hlimit
      (fun row hmem => (rowAgrees_withPasses enough).mpr (hinitial row hmem))
      (fun x hx hip hlt => (faithfulInstr_withPasses enough).mpr (hfaithful x hx hip hlt)) heval

/-- The state in which the loop ends with a row. -/
theorem cfiStep_eq_ok {gp : UInt64} {x : UInt64 × CfiState} {r : CfiState} {a : UInt64}
    (h : s.cfiStep gp dci initial ip endAddr x = .inr (.ok r a)) :
    ¬ (x.2.currIp ≤ ip ∧ x.1 < endAddr) ∧ r = x.2 := by
  unfold Space.cfiStep at h
  split at h
  case isTrue =>
    cases hinstr : s.cfiInstr gp dci initial x.2 x.1 with
    | ok res addr =>
      rw [hinstr] at h
      cases h
    | error e addr =>
      rw [hinstr] at h
      cases h
  case isFalse hcond =>
    cases h
    exact ⟨hcond, rfl⟩

end Program

namespace Space

variable (s : Space) (libref : Libref) (dci : CieInfo)

/-- The program of the CIE comes to a position and a state. -/
def CieReaches (x : UInt64 × CfiState) : Prop :=
  s.CfiReaches libref.pltgot dci zeroRow sameRow 0xffffffffffffffff dci.cieInstrEnd
    dci.cieInstrStart
    x

/-- The program of the FDE comes to a position and a state, from the row of the CIE. -/
def FdeReaches (ip : UInt64) (x : UInt64 × CfiState) : Prop :=
  ∃ last, s.CieReaches libref dci last ∧ ¬ last.1 < dci.cieInstrEnd ∧
    s.CfiReaches libref.pltgot dci last.2.rs last.2.rs ip dci.fdeInstrEnd dci.fdeInstrStart x

/-- Each instruction that is executed for `ip` is executed as the standard says. -/
structure FaithfulFrame (ip : UInt64) : Prop where
  cie : ∀ x, s.CieReaches libref dci x → x.1 < dci.cieInstrEnd →
    s.FaithfulInstr libref dci dci.cieInstrEnd x
  fde : ∀ x, s.FdeReaches libref dci ip x → x.2.currIp ≤ ip → x.1 < dci.fdeInstrEnd →
    s.FaithfulInstr libref dci dci.fdeInstrEnd x

end Space

/-- What is left of a result without the cursor. -/
def resultOf {α : Type} : EStateM.Result Halt Cursor α → Except Halt α
  | .ok a _ => .ok a
  | .error h _ => .error h

/-- The rules for a frame are those of the standard's row; where the standard comes to an
instruction that is not implemented, there are none. -/
def Answers (s : Space) (res : Except Halt RegState) : Table.Outcome → Prop
  | .row row => ∃ rs, res = .ok rs ∧ RowAgrees s rs row
  | .unimplemented => ∃ e, res = .error (.error e)

section Frame

variable {s : Space} {libref : Libref} {dci : CieInfo} {ip : UInt64}
  {out : Table.Outcome} {m m' p : ℕ}

theorem cfiRow_of_error {gp : UInt64} {e : Halt} {a : UInt64}
    (h : Orbit.run (s.cfiMachine gp dci Space.zeroRow 0xffffffffffffffff dci.cieInstrEnd) m
      (dci.cieInstrStart, ⟨dci.startIp, Space.sameRow, []⟩) = .inr (.error e a))
    (hm : m ≤ p) (hp : enough ≤ p) : (s.withPasses p).cfiRow gp dci ip = .error e := by
  have hloop := cfiLoop_of_run h hm hp
  have hcie : (s.withPasses p).runCfiProgram gp dci Space.zeroRow Space.sameRow 0xffffffffffffffff
      dci.cieInstrEnd dci.cieInstrStart = .error e a := by
    show EStateM.bind _ _ _ = _
    unfold EStateM.bind
    rw [show (s.withPasses p).passes = p from rfl, hloop]
  unfold Space.cfiRow
  rw [hcie]

/-- The rules for a frame are what the second run makes of the row of the first. -/
theorem cfiRow_of_ok {gp : UInt64} {r : CfiState} {a : UInt64}
    {res : EStateM.Result Halt UInt64 CfiState}
    (h : Orbit.run (s.cfiMachine gp dci Space.zeroRow 0xffffffffffffffff dci.cieInstrEnd) m
      (dci.cieInstrStart, ⟨dci.startIp, Space.sameRow, []⟩) = .inr (.ok r a))
    (h' : Orbit.run (s.cfiMachine gp dci r.rs ip dci.fdeInstrEnd) m'
      (dci.fdeInstrStart, ⟨dci.startIp, r.rs, []⟩) = .inr res)
    (hm : m ≤ p) (hm' : m' ≤ p) (hp : enough ≤ p) :
    (∀ r' a', res = .ok r' a' → (s.withPasses p).cfiRow gp dci ip = .ok r'.rs) ∧
      ∀ e a', res = .error e a' → (s.withPasses p).cfiRow gp dci ip = .error e := by
  have hloop := cfiLoop_of_run h hm hp
  have hloop' := cfiLoop_of_run h' hm' hp
  have hcie : (s.withPasses p).runCfiProgram gp dci Space.zeroRow Space.sameRow 0xffffffffffffffff
      dci.cieInstrEnd dci.cieInstrStart = .ok r.rs a := bind_ok hloop
  unfold Space.cfiRow
  rw [hcie]
  constructor
  · rintro r' a' rfl
    have hfde : (s.withPasses p).runCfiProgram gp dci r.rs r.rs ip dci.fdeInstrEnd
        dci.fdeInstrStart = .ok r'.rs a' := bind_ok hloop'
    dsimp only
    rw [hfde]
  · rintro e a' rfl
    have hfde : (s.withPasses p).runCfiProgram gp dci r.rs r.rs ip dci.fdeInstrEnd
        dci.fdeInstrStart = .error e a' := by
      show EStateM.bind _ _ _ = _
      unfold EStateM.bind
      rw [show (s.withPasses p).passes = p from rfl, hloop']
    dsimp only
    rw [hfde]

/-- The two programs of a frame end as the standard's. -/
theorem cfiRow_answers (hcie : dci.cieInstrStart ≠ 0) (hfde : dci.fdeInstrStart ≠ 0)
    (hf : s.FaithfulFrame libref dci ip) (hrow : s.standardRow libref dci ip = some out) :
    ∃ m, ∀ p ≥ m, Answers s ((s.withPasses p).cfiRow libref.pltgot dci ip) out := by
  unfold Space.standardRow at hrow
  dsimp only at hrow
  set cie := s.block dci.cieInstrStart (dci.cieInstrEnd.toNat - dci.cieInstrStart.toNat) with hblock
  cases heval : (s.frameTable libref dci dci.cieInstrEnd none).eval none (cie.length + 1)
      ⟨cie, dci.startIp.toNat, .start, []⟩ with
  | none =>
    rw [heval] at hrow
    cases hrow
  | some first =>
    rw [heval] at hrow
    have hnone : ∀ row ∈ (none : Option Row), RowAgrees s Space.zeroRow row := by
      intro row hmem
      cases hmem
    obtain ⟨m, res, hm, hanswers⟩ := cfiMachine_answers rowAgrees_start hcie limitAgrees_none hnone
      (fun x hx _ hlt => hf.cie x hx hlt) heval
    cases first with
    | unimplemented =>
      cases hrow
      obtain ⟨e, a, rfl⟩ := hanswers
      refine ⟨max m enough, fun p hp => ⟨e, ?_⟩⟩
      exact cfiRow_of_error hm ((le_max_left m enough).trans hp) ((le_max_right m enough).trans hp)
    | row row =>
      dsimp only at hrow
      obtain ⟨r, a, rfl, hr⟩ := hanswers
      have hr := (rowAgrees_withPasses enough).mp hr
      obtain ⟨last, hlast, hend⟩ := Orbit.exists_last hm
      obtain ⟨hcond, rfl⟩ := cfiStep_eq_ok hend
      have hover : ¬ last.1 < dci.cieInstrEnd := by
        intro hlt
        refine hcond ⟨?_, hlt⟩
        exact (limitAgrees_none _).mp rfl
      obtain ⟨m', res, hm', hanswers⟩ := cfiMachine_answers hr hfde limitAgrees_some
        (fun row' hmem => by cases hmem; exact hr)
        (fun x hx => hf.fde x ⟨last, hlast, hover, hx⟩) hrow
      refine ⟨max (max m m') enough, fun p hp => ?_⟩
      obtain ⟨hok, herror⟩ := cfiRow_of_ok hm hm' (by omega) (by omega) (by omega : enough ≤ p)
      cases out with
      | row row' =>
        obtain ⟨r', a', hres, hr'⟩ := hanswers
        exact ⟨r'.rs, hok r' a' hres, (rowAgrees_withPasses enough).mp hr'⟩
      | unimplemented =>
        obtain ⟨e, a', hres⟩ := hanswers
        exact ⟨e, herror (.error e) a' hres⟩

theorem resultOf_parseFde {gp : UInt64} {c : Cursor}
    (h : c.dci.retAddrColumn < .ofNat s.numRegs) :
    resultOf (s.parseFde gp ip c) = s.cfiRow gp c.dci ip := by
  have hin : ¬ UInt64.ofNat s.numRegs ≤ c.dci.retAddrColumn := by
    rw [UInt64.lt_iff_toNat_lt] at h
    rw [UInt64.le_iff_toNat_le]
    omega
  have heq : s.parseFde gp ip c = (Unwinder.ofExcept (s.cfiRow gp c.dci ip) : Unwinder RegState)
      { c with retAddrColumn := c.dci.retAddrColumn } := by
    unfold Space.parseFde
    apply (bind_ok (x := c) rfl).trans
    exact congrFun (if_neg hin) c
  rw [heq]
  cases s.cfiRow gp c.dci ip with
  | ok rs => exact rfl
  | error e => exact rfl

end Frame

/-- `parse_fde` makes the row that the standard has for an instruction pointer, and rejects a
program that comes to an instruction which is not implemented, if each instruction that it executes
on the way is executed as the standard says. -/
theorem parseFde_standard {s : Space} {c : Cursor} (libref : Libref) {ip : UInt64}
    (hra : c.dci.retAddrColumn < .ofNat s.numRegs) (hcie : c.dci.cieInstrStart ≠ 0)
    (hfde : c.dci.fdeInstrStart ≠ 0) (hf : s.FaithfulFrame libref c.dci ip) {out : Table.Outcome}
    (hrow : s.standardRow libref c.dci ip = some out) :
    ∃ m, ∀ p ≥ m, Answers s (resultOf ((s.withPasses p).parseFde libref.pltgot ip c)) out := by
  obtain ⟨m, hm⟩ := cfiRow_answers hcie hfde hf hrow
  refine ⟨m, fun p hp => ?_⟩
  have hres : resultOf ((s.withPasses p).parseFde libref.pltgot ip c) =
      (s.withPasses p).cfiRow libref.pltgot c.dci ip := resultOf_parseFde hra
  rw [hres]
  exact hm p hp

/-! ## Examples -/

/-- A frame with the CIE's program at 0x10000 and the FDE's behind it. -/
def frameOf (cieEnd fdeEnd : UInt64) : CieInfo where
  startIp := 0x1000
  ipRange := 0x100
  cieInstrStart := 0x10000
  cieInstrEnd := cieEnd
  fdeInstrStart := cieEnd
  fdeInstrEnd := fdeEnd
  codeAlign := 1
  dataAlign := -8
  retAddrColumn := 16
  abi := 0
  tag := 0
  fdeEncoding := 0x1b
  lsdaEncoding := 0xff
  sizedAugmentation := true
  haveAbiMarker := false
  signalFrame := false

/-- The cursor at such a frame. -/
def atFrame (cieEnd fdeEnd : UInt64) : Cursor where
  cfa := 0x7000
  ip := 0x1000
  retAddrColumn := 0
  usePrevInstr := false
  valid := true
  libref := none
  dci := frameOf cieEnd fdeEnd
  loc i := .ofReg (.ofNat i)

theorem shortLeb_cons {b : UInt8} (bs : List UInt8) (hb : b.toNat < 128) : ShortLeb (b :: bs) := by
  intro m rest hm
  rw [Leb128.decode_last hb] at hm
  cases hm
  exact (by decide : 1 ≤ 10)

/-- `DW_CFA_def_cfa: r7 +8` in the CIE and `DW_CFA_offset: r16 at cfa-8` in the FDE. -/
def callFrame : Space := imageOf [0x0c, 7, 8, 0x90, 1]

theorem callFrame_faithful :
    callFrame.FaithfulFrame (.new .main) (frameOf 0x10003 0x10005) 0x1000 := by
  have hcie :
      callFrame.cfiMachine 0 (frameOf 0x10003 0x10005) Space.zeroRow 0xffffffffffffffff 0x10003
      (0x10000, ⟨0x1000, Space.sameRow, []⟩) = .inl (0x10003, callFrame.setCfaOff
        (callFrame.setCfaReg ⟨0x1000, Space.sameRow, []⟩ .reg 7) 8) := rfl
  have hover (r : CfiState) : callFrame.cfiMachine 0 (frameOf 0x10003 0x10005) Space.zeroRow
      0xffffffffffffffff 0x10003 (0x10003, r) = .inr (.ok r 0x10003) :=
    if_neg fun hcond => absurd hcond.2 (by decide : ¬ (0x10003 : UInt64) < 0x10003)
  constructor
  · intro x hx hlt
    obtain rfl | ⟨y, hy, hx⟩ := hx.cases
    · refine ⟨by decide, ⟨shortLeb_cons [8] (by decide), ?_⟩, ?_⟩
      · intro v rest hv
        cases hv
        exact shortLeb_cons [] (by decide)
      · intro v w rest hdec
        cases hdec
        exact (by decide : 7 < 17)
    · cases hcie.symm.trans hy
      obtain rfl | ⟨z, hz, -⟩ := hx.cases
      · exact absurd hlt (by decide)
      · cases (hover _).symm.trans hz
  · rintro x ⟨last, hlast, hend, hx⟩ hip hlt
    obtain rfl | ⟨y, hy, hlast⟩ := hlast.cases
    · exact absurd (by decide) hend
    · cases hcie.symm.trans hy
      obtain rfl | ⟨z, hz, -⟩ := hlast.cases
      · obtain rfl | ⟨y, hy, hx⟩ := hx.cases
        · refine ⟨by decide, shortLeb_cons [] (by decide), ?_⟩
          intro v w rest hdec
          cases hdec
          exact (by decide : 16 < 17)
        · cases hy
          obtain rfl | ⟨z, hz, -⟩ := hx.cases
          · exact absurd hlt (by decide)
          · cases hz
      · cases (hover _).symm.trans hz

theorem parseFde_callFrame : ∃ m, ∀ p ≥ m, ∃ rs,
    resultOf ((callFrame.withPasses p).parseFde 0 0x1000 (atFrame 0x10003 0x10005)) = .ok rs ∧
      RowAgrees callFrame rs
        ((Row.start.setCfa (.regOffset 7 8)).setRule 16 (.offset (-8))) :=
  parseFde_standard (c := atFrame 0x10003 0x10005) (.new .main) (by decide) (by decide) (by decide)
    callFrame_faithful rfl

/-- `DW_CFA_def_cfa: r7 +8` in the CIE and `DW_CFA_val_offset: r6 is cfa-64` in the FDE. -/
def valOffsetFrame : Space := imageOf [0x0c, 7, 8, 0x14, 6, 8]

/-- `DW_CFA_val_offset` has no `case`, and its operands are executed as
`DW_CFA_restore_extended: r8`. -/
theorem parseFde_skips_valOffset :
    valOffsetFrame.standardRow (.new .main) (frameOf 0x10003 0x10006) 0x1000 = some .unimplemented ∧
      ¬ ∃ m, ∀ p ≥ m, Answers valOffsetFrame (resultOf
        ((valOffsetFrame.withPasses p).parseFde 0 0x1000 (atFrame 0x10003 0x10006)))
          .unimplemented := by
  refine ⟨rfl, ?_⟩
  rintro ⟨m, hm⟩
  have hcie : Orbit.run (valOffsetFrame.cfiMachine 0 (frameOf 0x10003 0x10006) Space.zeroRow
      0xffffffffffffffff 0x10003) 2 (0x10000, ⟨0x1000, Space.sameRow, []⟩) =
        .inr (.ok (valOffsetFrame.setCfaOff
          (valOffsetFrame.setCfaReg ⟨0x1000, Space.sameRow, []⟩ .reg 7) 8) 0x10003) := rfl
  set first := valOffsetFrame.setCfaOff
    (valOffsetFrame.setCfaReg ⟨0x1000, Space.sameRow, []⟩ .reg 7) 8 with hfirst
  have hunknown : (valOffsetFrame.withPasses enough).cfiInstr 0 (frameOf 0x10003 0x10006) first.rs
      ⟨0x1000, first.rs, []⟩ 0x10003 = .ok (⟨0x1000, first.rs, []⟩, 0) 0x10004 := rfl
  have hrestore : (valOffsetFrame.withPasses enough).cfiInstr 0 (frameOf 0x10003 0x10006) first.rs
      ⟨0x1000, first.rs, []⟩ 0x10004 =
        .ok (CfiState.restoreReg ⟨0x1000, first.rs, []⟩ first.rs 8, 0) 0x10006 := rfl
  have hpass1 : valOffsetFrame.cfiMachine 0 (frameOf 0x10003 0x10006) first.rs 0x1000 0x10006
      (0x10003, ⟨0x1000, first.rs, []⟩) = .inl (0x10004 + 0, ⟨0x1000, first.rs, []⟩) :=
    cfiMachine_of_instr (x := (0x10003, ⟨0x1000, first.rs, []⟩))
      (by decide : (0x1000 : UInt64) ≤ 0x1000) (by decide : (0x10003 : UInt64) < 0x10006) hunknown
  have hpass2 : valOffsetFrame.cfiMachine 0 (frameOf 0x10003 0x10006) first.rs 0x1000 0x10006
      (0x10004 + 0, ⟨0x1000, first.rs, []⟩) =
        .inl (0x10006 + 0, CfiState.restoreReg ⟨0x1000, first.rs, []⟩ first.rs 8) :=
    cfiMachine_of_instr (x := (0x10004 + 0, ⟨0x1000, first.rs, []⟩))
      (by decide : (0x1000 : UInt64) ≤ 0x1000) (by decide : (0x10004 : UInt64) < 0x10006) hrestore
  have hfde :
      Orbit.run (valOffsetFrame.cfiMachine 0 (frameOf 0x10003 0x10006) first.rs 0x1000 0x10006)
      3 (0x10003, ⟨0x1000, first.rs, []⟩) =
        .inr (.ok (CfiState.restoreReg ⟨0x1000, first.rs, []⟩ first.rs 8) 0x10006) := by
    simp only [Orbit.run, hpass1, hpass2]
    exact rfl
  obtain ⟨p, hpm, hp, hpe⟩ : ∃ p, m ≤ p ∧ 3 ≤ p ∧ enough ≤ p :=
    ⟨max m (max 3 enough), le_max_left _ _, (le_max_left _ _).trans (le_max_right _ _),
      (le_max_right _ _).trans (le_max_right _ _)⟩
  obtain ⟨hok, -⟩ := cfiRow_of_ok hcie hfde ((by decide : 2 ≤ 3).trans hp) hp hpe
  have hin : (atFrame 0x10003 0x10006).dci.retAddrColumn <
      .ofNat (valOffsetFrame.withPasses p).numRegs :=
    (by decide : (16 : UInt64) < 17)
  obtain ⟨e, he⟩ := hm p hpm
  rw [resultOf_parseFde hin] at he
  cases (hok _ _ rfl).symm.trans he

end Mtrace.Dwarf
