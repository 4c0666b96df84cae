import Mtrace.Dwarf.CfiLoop
import Mtrace.Dwarf.Position

/-!
# Instructions and the standard

A row of the source stands for one of the standard, and an instruction does to the state of the loop
what it does to the table, unless it is one of those that depart from the standard.
-/

namespace Mtrace.Dwarf

open Standard Server

/-! ## Rows that agree -/

/-- A rule of the source stands for one of the standard. -/
def RuleAgrees (s : Space) (reg : DwarfReg) : Rule → Prop
  | .undefined => reg.saved = .undef
  | .sameValue => reg.saved = .same
  | .offset off => reg = ⟨.cfarel, .ofInt off⟩
  | .register n => reg.saved = .reg ∧ reg.val.toNat = n
  | .expression block => reg.saved = .expr ∧ BlockAt s reg.val block
  | .valExpression block => reg.saved = .valExpr ∧ BlockAt s reg.val block

/-- The two columns of the CFA stand for its rule. -/
def CfaAgrees (s : Space) (rs : RegState) : Option CfaRule → Prop
  | none => (rs s.cfaRegColumn).saved = .same
  | some (.regOffset n off) => (rs s.cfaRegColumn).saved = .reg ∧
      (rs s.cfaRegColumn).val.toNat = n ∧ (rs s.cfaOffColumn).val = .ofInt off
  | some (.expression block) => (rs s.cfaRegColumn).saved = .expr ∧
      BlockAt s (rs s.cfaRegColumn).val block

/-- A row of the source stands for one of the standard. -/
structure RowAgrees (s : Space) (rs : RegState) (row : Row) : Prop where
  cfa : CfaAgrees s rs row.cfa
  rule : ∀ i < s.numRegs, RuleAgrees s (rs i) (row.rule i)

/-- A state of the loop stands for one of the table, but for the position. -/
structure Stands (s : Space) (r : CfiState) (st : TableState) : Prop where
  loc : r.currIp.toNat = st.loc
  row : RowAgrees s r.rs st.row
  stack : List.Forall₂ (RowAgrees s) r.regStack st.stack

section Update

variable {s : Space} {rs : RegState} {row : Row} {r : CfiState} {st : TableState} {n : ℕ}

theorem toNat_reg (h : n < s.numRegs) : (UInt64.ofNat n).toNat = n := by
  have hle := numRegs_le (s := s)
  exact toNat_ofNat_of_lt (by omega)

theorem rowAgrees_start : RowAgrees s Space.sameRow .start := ⟨rfl, fun _ _ => rfl⟩

/-- The columns of the CFA are not those of a register. -/
theorem CfaAgrees.congr {rs' : RegState} {cfa : Option CfaRule} (h : CfaAgrees s rs cfa)
    (hreg : rs' s.cfaRegColumn = rs s.cfaRegColumn)
    (hoff : rs' s.cfaOffColumn = rs s.cfaOffColumn) :
    CfaAgrees s rs' cfa := by
  unfold CfaAgrees at h ⊢
  rw [hreg, hoff]
  exact h

theorem RowAgrees.setRule (h : RowAgrees s rs row) (hn : n < s.numRegs)
    {reg : DwarfReg} {rule : Rule}
    (hrule : RuleAgrees s reg rule) :
    RowAgrees s (Function.update rs n reg) (row.setRule n rule) where
  cfa := by
    apply h.cfa.congr
    · exact Function.update_of_ne (show s.numRegs ≠ n by omega) _ _
    · exact Function.update_of_ne (show s.numRegs + 1 ≠ n by omega) _ _
  rule i hi := by
    show RuleAgrees s _ (Function.update row.rule n rule i)
    by_cases heq : i = n
    · rw [heq, Function.update_self, Function.update_self]
      exact hrule
    · rw [Function.update_of_ne heq, Function.update_of_ne heq]
      exact h.rule i hi

/-- The columns of the CFA change alone. -/
theorem RowAgrees.setCfa (h : RowAgrees s rs row) {rs' : RegState} {cfa : CfaRule}
    (hsame : ∀ i < s.numRegs, rs' i = rs i) (hcfa : CfaAgrees s rs' (some cfa)) :
    RowAgrees s rs' (row.setCfa cfa) where
  cfa := hcfa
  rule i hi := by
    rw [hsame i hi]
    exact h.rule i hi

theorem Stands.setRule (h : Stands s r st) (hn : n < s.numRegs) {saved : DwarfWhere} {val : UInt64}
    {rule : Rule} (hrule : RuleAgrees s ⟨saved, val⟩ rule) :
    Stands s (r.setReg (.ofNat n) saved val) (st.setRule n rule) where
  loc := h.loc
  row := by
    unfold CfiState.setReg
    rw [toNat_reg hn]
    exact h.row.setRule hn hrule
  stack := h.stack

theorem Stands.restore (h : Stands s r st) (hn : n < s.numRegs) {initial : RegState} {t : Table}
    {st' : TableState} (hinitial : ∀ row ∈ t.initial, RowAgrees s initial row)
    (hrestore : st.restore t n = some st') :
    Stands s (r.restoreReg initial (.ofNat n)) st' ∧ st'.rest = st.rest := by
  obtain ⟨row, hrow, heq⟩ := Option.bind_eq_some_iff.mp hrestore
  cases heq
  refine ⟨⟨h.loc, ?_, h.stack⟩, rfl⟩
  unfold CfiState.restoreReg
  rw [toNat_reg hn]
  exact h.row.setRule hn ((hinitial row hrow).rule n hn)

theorem toNat_cfaRegColumn : (UInt64.ofNat s.cfaRegColumn).toNat = s.cfaRegColumn := by
  have hle := numRegs_le (s := s)
  exact toNat_ofNat_of_lt (show s.numRegs < 2 ^ 64 by omega)

theorem toNat_cfaOffColumn : (UInt64.ofNat s.cfaOffColumn).toNat = s.cfaOffColumn := by
  have hle := numRegs_le (s := s)
  exact toNat_ofNat_of_lt (show s.numRegs + 1 < 2 ^ 64 by omega)

theorem setCfaReg_rs (saved : DwarfWhere) (val : UInt64) :
    (s.setCfaReg r saved val).rs = Function.update r.rs s.cfaRegColumn ⟨saved, val⟩ := by
  unfold Space.setCfaReg CfiState.setReg
  rw [toNat_cfaRegColumn]

theorem setCfaOff_rs (val : UInt64) :
    (s.setCfaOff r val).rs = Function.update r.rs s.cfaOffColumn ⟨.undef, val⟩ := by
  unfold Space.setCfaOff CfiState.setReg
  rw [toNat_cfaOffColumn]

theorem setCfaReg_reg (saved : DwarfWhere) (val : UInt64) {i : ℕ} (hi : i < s.numRegs) :
    (s.setCfaReg r saved val).rs i = r.rs i := by
  rw [setCfaReg_rs]
  exact Function.update_of_ne (Nat.ne_of_lt hi) _ _

theorem setCfaOff_reg (val : UInt64) {i : ℕ} (hi : i < s.numRegs + 1) :
    (s.setCfaOff r val).rs i = r.rs i := by
  rw [setCfaOff_rs]
  exact Function.update_of_ne (Nat.ne_of_lt hi) _ _

theorem setCfaOff_cfaReg (val : UInt64) :
    (s.setCfaOff r val).rs s.cfaRegColumn = r.rs s.cfaRegColumn :=
  setCfaOff_reg val (Nat.lt_succ_self s.numRegs)

theorem setCfaReg_cfaReg (saved : DwarfWhere) (val : UInt64) :
    (s.setCfaReg r saved val).rs s.cfaRegColumn = ⟨saved, val⟩ := by
  rw [setCfaReg_rs, Function.update_self]

theorem setCfaReg_cfaOff (saved : DwarfWhere) (val : UInt64) :
    (s.setCfaReg r saved val).rs s.cfaOffColumn = r.rs s.cfaOffColumn := by
  rw [setCfaReg_rs]
  exact Function.update_of_ne (Nat.succ_ne_self s.numRegs) _ _

theorem setCfaOff_cfaOff (val : UInt64) :
    (s.setCfaOff r val).rs s.cfaOffColumn = ⟨.undef, val⟩ := by
  rw [setCfaOff_rs, Function.update_self]

theorem Stands.setCfaRegister (h : Stands s r st) (hn : n < s.numRegs) {n' : ℕ} {off : ℤ}
    (hcfa : st.row.cfa = some (.regOffset n' off)) :
    Stands s (s.setCfaReg r .reg (.ofNat n)) (st.setCfa (.regOffset n off)) where
  loc := h.loc
  row := by
    have hold := h.row.cfa
    rw [hcfa] at hold
    apply h.row.setCfa
    · exact fun i => setCfaReg_reg _ _
    · unfold CfaAgrees
      rw [setCfaReg_cfaReg, setCfaReg_cfaOff]
      exact ⟨rfl, toNat_reg hn, hold.2.2⟩
  stack := h.stack

theorem Stands.setCfaOffset (h : Stands s r st) (off : ℤ) {off' : ℤ}
    (hcfa : st.row.cfa = some (.regOffset n off')) :
    Stands s (s.setCfaOff r (.ofInt off)) (st.setCfa (.regOffset n off)) where
  loc := h.loc
  row := by
    have hold := h.row.cfa
    rw [hcfa] at hold
    apply h.row.setCfa
    · exact fun i hi => setCfaOff_reg _ (Nat.lt_succ_of_lt hi)
    · unfold CfaAgrees
      rw [setCfaOff_cfaReg, setCfaOff_cfaOff]
      exact ⟨hold.1, hold.2.1, rfl⟩
  stack := h.stack

theorem Stands.setCfa (h : Stands s r st) (hn : n < s.numRegs) (off : ℤ) :
    Stands s (s.setCfaOff (s.setCfaReg r .reg (.ofNat n)) (.ofInt off))
      (st.setCfa (.regOffset n off)) where
  loc := h.loc
  row := by
    apply h.row.setCfa
    · intro i hi
      rw [setCfaOff_reg _ (Nat.lt_succ_of_lt hi), setCfaReg_reg _ _ hi]
    · unfold CfaAgrees
      rw [setCfaOff_cfaReg, setCfaOff_cfaOff, setCfaReg_cfaReg]
      exact ⟨rfl, toNat_reg hn, rfl⟩
  stack := h.stack

theorem Stands.setCfaExpr (h : Stands s r st) {addr : UInt64} {block : List UInt8}
    (hblock : BlockAt s addr block) :
    Stands s (s.setCfaReg r .expr addr) (st.setCfa (.expression block)) where
  loc := h.loc
  row := by
    apply h.row.setCfa
    · exact fun i => setCfaReg_reg _ _
    · unfold CfaAgrees
      rw [setCfaReg_cfaReg]
      exact ⟨rfl, hblock⟩
  stack := h.stack

theorem Stands.advance (h : Stands s r st) {dci : CieInfo} {t : Table} {delta : UInt64}
    (hdelta : delta.toNat = n) (halign : t.codeAlign = dci.codeAlign.toNat)
    (hfit : r.currIp.toNat + n * dci.codeAlign.toNat < 2 ^ 64) :
    Stands s (r.advance dci delta) (st.advance t n) where
  loc := by
    show (r.currIp + delta * dci.codeAlign).toNat = st.loc + n * t.codeAlign
    rw [UInt64.toNat_add, UInt64.toNat_mul, Nat.add_mod_mod, hdelta, Nat.mod_eq_of_lt hfit, h.loc,
      halign]
  row := h.row
  stack := h.stack

end Update

/-! ## Instructions -/

namespace Space

variable (s : Space) (libref : Libref) (dci : CieInfo)

/-- The source executes an instruction with these operands as the standard says: the registers are
those that it knows, and a location stays below `2 ^ 64`. -/
def FaithfulCfa (r : CfiState) (op : CfaOp) (x y : ℤ) (rest : List UInt8) : Prop :=
  match op with
  | .advanceLoc delta => r.currIp.toNat + delta.toNat * dci.codeAlign.toNat < 2 ^ 64
  | .advanceLoc1 | .advanceLoc2 | .advanceLoc4 =>
    r.currIp.toNat + x.toNat * dci.codeAlign.toNat < 2 ^ 64
  | .setLoc =>
    (s.trim libref.mmapAddr = s.trim libref.txtVaddr ∨ dci.fdeEncoding &&& 0xf0 = 0x40) ∧
      ∀ kind, pointerKind s.addrSize (dci.fdeEncoding &&& 0x0f) = some kind → kind.Short rest
  | .offset reg | .restore reg => reg.toNat < s.numRegs
  | .offsetExtended | .offsetExtendedSf | .gnuNegativeOffsetExtended | .restoreExtended | .undefined
  | .sameValue | .defCfa | .defCfaSf | .defCfaRegister => x.toNat < s.numRegs
  | .register => x.toNat < s.numRegs ∧ y.toNat < s.numRegs
  | .rememberState => r.regStack.length < 16
  | .defCfaExpression => ShortLeb rest
  | .expression | .valExpression => x.toNat < s.numRegs ∧ ShortLeb rest
  | _ => True

/-- A pass does what the standard says: its opcode has a `case`, and its operands at most ten
bytes. -/
def FaithfulInstr (endAddr : UInt64) (x : UInt64 × CfiState) : Prop :=
  let op := CfaOp.decode (s.image x.1)
  let bs := s.block (x.1 + 1) (endAddr.toNat - x.1.toNat - 1)
  op ≠ .unknown ∧ Kind.AllShort (cfaKinds op) bs ∧
    ∀ operand1 operand2 rest, decodeOperands (cfaKinds op) bs = some ((operand1, operand2), rest) →
      s.FaithfulCfa libref dci x.2 op operand1 operand2 rest

end Space

section Instr

variable {s : Space} {libref : Libref} {dci : CieInfo} {initial : RegState} {row : Option Row}
  {endAddr a : UInt64} {r : CfiState} {st st' : TableState} {bs rest : List UInt8} {x y : ℤ}

/-- The state and the position after an instruction, or behind its block. -/
def Follow (s : Space) (endAddr : UInt64) (res : EStateM.Result Halt UInt64 (CfiState × UInt64))
    (st : TableState) : Prop :=
  ∃ r n a, res = .ok (r, n) a ∧ Stands s r st ∧ At s endAddr (a + n) st.rest

theorem Stands.follow {rd : Reader (CfiState × UInt64)} {a' : UInt64} (h : Stands s r st)
    (hr : rd a = .ok (r, 0) a') (hat : At s endAddr a' st.rest) : Follow s endAddr (rd a) st :=
  ⟨r, 0, a', hr, h, by rw [UInt64.add_zero]; exact hat⟩

/-- A register of the machine is read. -/
theorem At.regnum (h : At s endAddr a bs)
    (hdec : decodeOperands [.uleb128] bs = some ((x, y), rest))
    (hshort : Kind.AllShort [.uleb128] bs) (hp : 10 ≤ s.passes) (hx : x.toNat < s.numRegs) :
    ∃ a', s.readUleb128 a = .ok (.ofNat x.toNat) a' ∧ s.readRegnum a = .ok (.ofNat x.toNat) a' ∧
      At s endAddr a' rest := by
  obtain ⟨u, a', hread, hreads, hat⟩ := h.one hdec hshort hp
  obtain ⟨hcheck, rfl⟩ := checkRegnum_ok (a := a') hx hreads
  exact ⟨a', hread, (bind_ok hread).trans hcheck, hat⟩

theorem At.regnumWith {kind : Kind} (h : At s endAddr a bs)
    (hdec : decodeOperands [.uleb128, kind] bs = some ((x, y), rest))
    (hshort : Kind.AllShort [.uleb128, kind] bs) (hp : 10 ≤ s.passes) (hx : x.toNat < s.numRegs) :
    ∃ a1 w a', s.readRegnum a = .ok (.ofNat x.toNat) a1 ∧ s.readKind kind a1 = .ok w a' ∧
      kind.Reads y w ∧ At s endAddr a' rest := by
  obtain ⟨u, a1, w, a', hread, hread', hreads, hreads', hat⟩ := h.two hdec hshort hp
  obtain ⟨hcheck, rfl⟩ := checkRegnum_ok (a := a1) hx hreads
  exact ⟨a1, w, a', (bind_ok hread).trans hcheck, hread', hreads', hat⟩

theorem factored_of_reads {kind : Kind} {v : ℤ} {w : UInt64} (dci : CieInfo)
    (hkind : kind = .uleb128 ∨ kind = .sleb128) (hw : kind.Reads v w) :
    w * dci.dataAlign = .ofInt (v * dci.dataAlign.toInt64.toInt) := by
  rw [reads_ofInt hkind hw, ofInt_factored]

theorem ruleAgrees_offset {kind : Kind} {v : ℤ} {w : UInt64} (dci : CieInfo)
    (hkind : kind = .uleb128 ∨ kind = .sleb128) (hw : kind.Reads v w) :
    RuleAgrees s ⟨.cfarel, w * dci.dataAlign⟩ (.offset (v * dci.dataAlign.toInt64.toInt)) := by
  rw [factored_of_reads dci hkind hw]
  rfl

theorem not_numRegs_le {n : ℕ} (hn : n < s.numRegs) : ¬ UInt64.ofNat s.numRegs ≤ .ofNat n := by
  have hle := numRegs_le (s := s)
  rw [UInt64.le_iff_toNat_le, toNat_ofNat_of_lt (by omega), toNat_ofNat_of_lt (by omega)]
  omega

/-- A location that is read as a pointer. -/
theorem Stands.follow_setLoc (h : Stands s r { st with rest := bs }) (hat : At s endAddr a bs)
    (hp : 10 ≤ s.passes) (hf : s.FaithfulCfa libref dci r .setLoc x y bs)
    (hexec : (s.frameTable libref dci endAddr row).execute .setLoc x y { st with rest := bs } =
      some st') :
    Follow s endAddr (s.cfiExecute libref.pltgot dci initial .setLoc r a) st' := by
  obtain ⟨⟨loc, rest'⟩, hloc, hexec⟩ := Option.bind_eq_some_iff.mp hexec
  obtain ⟨⟨p, rest''⟩, hpointer, heq⟩ := Option.bind_eq_some_iff.mp hloc
  cases heq
  dsimp only at hexec hpointer
  split at hexec
  case isFalse => cases hexec
  case isTrue hlt =>
    cases hexec
    rw [hat.end_sub] at hpointer
    obtain ⟨a', hread, hat⟩ := hat.pointer (pointer_relocate hf.1 hpointer) hf.2 hp
    have hset : Stands s { r with currIp := s.trim (p - libref.mmapAddr + libref.txtVaddr) }
        ⟨rest', (s.trim (p - libref.mmapAddr + libref.txtVaddr)).toNat, st.row, st.stack⟩ :=
      ⟨rfl, h.row, h.stack⟩
    exact hset.follow (bind_ok hread) hat

/-- A register gets its initial rule back. -/
theorem Stands.follow_restore {n : ℕ} (h : Stands s r { st with rest })
    (hat : At s endAddr a rest) (hn : n < s.numRegs)
    (hinitial : ∀ first ∈ row, RowAgrees s initial first)
    (hrestore : TableState.restore { st with rest } (s.frameTable libref dci endAddr row) n =
      some st') :
    Follow s endAddr ((if .ofNat s.numRegs ≤ UInt64.ofNat n then Reader.fail .inval
      else return (r.restoreReg initial (.ofNat n), 0) : Reader (CfiState × UInt64)) a) st' := by
  obtain ⟨hback, hrest⟩ := h.restore hn hinitial hrestore
  have hbehind : At s endAddr a st'.rest := by
    rw [hrest]
    exact hat
  exact hback.follow (congrFun (if_neg (not_numRegs_le hn)) a) hbehind

/-- The row that was remembered last comes back. -/
theorem Stands.follow_restoreState (h : Stands s r { st with rest := bs })
    (hat : At s endAddr a bs)
    (hexec : (s.frameTable libref dci endAddr row).execute .restoreState x y
      { st with rest := bs } = some st') :
    Follow s endAddr (s.cfiExecute libref.pltgot dci initial .restoreState r a) st' := by
  have hstack := h.stack
  cases hsaved : st.stack with
  | nil => simp [Table.execute, hsaved] at hexec
  | cons first stack =>
    simp only [Table.execute, hsaved, Option.some.injEq] at hexec
    subst hexec
    rw [show ({ st with rest := bs } : TableState).stack = first :: stack from hsaved] at hstack
    cases hregs : r.regStack with
    | nil =>
      rw [hregs] at hstack
      cases hstack
    | cons rs regStack =>
      rw [hregs] at hstack
      cases hstack with
      | cons hfirst hothers =>
        have hback : Stands s { r with rs, regStack } ⟨bs, st.loc, first, stack⟩ :=
          ⟨h.loc, hfirst, hothers⟩
        apply hback.follow _ hat
        simp only [Space.cfiExecute, hregs]
        exact rfl

theorem Stands.follow_advance {size : ℕ} (h : Stands s r { st with rest })
    (hat : At s endAddr a bs) (hdec : decodeOperands [.unsigned size] bs = some ((x, y), rest))
    (hshort : Kind.AllShort [.unsigned size] bs) (hp : 10 ≤ s.passes) (hsize : size ≤ 8)
    (hfit : r.currIp.toNat + x.toNat * dci.codeAlign.toNat < 2 ^ 64) :
    Follow s endAddr
      ((do return (r.advance dci (← s.read size), 0) : Reader (CfiState × UInt64)) a)
      (TableState.advance { st with rest } (s.frameTable libref dci endAddr row) x.toNat) := by
  obtain ⟨u, a', hread, hreads, hat⟩ := hat.one hdec hshort hp
  exact (h.advance (reads_toNat hsize hreads) rfl hfit).follow (bind_ok hread) hat

/-- A rule without operands. -/
theorem Stands.follow_rule {saved : DwarfWhere} {rule : Rule} (h : Stands s r { st with rest })
    (hat : At s endAddr a bs) (hdec : decodeOperands [.uleb128] bs = some ((x, y), rest))
    (hshort : Kind.AllShort [.uleb128] bs) (hp : 10 ≤ s.passes) (hx : x.toNat < s.numRegs)
    (hrule : RuleAgrees s ⟨saved, 0⟩ rule) :
    Follow s endAddr
      ((do return (r.setReg (← s.readRegnum) saved 0, 0) : Reader (CfiState × UInt64)) a)
      (TableState.setRule { st with rest } x.toNat rule) := by
  obtain ⟨a', -, hreg, hat⟩ := hat.regnum hdec hshort hp hx
  exact (h.setRule hx hrule).follow (bind_ok hreg) hat

/-- A rule with an operand. -/
theorem Stands.follow_ruleWith {kind : Kind} {saved : DwarfWhere} {rule : Rule}
    {f : UInt64 → UInt64} (h : Stands s r { st with rest }) (hat : At s endAddr a bs)
    (hdec : decodeOperands [.uleb128, kind] bs = some ((x, y), rest))
    (hshort : Kind.AllShort [.uleb128, kind] bs) (hp : 10 ≤ s.passes) (hx : x.toNat < s.numRegs)
    (hrule : ∀ w, kind.Reads y w → RuleAgrees s ⟨saved, f w⟩ rule) :
    Follow s endAddr
      ((do
        let regnum ← s.readRegnum
        let val ← s.readKind kind
        return (r.setReg regnum saved (f val), 0) : Reader (CfiState × UInt64)) a)
      (TableState.setRule { st with rest } x.toNat rule) := by
  obtain ⟨a1, w, a', hreg, hread, hreads, hat⟩ := hat.regnumWith hdec hshort hp hx
  exact (h.setRule hx (hrule w hreads)).follow ((bind_ok hreg).trans (bind_ok hread)) hat

/-- A rule that is a block. -/
theorem Stands.follow_expression {saved : DwarfWhere} {rule : List UInt8 → Rule}
    (h : Stands s r { st with rest }) (hat : At s endAddr a bs)
    (hdec : decodeOperands [.uleb128] bs = some ((x, y), rest))
    (hshort : Kind.AllShort [.uleb128] bs) (hp : 10 ≤ s.passes)
    (hf : x.toNat < s.numRegs ∧ ShortLeb rest)
    (hrule : ∀ addr block, BlockAt s addr block → RuleAgrees s ⟨saved, addr⟩ (rule block))
    (hexec : (do
      let (block, rest) ← decodeBlock rest
      return TableState.setRule { st with rest } x.toNat (rule block)) = some st') :
    Follow s endAddr
      ((do
        let regnum ← s.readRegnum
        let addr ← get
        let n ← s.readUleb128
        return (r.setReg regnum saved addr, n) : Reader (CfiState × UInt64)) a) st' := by
  obtain ⟨⟨block, rest'⟩, hblock, heq⟩ := Option.bind_eq_some_iff.mp hexec
  cases heq
  obtain ⟨a1, -, hreg, hat⟩ := hat.regnum hdec hshort hp hf.1
  obtain ⟨n, a', hread, hdef, hat⟩ := hat.block hblock hf.2 hp
  replace h : Stands s r { st with rest := rest' } := ⟨h.loc, h.row, h.stack⟩
  exact ⟨_, n, a', (bind_ok hreg).trans ((bind_ok rfl).trans (bind_ok hread)),
    h.setRule hf.1 (hrule a1 block hdef), hat⟩

theorem Stands.follow_defCfa {kind : Kind} {f : UInt64 → UInt64} {off : ℤ}
    (h : Stands s r { st with rest }) (hat : At s endAddr a bs)
    (hdec : decodeOperands [.uleb128, kind] bs = some ((x, y), rest))
    (hshort : Kind.AllShort [.uleb128, kind] bs) (hp : 10 ≤ s.passes) (hx : x.toNat < s.numRegs)
    (hoff : ∀ w, kind.Reads y w → f w = .ofInt off) :
    Follow s endAddr
      ((do
        let regnum ← s.readRegnum
        let val ← s.readKind kind
        return (s.setCfaOff (s.setCfaReg r .reg regnum) (f val), 0) :
          Reader (CfiState × UInt64)) a)
      (TableState.setCfa { st with rest } (.regOffset x.toNat off)) := by
  obtain ⟨a1, w, a', hreg, hread, hreads, hat⟩ := hat.regnumWith hdec hshort hp hx
  have hcfa := h.setCfa hx off
  rw [← hoff w hreads] at hcfa
  exact hcfa.follow ((bind_ok hreg).trans (bind_ok hread)) hat

theorem Stands.follow_defCfaOffset {kind : Kind} {f : UInt64 → UInt64} {off : ℤ}
    (h : Stands s r { st with rest }) (hat : At s endAddr a bs)
    (hdec : decodeOperands [kind] bs = some ((x, y), rest))
    (hshort : Kind.AllShort [kind] bs) (hp : 10 ≤ s.passes)
    (hoff : ∀ w, kind.Reads x w → f w = .ofInt off)
    (hexec : (do
      let (reg, _) ← st.row.regOffset
      return TableState.setCfa { st with rest } (.regOffset reg off)) = some st') :
    Follow s endAddr
      ((do return (s.setCfaOff r (f (← s.readKind kind)), 0) : Reader (CfiState × UInt64)) a)
      st' := by
  obtain ⟨⟨n, off'⟩, hcfa, heq⟩ := Option.bind_eq_some_iff.mp hexec
  cases heq
  obtain ⟨w, a', hread, hreads, hat⟩ := hat.one hdec hshort hp
  have hset := h.setCfaOffset off (Row.cfa_of_regOffset hcfa)
  rw [← hoff w hreads] at hset
  exact hset.follow (bind_ok hread) hat

/-- An instruction does to the state of the loop what it does to the table. -/
theorem execute_stands {op : CfaOp} (h : Stands s r st) (hat : At s endAddr a bs)
    (hdec : decodeOperands (cfaKinds op) bs = some ((x, y), rest))
    (hshort : Kind.AllShort (cfaKinds op) bs) (hp : 10 ≤ s.passes)
    (hf : s.FaithfulCfa libref dci r op x y rest)
    (hinitial : ∀ first ∈ row, RowAgrees s initial first)
    (hexec : (s.frameTable libref dci endAddr row).execute op x y { st with rest } = some st') :
    Follow s endAddr (s.cfiExecute libref.pltgot dci initial op r a) st' := by
  replace h : Stands s r { st with rest } := ⟨h.loc, h.row, h.stack⟩
  cases op with
  | advanceLoc delta =>
    cases hdec
    cases hexec
    exact (h.advance (UInt8.toNat_toUInt64 delta) rfl hf).follow rfl hat
  | advanceLoc1 =>
    cases hexec
    exact h.follow_advance hat hdec hshort hp (by decide) hf
  | advanceLoc2 =>
    cases hexec
    exact h.follow_advance hat hdec hshort hp (by decide) hf
  | advanceLoc4 =>
    cases hexec
    exact h.follow_advance hat hdec hshort hp (by decide) hf
  | offset reg =>
    cases hexec
    obtain ⟨w, a', hread, hreads, hat⟩ := hat.one hdec hshort hp
    obtain ⟨hcheck, -⟩ := checkRegnum_ok (a := a) (u := reg.toUInt64) (v := reg.toNat) hf
      ⟨reg.toNat, rfl, toUInt64_eq reg⟩
    have hrule := h.setRule hf (ruleAgrees_offset dci (.inl rfl) hreads)
    exact hrule.follow ((bind_ok hcheck).trans (bind_ok hread)) hat
  | restore reg =>
    cases hdec
    rw [Space.cfiExecute, toUInt64_eq]
    exact h.follow_restore hat hf hinitial hexec
  | restoreExtended =>
    obtain ⟨a', hread, -, hat⟩ := hat.regnum hdec hshort hp hf
    rw [Space.cfiExecute, bind_ok hread]
    exact h.follow_restore hat hf hinitial hexec
  | nop =>
    cases hdec
    cases hexec
    exact h.follow rfl hat
  | setLoc =>
    cases hdec
    exact h.follow_setLoc hat hp hf hexec
  | offsetExtended =>
    cases hexec
    exact h.follow_ruleWith hat hdec hshort hp hf
      fun w hw => ruleAgrees_offset dci (.inl rfl) hw
  | undefined =>
    cases hexec
    exact h.follow_rule hat hdec hshort hp hf rfl
  | sameValue =>
    cases hexec
    exact h.follow_rule hat hdec hshort hp hf rfl
  | register =>
    cases hexec
    obtain ⟨a1, w, a', hreg, hread, hreads, hat⟩ := hat.regnumWith hdec hshort hp hf.1
    obtain ⟨hcheck, -⟩ := checkRegnum_ok (a := a') hf.2 hreads
    have hrule : RuleAgrees s ⟨.reg, .ofNat y.toNat⟩ (.register y.toNat) := ⟨rfl, toNat_reg hf.2⟩
    exact (h.setRule hf.1 hrule).follow
      ((bind_ok hreg).trans ((bind_ok hread).trans (bind_ok hcheck))) hat
  | rememberState =>
    cases hdec
    cases hexec
    have hsave : Stands s { r with regStack := r.rs :: r.regStack }
        ⟨bs, st.loc, st.row, st.row :: st.stack⟩ := ⟨h.loc, h.row, .cons h.row h.stack⟩
    exact hsave.follow (congrFun (if_neg (not_le.mpr hf)) a) hat
  | restoreState =>
    cases hdec
    exact h.follow_restoreState hat hexec
  | defCfa =>
    cases hexec
    exact h.follow_defCfa hat hdec hshort hp hf fun w hw => reads_ofInt (.inl rfl) hw
  | defCfaRegister =>
    obtain ⟨⟨n, off⟩, hcfa, heq⟩ := Option.bind_eq_some_iff.mp hexec
    cases heq
    obtain ⟨a', -, hreg, hat⟩ := hat.regnum hdec hshort hp hf
    exact (h.setCfaRegister hf (Row.cfa_of_regOffset hcfa)).follow (bind_ok hreg) hat
  | defCfaOffset =>
    exact h.follow_defCfaOffset hat hdec hshort hp (fun w hw => reads_ofInt (.inl rfl) hw) hexec
  | defCfaExpression =>
    cases hdec
    obtain ⟨⟨block, rest'⟩, hblock, heq⟩ := Option.bind_eq_some_iff.mp hexec
    cases heq
    obtain ⟨n, a', hread, hdef, hat⟩ := hat.block hblock hf hp
    replace h : Stands s r { st with rest := rest' } := ⟨h.loc, h.row, h.stack⟩
    exact ⟨_, n, a', (bind_ok rfl).trans (bind_ok hread), h.setCfaExpr hdef, hat⟩
  | expression =>
    have hrule (addr : UInt64) (block : List UInt8) (hblock : BlockAt s addr block) :
        RuleAgrees s ⟨.expr, addr⟩ (.expression block) := ⟨rfl, hblock⟩
    exact h.follow_expression hat hdec hshort hp hf hrule hexec
  | offsetExtendedSf =>
    cases hexec
    exact h.follow_ruleWith hat hdec hshort hp hf
      fun w hw => ruleAgrees_offset dci (.inr rfl) hw
  | defCfaSf =>
    cases hexec
    exact h.follow_defCfa hat hdec hshort hp hf fun w hw => factored_of_reads dci (.inr rfl) hw
  | defCfaOffsetSf =>
    exact h.follow_defCfaOffset hat hdec hshort hp
      (fun w hw => factored_of_reads dci (.inr rfl) hw) hexec
  | valExpression =>
    have hrule (addr : UInt64) (block : List UInt8) (hblock : BlockAt s addr block) :
        RuleAgrees s ⟨.valExpr, addr⟩ (.valExpression block) := ⟨rfl, hblock⟩
    exact h.follow_expression hat hdec hshort hp hf hrule hexec
  | gnuArgsSize =>
    cases hexec
    obtain ⟨u, a', hread, -, hat⟩ := hat.one hdec hshort hp
    exact h.follow (bind_ok hread) hat
  | gnuNegativeOffsetExtended =>
    cases hexec
    apply h.follow_ruleWith hat hdec hshort hp hf
    intro w hw
    rw [factored_of_reads dci (.inl rfl) hw, ← UInt64.ofInt_neg]
    rfl
  | mipsAdvanceLoc8 => cases hexec
  | gnuWindowSave => cases hexec
  | loUser => cases hexec
  | hiUser => cases hexec
  | unknown => cases hexec

end Instr

end Mtrace.Dwarf
