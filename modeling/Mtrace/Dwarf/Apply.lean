import Mtrace.Dwarf.Expr

/-!
# The frame of a row

`apply_reg_state`: from the rules of a row, the CFA and the places of the registers in the frame of
the caller.  The rules are applied one after the other, and each sees the places that those before
it have set. -/

namespace Mtrace.Dwarf

/-- `enum dwarf_where`. -/
inductive DwarfWhere where
  | undef
  | same
  | cfarel
  | reg
  | expr
  | valExpr
  deriving DecidableEq, Repr

/-- `struct dwarf_reg`. -/
structure DwarfReg where
  saved : DwarfWhere
  val : UInt64
  deriving DecidableEq, Repr

/-- `struct dwarf_reg_state`: the rules of the registers, then the two columns of the CFA. -/
abbrev RegState := ℕ → DwarfReg

/-- What works on the cursor; where it fails, the cursor stays as far as it got. -/
abbrev Unwinder := EStateM Halt Cursor

/-- The cursor that is left. -/
def cursorOf {α : Type} : EStateM.Result Halt Cursor α → Cursor
  | .ok _ c => c
  | .error _ c => c

/-- A result that does not touch the cursor. -/
def Unwinder.ofExcept {α : Type} (r : Except Halt α) : Unwinder α :=
  match r with
  | .ok a => pure a
  | .error h => throw h

namespace Space

variable (s : Space)

/-- `DWARF_CFA_REG_COLUMN`. -/
def cfaRegColumn : ℕ := s.numRegs

/-- `DWARF_CFA_OFF_COLUMN`. -/
def cfaOffColumn : ℕ := s.numRegs + 1

/-- The CFA of a row. -/
def rowCfa (c : Cursor) (rs : RegState) : Except Halt UInt64 :=
  match (rs s.cfaRegColumn).saved with
  | .reg => do
    let reg := (rs s.cfaRegColumn).val
    -- the stack pointer of the frame is its CFA
    let cfa ←
      if reg = .ofNat s.retReg ∧ (rs s.retReg).saved = .same then pure c.cfa else s.getReg c reg
    return cfa + (rs s.cfaOffColumn).val
  | .expr => do
    let loc ← s.evalExpr c (rs s.cfaRegColumn).val
    if loc.type = .reg then .error (.error .badFrame) else return loc.val
  | _ => .error (.crash "assert")

/-- The place that the rule of a register gives. -/
def applyRule (cfa : UInt64) (c : Cursor) (i : ℕ) (r : DwarfReg) : Except Halt DwarfLoc :=
  match r.saved with
  | .undef => .ok .null
  | .same => .ok (c.loc i)
  | .cfarel => .ok (.ofMem (cfa + r.val))
  | .reg => .ok (.ofReg r.val)
  | .expr => s.evalExpr c r.val
  | .valExpr => do return .ofVal (← s.evalExpr c r.val).val

/-- The loop of `apply_reg_state`, over registers. -/
def applyRules (rs : RegState) (cfa : UInt64) : List ℕ → Unwinder Unit
  | [] => return ()
  | i :: is => do
    let loc ← Unwinder.ofExcept (s.applyRule cfa (← get) i (rs i))
    modify fun c => c.setLoc i loc
    applyRules rs cfa is

/-- The instruction pointer of the caller; an undefined one means the end of the stack. -/
def callerIp (c : Cursor) : Except Halt UInt64 :=
  let loc := c.loc c.retAddrColumn.toNat
  if loc = .null then .ok 0 else s.dwarfGet loc

/-- The end of `apply_reg_state`. -/
def finishFrame (prevIp prevCfa cfa : UInt64) : Unwinder Unit := do
  modify fun c => { c with cfa }
  let ip ← Unwinder.ofExcept (s.callerIp (← get))
  modify fun c => { c with ip }
  if ip = prevIp ∧ cfa = prevCfa then throw (.error .badFrame)

/-- `apply_reg_state`. -/
def applyRegState (rs : RegState) : Unwinder Unit := do
  let c ← get
  let cfa ← Unwinder.ofExcept (s.rowCfa c rs)
  s.applyRules rs cfa (List.range s.numRegs)
  s.finishFrame c.ip c.cfa cfa

end Space

/-! ## The loop over the registers -/

section Loop

variable {s : Space} {rs : RegState} {cfa : UInt64} {c : Cursor} {i : ℕ} {is : List ℕ}

theorem applyRules_cons_ok {loc : DwarfLoc} (h : s.applyRule cfa c i (rs i) = .ok loc) :
    s.applyRules rs cfa (i :: is) c = s.applyRules rs cfa is (c.setLoc i loc) := by
  rw [Space.applyRules]
  show EStateM.bind get _ c = _
  unfold EStateM.bind
  show (Unwinder.ofExcept (s.applyRule cfa c i (rs i)) >>= _) c = _
  rw [h]
  rfl

theorem applyRules_cons_error {h : Halt} (herr : s.applyRule cfa c i (rs i) = .error h) :
    s.applyRules rs cfa (i :: is) c = .error h c := by
  rw [Space.applyRules]
  show EStateM.bind get _ c = _
  unfold EStateM.bind
  show (Unwinder.ofExcept (s.applyRule cfa c i (rs i)) >>= _) c = _
  rw [herr]
  rfl

/-- Nothing but the places changes. -/
theorem applyRules_cfa (is : List ℕ) (c : Cursor) :
    (cursorOf (s.applyRules rs cfa is c)).cfa = c.cfa := by
  induction is generalizing c with
  | nil => rfl
  | cons i is ih =>
    cases h : s.applyRule cfa c i (rs i) with
    | ok loc => rw [applyRules_cons_ok h, ih, Cursor.setLoc_cfa]
    | error e => rw [applyRules_cons_error h]; rfl

/-- The places of other registers stay. -/
theorem applyRules_loc {j : ℕ} (is : List ℕ) (c : Cursor) (hj : j ∉ is) :
    (cursorOf (s.applyRules rs cfa is c)).loc j = c.loc j := by
  induction is generalizing c with
  | nil => rfl
  | cons i is ih =>
    obtain ⟨hji, hjs⟩ := List.ne_and_not_mem_of_not_mem_cons hj
    cases h : s.applyRule cfa c i (rs i) with
    | ok loc => rw [applyRules_cons_ok h, ih _ hjs, Cursor.setLoc_loc, Function.update_of_ne hji]
    | error e => rw [applyRules_cons_error h]; rfl

theorem finishFrame_eq (prevIp prevCfa : UInt64) (c : Cursor) :
    s.finishFrame prevIp prevCfa cfa c =
      match s.callerIp { c with cfa } with
      | .ok ip =>
        if ip = prevIp ∧ cfa = prevCfa then .error (.error .badFrame) { c with cfa, ip }
        else .ok () { c with cfa, ip }
      | .error h => .error h { c with cfa } := by
  show (Unwinder.ofExcept (s.callerIp { c with cfa }) >>= _) { c with cfa } = _
  cases s.callerIp { c with cfa } with
  | ok ip =>
    by_cases hsame : ip = prevIp ∧ cfa = prevCfa
    · dsimp only
      rw [if_pos hsame]
      show (if _ then _ else _ : Unwinder Unit) { c with cfa, ip } = _
      rw [if_pos hsame]
      rfl
    · dsimp only
      rw [if_neg hsame]
      show (if _ then _ else _ : Unwinder Unit) { c with cfa, ip } = _
      rw [if_neg hsame]
      rfl
  | error h => rfl

theorem finishFrame_loc (prevIp prevCfa : UInt64) (c : Cursor) :
    (cursorOf (s.finishFrame prevIp prevCfa cfa c)).loc = c.loc := by
  rw [finishFrame_eq]
  cases s.callerIp { c with cfa } with
  | ok ip =>
    dsimp only
    split <;> rfl
  | error h => rfl

theorem applyRegState_error {h : Halt} (hcfa : s.rowCfa c rs = .error h) :
    s.applyRegState rs c = .error h c := by
  show (Unwinder.ofExcept (s.rowCfa c rs) >>= _) c = _
  rw [hcfa]
  rfl

theorem applyRegState_loop_error {h : Halt} {d : Cursor} (hcfa : s.rowCfa c rs = .ok cfa)
    (hloop : s.applyRules rs cfa (List.range s.numRegs) c = .error h d) :
    s.applyRegState rs c = .error h d := by
  show (Unwinder.ofExcept (s.rowCfa c rs) >>= _) c = _
  rw [hcfa]
  show EStateM.bind (s.applyRules rs cfa (List.range s.numRegs)) _ c = _
  unfold EStateM.bind
  rw [hloop]

/-- The places after `apply_reg_state` are those after its loop. -/
theorem applyRegState_loc (hcfa : s.rowCfa c rs = .ok cfa) :
    (cursorOf (s.applyRegState rs c)).loc =
      (cursorOf (s.applyRules rs cfa (List.range s.numRegs) c)).loc := by
  show (cursorOf ((Unwinder.ofExcept (s.rowCfa c rs) >>= _) c)).loc = _
  rw [hcfa]
  show (cursorOf (EStateM.bind (s.applyRules rs cfa (List.range s.numRegs)) _ c)).loc = _
  unfold EStateM.bind
  cases s.applyRules rs cfa (List.range s.numRegs) c with
  | ok _ d => exact finishFrame_loc c.ip c.cfa d
  | error h d => rfl

end Loop

end Mtrace.Dwarf
