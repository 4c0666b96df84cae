import Mtrace.Dwarf.Apply

/-!
# Rules at once

The rules of a row describe the caller in terms of the frame before, so that their order does not
matter.  `apply_reg_state` writes the place of a register before it evaluates the rule of the next,
and gives a register that is saved in another one the register of the innermost frame.
-/

namespace Mtrace.Dwarf

/-- The place that a rule stands for: a register that is saved in another one has its place. -/
def Space.evalRule (s : Space) (cfa : UInt64) (c : Cursor) (i : ℕ) (r : DwarfReg) :
    Except Halt DwarfLoc :=
  match r.saved with
  | .reg => .ok (c.loc r.val.toNat)
  | _ => s.applyRule cfa c i r

/-- The rules are applied at once: the new places are those of the rules in the frame before, and
nothing changes where a rule has none. -/
structure Simultaneous (s : Space) (rs : RegState) (cfa : UInt64) (c : Cursor) : Prop where
  new : ∀ loc : ℕ → DwarfLoc, (∀ i < s.numRegs, s.evalRule cfa c i (rs i) = .ok (loc i)) →
    (∃ c', s.applyRules rs cfa (List.range s.numRegs) c = .ok () c') ∧
      ∀ i < s.numRegs, (cursorOf (s.applyRegState rs c)).loc i = loc i
  kept : ∀ i < s.numRegs, ∀ h, s.evalRule cfa c i (rs i) = .error h →
    (∃ h' c', s.applyRegState rs c = .error h' c') ∧
      ∀ j < s.numRegs, (cursorOf (s.applyRegState rs c)).loc j = c.loc j

/-- The frame before, with the new places of the registers below a number. -/
def Cursor.upTo (c : Cursor) (loc : ℕ → DwarfLoc) (n : ℕ) : Cursor :=
  { c with loc := fun i => if i < n then loc i else c.loc i }

/-- No rule is disturbed by those before it. -/
structure Undisturbed (s : Space) (rs : RegState) (cfa : UInt64) (c : Cursor) : Prop where
  /-- A register that a rule names is still in the register of the innermost frame. -/
  innermost : (∀ i < s.numRegs, ∃ loc, s.evalRule cfa c i (rs i) = .ok loc) →
    ∀ i < s.numRegs, (rs i).saved = .reg → c.loc (rs i).val.toNat = .ofReg (rs i).val
  /-- An expression gives the same in the frame that is half done. -/
  expr : ∀ loc : ℕ → DwarfLoc, (∀ i < s.numRegs, s.evalRule cfa c i (rs i) = .ok (loc i)) →
    ∀ i < s.numRegs, (rs i).saved = .expr ∨ (rs i).saved = .valExpr →
      s.applyRule cfa (c.upTo loc i) i (rs i) = s.applyRule cfa c i (rs i)
  /-- The rules before the first that fails leave their registers where they are. -/
  idle : ∀ i < s.numRegs, (∀ j < i, ∃ loc, s.applyRule cfa c j (rs j) = .ok loc) →
    (∃ h, s.applyRule cfa c i (rs i) = .error h) →
      ∀ j < i, s.applyRule cfa c j (rs j) = .ok (c.loc j)

section

variable {s : Space} {rs : RegState} {cfa : UInt64} {c : Cursor} {loc : ℕ → DwarfLoc}

theorem evalRule_of_ne {i : ℕ} {r : DwarfReg} (h : r.saved ≠ .reg) :
    s.evalRule cfa c i r = s.applyRule cfa c i r := by
  unfold Space.evalRule
  cases hr : r.saved with
  | reg => exact absurd hr h
  | _ => rfl

/-- Only the rules of an expression and of a register look at the places. -/
theorem applyRule_congr {i : ℕ} {r : DwarfReg} {d : Cursor} (hloc : d.loc i = c.loc i)
    (hexpr : r.saved ≠ .expr) (hval : r.saved ≠ .valExpr) :
    s.applyRule cfa d i r = s.applyRule cfa c i r := by
  unfold Space.applyRule
  cases hr : r.saved with
  | same =>
    dsimp only
    rw [hloc]
  | expr => exact absurd hr hexpr
  | valExpr => exact absurd hr hval
  | _ => rfl

theorem upTo_succ (c : Cursor) (loc : ℕ → DwarfLoc) (n : ℕ) :
    (c.upTo loc n).setLoc n (loc n) = c.upTo loc (n + 1) := by
  have hloc : Function.update (c.upTo loc n).loc n (loc n) = (c.upTo loc (n + 1)).loc := by
    funext i
    by_cases hi : i = n
    · rw [hi, Function.update_self]
      exact (if_pos (Nat.lt_succ_self n)).symm
    · rw [Function.update_of_ne hi]
      show (if i < n then loc i else c.loc i) = if i < n + 1 then loc i else c.loc i
      simp only [Nat.lt_succ_iff_lt_or_eq, hi, or_false]
  show { c.upTo loc n with loc := Function.update (c.upTo loc n).loc n (loc n) } = _
  rw [hloc]
  rfl

theorem upTo_self (c : Cursor) (n : ℕ) : c.upTo c.loc n = c := by
  show { c with loc := fun i => if i < n then c.loc i else c.loc i } = c
  simp only [ite_self]

theorem range_split {k n : ℕ} (h : k < n) :
    ∃ rest, List.range n = List.range k ++ k :: rest ∧ k ∉ rest := by
  refine ⟨List.range' (k + 1) (n - k - 1), ?_, ?_⟩
  · have hrest : k :: List.range' (k + 1) (n - k - 1) = List.range' k (n - k) := by
      rw [← List.range'_succ]
      congr 1
      omega
    have happend : List.range' 0 k ++ List.range' (0 + k) (n - k) =
        List.range' 0 (k + (n - k)) := List.range'_append_1
    rw [Nat.zero_add, Nat.add_sub_cancel' h.le] at happend
    rw [hrest, List.range_eq_range', List.range_eq_range', happend]
  · rw [List.mem_range'_1]
    omega

theorem applyRules_append {is js : List ℕ} {d : Cursor}
    (h : s.applyRules rs cfa is c = .ok () d) :
    s.applyRules rs cfa (is ++ js) c = s.applyRules rs cfa js d := by
  induction is generalizing c with
  | nil =>
    cases h
    rfl
  | cons i is ih =>
    cases hi : s.applyRule cfa c i (rs i) with
    | ok l =>
      rw [applyRules_cons_ok hi] at h
      rw [List.cons_append, applyRules_cons_ok hi, ih h]
    | error e =>
      rw [applyRules_cons_error hi] at h
      cases h

/-- The loop, where every rule gives in its turn the place that is expected of it. -/
theorem applyRules_upTo {n : ℕ}
    (h : ∀ i < n, s.applyRule cfa (c.upTo loc i) i (rs i) = .ok (loc i)) :
    s.applyRules rs cfa (List.range n) c = .ok () (c.upTo loc n) := by
  induction n with
  | zero => rfl
  | succ n ih =>
    rw [List.range_succ, applyRules_append (ih fun i hi => h i (Nat.lt_succ_of_lt hi)),
      applyRules_cons_ok (h n (Nat.lt_succ_self n)), upTo_succ]
    rfl

/-- What the loop leaves is what each rule gave in its turn. -/
theorem applyRule_upTo {n : ℕ} {c' : Cursor}
    (h : s.applyRules rs cfa (List.range n) c = .ok () c') (hloc : ∀ i < n, c'.loc i = loc i)
    {k : ℕ} (hk : k < n) : s.applyRule cfa (c.upTo loc k) k (rs k) = .ok (loc k) := by
  induction k using Nat.strong_induction_on with
  | _ k ih =>
    have hbefore : s.applyRules rs cfa (List.range k) c = .ok () (c.upTo loc k) :=
      applyRules_upTo fun i hi => ih i hi (hi.trans hk)
    obtain ⟨rest, hsplit, hrest⟩ := range_split hk
    rw [hsplit, applyRules_append hbefore] at h
    cases hrule : s.applyRule cfa (c.upTo loc k) k (rs k) with
    | error e =>
      rw [applyRules_cons_error hrule] at h
      cases h
    | ok l =>
      rw [applyRules_cons_ok hrule] at h
      have hkept : (cursorOf (s.applyRules rs cfa rest ((c.upTo loc k).setLoc k l))).loc k = _ :=
        applyRules_loc rest _ hrest
      rw [h] at hkept
      rw [Cursor.setLoc_loc, Function.update_self] at hkept
      rw [← hkept]
      exact congrArg Except.ok (hloc k hk)

/-- The loop, up to a rule that fails before anything has changed. -/
theorem applyRules_idle {n k : ℕ} {h : Halt} (hk : k < n)
    (hidle : ∀ j < k, s.applyRule cfa c j (rs j) = .ok (c.loc j))
    (herr : s.applyRule cfa c k (rs k) = .error h) :
    s.applyRules rs cfa (List.range n) c = .error h c := by
  obtain ⟨rest, hsplit, -⟩ := range_split hk
  have hbefore : s.applyRules rs cfa (List.range k) c = .ok () (c.upTo c.loc k) :=
    applyRules_upTo fun j hj => by
      rw [upTo_self]
      exact hidle j hj
  rw [upTo_self] at hbefore
  rw [hsplit, applyRules_append hbefore, applyRules_cons_error herr]

/-- The first rule before `k` that moves its register leaves it moved. -/
theorem applyRules_moved {n k : ℕ} {l : DwarfLoc} (hk : k < n)
    (hidle : ∀ j < k, s.applyRule cfa c j (rs j) = .ok (c.loc j))
    (hrule : s.applyRule cfa c k (rs k) = .ok l) :
    (cursorOf (s.applyRules rs cfa (List.range n) c)).loc k = l := by
  obtain ⟨rest, hsplit, hrest⟩ := range_split hk
  have hbefore : s.applyRules rs cfa (List.range k) c = .ok () (c.upTo c.loc k) :=
    applyRules_upTo fun j hj => by
      rw [upTo_self]
      exact hidle j hj
  rw [upTo_self] at hbefore
  rw [hsplit, applyRules_append hbefore, applyRules_cons_ok hrule, applyRules_loc rest _ hrest,
    Cursor.setLoc_loc, Function.update_self]

/-- The rule of a register is of one of the kinds that the loop gets right by itself, or its
condition gives its place in the frame that is half done. -/
theorem Undisturbed.applyRule (h : Undisturbed s rs cfa c)
    (hall : ∀ i < s.numRegs, s.evalRule cfa c i (rs i) = .ok (loc i)) {i : ℕ} (hi : i < s.numRegs) :
    s.applyRule cfa (c.upTo loc i) i (rs i) = .ok (loc i) := by
  rw [← hall i hi]
  by_cases hreg : (rs i).saved = .reg
  · have hplace := h.innermost (fun j hj => ⟨loc j, hall j hj⟩) i hi hreg
    unfold Space.applyRule Space.evalRule
    rw [hreg]
    dsimp only
    rw [hplace]
  · rw [evalRule_of_ne hreg]
    by_cases hexpr : (rs i).saved = .expr ∨ (rs i).saved = .valExpr
    · exact h.expr loc hall i hi hexpr
    · obtain ⟨hexpr, hval⟩ := not_or.mp hexpr
      have hself : (c.upTo loc i).loc i = c.loc i := if_neg (lt_irrefl i)
      exact applyRule_congr hself hexpr hval

theorem Undisturbed.simultaneous (hcfa : s.rowCfa c rs = .ok cfa) (h : Undisturbed s rs cfa c) :
    Simultaneous s rs cfa c where
  new loc hall := by
    have hloop : s.applyRules rs cfa (List.range s.numRegs) c = .ok () (c.upTo loc s.numRegs) :=
      applyRules_upTo fun i hi => h.applyRule hall hi
    refine ⟨⟨_, hloop⟩, fun i hi => ?_⟩
    rw [applyRegState_loc hcfa, hloop]
    exact if_pos hi
  kept i hi e herr := by
    classical
    have hbad : ∃ k, k < s.numRegs ∧ ∃ e, s.applyRule cfa c k (rs k) = .error e := by
      refine ⟨i, hi, e, ?_⟩
      rw [← evalRule_of_ne fun hreg => ?_]
      · exact herr
      · unfold Space.evalRule at herr
        rw [hreg] at herr
        cases herr
    obtain ⟨hk, e', he'⟩ := Nat.find_spec hbad
    have hfirst : ∀ j < Nat.find hbad, ∃ loc, s.applyRule cfa c j (rs j) = .ok loc := by
      intro j hj
      cases hrule : s.applyRule cfa c j (rs j) with
      | ok loc => exact ⟨loc, rfl⟩
      | error e => exact absurd ⟨hj.trans hk, e, hrule⟩ (Nat.find_min hbad hj)
    have hloop := applyRules_idle hk (h.idle _ hk hfirst ⟨e', he'⟩) he'
    refine ⟨⟨e', c, applyRegState_loop_error hcfa hloop⟩, fun j _ => ?_⟩
    rw [applyRegState_loc hcfa, hloop]
    rfl

theorem Simultaneous.undisturbed (hcfa : s.rowCfa c rs = .ok cfa) (h : Simultaneous s rs cfa c) :
    Undisturbed s rs cfa c := by
  have hgives : ∀ loc : ℕ → DwarfLoc, (∀ i < s.numRegs, s.evalRule cfa c i (rs i) = .ok (loc i)) →
      ∀ i < s.numRegs, s.applyRule cfa (c.upTo loc i) i (rs i) = .ok (loc i) := by
    intro loc hall i hi
    obtain ⟨⟨c', hloop⟩, hnew⟩ := h.new loc hall
    rw [applyRegState_loc hcfa, hloop] at hnew
    exact applyRule_upTo hloop hnew hi
  constructor
  case innermost =>
    intro hall i hi hreg
    choose! loc hloc using hall
    have hrule := hgives loc hloc i hi
    have heval := hloc i hi
    unfold Space.applyRule at hrule
    unfold Space.evalRule at heval
    rw [hreg] at hrule heval
    exact (Except.ok.inj heval).trans (Except.ok.inj hrule).symm
  case expr =>
    intro loc hall i hi hexpr
    have hreg : (rs i).saved ≠ .reg := by
      rintro hreg
      rw [hreg] at hexpr
      cases hexpr with
      | inl hexpr => cases hexpr
      | inr hexpr => cases hexpr
    rw [hgives loc hall i hi, ← hall i hi, evalRule_of_ne hreg]
  case idle =>
    intro k hk hok ⟨e, herr⟩ j hj
    have hreg : (rs k).saved ≠ .reg := by
      intro hreg
      unfold Space.applyRule at herr
      rw [hreg] at herr
      cases herr
    have hkept := (h.kept k hk e ((evalRule_of_ne hreg).trans herr)).2
    rw [applyRegState_loc hcfa] at hkept
    induction j using Nat.strong_induction_on with
    | _ j ih =>
      obtain ⟨l, hl⟩ := hok j hj
      have hmoved := applyRules_moved (hj.trans hk) (fun i hi => ih i hi (hi.trans hj)) hl
      rw [hl, ← hmoved, hkept j (hj.trans hk)]

end

/-- `apply_reg_state` applies the rules of a row at once exactly where no rule is disturbed by those
before it; where the row has no CFA, nothing changes. -/
theorem applyRegState_simultaneous_iff (s : Space) (rs : RegState) (c : Cursor) :
    ((∀ h, s.rowCfa c rs = .error h → s.applyRegState rs c = .error h c) ∧
        ∀ cfa, s.rowCfa c rs = .ok cfa → Simultaneous s rs cfa c) ↔
      ∀ cfa, s.rowCfa c rs = .ok cfa → Undisturbed s rs cfa c := by
  constructor
  · rintro ⟨-, h⟩ cfa hcfa
    exact (h cfa hcfa).undisturbed hcfa
  · intro h
    exact ⟨fun e he => applyRegState_error he, fun cfa hcfa => (h cfa hcfa).simultaneous hcfa⟩

/-- A row whose CFA is 8 above the stack pointer, with `val` as the rule of RBX. -/
def rowOf (val : DwarfReg) : RegState := fun i =>
  if i = 3 then val else if i = 17 then ⟨.reg, 7⟩ else if i = 18 then ⟨.same, 8⟩ else ⟨.same, 0⟩

/-- A frame with RAX on the stack. -/
def innerFrame : Cursor where
  cfa := 0x7000
  ip := 0x400040
  retAddrColumn := 16
  usePrevInstr := true
  valid := true
  libref := none
  dci := .zero
  loc i := if i = 0 then .ofMem 0x6ff0 else .ofReg (.ofNat i)

/-- A task of 64 bits, with an expression of two bytes in an image: `DW_OP_plus_uconst 16`. -/
def oneExpr : Space where
  is64bit := true
  image addr := if addr = 0x10000 then 2 else if addr = 0x10001 then 0x23 else 0x10
  proc _ := some 0
  vm _ _ := .error .enosys
  errno _ := .eio
  nosys := false
  regs _ := 0
  libs := .nil
  passes := 16

/-- RBX is saved in RAX, which is on the stack; it gets RAX of the innermost frame. -/
theorem register_rule_takes_innermost :
    oneExpr.rowCfa innerFrame (rowOf ⟨.reg, 0⟩) = .ok 0x7008 ∧
      oneExpr.evalRule 0x7008 innerFrame 3 (rowOf ⟨.reg, 0⟩ 3) = .ok (.ofMem 0x6ff0) ∧
      (cursorOf (oneExpr.applyRegState (rowOf ⟨.reg, 0⟩) innerFrame)).loc 3 = .ofReg 0 ∧
      ¬ Simultaneous oneExpr (rowOf ⟨.reg, 0⟩) 0x7008 innerFrame := by
  have hcfa : oneExpr.rowCfa innerFrame (rowOf ⟨.reg, 0⟩) = .ok 0x7008 := rfl
  refine ⟨hcfa, rfl, rfl, fun h => ?_⟩
  have hall : ∀ i < oneExpr.numRegs,
      ∃ loc, oneExpr.evalRule 0x7008 innerFrame i (rowOf ⟨.reg, 0⟩ i) = .ok loc := by
    intro i hi
    have hi : i < 17 := hi
    unfold rowOf
    split
    · exact ⟨_, rfl⟩
    · rw [if_neg (Nat.ne_of_lt hi), if_neg (Nat.ne_of_lt (Nat.lt_succ_of_lt hi))]
      exact ⟨_, rfl⟩
  have hplace := (h.undisturbed hcfa).innermost hall 3 (by decide) rfl
  exact absurd hplace (by decide)

/-! ## The CFA of expressions -/

/-- The rule of a register is an expression. -/
def DwarfReg.IsExpr (r : DwarfReg) : Prop := r.saved = .expr ∨ r.saved = .valExpr

/-- `apply_reg_state` evaluates the expression of a register, beginning in the state `e`. -/
def Space.Starts (s : Space) (rs : RegState) (c : Cursor) (e : ExprState) : Prop :=
  ∃ cfa, s.rowCfa c rs = .ok cfa ∧ ∃ i < s.numRegs, ∃ c' endAddr,
    s.applyRules rs cfa (List.range i) c = .ok () c' ∧ (rs i).IsExpr ∧
      s.exprStart c' (rs i).val = .ok (e, endAddr)

/-- An expression begins with the CFA that the step before has left. -/
theorem stack_of_starts {s : Space} {rs : RegState} {c : Cursor} {e : ExprState}
    (h : s.Starts rs c e) : e.stack = [c.cfa] := by
  obtain ⟨cfa, -, i, -, c', endAddr, hloop, -, hstart⟩ := h
  have hsame : (cursorOf (s.applyRules rs cfa (List.range i) c)).cfa = c.cfa := applyRules_cfa _ c
  rw [hloop] at hsame
  unfold Space.exprStart at hstart
  cases hlen : s.readUleb128 (rs i).val with
  | error _ _ =>
    rw [hlen] at hstart
    cases hstart
  | ok len addr =>
    rw [hlen] at hstart
    cases hstart
    exact congrArg (fun x => [x]) hsame

/-- The expressions of a row start from its CFA exactly where that is the CFA of the frame before,
or where no expression of the row is evaluated. -/
theorem starts_from_cfa_iff (s : Space) (rs : RegState) (c : Cursor) :
    (∀ cfa, s.rowCfa c rs = .ok cfa → ∀ e, s.Starts rs c e → e.stack = [cfa]) ↔
      ∀ cfa, s.rowCfa c rs = .ok cfa → cfa = c.cfa ∨ ∀ e, ¬ s.Starts rs c e := by
  refine forall₂_congr fun cfa _ => ?_
  constructor
  · intro h
    by_cases hstarts : ∃ e, s.Starts rs c e
    · obtain ⟨e, he⟩ := hstarts
      have heq : [cfa] = [c.cfa] := (h e he).symm.trans (stack_of_starts he)
      exact .inl (List.singleton_inj.mp heq)
    · exact .inr (not_exists.mp hstarts)
  · rintro (h | h) e he
    · rw [h]
      exact stack_of_starts he
    · exact absurd he (h e)

/-- The frame is of 8 bytes; the expression for RBX begins with the CFA of the frame before. -/
theorem expr_starts_from_old_cfa :
    oneExpr.rowCfa innerFrame (rowOf ⟨.expr, 0x10000⟩) = .ok 0x7008 ∧
      ¬ ∀ e, oneExpr.Starts (rowOf ⟨.expr, 0x10000⟩) innerFrame e → e.stack = [0x7008] := by
  have hcfa : oneExpr.rowCfa innerFrame (rowOf ⟨.expr, 0x10000⟩) = .ok 0x7008 := rfl
  refine ⟨hcfa, fun h => ?_⟩
  have hstarts : oneExpr.Starts (rowOf ⟨.expr, 0x10000⟩) innerFrame ⟨0x10001, 0, 0, [0x7000]⟩ :=
    ⟨0x7008, hcfa, 3, by decide, _, 0x10003, rfl, .inl rfl, rfl⟩
  exact absurd (h _ hstarts) (by decide)

end Mtrace.Dwarf
