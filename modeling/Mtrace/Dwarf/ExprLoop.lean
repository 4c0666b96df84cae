import Mtrace.Machine
import Mtrace.Orbit
import Mtrace.Dwarf.Passes
import Mtrace.Dwarf.Expr

/-!
# The loop over an expression

With enough passes for every number, the loop over an expression is a machine, whose stack stays
small and whose position goes to where the operation leads.  Divisions and shifts are defined for
some words only; the source tests for a part of the others. -/

namespace Mtrace.Dwarf

open Machine

/-- `MAX_EXPR_STACK_SIZE`. -/
def ExprState.Small (e : ExprState) : Prop := e.stack.length ≤ 64

/-- Where an operation leads to, with its operand and the position behind it. -/
def ExprOp.targets (op : ExprOp) (operand1 next : UInt64) : List UInt64 :=
  match op with
  | .skip => [next + Space.sval16 operand1]
  | .bra => [next, next + Space.sval16 operand1]
  | .reg _ | .regx | .other _ | .unknown => []
  | _ => [next]

/-- A loop without end is not a result of its own. -/
def Halt.Final (h : Halt) : Prop := h ≠ .running

/-- A pass that goes on has a small stack, and the result of one that does not is final. -/
def SmallPass : ExprState ⊕ Except Halt DwarfLoc → Prop
  | .inl e => e.Small
  | .inr r => Ends Halt.Final (fun _ => True) r

section Step

variable {s : Space} {c : Cursor} {e : ExprState}

theorem push_ok {x : UInt64} (h : e.stack.length < 64) :
    e.push x = .ok { e with stack := x :: e.stack } := if_pos h

theorem push_ends (e : ExprState) (x : UInt64) :
    Ends Halt.Final (fun e' => e'.Small ∧ e'.addr = e.addr) (e.push x) := by
  unfold ExprState.push
  split
  case isTrue h => exact ⟨h, rfl⟩
  case isFalse => exact fun h => by cases h

theorem pop_ends (h : e.Small) :
    Ends Halt.Final (fun r => r.2.Small ∧ r.2.addr = e.addr ∧ r.2.operand1 = e.operand1) e.pop := by
  unfold ExprState.pop
  unfold ExprState.Small at h
  cases hstack : e.stack with
  | nil => exact fun h => by cases h
  | cons x stack =>
    rw [hstack] at h
    exact ⟨Nat.le_of_succ_le h, rfl, rfl⟩

theorem pick_ends (e : ExprState) (n : UInt64) : Ends Halt.Final (fun _ => True) (e.pick n) := by
  unfold ExprState.pick
  split
  · exact trivial
  · exact fun h => by cases h

theorem access_ends (addr : UInt64) (size : ℕ) :
    Ends Halt.Final (fun _ => True) (s.access addr size) := by
  unfold Space.access
  split
  · exact fun h => by cases h
  · split
    · exact trivial
    · exact fun h => by cases h

theorem getReg_ends (reg : UInt64) : Ends Halt.Final (fun _ => True) (s.getReg c reg) := by
  unfold Space.getReg Space.dwarfGet Space.accessReg
  dsimp only
  split
  · exact fun h => by cases h
  · split
    · exact trivial
    · split
      · exact trivial
      · split
        · split
          · exact trivial
          · exact fun h => by cases h
        · exact access_ends _ _
        · exact trivial

theorem derefSize_ends (addr size : UInt64) :
    Ends Halt.Final (fun _ => True) (s.derefSize addr size) := by
  have hcut (n : ℕ) (cut : UInt64 → UInt64) :
      Ends Halt.Final (fun _ => True) (do return cut (← s.access addr n)) :=
    (access_ends addr n).bind fun _ _ _ => trivial
  unfold Space.derefSize
  split
  · exact access_ends _ _
  split
  · exact access_ends _ _
  split
  · exact hcut 4 (· >>> 8)
  split
  · exact access_ends _ _
  split
  · exact hcut 8 (· &&& _)
  split
  · exact access_ends _ _
  · exact fun h => by cases h

theorem arith_ends (arith : Arith) : Ends Halt.Final (fun _ => True) arith.run := by
  cases arith with
  | div a b =>
    rw [Arith.run]
    split
    · exact fun h => by cases h
    · exact trivial
  | mod a b =>
    rw [Arith.run]
    split
    · exact fun h => by cases h
    · exact trivial
  | shl _ _ => exact trivial
  | shr _ _ => exact trivial
  | sar _ _ => exact trivial

/-- An operation keeps the stack small, goes to where it leads, and does not run on. -/
theorem execute_ends (op : ExprOp) (h : e.Small) :
    Ends Halt.Final (fun r => ∀ e', r = .inl e' →
      e'.Small ∧ e'.addr ∈ op.targets e.operand1 e.addr) (s.execute c op e) := by
  have hpush {op : ExprOp} {e e₀ : ExprState} (x : UInt64)
      (haddr : e.addr ∈ op.targets e₀.operand1 e₀.addr) :
      Ends Halt.Final (fun r => ∀ e' : ExprState, r = .inl e' →
          e'.Small ∧ e'.addr ∈ op.targets e₀.operand1 e₀.addr)
        (do return (.inl (← e.push x) : ExprState ⊕ DwarfLoc)) :=
    (push_ends e x).bind fun e' _ he' _ heq => by
      cases heq
      exact ⟨he'.1, he'.2 ▸ haddr⟩
  have hhere : e.addr ∈ [e.addr] := List.mem_singleton_self _
  unfold Space.execute
  cases op with
  | lit n => exact hpush _ hhere
  | breg n => exact (getReg_ends _).bind fun tmp1 _ _ => hpush _ hhere
  | bregx => exact (getReg_ends _).bind fun tmp1 _ _ => hpush _ hhere
  | reg n => exact fun e' heq => by cases heq
  | regx => exact fun e' heq => by cases heq
  | const op => exact hpush _ hhere
  | deref =>
    exact (pop_ends h).bind fun r _ hr => (access_ends _ _).bind fun tmp2 _ _ =>
      hpush _ (hr.2.1 ▸ hhere)
  | derefSize =>
    exact (pop_ends h).bind fun r _ hr => (derefSize_ends _ _).bind fun tmp2 _ _ =>
      hpush _ (hr.2.1 ▸ hhere)
  | dup => exact (pick_ends e 0).bind fun x _ _ => hpush x hhere
  | drop =>
    exact (pop_ends h).bind fun r _ hr e' heq => by
      cases heq
      exact ⟨hr.1, hr.2.1 ▸ hhere⟩
  | pick => exact (pick_ends e _).bind fun x _ _ => hpush x hhere
  | «over» => exact (pick_ends e 1).bind fun x _ _ => hpush x hhere
  | swap =>
    exact (pop_ends h).bind fun r _ hr => (pop_ends hr.1).bind fun r' _ hr' =>
      (push_ends r'.2 r.1).bind fun e' _ he' =>
        hpush _ ((he'.2.trans (hr'.2.1.trans hr.2.1)) ▸ hhere)
  | rot =>
    exact (pop_ends h).bind fun r _ hr => (pop_ends hr.1).bind fun r' _ hr' =>
      (pop_ends hr'.1).bind fun r'' _ hr'' => (push_ends r''.2 r.1).bind fun e' _ he' =>
        (push_ends e' r''.1).bind fun e'' _ he'' =>
          hpush _ ((he''.2.trans (he'.2.trans (hr''.2.1.trans (hr'.2.1.trans hr.2.1)))) ▸ hhere)
  | unary op => exact (pop_ends h).bind fun r _ hr => hpush _ (hr.2.1 ▸ hhere)
  | binary op =>
    refine (pop_ends h).bind fun r _ hr => (pop_ends hr.1).bind fun r' _ hr' => ?_
    have hstay : r'.2.addr ∈ [e.addr] := (hr'.2.1.trans hr.2.1) ▸ hhere
    dsimp only
    split
    · exact hpush _ hstay
    · exact (arith_ends _).bind fun x _ _ => hpush x hstay
  | skip =>
    intro e' heq
    cases heq
    exact ⟨h, List.mem_singleton_self _⟩
  | bra =>
    refine (pop_ends h).bind fun r _ hr => ?_
    obtain ⟨hsmall, haddr, hoperand⟩ := hr
    dsimp only
    split
    · intro e' heq
      cases heq
      refine ⟨hsmall, ?_⟩
      show r.2.addr + Space.sval16 r.2.operand1 ∈ _
      rw [haddr, hoperand]
      exact List.mem_cons_of_mem _ (List.mem_singleton_self _)
    · intro e' heq
      cases heq
      exact ⟨hsmall, haddr ▸ List.mem_cons_self⟩
  | nop =>
    intro e' heq
    cases heq
    exact ⟨h, hhere⟩
  | other op => exact fun h => by cases h
  | unknown => exact fun h => by cases h

/-! ### Enough passes -/

theorem steady_readOperand (type : OperandType) :
    Steady fun p => (s.withPasses p).readOperand type := by
  cases type with
  | val8 => exact steady_read 1
  | val16 => exact steady_read 2
  | val32 => exact steady_read 4
  | val64 => exact steady_read 8
  | uleb128 => exact steady_readUleb128
  | sleb128 => exact steady_readSleb128
  | offset => exact .const fun a a' h => by cases h
  | addr => exact steady_read s.addrSize

theorem steady_readOperands (types : List OperandType) (operand1 operand2 : UInt64) :
    Steady fun p => (s.withPasses p).readOperands types operand1 operand2 := by
  cases types with
  | nil => exact .pure _
  | cons type1 types =>
    cases types with
    | nil => exact (steady_readOperand type1).bind fun _ => .pure _
    | cons type2 types =>
      exact (steady_readOperand type1).bind fun _ =>
        (steady_readOperand type2).bind fun _ => .pure _

theorem steady_readOp (operand1 operand2 : UInt64) :
    Steady fun p => (s.withPasses p).readOp operand1 operand2 :=
  ((steady_read 1).bind fun _ => .pure _).bind fun _ =>
    (steady_readOperands _ operand1 operand2).bind fun _ => .pure _

theorem execute_withPasses (n : ℕ) (op : ExprOp) :
    (s.withPasses n).execute c op e = s.execute c op e := by
  cases op <;> rfl

theorem fetch_steady {p q : ℕ} (hp : enough ≤ p) (hq : enough ≤ q) (e : ExprState) :
    (s.withPasses p).fetch e = (s.withPasses q).fetch e ∧
      Ends Halt.Final (fun r => r.2.stack = e.stack) ((s.withPasses p).fetch e) := by
  obtain ⟨heq, hrun⟩ := steady_readOp (s := s) e.operand1 e.operand2 p q hp hq e.addr
  unfold Space.fetch
  dsimp only at heq
  rw [← heq]
  refine ⟨rfl, ?_⟩
  dsimp only at hrun
  cases hread : (s.withPasses p).readOp e.operand1 e.operand2 e.addr with
  | ok r addr => exact rfl
  | error h addr =>
    intro hh
    rw [hh] at hread
    exact hrun addr hread

/-- With enough passes for the numbers, a pass of the loop does not depend on their number. -/
theorem exprStep_steady {p q : ℕ} (hp : enough ≤ p) (hq : enough ≤ q) (endAddr : UInt64)
    (e : ExprState) :
    (s.withPasses p).exprStep c endAddr e = (s.withPasses q).exprStep c endAddr e := by
  unfold Space.exprStep
  rw [(fetch_steady hp hq e).1]
  simp only [execute_withPasses]

/-- A pass over an instruction is what its operation comes to. -/
theorem exprStep_ok {endAddr : UInt64} {op : ExprOp} {e' : ExprState} {u : ExprState ⊕ DwarfLoc}
    (hlt : e.addr < endAddr) (hfetch : s.fetch e = .ok (op, e'))
    (hexec : s.execute c op e' = .ok u) :
    s.exprStep c endAddr e = u.map id .ok := by
  unfold Space.exprStep
  rw [if_pos hlt, hfetch]
  dsimp only [bind, Except.bind]
  rw [hexec]
  cases u with
  | inl e'' => rfl
  | inr loc => rfl

theorem exprStep_error {endAddr : UInt64} {h : Halt} (hlt : e.addr < endAddr)
    (herr : s.fetch e = .error h ∨
      ∃ op e', s.fetch e = .ok (op, e') ∧ s.execute c op e' = .error h) :
    s.exprStep c endAddr e = .inr (.error h) := by
  unfold Space.exprStep
  rw [if_pos hlt]
  obtain hfetch | ⟨op, e', hfetch, hexec⟩ := herr
  · rw [hfetch]
    rfl
  · rw [hfetch]
    dsimp only [bind, Except.bind]
    rw [hexec]

theorem exprStep_ends {p : ℕ} (hp : enough ≤ p) (endAddr : UInt64) (h : e.Small) :
    SmallPass ((s.withPasses p).exprStep c endAddr e) := by
  by_cases hlt : e.addr < endAddr
  · have hfinal := (fetch_steady (s := s) hp hp e).2
    cases hfetch : (s.withPasses p).fetch e with
    | error h =>
      rw [hfetch] at hfinal
      rw [exprStep_error hlt (.inl hfetch)]
      exact hfinal
    | ok r =>
      obtain ⟨op, e'⟩ := r
      rw [hfetch] at hfinal
      have hsmall : e'.Small := by
        unfold ExprState.Small
        rw [show e'.stack = e.stack from hfinal]
        exact h
      have hends := execute_ends (s := s.withPasses p) (c := c) op hsmall
      cases hexec : (s.withPasses p).execute c op e' with
      | error h =>
        rw [hexec] at hends
        rw [exprStep_error hlt (.inr ⟨op, e', hfetch, hexec⟩)]
        exact hends
      | ok u =>
        rw [hexec] at hends
        rw [exprStep_ok hlt hfetch hexec]
        cases u with
        | inl e'' => exact (hends e'' rfl).1
        | inr loc => trivial
  · unfold Space.exprStep
    rw [if_neg hlt]
    exact (pop_ends h).bind fun _ _ _ => trivial

/-! ### The loop as a machine -/

theorem exprLoop_eq (endAddr : UInt64) (n : ℕ) (e : ExprState) :
    s.exprLoop c endAddr n e =
      match Orbit.run (s.exprStep c endAddr) n e with
      | .inl _ => .error .running
      | .inr r => r := by
  induction n generalizing e with
  | zero => rfl
  | succ n ih =>
    rw [Space.exprLoop, Orbit.run]
    cases s.exprStep c endAddr e with
    | inl e' => exact ih e'
    | inr r => rfl

theorem small_of_reaches {e' : ExprState} {endAddr : UInt64} (h : e.Small)
    (hreach : Orbit.Reaches ((s.withPasses enough).exprStep c endAddr) e e') : e'.Small := by
  refine Orbit.Reaches.invariant (P := ExprState.Small) (fun x y hx hstep => ?_) h hreach
  have hpass := exprStep_ends (s := s) (c := c) le_rfl endAddr hx
  rw [hstep] at hpass
  exact hpass

theorem exprLoop_ends_iff (endAddr : UInt64) (h : e.Small) :
    (∃ n, ∀ p ≥ n, (s.withPasses p).exprLoop c endAddr p e ≠ .error .running) ↔
      Orbit.Ends ((s.withPasses enough).exprStep c endAddr) e := by
  have hrun {p : ℕ} (hp : enough ≤ p) :
      (s.withPasses p).exprStep c endAddr = (s.withPasses enough).exprStep c endAddr :=
    funext fun e => exprStep_steady hp le_rfl endAddr e
  constructor
  · rintro ⟨n, hn⟩
    have hmax := hn (max n enough) (le_max_left _ _)
    rw [exprLoop_eq, hrun (le_max_right n enough)] at hmax
    cases hres : Orbit.run ((s.withPasses enough).exprStep c endAddr) (max n enough) e with
    | inl e' =>
      rw [hres] at hmax
      exact absurd rfl hmax
    | inr r => exact ⟨_, r, hres⟩
  · rintro ⟨m, r, hm⟩
    obtain ⟨e', hreach, hlast⟩ := Orbit.exists_last hm
    have hfinal := exprStep_ends (s := s) (c := c) le_rfl endAddr (small_of_reaches h hreach)
    rw [hlast] at hfinal
    refine ⟨max m enough, fun p hp heq => ?_⟩
    rw [exprLoop_eq, hrun ((le_max_right m enough).trans hp),
      Orbit.run_of_done hm ((le_max_left m enough).trans hp)] at heq
    have hres : r = .error .running := heq
    rw [hres] at hfinal
    exact hfinal rfl

theorem exprStart_steady {p : ℕ} (hp : enough ≤ p) (addr : UInt64) :
    (s.withPasses p).exprStart c addr = (s.withPasses enough).exprStart c addr ∧
      Ends Halt.Final (fun r => r.1.Small) ((s.withPasses p).exprStart c addr) := by
  obtain ⟨heq, hrun⟩ := steady_readUleb128 (s := s) p enough hp le_rfl addr
  unfold Space.exprStart
  dsimp only at heq hrun
  rw [← heq]
  refine ⟨rfl, ?_⟩
  cases hread : (s.withPasses p).readUleb128 addr with
  | ok len addr' =>
    show [c.cfa].length ≤ 64
    simp
  | error h addr' =>
    intro hh
    rw [hh] at hread
    exact hrun addr' hread

theorem evalExpr_eq {p : ℕ} (hp : enough ≤ p) (c : Cursor) (addr : UInt64) :
    (s.withPasses p).evalExpr c addr =
      (s.withPasses enough).exprStart c addr >>= fun r =>
        (s.withPasses p).exprLoop c r.2 p r.1 := by
  unfold Space.evalExpr
  rw [(exprStart_steady hp addr).1]
  rfl

end Step

/-- The loop over an expression, with enough passes for its numbers. -/
def Space.exprMachine (s : Space) (c : Cursor) (endAddr : UInt64) :
    ExprState → ExprState ⊕ Except Halt DwarfLoc :=
  (s.withPasses enough).exprStep c endAddr

/-- The loop over the expression at `addr` comes to the state `e`. -/
def Space.ExprReaches (s : Space) (c : Cursor) (addr endAddr : UInt64) (e : ExprState) : Prop :=
  ∃ e₀, (s.withPasses enough).exprStart c addr = .ok (e₀, endAddr) ∧
    Orbit.Reaches (s.exprMachine c endAddr) e₀ e

/-- An expression whose length can be read is evaluated by the loop. -/
theorem evalExpr_ends_iff_loop {s : Space} {c : Cursor} {addr endAddr : UInt64} {e₀ : ExprState}
    (hstart : (s.withPasses enough).exprStart c addr = .ok (e₀, endAddr)) :
    (∃ n, ∀ p ≥ n, (s.withPasses p).evalExpr c addr ≠ .error .running) ↔
      Orbit.Ends (s.exprMachine c endAddr) e₀ := by
  have hsmall := (exprStart_steady (s := s) (c := c) le_rfl addr).2
  rw [hstart] at hsmall
  have heval {p : ℕ} (hp : enough ≤ p) : (s.withPasses p).evalExpr c addr =
      (s.withPasses p).exprLoop c endAddr p e₀ := by
    rw [evalExpr_eq hp, hstart]
    rfl
  apply Iff.trans _ (exprLoop_ends_iff endAddr hsmall)
  constructor
  · rintro ⟨n, hn⟩
    refine ⟨max n enough, fun p hp => ?_⟩
    rw [← heval ((le_max_right n enough).trans hp)]
    exact hn p ((le_max_left _ _).trans hp)
  · rintro ⟨n, hn⟩
    refine ⟨max n enough, fun p hp => ?_⟩
    rw [heval ((le_max_right n enough).trans hp)]
    exact hn p ((le_max_left _ _).trans hp)

/-- An image with an expression at 0x10000. -/
def imageOf (bytes : List UInt8) : Space where
  is64bit := true
  image addr := bytes.getD (addr - 0x10000).toNat 0
  proc _ := some 0
  vm _ _ := .error .enosys
  errno _ := .eio
  nosys := false
  regs _ := 0
  libs := .nil
  passes := 16

/-- A cursor with the stack pointer at 0x7000. -/
def firstFrame : Cursor where
  cfa := 0x7000
  ip := 0x400040
  retAddrColumn := 0
  usePrevInstr := false
  valid := true
  libref := none
  dci := .zero
  loc i := .ofReg (.ofNat i)

/-! ## Arithmetic -/

namespace Space

variable (s : Space)

/-- The most negative word. -/
def wordMin : UInt64 := if s.is64bit then 0x8000000000000000 else 0x80000000

/-- The word for -1. -/
def wordOnes : UInt64 := if s.is64bit then 0xffffffffffffffff else 0xffffffff

/-- An operation with these operands is defined on words. -/
def Defined : Arith → Prop
  | .div a b => b ≠ 0 ∧ ¬ (a = s.sword s.wordMin ∧ b = -1)
  | .mod _ b => b ≠ 0
  | .shl _ count | .shr _ count | .sar _ count => count.toNat < s.wordBits

/-- The loop executes an operation on `tmp1`, the top of the stack, and `tmp2`. -/
def Executes (c : Cursor) (addr : UInt64) (op : BinOp) (tmp1 tmp2 : UInt64) : Prop :=
  ∃ endAddr e e' stack, s.ExprReaches c addr endAddr e ∧ e.addr < endAddr ∧
    (s.withPasses enough).fetch e = .ok (.binary op, e') ∧ e'.stack = tmp1 :: tmp2 :: stack

/-- An operation is defined on the operands that the source computes with. -/
def Tame (op : BinOp) (tmp1 tmp2 : UInt64) : Prop :=
  match op with
  | .div =>
    tmp1 = 0 ∨ s.trim tmp1 ≠ 0 ∧ ¬ (s.trim tmp2 = s.wordMin ∧ s.trim tmp1 = s.wordOnes)
  | .shl | .shr | .shra => tmp1.toNat < s.wordBits
  | _ => True

end Space

section Arith

variable {s : Space}

theorem toInt64_inj {x y : UInt64} : x.toInt64 = y.toInt64 ↔ x = y :=
  ⟨fun h => congrArg Int64.toUInt64 h, fun h => congrArg UInt64.toInt64 h⟩

theorem toInt32_inj {x y : UInt32} : x.toInt32 = y.toInt32 ↔ x = y :=
  ⟨fun h => congrArg Int32.toUInt32 h, fun h => congrArg UInt32.toInt32 h⟩

theorem toInt64_toInt32_inj {x y : Int32} : x.toInt64 = y.toInt64 ↔ x = y := by
  refine ⟨fun h => ?_, fun h => congrArg Int32.toInt64 h⟩
  rw [← Int32.toInt32_toInt64 x, h, Int32.toInt32_toInt64]

/-- Words are equal as numbers with a sign if they are equal. -/
theorem sword_inj {x y : UInt64} : s.sword x = s.sword y ↔ s.trim x = s.trim y := by
  unfold Space.sword Space.trim
  split
  · exact toInt64_inj
  · rw [toInt64_toInt32_inj, toInt32_inj, UInt32.toUInt64_inj]

theorem sword_eq_zero {x : UInt64} : s.sword x = 0 ↔ s.trim x = 0 := by
  have hzero : s.sword 0 = 0 := by
    unfold Space.sword
    split <;> rfl
  have htrim : s.trim 0 = 0 := by
    unfold Space.trim
    split <;> rfl
  rw [← hzero, sword_inj, htrim]

theorem sword_eq_ones {x : UInt64} : s.sword x = -1 ↔ s.trim x = s.wordOnes := by
  have hones : s.sword s.wordOnes = -1 := by
    unfold Space.sword Space.wordOnes
    cases s.is64bit <;> rfl
  have htrim : s.trim s.wordOnes = s.wordOnes := by
    unfold Space.trim Space.wordOnes
    cases s.is64bit <;> rfl
  rw [← hones, sword_inj, htrim]

theorem sword_eq_min {x : UInt64} : s.sword x = s.sword s.wordMin ↔ s.trim x = s.wordMin := by
  have htrim : s.trim s.wordMin = s.wordMin := by
    unfold Space.trim Space.wordMin
    cases s.is64bit <;> rfl
  rw [sword_inj, htrim]

/-- What an operation comes to is defined exactly for operands that are tame. -/
theorem defined_iff_tame (op : BinOp) (tmp1 tmp2 : UInt64) :
    (∀ arith, s.binary op tmp1 tmp2 = .inr arith → s.Defined arith) ↔ s.Tame op tmp1 tmp2 := by
  have hone {a : Arith} : (∀ arith, (.inr a : UInt64 ⊕ Arith) = .inr arith → s.Defined arith) ↔
      s.Defined a := ⟨fun h => h a rfl, fun h arith heq => Sum.inr.inj heq ▸ h⟩
  have hnone {x : UInt64} : ∀ arith, (.inl x : UInt64 ⊕ Arith) = .inr arith → s.Defined arith :=
    fun _ heq => by cases heq
  unfold Space.binary Space.Tame
  cases op with
  | div =>
    dsimp only
    by_cases hzero : tmp1 = 0
    · rw [if_neg (not_not.mpr hzero)]
      exact iff_of_true hnone (.inl hzero)
    · rw [if_pos hzero, hone, or_iff_right hzero]
      show ¬ s.sword tmp1 = 0 ∧ ¬ (s.sword tmp2 = s.sword s.wordMin ∧ s.sword tmp1 = -1) ↔ _
      rw [sword_eq_zero, sword_eq_min, sword_eq_ones]
  | mod =>
    dsimp only
    by_cases hzero : tmp1 = 0
    · rw [if_neg (not_not.mpr hzero)]
      exact iff_of_true hnone trivial
    · rw [if_pos hzero, hone]
      exact iff_of_true hzero trivial
  | mul =>
    dsimp only
    split <;> exact iff_of_true hnone trivial
  | shl => exact hone
  | shr => exact hone
  | shra => exact hone
  | _ => exact iff_of_true hnone trivial

end Arith

end Mtrace.Dwarf
