import Mtrace.Dwarf.ExprLoop

/-!
# Where an expression leads

The positions that the loop over an expression can get to, as its bytes alone have it: behind each
operation, and to where `DW_OP_skip` and `DW_OP_bra` lead.

1. The evaluation ends if no way leads around a circle.  It does not if `DW_OP_skip` and `DW_OP_nop`
   lead to one, and around it (`evalExpr_ends_by_flow`).
2. Divisions and shifts are defined if each stands directly behind a constant that suits any word
   below it.  They are not behind two constants that do not suit one another
   (`arith_defined_by_constants`).
-/

namespace Mtrace.Dwarf

open Machine Relation

namespace Space

variable (s : Space)

/-- The operation at a position, with its first operand and the position behind it. -/
def exprAt (x : UInt64) : Option (ExprOp × UInt64 × UInt64) :=
  match (s.withPasses enough).readOp 0 0 x with
  | .ok (op, operand1, _) next => some (op, operand1, next)
  | .error _ _ => none

/-- The positions that a pass at `x` may lead to. -/
def nexts (endAddr x : UInt64) : List UInt64 :=
  if x < endAddr then (s.exprAt x).elim [] fun (op, operand1, next) =>
    op.targets operand1 next else []

def Leads (endAddr x y : UInt64) : Prop := y ∈ s.nexts endAddr x

/-- `DW_OP_skip` and `DW_OP_nop` alone lead on from `x` to `y`. -/
def LeadsIdly (endAddr x y : UInt64) : Prop :=
  x < endAddr ∧ ∃ operand1 next, s.exprAt x = some (.nop, operand1, next) ∧ y = next ∨
    s.exprAt x = some (.skip, operand1, next) ∧ y = next + sval16 operand1

/-- The expression behind the length at `addr`, from its first position to its end. -/
def IsExpr (addr a endAddr : UInt64) : Prop :=
  ∃ len, (s.withPasses enough).readUleb128 addr = .ok len a ∧ endAddr = a + len

/-- No way through the expression leads around a circle. -/
def Acyclic (addr : UInt64) : Prop :=
  ∀ a endAddr, s.IsExpr addr a endAddr → ∀ x, ReflTransGen (s.Leads endAddr) a x →
    ¬ TransGen (s.Leads endAddr) x x

/-- The expression leads idly to a circle, and idly around it. -/
def Circles (addr : UInt64) : Prop :=
  ∃ a endAddr, s.IsExpr addr a endAddr ∧ ∃ x, ReflTransGen (s.LeadsIdly endAddr) a x ∧
    TransGen (s.LeadsIdly endAddr) x x

/-- The constant that the operation at a position pushes. -/
def constAt (x : UInt64) : Option UInt64 :=
  match s.exprAt x with
  | some (.lit n, _, _) => some n.toUInt64
  | some (.const op, operand1, _) =>
    if op = .constu ∨ op = .consts then none else some (const op operand1)
  | _ => none

/-- A divisor, or a count, that suits any other word. -/
def Suits (op : BinOp) (tmp1 : UInt64) : Prop :=
  match op with
  | .div => tmp1 = 0 ∨ s.trim tmp1 ≠ 0 ∧ s.trim tmp1 ≠ s.wordOnes
  | .shl | .shr | .shra => tmp1.toNat < s.wordBits
  | _ => True

/-- Each division and each shift of the expression stands behind a constant that suits it. -/
def Guarded (addr : UInt64) : Prop :=
  ∀ a endAddr, s.IsExpr addr a endAddr → ∀ x y, ReflTransGen (s.Leads endAddr) a x →
    s.Leads endAddr x y → ∀ op operand1 next, s.exprAt y = some (.binary op, operand1, next) →
      op ∈ ([.div, .shl, .shr, .shra] : List BinOp) → ∃ tmp1 ∈ s.constAt x, s.Suits op tmp1

/-- The expression begins with an operation on two constants. -/
def Begins (addr : UInt64) (op : BinOp) (tmp1 tmp2 : UInt64) : Prop :=
  ∃ a endAddr x y operand1 next, s.IsExpr addr a endAddr ∧ s.constAt a = some tmp2 ∧
    s.Leads endAddr a x ∧ s.constAt x = some tmp1 ∧ s.Leads endAddr x y ∧ y < endAddr ∧
    s.exprAt y = some (.binary op, operand1, next)

end Space

/-! ## Passes -/

section Passes

variable {s : Space} {c : Cursor} {addr a endAddr x : UInt64} {e e' : ExprState} {op : ExprOp}
  {operand1 next v : UInt64}

/-- What an operation leads to does not depend on an operand that it does not have. -/
theorem targets_of_operands (hv : op.operands ≠ [] → v = operand1) :
    op.targets v next = op.targets operand1 next := by
  cases op with
  | skip => rw [hv (by decide)]
  | bra => rw [hv (by decide)]
  | _ => rfl

/-- What stood in the operands before is read again only where an operation has none. -/
theorem readOperands_ok {types : List OperandType} {o1 o2 : UInt64} {r : UInt64 × UInt64}
    (h : s.readOperands types o1 o2 x = .ok r next) (p1 p2 : UInt64) :
    ∃ r', s.readOperands types p1 p2 x = .ok r' next ∧ (types ≠ [] → r'.1 = r.1) := by
  match types with
  | [] =>
    cases h
    exact ⟨(p1, p2), rfl, fun hne => absurd rfl hne⟩
  | [type] =>
    obtain ⟨w, x', hread, h⟩ := bind_eq_ok.mp h
    cases h
    exact ⟨(w, p2), bind_eq_ok.mpr ⟨w, _, hread, rfl⟩, fun _ => rfl⟩
  | type1 :: type2 :: _ =>
    obtain ⟨w1, x1, hread1, h⟩ := bind_eq_ok.mp h
    obtain ⟨w2, x2, hread2, h⟩ := bind_eq_ok.mp h
    cases h
    exact ⟨(w1, w2), bind_eq_ok.mpr ⟨w1, x1, hread1, bind_eq_ok.mpr ⟨w2, _, hread2, rfl⟩⟩,
      fun _ => rfl⟩

theorem readOp_ok {o1 o2 : UInt64} {r : UInt64 × UInt64} (h : s.readOp o1 o2 x = .ok (op, r) next)
    (p1 p2 : UInt64) :
    ∃ r', s.readOp p1 p2 x = .ok (op, r') next ∧ (op.operands ≠ [] → r'.1 = r.1) := by
  obtain ⟨byte, x1, hbyte, h⟩ := bind_eq_ok.mp h
  obtain ⟨r, _, hoperands, heq⟩ := bind_eq_ok.mp h
  cases heq
  obtain ⟨r', hread, hsame⟩ := readOperands_ok hoperands p1 p2
  exact ⟨r', bind_eq_ok.mpr ⟨byte, x1, hbyte, bind_eq_ok.mpr ⟨r', _, hread, rfl⟩⟩, hsame⟩

/-- A pass reads the operation at its position. -/
theorem opAt_of_fetch (h : (s.withPasses enough).fetch e = .ok (op, e')) :
    ∃ v, s.exprAt e.addr = some (op, v, e'.addr) ∧ (op.operands ≠ [] → v = e'.operand1) ∧
      e'.stack = e.stack := by
  unfold Space.fetch at h
  cases hread : (s.withPasses enough).readOp e.operand1 e.operand2 e.addr with
  | error halt addr =>
    rw [hread] at h
    cases h
  | ok r addr =>
    obtain ⟨op', r⟩ := r
    rw [hread] at h
    cases h
    obtain ⟨r', hread', hsame⟩ := readOp_ok hread 0 0
    refine ⟨r'.1, ?_, hsame, rfl⟩
    unfold Space.exprAt
    rw [hread']

/-- The operation at a position is read by a pass there. -/
theorem fetch_of_opAt (h : s.exprAt e.addr = some (op, v, next)) :
    ∃ e', (s.withPasses enough).fetch e = .ok (op, e') ∧ e'.addr = next ∧ e'.stack = e.stack ∧
      (op.operands ≠ [] → e'.operand1 = v) := by
  unfold Space.exprAt at h
  cases hread : (s.withPasses enough).readOp 0 0 e.addr with
  | error halt addr =>
    rw [hread] at h
    cases h
  | ok r addr =>
    obtain ⟨op', r⟩ := r
    rw [hread] at h
    cases h
    obtain ⟨r', hread', hsame⟩ := readOp_ok hread e.operand1 e.operand2
    refine ⟨⟨next, r'.1, r'.2, e.stack⟩, ?_, rfl, rfl, hsame⟩
    unfold Space.fetch
    rw [hread']

/-- A pass that goes on executes an operation. -/
theorem exists_of_pass (h : s.exprMachine c endAddr e = .inl e') :
    e.addr < endAddr ∧ ∃ op e₁, (s.withPasses enough).fetch e = .ok (op, e₁) ∧
      (s.withPasses enough).execute c op e₁ = .ok (.inl e') := by
  unfold Space.exprMachine Space.exprStep at h
  split at h
  case isFalse =>
    cases h
  case isTrue hlt =>
    refine ⟨hlt, ?_⟩
    cases hfetch : (s.withPasses enough).fetch e with
    | error halt =>
      rw [hfetch] at h
      cases h
    | ok r =>
      obtain ⟨op, e₁⟩ := r
      refine ⟨op, e₁, rfl, ?_⟩
      rw [hfetch] at h
      cases hexec : (s.withPasses enough).execute c op e₁ with
      | error halt =>
        rw [show (Except.ok (op, e₁) >>= fun x => (s.withPasses enough).execute c x.1 x.2) =
          (s.withPasses enough).execute c op e₁ from rfl, hexec] at h
        cases h
      | ok u =>
        rw [show (Except.ok (op, e₁) >>= fun x => (s.withPasses enough).execute c x.1 x.2) =
          (s.withPasses enough).execute c op e₁ from rfl, hexec] at h
        cases u with
        | inl e'' =>
          cases h
          rfl
        | inr loc => cases h

/-- A pass goes where the operation at its position leads. -/
theorem leads_of_pass (hsmall : e.Small) (h : s.exprMachine c endAddr e = .inl e') :
    s.Leads endAddr e.addr e'.addr := by
  obtain ⟨hlt, op, e₁, hfetch, hexec⟩ := exists_of_pass h
  obtain ⟨v, hop, hv, hstack⟩ := opAt_of_fetch hfetch
  have hsmall₁ : e₁.Small := by
    unfold ExprState.Small
    rw [hstack]
    exact hsmall
  have htarget := ((execute_ends (c := c) op hsmall₁).ok hexec e' rfl).2
  unfold Space.Leads Space.nexts
  rw [if_pos hlt, hop]
  rw [← targets_of_operands hv] at htarget
  exact htarget

/-- What an operation leads to idly is where a pass goes. -/
theorem pass_of_leadsIdly (h : s.LeadsIdly endAddr e.addr x) :
    ∃ e', s.exprMachine c endAddr e = .inl e' ∧ e'.addr = x := by
  obtain ⟨hlt, v, next, ⟨hop, rfl⟩ | ⟨hop, rfl⟩⟩ := h
  · obtain ⟨e₁, hfetch, haddr, -, -⟩ := fetch_of_opAt hop
    exact ⟨e₁, exprStep_ok hlt hfetch rfl, haddr⟩
  · obtain ⟨e₁, hfetch, haddr, -, hv⟩ := fetch_of_opAt hop
    refine ⟨_, exprStep_ok hlt hfetch rfl, ?_⟩
    show e₁.addr + Space.sval16 e₁.operand1 = _
    rw [haddr, hv (by decide)]

/-- A pass over a constant pushes it. -/
theorem pass_of_constAt (hlt : e.addr < endAddr) (h : s.constAt e.addr = some v) :
    ∃ e₁ : ExprState, s.nexts endAddr e.addr = [e₁.addr] ∧ e₁.stack = e.stack ∧
      s.exprMachine c endAddr e =
        match e₁.push v with
        | .ok e' => .inl e'
        | .error halt => .inr (.error halt) := by
  have hpass {op : ExprOp} {e₁ e₂ : ExprState}
      (hfetch : (s.withPasses enough).fetch e = .ok (op, e₁))
      (hexec : (s.withPasses enough).execute c op e₁ = do return .inl (← e₂.push v)) :
      s.exprMachine c endAddr e =
        match e₂.push v with
        | .ok e' => .inl e'
        | .error halt => .inr (.error halt) := by
    unfold Space.exprMachine
    cases hpush : e₂.push v with
    | ok e' =>
      rw [hpush] at hexec
      exact exprStep_ok hlt hfetch hexec
    | error halt =>
      rw [hpush] at hexec
      exact exprStep_error hlt (.inr ⟨op, e₁, hfetch, hexec⟩)
  have hnexts {op : ExprOp} {operand1 next : UInt64}
      (hop : s.exprAt e.addr = some (op, operand1, next))
      (htargets : op.targets operand1 next = [next]) : s.nexts endAddr e.addr = [next] := by
    unfold Space.nexts
    rw [if_pos hlt, hop]
    exact htargets
  unfold Space.constAt at h
  split at h
  case h_1 n operand1 next hop =>
    cases h
    obtain ⟨e₁, hfetch, rfl, hstack, -⟩ := fetch_of_opAt hop
    exact ⟨e₁, hnexts hop rfl, hstack, hpass hfetch rfl⟩
  case h_2 op operand1 next hop =>
    split at h
    case isTrue => cases h
    case isFalse hne =>
      cases h
      obtain ⟨e₁, hfetch, rfl, hstack, hv⟩ := fetch_of_opAt hop
      have hoperand : e₁.operand1 = operand1 := hv fun hnil => hne (by
        cases op with
        | constu => exact .inl rfl
        | consts => exact .inr rfl
        | _ => cases hnil)
      refine ⟨{ e₁ with operand1 := Space.const op operand1 }, hnexts hop rfl, hstack,
        hpass hfetch ?_⟩
      rw [← hoperand]
      rfl
  case h_3 => cases h

/-- What stands on the stack behind a pass over a constant. -/
theorem stack_of_constAt (h : s.constAt e.addr = some v)
    (hpass : s.exprMachine c endAddr e = .inl e') : e'.stack = v :: e.stack := by
  obtain ⟨hlt, -⟩ := exists_of_pass hpass
  obtain ⟨e₁, -, hstack, heq⟩ := pass_of_constAt (c := c) hlt h
  rw [hpass] at heq
  unfold ExprState.push at heq
  split at heq
  case h_1 e₂ hpush =>
    cases heq
    split at hpush
    case isTrue =>
      cases hpush
      exact congrArg _ hstack
    case isFalse => cases hpush
  case h_2 => cases heq

/-- The loop gets from the first position of the expression along the ways through it. -/
theorem leads_of_reaches {e₀ : ExprState} (hsmall : e₀.Small)
    (h : Orbit.Reaches (s.exprMachine c endAddr) e₀ e) :
    e.Small ∧ ReflTransGen (s.Leads endAddr) e₀.addr e.addr := by
  refine Orbit.Reaches.invariant (P := fun e : ExprState =>
    e.Small ∧ ReflTransGen (s.Leads endAddr) e₀.addr e.addr) ?_ ⟨hsmall, .refl⟩ h
  rintro y z ⟨hy, hway⟩ hpass
  exact ⟨small_of_reaches hy (.one hpass), hway.tail (leads_of_pass hy hpass)⟩

/-- The expression begins at its first position, with the CFA on the stack. -/
theorem isExpr_iff_start : (s.withPasses enough).exprStart c addr = .ok (e, endAddr) ↔
    s.IsExpr addr e.addr endAddr ∧ e = ⟨e.addr, 0, 0, [c.cfa]⟩ := by
  unfold Space.exprStart Space.IsExpr
  cases hread : (s.withPasses enough).readUleb128 addr with
  | error h addr' => exact iff_of_false (fun h => by cases h) fun ⟨⟨_, h, _⟩, _⟩ => by cases h
  | ok len a =>
    constructor
    · intro h
      cases h
      exact ⟨⟨len, rfl, rfl⟩, rfl⟩
    · rintro ⟨⟨_, heq, rfl⟩, he⟩
      cases heq
      dsimp only
      rw [he]

end Passes

/-! ## Whether the evaluation ends -/

section Ends

variable {s : Space} {c : Cursor} {addr endAddr x : UInt64} {e : ExprState}

theorem finite_word : Finite UInt64 :=
  .of_injective UInt64.toFin fun _ _ => UInt64.toFin_inj.mp

/-- Where no length can be read, there is no loop. -/
theorem evalExpr_of_start_error {h : Halt}
    (hstart : (s.withPasses enough).exprStart c addr = .error h)
    {p : ℕ} (hp : enough ≤ p) : (s.withPasses p).evalExpr c addr ≠ .error .running := by
  obtain ⟨-, hfinal⟩ := exprStart_steady (s := s) (c := c) le_rfl addr
  rw [hstart] at hfinal
  rw [evalExpr_eq hp, hstart]
  intro heq
  cases heq
  exact hfinal rfl

theorem ends_of_acyclic (h : s.Acyclic addr) (c : Cursor) :
    ∃ n, ∀ p ≥ n, (s.withPasses p).evalExpr c addr ≠ .error .running := by
  obtain ⟨-, hfinal⟩ := exprStart_steady (s := s) (c := c) le_rfl addr
  cases hstart : (s.withPasses enough).exprStart c addr with
  | error halt => exact ⟨enough, fun p hp => evalExpr_of_start_error hstart hp⟩
  | ok r =>
    obtain ⟨e₀, endAddr⟩ := r
    rw [hstart] at hfinal
    have hfinite := finite_word
    refine (evalExpr_ends_iff_loop hstart).mpr (Orbit.ends_of_acyclic (R := s.Leads endAddr)
      ExprState.addr (fun y z hy hpass => leads_of_pass (leads_of_reaches hfinal hy).1 hpass) ?_)
    exact h e₀.addr endAddr (isExpr_iff_start.mp hstart).1

/-- Behind a circle that is led around idly, the loop goes on for ever. -/
theorem not_ends_of_circle (h : TransGen (s.LeadsIdly endAddr) e.addr e.addr) :
    ¬ Orbit.Ends (s.exprMachine c endAddr) e := by
  refine Orbit.not_ends_of_goesOn (P := fun e : ExprState =>
    TransGen (s.LeadsIdly endAddr) e.addr e.addr) (fun y hy => ?_) h
  obtain ⟨x, hfirst, hrest⟩ := TransGen.head'_iff.mp hy
  obtain ⟨z, hpass, rfl⟩ := pass_of_leadsIdly (c := c) hfirst
  exact ⟨z, hpass, TransGen.tail' hrest hfirst⟩

theorem reaches_of_leadsIdly (h : ReflTransGen (s.LeadsIdly endAddr) e.addr x) :
    ∃ e', Orbit.Reaches (s.exprMachine c endAddr) e e' ∧ e'.addr = x := by
  induction h with
  | refl => exact ⟨e, .refl e, rfl⟩
  | tail _ hlast ih =>
    obtain ⟨y, hreach, rfl⟩ := ih
    obtain ⟨z, hpass, rfl⟩ := pass_of_leadsIdly (c := c) hlast
    exact ⟨z, hreach.trans (.one hpass), rfl⟩

theorem not_ends_of_circles (h : s.Circles addr) (c : Cursor) :
    ¬ ∃ n, ∀ p ≥ n, (s.withPasses p).evalExpr c addr ≠ .error .running := by
  obtain ⟨a, endAddr, hexpr, x, hway, hcircle⟩ := h
  have hstart : (s.withPasses enough).exprStart c addr = .ok (⟨a, 0, 0, [c.cfa]⟩, endAddr) :=
    isExpr_iff_start.mpr ⟨hexpr, rfl⟩
  obtain ⟨e, ⟨k, hreach⟩, rfl⟩ := reaches_of_leadsIdly (c := c) (e := ⟨a, 0, 0, [c.cfa]⟩) hway
  rw [evalExpr_ends_iff_loop hstart]
  rintro ⟨n, r, hn⟩
  have hlater := Orbit.run_of_done hn (Nat.le_add_left n k)
  rw [Orbit.run_of_run hreach] at hlater
  exact not_ends_of_circle hcircle ⟨n, r, hlater⟩

end Ends

section Ways

variable {s : Space} {addr a endAddr x y : UInt64} {xs : List UInt64}

theorem ways_of_all {p : UInt64 → UInt64 → Prop} [∀ x y, Decidable (p x y)]
    (h : (xs.all fun x => (s.nexts endAddr x).all fun y => decide (p x y)) = true) :
    ∀ x ∈ xs, ∀ y ∈ s.nexts endAddr x, p x y :=
  fun x hx => forall_of_all (List.all_eq_true.mp h x hx)

/-- What a list of positions leads to is in it. -/
theorem mem_of_ways (ha : a ∈ xs) (hxs : ∀ x ∈ xs, ∀ y ∈ s.nexts endAddr x, y ∈ xs)
    (h : ReflTransGen (s.Leads endAddr) a x) : x ∈ xs := by
  induction h with
  | refl => exact ha
  | tail _ hlast ih => exact hxs _ ih _ hlast

/-- Positions that lead to higher ones only lead around no circle. -/
theorem not_circle_of_lt (hx : x ∈ xs)
    (hxs : ∀ x ∈ xs, ∀ y ∈ s.nexts endAddr x, y ∈ xs ∧ x < y) :
    ¬ TransGen (s.Leads endAddr) x x := by
  suffices hup : ∀ y, TransGen (s.Leads endAddr) x y → y ∈ xs ∧ x < y from
    fun h => UInt64.lt_irrefl x (hup x h).2
  intro y h
  induction h with
  | single hlast => exact hxs _ hx _ hlast
  | tail _ hlast ih =>
    obtain ⟨hmem, hlt⟩ := hxs _ ih.1 _ hlast
    exact ⟨hmem, UInt64.lt_trans ih.2 hlt⟩

end Ways

/-- `DW_OP_breg7 8`, `DW_OP_dup`, `DW_OP_bra 1`, `DW_OP_dup`, `DW_OP_lit3`. -/
def branching : Space := imageOf [8, 0x77, 8, 0x12, 0x28, 1, 0, 0x12, 0x33]

section Arith

variable {s : Space} {c : Cursor} {addr a endAddr x : UInt64} {op : BinOp} {tmp1 tmp2 : UInt64}

/-- An operation with an operand that suits any other is defined. -/
theorem tame_of_suits (h : op ∈ ([.div, .shl, .shr, .shra] : List BinOp) → s.Suits op tmp1) :
    s.Tame op tmp1 tmp2 := by
  cases op with
  | div => exact (h (by decide)).imp_right fun ⟨hzero, hones⟩ => ⟨hzero, fun hboth => hones hboth.2⟩
  | shl => exact h (by decide)
  | shr => exact h (by decide)
  | shra => exact h (by decide)
  | _ => trivial

/-- Behind a constant, the constant is the operand. -/
theorem tame_of_guarded (h : s.Guarded addr) (hexec : s.Executes c addr op tmp1 tmp2) :
    s.Tame op tmp1 tmp2 := by
  obtain ⟨endAddr, e, e', stack, ⟨e₀, hstart, hreach⟩, hlt, hfetch, hstack⟩ := hexec
  obtain ⟨hexpr, he₀⟩ := isExpr_iff_start.mp hstart
  obtain ⟨v, hop, -, hkept⟩ := opAt_of_fetch hfetch
  have hsmall : e₀.Small := by
    rw [he₀]
    exact (by decide : 1 ≤ 64)
  refine tame_of_suits fun hpartial => ?_
  obtain rfl | ⟨d, hd, hpass⟩ := hreach.last
  case inl =>
    -- there is one word on the stack at first
    rw [hkept, he₀] at hstack
    cases hstack
  case inr =>
    obtain ⟨hdsmall, hway⟩ := leads_of_reaches hsmall hd
    obtain ⟨w, hconst, hsuits⟩ := h e₀.addr endAddr hexpr d.addr e.addr hway
      (leads_of_pass hdsmall hpass) op v e'.addr hop hpartial
    rw [hkept, stack_of_constAt hconst hpass] at hstack
    obtain ⟨rfl, -⟩ := List.cons.inj hstack
    exact hsuits

/-- The operation at which the expression begins is executed on its constants. -/
theorem executes_of_begins (h : s.Begins addr op tmp1 tmp2) (c : Cursor) :
    s.Executes c addr op tmp1 tmp2 := by
  obtain ⟨a, endAddr, x, y, v, next, hexpr, hconst2, hx, hconst1, hy, hlt, hop⟩ := h
  have hstart : (s.withPasses enough).exprStart c addr = .ok (⟨a, 0, 0, [c.cfa]⟩, endAddr) :=
    isExpr_iff_start.mpr ⟨hexpr, rfl⟩
  have hpush {d : ExprState} {z w : UInt64} (hd : d.stack.length < 64)
      (hconst : s.constAt d.addr = some w) (hz : s.Leads endAddr d.addr z) :
      ∃ d', s.exprMachine c endAddr d = .inl d' ∧ d'.addr = z ∧ d'.stack = w :: d.stack := by
    have hin : d.addr < endAddr := by
      by_contra hout
      unfold Space.Leads Space.nexts at hz
      rw [if_neg hout] at hz
      cases hz
    obtain ⟨d₁, hnexts, hstack, hpass⟩ := pass_of_constAt (c := c) hin hconst
    rw [push_ok (hstack ▸ hd)] at hpass
    unfold Space.Leads at hz
    rw [hnexts] at hz
    exact ⟨_, hpass, (List.mem_singleton.mp hz).symm, congrArg _ hstack⟩
  obtain ⟨d, hpass2, rfl, hd⟩ := hpush (d := ⟨a, 0, 0, [c.cfa]⟩) (by decide : 1 < 64) hconst2 hx
  obtain ⟨e, hpass1, rfl, he⟩ := hpush (by rw [hd]; exact (by decide : 2 < 64)) hconst1 hy
  obtain ⟨e', hfetch, -, hkept, -⟩ := fetch_of_opAt hop
  exact ⟨endAddr, e, e', [c.cfa], ⟨_, hstart, (Orbit.Reaches.one hpass2).trans (.one hpass1)⟩, hlt,
    hfetch, hkept.trans (he.trans (congrArg _ hd))⟩

end Arith

/-- `DW_OP_breg7 8`, `DW_OP_lit2`, `DW_OP_div`, `DW_OP_const1u 63`, `DW_OP_shl`. -/
def halving : Space := imageOf [7, 0x77, 8, 0x32, 0x1b, 0x08, 63, 0x24]

/-- `DW_OP_const8s INT64_MIN`, `DW_OP_const1s -1`, `DW_OP_div`. -/
def trapping : Space :=
  imageOf [12, 0x0f, 0, 0, 0, 0, 0, 0, 0, 0x80, 0x09, 0xff, 0x1b]

end Mtrace.Dwarf
