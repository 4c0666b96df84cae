import Mathlib.Tactic.IntervalCases
import Mtrace.Dwarf.Operands

/-!
# Expressions and the standard

Where the standard's stack machine gives a result for an expression, the loop gives the same one, as
long as it makes no pass that departs from the standard.

1. The operands of an operation are read as the standard has them, unless they are those of
   `DW_OP_constu` and `DW_OP_consts`, which the table of the source leaves out (`fetch_eq`).
2. Each operation does what the standard says to the low bits of the words on the stack, unless
   its result depends on the bits above them or the source has it wrong (`execute_follows`).
-/

namespace Mtrace.Dwarf

open Standard

/-- The operands of these kinds have at most ten bytes each. -/
def Standard.Kind.AllShort : List Kind → List UInt8 → Prop
  | [], _ => True
  | [kind], bs => kind.Short bs
  | kind1 :: kind2 :: _, bs =>
    kind1.Short bs ∧ ∀ v rest, kind1.decode bs = some (v, rest) → kind2.Short rest

/-- The operands that were read are those of the instruction. -/
def Standard.Kind.AllRead : List Kind → Instr → ExprState → Prop
  | [], _, _ => True
  | [kind], i, e => kind.Reads i.operand1 e.operand1
  | kind1 :: kind2 :: _, i, e => kind1.Reads i.operand1 e.operand1 ∧
    kind2.Reads i.operand2 e.operand2

namespace Space

variable (s : Space)

/-- The value at a place, where that is a number in the memory of the task. -/
def saved (loc : DwarfLoc) : Option UInt64 :=
  match loc.type with
  | .mem => (s.number (s.trim loc.val) s.addrSize).map .ofNat
  | _ => (s.dwarfGet loc).toOption

/-- The value of a register of a frame. -/
def regValue (c : Cursor) (i : ℕ) : Option UInt64 :=
  if i = s.ipReg then some c.ip else if i = s.retReg then some c.cfa else s.saved (c.loc i)

/-- The machine of the standard over a frame of the task, for the expression at an address. -/
def machine (c : Cursor) (a : UInt64) (n : ℕ) : Machine s.wordBits where
  code := s.block a n
  addrSize := s.addrSize
  reg i := if i < s.numRegs then (s.regValue c i).map (low s.wordBits) else none
  place i := if i < s.numRegs then some (c.loc i) else none
  mem x size := s.number (.ofNat x.toNat) size

/-- The operands of kinds, after those that were read before. -/
def readKinds (ks : List Kind) (operand1 operand2 : UInt64) : Reader (UInt64 × UInt64) :=
  match ks with
  | [] => return (operand1, operand2)
  | [kind] => return (← s.readKind kind, operand2)
  | kind1 :: kind2 :: _ => return (← s.readKind kind1, ← s.readKind kind2)

/-- The operands of an operation are read as the standard has them. -/
def ReadsRight (op : ExprOp) (bs : List UInt8) : Prop :=
  op ≠ .const .constu ∧ op ≠ .const .consts ∧ Kind.AllShort (kinds s.addrSize op) bs

/-- An operation on the top `tmp1` and the word `tmp2` below it is the one of the standard. -/
def FaithfulBinary (op : BinOp) (tmp1 tmp2 : UInt64) : Prop :=
  match op with
  | .div => ¬ (s.sword tmp2 = .minValue ∧ s.sword tmp1 = -1)
  | .mod => s.trim tmp1 = tmp1 ∧ s.trim tmp2 = tmp2
  | .shl | .shra => (s.trim tmp1).toNat < 64
  | .shr => (s.trim tmp1).toNat < 64 ∧ s.trim tmp2 = tmp2
  | _ => True

/-- `DW_OP_deref_size` of an address takes the bytes that it is asked for. -/
def FaithfulDeref (tmp1 size : UInt64) : Prop :=
  s.trim tmp1 = tmp1 ∧ size ∉ ([3, 5, 6, 7] : List UInt64) ∧ s.Peekable tmp1 size.toNat

/-- The value of a register is not at a place that cannot be read. -/
def FaithfulReg (c : Cursor) (reg : ℕ) : Prop :=
  (c.loc reg).type = .mem → reg ≠ s.ipReg → reg ≠ s.retReg →
    s.Peekable (s.trim (c.loc reg).val) s.addrSize

/-- An operation does what the standard says, with its operands read. -/
def Faithful (c : Cursor) (op : ExprOp) (e : ExprState) : Prop :=
  match op with
  | .breg n => s.FaithfulReg c n.toNat
  | .bregx => s.FaithfulReg c e.operand1.toNat
  | .reg n => c.loc n.toNat = .ofReg n.toUInt64
  | .regx => c.loc e.operand1.toNat = .ofReg e.operand1
  | .deref => ∀ tmp1 ∈ e.stack.head?, s.trim tmp1 = tmp1 ∧ s.Peekable tmp1 s.addrSize
  | .derefSize => ∀ tmp1 ∈ e.stack.head?, s.FaithfulDeref tmp1 e.operand1
  | .bra => ∀ tmp1 ∈ e.stack.head?, tmp1 = 0 ∨ s.trim tmp1 ≠ 0
  | .binary op => ∀ tmp1 tmp2 stack, e.stack = tmp1 :: tmp2 :: stack → s.FaithfulBinary op tmp1 tmp2
  | _ => True

/-- A pass over an instruction does what the standard says. -/
def FaithfulPass (c : Cursor) (endAddr : UInt64) (e : ExprState) : Prop :=
  s.ReadsRight (.decode (s.image e.addr))
      (s.block (e.addr + 1) (endAddr.toNat - e.addr.toNat - 1)) ∧
    ∀ op e', s.fetch e = .ok (op, e') → s.Faithful c op e'

end Space

/-- A state of the loop stands for one of the machine, for the expression of `n` bytes at `a`. -/
structure InStep (s : Space) (a : UInt64) (n : ℕ) (e : ExprState)
    (st : State s.wordBits) : Prop where
  addr : e.addr = a + .ofNat st.off
  off_le : st.off ≤ n
  stack : e.stack.map (low s.wordBits) = st.stack
  small : e.Small

/-- A place stands for a result: an address as its low bits. -/
def Denotes (s : Space) (loc : DwarfLoc) : Result s.wordBits → Prop
  | .mem addr => loc.type = .mem ∧ low s.wordBits loc.val = addr
  | .place loc' => loc = loc'

/-- What a pass comes to. -/
def Follows (s : Space) (a : UInt64) (n : ℕ) :
    ExprState ⊕ DwarfLoc → State s.wordBits ⊕ Result s.wordBits → Prop
  | .inl e, .inl st => InStep s a n e st
  | .inr loc, .inr r => Denotes s loc r
  | _, _ => False

/-! ## Operands -/

section Fetch

variable {s : Space} {a : UInt64} {n : ℕ}

/-- The table of the source has the operands of the standard, but for two operations. -/
theorem operands_eq {op : ExprOp} (hconstu : op ≠ .const .constu) (hconsts : op ≠ .const .consts)
    (hother : ∀ other, op ≠ .other other) :
    op.operands.map s.readOperand = (kinds s.addrSize op).map s.readKind := by
  cases op with
  | const op => cases op <;> first | rfl | exact absurd rfl hconstu | exact absurd rfl hconsts
  | other op => exact absurd rfl (hother op)
  | unary op => cases op <;> rfl
  | _ => rfl

/-- The operands of an operation are read as its kinds say. -/
theorem readOperands_eq {types : List OperandType} {ks : List Kind}
    (h : types.map s.readOperand = ks.map s.readKind) (operand1 operand2 : UInt64) :
    s.readOperands types operand1 operand2 = s.readKinds ks operand1 operand2 := by
  match types, ks, h with
  | [], [], _ => rfl
  | [type], [kind], h =>
    rw [Space.readOperands, (List.cons.inj h).1]
    rfl
  | [type], kind1 :: kind2 :: _, h => cases (List.cons.inj h).2
  | type1 :: type2 :: _, [kind], h => cases (List.cons.inj h).2
  | type1 :: type2 :: _, kind1 :: kind2 :: _, h =>
    obtain ⟨h1, h⟩ := List.cons.inj h
    rw [Space.readOperands, h1, (List.cons.inj h).1]
    rfl

/-- The operands are read where the standard has them. -/
theorem readOperands_follows {types : List OperandType} {ks : List Kind} {rest : List UInt8}
    {b : UInt64} {m : ℕ} {v : ℤ × ℤ} (hmap : types.map s.readOperand = ks.map s.readKind)
    (hdec : decodeOperands ks (s.block b m) = some (v, rest))
    (hshort : Kind.AllShort ks (s.block b m))
    (hb : b ≠ 0) (hfit : b.toNat + m < 2 ^ 64) (hp : 10 ≤ s.passes) (operand1 operand2 : UInt64) :
    ∃ k x, k ≤ m ∧ rest = s.block (b + .ofNat k) (m - k) ∧
      s.readOperands types operand1 operand2 b = .ok x (b + .ofNat k) ∧
      ∀ op addr stack, Kind.AllRead ks ⟨op, v.1, v.2⟩ ⟨addr, x.1, x.2, stack⟩ := by
  rw [readOperands_eq hmap]
  match ks with
  | [] =>
    cases hdec
    have hzero : b + .ofNat 0 = b := UInt64.add_zero b
    exact ⟨0, (operand1, operand2), Nat.zero_le m, by rw [hzero, Nat.sub_zero], by rw [hzero]; rfl,
      fun _ _ _ => trivial⟩
  | [kind] =>
    obtain ⟨⟨v1, rest1⟩, h1, heq⟩ := Option.bind_eq_some_iff.mp hdec
    cases heq
    obtain ⟨k, x, hk, hrest, hread, hreads⟩ := readKind_eq h1 hshort hb hfit hp
    refine ⟨k, (x, operand2), hk, hrest, ?_, fun _ _ _ => hreads⟩
    show EStateM.bind _ _ b = _
    unfold EStateM.bind
    rw [hread]
    rfl
  | kind1 :: kind2 :: _ =>
    obtain ⟨⟨v1, rest1⟩, h1, hdec⟩ := Option.bind_eq_some_iff.mp hdec
    obtain ⟨⟨v2, rest2⟩, h2, heq⟩ := Option.bind_eq_some_iff.mp hdec
    cases heq
    obtain ⟨k, x, hk, hrest, hread, hreads⟩ := readKind_eq h1 hshort.1 hb hfit hp
    have hshort2 := hshort.2 v1 rest1 h1
    rw [hrest] at h2 hshort2
    obtain ⟨k2, x2, hk2, hrest2, hread2, hreads2⟩ := readKind_eq h2 hshort2
      (add_ofNat_ne_zero hb (by omega)) (by rw [toNat_add_ofNat (by omega)]; omega) hp
    rw [add_ofNat_add] at hrest2 hread2
    refine ⟨k + k2, (x, x2), by omega, ?_, ?_, fun _ _ _ => ⟨hreads, hreads2⟩⟩
    · rw [hrest2, Nat.sub_sub]
    · show EStateM.bind _ _ b = _
      unfold EStateM.bind
      rw [hread]
      show EStateM.bind _ _ _ = _
      unfold EStateM.bind
      rw [hread2]
      rfl

/-- A pass reads the instruction that the standard decodes. -/
theorem fetch_eq {e : ExprState} {off : ℕ} {stack : List (BitVec s.wordBits)} {i : Instr}
    {rest : List UInt8} (hstep : InStep s a n e ⟨off, stack⟩)
    (hdec : decodeInstr s.addrSize ((s.block a n).drop off) = some (i, rest))
    (hother : ∀ other, i.op ≠ .other other)
    (hright : s.ReadsRight (.decode (s.image e.addr)) (s.block (e.addr + 1) (n - off - 1)))
    (ha : a ≠ 0) (hfit : a.toNat + n < 2 ^ 64) (hp : 10 ≤ s.passes) :
    .decode (s.image e.addr) = i.op ∧ ∃ e', s.fetch e = .ok (i.op, e') ∧
      InStep s a n e' ⟨n - rest.length, stack⟩ ∧ Kind.AllRead (kinds s.addrSize i.op) i e' := by
  have hoff : off ≤ n := hstep.off_le
  have haddr : e.addr = a + .ofNat off := hstep.addr
  rw [drop_block, ← haddr] at hdec
  obtain ⟨m, hm⟩ | hm : (∃ m, n - off = m + 1) ∨ n - off = 0 := by
    cases n - off with
    | zero => exact .inr rfl
    | succ m => exact .inl ⟨m, rfl⟩
  case inr =>
    rw [hm] at hdec
    cases hdec
  rw [hm] at hdec hright
  rw [Space.block] at hdec
  obtain ⟨⟨v, rest'⟩, hops, heq⟩ := Option.bind_eq_some_iff.mp hdec
  cases heq
  have hnz : e.addr ≠ 0 := by
    rw [haddr]
    exact add_ofNat_ne_zero ha (by omega)
  have hnat : (e.addr + 1).toNat = a.toNat + (off + 1) := by
    have hone : e.addr + 1 = a + .ofNat (off + 1) := by
      rw [haddr]
      exact add_ofNat_add a off 1
    rw [hone, toNat_add_ofNat (by omega)]
  have hnz' : e.addr + 1 ≠ 0 := by
    intro hzero
    rw [hzero] at hnat
    have : (0 : UInt64).toNat = 0 := rfl
    omega
  obtain ⟨hconstu, hconsts, hshort⟩ := hright
  obtain ⟨k, x, hk, hrest, hread, hreads⟩ := readOperands_follows
    (operands_eq hconstu hconsts hother) hops hshort hnz' (by omega) hp e.operand1 e.operand2
  refine ⟨rfl, ⟨e.addr + 1 + .ofNat k, x.1, x.2, e.stack⟩, ?_, ⟨?_, ?_, hstep.stack, hstep.small⟩,
    hreads _ _ _⟩
  · unfold Space.fetch
    have hop : s.readOp e.operand1 e.operand2 e.addr =
        .ok (.decode (s.image e.addr), x) (e.addr + 1 + .ofNat k) := by
      show EStateM.bind s.read8 _ e.addr = _
      unfold EStateM.bind
      rw [read8_eq hnz]
      show EStateM.bind _ _ _ = _
      unfold EStateM.bind
      rw [hread]
      rfl
    rw [hop]
  · show e.addr + 1 + .ofNat k = _
    rw [hrest, length_block, haddr]
    have hlen : n - (m - k) = off + 1 + k := by omega
    rw [hlen, ← add_ofNat_add, ← add_ofNat_add]
    rfl
  · exact Nat.sub_le _ _

end Fetch

/-! ## Operations -/

section Execute

variable {s : Space} {c : Cursor} {a : UInt64} {n off : ℕ} {e : ExprState}
  {stack stack' : List (BitVec s.wordBits)} {x : UInt64} {y : BitVec s.wordBits}

/-- An operation of the source does the same as one of the machine. -/
def Agrees (s : Space) (a : UInt64) (n : ℕ) (r : Except Halt (ExprState ⊕ DwarfLoc))
    (r' : Option (State s.wordBits ⊕ Result s.wordBits)) : Prop :=
  ∀ t, r' = some t → ∃ u, r = .ok u ∧ Follows s a n u t

theorem Agrees.none {r : Except Halt (ExprState ⊕ DwarfLoc)} : Agrees s a n r none :=
  fun _ h => by cases h

/-- A word of the frame and one of the machine. -/
theorem Agrees.bind {α β : Type} {r : Except Halt α} {r' : Option β}
    {f : α → Except Halt (ExprState ⊕ DwarfLoc)}
    {f' : β → Option (State s.wordBits ⊕ Result s.wordBits)}
    (h : ∀ y, r' = some y → ∃ x, r = .ok x ∧ Agrees s a n (f x) (f' y)) :
    Agrees s a n (r >>= f) (r' >>= f') := by
  intro t ht
  obtain ⟨y, hy, ht⟩ := Option.bind_eq_some_iff.mp ht
  obtain ⟨x, hx, hagrees⟩ := h y hy
  rw [hx]
  exact hagrees t ht

theorem Agrees.inl {r : Except Halt (ExprState ⊕ DwarfLoc)} {e' : ExprState}
    {st : State s.wordBits} (hr : r = .ok (.inl e')) (h : InStep s a n e' st) :
    Agrees s a n r (some (.inl st)) := by
  intro t ht
  cases ht
  exact ⟨_, hr, h⟩

theorem push_eq {tail : List UInt64} (hlen : tail.length < 64) :
    ({ e with stack := tail } : ExprState).push x = .ok { e with stack := x :: tail } := if_pos hlen

theorem InStep.push (h : InStep s a n e ⟨off, stack⟩) (hx : low s.wordBits x = y) :
    Agrees s a n (do return .inl (← e.push x)) (do return .inl ⟨off, ← Standard.push stack y⟩) := by
  refine .bind fun stack' hpush => ?_
  unfold Standard.push at hpush
  split at hpush
  case isTrue hlt =>
    cases hpush
    have hlen : e.stack.length < 64 := by
      rw [← List.length_map (low s.wordBits), h.stack]
      exact hlt
    refine ⟨{ e with stack := x :: e.stack }, if_pos hlen, fun t ht => ?_⟩
    cases ht
    refine ⟨_, rfl, h.addr, h.off_le, ?_, hlen⟩
    rw [List.map_cons, hx, h.stack]
  case isFalse => cases hpush

/-- The top of the stack is popped on both sides. -/
theorem InStep.pop (h : InStep s a n e ⟨off, stack⟩)
    (hpop : Standard.pop stack = some (y, stack')) :
    ∃ x tail, e.stack = x :: tail ∧ e.pop = .ok (x, { e with stack := tail }) ∧
      low s.wordBits x = y ∧ tail.length < 64 ∧
      InStep s a n { e with stack := tail } ⟨off, stack'⟩ := by
  have hstack := h.stack
  have hsmall := h.small
  unfold ExprState.Small at hsmall
  cases htail : e.stack with
  | nil =>
    rw [htail] at hstack
    cases hstack
    cases hpop
  | cons x tail =>
    rw [htail] at hstack hsmall
    cases hstack
    cases hpop
    refine ⟨x, tail, rfl, ?_, rfl, hsmall, h.addr, h.off_le, rfl, Nat.le_of_succ_le hsmall⟩
    unfold ExprState.pop
    rw [htail]

/-- A word goes to the place of one that was popped. -/
theorem InStep.replace {tail : List UInt64} (h : InStep s a n { e with stack := tail } ⟨off, stack⟩)
    (hlen : tail.length < 64) (hx : low s.wordBits x = y) :
    Agrees s a n (do return .inl (← ({ e with stack := tail } : ExprState).push x))
      (some (.inl ⟨off, y :: stack⟩)) := by
  have hstack : (x :: tail).map (low s.wordBits) = y :: stack := by
    rw [List.map_cons, hx]
    exact congrArg _ h.stack
  rw [push_eq hlen]
  exact .inl rfl ⟨h.addr, h.off_le, hstack, hlen⟩

/-- An operation that reads the stack at an index. -/
theorem InStep.pick {i : UInt64} {k : ℕ} (h : InStep s a n e ⟨off, stack⟩) (hi : i.toNat = k) :
    Agrees s a n (do return .inl (← e.push (← e.pick i)))
      (do return .inl ⟨off, ← Standard.push stack (← stack[k]?)⟩) := by
  refine .bind fun y hy => ?_
  have hstack : e.stack.map (low s.wordBits) = stack := h.stack
  rw [← hstack, List.getElem?_map] at hy
  obtain ⟨x, hx, hlow⟩ := Option.map_eq_some_iff.mp hy
  refine ⟨x, ?_, h.push hlow⟩
  unfold ExprState.pick
  rw [hi, hx]

/-- The value at a place that can be read. -/
theorem dwarfGet_of_saved {loc : DwarfLoc} {v : UInt64}
    (hpeek : loc.type = .mem → s.Peekable (s.trim loc.val) s.addrSize) (h : s.saved loc = some v) :
    s.dwarfGet loc = .ok v := by
  obtain ⟨val, type⟩ := loc
  cases type with
  | mem =>
    obtain ⟨n, hn, rfl⟩ := Option.map_eq_some_iff.mp h
    exact Space.access_of_number addrSize_pos addrSize_le (hpeek rfl) hn
  | reg =>
    have h : (s.accessReg val).toOption = some v := h
    show s.accessReg val = .ok v
    cases hreg : s.accessReg val with
    | ok w =>
      rw [hreg] at h
      exact congrArg Except.ok (Option.some.inj h)
    | error e =>
      rw [hreg] at h
      cases h
  | val => exact congrArg Except.ok (Option.some.inj h)

/-- The value of a register. -/
theorem reg_follows {k : ℕ} (hf : s.FaithfulReg c k) (h : (s.machine c a n).reg k = some y) :
    ∃ x, s.getReg c (.ofNat k) = .ok x ∧ low s.wordBits x = y := by
  unfold Space.machine at h
  dsimp only at h
  split at h
  case isFalse => cases h
  case isTrue hlt =>
    obtain ⟨x, hx, hlow⟩ := Option.map_eq_some_iff.mp h
    refine ⟨x, ?_, hlow⟩
    have hnat : (UInt64.ofNat k).toUInt32.toNat = k := by
      have hle := numRegs_le (s := s)
      rw [UInt64.toNat_toUInt32, toNat_ofNat_of_lt (by omega)]
      omega
    unfold Space.regValue at hx
    unfold Space.getReg
    rw [hnat]
    dsimp only
    rw [if_neg (by omega)]
    by_cases hip : k = s.ipReg
    · rw [if_pos hip] at hx ⊢
      exact congrArg Except.ok (Option.some.inj hx)
    · rw [if_neg hip] at hx ⊢
      by_cases hret : k = s.retReg
      · rw [if_pos hret] at hx ⊢
        exact congrArg Except.ok (Option.some.inj hx)
      · rw [if_neg hret] at hx ⊢
        exact dwarfGet_of_saved (fun hmem => hf hmem hip hret) hx

theorem reg_lt {k : ℕ} (h : (s.machine c a n).reg k = some y) : k < s.numRegs := by
  by_contra hge
  rw [Space.machine] at h
  dsimp only at h
  rw [if_neg hge] at h
  cases h

/-- The place of a register. -/
theorem place_follows {k : ℕ} {loc : DwarfLoc} (h : (s.machine c a n).place k = some loc) :
    k < s.numRegs ∧ c.loc k = loc := by
  unfold Space.machine at h
  dsimp only at h
  split at h
  case isTrue hlt => exact ⟨hlt, Option.some.inj h⟩
  case isFalse => cases h

theorem toUInt64_eq (k : UInt8) : k.toUInt64 = .ofNat k.toNat := by
  apply UInt64.toNat_inj.mp
  rw [UInt8.toNat_toUInt64, toNat_ofNat_of_lt (k.toNat_lt.trans (by decide))]

/-- A number in the memory of the task. -/
theorem mem_follows {size v : ℕ} (hsize : 1 ≤ size ∧ size ≤ 8) (hx : low s.wordBits x = y)
    (htrim : s.trim x = x) (hpeek : s.Peekable x size)
    (h : (s.machine c a n).mem y size = some v) : s.access x size = .ok (.ofNat v) := by
  have haddr : UInt64.ofNat y.toNat = x := by
    have hlt := toNat_trim_lt (s := s) x
    rw [htrim] at hlt
    rw [← hx, low_toNat_of_lt hlt, UInt64.ofNat_toNat]
  have hmem : s.number (.ofNat y.toNat) size = some v := h
  rw [haddr] at hmem
  exact Space.access_of_number hsize.1 hsize.2 hpeek hmem

/-- What a constant stands for. -/
theorem const_follows {op : ConstOp} {i : Instr} (hconstu : op ≠ .constu) (hconsts : op ≠ .consts)
    (hread : Kind.AllRead (kinds s.addrSize (.const op)) i e) :
    low s.wordBits (Space.const op e.operand1) = .ofInt s.wordBits i.operand1 := by
  have hplain (h : ∃ k : ℕ, i.operand1 = k ∧ e.operand1 = .ofNat k) :
      low s.wordBits e.operand1 = .ofInt s.wordBits i.operand1 := by
    obtain ⟨k, hv, hx⟩ := h
    rw [hx, hv, ← ofInt_natCast, low_ofInt wordBits_le]
  have hunsigned {size : ℕ} (h : (Kind.unsigned size).Reads i.operand1 e.operand1) :
      ∃ k : ℕ, i.operand1 = k ∧ e.operand1 = .ofNat k := by
    obtain ⟨k, -, hv, hx⟩ := h
    exact ⟨k, hv, hx⟩
  have hsigned {b : ℕ} {size : ℕ} (hb : b + 1 < 64) (hsize : 256 ^ size = 2 ^ (b + 1))
      (hbit : ((1 : UInt64) <<< (UInt64.ofNat (b + 1) - 1)).toBitVec = .twoPow 64 b)
      (h : (Kind.signed size).Reads i.operand1 e.operand1) :
      low s.wordBits (signExtend (.ofNat (b + 1)) e.operand1) = .ofInt s.wordBits i.operand1 := by
    obtain ⟨k, hk, hv, hx⟩ := h
    rw [hsize] at hk hv
    rw [hx, hv, signExtend_eq hb hk hbit, low_ofInt wordBits_le]
  cases op with
  | const1s => exact hsigned (b := 7) (by decide) (by decide) rfl hread
  | const2s => exact hsigned (b := 15) (by decide) (by decide) rfl hread
  | const4s => exact hsigned (b := 31) (by decide) (by decide) rfl hread
  | const8s =>
    obtain ⟨k, hk, hv, hx⟩ := hread
    have hsize : 256 ^ 8 = 2 ^ 64 := by norm_num
    have hcast : ((2 ^ 64 : ℕ) : ℤ) = 2 ^ 64 := by norm_cast
    have hmod : UInt64.ofInt ((k : ℤ).bmod (2 ^ 64)) = .ofNat k := by
      rw [← ofInt_natCast]
      apply UInt64.toNat_inj.mp
      rw [toNat_ofInt, toNat_ofInt, ← hcast, Int.bmod_emod]
    rw [hsize] at hv
    show low s.wordBits e.operand1 = _
    rw [hx, hv, ← hmod, low_ofInt wordBits_le]
  | constu => exact absurd rfl hconstu
  | consts => exact absurd rfl hconsts
  | _ => exact hplain (hunsigned hread)

/-- Where a jump leads to. -/
theorem jump_follows {off' : ℕ} {dist : ℤ} (h : InStep s a n e ⟨off, stack⟩)
    (hread : (Kind.signed 2).Reads dist e.operand1)
    (hjump : (s.machine c a n).jump off dist = some off') :
    InStep s a n { e with addr := e.addr + Space.sval16 e.operand1 } ⟨off', stack⟩ := by
  obtain ⟨k, hk, hv, hx⟩ := hread
  have hsize : 256 ^ 2 = 2 ^ 16 := by decide
  rw [hsize] at hk hv
  unfold Machine.jump at hjump
  split at hjump
  case isTrue hin =>
    cases hjump
    have hlen : ((s.machine c a n).code.length : ℤ) = n := by
      rw [Int.natCast_inj]
      exact length_block a n
    rw [hlen] at hin
    refine ⟨?_, ?_, h.stack, h.small⟩
    · show e.addr + Space.sval16 e.operand1 = a + .ofNat (off + dist).toNat
      have hoff : (((off + dist).toNat : ℕ) : ℤ) = off + dist := Int.toNat_of_nonneg hin.1
      have hsum : UInt64.ofInt (off + dist) = .ofInt off + .ofInt dist := UInt64.ofInt_add ..
      rw [h.addr, hx, sval16_eq hk, ← hv, ← ofInt_natCast, ← ofInt_natCast, hoff, hsum,
        UInt64.add_assoc]
    · show (off + dist).toNat ≤ n
      omega
  case isFalse => cases hjump

/-- Comparisons of words with their signs. -/
theorem sle_follows {x' : UInt64} :
    (low s.wordBits x).sle (low s.wordBits x') = decide (s.sword x ≤ s.sword x') := by
  rw [BitVec.sle_eq_decide, ← sword_toInt, ← sword_toInt]
  exact decide_eq_decide.mpr Int64.le_iff_toInt_le.symm

theorem slt_follows {x' : UInt64} :
    (low s.wordBits x).slt (low s.wordBits x') = decide (s.sword x < s.sword x') := by
  rw [BitVec.slt_eq_decide, ← sword_toInt, ← sword_toInt]
  exact decide_eq_decide.mpr Int64.lt_iff_toInt_lt.symm

theorem beq_follows {x' : UInt64} :
    (low s.wordBits x == low s.wordBits x') = decide (s.sword x = s.sword x') := by
  rw [beq_eq_decide]
  exact decide_eq_decide.mpr (low_inj.trans sword_inj.symm)

theorem trim_toNat (x : UInt64) : (s.trim x).toNat = (low s.wordBits x).toNat := by
  rw [← low_trim, low_toNat_of_lt (toNat_trim_lt x)]

theorem toNat_lt_of_trim (h : s.trim x = x) : x.toNat < 2 ^ s.wordBits := by
  rw [← h]
  exact toNat_trim_lt x

/-- What a binary operation comes to. -/
theorem binary_follows {op : BinOp} {tmp1 tmp2 : UInt64} {z : BitVec s.wordBits}
    (hf : s.FaithfulBinary op tmp1 tmp2)
    (h : Standard.binary op (low s.wordBits tmp2) (low s.wordBits tmp1) = some z) :
    ∃ v, (s.binary op tmp1 tmp2).elim .ok Arith.run = .ok v ∧ low s.wordBits v = z := by
  have hsix : 6 ≤ s.wordBits := (by decide : 6 ≤ 32).trans le_wordBits
  cases op with
  | and =>
    cases h
    exact ⟨_, rfl, low_and.trans (BitVec.and_comm ..)⟩
  | div =>
    rw [Standard.binary] at h
    split at h
    case isTrue => cases h
    case isFalse htop =>
      cases h
      have hnz : tmp1 ≠ 0 := fun h0 => htop (by rw [h0, low_zero])
      have hword : ¬ s.sword tmp1 = 0 := fun h0 => htop (low_eq_zero.mpr (sword_eq_zero.mp h0))
      obtain ⟨v, hrun, hlow⟩ := low_div (s := s) (x := tmp2) (y := tmp1) (by
        rintro (h0 | hmin)
        · exact hword h0
        · exact hf hmin)
      refine ⟨v, ?_, hlow⟩
      rw [Space.binary, if_pos hnz]
      exact hrun
  | minus =>
    cases h
    exact ⟨_, rfl, low_sub wordBits_le⟩
  | mod =>
    rw [Standard.binary] at h
    split at h
    case isTrue => cases h
    case isFalse htop =>
      cases h
      have hnz : tmp1 ≠ 0 := fun h0 => htop (by rw [h0, low_zero])
      refine ⟨tmp2 % tmp1, ?_, low_mod (toNat_lt_of_trim hf.2) (toNat_lt_of_trim hf.1)⟩
      rw [Space.binary, if_pos hnz]
      exact if_neg hnz
  | mul =>
    cases h
    by_cases hnz : tmp1 = 0
    · refine ⟨tmp1, ?_, ?_⟩
      · rw [Space.binary, if_neg (not_not.mpr hnz)]
        rfl
      · rw [hnz, low_zero]
        exact (BitVec.mul_zero).symm
    · refine ⟨tmp2 * tmp1, ?_, low_mul wordBits_le⟩
      rw [Space.binary, if_pos hnz]
      rfl
  | or =>
    cases h
    exact ⟨_, rfl, low_or.trans (BitVec.or_comm ..)⟩
  | plus =>
    cases h
    exact ⟨_, rfl, (low_add wordBits_le).trans (BitVec.add_comm ..)⟩
  | shl =>
    cases h
    have hcount : (low s.wordBits tmp1).toNat < 64 := (trim_toNat tmp1).symm.trans_lt hf
    exact ⟨_, rfl, low_shiftLeft wordBits_le hsix hcount⟩
  | shr =>
    cases h
    have hcount : (low s.wordBits tmp1).toNat < 64 := (trim_toNat tmp1).symm.trans_lt hf.1
    exact ⟨_, rfl, low_shiftRight hsix (toNat_lt_of_trim hf.2) hcount⟩
  | shra =>
    cases h
    have hcount : (low s.wordBits tmp1).toNat < 64 := (trim_toNat tmp1).symm.trans_lt hf
    exact ⟨_, rfl, low_sar hcount⟩
  | xor =>
    cases h
    exact ⟨_, rfl, low_xor.trans (BitVec.xor_comm ..)⟩
  | le =>
    cases h
    exact ⟨_, rfl, by rw [low_ofTest wordBits_le, sle_follows]⟩
  | ge =>
    cases h
    exact ⟨_, rfl, by rw [low_ofTest wordBits_le, sle_follows]⟩
  | eq =>
    cases h
    exact ⟨_, rfl, by rw [low_ofTest wordBits_le, beq_follows]⟩
  | lt =>
    cases h
    exact ⟨_, rfl, by rw [low_ofTest wordBits_le, slt_follows]⟩
  | gt =>
    cases h
    exact ⟨_, rfl, by rw [low_ofTest wordBits_le, slt_follows]⟩
  | ne =>
    cases h
    refine ⟨_, rfl, ?_⟩
    rw [low_ofTest wordBits_le, bne, beq_follows]
    congr 1
    exact decide_not

/-- What an operation on the top of the stack comes to. -/
theorem unary_follows {op : UnOp} {i : Instr}
    (hread : Kind.AllRead (kinds s.addrSize (.unary op)) i e) :
    low s.wordBits (s.unary op e.operand1 x) =
      Standard.unary op i.operand1 (low s.wordBits x) := by
  cases op with
  | abs => exact low_abs _ _
  | neg => exact low_neg wordBits_le
  | not => exact low_not wordBits_le
  | plusUconst =>
    obtain ⟨k, hv, hx⟩ := hread
    show low s.wordBits (x + e.operand1) = low s.wordBits x + .ofInt s.wordBits i.operand1
    rw [low_add wordBits_le, hx, hv, ← low_ofInt wordBits_le, ofInt_natCast]

/-- The number that `DW_OP_deref_size` reads. -/
theorem derefSize_follows {size v : ℕ} (hx : low s.wordBits x = y)
    (hf : s.FaithfulDeref x (.ofNat size)) (hsize : 1 ≤ size ∧ size ≤ 8)
    (h : (s.machine c a n).mem y size = some v) : s.derefSize x (.ofNat size) = .ok (.ofNat v) := by
  obtain ⟨htrim, hwhole, hpeek⟩ := hf
  rw [toNat_ofNat_of_lt (by omega)] at hpeek
  have hmem := mem_follows hsize hx htrim hpeek h
  obtain ⟨hpos, hle⟩ := hsize
  interval_cases size
  · exact hmem
  · exact hmem
  · exact absurd (by decide) hwhole
  · exact hmem
  · exact absurd (by decide) hwhole
  · exact absurd (by decide) hwhole
  · exact absurd (by decide) hwhole
  · exact hmem

/-! Each operation of the source does what the standard says. -/

section Cases

variable {v1 v2 : ℤ}

theorem execute_breg {k : UInt8} (h : InStep s a n e ⟨off, stack⟩) (hf : s.FaithfulReg c k.toNat)
    (hread : e.operand1 = .ofInt v1) : Agrees s a n (s.execute c (.breg k) e)
      ((s.machine c a n).execute ⟨.breg k, v1, v2⟩ off stack) := by
  unfold Space.execute Machine.execute
  refine .bind fun y hy => ?_
  obtain ⟨x, hx, hlow⟩ := reg_follows hf hy
  rw [← toUInt64_eq] at hx
  refine ⟨x, hx, h.push ?_⟩
  rw [low_add wordBits_le, hlow, hread, low_ofInt wordBits_le]

theorem execute_bregx (h : InStep s a n e ⟨off, stack⟩) (hf : s.FaithfulReg c e.operand1.toNat)
    (hread1 : Kind.uleb128.Reads v1 e.operand1) (hread2 : e.operand2 = .ofInt v2) :
    Agrees s a n (s.execute c .bregx e)
      ((s.machine c a n).execute ⟨.bregx, v1, v2⟩ off stack) := by
  obtain ⟨k, rfl, hx1⟩ := hread1
  unfold Space.execute Machine.execute
  refine .bind fun y hy => ?_
  dsimp only at hy
  rw [Int.toNat_natCast] at hy
  have hle := numRegs_le (s := s)
  have hlt := reg_lt hy
  rw [hx1, toNat_ofNat_of_lt (by omega)] at hf
  obtain ⟨x, hx, hlow⟩ := reg_follows hf hy
  rw [← hx1] at hx
  refine ⟨x, hx, h.push ?_⟩
  rw [low_add wordBits_le, hlow, hread2, low_ofInt wordBits_le]

theorem execute_reg {k : UInt8} (hf : c.loc k.toNat = .ofReg k.toUInt64) :
    Agrees s a n (s.execute c (.reg k) e)
      ((s.machine c a n).execute ⟨.reg k, v1, v2⟩ off stack) := by
  intro t ht
  obtain ⟨loc, hloc, ht⟩ := Option.bind_eq_some_iff.mp ht
  cases ht
  refine ⟨_, rfl, ?_⟩
  exact hf.symm.trans (place_follows hloc).2

theorem execute_regx (hf : c.loc e.operand1.toNat = .ofReg e.operand1)
    (hread : Kind.uleb128.Reads v1 e.operand1) : Agrees s a n (s.execute c .regx e)
      ((s.machine c a n).execute ⟨.regx, v1, v2⟩ off stack) := by
  intro t ht
  obtain ⟨loc, hloc, ht⟩ := Option.bind_eq_some_iff.mp ht
  cases ht
  obtain ⟨k, rfl, hx⟩ := hread
  dsimp only at hloc
  rw [Int.toNat_natCast] at hloc
  obtain ⟨hlt, hloc⟩ := place_follows hloc
  have hnat : e.operand1.toNat = k := by
    have hle := numRegs_le (s := s)
    rw [hx, toNat_ofNat_of_lt (by omega)]
  rw [hnat] at hf
  refine ⟨_, rfl, ?_⟩
  exact hf.symm.trans hloc

theorem execute_deref (h : InStep s a n e ⟨off, stack⟩)
    (hf : ∀ tmp1 ∈ e.stack.head?, s.trim tmp1 = tmp1 ∧ s.Peekable tmp1 s.addrSize) :
    Agrees s a n (s.execute c .deref e)
      ((s.machine c a n).execute ⟨.deref, v1, v2⟩ off stack) := by
  unfold Space.execute Machine.execute
  refine .bind fun ⟨y, stack'⟩ hy => ?_
  obtain ⟨x, tail, hstack, hpop, hlow, hlen, h'⟩ := h.pop hy
  refine ⟨_, hpop, .bind fun v hv => ?_⟩
  obtain ⟨htrim, hpeek⟩ := hf x (by rw [hstack]; rfl)
  refine ⟨_, mem_follows ⟨addrSize_pos, addrSize_le⟩ hlow htrim hpeek hv, h'.push ?_⟩
  rw [low_ofNat wordBits_le]

theorem execute_derefSize (h : InStep s a n e ⟨off, stack⟩)
    (hf : ∀ tmp1 ∈ e.stack.head?, s.FaithfulDeref tmp1 e.operand1)
    (hread : (Kind.unsigned 1).Reads v1 e.operand1) : Agrees s a n (s.execute c .derefSize e)
      ((s.machine c a n).execute ⟨.derefSize, v1, v2⟩ off stack) := by
  unfold Space.execute Machine.execute
  refine .bind fun ⟨y, stack'⟩ hy => ?_
  obtain ⟨x, tail, hstack, hpop, hlow, hlen, h'⟩ := h.pop hy
  obtain ⟨size, hsize, hv, hx⟩ := hread
  have hderef : s.FaithfulDeref x e.operand1 := hf x (by rw [hstack]; rfl)
  refine ⟨_, hpop, ?_⟩
  dsimp only
  split
  case isTrue hin =>
    refine .bind fun v hmem => ?_
    rw [hv, Int.toNat_natCast] at hmem
    rw [hx] at hderef
    have hread : s.derefSize x e.operand1 = .ok (.ofNat v) := by
      rw [hx]
      exact derefSize_follows hlow hderef (by omega) hmem
    refine ⟨_, hread, h'.push ?_⟩
    rw [low_ofNat wordBits_le]
  case isFalse => exact .none

theorem execute_drop (h : InStep s a n e ⟨off, stack⟩) : Agrees s a n (s.execute c .drop e)
    ((s.machine c a n).execute ⟨.drop, v1, v2⟩ off stack) := by
  unfold Space.execute Machine.execute
  refine .bind fun ⟨y, stack'⟩ hy => ?_
  obtain ⟨x, tail, hstack, hpop, hlow, hlen, h'⟩ := h.pop hy
  refine ⟨_, hpop, fun t ht => ?_⟩
  cases ht
  exact ⟨_, rfl, h'⟩

theorem execute_pick (h : InStep s a n e ⟨off, stack⟩)
    (hread : (Kind.unsigned 1).Reads v1 e.operand1) : Agrees s a n (s.execute c .pick e)
      ((s.machine c a n).execute ⟨.pick, v1, v2⟩ off stack) := by
  obtain ⟨k, hk, rfl, hx⟩ := hread
  unfold Space.execute Machine.execute
  refine h.pick ?_
  rw [hx, Int.toNat_natCast, toNat_ofNat_of_lt (hk.trans (by decide))]

theorem execute_swap (h : InStep s a n e ⟨off, stack⟩) : Agrees s a n (s.execute c .swap e)
    ((s.machine c a n).execute ⟨.swap, v1, v2⟩ off stack) := by
  unfold Space.execute Machine.execute
  refine .bind fun ⟨y, stack1⟩ hy => ?_
  obtain ⟨x, tail, hstack, hpop, hlow, hlen, h1⟩ := h.pop hy
  refine ⟨_, hpop, .bind fun ⟨y1, stack2⟩ hy1 => ?_⟩
  obtain ⟨x1, tail1, htail, hpop1, hlow1, -, h2⟩ := h1.pop hy1
  have htail : tail = x1 :: tail1 := htail
  rw [htail] at hlen
  have hlen1 : tail1.length < 64 := Nat.lt_of_succ_lt hlen
  have hin : ∀ {st}, { e with stack := x1 :: x :: tail1 }.stack.map (low s.wordBits) = st →
      InStep s a n { e with stack := x1 :: x :: tail1 } ⟨off, st⟩ :=
    fun heq => ⟨h2.addr, h2.off_le, heq, hlen⟩
  refine ⟨_, hpop1, .inl ?_ (hin ?_)⟩
  · dsimp only
    rw [push_eq hlen1]
    show (do return .inl (← ExprState.push _ x1) : Except Halt (ExprState ⊕ DwarfLoc)) = _
    rw [push_eq (show (x :: tail1).length < 64 from hlen)]
    rfl
  · rw [List.map_cons, List.map_cons, hlow, hlow1]
    exact congrArg _ (congrArg _ h2.stack)

theorem execute_rot (h : InStep s a n e ⟨off, stack⟩) : Agrees s a n (s.execute c .rot e)
    ((s.machine c a n).execute ⟨.rot, v1, v2⟩ off stack) := by
  unfold Space.execute Machine.execute
  refine .bind fun ⟨y, stack1⟩ hy => ?_
  obtain ⟨x, tail, hstack, hpop, hlow, hlen, h1⟩ := h.pop hy
  refine ⟨_, hpop, .bind fun ⟨y1, stack2⟩ hy1 => ?_⟩
  obtain ⟨x1, tail1, htail, hpop1, hlow1, -, h2⟩ := h1.pop hy1
  refine ⟨_, hpop1, .bind fun ⟨y2, stack3⟩ hy2 => ?_⟩
  obtain ⟨x2, tail2, htail1, hpop2, hlow2, -, h3⟩ := h2.pop hy2
  have htail : tail = x1 :: tail1 := htail
  have htail1 : tail1 = x2 :: tail2 := htail1
  rw [htail, htail1] at hlen
  have hlen1 : (x :: tail2).length < 64 := Nat.lt_of_succ_lt hlen
  have hlen2 : tail2.length < 64 := Nat.lt_of_succ_lt hlen1
  have hin : ∀ {st}, { e with stack := x1 :: x2 :: x :: tail2 }.stack.map (low s.wordBits) = st →
      InStep s a n { e with stack := x1 :: x2 :: x :: tail2 } ⟨off, st⟩ :=
    fun heq => ⟨h3.addr, h3.off_le, heq, hlen⟩
  refine ⟨_, hpop2, .inl ?_ (hin ?_)⟩
  · dsimp only
    rw [push_eq hlen2]
    show (do return .inl (← (← ExprState.push _ x2).push x1) :
      Except Halt (ExprState ⊕ DwarfLoc)) = _
    rw [push_eq hlen1]
    show (do return .inl (← ExprState.push _ x1) : Except Halt (ExprState ⊕ DwarfLoc)) = _
    rw [push_eq (show (x2 :: x :: tail2).length < 64 from hlen)]
    rfl
  · rw [List.map_cons, List.map_cons, List.map_cons, hlow, hlow1, hlow2]
    exact congrArg _ (congrArg _ (congrArg _ h3.stack))

theorem execute_unary {op : UnOp} (h : InStep s a n e ⟨off, stack⟩)
    (hread : Kind.AllRead (kinds s.addrSize (.unary op)) ⟨.unary op, v1, v2⟩ e) :
    Agrees s a n (s.execute c (.unary op) e)
      ((s.machine c a n).execute ⟨.unary op, v1, v2⟩ off stack) := by
  unfold Space.execute Machine.execute
  refine .bind fun ⟨y, stack'⟩ hy => ?_
  obtain ⟨x, tail, hstack, hpop, hlow, hlen, h'⟩ := h.pop hy
  refine ⟨_, hpop, h'.replace hlen ?_⟩
  rw [← hlow]
  exact unary_follows (e := e) hread

theorem execute_binary {op : BinOp} (h : InStep s a n e ⟨off, stack⟩)
    (hf : ∀ tmp1 tmp2 stack, e.stack = tmp1 :: tmp2 :: stack → s.FaithfulBinary op tmp1 tmp2) :
    Agrees s a n (s.execute c (.binary op) e)
      ((s.machine c a n).execute ⟨.binary op, v1, v2⟩ off stack) := by
  unfold Space.execute Machine.execute
  refine .bind fun ⟨y, stack1⟩ hy => ?_
  obtain ⟨x, tail, hstack, hpop, hlow, hlen, h1⟩ := h.pop hy
  refine ⟨_, hpop, .bind fun ⟨y1, stack2⟩ hy1 => ?_⟩
  obtain ⟨x1, tail1, htail, hpop1, hlow1, hlen1, h2⟩ := h1.pop hy1
  have htail : tail = x1 :: tail1 := htail
  refine ⟨_, hpop1, fun t ht => ?_⟩
  obtain ⟨z, hz, ht⟩ := Option.bind_eq_some_iff.mp ht
  rw [← hlow, ← hlow1] at hz
  obtain ⟨v, hv, hlowz⟩ := binary_follows (hf x x1 tail1 (by rw [hstack, htail])) hz
  dsimp only
  cases hbin : s.binary op x x1 with
  | inl v' =>
    rw [hbin] at hv
    cases hv
    exact h2.replace hlen1 hlowz t ht
  | inr arith =>
    rw [hbin] at hv
    have hrun : arith.run = .ok v := hv
    dsimp only
    rw [hrun]
    exact h2.replace hlen1 hlowz t ht

theorem execute_skip (h : InStep s a n e ⟨off, stack⟩)
    (hread : (Kind.signed 2).Reads v1 e.operand1) :
    Agrees s a n (s.execute c .skip e)
      ((s.machine c a n).execute ⟨.skip, v1, v2⟩ off stack) := by
  intro t ht
  obtain ⟨off', hjump, ht⟩ := Option.bind_eq_some_iff.mp ht
  cases ht
  exact ⟨_, rfl, jump_follows h hread hjump⟩

theorem execute_bra (h : InStep s a n e ⟨off, stack⟩)
    (hf : ∀ tmp1 ∈ e.stack.head?, tmp1 = 0 ∨ s.trim tmp1 ≠ 0)
    (hread : (Kind.signed 2).Reads v1 e.operand1) : Agrees s a n (s.execute c .bra e)
      ((s.machine c a n).execute ⟨.bra, v1, v2⟩ off stack) := by
  unfold Space.execute Machine.execute
  refine .bind fun ⟨y, stack'⟩ hy => ?_
  obtain ⟨x, tail, hstack, hpop, hlow, hlen, h'⟩ := h.pop hy
  refine ⟨_, hpop, fun t ht => ?_⟩
  have hzero : x = 0 ↔ y = 0 := by
    rw [← hlow, low_eq_zero]
    refine ⟨fun h0 => by rw [h0, trim_zero], fun h0 => ?_⟩
    obtain h0' | hne := hf x (by rw [hstack]; rfl)
    · exact h0'
    · exact absurd h0 hne
  dsimp only at ht ⊢
  split at ht
  case isTrue h0 =>
    cases ht
    rw [if_neg (not_not.mpr (hzero.mpr h0))]
    exact ⟨_, rfl, h'⟩
  case isFalse hne =>
    obtain ⟨off', hjump, ht⟩ := Option.bind_eq_some_iff.mp ht
    cases ht
    rw [if_pos fun h0 => hne (hzero.mp h0)]
    exact ⟨_, rfl, jump_follows h' hread hjump⟩

end Cases

/-- An operation of the source does what the standard says. -/
theorem execute_follows {i : Instr} (h : InStep s a n e ⟨off, stack⟩)
    (hread : Kind.AllRead (kinds s.addrSize i.op) i e) (hconstu : i.op ≠ .const .constu)
    (hconsts : i.op ≠ .const .consts) (hf : s.Faithful c i.op e) :
    Agrees s a n (s.execute c i.op e) ((s.machine c a n).execute i off stack) := by
  obtain ⟨op, v1, v2⟩ := i
  dsimp only at hread hconstu hconsts hf
  cases op with
  | lit k =>
    refine h.push ?_
    rw [toUInt64_eq, low_ofNat wordBits_le]
  | breg k => exact execute_breg h hf hread
  | bregx => exact execute_bregx h hf hread.1 hread.2
  | reg k => exact execute_reg hf
  | regx => exact execute_regx hf hread
  | const op =>
    exact InStep.push (e := { e with operand1 := Space.const op e.operand1 })
      ⟨h.addr, h.off_le, h.stack, h.small⟩
      (const_follows (fun h => hconstu (by rw [h])) (fun h => hconsts (by rw [h])) hread)
  | deref => exact execute_deref h hf
  | derefSize => exact execute_derefSize h hf hread
  | dup => exact h.pick rfl
  | drop => exact execute_drop h
  | pick => exact execute_pick h hread
  | «over» => exact h.pick rfl
  | swap => exact execute_swap h
  | rot => exact execute_rot h
  | unary op => exact execute_unary h hread
  | binary op => exact execute_binary h hf
  | skip => exact execute_skip h hread
  | bra => exact execute_bra h hf hread
  | nop =>
    intro t ht
    cases ht
    exact ⟨_, rfl, h⟩
  | other op => exact .none
  | unknown => exact .none

end Execute

/-! ## Runs -/

section Run

variable {s : Space} {c : Cursor} {a : UInt64} {n : ℕ}

/-- A pass does what a step of the machine does. -/
theorem exprStep_follows {e : ExprState} {st : State s.wordBits}
    {t : State s.wordBits ⊕ Result s.wordBits} (h : InStep s a n e st) (ha : a ≠ 0)
    (hfit : a.toNat + n < 2 ^ 64) (hp : 10 ≤ s.passes)
    (hf : e.addr < a + .ofNat n → s.FaithfulPass c (a + .ofNat n) e)
    (hstep : (s.machine c a n).step st = some t) :
    ∃ u, s.exprStep c (a + .ofNat n) e = u.map id .ok ∧ Follows s a n u t := by
  obtain ⟨off, stack⟩ := st
  have hoff : off ≤ n := h.off_le
  have haddr : e.addr = a + .ofNat off := h.addr
  have hnat : e.addr.toNat = a.toNat + off := by
    rw [haddr, toNat_add_ofNat (by omega)]
  have hend : (a + .ofNat n).toNat = a.toNat + n := toNat_add_ofNat hfit
  have hlt : e.addr < a + .ofNat n ↔ off < n := by
    rw [UInt64.lt_iff_toNat_lt, hnat, hend]
    omega
  have hlen : (s.machine c a n).code.length = n := length_block a n
  unfold Machine.step at hstep
  dsimp only at hstep
  rw [hlen] at hstep
  by_cases hlast : off = n
  · rw [if_pos hlast] at hstep
    obtain ⟨⟨y, stack'⟩, hy, ht⟩ := Option.bind_eq_some_iff.mp hstep
    cases ht
    obtain ⟨x, tail, -, hpop, hlow, -, -⟩ := h.pop hy
    unfold Space.exprStep
    rw [if_neg fun hless => (hlt.mp hless).ne hlast, hpop]
    exact ⟨.inr (.ofMem x), rfl, rfl, hlow⟩
  · have hless : off < n := by omega
    rw [if_neg hlast] at hstep
    obtain ⟨⟨i, rest⟩, hdec, hexec⟩ := Option.bind_eq_some_iff.mp hstep
    have hdec : decodeInstr s.addrSize ((s.block a n).drop off) = some (i, rest) := hdec
    obtain ⟨hright, hfaithful⟩ := hf (hlt.mpr hless)
    rw [hend, hnat, Nat.add_sub_add_left] at hright
    have hother : ∀ other, i.op ≠ .other other := by
      intro other hop
      unfold Machine.execute at hexec
      rw [hop] at hexec
      cases hexec
    obtain ⟨hop, e', hfetch, hstep', hread⟩ := fetch_eq h hdec hother hright ha hfit hp
    rw [hop] at hright
    obtain ⟨u, hu, hfollows⟩ := execute_follows hstep' hread hright.1 hright.2.1
      (hfaithful _ _ hfetch) t hexec
    exact ⟨u, exprStep_ok (hlt.mpr hless) hfetch hu, hfollows⟩

/-- The loop comes to the result of the machine. -/
theorem run_follows {k : ℕ} {e : ExprState} {st : State s.wordBits} {r : Result s.wordBits}
    (h : InStep s a n e st) (ha : a ≠ 0) (hfit : a.toNat + n < 2 ^ 64) (hp : 10 ≤ s.passes)
    (hf : ∀ e', Orbit.Reaches (s.exprStep c (a + .ofNat n)) e e' → e'.addr < a + .ofNat n →
      s.FaithfulPass c (a + .ofNat n) e')
    (heval : (s.machine c a n).eval k st = some r) :
    ∃ m loc, Orbit.run (s.exprStep c (a + .ofNat n)) m e = .inr (.ok loc) ∧ Denotes s loc r := by
  induction k generalizing e st with
  | zero => cases heval
  | succ k ih =>
    rw [Machine.eval] at heval
    cases hstep : (s.machine c a n).step st with
    | none =>
      rw [hstep] at heval
      cases heval
    | some t =>
      rw [hstep] at heval
      obtain ⟨u, hu, hfollows⟩ := exprStep_follows h ha hfit hp (hf e (.refl e)) hstep
      cases t with
      | inl st' =>
        cases u with
        | inl e' =>
          have hone := Orbit.Reaches.one hu
          obtain ⟨m, loc, hm, hdenotes⟩ :=
            ih hfollows (fun e'' h'' => hf e'' (hone.trans h'')) heval
          refine ⟨m + 1, loc, ?_, hdenotes⟩
          rw [Orbit.run, hu]
          exact hm
        | inr loc => cases hfollows
      | inr r' =>
        cases heval
        cases u with
        | inl e' => cases hfollows
        | inr loc =>
          refine ⟨1, loc, ?_, hfollows⟩
          rw [Orbit.run, hu]
          rfl

theorem machine_withPasses (p : ℕ) : (s.withPasses p).machine c a n = s.machine c a n := by
  unfold Space.machine
  rw [block_withPasses]
  rfl

theorem denotes_withPasses {p : ℕ} {loc : DwarfLoc} {r : Result s.wordBits}
    (h : Denotes (s.withPasses p) loc r) : Denotes s loc r := by
  cases r with
  | mem addr => exact h
  | place loc' => exact h

end Run

/-- An expression of `len` bytes is at `a`, behind its length. -/
structure ExprAt (s : Space) (addr a len : UInt64) : Prop where
  length : (s.withPasses enough).readUleb128 addr = .ok len a
  ne_zero : a ≠ 0
  fits : a.toNat + len.toNat < 2 ^ 64

/-- Where the standard gives a result for an expression, the evaluation gives the same, if each of
its passes is as the standard has it. -/
theorem evalExpr_standard {s : Space} {c : Cursor} {addr a len : UInt64} (hat : ExprAt s addr a len)
    (hf : ∀ endAddr e, s.ExprReaches c addr endAddr e → e.addr < endAddr →
      (s.withPasses enough).FaithfulPass c endAddr e) {k : ℕ} {r : Result s.wordBits}
    (heval : (s.machine c a len.toNat).eval k ⟨0, [low s.wordBits c.cfa]⟩ = some r) :
    ∃ loc, Denotes s loc r ∧ ∃ m, ∀ p ≥ m, (s.withPasses p).evalExpr c addr = .ok loc := by
  have hend : a + .ofNat len.toNat = a + len := by rw [UInt64.ofNat_toNat]
  have hstart : (s.withPasses enough).exprStart c addr = .ok (⟨a, 0, 0, [c.cfa]⟩, a + len) := by
    unfold Space.exprStart
    rw [hat.length]
  have hin : InStep (s.withPasses enough) a len.toNat ⟨a, 0, 0, [c.cfa]⟩
      ⟨0, [low s.wordBits c.cfa]⟩ :=
    ⟨(UInt64.add_zero a).symm, Nat.zero_le _, rfl, (by decide : 1 ≤ 64)⟩
  have heval : ((s.withPasses enough).machine c a len.toNat).eval k
      (⟨0, [low s.wordBits c.cfa]⟩ : State (s.withPasses enough).wordBits) = some r := by
    rw [machine_withPasses]
    exact heval
  have hten : 10 ≤ (s.withPasses enough).passes := (by decide : 10 ≤ enough)
  have hfaithful : ∀ e', Orbit.Reaches ((s.withPasses enough).exprStep c (a + .ofNat len.toNat))
      ⟨a, 0, 0, [c.cfa]⟩ e' → e'.addr < a + .ofNat len.toNat →
        (s.withPasses enough).FaithfulPass c (a + .ofNat len.toNat) e' := by
    rw [hend]
    exact fun e' hreach => hf (a + len) e' ⟨_, hstart, hreach⟩
  obtain ⟨m, loc, hm, hdenotes⟩ := run_follows hin hat.ne_zero hat.fits hten hfaithful heval
  refine ⟨loc, denotes_withPasses hdenotes, max m enough, fun p hp => ?_⟩
  have henough := (le_max_right m enough).trans hp
  have hstep : (s.withPasses p).exprStep c (a + len) = (s.withPasses enough).exprStep c (a + len) :=
    funext fun e => exprStep_steady henough le_rfl (a + len) e
  rw [hend] at hm
  rw [evalExpr_eq henough, hstart]
  show (s.withPasses p).exprLoop c (a + len) p ⟨a, 0, 0, [c.cfa]⟩ = _
  rw [exprLoop_eq, hstep, Orbit.run_of_done hm ((le_max_left m enough).trans hp)]

/-- `DW_OP_breg7 8`. -/
def cfaPlus : Space := imageOf [2, 0x77, 8]

theorem evalExpr_standard_breg : ∃ loc, Denotes cfaPlus loc (.mem 0x7008) ∧
    ∃ m, ∀ p ≥ m, (cfaPlus.withPasses p).evalExpr firstFrame 0x10000 = .ok loc := by
  have hpass : cfaPlus.exprMachine firstFrame 0x10003 ⟨0x10001, 0, 0, [0x7000]⟩ =
      .inl ⟨0x10003, 8, 0, [0x7008, 0x7000]⟩ := rfl
  have hlast : cfaPlus.exprMachine firstFrame 0x10003 ⟨0x10003, 8, 0, [0x7008, 0x7000]⟩ =
      .inr (.ok (.ofMem 0x7008)) := rfl
  have hat : ExprAt cfaPlus 0x10000 0x10001 2 := ⟨rfl, by decide, by decide⟩
  have heval : (cfaPlus.machine firstFrame 0x10001 (2 : UInt64).toNat).eval 2
      ⟨0, [low _ firstFrame.cfa]⟩ = some (.mem 0x7008) := rfl
  refine evalExpr_standard hat ?_ heval
  rintro endAddr e ⟨e₀, hstart, hreach⟩ hlt
  cases hstart
  have hstates : e = ⟨0x10001, 0, 0, [0x7000]⟩ ∨ e = ⟨0x10003, 8, 0, [0x7008, 0x7000]⟩ := by
    refine Orbit.Reaches.invariant (P := fun e => e = _ ∨ e = _) (fun x y hx hstep => ?_) (.inl rfl)
      hreach
    obtain rfl | rfl := hx
    · cases hpass.symm.trans hstep
      exact .inr rfl
    · cases hlast.symm.trans hstep
  obtain rfl | rfl := hstates
  · refine ⟨⟨by decide, by decide, ?_⟩, fun op e' hfetch => ?_⟩
    · intro m rest hm
      cases hm
      decide
    · cases hfetch
      show (cfaPlus.withPasses enough).FaithfulReg firstFrame 7
      exact fun _ _ hret => absurd rfl hret
  · exact absurd hlt (by decide)

/-- `DW_OP_constu 5`. -/
def constuFive : Space := imageOf [2, 0x10, 5]

/-- The standard pushes 5; the source takes the operand for an operation, and fails. -/
theorem constu_does_not_take_operand :
    ExprAt constuFive 0x10000 0x10001 2 ∧
      (constuFive.machine firstFrame 0x10001 2).eval 2 ⟨0, [low _ firstFrame.cfa]⟩ = some (.mem 5) ∧
      ∀ p ≥ enough,
        (constuFive.withPasses p).evalExpr firstFrame 0x10000 = .error (.error .inval) := by
  refine ⟨⟨rfl, by decide, by decide⟩, rfl, fun p hp => ?_⟩
  have hrun : Orbit.run (constuFive.exprMachine firstFrame 0x10003) 2 ⟨0x10001, 0, 0, [0x7000]⟩ =
      .inr (.error (.error .inval)) := rfl
  have hstart : (constuFive.withPasses enough).exprStart firstFrame 0x10000 =
      .ok (⟨0x10001, 0, 0, [0x7000]⟩, 0x10003) := rfl
  have hstep : (constuFive.withPasses p).exprStep firstFrame 0x10003 =
      constuFive.exprMachine firstFrame 0x10003 := funext fun e => exprStep_steady hp le_rfl _ e
  have htwo : 2 ≤ p := (by decide : 2 ≤ enough).trans hp
  rw [evalExpr_eq hp, hstart]
  show (constuFive.withPasses p).exprLoop firstFrame 0x10003 p ⟨0x10001, 0, 0, [0x7000]⟩ = _
  rw [exprLoop_eq, hstep, Orbit.run_of_done hrun htwo]

end Mtrace.Dwarf
