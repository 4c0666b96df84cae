import Mtrace.Dwarf.ExprLoop

/-!
# The array of an expression

`stack` and `tos` of `dwarf_eval_expr`, with the comparisons of `pop`, `push` and `pick` as they are
made: in 32 bits, with indices that wrap around.  All accesses to the array are recorded.

`execute_refines`: a `case` on the array does what it does on the list of the words up to `tos`.
-/

namespace Mtrace.Dwarf

/-- An access to `stack`, with the `tos` that it found. -/
structure StackAccess where
  index : UInt32
  tos : UInt32
  read : Bool
  deriving DecidableEq, Repr

/-- The local variables of `dwarf_eval_expr`. -/
structure StackState where
  addr : UInt64
  operand1 : UInt64
  operand2 : UInt64
  stack : ℕ → UInt64
  tos : UInt32
  accesses : List StackAccess

abbrev StackM := EStateM Halt StackState

namespace StackM

def invalid {α : Type} : StackM α := throw (.error .inval)

/-- A result that does not touch the variables. -/
def ofCall {α : Type} (r : Except Halt α) : StackM α :=
  match r with
  | .ok a => pure a
  | .error h => throw h

/-- `push`. -/
def push (x : UInt64) : StackM Unit := fun st =>
  if 64 ≤ st.tos then invalid st
  else .ok () { st with
    stack := Function.update st.stack st.tos.toNat x
    tos := st.tos + 1
    accesses := ⟨st.tos, st.tos, false⟩ :: st.accesses }

/-- `pop`. -/
def pop : StackM UInt64 := fun st =>
  if 64 ≤ st.tos - 1 then invalid st
  else .ok (st.stack (st.tos - 1).toNat) { st with
    tos := st.tos - 1
    accesses := ⟨st.tos - 1, st.tos, true⟩ :: st.accesses }

/-- The `_index` of `pick`; an operand has 64 bits. -/
def pickIndex (tos : UInt32) (n : UInt64) : UInt32 := ((tos - 1).toUInt64 - n).toUInt32

/-- `pick`. -/
def pick (n : UInt64) : StackM UInt64 := fun st =>
  let index := pickIndex st.tos n
  if 64 ≤ index then invalid st
  else .ok (st.stack index.toNat) { st with accesses := ⟨index, st.tos, true⟩ :: st.accesses }

end StackM

namespace Space

open StackM

variable (s : Space)

/-- The `case` of an operation; the result is the place that is returned, if it returns. -/
def executeStack (c : Cursor) (op : ExprOp) : StackM (Option DwarfLoc) := do
  match op with
  | .lit n => push n.toUInt64; return none
  | .breg n =>
    let tmp1 ← ofCall (s.getReg c n.toUInt64)
    push (tmp1 + (← get).operand1)
    return none
  | .bregx =>
    let tmp1 ← ofCall (s.getReg c (← get).operand1)
    push (tmp1 + (← get).operand2)
    return none
  | .reg n => return some (.ofReg n.toUInt64)
  | .regx => return some (.ofReg (← get).operand1)
  | .const op =>
    modify fun st => { st with operand1 := const op st.operand1 }
    push (← get).operand1
    return none
  | .deref =>
    let tmp1 ← pop
    let tmp2 ← ofCall (s.access tmp1 s.addrSize)
    push tmp2
    return none
  | .derefSize =>
    let tmp1 ← pop
    let tmp2 ← ofCall (s.derefSize tmp1 (← get).operand1)
    push tmp2
    return none
  | .dup => push (← pick 0); return none
  | .drop => let _ ← pop; return none
  | .pick => push (← pick (← get).operand1); return none
  | .over => push (← pick 1); return none
  | .swap =>
    let tmp1 ← pop
    let tmp2 ← pop
    push tmp1
    push tmp2
    return none
  | .rot =>
    let tmp1 ← pop
    let tmp2 ← pop
    let tmp3 ← pop
    push tmp1
    push tmp3
    push tmp2
    return none
  | .unary op =>
    let tmp1 ← pop
    push (s.unary op (← get).operand1 tmp1)
    return none
  | .binary op =>
    let tmp1 ← pop
    let tmp2 ← pop
    let tmp1 ← ofCall (match s.binary op tmp1 tmp2 with
      | .inl tmp1 => .ok tmp1
      | .inr arith => arith.run)
    push tmp1
    return none
  | .skip => modify fun st => { st with addr := st.addr + sval16 st.operand1 }; return none
  | .bra =>
    let tmp1 ← pop
    if tmp1 ≠ 0 then modify fun st => { st with addr := st.addr + sval16 st.operand1 }
    return none
  | .nop => return none
  | .other _ | .unknown => invalid

/-- The opcode and its operands. -/
def fetchStack : StackM ExprOp := fun st =>
  match s.readOp st.operand1 st.operand2 st.addr with
  | .ok (op, operand1, operand2) addr => .ok op { st with addr, operand1, operand2 }
  | .error h addr => .error h { st with addr }

/-- The body of the loop of `dwarf_eval_expr`. -/
def stackPass (c : Cursor) : StackM (Option DwarfLoc) := do s.executeStack c (← s.fetchStack)

/-- A pass of the loop, or what is behind it, with the variables at the end. -/
def stackStep (c : Cursor) (endAddr : UInt64) (st : StackState) :
    StackState ⊕ Except Halt DwarfLoc × StackState :=
  if st.addr < endAddr then
    match s.stackPass c st with
    | .ok none st => .inl st
    | .ok (some loc) st => .inr (.ok loc, st)
    | .error h st => .inr (.error h, st)
  else
    match pop st with
    | .ok val st => .inr (.ok (.ofMem val), st)
    | .error h st => .inr (.error h, st)

/-- The variables in front of the loop; whatever is on the stack of the processor is in `stack`. -/
def stackStart (c : Cursor) (addr : UInt64) (stack : ℕ → UInt64) :
    Except Halt (EStateM.Result Halt StackState Unit × UInt64) :=
  match s.readUleb128 addr with
  | .ok len addr => .ok (push c.cfa ⟨addr, 0, 0, stack, 0, []⟩, addr + len)
  | .error h _ => .error h

end Space

/-! ## One level to the other -/

/-- An access to the array: it is inside, and what is read was pushed before. -/
def StackAccess.Inside (a : StackAccess) : Prop :=
  a.tos ≤ 64 ∧ a.index < 64 ∧ (a.read = true → a.index < a.tos)

/-- The words up to `tos`, from the top on. -/
def StackState.words (st : StackState) : List UInt64 :=
  ((List.range st.tos.toNat).map st.stack).reverse

def StackState.toExpr (st : StackState) : ExprState := ⟨st.addr, st.operand1, st.operand2, st.words⟩

structure StackState.Good (st : StackState) : Prop where
  tos : st.tos ≤ 64
  inside : ∀ a ∈ st.accesses, a.Inside

/-- The results on the two levels agree, and `tos` and all accesses are inside. -/
def Refines {α β : Type} (Q : α → StackState → β → Prop) (x : EStateM.Result Halt StackState α)
    (y : Except Halt β) : Prop :=
  match x, y with
  | .ok a st, .ok b => st.Good ∧ Q a st b
  | .error h st, .error h' => st.Good ∧ h = h'
  | _, _ => False

section Refines

open StackM

variable {α β γ δ : Type} {Q : α → StackState → β → Prop} {Q' : γ → StackState → δ → Prop}
  {st : StackState}

theorem Refines.of_ok {a : α} {y : Except Halt β} (h : Refines Q (.ok a st) y) :
    ∃ b, y = .ok b ∧ st.Good ∧ Q a st b := by
  cases y with
  | ok b => exact ⟨b, rfl, h⟩
  | error e => exact h.elim

theorem Refines.of_error {e : Halt} {y : Except Halt β} (h : Refines Q (.error e st) y) :
    y = .error e ∧ st.Good := by
  cases y with
  | ok b => exact h.elim
  | error e' => exact ⟨congrArg Except.error h.2.symm, h.1⟩

theorem refines_bind {m : StackM α} {f : α → StackM γ} {y : Except Halt β} {g : β → Except Halt δ}
    (hm : Refines Q (m st) y)
    (hf : ∀ a st' b, st'.Good → Q a st' b → Refines Q' (f a st') (g b)) :
    Refines Q' ((m >>= f) st) (y >>= g) := by
  show Refines Q' (EStateM.bind m f st) (y.bind g)
  unfold EStateM.bind
  cases hx : m st with
  | ok a st' =>
    rw [hx] at hm
    cases y with
    | ok b => exact hf a st' b hm.1 hm.2
    | error h => exact hm.elim
  | error h st' =>
    rw [hx] at hm
    cases y with
    | ok b => exact hm.elim
    | error h' => exact hm

theorem refines_pure (hst : st.Good) {a : α} {b : β} (h : Q a st b) :
    Refines Q ((pure a : StackM α) st) (.ok b) := ⟨hst, h⟩

theorem refines_ofCall (hst : st.Good) (r : Except Halt α) :
    Refines (fun a st' b => a = b ∧ st' = st) ((ofCall r) st) r := by
  cases r with
  | ok a => exact ⟨hst, rfl, rfl⟩
  | error h => exact ⟨hst, rfl⟩

/-! ### The array -/

theorem le_64_iff {x : UInt32} : x ≤ 64 ↔ x.toNat ≤ 64 := UInt32.le_iff_toNat_le

theorem toNat_pred {x : UInt32} (h : 0 < x.toNat) : (x - 1).toNat = x.toNat - 1 := by
  have hle : (1 : UInt32) ≤ x := UInt32.le_iff_toNat_le.mpr h
  rw [UInt32.toNat_sub_of_le _ _ hle]
  rfl

theorem length_words (st : StackState) : st.words.length = st.tos.toNat := by
  unfold StackState.words
  simp

theorem words_succ {stack : ℕ → UInt64} {n : ℕ} :
    ((List.range (n + 1)).map stack).reverse = stack n :: ((List.range n).map stack).reverse := by
  rw [List.range_succ, List.map_append, List.reverse_append]
  rfl

/-- The comparison of `push` is that with the size. -/
theorem refines_push (hst : st.Good) (x : UInt64) :
    Refines (fun _ st' e => e = st'.toExpr) (push x st) (st.toExpr.push x) := by
  have htos := le_64_iff.mp hst.tos
  unfold push ExprState.push
  rw [show st.toExpr.stack.length = st.tos.toNat from length_words st]
  by_cases hfull : 64 ≤ st.tos
  · have hge := UInt32.le_iff_toNat_le.mp hfull
    rw [if_pos hfull, if_neg (by exact fun h => absurd hge (by simpa using h))]
    exact ⟨hst, rfl⟩
  · have hlt : st.tos.toNat < 64 := by
      rw [UInt32.le_iff_toNat_le] at hfull
      exact Nat.lt_of_not_le hfull
    have hnext : (st.tos + 1).toNat = st.tos.toNat + 1 := by
      rw [UInt32.toNat_add]
      exact Nat.mod_eq_of_lt (by simpa using by omega)
    rw [if_neg hfull, if_pos hlt]
    refine ⟨⟨?_, ?_⟩, ?_⟩
    · rw [le_64_iff, hnext]
      exact hlt
    · intro a ha
      rcases List.mem_cons.mp ha with rfl | ha
      · exact ⟨hst.tos, UInt32.lt_iff_toNat_lt.mpr hlt, fun h => absurd h Bool.false_ne_true⟩
      · exact hst.inside a ha
    · unfold StackState.toExpr StackState.words
      dsimp only
      rw [hnext, words_succ, Function.update_self]
      congr 3
      refine List.map_congr_left fun i hi => ?_
      exact (Function.update_of_ne (Nat.ne_of_lt (List.mem_range.mp hi)) _ _).symm

/-- That of `pop` is true for an empty stack, as `tos - 1` wraps around. -/
theorem refines_pop (hst : st.Good) :
    Refines (fun a st' r => r = (a, st'.toExpr)) (pop st) st.toExpr.pop := by
  have htos := le_64_iff.mp hst.tos
  unfold pop ExprState.pop
  obtain hzero | hpos := Nat.eq_zero_or_pos st.tos.toNat
  · have htop : st.tos = 0 := UInt32.toNat_inj.mp hzero
    have hwords : st.toExpr.stack = [] := by
      unfold StackState.toExpr StackState.words
      rw [htop]
      rfl
    rw [htop, if_pos (by decide), hwords]
    exact ⟨hst, rfl⟩
  · have hpred := toNat_pred hpos
    have hlt : ¬ 64 ≤ st.tos - 1 := by
      rw [UInt32.le_iff_toNat_le, hpred]
      exact Nat.not_le_of_lt (by simpa using by omega)
    have hwords : st.toExpr.stack = st.stack (st.tos - 1).toNat ::
        ((List.range (st.tos - 1).toNat).map st.stack).reverse := by
      unfold StackState.toExpr StackState.words
      dsimp only
      rw [← words_succ, hpred, Nat.sub_add_cancel hpos]
    rw [if_neg hlt, hwords]
    refine ⟨⟨?_, ?_⟩, rfl⟩
    · rw [le_64_iff, hpred]
      omega
    · intro a ha
      rcases List.mem_cons.mp ha with rfl | ha
      · refine ⟨hst.tos, ?_, fun _ => ?_⟩
        · rw [UInt32.lt_iff_toNat_lt, hpred]
          exact Nat.lt_of_lt_of_le (Nat.sub_lt hpos one_pos) htos
        · rw [UInt32.lt_iff_toNat_lt, hpred]
          exact Nat.sub_lt hpos one_pos
      · exact hst.inside a ha

theorem toNat_pickIndex (tos : UInt32) (n : UInt64) : (pickIndex tos n).toNat =
    (2 ^ 64 - n.toNat + (2 ^ 32 - 1 + tos.toNat) % 2 ^ 32) % 2 ^ 64 % 2 ^ 32 := by
  unfold pickIndex
  rw [UInt64.toNat_toUInt32, UInt64.toNat_sub, UInt32.toNat_toUInt64, UInt32.toNat_sub]
  rfl

/-- Below a pushed word there is the one that was pushed before it. -/
theorem words_getElem? {st : StackState} {n : ℕ} :
    st.words[n]? = if n < st.tos.toNat then some (st.stack (st.tos.toNat - 1 - n)) else none := by
  unfold StackState.words
  split
  next hlt =>
    rw [List.getElem?_reverse (by simpa using hlt)]
    simp only [List.length_map, List.length_range]
    rw [List.getElem?_map, List.getElem?_range (by omega)]
    rfl
  next hge =>
    apply List.getElem?_eq_none
    simpa using hge

/-- An operand of one byte does not get the index back below the size. -/
theorem refines_pick (hst : st.Good) {n : UInt64} (hn : n.toNat < 256) :
    Refines (fun a st' b => a = b ∧ st'.toExpr = st.toExpr) (pick n st) (st.toExpr.pick n) := by
  have htos := le_64_iff.mp hst.tos
  have hindex := toNat_pickIndex st.tos n
  unfold pick ExprState.pick
  dsimp only
  rw [show st.toExpr.stack[n.toNat]? = _ from words_getElem?]
  by_cases hlt : n.toNat < st.tos.toNat
  · have hin : (pickIndex st.tos n).toNat = st.tos.toNat - 1 - n.toNat := by omega
    have hsmall : ¬ 64 ≤ pickIndex st.tos n := by
      rw [UInt32.le_iff_toNat_le, hin]
      exact Nat.not_le_of_lt (by simpa using by omega)
    rw [if_neg hsmall, if_pos hlt]
    refine ⟨⟨hst.tos, ?_⟩, ?_, rfl⟩
    · intro a ha
      rcases List.mem_cons.mp ha with rfl | ha
      · refine ⟨hst.tos, UInt32.not_le.mp hsmall, fun _ => ?_⟩
        rw [UInt32.lt_iff_toNat_lt, hin]
        show st.tos.toNat - 1 - n.toNat < st.tos.toNat
        omega
      · exact hst.inside a ha
    · rw [hin]
  · have hlarge : 64 ≤ pickIndex st.tos n := by
      rw [UInt32.le_iff_toNat_le, hindex]
      simpa using by omega
    rw [if_pos hlarge, if_neg hlt]
    exact ⟨hst, rfl⟩

/-! ### Operations -/

/-- How a `case` ends on the list. -/
def endOf (loc : Option DwarfLoc) (st : StackState) : ExprState ⊕ DwarfLoc :=
  match loc with
  | none => .inl st.toExpr
  | some loc => .inr loc

theorem refines_push_last (hst : st.Good) (x : UInt64) :
    Refines (fun loc st' r => r = endOf loc st') ((do push x; return none : StackM _) st)
      (do return .inl (← st.toExpr.push x)) := by
  apply refines_bind (refines_push hst x)
  rintro _ st' _ hst' rfl
  exact refines_pure hst' rfl

/-- A `case` on the array does what it does on the list. -/
theorem execute_refines (s : Space) (c : Cursor) (op : ExprOp) (hst : st.Good)
    (hpick : op = .pick → st.operand1.toNat < 256) :
    Refines (fun loc st' r => r = endOf loc st') (s.executeStack c op st)
      (s.execute c op st.toExpr) := by
  cases op with
  | lit n => exact refines_push_last hst _
  | breg n =>
    apply refines_bind (refines_ofCall hst _)
    rintro tmp1 st' _ hst' ⟨rfl, rfl⟩
    exact refines_push_last hst' _
  | bregx =>
    apply refines_bind (refines_ofCall hst (s.getReg c st.operand1))
    rintro tmp1 st' _ hst' ⟨rfl, rfl⟩
    exact refines_push_last hst' _
  | reg n => exact ⟨hst, rfl⟩
  | regx => exact ⟨hst, rfl⟩
  | const op =>
    have hconst : StackState.Good { st with operand1 := Space.const op st.operand1 } :=
      ⟨hst.tos, hst.inside⟩
    exact refines_push_last hconst (Space.const op st.operand1)
  | deref =>
    apply refines_bind (refines_pop hst)
    rintro tmp1 st1 _ hst1 rfl
    apply refines_bind (refines_ofCall hst1 _)
    rintro tmp2 st2 _ hst2 ⟨rfl, rfl⟩
    exact refines_push_last hst2 _
  | derefSize =>
    apply refines_bind (refines_pop hst)
    rintro tmp1 st1 _ hst1 rfl
    apply refines_bind (refines_ofCall hst1 (s.derefSize tmp1 st1.operand1))
    rintro tmp2 st2 _ hst2 ⟨rfl, rfl⟩
    exact refines_push_last hst2 _
  | dup =>
    apply refines_bind (refines_pick hst (by decide))
    rintro x st1 _ hst1 ⟨rfl, hsame⟩
    rw [← hsame]
    exact refines_push_last hst1 _
  | drop =>
    apply refines_bind (refines_pop hst)
    rintro x st1 _ hst1 rfl
    exact refines_pure hst1 rfl
  | pick =>
    apply refines_bind (refines_pick hst (hpick rfl))
    rintro x st1 _ hst1 ⟨rfl, hsame⟩
    rw [← hsame]
    exact refines_push_last hst1 _
  | «over» =>
    apply refines_bind (refines_pick hst (by decide))
    rintro x st1 _ hst1 ⟨rfl, hsame⟩
    rw [← hsame]
    exact refines_push_last hst1 _
  | swap =>
    apply refines_bind (refines_pop hst)
    rintro tmp1 st1 _ hst1 rfl
    apply refines_bind (refines_pop hst1)
    rintro tmp2 st2 _ hst2 rfl
    apply refines_bind (refines_push hst2 tmp1)
    rintro _ st3 _ hst3 rfl
    exact refines_push_last hst3 tmp2
  | rot =>
    apply refines_bind (refines_pop hst)
    rintro tmp1 st1 _ hst1 rfl
    apply refines_bind (refines_pop hst1)
    rintro tmp2 st2 _ hst2 rfl
    apply refines_bind (refines_pop hst2)
    rintro tmp3 st3 _ hst3 rfl
    apply refines_bind (refines_push hst3 tmp1)
    rintro _ st4 _ hst4 rfl
    apply refines_bind (refines_push hst4 tmp3)
    rintro _ st5 _ hst5 rfl
    exact refines_push_last hst5 tmp2
  | unary op =>
    apply refines_bind (refines_pop hst)
    rintro tmp1 st1 _ hst1 rfl
    exact refines_push_last hst1 _
  | binary op =>
    apply refines_bind (refines_pop hst)
    rintro tmp1 st1 _ hst1 rfl
    apply refines_bind (refines_pop hst1)
    rintro tmp2 st2 _ hst2 rfl
    dsimp only
    cases s.binary op tmp1 tmp2 with
    | inl val => exact refines_push_last hst2 val
    | inr arith =>
      apply refines_bind (refines_ofCall hst2 arith.run)
      rintro val st3 _ hst3 ⟨rfl, rfl⟩
      exact refines_push_last hst3 val
  | skip => exact ⟨⟨hst.tos, hst.inside⟩, rfl⟩
  | bra =>
    apply refines_bind (refines_pop hst)
    rintro tmp1 st1 _ hst1 rfl
    dsimp only
    split
    · exact ⟨⟨hst1.tos, hst1.inside⟩, rfl⟩
    · exact ⟨hst1, rfl⟩
  | nop => exact ⟨hst, rfl⟩
  | other op => exact ⟨hst, rfl⟩
  | unknown => exact ⟨hst, rfl⟩

/-! ### The loop -/

variable {s : Space} {c : Cursor} {endAddr : UInt64}

/-- The index of `DW_OP_pick` is one byte. -/
theorem pick_operand {op : ExprOp} {operand1 operand2 addr addr' : UInt64} {r : UInt64 × UInt64}
    (h : s.readOp operand1 operand2 addr = .ok (op, r) addr') (hop : op = .pick) :
    r.1.toNat < 256 := by
  subst hop
  obtain ⟨opcode, a1, -, hread⟩ := bind_eq_ok.mp h
  obtain ⟨operands, a2, hoperands, hpair⟩ := bind_eq_ok.mp hread
  obtain ⟨hpair, -⟩ := pure_eq_ok.mp hpair
  obtain ⟨hop, rfl⟩ := Prod.ext_iff.mp hpair
  dsimp only at hop
  rw [hop] at hoperands
  obtain ⟨val, a3, hval, hpair⟩ := bind_eq_ok.mp hoperands
  obtain ⟨rfl, -⟩ := pure_eq_ok.mp hpair
  by_cases ha : a1 = 0
  · rw [ha] at hval
    cases hval
  · have hword : val = s.word a1 1 := by
      have hread := (read_eq 1 ha).symm.trans hval
      cases hread
      rfl
    rw [hword]
    have hlt := ByteOrder.leValue_lt ((List.range 1).map fun i => s.image (a1 + .ofNat i))
    unfold Space.word
    rw [UInt64.toNat_ofNat']
    rw [List.length_map, List.length_range, pow_one] at hlt
    exact (Nat.mod_le _ _).trans_lt hlt

theorem fetch_refines (hst : st.Good) :
    Refines (fun op st' r => r = (op, st'.toExpr) ∧ (op = .pick → st'.operand1.toNat < 256))
      (s.fetchStack st) (s.fetch st.toExpr) := by
  unfold Space.fetchStack Space.fetch
  rw [show s.readOp st.toExpr.operand1 st.toExpr.operand2 st.toExpr.addr =
    s.readOp st.operand1 st.operand2 st.addr from rfl]
  cases hread : s.readOp st.operand1 st.operand2 st.addr with
  | ok r addr => exact ⟨⟨hst.tos, hst.inside⟩, rfl, pick_operand hread⟩
  | error h addr => exact ⟨⟨hst.tos, hst.inside⟩, rfl⟩

theorem stackPass_of_ok {op : ExprOp} {st' : StackState} (h : s.fetchStack st = .ok op st') :
    s.stackPass c st = s.executeStack c op st' := by
  show EStateM.bind s.fetchStack _ st = _
  unfold EStateM.bind
  rw [h]

theorem stackPass_of_error {h : Halt} {st' : StackState} (herr : s.fetchStack st = .error h st') :
    s.stackPass c st = .error h st' := by
  show EStateM.bind s.fetchStack _ st = _
  unfold EStateM.bind
  rw [herr]

/-- The variables behind a pass. -/
def stateOf (x : StackState ⊕ Except Halt DwarfLoc × StackState) : StackState := x.elim id Prod.snd

/-- A pass on the array is a pass on the list. -/
theorem stackStep_refines (hst : st.Good) : (stateOf (s.stackStep c endAddr st)).Good ∧
    (s.stackStep c endAddr st).map StackState.toExpr Prod.fst = s.exprStep c endAddr st.toExpr := by
  by_cases hlt : st.addr < endAddr
  · have hlt' : st.toExpr.addr < endAddr := hlt
    have hfetch := fetch_refines (s := s) hst
    unfold Space.stackStep
    rw [if_pos hlt]
    cases hf : s.fetchStack st with
    | error h st1 =>
      rw [hf] at hfetch
      obtain ⟨hb, hgood⟩ := hfetch.of_error
      have hpass : s.stackPass c st = .error h st1 := stackPass_of_error hf
      rw [hpass, exprStep_error hlt' (.inl hb)]
      exact ⟨hgood, rfl⟩
    | ok op st1 =>
      rw [hf] at hfetch
      obtain ⟨_, hb, hgood, rfl, hpick⟩ := hfetch.of_ok
      have hexec := execute_refines s c op hgood hpick
      rw [stackPass_of_ok hf]
      cases hx : s.executeStack c op st1 with
      | error h st2 =>
        rw [hx] at hexec
        obtain ⟨he, hgood2⟩ := hexec.of_error
        rw [exprStep_error hlt' (.inr ⟨op, st1.toExpr, hb, he⟩)]
        exact ⟨hgood2, rfl⟩
      | ok loc st2 =>
        rw [hx] at hexec
        obtain ⟨_, he, hgood2, rfl⟩ := hexec.of_ok
        rw [exprStep_ok hlt' hb he]
        cases loc with
        | none => exact ⟨hgood2, rfl⟩
        | some l => exact ⟨hgood2, rfl⟩
  · have hpop := refines_pop hst
    unfold Space.stackStep Space.exprStep
    rw [if_neg hlt, if_neg (show ¬ st.toExpr.addr < endAddr from hlt)]
    cases hx : pop st with
    | ok val st1 =>
      rw [hx] at hpop
      obtain ⟨b, hb, hgood, rfl⟩ := hpop.of_ok
      rw [hb]
      exact ⟨hgood, rfl⟩
    | error h st1 =>
      rw [hx] at hpop
      obtain ⟨hb, hgood⟩ := hpop.of_error
      rw [hb]
      exact ⟨hgood, rfl⟩

/-- So it is with any number of passes. -/
theorem run_refines (hst : st.Good) (n : ℕ) :
    (stateOf (Orbit.run (s.stackStep c endAddr) n st)).Good ∧
      (Orbit.run (s.stackStep c endAddr) n st).map StackState.toExpr Prod.fst =
        Orbit.run (s.exprStep c endAddr) n st.toExpr := by
  induction n generalizing st with
  | zero => exact ⟨hst, rfl⟩
  | succ n ih =>
    obtain ⟨hgood, hstep⟩ : (stateOf (s.stackStep c endAddr st)).Good ∧
        (s.stackStep c endAddr st).map StackState.toExpr Prod.fst =
          s.exprStep c endAddr st.toExpr :=
      stackStep_refines hst
    rw [Orbit.run, Orbit.run, ← hstep]
    cases hx : s.stackStep c endAddr st with
    | inl st' =>
      rw [hx] at hgood
      exact ih hgood
    | inr r =>
      rw [hx] at hgood
      exact ⟨hgood, rfl⟩

/-- The first push finds room. -/
theorem stackStart_refines (c : Cursor) (addr : UInt64) (stack : ℕ → UInt64) :
    (∃ st endAddr, s.stackStart c addr stack = .ok (.ok () st, endAddr) ∧ st.Good ∧
      s.exprStart c addr = .ok (st.toExpr, endAddr)) ∨
    ∃ h, s.stackStart c addr stack = .error h ∧ s.exprStart c addr = .error h := by
  unfold Space.stackStart Space.exprStart
  cases s.readUleb128 addr with
  | error h a => exact .inr ⟨h, rfl, rfl⟩
  | ok len a =>
    have hempty : (StackState.mk a 0 0 stack 0 []).Good := by
      constructor
      · exact le_64_iff.mpr (Nat.zero_le 64)
      · exact fun _ hin => absurd hin List.not_mem_nil
    have hpush := refines_push hempty c.cfa
    have hexpr : (StackState.mk a 0 0 stack 0 []).toExpr.push c.cfa = .ok ⟨a, 0, 0, [c.cfa]⟩ := rfl
    rw [hexpr] at hpush
    refine .inl ?_
    dsimp only
    cases hx : push c.cfa ⟨a, 0, 0, stack, 0, []⟩ with
    | ok u st =>
      rw [hx] at hpush
      obtain ⟨_, hb, hgood, rfl⟩ := hpush.of_ok
      refine ⟨st, a + len, rfl, hgood, ?_⟩
      rw [← Except.ok.inj hb]
    | error h st =>
      rw [hx] at hpush
      exact absurd hpush.of_error.1 (by simp)

end Refines

/-! ## An evaluation -/

namespace Space

variable (s : Space)

/-- What the variables come to in the evaluation of an expression, at its end or before. -/
def StackReaches (c : Cursor) (addr : UInt64) (stack : ℕ → UInt64) (st : StackState) : Prop :=
  ∃ st₀ endAddr n, s.stackStart c addr stack = .ok (.ok () st₀, endAddr) ∧
    st = stateOf (Orbit.run (s.stackStep c endAddr) n st₀)

/-- `dwarf_eval_expr` on the array. -/
def evalStack (c : Cursor) (addr : UInt64) (stack : ℕ → UInt64) : Except Halt DwarfLoc :=
  match s.stackStart c addr stack with
  | .ok (.ok () st, endAddr) =>
    match Orbit.run (s.stackStep c endAddr) s.passes st with
    | .inl _ => .error .running
    | .inr r => r.1
  | .ok (.error h _, _) => .error h
  | .error h => .error h

end Space

/-- Where an element is not there, or no room, the evaluation ends with `DWARF_EINVAL`; nothing else
stops an access. -/
structure StackState.Checked (st : StackState) : Prop where
  pop : StackM.pop st = StackM.invalid st ↔ st.tos = 0
  push : ∀ x, StackM.push x st = StackM.invalid st ↔ st.tos = 64
  pick : ∀ n : UInt64,
    n.toNat < 256 → (StackM.pick n st = StackM.invalid st ↔ st.tos.toNat ≤ n.toNat)

section Evaluation

variable {s : Space} {c : Cursor} {addr : UInt64} {stack : ℕ → UInt64} {st : StackState}

theorem StackState.checked (h : st.tos ≤ 64) : st.Checked := by
  have htos := le_64_iff.mp h
  have hzero : st.tos = 0 ↔ st.tos.toNat = 0 := UInt32.toNat_inj.symm
  constructor
  · unfold StackM.pop
    split
    next hle =>
      apply iff_of_true rfl
      rw [UInt32.le_iff_toNat_le, UInt32.toNat_sub] at hle
      rw [hzero]
      simp at hle
      omega
    next hlt =>
      apply iff_of_false
      · exact fun heq => by cases heq
      · intro heq
        rw [heq] at hlt
        exact hlt (by decide)
  · intro x
    have hfull : st.tos = 64 ↔ st.tos.toNat = 64 := UInt32.toNat_inj.symm
    unfold StackM.push
    rw [hfull]
    split
    next hle =>
      apply iff_of_true rfl
      rw [UInt32.le_iff_toNat_le] at hle
      exact Nat.le_antisymm htos hle
    next hlt =>
      apply iff_of_false
      · exact fun heq => by cases heq
      · rw [UInt32.le_iff_toNat_le] at hlt
        exact fun heq => hlt heq.ge
  · intro n hn
    have hindex := toNat_pickIndex st.tos n
    unfold StackM.pick
    dsimp only
    split
    next hle =>
      apply iff_of_true rfl
      rw [UInt32.le_iff_toNat_le, hindex] at hle
      simp at hle
      omega
    next hlt =>
      apply iff_of_false
      · exact fun heq => by cases heq
      · rw [UInt32.le_iff_toNat_le, hindex] at hlt
        simp at hlt
        omega

theorem good_of_reaches (h : s.StackReaches c addr stack st) : st.Good := by
  obtain ⟨st₀, endAddr, n, hstart, rfl⟩ := h
  rcases stackStart_refines (s := s) c addr stack with ⟨st₁, e, hok, hgood, -⟩ | ⟨h, herr, -⟩
  · rw [hok] at hstart
    cases hstart
    exact (run_refines hgood n).1
  · rw [herr] at hstart
    cases hstart

theorem evalStack_eq (s : Space) (c : Cursor) (addr : UInt64) (stack : ℕ → UInt64) :
    s.evalStack c addr stack = s.evalExpr c addr := by
  unfold Space.evalStack Space.evalExpr
  rcases stackStart_refines (s := s) c addr stack with ⟨st, e, hok, hgood, hexpr⟩ | ⟨h, herr, hexpr⟩
  · have hrun : (Orbit.run (s.stackStep c e) s.passes st).map StackState.toExpr Prod.fst =
        Orbit.run (s.exprStep c e) s.passes st.toExpr := (run_refines hgood s.passes).2
    rw [hok, hexpr]
    show _ = s.exprLoop c e s.passes st.toExpr
    rw [exprLoop_eq, ← hrun]
    dsimp only
    cases Orbit.run (s.stackStep c e) s.passes st with
    | inl st' => rfl
    | inr r => rfl
  · rw [herr, hexpr]
    rfl

/-- In every evaluation the depth is between 0 and 64, no access is outside of the array, and what
is read was pushed before; what is not there ends the evaluation with an error.  The result is that
of the list. -/
theorem expr_stack_inside (s : Space) (c : Cursor) (addr : UInt64) (stack : ℕ → UInt64) :
    (∀ st, s.StackReaches c addr stack st → st.tos ≤ 64 ∧ ∀ a ∈ st.accesses, a.Inside) ∧
    (∀ st : StackState, st.tos ≤ 64 → st.Checked) ∧
    s.evalStack c addr stack = s.evalExpr c addr := by
  refine ⟨fun st h => ?_, fun st h => StackState.checked h, evalStack_eq s c addr stack⟩
  have hgood := good_of_reaches h
  exact ⟨hgood.tos, hgood.inside⟩

end Evaluation

end Mtrace.Dwarf
