import Mtrace.Dwarf.Reader

/-!
# Enough passes

A number in LEB128 format is read byte for byte, and address 0 cannot be read: the loop makes
`2 ^ 64` passes at most.  What is read with so many passes does not change with more of them. -/

namespace Mtrace.Dwarf

/-- As many passes as there are addresses. -/
def enough : ℕ := 2 ^ 64

/-- The same with another number of passes. -/
def Space.withPasses (s : Space) (passes : ℕ) : Space := { s with passes }

/-- With enough passes, a reader gives the same for any number of them. -/
def Steady {α : Type} (r : ℕ → Reader α) : Prop :=
  ∀ p q, enough ≤ p → enough ≤ q → ∀ a, r p a = r q a ∧ ∀ a', r p a ≠ .error .running a'

namespace Steady

variable {α β : Type}

theorem bind {r : ℕ → Reader α} {f : ℕ → α → Reader β} (hr : Steady r)
    (hf : ∀ a, Steady fun p => f p a) : Steady fun p => r p >>= f p := by
  intro p q hp hq a
  obtain ⟨heq, hrun⟩ := hr p q hp hq a
  show EStateM.bind (r p) (f p) a = EStateM.bind (r q) (f q) a ∧ ∀ a', EStateM.bind _ _ a ≠ _
  unfold EStateM.bind
  rw [← heq]
  cases hrp : r p a with
  | ok b a' => exact hf b p q hp hq a'
  | error h a' =>
    refine ⟨rfl, fun a'' heq' => hrun a' ?_⟩
    cases heq'
    exact hrp

theorem const {r : Reader α} (h : ∀ a a', r a ≠ .error .running a') : Steady fun _ => r :=
  fun _ _ _ _ a => ⟨rfl, h a⟩

theorem pure (x : α) : Steady fun _ => (pure x : Reader α) := const fun _ _ h => by cases h

theorem ite {P : Prop} [Decidable P] {r t : ℕ → Reader α} (hr : Steady r) (ht : Steady t) :
    Steady fun p => if P then r p else t p := by
  by_cases hP : P
  · simpa only [if_pos hP] using hr
  · simpa only [if_neg hP] using ht

end Steady

section Leb128

variable {s : Space} {a : UInt64}

theorem read_zero (size : ℕ) : s.read size 0 = .error (.error .inval) 0 := rfl

theorem read_eq (size : ℕ) (h : a ≠ 0) : s.read size a = .ok (s.word a size) (a + .ofNat size) := by
  show (if a = 0 then Reader.fail .inval else _ : Reader UInt64) a = _
  rw [if_neg h]
  rfl

theorem read8_zero : s.read8 0 = .error (.error .inval) 0 := rfl

theorem read8_eq (h : a ≠ 0) : s.read8 a = .ok (s.image a) (a + 1) := by
  have hword : (s.word a 1).toUInt8 = s.image a := by
    have hbyte : ByteOrder.leValue [s.image (a + 0)] = (s.image a).toNat := by
      rw [ByteOrder.leValue_cons, add_zero]
      rfl
    show (UInt64.ofNat (ByteOrder.leValue [s.image (a + 0)])).toUInt8 = _
    rw [hbyte]
    apply UInt8.toNat_inj.mp
    simp
  show EStateM.bind (s.read 1) _ a = _
  unfold EStateM.bind
  rw [read_eq 1 h, ← hword]
  rfl

theorem steady_read (size : ℕ) : Steady fun _ => s.read size := by
  refine .const fun a a' h => ?_
  by_cases ha : a = 0
  · rw [ha, read_zero] at h
    cases h
  · rw [read_eq size ha] at h
    cases h

/-- The passes that a number at an address can take. -/
def left (a : UInt64) : ℕ := if a = 0 then 1 else 2 ^ 64 - a.toNat + 1

theorem left_pos : 0 < left a := by
  unfold left
  split <;> omega

theorem left_le : left a ≤ enough := by
  have hlt := a.toNat_lt
  unfold left enough
  split
  · omega
  case isFalse ha =>
    have hpos : a.toNat ≠ 0 := fun h => ha (UInt64.toNat_inj.mp h)
    omega

theorem left_succ (ha : a ≠ 0) : left (a + 1) < left a := by
  have hlt := a.toNat_lt
  have hpos : a.toNat ≠ 0 := fun h => ha (UInt64.toNat_inj.mp h)
  have hsucc : (a + 1).toNat = (a.toNat + 1) % 2 ^ 64 := UInt64.toNat_add a 1
  unfold left
  rw [if_neg ha]
  split
  case isTrue => omega
  case isFalse hnz =>
    have hnext : (a + 1).toNat ≠ 0 := fun h => hnz (UInt64.toNat_inj.mp h)
    omega

theorem leb128_zero (p : ℕ) (val shift : UInt64) :
    s.leb128 (p + 1) val shift 0 = .error (.error .inval) 0 := rfl

theorem leb128_succ (p : ℕ) (val shift : UInt64) (ha : a ≠ 0) :
    s.leb128 (p + 1) val shift a =
      if s.image a &&& 0x80 = 0 then
        .ok (val ||| (s.image a &&& 0x7f).toUInt64 <<< shift, shift + 7, s.image a) (a + 1)
      else s.leb128 p (val ||| (s.image a &&& 0x7f).toUInt64 <<< shift) (shift + 7) (a + 1) := by
  rw [Space.leb128]
  show EStateM.bind s.read8 _ a = _
  unfold EStateM.bind
  rw [read8_eq ha]
  dsimp only
  split <;> rfl

theorem leb128_steady (p q : ℕ) (val shift : UInt64) (hp : left a ≤ p) (hq : left a ≤ q) :
    s.leb128 p val shift a = s.leb128 q val shift a ∧
      ∀ a', s.leb128 p val shift a ≠ .error .running a' := by
  induction p generalizing q val shift a with
  | zero => exact absurd hp (Nat.not_le.mpr left_pos)
  | succ p ih =>
    obtain _ | q := q
    · exact absurd hq (Nat.not_le.mpr left_pos)
    by_cases ha : a = 0
    · rw [ha, leb128_zero, leb128_zero]
      exact ⟨rfl, fun a' h => by cases h⟩
    · have hless := left_succ ha
      obtain ⟨heq, hrun⟩ := ih (a := a + 1) q
        (val ||| (s.image a &&& 0x7f).toUInt64 <<< shift) (shift + 7) (by omega) (by omega)
      rw [leb128_succ p val shift ha, leb128_succ q val shift ha, ← heq]
      refine ⟨rfl, fun a' h => ?_⟩
      split at h
      · cases h
      · exact hrun a' h

theorem leb128_withPasses (n p : ℕ) (val shift : UInt64) :
    (s.withPasses n).leb128 p val shift = s.leb128 p val shift := by
  induction p generalizing val shift with
  | zero => rfl
  | succ p ih =>
    rw [Space.leb128, Space.leb128]
    simp only [ih]
    rfl

theorem steady_leb128 : Steady fun p => (s.withPasses p).leb128 p 0 0 := by
  intro p q hp hq a
  simp only [leb128_withPasses]
  exact leb128_steady p q 0 0 (left_le.trans hp) (left_le.trans hq)

theorem steady_readUleb128 : Steady fun p => (s.withPasses p).readUleb128 :=
  steady_leb128.bind fun _ => .pure _

theorem steady_readSleb128 : Steady fun p => (s.withPasses p).readSleb128 :=
  steady_leb128.bind fun _ => .ite (.pure _) (.pure _)

end Leb128

section Pointer

variable {s : Space}

theorem Steady.fail {α : Type} (e : DwarfError) : Steady fun _ => (Reader.fail e : Reader α) :=
  .const fun _ _ h => by cases h

theorem Steady.get : Steady fun _ => (get : Reader UInt64) := .const fun _ _ h => by cases h

theorem Steady.set (addr : UInt64) : Steady fun _ => (set addr : Reader PUnit) :=
  .const fun _ _ h => by cases h

theorem steady_readFormat (format : UInt8) (want : Bool) :
    Steady fun p => (s.withPasses p).readFormat format want := by
  have hfixed (size : ℕ) :
      Steady fun _ => (do let val ← s.read size; return if want then val else 0 : Reader UInt64) :=
    (steady_read size).bind fun _ => .pure _
  unfold Space.readFormat
  apply Steady.ite
  · exact hfixed s.addrSize
  apply Steady.ite
  · exact steady_readUleb128
  apply Steady.ite
  · exact hfixed 2
  apply Steady.ite
  · exact hfixed 4
  apply Steady.ite
  · exact hfixed 8
  apply Steady.ite
  · exact steady_readSleb128
  apply Steady.ite
  · exact (hfixed 2).bind fun _ => .pure _
  apply Steady.ite
  · exact (hfixed 4).bind fun _ => .pure _
  apply Steady.ite
  · exact hfixed 8
  · exact .fail _

/-- An access to the task fails with an error code. -/
theorem access_ne_running (addr : UInt64) (size : ℕ) : s.access addr size ≠ .error .running := by
  unfold Space.access
  split
  · exact fun h => by cases h
  · split <;> exact fun h => by cases h

theorem steady_applyEncoding (gp : UInt64) (encoding : UInt8) (want : Bool)
    (initialAddr startIp val : UInt64) :
    Steady fun p => (s.withPasses p).applyEncoding gp encoding want initialAddr startIp val := by
  unfold Space.applyEncoding
  apply Steady.ite
  · exact .pure _
  refine .ite ((Steady.pure _).bind fun val => ?_) (.ite ((Steady.pure _).bind fun val => ?_)
    (.ite ((Steady.pure _).bind fun val => ?_) (.ite ((Steady.pure _).bind fun val => ?_) ?_)))
  case refine_5 => exact .const fun _ _ h => by cases h
  -- the same goes on with each of the values
  all_goals
    apply Steady.ite
    · exact Steady.pure (s.trim val)
    apply Steady.ite
    · intro p q _ _ a
      have haccess : ∀ p, (s.withPasses p).access ((s.withPasses p).trim val)
          (s.withPasses p).addrSize = s.access (s.trim val) s.addrSize := fun _ => rfl
      dsimp only
      rw [haccess, haccess]
      refine ⟨rfl, fun a' => ?_⟩
      cases heq : s.access (s.trim val) s.addrSize with
      | ok val' => exact fun h => by cases h
      | error e =>
        intro h
        cases h
        exact access_ne_running _ _ heq
    · exact .pure _

theorem steady_readEncodedPointer (gp : UInt64) (encoding : UInt8) (want : Bool)
    (startIp : UInt64) :
    Steady fun p => (s.withPasses p).readEncodedPointer gp encoding want startIp := by
  unfold Space.readEncodedPointer
  apply Steady.bind Steady.get
  intro initialAddr
  apply Steady.ite
  · exact .pure _
  apply Steady.ite
  · apply Steady.bind (Steady.set ((initialAddr + .ofNat s.addrSize - 1) &&& -.ofNat s.addrSize))
    intro _
    apply Steady.bind (steady_read s.addrSize)
    intro val
    exact .pure _
  · apply Steady.bind (steady_readFormat _ want)
    intro val
    exact steady_applyEncoding gp encoding want _ _ val

end Pointer

end Mtrace.Dwarf
