import Mathlib.Data.Nat.Bitwise
import Mathlib.Data.Nat.Notation

/-! # Shifts, sums with a carry and sign extension

How a processor's manual describes the operations of its shifter and its adder, and the expressions
that compute the same in a language that has only unsigned words.

The manual shifts to the right with copies of the sign, rotates through the carry, extends the sign
of a short field, and gives a difference as a sum with the complement and a carry.  With unsigned
words the first is `~(~x >> s)` for a negative `x`, the second joins the carry to a shift by one,
and the third flips the bit of the sign and takes it away. -/

namespace Shifts

variable {n m : ℕ}

/-- The result of an adder with a carry in. -/
def addWithCarry (x y : BitVec n) (carry : Bool) : BitVec n :=
  x + y + (BitVec.ofBool carry).setWidth n

/-- A rotation by one through the carry. -/
def rotateExtend (x : BitVec (n + 1)) (carry : Bool) : BitVec (n + 1) :=
  BitVec.cons carry (x.extractLsb' 1 n)

theorem addWithCarry_false (x y : BitVec n) : addWithCarry x y false = x + y := by
  simp [addWithCarry]

theorem setWidth_ofBool_true : (BitVec.ofBool true).setWidth n = 1#n := by
  apply BitVec.eq_of_toNat_eq
  simp

theorem addWithCarry_not (x y : BitVec n) : addWithCarry x (~~~y) true = x - y := by
  unfold addWithCarry
  rw [setWidth_ofBool_true, BitVec.add_assoc, ← BitVec.neg_eq_not_add, ← BitVec.sub_eq_add_neg]

/-- A difference that leaves the borrow out is one too large. -/
theorem addWithCarry_not_add_one (x y : BitVec n) (carry : Bool) :
    addWithCarry x (~~~y) carry + 1#n = x - y + (BitVec.ofBool carry).setWidth n := by
  rw [← addWithCarry_not]
  unfold addWithCarry
  rw [setWidth_ofBool_true, BitVec.add_assoc, BitVec.add_comm _ 1#n, ← BitVec.add_assoc]

theorem addWithCarry_comm (x y : BitVec n) (carry : Bool) :
    addWithCarry x y carry = addWithCarry y x carry := by
  unfold addWithCarry
  rw [BitVec.add_comm x y]

theorem sshiftRight_eq (x : BitVec n) (s : ℕ) :
    x.sshiftRight s = if x.msb then ~~~(~~~x >>> s) else x >>> s := by
  cases hmsb : x.msb with
  | false => exact BitVec.sshiftRight_eq_of_msb_false hmsb
  | true => exact BitVec.sshiftRight_eq_of_msb_true hmsb

theorem rotateExtend_eq (x : BitVec (n + 1)) (carry : Bool) :
    rotateExtend x carry = x >>> 1 ||| (if carry then BitVec.twoPow (n + 1) n else 0) := by
  ext i hi
  unfold rotateExtend
  by_cases htop : i = n
  · subst htop
    cases carry with
    | false =>
      have hpast : x.getLsbD (1 + i) = false := BitVec.getLsbD_of_ge x _ (by omega)
      simp only [BitVec.getElem_cons, dif_pos, Bool.false_eq_true, if_false, BitVec.or_zero,
        BitVec.getElem_ushiftRight, BitVec.ofNat_eq_ofNat, hpast]
    | true => simp [BitVec.getElem_cons]
  · have hlow : i < n := by omega
    cases carry <;> simp [BitVec.getElem_cons, htop, hlow, Nat.add_comm 1 i]

theorem xor_two_pow {a k : ℕ} (h : a < 2 ^ k) : a ^^^ 2 ^ k = a + 2 ^ k := by
  apply Nat.eq_of_testBit_eq
  intro i
  rw [Nat.testBit_xor, Nat.testBit_two_pow, Nat.add_comm]
  rcases Nat.lt_trichotomy i k with hlt | rfl | hgt
  · rw [Nat.testBit_two_pow_add_gt hlt]
    simp [show k ≠ i by omega]
  · rw [Nat.testBit_two_pow_add_eq, Nat.testBit_lt_two_pow h]
    simp
  · have hbound : 2 ^ k + a < 2 ^ i := by
      have := Nat.pow_le_pow_right (n := 2) (by decide) (show k + 1 ≤ i by omega)
      omega
    rw [Nat.testBit_lt_two_pow hbound, Nat.testBit_lt_two_pow (by omega)]
    simp [show k ≠ i by omega]

/-- Flipping the bit of the sign and taking it away extends the sign of a field. -/
theorem signExtend_eq (x : BitVec (n + 1)) (h : n + 1 ≤ m) :
    x.signExtend m = (x.setWidth m ^^^ BitVec.twoPow m n) - BitVec.twoPow m n := by
  have hx := x.isLt
  have hpow : 2 ^ (n + 1) ≤ 2 ^ m := Nat.pow_le_pow_right (by decide) h
  have hhalf : (2 : ℕ) ^ (n + 1) = 2 ^ n + 2 ^ n := by omega
  have hsign : 2 ^ n % 2 ^ m = 2 ^ n := Nat.mod_eq_of_lt (by omega)
  have hwidth : (x.setWidth m).toNat = x.toNat := by
    rw [BitVec.toNat_setWidth, Nat.mod_eq_of_lt (by omega)]
  apply BitVec.eq_of_toNat_eq
  rw [BitVec.toNat_signExtend, BitVec.toNat_sub, BitVec.toNat_xor, BitVec.toNat_twoPow, hwidth,
    hsign]
  cases hmsb : x.msb with
  | false =>
    have hlow : x.toNat < 2 ^ n := by
      simpa using BitVec.toNat_lt_of_msb_false hmsb
    rw [xor_two_pow hlow, if_neg (by decide), Nat.add_zero]
    have hsum : 2 ^ m - 2 ^ n + (x.toNat + 2 ^ n) = x.toNat + 2 ^ m := by omega
    rw [hsum, Nat.add_mod_right, Nat.mod_eq_of_lt (by omega)]
  | true =>
    have hhigh : 2 ^ n ≤ x.toNat := by
      simpa using BitVec.le_toNat_of_msb_true hmsb
    obtain ⟨low, hlow⟩ := Nat.exists_eq_add_of_le hhigh
    have hflip : x.toNat ^^^ 2 ^ n = low := by
      rw [hlow, Nat.add_comm, ← xor_two_pow (by omega), Nat.xor_assoc, Nat.xor_self, Nat.xor_zero]
    rw [hflip, hlow, if_pos rfl, Nat.mod_eq_of_lt (by omega)]
    omega

theorem signExtend_append {k : ℕ} (x : BitVec (n + 1)) (y : BitVec k) :
    (x ++ y).signExtend m = x.signExtend m <<< k ||| y.setWidth m := by
  ext i hi
  rw [BitVec.getElem_signExtend, BitVec.getElem_or, BitVec.getElem_shiftLeft]
  by_cases hlow : i < k
  · have hwhole : i < n + 1 + k := by omega
    simp [hlow, hwhole, BitVec.getElem_append]
  · have hpast : y.getLsbD i = false := BitVec.getLsbD_of_ge y i (by omega)
    by_cases hfield : i < n + 1 + k
    · have hx : i - k < n + 1 := by omega
      simp [hlow, hfield, hpast, hx, BitVec.getElem_append, BitVec.getElem_signExtend]
    · have hx : ¬ i - k < n + 1 := by omega
      simp [hlow, hfield, hpast, hx, BitVec.msb_append, BitVec.getElem_signExtend]

/-! ### Multiples of powers of two -/

theorem and_not_of_dvd {k : ℕ} {x : BitVec n} (h : x.toNat % 2 ^ k = 0) :
    x &&& ~~~(BitVec.ofNat n (2 ^ k - 1)) = x := by
  ext i hi
  have hbit : i < k → x[i] = false := by
    intro hlt
    have htest := Nat.testBit_mod_two_pow x.toNat k i
    rw [h, Nat.zero_testBit, decide_eq_true hlt, Bool.true_and] at htest
    exact htest.symm
  by_cases hlt : i < k
  · simp [hbit hlt]
  · have hmask : (BitVec.ofNat n (2 ^ k - 1))[i] = false := by
      rw [← BitVec.getLsbD_eq_getElem, BitVec.getLsbD_ofNat, Nat.testBit_two_pow_sub_one,
        decide_eq_false hlt, Bool.and_false]
    simp [hmask]

theorem or_eq_add {k : ℕ} {x y : BitVec n} (h : x.toNat % 2 ^ k = 0) (hy : y.toNat < 2 ^ k) :
    x ||| y = x + y := by
  obtain ⟨q, hq⟩ := Nat.dvd_of_mod_eq_zero h
  have hor : x.toNat ||| y.toNat = x.toNat + y.toNat := by
    rw [hq]
    exact (Nat.two_pow_add_eq_or_of_lt hy q).symm
  have hlt := Nat.or_lt_two_pow x.isLt y.isLt
  apply BitVec.eq_of_toNat_eq
  rw [BitVec.toNat_or, BitVec.toNat_add, hor, Nat.mod_eq_of_lt (hor ▸ hlt)]

end Shifts
