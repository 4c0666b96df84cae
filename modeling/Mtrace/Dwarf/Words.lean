import Mathlib.Data.UInt
import Mtrace.Dwarf.ExprLoop
import Mtrace.Dwarf.Standard

/-!
# Words in 64 bits

The unwinder computes in 64 bits for tasks of both modes; a word of the task is the low bits of such
a number.  Where an operation on words is one on the low bits, and where it is not. -/

namespace Mtrace.Dwarf

open Standard

/-- The low bits of a number. -/
def low (w : ℕ) (x : UInt64) : BitVec w := x.toBitVec.setWidth w

section Low

variable {w : ℕ} {x y : UInt64}

theorem low_toNat (x : UInt64) : (low w x).toNat = x.toNat % 2 ^ w := BitVec.toNat_setWidth w _

theorem low_ofNat (hw : w ≤ 64) (n : ℕ) : low w (.ofNat n) = .ofNat w n := by
  apply BitVec.eq_of_toNat_eq
  rw [low_toNat, BitVec.toNat_ofNat, UInt64.toNat_ofNat']
  exact Nat.mod_mod_of_dvd n (Nat.pow_dvd_pow 2 hw)

theorem toNat_ofInt (v : ℤ) : (UInt64.ofInt v).toNat = (v % 2 ^ 64).toNat := by
  have hpos : 0 ≤ v % 2 ^ 64 := Int.emod_nonneg v (by decide)
  have hlt : v % 2 ^ 64 < 2 ^ 64 := Int.emod_lt_of_pos v (by decide)
  unfold UInt64.ofInt
  rw [UInt64.toNat_ofNat', Nat.mod_eq_of_lt]
  omega

theorem low_ofInt (hw : w ≤ 64) (v : ℤ) : low w (.ofInt v) = .ofInt w v := by
  apply BitVec.eq_of_toNat_eq
  have hdvd : ((2 ^ w : ℕ) : ℤ) ∣ ((2 ^ 64 : ℕ) : ℤ) :=
    Int.natCast_dvd_natCast.mpr (pow_dvd_pow 2 hw)
  have hnat := toNat_ofInt v
  have hpos : 0 ≤ v % 2 ^ 64 := Int.emod_nonneg v (by decide)
  have hpos' : 0 ≤ v % ((2 ^ w : ℕ) : ℤ) :=
    Int.emod_nonneg v (Int.natCast_ne_zero.mpr (pow_ne_zero w (by decide)))
  rw [low_toNat, BitVec.toNat_ofInt, hnat]
  apply Int.ofNat_inj.mp
  rw [Int.natCast_mod, Int.toNat_of_nonneg hpos, Int.toNat_of_nonneg hpos']
  exact Int.emod_emod_of_dvd v hdvd

theorem low_add (hw : w ≤ 64) : low w (x + y) = low w x + low w y := by
  unfold low
  rw [UInt64.toBitVec_add, BitVec.setWidth_add _ _ hw]

theorem low_neg (hw : w ≤ 64) : low w (-x) = -low w x := by
  unfold low
  rw [UInt64.toBitVec_neg, BitVec.setWidth_neg_of_le hw]

theorem low_sub (hw : w ≤ 64) : low w (x - y) = low w x - low w y := by
  have hsub : x - y = x + -y := UInt64.sub_eq_add_neg x y
  rw [hsub, low_add hw, low_neg hw, BitVec.sub_eq_add_neg]

theorem low_mul (hw : w ≤ 64) : low w (x * y) = low w x * low w y := by
  unfold low
  rw [UInt64.toBitVec_mul, BitVec.setWidth_mul _ _ hw]

theorem low_not (hw : w ≤ 64) : low w (~~~x) = ~~~low w x := by
  unfold low
  rw [UInt64.toBitVec_not, BitVec.setWidth_not hw]

theorem low_and : low w (x &&& y) = low w x &&& low w y := BitVec.setWidth_and

theorem low_or : low w (x ||| y) = low w x ||| low w y := BitVec.setWidth_or

theorem low_xor : low w (x ^^^ y) = low w x ^^^ low w y := BitVec.setWidth_xor

theorem low_zero : low w 0 = 0 := BitVec.setWidth_zero w 64

theorem low_one (hw : w ≤ 64) : low w 1 = 1 := low_ofNat hw 1

theorem low_ofTest (hw : w ≤ 64) (b : Bool) : low w (ofTest b) = Standard.ofBool b := by
  cases b with
  | false => exact low_zero
  | true => exact low_one hw

/-- A number whose high bits are 0 is its word. -/
theorem low_toNat_of_lt (h : x.toNat < 2 ^ w) : (low w x).toNat = x.toNat := by
  rw [low_toNat, Nat.mod_eq_of_lt h]

/-- The processor takes the low six bits of a count, which are the count if it is less than 64. -/
theorem count_toNat (hw : 6 ≤ w) (h : (low w y).toNat < 64) :
    (y &&& 63).toNat = (low w y).toNat := by
  have hdvd : 64 ∣ 2 ^ w := pow_dvd_pow 2 hw
  have hmask : (y &&& 63).toNat = y.toNat % 64 := by
    rw [UInt64.toNat_and]
    exact Nat.and_two_pow_sub_one_eq_mod y.toNat 6
  rw [low_toNat] at h ⊢
  rw [hmask, ← Nat.mod_mod_of_dvd _ hdvd, Nat.mod_eq_of_lt h]

theorem low_shiftLeft (hw : w ≤ 64) (hw6 : 6 ≤ w) (h : (low w y).toNat < 64) :
    low w (x <<< (y &&& 63)) = low w x <<< (low w y).toNat := by
  apply BitVec.eq_of_toNat_eq
  have hcount := count_toNat hw6 h
  rw [low_toNat, BitVec.toNat_shiftLeft, UInt64.toNat_shiftLeft, hcount, Nat.mod_eq_of_lt h,
    Nat.mod_mod_of_dvd _ (Nat.pow_dvd_pow 2 hw), low_toNat x, Nat.shiftLeft_eq, Nat.shiftLeft_eq,
    Nat.mod_mul_mod]

theorem low_shiftRight (hw6 : 6 ≤ w) (hx : x.toNat < 2 ^ w) (h : (low w y).toNat < 64) :
    low w (x >>> (y &&& 63)) = low w x >>> (low w y).toNat := by
  apply BitVec.eq_of_toNat_eq
  have hcount := count_toNat hw6 h
  rw [BitVec.toNat_ushiftRight, low_toNat_of_lt hx, low_toNat, UInt64.toNat_shiftRight, hcount,
    Nat.mod_eq_of_lt h]
  apply Nat.mod_eq_of_lt
  exact lt_of_le_of_lt (Nat.shiftRight_le _ _) hx

theorem low_mod (hx : x.toNat < 2 ^ w) (hy : y.toNat < 2 ^ w) :
    low w (x % y) = low w x % low w y := by
  apply BitVec.eq_of_toNat_eq
  rw [BitVec.toNat_umod, low_toNat_of_lt hx, low_toNat_of_lt hy, low_toNat, UInt64.toNat_mod]
  exact Nat.mod_eq_of_lt (lt_of_le_of_lt (Nat.mod_le _ _) hx)

theorem low_toInt (hw : w ≤ 64) (x : UInt64) : (low w x).toInt = x.toBitVec.toInt.bmod (2 ^ w) := by
  unfold low
  rw [BitVec.toInt_setWidth, BitVec.toInt_eq_toNat_bmod,
    Int.bmod_bmod_of_dvd (Nat.pow_dvd_pow 2 hw)]

end Low

/-! ## Words with a sign -/

section Sword

variable {s : Space} {x y : UInt64}

theorem wordBits_cases (s : Space) :
    s.is64bit = true ∧ s.wordBits = 64 ∨ s.is64bit = false ∧ s.wordBits = 32 := by
  unfold Space.wordBits Space.addrSize
  cases s.is64bit with
  | true => exact .inl ⟨rfl, rfl⟩
  | false => exact .inr ⟨rfl, rfl⟩

theorem addrSize_pos : 0 < s.addrSize := by
  unfold Space.addrSize
  split <;> decide

theorem addrSize_le : s.addrSize ≤ 8 := by
  unfold Space.addrSize
  split <;> decide

theorem addrSize_cases (s : Space) : s.addrSize = 8 ∨ s.addrSize = 4 := by
  unfold Space.addrSize
  cases s.is64bit with
  | true => exact .inl rfl
  | false => exact .inr rfl

theorem wordBits_le : s.wordBits ≤ 64 := by
  obtain ⟨-, h⟩ | ⟨-, h⟩ := wordBits_cases s <;> omega

theorem le_wordBits : 32 ≤ s.wordBits := by
  obtain ⟨-, h⟩ | ⟨-, h⟩ := wordBits_cases s <;> omega

/-- `sword` is the number that the word stands for. -/
theorem sword_toInt (x : UInt64) : (s.sword x).toInt = (low s.wordBits x).toInt := by
  rw [low_toInt wordBits_le]
  unfold Space.sword
  obtain ⟨h, hw⟩ | ⟨h, hw⟩ := wordBits_cases s
  · rw [h, hw]
    exact (BitVec.toInt_bmod_cancel x.toBitVec).symm
  · rw [h, hw]
    show x.toUInt32.toInt32.toInt64.toInt = _
    rw [Int32.toInt_toInt64, ← low_toInt (by decide)]
    rfl

theorem toNat_trim_lt (x : UInt64) : (s.trim x).toNat < 2 ^ s.wordBits := by
  unfold Space.trim
  obtain ⟨h, hw⟩ | ⟨h, hw⟩ := wordBits_cases s
  · rw [h, hw]
    exact x.toNat_lt
  · rw [h, hw]
    exact x.toUInt32.toNat_lt

theorem low_trim (x : UInt64) : low s.wordBits (s.trim x) = low s.wordBits x := by
  apply BitVec.eq_of_toNat_eq
  rw [low_toNat, low_toNat]
  unfold Space.trim
  obtain ⟨h, hw⟩ | ⟨h, hw⟩ := wordBits_cases s
  · rw [h]
    rfl
  · rw [h, hw]
    show x.toUInt32.toNat % 2 ^ 32 = _
    rw [UInt64.toNat_toUInt32, Nat.mod_mod]

/-- Words are equal if the numbers are, with their high bits cut off. -/
theorem low_inj : low s.wordBits x = low s.wordBits y ↔ s.trim x = s.trim y := by
  rw [← low_trim x, ← low_trim y, ← UInt64.toNat_inj]
  constructor
  · intro h
    have htoNat := congrArg BitVec.toNat h
    rw [low_toNat_of_lt (toNat_trim_lt x), low_toNat_of_lt (toNat_trim_lt y)] at htoNat
    exact htoNat
  · intro h
    rw [UInt64.toNat_inj.mp h]

theorem trim_zero : s.trim 0 = 0 := by
  unfold Space.trim
  split <;> rfl

theorem low_eq_zero : low s.wordBits x = 0 ↔ s.trim x = 0 := by
  have h := low_inj (s := s) (x := x) (y := 0)
  rwa [trim_zero, low_zero] at h

theorem low_div (h : ¬ (s.sword y = 0 ∨ s.sword x = .minValue ∧ s.sword y = -1)) :
    ∃ z, (Arith.div (s.sword x) (s.sword y)).run = .ok z ∧
      low s.wordBits z = (low s.wordBits x).sdiv (low s.wordBits y) := by
  refine ⟨_, if_neg h, ?_⟩
  apply BitVec.eq_of_toInt_eq
  have hquot : (s.sword x / s.sword y).toUInt64.toBitVec.toInt =
      (s.sword x / s.sword y).toInt := rfl
  rw [low_toInt wordBits_le, hquot, Int64.toInt_div, BitVec.toInt_sdiv, sword_toInt, sword_toInt,
    Int.bmod_bmod_of_dvd (Nat.pow_dvd_pow 2 wordBits_le)]

theorem low_sar (h : (low s.wordBits y).toNat < 64) :
    low s.wordBits (.ofBitVec ((s.sword x).toBitVec.sshiftRight (y &&& 63).toNat)) =
      (low s.wordBits x).sshiftRight (low s.wordBits y).toNat := by
  apply BitVec.eq_of_toInt_eq
  have hx : (s.sword x).toBitVec.toInt = (low s.wordBits x).toInt := sword_toInt x
  rw [low_toInt wordBits_le, UInt64.toBitVec_ofBitVec,
    count_toNat ((by decide : 6 ≤ 32).trans le_wordBits) h, BitVec.toInt_sshiftRight, hx,
    ← BitVec.toInt_sshiftRight, BitVec.toInt_bmod_cancel]

/-- Whether a bit is set. -/
theorem and_bit_ne_zero {k : ℕ} {bit : UInt64} (hk : k < 64) (hbit : bit.toBitVec = .twoPow 64 k) :
    x &&& bit ≠ 0 ↔ x.toBitVec.getLsbD k = true := by
  rw [Ne, ← UInt64.toBitVec_inj, UInt64.toBitVec_and, hbit, BitVec.and_twoPow]
  split
  case isTrue h =>
    refine iff_of_true (fun hzero => ?_) h
    have hself := congrArg (fun v => v.getLsbD k) hzero
    simp [hk] at hself
  case isFalse h => exact iff_of_false (not_not.mpr rfl) h

theorem low_abs (operand : UInt64) (v : ℤ) :
    low s.wordBits (s.unary .abs operand x) = Standard.unary .abs v (low s.wordBits x) := by
  have hmsb : (low s.wordBits x).msb = x.toBitVec.getLsbD (s.wordBits - 1) := by
    have hpos := le_wordBits (s := s)
    unfold low
    rw [BitVec.msb_eq_getLsbD_last, BitVec.getLsbD_setWidth, decide_eq_true (by omega),
      Bool.true_and]
  have hbit : ((1 : UInt64) <<< (8 * UInt64.ofNat s.addrSize - 1)).toBitVec =
      .twoPow 64 (s.wordBits - 1) := by
    unfold Space.wordBits Space.addrSize
    cases s.is64bit <;> rfl
  have hset := and_bit_ne_zero (x := x) (by have := wordBits_le (s := s); omega) hbit
  unfold Space.unary Standard.unary BitVec.abs
  dsimp only
  rw [hmsb]
  split
  case isTrue h =>
    rw [if_pos (hset.mp h), low_neg wordBits_le]
    rfl
  case isFalse h => rw [if_neg fun hbit => h (hset.mpr hbit)]

end Sword

/-! ## Numbers of two and four bytes -/

section Extend

theorem toNat_ofNat_of_lt {n : ℕ} (h : n < 2 ^ 64) : (UInt64.ofNat n).toNat = n := by
  rw [UInt64.toNat_ofNat', Nat.mod_eq_of_lt h]

/-! ### Addresses further on -/

section Further

variable {a : UInt64} {k : ℕ}

theorem add_ofNat_succ (a : UInt64) (k : ℕ) : a + .ofNat (k + 1) = a + 1 + .ofNat k := by
  rw [UInt64.ofNat_add, UInt64.add_comm (.ofNat k), ← UInt64.add_assoc]
  rfl

theorem add_ofNat_add (a : UInt64) (k n : ℕ) : a + .ofNat k + .ofNat n = a + .ofNat (k + n) := by
  rw [UInt64.ofNat_add, UInt64.add_assoc]

theorem toNat_add_ofNat (h : a.toNat + k < 2 ^ 64) : (a + .ofNat k).toNat = a.toNat + k := by
  rw [UInt64.toNat_add, toNat_ofNat_of_lt (by omega), Nat.mod_eq_of_lt h]

theorem add_ofNat_ne_zero (ha : a ≠ 0) (h : a.toNat + k < 2 ^ 64) : a + .ofNat k ≠ 0 := by
  intro hzero
  have hpos : a.toNat ≠ 0 := fun h0 => ha (UInt64.toNat_inj.mp h0)
  have hsum := toNat_add_ofNat h
  rw [hzero] at hsum
  have : (0 : UInt64).toNat = 0 := rfl
  omega

end Further

theorem ofInt_natCast (n : ℕ) : UInt64.ofInt n = .ofNat n := by
  apply UInt64.toNat_inj.mp
  rw [toNat_ofInt, UInt64.toNat_ofNat']
  omega

theorem bmod_two_pow {b n : ℕ} (hn : n < 2 ^ (b + 1)) :
    (n : ℤ).bmod (2 ^ (b + 1)) = if n < 2 ^ b then (n : ℤ) else n - 2 ^ (b + 1) := by
  have hpow : 2 ^ (b + 1) = 2 * 2 ^ b := Nat.pow_succ'
  have hcast : ((2 ^ (b + 1) : ℕ) : ℤ) = 2 ^ (b + 1) := by norm_cast
  rw [Int.bmod_def, Int.emod_eq_of_lt (by omega) (by omega), hcast]
  by_cases h : n < 2 ^ b
  · rw [if_pos h, if_pos]
    have : (n : ℤ) < ((2 ^ b : ℕ) : ℤ) := by omega
    push_cast at this
    omega
  · rw [if_neg h, if_neg]
    have : ((2 ^ b : ℕ) : ℤ) ≤ n := by omega
    push_cast at this
    omega

/-- The highest bit of a number of `b + 1` bits. -/
theorem testBit_last {b n : ℕ} (hn : n < 2 ^ (b + 1)) : n.testBit b = true ↔ ¬ n < 2 ^ b := by
  have hpow : 2 ^ (b + 1) = 2 ^ b * 2 := Nat.pow_succ ..
  have hquot : n / 2 ^ b < 2 := by
    apply Nat.div_lt_of_lt_mul
    omega
  rw [Nat.testBit_eq_decide_div_mod_eq, decide_eq_true_eq, Nat.mod_eq_of_lt hquot, not_lt,
    ← Nat.one_le_div_iff (Nat.two_pow_pos b)]
  omega

/-- A number of `j` bits with ones above them. -/
theorem or_ones {j n : ℕ} {mask : UInt64} (hj : j < 64) (hn : n < 2 ^ j)
    (hmask : mask.toNat = 2 ^ 64 - 2 ^ j) : UInt64.ofNat n ||| mask = .ofInt (n - 2 ^ j) := by
  have hlt : 2 ^ j < 2 ^ 64 := Nat.pow_lt_pow_right (by decide) hj
  have hdisj : 2 ^ 64 - 2 ^ j = 2 ^ j * (2 ^ (64 - j) - 1) := by
    have hsplit : 2 ^ 64 = 2 ^ j * 2 ^ (64 - j) := by
      rw [← Nat.pow_add]
      congr 1
      omega
    rw [Nat.mul_sub, Nat.mul_one, ← hsplit]
  have hpow : ((2 ^ j : ℕ) : ℤ) = 2 ^ j := by norm_cast
  apply UInt64.toNat_inj.mp
  rw [UInt64.toNat_or, hmask, toNat_ofNat_of_lt (hn.trans hlt), Nat.or_comm, hdisj,
    ← Nat.two_pow_add_eq_or_of_lt hn, ← hdisj, toNat_ofInt, ← hpow]
  omega

theorem toNat_ones_shiftLeft {j : ℕ} (hj : j < 64) :
    ((0xffffffffffffffff : UInt64) <<< UInt64.ofNat j).toNat = 2 ^ 64 - 2 ^ j := by
  have hpos := Nat.two_pow_pos j
  have hlt : 2 ^ j < 2 ^ 64 := Nat.pow_lt_pow_right (by decide) hj
  have hmul : (2 ^ 64 - 1) * 2 ^ j = (2 ^ 64 - 2 ^ j) + 2 ^ 64 * (2 ^ j - 1) := by omega
  have hones : (0xffffffffffffffff : UInt64).toNat = 2 ^ 64 - 1 := rfl
  rw [UInt64.toNat_shiftLeft, toNat_ofNat_of_lt (by omega), Nat.mod_eq_of_lt hj, Nat.shiftLeft_eq,
    hones, hmul, Nat.add_mul_mod_self_left]
  apply Nat.mod_eq_of_lt
  omega

/-- A number of `b + 1` bits with its sign. -/
theorem signExtend_eq {b n : ℕ} (hb : b + 1 < 64) (hn : n < 2 ^ (b + 1))
    (hbit : ((1 : UInt64) <<< (UInt64.ofNat (b + 1) - 1)).toBitVec = .twoPow 64 b) :
    signExtend (.ofNat (b + 1)) (.ofNat n) = .ofInt ((n : ℤ).bmod (2 ^ (b + 1))) := by
  have hlt : 2 ^ (b + 1) < 2 ^ 64 := Nat.pow_lt_pow_right (by decide) hb
  have hnat := toNat_ofNat_of_lt (hn.trans hlt)
  have hset : UInt64.ofNat n &&& (1 : UInt64) <<< (UInt64.ofNat (b + 1) - 1) ≠ 0 ↔ ¬ n < 2 ^ b := by
    rw [and_bit_ne_zero (by omega) hbit, ← testBit_last hn]
    show (UInt64.ofNat n).toNat.testBit b = true ↔ _
    rw [hnat]
  unfold signExtend
  rw [bmod_two_pow hn]
  by_cases h : n < 2 ^ b
  · rw [if_neg fun hne => hset.mp hne h, if_pos h, ofInt_natCast]
  · rw [if_pos (hset.mpr h), if_neg h]
    exact or_ones hb hn (toNat_ones_shiftLeft hb)

theorem eq_ofInt {x : UInt64} {v : ℤ} (h : x.toInt64.toInt = v) : x = .ofInt v := by
  apply UInt64.toNat_inj.mp
  have hbmod : x.toInt64.toInt = (x.toNat : ℤ).bmod (2 ^ 64) :=
    BitVec.toInt_eq_toNat_bmod x.toBitVec
  have hpow : (2 ^ 64 : ℤ) = (2 ^ 64 : ℕ) := by norm_num
  rw [toNat_ofInt, ← h, hbmod, hpow, Int.bmod_emod, ← Int.natCast_mod, Int.toNat_natCast,
    Nat.mod_eq_of_lt x.toNat_lt]

theorem sval16_eq {n : ℕ} (hn : n < 2 ^ 16) :
    Space.sval16 (.ofNat n) = .ofInt ((n : ℤ).bmod (2 ^ 16)) := by
  apply eq_ofInt
  have hnat : (UInt64.ofNat n).toUInt16.toNat = n := by
    rw [UInt64.toNat_toUInt16, toNat_ofNat_of_lt (by omega), Nat.mod_eq_of_lt hn]
  show (UInt64.ofNat n).toUInt16.toInt16.toInt64.toInt = _
  rw [Int16.toInt_toInt64]
  show (UInt64.ofNat n).toUInt16.toBitVec.toInt = _
  rw [BitVec.toInt_eq_toNat_bmod]
  exact congrArg (fun k : ℕ => (k : ℤ).bmod (2 ^ 16)) hnat

theorem sval32_eq {n : ℕ} (hn : n < 2 ^ 32) :
    Space.sval32 (.ofNat n) = .ofInt ((n : ℤ).bmod (2 ^ 32)) := by
  apply eq_ofInt
  have hnat : (UInt64.ofNat n).toUInt32.toNat = n := by
    rw [UInt64.toNat_toUInt32, toNat_ofNat_of_lt (by omega), Nat.mod_eq_of_lt hn]
  show (UInt64.ofNat n).toUInt32.toInt32.toInt64.toInt = _
  rw [Int32.toInt_toInt64]
  show (UInt64.ofNat n).toUInt32.toBitVec.toInt = _
  rw [BitVec.toInt_eq_toNat_bmod]
  exact congrArg (fun k : ℕ => (k : ℤ).bmod (2 ^ 32)) hnat

end Extend

end Mtrace.Dwarf
