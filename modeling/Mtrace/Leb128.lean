import Mathlib.Algebra.Order.Ring.Int
import Mathlib.Tactic.Ring

/-!
# LEB128 numbers

A number as groups of seven bits, the lowest first, one in each byte; the high bit of a byte says
that another one follows.  A negative number has the highest bit of its last group set. -/

namespace Leb128

/-- A number as it stands in a list of bytes. -/
structure Leb where
  value : ℕ
  size : ℕ
  negative : Bool
  deriving DecidableEq, Repr

/-- The number at the beginning of some bytes, and the bytes behind it. -/
def decode : List UInt8 → Option (Leb × List UInt8)
  | [] => none
  | b :: bs =>
    if b.toNat < 128 then some (⟨b.toNat, 1, decide (64 ≤ b.toNat)⟩, bs)
    else (decode bs).map fun r =>
      (⟨b.toNat - 128 + 128 * r.1.value, r.1.size + 1, r.1.negative⟩, r.2)

/-- The number with its sign. -/
def Leb.signed (n : Leb) : ℤ := if n.negative then n.value - 128 ^ n.size else n.value

theorem decode_last {b : UInt8} {bs : List UInt8} (hb : b.toNat < 128) :
    decode (b :: bs) = some (⟨b.toNat, 1, decide (64 ≤ b.toNat)⟩, bs) := if_pos hb

theorem decode_more {b : UInt8} {bs rest : List UInt8} {n : Leb} (hb : ¬ b.toNat < 128)
    (h : decode (b :: bs) = some (n, rest)) : ∃ m : Leb, decode bs = some (m, rest) ∧
      n = ⟨b.toNat - 128 + 128 * m.value, m.size + 1, m.negative⟩ := by
  rw [decode, if_neg hb] at h
  obtain ⟨⟨m, rest'⟩, hm, heq⟩ := Option.map_eq_some_iff.mp h
  cases heq
  exact ⟨m, hm, rfl⟩

/-- A number takes as many bytes as it has groups. -/
theorem length_decode {bs rest : List UInt8} {n : Leb} (h : decode bs = some (n, rest)) :
    bs.length = n.size + rest.length := by
  induction bs generalizing n with
  | nil => cases h
  | cons b bs ih =>
    by_cases hb : b.toNat < 128
    · rw [decode_last hb] at h
      cases h
      rw [List.length_cons, Nat.add_comm]
    · obtain ⟨m, hm, rfl⟩ := decode_more hb h
      rw [List.length_cons, ih hm]
      show _ = m.size + 1 + rest.length
      omega

theorem drop_decode {bs rest : List UInt8} {n : Leb} (h : decode bs = some (n, rest)) :
    rest = bs.drop n.size := by
  induction bs generalizing n with
  | nil => cases h
  | cons b bs ih =>
    by_cases hb : b.toNat < 128
    · rw [decode_last hb] at h
      cases h
      rfl
    · obtain ⟨m, hm, rfl⟩ := decode_more hb h
      rw [ih hm]
      rfl

theorem size_pos {bs rest : List UInt8} {n : Leb} (h : decode bs = some (n, rest)) :
    0 < n.size := by
  cases bs with
  | nil => cases h
  | cons b bs =>
    by_cases hb : b.toNat < 128
    · rw [decode_last hb] at h
      cases h
      exact Nat.one_pos
    · obtain ⟨m, -, rfl⟩ := decode_more hb h
      exact Nat.succ_pos _

theorem value_lt {bs rest : List UInt8} {n : Leb} (h : decode bs = some (n, rest)) :
    n.value < 128 ^ n.size := by
  induction bs generalizing n with
  | nil => cases h
  | cons b bs ih =>
    have hlt := b.toNat_lt
    by_cases hb : b.toNat < 128
    · rw [decode_last hb] at h
      cases h
      exact hb
    · obtain ⟨m, hm, rfl⟩ := decode_more hb h
      have hvalue := ih hm
      show b.toNat - 128 + 128 * m.value < 128 ^ (m.size + 1)
      rw [Nat.pow_succ]
      omega

/-! ## Encoding -/

/-- A number in `n + 1` groups. -/
def encode : ℕ → ℤ → List UInt8
  | 0, v => [.ofNat (v % 128).toNat]
  | n + 1, v => .ofNat ((v % 128).toNat + 128) :: encode n (v / 128)

/-- The lowest group of a number and the others. -/
theorem emod_group (v : ℤ) {m : ℤ} (hm : 0 < m) :
    v % (128 * m) = v % 128 + 128 * (v / 128 % m) := by
  have hlow := Int.emod_nonneg v (by decide : (128 : ℤ) ≠ 0)
  have hlow' := Int.emod_lt_of_pos v (by decide : (0 : ℤ) < 128)
  have hhigh := Int.emod_nonneg (v / 128) hm.ne'
  have hhigh' := Int.emod_lt_of_pos (v / 128) hm
  have hsplit : v = v % 128 + 128 * (v / 128 % m) + 128 * m * (v / 128 / m) := by
    calc v = v % 128 + 128 * (v / 128) := (Int.emod_add_mul_ediv v 128).symm
      _ = v % 128 + 128 * (v / 128 % m + m * (v / 128 / m)) := by
        rw [Int.emod_add_mul_ediv (v / 128) m]
      _ = _ := by ring
  calc v % (128 * m) = (v % 128 + 128 * (v / 128 % m) + 128 * m * (v / 128 / m)) % (128 * m) := by
        rw [← hsplit]
    _ = (v % 128 + 128 * (v / 128 % m)) % (128 * m) := Int.add_mul_emod_self_left ..
    _ = _ := Int.emod_eq_of_lt (by omega) (by omega)

/-- What was encoded is the number modulo its groups. -/
theorem decode_encode (n : ℕ) (v : ℤ) (rest : List UInt8) :
    decode (encode n v ++ rest) =
      some (⟨(v % 128 ^ (n + 1)).toNat, n + 1, decide (64 * 128 ^ n ≤ v % 128 ^ (n + 1))⟩,
        rest) := by
  induction n generalizing v with
  | zero =>
    have hlow := Int.emod_nonneg v (by decide : (128 : ℤ) ≠ 0)
    have hlow' := Int.emod_lt_of_pos v (by decide : (0 : ℤ) < 128)
    have hbyte : (UInt8.ofNat (v % 128).toNat).toNat = (v % 128).toNat := by
      rw [UInt8.toNat_ofNat']
      omega
    have hsign : 64 ≤ (v % 128).toNat ↔ 64 ≤ v % 128 := by omega
    rw [encode, List.singleton_append, decode_last (by omega), hbyte]
    simp only [hsign, Nat.zero_add, pow_one, pow_zero, mul_one]
  | succ n ih =>
    have hpow : (0 : ℤ) < 128 ^ (n + 1) := Int.pow_pos (by decide)
    have hlow := Int.emod_nonneg v (by decide : (128 : ℤ) ≠ 0)
    have hlow' := Int.emod_lt_of_pos v (by decide : (0 : ℤ) < 128)
    have hhigh := Int.emod_nonneg (v / 128) hpow.ne'
    have hbyte : (UInt8.ofNat ((v % 128).toNat + 128)).toNat = (v % 128).toNat + 128 := by
      rw [UInt8.toNat_ofNat']
      omega
    have hvalue : v % 128 ^ (n + 1 + 1) = v % 128 + 128 * (v / 128 % 128 ^ (n + 1)) := by
      rw [pow_succ', emod_group v hpow]
    have hsign : 64 * 128 ^ (n + 1) ≤ v % 128 ^ (n + 1 + 1) ↔
        64 * 128 ^ n ≤ v / 128 % (128 : ℤ) ^ (n + 1) := by
      rw [hvalue, pow_succ' (128 : ℤ) n]
      omega
    have hnegative : decide (64 * 128 ^ (n + 1) ≤ v % 128 ^ (n + 1 + 1)) =
        decide (64 * 128 ^ n ≤ v / 128 % (128 : ℤ) ^ (n + 1)) := decide_eq_decide.mpr hsign
    have hnumber : (v % 128).toNat + 128 - 128 + 128 * (v / 128 % 128 ^ (n + 1)).toNat =
        (v % 128 ^ (n + 1 + 1)).toNat := by
      rw [hvalue]
      omega
    rw [encode, List.cons_append, decode, if_neg (by omega), ih, Option.map_some, hbyte]
    dsimp only
    rw [hnegative, hnumber]

/-- A number that is not negative, in groups that hold it. -/
theorem value_encode {n : ℕ} {v : ℤ} (h0 : 0 ≤ v) (hv : v < 128 ^ (n + 1)) (rest : List UInt8) :
    ∃ negative, decode (encode n v ++ rest) = some (⟨v.toNat, n + 1, negative⟩, rest) := by
  have hdecode := decode_encode n v rest
  rw [Int.emod_eq_of_lt h0 hv] at hdecode
  exact ⟨_, hdecode⟩

/-- A number with its sign, in groups that hold both. -/
theorem signed_encode {n : ℕ} {v : ℤ} (hlow : -(64 * 128 ^ n) ≤ v) (hhigh : v < 64 * 128 ^ n)
    (rest : List UInt8) : ∃ m : Leb, decode (encode n v ++ rest) = some (m, rest) ∧
      m.size = n + 1 ∧ m.signed = v := by
  refine ⟨_, decode_encode n v rest, rfl, ?_⟩
  have hpow : (0 : ℤ) < 128 ^ n := Int.pow_pos (by decide)
  rw [pow_succ']
  show (if decide (64 * 128 ^ n ≤ v % (128 * 128 ^ n)) = true then
    ((v % (128 * 128 ^ n)).toNat : ℤ) - 128 ^ (n + 1) else (v % (128 * 128 ^ n)).toNat) = v
  by_cases hneg : v < 0
  · have hmod : v % (128 * 128 ^ n) = v + 128 * 128 ^ n := by
      rw [← Int.add_emod_right]
      exact Int.emod_eq_of_lt (by omega) (by omega)
    rw [hmod, if_pos (decide_eq_true (by omega)), pow_succ']
    omega
  · have hmod : v % (128 * 128 ^ n) = v := Int.emod_eq_of_lt (by omega) (by omega)
    rw [hmod, if_neg (by rw [decide_eq_true_eq]; omega)]
    omega

end Leb128
