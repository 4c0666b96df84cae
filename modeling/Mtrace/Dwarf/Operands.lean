import Mtrace.Dwarf.Words

/-!
# Operands in an image

The bytes of an expression as a list, and how an operand is read from it.  A number of more than ten
bytes is read wrong: the shift for its eleventh byte is beyond the number.
-/

namespace Mtrace.Dwarf

open Standard

/-- The bytes of an image from an address on. -/
def Space.block (s : Space) (a : UInt64) : ℕ → List UInt8
  | 0 => []
  | n + 1 => s.image a :: s.block (a + 1) n

section Block

variable {s : Space} {a : UInt64} {k n : ℕ}

theorem length_block (a : UInt64) (n : ℕ) : (s.block a n).length = n := by
  induction n generalizing a with
  | zero => rfl
  | succ n ih => rw [Space.block, List.length_cons, ih]

theorem block_withPasses (p n : ℕ) (a : UInt64) : (s.withPasses p).block a n = s.block a n := by
  induction n generalizing a with
  | zero => rfl
  | succ n ih =>
    rw [Space.block, Space.block, ih]
    rfl

theorem take_block (h : k ≤ n) : (s.block a n).take k = s.block a k := by
  induction k generalizing a n with
  | zero => rfl
  | succ k ih =>
    obtain _ | n := n
    · omega
    · rw [Space.block, Space.block, List.take_succ_cons, ih (by omega)]

theorem drop_block (a : UInt64) (k n : ℕ) :
    (s.block a n).drop k = s.block (a + .ofNat k) (n - k) := by
  induction k generalizing a n with
  | zero =>
    have hzero : a + .ofNat 0 = a := UInt64.add_zero a
    rw [List.drop_zero, hzero, Nat.sub_zero]
  | succ k ih =>
    obtain _ | n := n
    · rw [Nat.zero_sub]
      rfl
    · rw [Space.block, List.drop_succ_cons, ih, add_ofNat_succ, Nat.add_sub_add_right]

/-- A number in an image is that of the bytes there. -/
theorem word_eq_block (a : UInt64) (size : ℕ) :
    s.word a size = .ofNat (ByteOrder.leValue (s.block a size)) := by
  have hmap (n : ℕ) (a : UInt64) :
      ((List.range n).map fun i => s.image (a + .ofNat i)) = s.block a n := by
    induction n generalizing a with
    | zero => rfl
    | succ n ih =>
      have hzero : a + .ofNat 0 = a := UInt64.add_zero a
      rw [List.range_succ_eq_map, List.map_cons, List.map_map, Space.block, hzero, ← ih]
      congr 2
      funext i
      exact congrArg s.image (add_ofNat_succ a i)
  unfold Space.word
  rw [hmap]

end Block

/-! ## LEB128 numbers -/

section Leb

open Leb128

variable {s : Space} {a val : UInt64} {k n p : ℕ} {m : Leb} {rest : List UInt8}

/-- A group goes above those before it. -/
theorem or_group {g : UInt8} (hk : k ≤ 9) (hval : val.toNat < 2 ^ (7 * k)) :
    val ||| g.toUInt64 <<< (UInt64.ofNat (7 * k)) = .ofNat (val.toNat + 2 ^ (7 * k) * g.toNat) := by
  have hshift : (UInt64.ofNat (7 * k)).toNat % 64 = 7 * k := by
    rw [toNat_ofNat_of_lt (by omega), Nat.mod_eq_of_lt (by omega)]
  have hsplit : (2 : ℕ) ^ 64 = 2 ^ (7 * k) * 2 ^ (64 - 7 * k) := by
    rw [← Nat.pow_add]
    congr 1
    omega
  have hgroup : (g.toUInt64 <<< (UInt64.ofNat (7 * k))).toNat =
      2 ^ (7 * k) * (g.toNat % 2 ^ (64 - 7 * k)) := by
    rw [UInt64.toNat_shiftLeft, hshift, Nat.shiftLeft_eq, UInt8.toNat_toUInt64, hsplit,
      Nat.mul_comm g.toNat, Nat.mul_mod_mul_left]
  have hmul : 2 ^ (7 * k) * g.toNat % 2 ^ 64 = 2 ^ (7 * k) * (g.toNat % 2 ^ (64 - 7 * k)) := by
    rw [hsplit, Nat.mul_mod_mul_left]
  have hnext : 2 ^ (7 * k) * (g.toNat % 2 ^ (64 - 7 * k) + 1) ≤ 2 ^ 64 := by
    rw [hsplit]
    exact Nat.mul_le_mul_left _ (Nat.mod_lt _ (Nat.two_pow_pos _))
  rw [Nat.mul_succ] at hnext
  have hsum : (val.toNat + 2 ^ (7 * k) * g.toNat) % 2 ^ 64 =
      val.toNat + 2 ^ (7 * k) * (g.toNat % 2 ^ (64 - 7 * k)) := by
    rw [Nat.add_mod, hmul, Nat.mod_eq_of_lt val.toNat_lt]
    apply Nat.mod_eq_of_lt
    omega
  apply UInt64.toNat_inj.mp
  rw [UInt64.toNat_or, hgroup, Nat.or_comm, ← Nat.two_pow_add_eq_or_of_lt hval,
    UInt64.toNat_ofNat', hsum, Nat.add_comm]

theorem group_toNat (b : UInt8) : (b &&& 0x7f).toNat = b.toNat % 128 := by
  rw [UInt8.toNat_and]
  exact Nat.and_two_pow_sub_one_eq_mod b.toNat 7

theorem and_bit_iff {b bit : UInt8} {k : ℕ} (hk : k < 8) (hbit : bit.toBitVec = .twoPow 8 k) :
    b &&& bit ≠ 0 ↔ b.toNat.testBit k = true := by
  rw [Ne, ← UInt8.toBitVec_inj, UInt8.toBitVec_and, hbit, BitVec.and_twoPow]
  show _ ↔ b.toBitVec.getLsbD k = true
  split
  case isTrue h =>
    refine iff_of_true (fun hzero => ?_) h
    have hself := congrArg (fun v => v.getLsbD k) hzero
    simp [hk] at hself
  case isFalse h => exact iff_of_false (not_not.mpr rfl) h

theorem last_iff (b : UInt8) : b &&& 0x80 = 0 ↔ b.toNat < 128 := by
  have hbit := and_bit_iff (b := b) (by decide : 7 < 8) (by rfl : (0x80 : UInt8).toBitVec = _)
  rw [testBit_last b.toNat_lt] at hbit
  exact not_iff_not.mp hbit

theorem negative_iff {b : UInt8} (hb : b.toNat < 128) : b &&& 0x40 ≠ 0 ↔ 64 ≤ b.toNat := by
  have hbit := and_bit_iff (b := b) (by decide : 6 < 8) (by rfl : (0x40 : UInt8).toBitVec = _)
  rw [testBit_last hb, not_lt] at hbit
  exact hbit

/-- The loop over a number, after `k` groups of it. -/
theorem leb128_eq (h : decode (s.block a n) = some (m, rest)) (ha : a ≠ 0)
    (hfit : a.toNat + n ≤ 2 ^ 64) (hk : k + m.size ≤ 10) (hval : val.toNat < 2 ^ (7 * k))
    (hp : m.size ≤ p) :
    ∃ b, s.leb128 p val (.ofNat (7 * k)) a =
        .ok (.ofNat (val.toNat + 2 ^ (7 * k) * m.value), .ofNat (7 * (k + m.size)), b)
          (a + .ofNat m.size) ∧ (b &&& 0x40 ≠ 0 ↔ m.negative = true) := by
  induction n generalizing a k val p m with
  | zero => cases h
  | succ n ih =>
    have hsize := size_pos h
    obtain _ | p := p
    · omega
    have hor := or_group (g := s.image a &&& 0x7f) (by omega : k ≤ 9) hval
    have hshift : UInt64.ofNat (7 * k) + 7 = .ofNat (7 * (k + 1)) := (UInt64.ofNat_add ..).symm
    rw [group_toNat] at hor
    rw [leb128_succ p val _ ha, hor, hshift]
    rw [Space.block] at h
    by_cases hb : (s.image a).toNat < 128
    · rw [decode_last hb] at h
      cases h
      rw [if_pos ((last_iff _).mpr hb), Nat.mod_eq_of_lt hb]
      refine ⟨_, rfl, ?_⟩
      rw [negative_iff hb, decide_eq_true_eq]
    · obtain ⟨m, hm, rfl⟩ := decode_more hb h
      rw [if_neg fun h0 => hb ((last_iff _).mp h0)]
      dsimp only at hk hp ⊢
      have hlt := (s.image a).toNat_lt
      have hpos := size_pos hm
      have hlength := length_decode hm
      rw [length_block] at hlength
      have hone : (a + 1).toNat = a.toNat + 1 := toNat_add_ofNat (k := 1) (by omega)
      have hpow : 2 ^ (7 * (k + 1)) = 2 ^ (7 * k) * 128 := by
        rw [Nat.mul_succ, Nat.pow_add]
      have hnext : 2 ^ (7 * k) * ((s.image a).toNat % 128 + 1) ≤ 2 ^ (7 * k) * 128 :=
        Nat.mul_le_mul_left _ (by omega)
      have hbound : 2 ^ (7 * (k + 1)) ≤ 2 ^ 63 := Nat.pow_le_pow_right (by decide) (by omega)
      have hless : val.toNat + 2 ^ (7 * k) * ((s.image a).toNat % 128) < 2 ^ (7 * (k + 1)) := by
        rw [Nat.mul_succ] at hnext
        rw [hpow]
        omega
      have hnat := toNat_ofNat_of_lt (hless.trans_le (hbound.trans (by decide)))
      obtain ⟨b, heq, hneg⟩ := ih (k := k + 1) (p := p) hm
        (add_ofNat_ne_zero (k := 1) ha (by omega)) (by omega) (by omega) (hnat.trans_lt hless)
        (by omega)
      refine ⟨b, ?_, hneg⟩
      rw [heq, hnat, ← add_ofNat_succ, hpow]
      congr 3
      · have hmod : (s.image a).toNat % 128 = (s.image a).toNat - 128 := by omega
        rw [hmod, Nat.mul_add, Nat.mul_assoc, Nat.add_assoc]
      · congr 2
        omega

/-- The loop from its start. -/
theorem leb128_start (h : decode (s.block a n) = some (m, rest)) (hshort : m.size ≤ 10) (ha : a ≠ 0)
    (hfit : a.toNat + n ≤ 2 ^ 64) (hp : 10 ≤ s.passes) :
    ∃ b : UInt8, s.leb128 s.passes 0 0 a =
        .ok (.ofNat m.value, .ofNat (7 * m.size), b) (a + .ofNat m.size) ∧
      (b &&& 0x40 ≠ 0 ↔ m.negative = true) := by
  have hzero : (0 : UInt64).toNat + 2 ^ (7 * 0) * m.value = m.value := by
    show 0 + 2 ^ (7 * 0) * m.value = _
    rw [Nat.mul_zero, Nat.pow_zero, Nat.one_mul, Nat.zero_add]
  obtain ⟨b, heq, hneg⟩ := leb128_eq (k := 0) h ha hfit (by omega)
    (show (0 : UInt64).toNat < 2 ^ (7 * 0) from Nat.one_pos) (hshort.trans hp)
  rw [hzero, Nat.zero_add] at heq
  exact ⟨b, heq, hneg⟩

end Leb

/-! ## Operands -/

/-- A LEB128 number at the beginning of these bytes has at most ten of them. -/
def ShortLeb (bs : List UInt8) : Prop := ∀ m rest, Leb128.decode bs = some (m, rest) → m.size ≤ 10

def Standard.Kind.Short : Kind → List UInt8 → Prop
  | .unsigned _, _ | .signed _, _ => True
  | .uleb128, bs | .sleb128, bs => ShortLeb bs

/-- What stands for an operand before its operation takes it. -/
def Standard.Kind.Reads : Kind → ℤ → UInt64 → Prop
  | .unsigned size, v, x => ∃ n : ℕ, n < 256 ^ size ∧ v = n ∧ x = .ofNat n
  | .signed size, v, x => ∃ n : ℕ, n < 256 ^ size ∧ v = (n : ℤ).bmod (256 ^ size) ∧ x = .ofNat n
  | .uleb128, v, x => ∃ n : ℕ, v = n ∧ x = .ofNat n
  | .sleb128, v, x => x = .ofInt v

/-- How an operand of a kind is read. -/
def Space.readKind (s : Space) : Kind → Reader UInt64
  | .unsigned size | .signed size => s.read size
  | .uleb128 => s.readUleb128
  | .sleb128 => s.readSleb128

section Kinds

variable {s : Space} {a : UInt64} {n : ℕ} {rest : List UInt8} {v : ℤ}

theorem readUleb128_eq {m : Leb128.Leb} (h : Leb128.decode (s.block a n) = some (m, rest))
    (hshort : m.size ≤ 10) (ha : a ≠ 0) (hfit : a.toNat + n ≤ 2 ^ 64) (hp : 10 ≤ s.passes) :
    s.readUleb128 a = .ok (.ofNat m.value) (a + .ofNat m.size) := by
  obtain ⟨b, hloop, -⟩ := leb128_start h hshort ha hfit hp
  show EStateM.bind (s.leb128 s.passes 0 0) _ a = _
  unfold EStateM.bind
  rw [hloop]
  rfl

theorem readSleb128_eq {m : Leb128.Leb} (h : Leb128.decode (s.block a n) = some (m, rest))
    (hshort : m.size ≤ 10) (ha : a ≠ 0) (hfit : a.toNat + n ≤ 2 ^ 64) (hp : 10 ≤ s.passes) :
    s.readSleb128 a = .ok (.ofInt m.signed) (a + .ofNat m.size) := by
  obtain ⟨b, hloop, hneg⟩ := leb128_start h hshort ha hfit hp
  have hvalue : m.value < 2 ^ (7 * m.size) := by
    have hlt := Leb128.value_lt h
    rw [Nat.pow_mul]
    exact hlt
  have hshift : UInt64.ofNat (7 * m.size) < 64 ↔ 7 * m.size < 64 := by
    rw [UInt64.lt_iff_toNat_lt, toNat_ofNat_of_lt (by omega)]
    rfl
  show EStateM.bind (s.leb128 s.passes 0 0) _ a = _
  unfold EStateM.bind
  rw [hloop]
  by_cases hset : 7 * m.size < 64 ∧ m.negative = true
  · have hcond := And.intro (hshift.mpr hset.1) (hneg.mpr hset.2)
    have hpow : ((128 : ℕ) : ℤ) ^ m.size = 2 ^ (7 * m.size) := by
      rw [pow_mul]
      rfl
    have hsigned : m.signed = m.value - 2 ^ (7 * m.size) := by
      rw [← hpow]
      exact if_pos hset.2
    dsimp only
    rw [if_pos hcond, or_ones hset.1 hvalue (toNat_ones_shiftLeft hset.1), hsigned]
    rfl
  · have hcond := fun h => hset ⟨hshift.mp (And.left h), hneg.mp (And.right h)⟩
    dsimp only
    rw [if_neg hcond]
    have hsigned : UInt64.ofInt m.signed = .ofNat m.value := by
      rw [← ofInt_natCast]
      unfold Leb128.Leb.signed
      split
      case isTrue hnegative =>
        have hten : m.size = 10 := by
          have hlarge : ¬ 7 * m.size < 64 := fun h => hset ⟨h, hnegative⟩
          omega
        apply UInt64.toNat_inj.mp
        rw [toNat_ofInt, toNat_ofInt, hten]
        omega
      case isFalse => rfl
    rw [hsigned]
    rfl

/-- An operand is read where the standard finds one. -/
theorem readKind_eq {kind : Kind} (h : kind.decode (s.block a n) = some (v, rest))
    (hshort : kind.Short (s.block a n)) (ha : a ≠ 0) (hfit : a.toNat + n < 2 ^ 64)
    (hp : 10 ≤ s.passes) : ∃ k x, k ≤ n ∧ rest = s.block (a + .ofNat k) (n - k) ∧
      s.readKind kind a = .ok x (a + .ofNat k) ∧ kind.Reads v x := by
  have hfixed {size : ℕ} (hsize : size ≤ n) : s.read size a =
      .ok (.ofNat (ByteOrder.leValue ((s.block a n).take size))) (a + .ofNat size) := by
    rw [read_eq size ha, word_eq_block, take_block hsize]
  have hbound (size : ℕ) (hsize : size ≤ n) :
      ByteOrder.leValue ((s.block a n).take size) < 256 ^ size := by
    have hlt := ByteOrder.leValue_lt ((s.block a n).take size)
    rw [List.length_take, length_block, Nat.min_eq_left hsize] at hlt
    exact hlt
  cases kind with
  | unsigned size =>
    rw [Kind.decode, length_block] at h
    split at h
    case isTrue hsize =>
      cases h
      exact ⟨size, _, hsize, drop_block a size n, hfixed hsize, _, hbound size hsize, rfl, rfl⟩
    case isFalse => cases h
  | signed size =>
    rw [Kind.decode, length_block] at h
    split at h
    case isTrue hsize =>
      cases h
      exact ⟨size, _, hsize, drop_block a size n, hfixed hsize, _, hbound size hsize, rfl, rfl⟩
    case isFalse => cases h
  | uleb128 =>
    obtain ⟨⟨m, rest'⟩, hm, heq⟩ := Option.map_eq_some_iff.mp h
    cases heq
    have hlen := Leb128.length_decode hm
    rw [length_block] at hlen
    refine ⟨m.size, _, by omega, ?_, readUleb128_eq hm (hshort m _ hm) ha hfit.le hp, _, rfl, rfl⟩
    rw [Leb128.drop_decode hm, drop_block]
  | sleb128 =>
    obtain ⟨⟨m, rest'⟩, hm, heq⟩ := Option.map_eq_some_iff.mp h
    cases heq
    have hlen := Leb128.length_decode hm
    rw [length_block] at hlen
    refine ⟨m.size, _, by omega, ?_, readSleb128_eq hm (hshort m _ hm) ha hfit.le hp, rfl⟩
    rw [Leb128.drop_decode hm, drop_block]

end Kinds

end Mtrace.Dwarf
