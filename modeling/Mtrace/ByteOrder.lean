import Mathlib.Data.Nat.Digits.Defs

/-!
# Byte orders

Numbers in memory on hosts of either byte order: the bytes of a number of a given width, the number
that bytes stand for, and `bswap`, which reverses the bytes of a number.  Read on a host of the
other order, a number is swapped. -/

/-- The order in which a host keeps the bytes of a number. -/
inductive ByteOrder where
  | little
  | big
  deriving DecidableEq, Repr

namespace ByteOrder

/-- The `w` low bytes of a number, the lowest first. -/
def leBytes : ℕ → ℕ → List UInt8
  | 0, _ => []
  | w + 1, n => UInt8.ofNat n :: leBytes w (n / 256)

/-- The number that bytes stand for, the lowest first. -/
def leValue (bs : List UInt8) : ℕ := Nat.ofDigits 256 (bs.map UInt8.toNat)

theorem length_leBytes (w n : ℕ) : (leBytes w n).length = w := by
  induction w generalizing n with
  | zero => rfl
  | succ w ih => rw [leBytes, List.length_cons, ih]

theorem leValue_cons (b : UInt8) (bs : List UInt8) :
    leValue (b :: bs) = b.toNat + 256 * leValue bs := by
  unfold leValue
  rw [List.map_cons, Nat.ofDigits_cons]

theorem leValue_leBytes (w n : ℕ) : leValue (leBytes w n) = n % 256 ^ w := by
  induction w generalizing n with
  | zero => rw [pow_zero, Nat.mod_one]; rfl
  | succ w ih =>
    have hb : (UInt8.ofNat n).toNat = n % 256 := UInt8.toNat_ofNat'
    rw [leBytes, leValue_cons, ih, hb, pow_succ', Nat.mod_mul]

theorem leBytes_leValue (bs : List UInt8) : leBytes bs.length (leValue bs) = bs := by
  induction bs with
  | nil => rfl
  | cons b bs ih =>
    have hb : b.toNat < 256 := b.toNat_lt
    have hdiv : (b.toNat + 256 * leValue bs) / 256 = leValue bs := by omega
    rw [List.length_cons, leBytes, leValue_cons, hdiv, ih]
    congr 1
    rw [← UInt8.toNat_inj, UInt8.toNat_ofNat']
    omega

theorem leValue_lt (bs : List UInt8) : leValue bs < 256 ^ bs.length := by
  induction bs with
  | nil => exact Nat.one_pos
  | cons b bs ih =>
    have hb : b.toNat < 256 := b.toNat_lt
    rw [leValue_cons, List.length_cons, pow_succ]
    omega

/-- The bytes of a number in memory. -/
def bytes (o : ByteOrder) (w n : ℕ) : List UInt8 :=
  match o with
  | .little => leBytes w n
  | .big => (leBytes w n).reverse

/-- The number that bytes in memory stand for. -/
def value (o : ByteOrder) (bs : List UInt8) : ℕ :=
  match o with
  | .little => leValue bs
  | .big => leValue bs.reverse

/-- The number with its `w` bytes reversed. -/
def bswap (w n : ℕ) : ℕ := leValue (leBytes w n).reverse

theorem length_bytes (o : ByteOrder) (w n : ℕ) : (o.bytes w n).length = w := by
  cases o with
  | little => exact length_leBytes w n
  | big => exact List.length_reverse.trans (length_leBytes w n)

theorem bswap_lt (w n : ℕ) : bswap w n < 256 ^ w := by
  have h := leValue_lt (leBytes w n).reverse
  rw [List.length_reverse, length_leBytes] at h
  exact h

/-- A number read on a host of the same order, or of the other one. -/
theorem value_bytes (o o' : ByteOrder) {w n : ℕ} (hn : n < 256 ^ w) :
    o'.value (o.bytes w n) = if o = o' then n else bswap w n := by
  have hself := leValue_leBytes w n
  rw [Nat.mod_eq_of_lt hn] at hself
  cases o with
  | little =>
    cases o' with
    | little => exact hself
    | big => rfl
  | big =>
    cases o' with
    | little => rfl
    | big =>
      show leValue (leBytes w n).reverse.reverse = n
      rw [List.reverse_reverse]
      exact hself

theorem bswap_bswap {w n : ℕ} (hn : n < 256 ^ w) : bswap w (bswap w n) = n := by
  have h := leBytes_leValue (leBytes w n).reverse
  rw [List.length_reverse, length_leBytes] at h
  unfold bswap
  rw [h, List.reverse_reverse, leValue_leBytes, Nat.mod_eq_of_lt hn]

theorem bswap_two (n : ℕ) : bswap 2 n = n % 256 * 256 + n / 256 % 256 := by
  have h : bswap 2 n = leValue [UInt8.ofNat (n / 256), UInt8.ofNat n] := rfl
  have hnil : leValue [] = 0 := rfl
  rw [h, leValue_cons, leValue_cons, hnil, UInt8.toNat_ofNat', UInt8.toNat_ofNat']
  omega

theorem bswap_four (n : ℕ) :
    bswap 4 n = n % 256 * 256 ^ 3 + n / 256 % 256 * 256 ^ 2 + n / 256 / 256 % 256 * 256 +
      n / 256 / 256 / 256 % 256 := by
  have h : bswap 4 n = leValue [UInt8.ofNat (n / 256 / 256 / 256), UInt8.ofNat (n / 256 / 256),
      UInt8.ofNat (n / 256), UInt8.ofNat n] := rfl
  have hnil : leValue [] = 0 := rfl
  rw [h, leValue_cons, leValue_cons, leValue_cons, leValue_cons, hnil]
  simp only [UInt8.toNat_ofNat']
  omega

/-! ## Arrays of words -/

/-- Numbers of `w` bytes one after another in memory. -/
def array (o : ByteOrder) (w : ℕ) (xs : List ℕ) : List UInt8 := xs.flatMap (o.bytes w)

/-- The number at index `i` of an array of numbers of `w` bytes. -/
def word (o : ByteOrder) (w : ℕ) (bs : List UInt8) (i : ℕ) : ℕ :=
  o.value ((bs.drop (i * w)).take w)

theorem array_append (o : ByteOrder) (w : ℕ) (xs ys : List ℕ) :
    o.array w (xs ++ ys) = o.array w xs ++ o.array w ys := List.flatMap_append

theorem length_array (o : ByteOrder) (w : ℕ) (xs : List ℕ) :
    (o.array w xs).length = xs.length * w := by
  induction xs with
  | nil => rw [List.length_nil, Nat.zero_mul]; rfl
  | cons x xs ih =>
    have hcons : o.array w (x :: xs) = o.bytes w x ++ o.array w xs := rfl
    rw [hcons, List.length_append, length_bytes, ih, List.length_cons, Nat.succ_mul, Nat.add_comm]

/-- An array splits between two of its words. -/
theorem array_take_drop (o : ByteOrder) (w : ℕ) (xs : List ℕ) (rest : List UInt8) {i : ℕ}
    (hi : i ≤ xs.length) :
    (o.array w xs ++ rest).take (i * w) = o.array w (xs.take i) ∧
      (o.array w xs ++ rest).drop (i * w) = o.array w (xs.drop i) ++ rest := by
  have hlen : (o.array w (xs.take i)).length = i * w := by
    rw [length_array, List.length_take, Nat.min_eq_left hi]
  have hsplit : o.array w xs ++ rest =
      o.array w (xs.take i) ++ (o.array w (xs.drop i) ++ rest) := by
    rw [← List.append_assoc, ← array_append, List.take_append_drop]
  rw [hsplit]
  exact ⟨List.take_left' hlen, List.drop_left' hlen⟩

theorem value_bytes_self (o : ByteOrder) {w n : ℕ} (hn : n < 256 ^ w) :
    o.value (o.bytes w n) = n := by
  rw [value_bytes o o hn, if_pos rfl]

theorem word_array (o : ByteOrder) (w : ℕ) (xs : List ℕ) (rest : List UInt8)
    (hxs : ∀ x ∈ xs, x < 256 ^ w) {i : ℕ} (hi : i < xs.length) :
    o.word w (o.array w xs ++ rest) i = xs[i] := by
  have hcons : o.array w (xs.drop i) = o.bytes w xs[i] ++ o.array w (xs.drop (i + 1)) := by
    rw [List.drop_eq_getElem_cons hi]
    rfl
  unfold word
  rw [(o.array_take_drop w xs rest hi.le).2, hcons, List.append_assoc,
    List.take_left' (o.length_bytes w _)]
  exact o.value_bytes_self (hxs _ (List.getElem_mem hi))

/-- `memmove` of `len` bytes inside a buffer. -/
def memmove (bs : List UInt8) (dst src len : ℕ) : List UInt8 :=
  bs.take dst ++ ((bs.drop src).take len ++ bs.drop (dst + len))

/-- Moving the words after a word one place down removes it from the array. -/
theorem memmove_array (o : ByteOrder) (w : ℕ) (xs : List ℕ) (rest : List UInt8) {i : ℕ}
    (hi : i < xs.length) :
    ∃ rest', memmove (o.array w xs ++ rest) (i * w) ((i + 1) * w) ((xs.length - 1 - i) * w) =
      o.array w (xs.eraseIdx i) ++ rest' := by
  have htail : (o.array w (xs.drop (i + 1))).length = (xs.length - 1 - i) * w := by
    rw [length_array, List.length_drop]
    congr 1
    omega
  refine ⟨(o.array w xs ++ rest).drop (i * w + (xs.length - 1 - i) * w), ?_⟩
  unfold memmove
  rw [(o.array_take_drop w xs rest hi.le).1, (o.array_take_drop w xs rest hi).2,
    List.take_left' htail, List.eraseIdx_eq_take_drop_succ, array_append, List.append_assoc]

end ByteOrder
