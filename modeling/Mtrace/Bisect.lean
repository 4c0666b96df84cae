import Mathlib.Order.Lattice
import Mathlib.Order.Nat

/-!
# Searching by halves

A value is looked for among the values of a function at the indices of an interval, which is halved
until the value is found or no index is left.  A search for the last value that is not greater
splits the indices in two, with an interval between them that gets smaller. -/

namespace Bisect

variable {α : Type} [LinearOrder α]

/-- The index in `[first, last)` at which `f` is `a`; `fuel` bounds the number of halvings. -/
def search (f : ℕ → α) (a : α) : ℕ → ℕ → ℕ → Option ℕ
  | 0, _, _ => none
  | fuel + 1, first, last =>
    if first < last then
      let middle := (first + last) / 2
      if a < f middle then search f a fuel first middle
      else if f middle < a then search f a fuel (middle + 1) last
      else some middle
    else none

variable {f : ℕ → α} {a : α}

theorem search_sound {fuel first last i : ℕ} (h : search f a fuel first last = some i) :
    i < last ∧ f i = a := by
  induction fuel generalizing first last with
  | zero => cases h
  | succ fuel ih =>
    rw [search] at h
    by_cases hlt : first < last
    · rw [if_pos hlt] at h
      dsimp only at h
      have hmid : (first + last) / 2 < last := by omega
      by_cases hbelow : a < f ((first + last) / 2)
      · rw [if_pos hbelow] at h
        exact ⟨(ih h).1.trans hmid, (ih h).2⟩
      · rw [if_neg hbelow] at h
        by_cases habove : f ((first + last) / 2) < a
        · rw [if_pos habove] at h
          exact ih h
        · rw [if_neg habove] at h
          cases h
          exact ⟨hmid, le_antisymm (not_lt.mp hbelow) (not_lt.mp habove)⟩
    · rw [if_neg hlt] at h
      cases h

/-- In increasing values nothing is overlooked. -/
theorem search_complete {fuel first last i : ℕ} (hf : ∀ i j, i < j → j < last → f i < f j)
    (hfuel : last - first ≤ fuel) (hfirst : first ≤ i) (hlast : i < last) (hi : f i = a) :
    search f a fuel first last = some i := by
  induction fuel generalizing first last with
  | zero => omega
  | succ fuel ih =>
    have hmid : (first + last) / 2 < last := by omega
    rw [search, if_pos (by omega : first < last)]
    dsimp only
    rcases lt_trichotomy i ((first + last) / 2) with hlt | heq | hgt
    · have hbelow : a < f ((first + last) / 2) := hi ▸ hf _ _ hlt hmid
      rw [if_pos hbelow]
      refine ih ?_ (by omega) hfirst hlt
      intro j k hjk hk
      exact hf j k hjk (hk.trans hmid)
    · rw [← heq, hi, if_neg (lt_irrefl a), if_neg (lt_irrefl a)]
    · have habove : f ((first + last) / 2) < a := hi ▸ hf _ _ hgt hlast
      rw [if_neg habove.asymm, if_pos habove]
      exact ih hf (by omega) hgt hlast

/-! ## The last that is not greater -/

/-- Of the first `n` values, those before `lo` are not greater than `a` and those from `hi` on
are. -/
structure Split (f : ℕ → α) (a : α) (n lo hi : ℕ) : Prop where
  le : hi ≤ n
  before : ∀ i < lo, f i ≤ a
  behind : ∀ i, hi ≤ i → i < n → a < f i

section Splits

variable {n lo hi m k : ℕ}

theorem split_all : Split f a n 0 n :=
  ⟨le_rfl, fun _ hi => absurd hi (Nat.not_lt_zero _),
    fun _ hle hlt => absurd hlt (Nat.not_lt.mpr hle)⟩

theorem Split.lower (h : Split f a n lo hi) (hf : ∀ i j, i ≤ j → j < n → f i ≤ f j) (hm : m < hi)
    (ham : a < f m) : Split f a n lo m :=
  ⟨hm.le.trans h.le, h.before, fun i hi hin => ham.trans_le (hf m i hi hin)⟩

theorem Split.upper (h : Split f a n lo hi) (hf : ∀ i j, i ≤ j → j < n → f i ≤ f j) (hm : m < hi)
    (hma : f m ≤ a) : Split f a n (m + 1) hi :=
  ⟨h.le, fun i hi => (hf i m (Nat.le_of_lt_succ hi) (hm.trans_le h.le)).trans hma, h.behind⟩

/-- Where nothing is between them, the last that is not greater stands before the limit. -/
theorem Split.last_iff (h : Split f a n k k) {i : ℕ} :
    i + 1 = k ↔ i < n ∧ f i ≤ a ∧ ∀ j, i < j → j < n → a < f j := by
  have hkn := h.le
  constructor
  · rintro rfl
    exact ⟨hkn, h.before i (Nat.lt_succ_self i), fun j hij => h.behind j hij⟩
  · rintro ⟨hin, hia, hgreater⟩
    rcases lt_trichotomy (i + 1) k with hlt | heq | hgt
    · exact absurd (hgreater (i + 1) (Nat.lt_succ_self i) (by omega)) (h.before _ hlt).not_gt
    · exact heq
    · exact absurd (h.behind i (by omega) hin) hia.not_gt

theorem Split.zero_iff (h : Split f a n k k) : k = 0 ↔ ∀ i < n, a < f i := by
  constructor
  · rintro rfl i hi
    exact h.behind i (Nat.zero_le i) hi
  · intro hgreater
    by_contra hne
    have hkn := h.le
    exact absurd (hgreater 0 (by omega)) (h.before 0 (by omega)).not_gt

end Splits

end Bisect
