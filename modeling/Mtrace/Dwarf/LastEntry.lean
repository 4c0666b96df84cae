import Mtrace.Bisect
import Mtrace.Orbit
import Mtrace.Dwarf.Words

/-!
# The search in an unwind table

`lookup` halves the range of entries that may be the last one at or below an instruction pointer,
and remembers the candidate before it. -/

namespace Mtrace.Dwarf

open Bisect

/-- The local variables of `lookup`; `f` is the candidate. -/
structure LookupPass where
  lo : UInt64
  hi : UInt64
  f : Option UInt64

namespace LookupPass

/-- The entry that a pass reads. -/
def mid (st : LookupPass) : UInt64 := (st.lo + st.hi) / 2

end LookupPass

/-- A pass of the loop of `lookup`. -/
def Space.lookupPass (s : Space) (fdeTab : UInt64) (relIp : Int32) (st : LookupPass) :
    LookupPass ⊕ Option UInt64 :=
  if relIp < s.tableStartIp fdeTab st.mid then
    if st.lo < st.mid then .inl { st with hi := st.mid } else .inr st.f
  else if st.mid + 1 < st.hi then .inl ⟨st.mid + 1, st.hi, some st.mid⟩
  else .inr (some st.mid)

section Search

variable {s : Space} {fdeTab fdeCount : UInt64} {relIp : Int32}

theorem lookupLoop_eq_run (p : ℕ) (lo hi : UInt64) (f : Option UInt64) :
    s.lookupLoop fdeTab relIp p lo hi f =
      match Orbit.run (s.lookupPass fdeTab relIp) p ⟨lo, hi, f⟩ with
      | .inl _ => .error .running
      | .inr r => .ok r := by
  induction p generalizing lo hi f with
  | zero => rfl
  | succ p ih =>
    rw [Space.lookupLoop, Orbit.run]
    unfold Space.lookupPass LookupPass.mid
    dsimp only
    by_cases hbelow : relIp < s.tableStartIp fdeTab ((lo + hi) / 2)
    · rw [if_pos hbelow, if_pos hbelow]
      by_cases hmore : lo < (lo + hi) / 2
      · rw [if_pos hmore, if_pos hmore]
        exact ih ..
      · rw [if_neg hmore, if_neg hmore]
    · rw [if_neg hbelow, if_neg hbelow]
      by_cases hmore : (lo + hi) / 2 + 1 < hi
      · rw [if_pos hmore, if_pos hmore]
        exact ih ..
      · rw [if_neg hmore, if_neg hmore]

/-- The start of an entry, by its number. -/
def Space.startOf (s : Space) (fdeTab : UInt64) (i : ℕ) : ℤ :=
  (s.tableStartIp fdeTab (.ofNat i)).toInt

/-- The candidate before an entry. -/
def candidate (k : ℕ) : Option UInt64 := if k = 0 then none else some (.ofNat (k - 1))

/-- What a pass finds: a range with entries, between those at or below the instruction pointer and
those above it. -/
structure Between (s : Space) (fdeTab fdeCount : UInt64) (relIp : Int32) (st : LookupPass) :
    Prop where
  split : Split (s.startOf fdeTab) relIp.toInt fdeCount.toNat st.lo.toNat st.hi.toNat
  lt : st.lo.toNat < st.hi.toNat
  f : st.f = candidate st.lo.toNat

theorem Between.mid (h : Between s fdeTab fdeCount relIp st) (hcount : fdeCount.toNat < 2 ^ 31) :
    st.mid.toNat = (st.lo.toNat + st.hi.toNat) / 2 := by
  have hle := h.split.le
  have hlt := h.lt
  unfold LookupPass.mid
  rw [UInt64.toNat_div, UInt64.toNat_add, Nat.mod_eq_of_lt (by omega)]
  rfl

/-- The entries of a table by their numbers. -/
theorem forall_entries_iff {P : ℕ → Prop} :
    (∀ i : UInt64, i < fdeCount → P i.toNat) ↔ ∀ i < fdeCount.toNat, P i := by
  constructor
  · intro h i hi
    have hlt := fdeCount.toNat_lt
    have hnat : (UInt64.ofNat i).toNat = i := toNat_ofNat_of_lt (by omega)
    rw [← hnat] at hi ⊢
    exact h _ (UInt64.lt_iff_toNat_lt.mpr hi)
  · exact fun h i hi => h i.toNat (UInt64.lt_iff_toNat_lt.mp hi)

theorem start_lt_iff (i : UInt64) :
    relIp < s.tableStartIp fdeTab i ↔ relIp.toInt < s.startOf fdeTab i.toNat := by
  unfold Space.startOf
  rw [UInt64.ofNat_toNat, Int32.lt_iff_toInt_lt]

/-- A pass halves the range, or finds the candidate. -/
theorem Between.pass {st : LookupPass} (h : Between s fdeTab fdeCount relIp st)
    (hcount : fdeCount.toNat < 2 ^ 31)
    (hsorted : ∀ i j, i ≤ j → j < fdeCount.toNat → s.startOf fdeTab i ≤ s.startOf fdeTab j) :
    (∃ st', s.lookupPass fdeTab relIp st = .inl st' ∧ Between s fdeTab fdeCount relIp st' ∧
        2 * (st'.hi.toNat - st'.lo.toNat) ≤ st.hi.toNat - st.lo.toNat) ∨
      ∃ k, s.lookupPass fdeTab relIp st = .inr (candidate k) ∧
        Split (s.startOf fdeTab) relIp.toInt fdeCount.toNat k k := by
  have hle := h.split.le
  have hlt := h.lt
  have hmid := h.mid hcount
  have hmidlt : st.mid.toNat < st.hi.toNat := by omega
  unfold Space.lookupPass
  by_cases hbelow : relIp < s.tableStartIp fdeTab st.mid
  · have hsplit := h.split.lower hsorted hmidlt ((start_lt_iff st.mid).mp hbelow)
    rw [if_pos hbelow]
    by_cases hmore : st.lo < st.mid
    · rw [if_pos hmore]
      refine .inl ⟨_, rfl, ⟨hsplit, UInt64.lt_iff_toNat_lt.mp hmore, h.f⟩, ?_⟩
      dsimp only
      omega
    · rw [if_neg hmore]
      rw [UInt64.lt_iff_toNat_lt] at hmore
      have hsame : st.mid.toNat = st.lo.toNat := by omega
      rw [hsame] at hsplit
      exact .inr ⟨st.lo.toNat, congrArg Sum.inr h.f, hsplit⟩
  · have hsplit := h.split.upper hsorted hmidlt
      (not_lt.mp fun hlt => hbelow ((start_lt_iff st.mid).mpr hlt))
    have hsucc : (st.mid + 1).toNat = st.mid.toNat + 1 := toNat_add_ofNat (k := 1) (by omega)
    have hcandidate : some st.mid = candidate (st.mid.toNat + 1) := by
      unfold candidate
      rw [if_neg (Nat.succ_ne_zero _), Nat.add_sub_cancel, UInt64.ofNat_toNat]
    rw [if_neg hbelow]
    by_cases hmore : st.mid + 1 < st.hi
    · rw [if_pos hmore]
      rw [UInt64.lt_iff_toNat_lt] at hmore
      rw [← hsucc] at hsplit hcandidate
      refine .inl ⟨_, rfl, ⟨hsplit, hmore, hcandidate⟩, ?_⟩
      dsimp only
      omega
    · rw [if_neg hmore]
      rw [UInt64.lt_iff_toNat_lt] at hmore
      have hsame : st.hi.toNat = st.mid.toNat + 1 := by omega
      rw [hsame] at hsplit
      exact .inr ⟨st.mid.toNat + 1, congrArg Sum.inr hcandidate, hsplit⟩

/-- The loop ends behind as many passes as the range can be halved. -/
theorem Between.run {p : ℕ} {st : LookupPass} (h : Between s fdeTab fdeCount relIp st)
    (hcount : fdeCount.toNat < 2 ^ 31)
    (hsorted : ∀ i j, i ≤ j → j < fdeCount.toNat → s.startOf fdeTab i ≤ s.startOf fdeTab j)
    (hp : st.hi.toNat - st.lo.toNat < 2 ^ p) :
    ∃ k, Orbit.run (s.lookupPass fdeTab relIp) p st = .inr (candidate k) ∧
      Split (s.startOf fdeTab) relIp.toInt fdeCount.toNat k k := by
  induction p generalizing st with
  | zero =>
    have hlt := h.lt
    omega
  | succ p ih =>
    rw [Orbit.run]
    obtain ⟨st', hpass, hnext, hhalf⟩ | ⟨k, hpass, hsplit⟩ := h.pass hcount hsorted
    · rw [hpass]
      exact ih hnext (by omega)
    · rw [hpass]
      exact ⟨k, rfl, hsplit⟩

theorem between_start (h0 : fdeCount ≠ 0) :
    Between s fdeTab fdeCount relIp ⟨0, fdeCount, none⟩ := by
  refine ⟨split_all, ?_, rfl⟩
  exact Nat.pos_of_ne_zero fun h => h0 (UInt64.toNat_inj.mp h)

theorem candidate_eq_some {k : ℕ} (hk : k < 2 ^ 64) (e : UInt64) :
    candidate k = some e ↔ e.toNat + 1 = k := by
  unfold candidate
  split
  case isTrue h0 =>
    rw [h0]
    exact iff_of_false (fun h => by cases h) (Nat.succ_ne_zero _)
  case isFalse h0 =>
    rw [Option.some.injEq, ← UInt64.toNat_inj, toNat_ofNat_of_lt (by omega)]
    omega

theorem candidate_eq_none {k : ℕ} : candidate k = none ↔ k = 0 := by
  unfold candidate
  split
  case isTrue h0 => exact iff_of_true rfl h0
  case isFalse h0 => exact iff_of_false (fun h => by cases h) h0

end Search

/-- In a sorted table `lookup` finds the last entry that is not above the instruction pointer, if
there is one, and reads no entry behind the table. -/
theorem lookup_finds_last (s : Space) (fdeTab fdeCount : UInt64) (relIp : Int32)
    (hcount : fdeCount.toNat < 2 ^ 31) (hp : 32 ≤ s.passes)
    (hsorted : ∀ i j, i ≤ j → j < fdeCount → s.tableStartIp fdeTab i ≤ s.tableStartIp fdeTab j) :
    (∃ r, s.lookup fdeTab fdeCount relIp = .ok r ∧
      (∀ e, r = some e ↔ e < fdeCount ∧ s.tableStartIp fdeTab e ≤ relIp ∧
        ∀ i, e < i → i < fdeCount → relIp < s.tableStartIp fdeTab i) ∧
      (r = none ↔ ∀ i < fdeCount, relIp < s.tableStartIp fdeTab i)) ∧
    (fdeCount ≠ 0 → ∀ st, Orbit.Reaches (s.lookupPass fdeTab relIp) ⟨0, fdeCount, none⟩ st →
      st.mid < fdeCount) := by
  have hsorted : ∀ i j, i ≤ j → j < fdeCount.toNat → s.startOf fdeTab i ≤ s.startOf fdeTab j := by
    intro i j hij hj
    have hlt := fdeCount.toNat_lt
    refine Int32.le_iff_toInt_le.mp (hsorted (.ofNat i) (.ofNat j) ?_ ?_)
    · rw [UInt64.le_iff_toNat_le, toNat_ofNat_of_lt (by omega), toNat_ofNat_of_lt (by omega)]
      exact hij
    · rw [UInt64.lt_iff_toNat_lt, toNat_ofNat_of_lt (by omega)]
      exact hj
  constructor
  · obtain ⟨k, hlookup, hsplit⟩ : ∃ k, s.lookup fdeTab fdeCount relIp = .ok (candidate k) ∧
        Split (s.startOf fdeTab) relIp.toInt fdeCount.toNat k k := by
      unfold Space.lookup
      by_cases h0 : fdeCount = 0
      · rw [if_pos h0, h0]
        exact ⟨0, rfl, split_all⟩
      · rw [if_neg h0, lookupLoop_eq_run]
        obtain ⟨k, hrun, hsplit⟩ := (between_start h0).run (p := 31) hcount hsorted hcount
        rw [Orbit.run_of_done hrun (by omega)]
        exact ⟨k, rfl, hsplit⟩
    have hk := hsplit.le
    refine ⟨candidate k, hlookup, fun e => ?_, ?_⟩
    · have hbehind : (∀ i, e < i → i < fdeCount → relIp < s.tableStartIp fdeTab i) ↔
          ∀ j, e.toNat < j → j < fdeCount.toNat → relIp.toInt < s.startOf fdeTab j := by
        have hall : (∀ i : UInt64, i < fdeCount →
            (e.toNat < i.toNat → relIp.toInt < s.startOf fdeTab i.toNat)) ↔
            ∀ j < fdeCount.toNat, e.toNat < j → relIp.toInt < s.startOf fdeTab j :=
          forall_entries_iff (P := fun j => e.toNat < j → relIp.toInt < s.startOf fdeTab j)
        simp only [start_lt_iff, UInt64.lt_iff_toNat_lt] at hall ⊢
        exact ⟨fun h j hej hj => hall.mp (fun i hi hei => h i hei hi) j hj hej,
          fun h i hei hi => hall.mpr (fun j hj hej => h j hej hj) i hi hei⟩
      have hle : s.tableStartIp fdeTab e ≤ relIp ↔ s.startOf fdeTab e.toNat ≤ relIp.toInt := by
        rw [← not_lt (a := relIp.toInt), ← start_lt_iff]
        exact Int32.not_lt.symm
      rw [candidate_eq_some (by omega), hsplit.last_iff, hbehind, hle, UInt64.lt_iff_toNat_lt]
    · simp only [start_lt_iff]
      rw [candidate_eq_none, hsplit.zero_iff, forall_entries_iff (P := fun i => _ < _)]
  · intro h0 st hst
    have hbetween : Between s fdeTab fdeCount relIp st := by
      apply Orbit.Reaches.invariant _ _ hst
      · intro x y hx hstep
        obtain ⟨y', hpass, hy, -⟩ | ⟨k, hpass, -⟩ := hx.pass hcount hsorted
        · rw [hpass] at hstep
          cases hstep
          exact hy
        · rw [hpass] at hstep
          cases hstep
      · exact between_start h0
    have hmid := hbetween.mid hcount
    have hle := hbetween.split.le
    have hlt := hbetween.lt
    rw [UInt64.lt_iff_toNat_lt]
    omega

/-- A table of three entries, two of them with the same start. -/
def threeEntries : Space where
  is64bit := true
  image addr := [0xf0, 0xff, 0xff, 0xff, 0, 0, 0, 0, 4, 0, 0, 0, 0, 0, 0, 0, 4].getD addr.toNat 0
  proc _ := none
  vm _ _ := .error .enosys
  errno _ := .eio
  nosys := false
  regs _ := 0
  libs := .nil
  passes := 32

theorem lookup_finds_last_three :
    threeEntries.lookup 0 3 7 = .ok (some 2) ∧ threeEntries.lookup 0 3 (-17) = .ok none := by
  have hcases : ∀ i : UInt64, i < 3 → i = 0 ∨ i = 1 ∨ i = 2 := by
    intro i hi
    have hnat : i.toNat < 3 := UInt64.lt_iff_toNat_lt.mp hi
    have hzero : (0 : UInt64).toNat = 0 := rfl
    have hone : (1 : UInt64).toNat = 1 := rfl
    have htwo : (2 : UInt64).toNat = 2 := rfl
    rw [← UInt64.toNat_inj, ← UInt64.toNat_inj, ← UInt64.toNat_inj, hzero, hone, htwo]
    omega
  have hsorted : ∀ i j : UInt64, i ≤ j → j < 3 →
      threeEntries.tableStartIp 0 i ≤ threeEntries.tableStartIp 0 j := by
    intro i j hij hj
    obtain rfl | rfl | rfl := hcases j hj <;>
      obtain rfl | rfl | rfl := hcases i (UInt64.lt_of_le_of_lt hij hj) <;>
        first | exact absurd hij (by decide) | decide +kernel
  obtain ⟨⟨r, hr, hlast, -⟩, -⟩ := lookup_finds_last threeEntries 0 3 7 (by decide) le_rfl hsorted
  obtain ⟨⟨r', hr', -, hnone⟩, -⟩ :=
    lookup_finds_last threeEntries 0 3 (-17) (by decide) le_rfl hsorted
  constructor
  · have hfound : r = some 2 := by
      refine (hlast 2).mpr ⟨by decide, by decide +kernel, fun i hi hi' => ?_⟩
      obtain rfl | rfl | rfl := hcases i hi' <;> exact absurd hi (by decide)
    rw [hr, hfound]
  · have hnothing : r' = none := by
      refine hnone.mpr fun i hi => ?_
      obtain rfl | rfl | rfl := hcases i hi <;> decide +kernel
    rw [hr', hnothing]

end Mtrace.Dwarf
