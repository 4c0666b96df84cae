import Mathlib.Data.Set.Insert
import Mtrace.Allocator

/-!
# Sets of ranges

The ranges a process holds, as a set, and what a call does to it: `release` of the range at an
address, `cut` of a range out of all others, and `place` of a range that was obtained, which takes
the place of what was there.

`evict` is a cheaper way to make room, which looks at the beginnings of the ranges only.  It does
the same as `cut` exactly if the new range is `Clean`.
-/

namespace Allocator

namespace Span

theorem toNat_ne_zero {n : UInt64} (h : n ≠ 0) : n.toNat ≠ 0 := fun h0 =>
  h (UInt64.toNat_inj.mp h0)

/-- The number of addresses the range takes. -/
def len (x : Span) : UInt64 := if x.size = 0 then 1 else x.size

theorem toNat_len (x : Span) : x.len.toNat = max x.size.toNat 1 := by
  unfold len
  split
  next h => rw [h]; rfl
  next h =>
    have := toNat_ne_zero h
    omega

theorem last_eq (x : Span) : x.last = x.addr.toNat + x.len.toNat := by rw [last, toNat_len]

theorem addr_lt_last (x : Span) : x.addr.toNat < x.last := by unfold last; omega

/-- The beginning of the range is in the other one. -/
def StartsIn (s x : Span) : Prop := x.addr.toNat ≤ s.addr.toNat ∧ s.addr.toNat < x.last

theorem StartsIn.not_apart {s x : Span} (h : s.StartsIn x) : ¬ x.Apart s := by
  have hs := s.addr_lt_last
  unfold StartsIn at h
  unfold Apart
  omega

/-- A part of a range is outside of what the range is outside of. -/
theorem Apart.of_within {x s t : Span} (h : x.Apart s) (h1 : s.addr.toNat ≤ t.addr.toNat)
    (h2 : t.last ≤ s.last) : x.Apart t := by
  unfold Apart at *
  omega

/-- What is left of `s` when `R` is taken out of it. -/
inductive Leaves (R s : Span) : Span → Prop where
  | whole (h : R.Apart s) : Leaves R s s
  | low (h : s.addr.toNat < R.addr.toNat) (h' : R.addr.toNat < s.last) :
      Leaves R s ⟨s.addr, R.addr - s.addr⟩
  | high (h : s.addr.toNat < R.last) (h' : R.last < s.last) :
      Leaves R s ⟨R.addr + R.len, s.addr + s.size - (R.addr + R.len)⟩

theorem toNat_end {R : Span} (h : R.last < 2 ^ 64) : (R.addr + R.len).toNat = R.last := by
  rw [UInt64.toNat_add, ← last_eq, Nat.mod_eq_of_lt h]

/-- The size of the upper part. -/
theorem toNat_high {R s : Span} (hR : R.last < 2 ^ 64) (hs : s.last ≤ 2 ^ 64)
    (h : s.addr.toNat < R.last) (h' : R.last < s.last) :
    (s.addr + s.size - (R.addr + R.len)).toNat = s.last - R.last := by
  have hlast : s.last = s.addr.toNat + max s.size.toNat 1 := rfl
  rw [UInt64.toNat_sub, toNat_end hR, UInt64.toNat_add]
  omega

/-- Nothing is left of a range that lies in the one taken out. -/
theorem StartsIn.not_leaves {R s t : Span} (hst : s.StartsIn R) (hend : s.last ≤ R.last) :
    ¬ Leaves R s t := by
  intro hl
  have hap := hst.not_apart
  unfold StartsIn at hst
  cases hl with
  | whole h => exact hap h
  | low h h' => omega
  | high h h' => omega

/-- The end of the lower part. -/
theorem last_low {R s : Span} (h : s.addr.toNat < R.addr.toNat) :
    last ⟨s.addr, R.addr - s.addr⟩ = R.addr.toNat := by
  have hsub : (R.addr - s.addr).toNat = R.addr.toNat - s.addr.toNat :=
    UInt64.toNat_sub_of_le _ _ (UInt64.le_iff_toNat_le.mpr (by omega))
  unfold last
  dsimp only
  omega

/-- The end of the upper part. -/
theorem last_high {R s : Span} (hs : s.last ≤ 2 ^ 64) (h : s.addr.toNat < R.last)
    (h' : R.last < s.last) :
    last ⟨R.addr + R.len, s.addr + s.size - (R.addr + R.len)⟩ = s.last := by
  have hend := toNat_end (h'.trans_le hs)
  have hsize := toNat_high (h'.trans_le hs) hs h h'
  unfold last at *
  dsimp only
  omega

/-- A part lies in the range it is a part of, and outside of what was taken. -/
theorem Leaves.within {R s t : Span} (h : Leaves R s t) (hs : s.last ≤ 2 ^ 64) :
    s.addr.toNat ≤ t.addr.toNat ∧ t.last ≤ s.last ∧ R.Apart t := by
  cases h with
  | whole h => exact ⟨le_rfl, le_rfl, h⟩
  | low h h' =>
    have hlast := last_low h
    exact ⟨le_rfl, by omega, .inr (by omega)⟩
  | high h h' =>
    have hend := toNat_end (h'.trans_le hs)
    have hlast := last_high hs h h'
    exact ⟨by dsimp only; omega, hlast.le, .inl (by dsimp only; omega)⟩

/-- The addresses of a range. -/
def addrs (x : Span) : Set ℕ := Set.Ico x.addr.toNat x.last

end Span

/-- No two of the ranges overlap, and all lie in the address space. -/
structure Separate (T : Set Span) : Prop where
  apart : T.Pairwise Span.Apart
  fits : ∀ s ∈ T, s.last ≤ 2 ^ 64

/-- The ranges can be held at once: no two overlap, none is at address `0`, and all end below the
last address. -/
structure Laid (limit : ℕ) (T : Set Span) : Prop where
  apart : T.Pairwise Span.Apart
  fits : ∀ s ∈ T, s.last < limit
  ne_zero : ∀ s ∈ T, s.addr ≠ 0

/-- The set without the range at an address. -/
def release (a : UInt64) (T : Set Span) : Set Span := {s ∈ T | s.addr ≠ a}

/-- What is left of the ranges outside of `R`. -/
def cut (R : Span) (T : Set Span) : Set Span := {t | ∃ s ∈ T, R.Leaves s t}

/-- The addresses of the ranges. -/
def covered (T : Set Span) : Set ℕ := {a | ∃ s ∈ T, a ∈ s.addrs}

/-- The set with a range that was obtained. -/
def place (x : Span) (T : Set Span) : Set Span := insert x (cut x T)

/-- The set without the ranges that start in `x`. -/
def evict (x : Span) (T : Set Span) : Set Span := {s ∈ T | ¬ s.StartsIn x}

/-- The set with a range that was obtained, if one was. -/
def placing (o : Option Span) (T : Set Span) : Set Span := o.elim T fun x => place x T

/-- No range starts before `R` and ends in it or behind it. -/
def NoReach (R : Span) (T : Set Span) : Prop :=
  ∀ s ∈ T, s.addr.toNat < R.addr.toNat → s.last ≤ R.addr.toNat

/-- Every range is outside of `x` or inside of it. -/
def Clean (x : Span) (T : Set Span) : Prop :=
  ∀ s ∈ T, x.Apart s ∨ s.StartsIn x ∧ s.last ≤ x.last

section Sets

variable {limit : ℕ} {T : Set Span} {R x : Span}

theorem Laid.mono {T' : Set Span} (h : Laid limit T) (hsub : T' ⊆ T) : Laid limit T' :=
  ⟨h.apart.mono hsub, fun s hs => h.fits s (hsub hs), fun s hs => h.ne_zero s (hsub hs)⟩

theorem Laid.weaken {n : ℕ} (h : Laid limit T) (hn : limit ≤ n) : Laid n T :=
  ⟨h.apart, fun s hs => (h.fits s hs).trans_le hn, h.ne_zero⟩

theorem Laid.separate (h : Laid (2 ^ 64) T) : Separate T :=
  ⟨h.apart, fun s hs => (h.fits s hs).le⟩

theorem Separate.mono {T' : Set Span} (h : Separate T) (hsub : T' ⊆ T) : Separate T' :=
  ⟨h.apart.mono hsub, fun s hs => h.fits s (hsub hs)⟩

/-- Ranges with a common address are the same. -/
theorem Separate.eq_of_not_apart (h : Separate T) {s t : Span} (hs : s ∈ T) (ht : t ∈ T)
    (hst : ¬ s.Apart t) : s = t := by
  by_contra hne
  exact hst (h.apart hs ht hne)

theorem Separate.eq_of_addr (h : Separate T) {s t : Span} (hs : s ∈ T) (ht : t ∈ T)
    (heq : s.addr = t.addr) : s = t :=
  h.eq_of_not_apart hs ht fun hap => hap.ne heq

theorem release_subset (a : UInt64) (T : Set Span) : release a T ⊆ T := Set.sep_subset _ _

theorem release_eq_self {a : UInt64} : release a T = T ↔ ∀ s ∈ T, s.addr ≠ a :=
  Set.sep_eq_self_iff_mem_true

theorem Laid.release_zero (h : Laid limit T) : release 0 T = T :=
  release_eq_self.mpr h.ne_zero

/-- A range that starts in a member of the set and is one is that member. -/
theorem Separate.eq_of_startsIn (h : Separate T) {s t : Span} (hs : s ∈ T) (ht : t ∈ T)
    (hst : s.StartsIn t) : s = t :=
  (h.eq_of_not_apart ht hs hst.not_apart).symm

theorem NoReach.apart (h : NoReach R T) {t : Span} (ht : t ∈ T) (hst : ¬ t.StartsIn R) :
    R.Apart t := by
  have h1 := h t ht
  unfold Span.StartsIn at hst
  unfold Span.Apart
  omega

/-- Members of the set that do not start in `R` stay, if none reaches into it. -/
theorem NoReach.mem_cut (h : NoReach R T) {t : Span} (ht : t ∈ T) (hst : ¬ t.StartsIn R) :
    t ∈ cut R T :=
  ⟨t, ht, .whole (h.apart ht hst)⟩

theorem NoReach.leaves_eq (h : NoReach R T) {s t : Span} (hs : s ∈ T) (hst : ¬ s.StartsIn R)
    (hl : R.Leaves s t) : t = s := by
  have h1 := h s hs
  have hlen := R.addr_lt_last
  unfold Span.StartsIn at hst
  cases hl with
  | whole => rfl
  | low h2 h3 => omega
  | high h2 h3 => omega

section Cut

variable (hT : Separate T)

include hT

theorem apart_of_mem_cut {t : Span} (ht : t ∈ cut R T) : R.Apart t := by
  obtain ⟨s, hs, hl⟩ := ht
  exact (hl.within (hT.fits s hs)).2.2

theorem cut_eq_self_iff : cut R T = T ↔ ∀ s ∈ T, R.Apart s := by
  constructor
  · intro h s hs
    exact apart_of_mem_cut hT (h.symm ▸ hs)
  · intro h
    ext t
    constructor
    · rintro ⟨s, hs, hl⟩
      have hap := h s hs
      cases hl with
      | whole => exact hs
      | low h1 h2 => unfold Span.Apart at hap; have := R.addr_lt_last; omega
      | high h1 h2 => unfold Span.Apart at hap; have := R.addr_lt_last; omega
    · exact fun ht => ⟨t, ht, .whole (h t ht)⟩

/-- A member of the set that reaches into `R` from below is not left as it is. -/
theorem NoReach.of_cut (h : T ∩ {s | s.addr.toNat < R.addr.toNat} ⊆ cut R T) : NoReach R T := by
  intro s hs hlt
  have hap := apart_of_mem_cut hT (h ⟨hs, hlt⟩)
  unfold Span.Apart at hap
  have := R.addr_lt_last
  omega

/-- Exactly the addresses of `R` are taken. -/
theorem covered_cut : covered (cut R T) = covered T \ R.addrs := by
  ext a
  constructor
  · rintro ⟨t, ⟨s, hs, hl⟩, hat⟩
    obtain ⟨h1, h2, hap⟩ := hl.within (hT.fits s hs)
    unfold Span.addrs Set.Ico at *
    refine ⟨⟨s, hs, ?_⟩, fun haR => ?_⟩
    · exact ⟨h1.trans hat.1, hat.2.trans_le h2⟩
    · rcases hap with hap | hap
      · exact absurd (haR.2.trans_le hap) (not_lt.mpr hat.1)
      · exact absurd (hat.2.trans_le hap) (not_lt.mpr haR.1)
  · rintro ⟨⟨s, hs, has⟩, haR⟩
    by_cases hap : R.Apart s
    · exact ⟨s, ⟨s, hs, .whole hap⟩, has⟩
    unfold Span.Apart at hap
    push Not at hap
    have hlen := R.addr_lt_last
    by_cases hlt : a < R.addr.toNat
    · have h1 : s.addr.toNat < R.addr.toNat := has.1.trans_lt hlt
      exact ⟨_, ⟨s, hs, .low h1 hap.2⟩, has.1, (Span.last_low h1).symm ▸ hlt⟩
    · have hge : R.last ≤ a := not_lt.mp fun h => haR ⟨not_lt.mp hlt, h⟩
      have h2 : R.last < s.last := hge.trans_lt has.2
      have hend := Span.toNat_end (h2.trans_le (hT.fits s hs))
      refine ⟨_, ⟨s, hs, .high hap.1 h2⟩, ?_, ?_⟩
      · exact hend.le.trans hge
      · exact (Span.last_high (hT.fits s hs) hap.1 h2).symm ▸ has.2

end Cut

/-- Taking out a range in which one member starts and ends. -/
theorem cut_of_within (hT : Separate T) (hreach : NoReach R T) (hx : x ∈ T)
    (hst : x.StartsIn R) (hend : x.last ≤ R.last) {S : Span} (hlast : S.last = R.last)
    (hle : R.addr.toNat ≤ S.addr.toNat) (hend' : S.addr + S.len = R.addr + R.len)
    (hskip : ∀ s ∈ release x.addr T, s.StartsIn R → S.addr.toNat ≤ s.addr.toNat) :
    cut S (release x.addr T) = cut R T ∧ NoReach S (release x.addr T) := by
  have hreach' : NoReach S (release x.addr T) := by
    intro s hs hlt
    by_cases hsR : s.StartsIn R
    · exact absurd (hskip s hs hsR) (by omega)
    · have h1 := hreach s hs.1
      have h2 := S.addr_lt_last
      unfold Span.StartsIn at hsR
      omega
  refine ⟨?_, hreach'⟩
  ext t
  constructor
  · rintro ⟨s, hs, hl⟩
    by_cases hsS : s.StartsIn S
    · refine ⟨s, hs.1, ?_⟩
      unfold Span.StartsIn at hsS
      cases hl with
      | whole h => exact absurd h (Span.StartsIn.not_apart hsS)
      | low h h' => omega
      | high h h' =>
        rw [hend']
        exact .high (by omega) (by omega)
    · rw [hreach'.leaves_eq hs hsS hl]
      refine hreach.mem_cut hs.1 fun hsR => hsS ⟨hskip s hs hsR, ?_⟩
      rw [hlast]
      exact hsR.2
  · rintro ⟨s, hs, hl⟩
    by_cases hsx : s = x
    · subst hsx
      exact absurd hl (hst.not_leaves hend)
    have hs' : s ∈ release x.addr T := ⟨hs, fun h => hsx (hT.eq_of_addr hs hx h)⟩
    by_cases hsR : s.StartsIn R
    · have hle' := hskip s hs' hsR
      refine ⟨s, hs', ?_⟩
      unfold Span.StartsIn at hsR
      cases hl with
      | whole h => exact absurd h (Span.StartsIn.not_apart hsR)
      | low h h' => omega
      | high h h' =>
        rw [← hend']
        exact .high (by omega) (by omega)
    · rw [hreach.leaves_eq hs hsR hl]
      refine hreach'.mem_cut hs' fun hsS => hsR ?_
      unfold Span.StartsIn at hsS ⊢
      omega

/-- Taking out a range in which one member starts, which ends in it. -/
theorem cut_of_inside (hT : Separate T) (hreach : NoReach R T) (hx : x ∈ T)
    (hst : x.StartsIn R) (hend : x.last ≤ R.last)
    (honly : ∀ s ∈ release x.addr T, ¬ s.StartsIn R) : cut R T = release x.addr T := by
  ext t
  constructor
  · rintro ⟨s, hs, hl⟩
    by_cases hsx : s = x
    · subst hsx
      exact absurd hl (hst.not_leaves hend)
    · have hs' : s ∈ release x.addr T := ⟨hs, fun h => hsx (hT.eq_of_addr hs hx h)⟩
      rw [hreach.leaves_eq hs (honly s hs') hl]
      exact hs'
  · exact fun ht => hreach.mem_cut ht.1 (honly t ht)

/-- Taking out a range in which one member starts, which ends behind it. -/
theorem cut_of_beyond (hT : Separate T) (hreach : NoReach R T) (hx : x ∈ T)
    (hst : x.StartsIn R) (hend : R.last < x.last) (honly : ∀ s ∈ release x.addr T, ¬ s.StartsIn R) :
    cut R T = insert ⟨R.addr + R.len, x.addr + x.size - (R.addr + R.len)⟩ (release x.addr T) := by
  ext t
  constructor
  · rintro ⟨s, hs, hl⟩
    by_cases hsx : s = x
    · subst hsx
      unfold Span.StartsIn at hst
      cases hl with
      | whole h => exact absurd h (Span.StartsIn.not_apart hst)
      | low h h' => omega
      | high h h' => exact .inl rfl
    · have hs' : s ∈ release x.addr T := ⟨hs, fun h => hsx (hT.eq_of_addr hs hx h)⟩
      rw [hreach.leaves_eq hs (honly s hs') hl]
      exact .inr hs'
  · rintro (rfl | ht)
    · exact ⟨x, hx, .high hst.2 hend⟩
    · exact hreach.mem_cut ht.1 (honly t ht)

theorem Laid.cut (hT : Laid limit T) (hlimit : limit ≤ 2 ^ 64) (hR : R.last < 2 ^ 64) :
    Laid limit (cut R T) := by
  have hin : ∀ {s t}, s ∈ T → R.Leaves s t → s.addr.toNat ≤ t.addr.toNat ∧ t.last ≤ s.last :=
    fun hs hl => by
      obtain ⟨h1, h2, -⟩ := hl.within ((hT.fits _ hs).le.trans hlimit)
      exact ⟨h1, h2⟩
  refine ⟨?_, ?_, ?_⟩
  · rintro t ⟨s, hs, hl⟩ t' ⟨s', hs', hl'⟩ hne
    obtain ⟨h1, h2⟩ := hin hs hl
    obtain ⟨h3, h4⟩ := hin hs' hl'
    by_cases hss : s = s'
    · -- two parts of one range are on the two sides of what was taken
      subst hss
      have hend := Span.toNat_end hR
      have hlen := R.addr_lt_last
      have hapart := (hl.within ((hT.fits _ hs).le.trans hlimit)).2.2
      have hapart' := (hl'.within ((hT.fits _ hs).le.trans hlimit)).2.2
      unfold Span.Apart at *
      cases hl with
      | whole h =>
        cases hl' with
        | whole => exact absurd rfl hne
        | low => omega
        | high => omega
      | low h h' =>
        cases hl' with
        | whole => omega
        | low => exact absurd rfl hne
        | high => dsimp only at *; omega
      | high h h' =>
        cases hl' with
        | whole => omega
        | low => dsimp only at *; omega
        | high => exact absurd rfl hne
    · have hap := hT.apart hs hs' hss
      unfold Span.Apart at *
      omega
  · rintro t ⟨s, hs, hl⟩
    exact (hin hs hl).2.trans_lt (hT.fits s hs)
  · rintro t ⟨s, hs, hl⟩ h0
    have h1 := (hin hs hl).1
    have h2 := Span.toNat_ne_zero (hT.ne_zero s hs)
    rw [h0] at h1
    exact h2 (Nat.le_zero.mp h1)

theorem evict_eq_self (h : ∀ s ∈ T, x.Apart s) : evict x T = T :=
  Set.sep_eq_self_iff_mem_true.mpr fun s hs hst => hst.not_apart (h s hs)

/-- Making room by the beginnings alone is right exactly if nothing reaches over an end of the new
range. -/
theorem insert_evict_eq_place_iff (hT : Laid (2 ^ 64) T) (hx : x.last < 2 ^ 64) :
    insert x (evict x T) = place x T ↔ Clean x T := by
  constructor
  · intro h s hs
    by_cases hst : s.StartsIn x
    · refine .inr ⟨hst, not_lt.mp fun hlt => ?_⟩
      -- the part of `s` behind `x` would start in `s`, and be another member
      have hmem : (⟨x.addr + x.len, s.addr + s.size - (x.addr + x.len)⟩ : Span) ∈
          insert x (evict x T) := h ▸ .inr ⟨s, hs, .high hst.2 hlt⟩
      have hend := Span.toNat_end hx
      have hlen := x.addr_lt_last
      rcases hmem with heq | hmem
      · have := congrArg (fun y => y.addr.toNat) heq
        dsimp only at this
        omega
      · have hin : Span.StartsIn ⟨x.addr + x.len, s.addr + s.size - (x.addr + x.len)⟩ s := by
          unfold Span.StartsIn at hst ⊢
          dsimp only
          omega
        have heq := congrArg (fun y => y.addr.toNat) (hT.separate.eq_of_startsIn hmem.1 hs hin)
        unfold Span.StartsIn at hst
        dsimp only at heq
        omega
    · left
      rcases (h ▸ .inr ⟨hs, hst⟩ : s ∈ place x T) with rfl | hmem
      · exact absurd ⟨le_rfl, s.addr_lt_last⟩ hst
      · exact apart_of_mem_cut hT.separate hmem
  · intro h
    ext t
    refine or_congr_right ⟨?_, ?_⟩
    · rintro ⟨ht, hst⟩
      exact ⟨t, ht, .whole ((h t ht).resolve_right fun h' => hst h'.1)⟩
    · rintro ⟨s, hs, hl⟩
      rcases h s hs with hap | ⟨hst, hle⟩
      · have hlen := x.addr_lt_last
        cases hl with
        | whole => exact ⟨hs, fun hst => hst.not_apart hap⟩
        | low h1 h2 => unfold Span.Apart at hap; omega
        | high h1 h2 => unfold Span.Apart at hap; omega
      · unfold Span.StartsIn at hst
        cases hl with
        | whole hap => exact absurd hap (Span.StartsIn.not_apart hst)
        | low h1 h2 => omega
        | high h1 h2 => omega

theorem Separate.clean (h : Separate T) (hx : x ∈ T) : Clean x T := by
  intro s hs
  by_cases heq : x = s
  · subst heq
    exact .inr ⟨⟨le_rfl, x.addr_lt_last⟩, le_rfl⟩
  · exact .inl (h.apart hx hs heq)

/-- A member of the set makes room for itself only. -/
theorem Separate.insert_evict (h : Separate T) (hx : x ∈ T) : insert x (evict x T) = T := by
  ext s
  constructor
  · rintro (rfl | hs)
    · exact hx
    · exact hs.1
  · intro hs
    by_cases hst : s.StartsIn x
    · exact .inl (h.eq_of_startsIn hs hx hst)
    · exact .inr ⟨hs, hst⟩

theorem Laid.place_of_mem (h : Laid (2 ^ 64) T) (hx : x ∈ T) : place x T = T :=
  ((insert_evict_eq_place_iff h (h.fits x hx)).mpr (h.separate.clean hx)).symm.trans
    (h.separate.insert_evict hx)

/-- A range is inserted where another one, or none, was obtained: the set is right if both are
members of it already. -/
theorem insert_eq_placing_iff {S : Set Span} {y : Span} {o : Option Span} (hT : Laid (2 ^ 64) T)
    (hS : S = if y.last < 2 ^ 64 then evict y T else T) (hne : some y ≠ o) :
    insert y S = placing o T ↔ (∀ x, o = some x → x ∈ T) ∧ y ∈ T := by
  have hsub : S ⊆ T := by
    rw [hS]
    split_ifs
    · exact Set.sep_subset _ _
    · exact subset_rfl
  have hback : y ∈ T → insert y S = T := fun hy => by
    rw [hS, if_pos (hT.fits y hy)]
    exact hT.separate.insert_evict hy
  cases o with
  | none =>
    refine ⟨fun h => ⟨fun x hx => (by cases hx), ?_⟩, fun h => hback h.2⟩
    have hy : y ∈ placing none T := h ▸ Set.mem_insert y S
    exact hy
  | some x =>
    have hxy : x ≠ y := fun h => hne (congrArg some h.symm)
    constructor
    · intro h
      have hmem : x ∈ insert y S := h ▸ Set.mem_insert x (cut x T)
      have hx : x ∈ T := hsub (hmem.resolve_left hxy)
      have hplace : insert y S = T := h.trans (hT.place_of_mem hx)
      exact ⟨fun _ h => Option.some.inj h ▸ hx, hplace ▸ Set.mem_insert y S⟩
    · rintro ⟨hx, hy⟩
      exact (hback hy).trans (hT.place_of_mem (hx x rfl)).symm

theorem insert_eq_place_iff_of_addr {S : Set Span} {y : Span} (hT : Laid (2 ^ 64) T)
    (hx : x.last < 2 ^ 64) (hS : S = if y.last < 2 ^ 64 then evict y T else T)
    (haddr : y.addr = x.addr) : insert y S = place x T ↔ y.size = x.size ∧ Clean x T := by
  by_cases hsize : y.size = x.size
  · obtain rfl : y = x := congrArg₂ Span.mk haddr hsize
    rw [hS, if_pos hx, insert_evict_eq_place_iff hT hx, and_iff_right rfl]
  · have hne : some y ≠ some x := fun h => hsize (congrArg Span.size (Option.some.inj h))
    have hplacing : place x T = placing (some x) T := rfl
    rw [hplacing, insert_eq_placing_iff hT hS hne]
    refine iff_of_false (fun ⟨hmem, hy⟩ => hsize ?_) fun h => hsize h.1
    exact congrArg Span.size (hT.separate.eq_of_addr hy (hmem x rfl) haddr)

/-- The same for a set from which a member was to be released first. -/
theorem insert_evict_eq_place_release_iff {q : UInt64} (hT : Laid (2 ^ 64) T)
    (hx : x.last < 2 ^ 64) :
    insert x (evict x T) = place x (release q T) ↔
      (∀ s ∈ T, s.addr = q → s.StartsIn x) ∧ Clean x (release q T) := by
  have hevict : (∀ s ∈ T, s.addr = q → s.StartsIn x) → evict x T = evict x (release q T) := by
    intro h
    ext s
    exact ⟨fun ⟨hs, hst⟩ => ⟨⟨hs, fun hq => hst (h s hs hq)⟩, hst⟩, fun ⟨hs, hst⟩ => ⟨hs.1, hst⟩⟩
  have hiff := insert_evict_eq_place_iff (hT.mono (release_subset q T)) hx
  constructor
  · intro heq
    have hin : ∀ s ∈ T, s.addr = q → s.StartsIn x := by
      intro s hs hq
      by_contra hst
      rcases (heq ▸ .inr ⟨hs, hst⟩ : s ∈ place x (release q T)) with rfl | ⟨s', hs', hl⟩
      · exact hst ⟨le_rfl, s.addr_lt_last⟩
      · -- it would be part of another member
        obtain ⟨h1, h2, -⟩ := hl.within (hT.fits s' hs'.1).le
        have hlt := s.addr_lt_last
        have hss : s = s' := hT.separate.eq_of_startsIn hs hs'.1 ⟨h1, by omega⟩
        exact hs'.2 (hss ▸ hq)
    exact ⟨hin, hiff.mp (hevict hin ▸ heq)⟩
  · rintro ⟨hin, hclean⟩
    rw [hevict hin]
    exact hiff.mpr hclean

end Sets

end Allocator
