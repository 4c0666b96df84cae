import Mathlib.Data.UInt
import Mathlib.Logic.Function.Basic

/-!
# A heap shared by threads

What a memory allocator promises to the threads of a process, over addresses of 64 bits.  A
`realloc` is a call with a beginning and an end; in between it releases the old block and reserves
the new one, in any order, and other threads may be given what it has released.

1. `Heap`, its actions, when one is possible (`Enabled`) and what it does (`next`).
2. `Proper`: a program that does not touch a block which a `realloc` still works on.
3. `WellFormed`: live and reserved ranges do not overlap, along every proper run.
-/

namespace Allocator

/-- A range of addresses; one without bytes still takes an address. -/
structure Span where
  addr : UInt64
  size : UInt64
  deriving DecidableEq, Repr

namespace Span

/-- The first address behind the range. -/
def last (x : Span) : ℕ := x.addr.toNat + max x.size.toNat 1

/-- The ranges have no address in common. -/
def Apart (x y : Span) : Prop := x.last ≤ y.addr.toNat ∨ y.last ≤ x.addr.toNat

theorem Apart.symm {x y : Span} (h : x.Apart y) : y.Apart x := Or.symm h

theorem Apart.ne {x y : Span} (h : x.Apart y) : x.addr ≠ y.addr := by
  intro heq
  unfold Apart last at h
  rw [heq] at h
  omega

end Span

/-- A call of `realloc` that has begun and not ended. -/
structure Realloc where
  old : Span
  released : Bool
  new : Option Span
  deriving DecidableEq, Repr

/-- The live blocks by address, and the `realloc` call each thread is in. -/
structure Heap (τ : Type) where
  live : UInt64 → Option UInt64
  pending : τ → Option Realloc

inductive Action (τ : Type) where
  | alloc (x : Span)
  | free (a : UInt64)
  | reallocBegin (t : τ) (a : UInt64)
  | release (t : τ)
  | reserve (t : τ) (x : Span)
  | reallocDone (t : τ) (x : Span)
  | reallocFail (t : τ)

variable {τ : Type}

namespace Heap

def empty : Heap τ := ⟨fun _ => none, fun _ => none⟩

/-- The range lies in the address space and overlaps no live or reserved one. -/
structure Fresh (h : Heap τ) (x : Span) : Prop where
  fits : x.last ≤ 2 ^ 64
  live : ∀ a s, h.live a = some s → x.Apart ⟨a, s⟩
  reserved : ∀ t r y, h.pending t = some r → r.new = some y → x.Apart y

/-- Whether an action can happen. -/
def Enabled (h : Heap τ) : Action τ → Prop
  | .alloc x => h.Fresh x
  | .free a => h.live a ≠ none
  | .reallocBegin t a => h.pending t = none ∧ h.live a ≠ none
  | .release t => ∃ r, h.pending t = some r ∧ r.released = false ∧
      h.live r.old.addr = some r.old.size
  | .reserve t x => ∃ r, h.pending t = some r ∧ r.new = none ∧ h.Fresh x
  | .reallocDone t x => ∃ r, h.pending t = some r ∧ r.released = true ∧ r.new = some x
  | .reallocFail t => ∃ r, h.pending t = some r ∧ r.released = false ∧
      h.live r.old.addr = some r.old.size

variable [DecidableEq τ]

/-- What an action does. -/
def next (h : Heap τ) : Action τ → Heap τ
  | .alloc x => { h with live := Function.update h.live x.addr (some x.size) }
  | .free a => { h with live := Function.update h.live a none }
  | .reallocBegin t a =>
    let call := (h.live a).map fun s => ⟨⟨a, s⟩, false, none⟩
    { h with pending := Function.update h.pending t call }
  | .release t =>
    match h.pending t with
    | some r =>
      { live := Function.update h.live r.old.addr none
        pending := Function.update h.pending t (some { r with released := true }) }
    | none => h
  | .reserve t x =>
    let call := (h.pending t).map fun r => { r with new := some x }
    { h with pending := Function.update h.pending t call }
  | .reallocDone t x =>
    { live := Function.update h.live x.addr (some x.size)
      pending := Function.update h.pending t none }
  | .reallocFail t => { h with pending := Function.update h.pending t none }

/-- A `realloc` of the block at `a` has begun and not released it. -/
def Held (h : Heap τ) (a : UInt64) : Prop :=
  ∃ t r, h.pending t = some r ∧ r.released = false ∧ r.old.addr = a

/-- No `realloc` call is in progress. -/
def Quiet (h : Heap τ) : Prop := ∀ t, h.pending t = none

/-- The actions of a program that leaves a block alone while a `realloc` works on it, on a heap
that hands out no block at address `0`. -/
def Proper (h : Heap τ) : Action τ → Prop
  | .alloc x | .reserve _ x => x.addr ≠ 0
  | .free a | .reallocBegin _ a => ¬ h.Held a
  | _ => True

/-- Live and reserved ranges do not overlap, and a block under a `realloc` call is live and under no
other one. -/
structure WellFormed (h : Heap τ) : Prop where
  held : ∀ {t r}, h.pending t = some r → r.released = false →
    h.live r.old.addr = some r.old.size
  owner : ∀ {t r t' r'}, h.pending t = some r → r.released = false → h.pending t' = some r' →
    r'.released = false → r.old.addr = r'.old.addr → t = t'
  apart : ∀ {t r x a s}, h.pending t = some r → r.new = some x → h.live a = some s →
    x.Apart ⟨a, s⟩
  distinct : ∀ {t r x t' r' x'}, h.pending t = some r → r.new = some x → h.pending t' = some r' →
    r'.new = some x' → t ≠ t' → x.Apart x'
  live_zero : h.live 0 = none
  new_ne : ∀ {t r x}, h.pending t = some r → r.new = some x → x.addr ≠ 0

omit [DecidableEq τ] in
theorem wellFormed_empty : (empty : Heap τ).WellFormed where
  held h := by cases h
  owner h := by cases h
  apart h := by cases h
  distinct h := by cases h
  live_zero := rfl
  new_ne h := by cases h

section Next

variable {h : Heap τ} {t : τ} {x : Span} {a : UInt64}

theorem update_eq_some {α β : Type} [DecidableEq α] {f : α → Option β} {i j : α} {v : Option β}
    {b : β} : Function.update f i v j = some b ↔ j = i ∧ v = some b ∨ j ≠ i ∧ f j = some b := by
  by_cases hj : j = i
  · subst hj; simp
  · simp [hj]

theorem of_update_none {α β : Type} [DecidableEq α] {f : α → Option β} {i j : α} {b : β}
    (h : Function.update f i none j = some b) : f j = some b := by
  rcases update_eq_some.mp h with ⟨-, hb⟩ | ⟨-, hb⟩
  · cases hb
  · exact hb

theorem update_none {α β : Type} [DecidableEq α] {f : α → Option β} (i : α) {j : α}
    (h : f j = none) : Function.update f i none j = none := by
  rw [Function.update_apply]
  split
  · rfl
  · exact h

theorem WellFormed.alloc (hw : h.WellFormed) (hf : h.Fresh x) (hx : x.addr ≠ 0) :
    (h.next (.alloc x)).WellFormed where
  held hr hrel := by
    refine update_eq_some.mpr (.inr ⟨?_, hw.held hr hrel⟩)
    exact (hf.live _ _ (hw.held hr hrel)).ne.symm
  owner := hw.owner
  apart hr hn hl := by
    rcases update_eq_some.mp hl with ⟨rfl, hs⟩ | ⟨-, hl⟩
    · cases hs
      exact (hf.reserved _ _ _ hr hn).symm
    · exact hw.apart hr hn hl
  distinct := hw.distinct
  live_zero := (Function.update_of_ne hx.symm _ _).trans hw.live_zero
  new_ne := hw.new_ne

theorem WellFormed.free (hw : h.WellFormed) (ha : ¬ h.Held a) : (h.next (.free a)).WellFormed where
  held hr hrel := by
    exact update_eq_some.mpr (.inr ⟨fun heq => ha ⟨_, _, hr, hrel, heq⟩, hw.held hr hrel⟩)
  owner := hw.owner
  apart hr hn hl := hw.apart hr hn (of_update_none hl)
  distinct := hw.distinct
  live_zero := update_none a hw.live_zero
  new_ne := hw.new_ne

/-- What a `realloc` call must be like, beside the calls of the other threads. -/
structure Fits (h : Heap τ) (t : τ) (live : UInt64 → Option UInt64) (r : Realloc) : Prop where
  held : r.released = false → live r.old.addr = some r.old.size
  owner : r.released = false → ∀ t' r', t' ≠ t → h.pending t' = some r' → r'.released = false →
    r'.old.addr ≠ r.old.addr
  new_ne : ∀ x, r.new = some x → x.addr ≠ 0
  apart : ∀ x, r.new = some x → ∀ a s, live a = some s → x.Apart ⟨a, s⟩
  distinct : ∀ x, r.new = some x → ∀ t' r' x', t' ≠ t → h.pending t' = some r' →
    r'.new = some x' → x.Apart x'

/-- A heap stays well formed when the call of one thread moves on and the live blocks change, if
both suit the calls of the other threads. -/
theorem WellFormed.update {live : UInt64 → Option UInt64} {v : Option Realloc} (hw : h.WellFormed)
    (hheld : ∀ t' r, t' ≠ t → h.pending t' = some r → r.released = false →
      live r.old.addr = some r.old.size)
    (hapart : ∀ t' r x a s, t' ≠ t → h.pending t' = some r → r.new = some x → live a = some s →
      x.Apart ⟨a, s⟩)
    (hzero : live 0 = none) (hv : ∀ r, v = some r → h.Fits t live r) :
    WellFormed ⟨live, Function.update h.pending t v⟩ where
  held hr hrel := by
    rcases update_eq_some.mp hr with ⟨-, hnew⟩ | ⟨hne, hold⟩
    · exact (hv _ hnew).held hrel
    · exact hheld _ _ hne hold hrel
  owner hr hrel hr' hrel' heq := by
    rcases update_eq_some.mp hr with ⟨ht, hnew⟩ | ⟨hne, hold⟩
    · rcases update_eq_some.mp hr' with ⟨ht', -⟩ | ⟨hne', hold'⟩
      · exact ht.trans ht'.symm
      · exact absurd heq.symm ((hv _ hnew).owner hrel _ _ hne' hold' hrel')
    · rcases update_eq_some.mp hr' with ⟨-, hnew'⟩ | ⟨-, hold'⟩
      · exact absurd heq ((hv _ hnew').owner hrel' _ _ hne hold hrel)
      · exact hw.owner hold hrel hold' hrel' heq
  apart hr hn hl := by
    rcases update_eq_some.mp hr with ⟨-, hnew⟩ | ⟨hne, hold⟩
    · exact (hv _ hnew).apart _ hn _ _ hl
    · exact hapart _ _ _ _ _ hne hold hn hl
  distinct hr hn hr' hn' hne := by
    rcases update_eq_some.mp hr with ⟨ht, hnew⟩ | ⟨ht, hold⟩
    · rcases update_eq_some.mp hr' with ⟨ht', -⟩ | ⟨ht', hold'⟩
      · exact absurd (ht.trans ht'.symm) hne
      · exact (hv _ hnew).distinct _ hn _ _ _ ht' hold' hn'
    · rcases update_eq_some.mp hr' with ⟨-, hnew'⟩ | ⟨-, hold'⟩
      · exact ((hv _ hnew').distinct _ hn' _ _ _ ht hold hn).symm
      · exact hw.distinct hold hn hold' hn' hne
  live_zero := hzero
  new_ne hr hn := by
    rcases update_eq_some.mp hr with ⟨-, hnew⟩ | ⟨-, hold⟩
    · exact (hv _ hnew).new_ne _ hn
    · exact hw.new_ne hold hn

theorem next_reallocBegin {s : UInt64} (hl : h.live a = some s) : h.next (.reallocBegin t a) =
    ⟨h.live, Function.update h.pending t (some ⟨⟨a, s⟩, false, none⟩)⟩ := by
  simp only [next, hl, Option.map_some]

theorem next_release {r : Realloc} (hr : h.pending t = some r) : h.next (.release t) =
    ⟨Function.update h.live r.old.addr none,
      Function.update h.pending t (some { r with released := true })⟩ := by
  simp only [next, hr]

theorem next_reserve {r : Realloc} (hr : h.pending t = some r) : h.next (.reserve t x) =
    ⟨h.live, Function.update h.pending t (some { r with new := some x })⟩ := by
  simp only [next, hr, Option.map_some]

omit [DecidableEq τ] in
/-- A call is beside the calls of the other threads. -/
theorem WellFormed.fits {r : Realloc} (hw : h.WellFormed) (hr : h.pending t = some r) :
    h.Fits t h.live r where
  held := hw.held hr
  owner hrel _ _ hne hr' hrel' heq := hne (hw.owner hr' hrel' hr hrel heq)
  new_ne _ hn := hw.new_ne hr hn
  apart _ hn _ _ hl := hw.apart hr hn hl
  distinct _ hn _ _ _ hne hr' hn' := hw.distinct hr hn hr' hn' hne.symm

theorem WellFormed.next {act : Action τ} (hw : h.WellFormed) (he : h.Enabled act)
    (hp : h.Proper act) : (h.next act).WellFormed := by
  cases act with
  | alloc x => exact hw.alloc he hp
  | free a => exact hw.free hp
  | reallocBegin t a =>
    obtain ⟨-, hne⟩ := he
    obtain ⟨s, hl⟩ := Option.ne_none_iff_exists'.mp hne
    rw [next_reallocBegin hl]
    refine hw.update (fun t' r _ => hw.held) (fun t' r x a s _ => hw.apart) hw.live_zero ?_
    rintro r ⟨⟩
    refine ⟨fun _ => hl, fun _ t' r' _ hr' hrel' heq => hp ⟨t', r', hr', hrel', heq⟩, ?_, ?_, ?_⟩
    · intro x hx; cases hx
    · intro x hx; cases hx
    · intro x hx; cases hx
  | release t =>
    obtain ⟨r, hr, hrel, hl⟩ := he
    rw [next_release hr]
    refine hw.update (fun t' r' hne hr' hrel' => ?_)
      (fun t' r' x a s _ hr' hx ha => hw.apart hr' hx (of_update_none ha))
      (update_none _ hw.live_zero) ?_
    · refine update_eq_some.mpr (.inr ⟨fun heq => ?_, hw.held hr' hrel'⟩)
      exact hne (hw.owner hr' hrel' hr hrel heq)
    · rintro r' ⟨⟩
      have hfit := hw.fits hr
      exact ⟨fun h0 => (by cases h0), fun h0 => (by cases h0), hfit.new_ne,
        fun x hx a s ha => hfit.apart x hx a s (of_update_none ha), hfit.distinct⟩
  | reserve t x =>
    obtain ⟨r, hr, -, hf⟩ := he
    rw [next_reserve hr]
    refine hw.update (fun t' r _ => hw.held) (fun t' r x a s _ => hw.apart) hw.live_zero ?_
    rintro r' ⟨⟩
    have hfit := hw.fits hr
    refine ⟨hfit.held, hfit.owner, ?_, ?_, ?_⟩
    · rintro y ⟨⟩; exact hp
    · rintro y ⟨⟩; exact hf.live
    · rintro y ⟨⟩ t' r' x' - hr' hx'; exact hf.reserved t' r' x' hr' hx'
  | reallocDone t x =>
    obtain ⟨r, hr, hrel, hx⟩ := he
    refine hw.update (fun t' r' hne hr' hrel' => ?_) (fun t' r' y a s hne hr' hy ha => ?_) ?_ ?_
    · refine update_eq_some.mpr (.inr ⟨?_, hw.held hr' hrel'⟩)
      exact (hw.apart hr hx (hw.held hr' hrel')).ne.symm
    · rcases update_eq_some.mp ha with ⟨rfl, hs⟩ | ⟨-, ha⟩
      · cases hs
        exact hw.distinct hr' hy hr hx hne
      · exact hw.apart hr' hy ha
    · exact (Function.update_of_ne (hw.new_ne hr hx).symm _ _).trans hw.live_zero
    · rintro r' ⟨⟩
  | reallocFail t =>
    refine hw.update (fun t' r _ => hw.held) (fun t' r x a s _ => hw.apart) hw.live_zero ?_
    rintro r' ⟨⟩

/-! ### What an observer of the calls sees -/

/-- The block is live and no `realloc` has begun on it. -/
def Tracked (h : Heap τ) (a s : UInt64) : Prop := h.live a = some s ∧ ¬ h.Held a

omit [DecidableEq τ] in
theorem Quiet.tracked_iff {s : UInt64} (hq : h.Quiet) : h.Tracked a s ↔ h.live a = some s := by
  refine and_iff_left ?_
  rintro ⟨t, r, hr, -, -⟩
  rw [hq t] at hr
  cases hr

/-- A `realloc` that begins holds its block, and nothing else changes. -/
theorem held_reallocBegin {s b : UInt64} (ht : h.pending t = none) (hl : h.live a = some s) :
    (h.next (.reallocBegin t a)).Held b ↔ b = a ∨ h.Held b := by
  rw [next_reallocBegin hl]
  constructor
  · rintro ⟨t', r, hr, hrel, rfl⟩
    rcases update_eq_some.mp hr with ⟨-, hnew⟩ | ⟨-, hold⟩
    · cases hnew; exact .inl rfl
    · exact .inr ⟨t', r, hold, hrel, rfl⟩
  · rintro (rfl | ⟨t', r, hr, hrel, hb⟩)
    · exact ⟨t, _, update_eq_some.mpr (.inl ⟨rfl, rfl⟩), rfl, rfl⟩
    · refine ⟨t', r, update_eq_some.mpr (.inr ⟨fun heq => ?_, hr⟩), hrel, hb⟩
      rw [heq, ht] at hr
      cases hr

/-- A call that moves on without holding a block any more. -/
theorem held_update {live : UInt64 → Option UInt64} {v : Option Realloc} {r : Realloc} {b : UInt64}
    (hw : h.WellFormed) (hr : h.pending t = some r) (hv : ∀ r', v = some r' → r'.released = true) :
    Held ⟨live, Function.update h.pending t v⟩ b ↔
      h.Held b ∧ (r.released = false → b ≠ r.old.addr) := by
  constructor
  · rintro ⟨t', r', hr', hrel', rfl⟩
    rcases update_eq_some.mp hr' with ⟨-, hnew⟩ | ⟨hne, hold⟩
    · rw [hv _ hnew] at hrel'
      cases hrel'
    · exact ⟨⟨t', r', hold, hrel', rfl⟩, fun hrel heq => hne (hw.owner hold hrel' hr hrel heq)⟩
  · rintro ⟨⟨t', r', hr', hrel', hb⟩, hne⟩
    refine ⟨t', r', update_eq_some.mpr (.inr ⟨fun heq => ?_, hr'⟩), hrel', hb⟩
    rw [heq, hr] at hr'
    cases hr'
    exact hne hrel' hb.symm

theorem held_reserve {r : Realloc} {b : UInt64} (hr : h.pending t = some r) :
    (h.next (.reserve t x)).Held b ↔ h.Held b := by
  rw [next_reserve hr]
  constructor
  · rintro ⟨t', r', hr', hrel', hb⟩
    rcases update_eq_some.mp hr' with ⟨-, hnew⟩ | ⟨-, hold⟩
    · cases hnew; exact ⟨t, r, hr, hrel', hb⟩
    · exact ⟨t', r', hold, hrel', hb⟩
  · rintro ⟨t', r', hr', hrel', hb⟩
    by_cases ht : t' = t
    · subst ht
      cases hr.symm.trans hr'
      exact ⟨t', _, update_eq_some.mpr (.inl ⟨rfl, rfl⟩), hrel', hb⟩
    · exact ⟨t', r', update_eq_some.mpr (.inr ⟨ht, hr'⟩), hrel', hb⟩

omit [DecidableEq τ] in
theorem WellFormed.live_of_held (hw : h.WellFormed) (ha : h.Held a) : h.live a ≠ none := by
  obtain ⟨t, r, hr, hrel, rfl⟩ := ha
  rw [hw.held hr hrel]
  exact Option.some_ne_none _

omit [DecidableEq τ] in
/-- A block that appears where nothing is live. -/
theorem tracked_insert {h' : Heap τ} {s : UInt64} (hw : h.WellFormed)
    (hlive : h'.live = Function.update h.live x.addr (some x.size)) (hx : h.live x.addr = none)
    (hheld : ∀ b, h'.Held b ↔ h.Held b) :
    h'.Tracked a s ↔ a = x.addr ∧ s = x.size ∨ h.Tracked a s := by
  unfold Tracked
  rw [hlive, update_eq_some, hheld]
  constructor
  · rintro ⟨⟨ha, hs⟩ | ⟨-, hl⟩, hn⟩
    · cases hs; exact .inl ⟨ha, rfl⟩
    · exact .inr ⟨hl, hn⟩
  · rintro (⟨rfl, rfl⟩ | ⟨hl, hn⟩)
    · exact ⟨.inl ⟨rfl, rfl⟩, fun hh => hw.live_of_held hh hx⟩
    · refine ⟨.inr ⟨?_, hl⟩, hn⟩
      rintro rfl
      rw [hx] at hl
      cases hl

omit [DecidableEq τ] in
/-- A range apart from every live one has no live block at its address. -/
theorem live_eq_none (hx : ∀ a s, h.live a = some s → x.Apart ⟨a, s⟩) : h.live x.addr = none := by
  by_contra hne
  obtain ⟨s, hs⟩ := Option.ne_none_iff_exists'.mp hne
  exact (hx _ _ hs).ne rfl

theorem tracked_alloc {s : UInt64} (hw : h.WellFormed) (hf : h.Fresh x) :
    (h.next (.alloc x)).Tracked a s ↔ a = x.addr ∧ s = x.size ∨ h.Tracked a s :=
  tracked_insert hw rfl (live_eq_none hf.live) fun _ => Iff.rfl

theorem tracked_free {b s : UInt64} :
    (h.next (.free b)).Tracked a s ↔ h.Tracked a s ∧ a ≠ b := by
  have hlive : (h.next (.free b)).live a = some s ↔ h.live a = some s ∧ a ≠ b := by
    refine update_eq_some.trans ⟨?_, fun ⟨hl, hne⟩ => .inr ⟨hne, hl⟩⟩
    rintro (⟨-, hs⟩ | ⟨hne, hl⟩)
    · cases hs
    · exact ⟨hl, hne⟩
  unfold Tracked
  rw [hlive]
  exact and_right_comm

theorem tracked_reallocBegin {b s : UInt64} (he : h.Enabled (.reallocBegin t b)) :
    (h.next (.reallocBegin t b)).Tracked a s ↔ h.Tracked a s ∧ a ≠ b := by
  obtain ⟨ht, hne⟩ := he
  obtain ⟨s', hl⟩ := Option.ne_none_iff_exists'.mp hne
  unfold Tracked
  rw [held_reallocBegin ht hl, next_reallocBegin hl]
  show h.live a = some s ∧ _ ↔ _
  tauto

theorem tracked_release {s : UInt64} (hw : h.WellFormed) (he : h.Enabled (.release t)) :
    (h.next (.release t)).Tracked a s ↔ h.Tracked a s := by
  obtain ⟨r, hr, hrel, hl⟩ := he
  unfold Tracked
  rw [next_release hr, held_update hw hr (fun r' hr' => by cases hr'; rfl)]
  show Function.update h.live r.old.addr none a = some s ∧ _ ↔ _
  constructor
  · rintro ⟨hs, hn⟩
    rcases update_eq_some.mp hs with ⟨-, h0⟩ | ⟨hne, hs⟩
    · cases h0
    · exact ⟨hs, fun hh => hn ⟨hh, fun _ => hne⟩⟩
  · rintro ⟨hs, hn⟩
    refine ⟨update_eq_some.mpr (.inr ⟨fun heq => ?_, hs⟩), fun hh => hn hh.1⟩
    exact hn ⟨t, r, hr, hrel, heq.symm⟩

theorem tracked_reserve {s : UInt64} (he : h.Enabled (.reserve t x)) :
    (h.next (.reserve t x)).Tracked a s ↔ h.Tracked a s := by
  obtain ⟨r, hr, -, -⟩ := he
  unfold Tracked
  rw [held_reserve hr]
  exact Iff.rfl

theorem tracked_reallocDone {s : UInt64} (hw : h.WellFormed) (he : h.Enabled (.reallocDone t x)) :
    (h.next (.reallocDone t x)).Tracked a s ↔ a = x.addr ∧ s = x.size ∨ h.Tracked a s := by
  obtain ⟨r, hr, hrel, hx⟩ := he
  refine tracked_insert hw rfl (live_eq_none fun b s => hw.apart hr hx) fun b => ?_
  refine (held_update hw hr fun r' hr' => by cases hr').trans (and_iff_left fun h0 => ?_)
  rw [hrel] at h0
  cases h0

theorem tracked_reallocFail {r : Realloc} {s : UInt64} (hw : h.WellFormed)
    (hr : h.pending t = some r) (hrel : r.released = false) :
    (h.next (.reallocFail t)).Tracked a s ↔
      a = r.old.addr ∧ s = r.old.size ∨ h.Tracked a s := by
  have hheld : (h.next (.reallocFail t)).Held a ↔ h.Held a ∧
      (r.released = false → a ≠ r.old.addr) :=
    held_update hw hr fun r' hr' => by cases hr'
  unfold Tracked
  rw [hheld]
  show h.live a = some s ∧ _ ↔ _
  constructor
  · rintro ⟨hl, hn⟩
    by_cases ha : a = r.old.addr
    · subst ha
      rw [hw.held hr hrel] at hl
      exact .inl ⟨rfl, (Option.some.inj hl).symm⟩
    · exact .inr ⟨hl, fun hh => hn ⟨hh, fun _ => ha⟩⟩
  · rintro (⟨rfl, rfl⟩ | ⟨hl, hn⟩)
    · exact ⟨hw.held hr hrel, fun hh => hh.2 hrel rfl⟩
    · exact ⟨hl, fun hh => hn hh.1⟩

end Next

end Heap

end Allocator
