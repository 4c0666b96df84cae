import Mathlib.Algebra.Order.Group.Multiset
import Mathlib.Logic.Function.Basic
import Mathlib.Tactic.Abel

/-!
# A memory in pieces

What a piece of memory holds, as a collection of cells: an address and what stands there.  A rule
for each access takes one cell off the collection and puts it back; what is outside of it does not
change.

1. `Chunks.Holds`: the memory is the old one except for the cells of a collection.
2. Reading, writing, freeing, and handing a cell over to the rest of the memory or taking it from
there.
-/

namespace Chunks

universe u v

variable {α : Type u} {β : Type v} [DecidableEq α]

/-- The memory `m` holds the cells `s` and is like `base` everywhere else. -/
structure Holds (base : α → Option β) (s : Multiset (α × β)) (m : α → Option β) : Prop where
  nodup : (s.map Prod.fst).Nodup
  cell : ∀ {a n}, (a, n) ∈ s → m a = some n
  frame : ∀ {a}, a ∉ s.map Prod.fst → m a = base a

section Rules

variable {base m : α → Option β} {s t : Multiset (α × β)} {a b : α} {n n' : β}

omit [DecidableEq α] in
theorem Holds.congr (h : Holds base s m) (heq : s = t) : Holds base t m := heq ▸ h

omit [DecidableEq α] in
theorem Holds.read (h : Holds base ({(a, n)} + s) m) : m a = some n :=
  h.cell (Multiset.mem_add.mpr (.inl (Multiset.mem_singleton_self _)))

omit [DecidableEq α] in
/-- The address of a cell is not that of another one. -/
theorem Holds.fresh (h : Holds base ({(a, n)} + s) m) : a ∉ s.map Prod.fst := by
  have hnodup := h.nodup
  rw [Multiset.map_add, Multiset.map_singleton, Multiset.singleton_add,
    Multiset.nodup_cons] at hnodup
  exact hnodup.1

omit [DecidableEq α] in
theorem Holds.ne (h : Holds base ({(a, n)} + s) m) (hb : b ∈ s.map Prod.fst) : b ≠ a :=
  fun heq => h.fresh (heq ▸ hb)

omit [DecidableEq α] in
theorem keys_singleton_add : (({(a, n)} + s).map Prod.fst) = a ::ₘ s.map Prod.fst := by
  rw [Multiset.map_add, Multiset.map_singleton, Multiset.singleton_add]

theorem Holds.write (h : Holds base ({(a, n)} + s) m) (n' : β) :
    Holds base ({(a, n')} + s) (Function.update m a (some n')) where
  nodup := by
    rw [keys_singleton_add, ← keys_singleton_add (n := n)]
    exact h.nodup
  cell {b n''} hb := by
    rcases Multiset.mem_add.mp hb with hb | hb
    · cases Multiset.mem_singleton.mp hb
      exact Function.update_self ..
    · have hne := h.ne (Multiset.mem_map_of_mem Prod.fst hb)
      rw [Function.update_of_ne hne]
      exact h.cell (Multiset.mem_add.mpr (.inr hb))
  frame {b} hb := by
    rw [keys_singleton_add, Multiset.mem_cons, not_or] at hb
    rw [Function.update_of_ne hb.1]
    refine h.frame ?_
    rw [keys_singleton_add, Multiset.mem_cons, not_or]
    exact hb

/-- A cell is handed over to the rest of the memory. -/
theorem Holds.release (h : Holds base ({(a, n)} + s) m) :
    Holds (Function.update base a (some n)) s m where
  nodup := by
    have hnodup := h.nodup
    rw [keys_singleton_add, Multiset.nodup_cons] at hnodup
    exact hnodup.2
  cell hb := h.cell (Multiset.mem_add.mpr (.inr hb))
  frame {b} hb := by
    by_cases hba : b = a
    · subst hba
      rw [Function.update_self]
      exact h.read
    · rw [Function.update_of_ne hba]
      refine h.frame ?_
      rw [keys_singleton_add, Multiset.mem_cons, not_or]
      exact ⟨hba, hb⟩

/-- A cell is freed. -/
theorem Holds.drop (h : Holds base ({(a, n)} + s) m) :
    Holds (Function.update base a none) s (Function.update m a none) where
  nodup := by
    have hnodup := h.nodup
    rw [keys_singleton_add, Multiset.nodup_cons] at hnodup
    exact hnodup.2
  cell {b n'} hb := by
    have hne := h.ne (Multiset.mem_map_of_mem Prod.fst hb)
    rw [Function.update_of_ne hne]
    exact h.cell (Multiset.mem_add.mpr (.inr hb))
  frame {b} hb := by
    by_cases hba : b = a
    · subst hba
      rw [Function.update_self, Function.update_self]
    · rw [Function.update_of_ne hba, Function.update_of_ne hba]
      refine h.frame ?_
      rw [keys_singleton_add, Multiset.mem_cons, not_or]
      exact ⟨hba, hb⟩

omit [DecidableEq α] in
/-- A cell is taken from the rest of the memory. -/
theorem Holds.acquire (h : Holds base s m) (ha : a ∉ s.map Prod.fst) (hn : m a = some n) :
    Holds base ({(a, n)} + s) m where
  nodup := by
    rw [keys_singleton_add, Multiset.nodup_cons]
    exact ⟨ha, h.nodup⟩
  cell hb := by
    rcases Multiset.mem_add.mp hb with hb | hb
    · cases Multiset.mem_singleton.mp hb
      exact hn
    · exact h.cell hb
  frame {b} hb := by
    rw [keys_singleton_add, Multiset.mem_cons, not_or] at hb
    exact h.frame hb.2

omit [DecidableEq α] in
theorem holds_empty (m : α → Option β) : Holds m 0 m where
  nodup := Multiset.nodup_zero
  cell hb := absurd hb (Multiset.notMem_zero _)
  frame _ := rfl

end Rules

end Chunks
