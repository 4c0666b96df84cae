import Mathlib.Data.List.Count
import Mathlib.Data.List.Perm.Basic

/-!
# Counting in lists

How the number of entries with a property changes when one entry is taken out of a list without
repetitions, or when one entry gets or loses the property.
-/

namespace List

variable {α : Type*} [DecidableEq α] {l : List α} {p q : α → Bool} {a : α}

theorem countP_eq_countP_erase_add (ha : a ∈ l) :
    l.countP p = (l.erase a).countP p + if p a then 1 else 0 :=
  ((perm_cons_erase ha).countP_eq p).trans countP_cons

/-- Only one entry counts differently. -/
theorem countP_change (hl : l.Nodup) (ha : a ∈ l) (h : ∀ x ∈ l, x ≠ a → q x = p x) :
    l.countP q + (if p a then 1 else 0) = l.countP p + if q a then 1 else 0 := by
  have hrest : (l.erase a).countP q = (l.erase a).countP p := by
    refine countP_congr fun x hx => ?_
    obtain ⟨hne, hmem⟩ := hl.mem_erase_iff.mp hx
    rw [h x hmem hne]
  rw [countP_eq_countP_erase_add ha (p := q), countP_eq_countP_erase_add ha (p := p), hrest]
  exact Nat.add_right_comm _ _ _

end List
