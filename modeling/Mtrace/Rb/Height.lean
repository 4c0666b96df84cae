import Mathlib.Data.Nat.Log
import Mtrace.Rb.Insert

/-!
# How far the way down is

A tree that follows the rule is at most twice as high as the binary logarithm of its size: no red
node has a red child, and there are as many black nodes on every way down.
-/

namespace RbTree

universe u

variable {α : Type u}

open RbRoot (nil node)

/-- The number of levels of a tree. -/
def RbRoot.height : RbRoot α → ℕ
  | nil => 0
  | node _ l _ r => max l.height r.height + 1

section Rule

variable {t : RbRoot α} {c : Color} {n : ℕ}

/-- A red node adds a level and no black node. -/
theorem RbRoot.Balanced.height_le (h : t.Balanced c n) :
    t.height ≤ 2 * n + if c = .red then 1 else 0 := by
  induction h with
  | nil => exact le_rfl
  | red _ _ ihl ihr =>
    rw [if_neg (by decide)] at ihl ihr
    rw [if_pos rfl, RbRoot.height]
    omega
  | @black l r v n c c' _ _ ihl ihr =>
    have hl : l.height ≤ 2 * n + 1 := ihl.trans (by split <;> omega)
    have hr : r.height ≤ 2 * n + 1 := ihr.trans (by split <;> omega)
    rw [if_neg (by decide), RbRoot.height]
    omega

theorem RbRoot.Balanced.pow_le (h : t.Balanced c n) :
    2 ^ (n + if c = .red then 1 else 0) ≤ t.size + 1 := by
  induction h with
  | nil => exact le_rfl
  | red _ _ ihl ihr =>
    rw [if_neg (by decide), Nat.add_zero] at ihl ihr
    rw [if_pos rfl, RbRoot.size, pow_succ]
    omega
  | @black l r v n c c' _ _ ihl ihr =>
    have hl : 2 ^ n ≤ l.size + 1 :=
      (Nat.pow_le_pow_right Nat.two_pos (Nat.le_add_right _ _)).trans ihl
    have hr : 2 ^ n ≤ r.size + 1 :=
      (Nat.pow_le_pow_right Nat.two_pos (Nat.le_add_right _ _)).trans ihr
    rw [if_neg (by decide), RbRoot.size, Nat.add_zero, pow_succ]
    omega

/-- The height of a tree that follows the rule. -/
theorem RbRoot.RedBlack.height_le (h : t.RedBlack) : t.height ≤ 2 * Nat.log 2 (t.size + 1) := by
  obtain ⟨c, n, h⟩ := h
  have hblack := Nat.le_log_of_pow_le Nat.one_lt_two h.pow_le
  have hheight := h.height_le
  split at hheight <;> split at hblack <;> omega

end Rule

end RbTree

namespace Mtrace.Rb

open RbTree
open RbTree.RbRoot (nil)

/-- A hole is not below the last level. -/
theorem depth_add_height (p : RbPath Ptr) (t : RbRoot Ptr) :
    depth p + t.height ≤ (p.fill t).height := by
  induction p generalizing t with
  | root => exact (Nat.zero_add _).le
  | left c up a r ih =>
    have hup := ih (.node c t a r)
    rw [RbRoot.height] at hup
    rw [depth, RbPath.fill]
    omega
  | right c l a up ih =>
    have hup := ih (.node c l a t)
    rw [RbRoot.height] at hup
    rw [depth, RbPath.fill]
    omega

end Mtrace.Rb
