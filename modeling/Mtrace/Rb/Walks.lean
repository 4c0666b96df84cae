import Mtrace.Rb.Height

/-!
# Walks in memory

The loops over a tree that only follow its pointers: the order of `rb_first` and `rb_next`, that of
`rb_last` and `rb_prev`, and the order from the leaves up, in which the entries may be freed on the
way.

1. `order` and `rest`: the entries of a tree and those behind a hole, from a side on.
2. `Mem.rbStep`: the next entry, from the nodes on the way.
3. `Mem.reap`: the loop that frees what it comes to.
-/

namespace Mtrace.Rb

open RbTree
open RbTree.RbRoot (nil)

/-- The entries of a tree, from the side `o` on. -/
def order (o : Side) (t : RbRoot Ptr) : List Ptr :=
  match o with
  | .left => t.toList
  | .right => t.toList.reverse

/-- The entries behind a hole, for one who comes from the side `o`. -/
def rest (o : Side) (p : RbPath Ptr) : List Ptr :=
  match o with
  | .left => p.after
  | .right => p.before.reverse

/-- `for (node = rb_first(root); node; node = rb_next(node))` from `node` on, and its mirror
image. -/
def Mem.walk (fuel : ℕ) (o : Side) : ℕ → Mem → Ptr → Option (List Ptr)
  | 0, _, _ => none
  | k + 1, m, node =>
    if node = 0 then some []
    else do
      let next ← m.rbStep fuel node o.flip
      (Mem.walk fuel o k m next).map (node :: ·)

section Order

variable {o : Side} {c : Color} {p : RbPath Ptr} {a : Ptr} {x y t : RbRoot Ptr}

@[simp] theorem order_nil : order o nil = [] := by cases o <;> rfl

@[simp] theorem rest_root : rest o .root = [] := by cases o <;> rfl

@[simp] theorem order_build : order o (build o c x a y) = order o x ++ a :: order o y := by
  cases o with
  | left => exact rfl
  | right => simp [order, build]

@[simp] theorem rest_hole : rest o (hole o c p a y) = a :: order o y ++ rest o p := by
  cases o with
  | left => exact rfl
  | right => simp [rest, order, hole, RbPath.before]

@[simp] theorem rest_hole_flip : rest o (hole o.flip c p a y) = rest o p := by
  cases o <;> exact rfl

theorem order_ne_nil (ht : t ≠ nil) : order o t ≠ [] := by
  obtain ⟨c, x, a, y, rfl⟩ := exists_build o ht
  simp

/-- Induction on a tree whose nodes are given from the side `o` on. -/
theorem build_induction (o : Side) {motive : RbRoot Ptr → Prop} (hnil : motive nil)
    (hbuild : ∀ c x a y, motive x → motive y → motive (build o c x a y)) (t : RbRoot Ptr) :
    motive t := by
  induction t with
  | nil => exact hnil
  | node c l a r ihl ihr =>
    cases o with
    | left => exact hbuild c l a r ihl ihr
    | right => exact hbuild c r a l ihr ihl

/-- Every entry stands at a place of the tree. -/
theorem exists_place (t : RbRoot Ptr) (p : RbPath Ptr) {xs ys : List Ptr}
    (h : order o t = xs ++ a :: ys) :
    ∃ q c x y, p.fill t = q.fill (build o c x a y) ∧ order o y ++ rest o q = ys ++ rest o p := by
  induction t using build_induction o generalizing p xs ys with
  | hnil => simp at h
  | hbuild c x b y ihx ihy =>
    rw [order_build] at h
    rcases List.append_eq_append_iff.mp h with ⟨zs, hxs, hys⟩ | ⟨zs, hx, hys⟩
    · cases zs with
      | nil =>
        obtain ⟨rfl, rfl⟩ := List.cons.inj hys
        exact ⟨p, c, x, y, rfl, rfl⟩
      | cons z zs =>
        obtain ⟨rfl, hy⟩ := List.cons.inj hys
        obtain ⟨q, c', x', y', hfill, hrest⟩ := ihy (hole o.flip c p b x) hy
        rw [fill_hole, build_flip] at hfill
        exact ⟨q, c', x', y', hfill, by rw [hrest, rest_hole_flip]⟩
    · cases zs with
      | nil =>
        obtain ⟨rfl, rfl⟩ := List.cons.inj hys
        exact ⟨p, c, x, y, rfl, rfl⟩
      | cons z zs =>
        obtain ⟨rfl, rfl⟩ := List.cons.inj hys
        obtain ⟨q, c', x', y', hfill, hrest⟩ := ihx (hole o c p b y) hx
        rw [fill_hole] at hfill
        exact ⟨q, c', x', y', hfill, by rw [hrest, rest_hole]; simp⟩

end Order

/-! ## In order -/

namespace Mem.Has

variable {base : Ptr → Option RbNode} {a : Ptr} {m : Mem} {o : Side} {c : Color} {p : RbPath Ptr}
  {t x y : RbRoot Ptr} {fuel k : ℕ}

/-- A hole holds `NULL` or a node. -/
theorem ptr_eq_zero (h : m.Rep base (p.fill t)) : ptr t = 0 ↔ t = nil := by
  constructor
  · intro hptr
    by_contra ht
    exact ((rep_fill.mp h).valid_right (ptr_mem_keys ht)).ne hptr
  · rintro rfl
    exact rfl

theorem height_build : (build o c x a y).height = max x.height y.height + 1 := by
  cases o with
  | left => exact rfl
  | right => exact congrArg (· + 1) (max_comm _ _)

/-- The way down leads to the first entry. -/
theorem deepestAt (h : m.Rep base (p.fill t)) (ht : t ≠ nil) (hfuel : t.height ≤ fuel) :
    m.deepest fuel (ptr t) o = some ((order o t).headD 0) := by
  induction fuel generalizing p t with
  | zero =>
    obtain ⟨c, x, a, y, rfl⟩ := exists_build o ht
    rw [height_build] at hfuel
    exact absurd hfuel (Nat.not_succ_le_zero _)
  | succ fuel ih =>
    obtain ⟨c, x, a, y, rfl⟩ := exists_build o ht
    rw [height_build] at hfuel
    have ha := h.getHole.1
    rw [← fill_hole] at h
    have hx := h.ptr_eq_zero
    rw [Mem.deepest, ptr_build, ha, Option.bind_eq_bind, Option.bind_some, child_cell, order_build]
    by_cases hnil : x = nil
    · subst hnil
      rw [if_pos (hx.mpr rfl), order_nil, List.nil_append, List.headD_cons]
    · rw [if_neg (mt hx.mp hnil)]
      have hle : x.height ≤ fuel := by omega
      rw [ih h hnil hle]
      obtain ⟨b, l, hl⟩ := List.exists_cons_of_ne_nil (order_ne_nil (o := o) hnil)
      rw [hl]
      exact rfl

/-- The way up leads to the next entry. -/
theorem climbAt (h : m.Rep base (p.fill t)) (ht : t ≠ nil) (hfuel : depth p < fuel) :
    m.climb fuel (ptr t) o.flip = some ((rest o p).headD 0) := by
  induction fuel generalizing p t with
  | zero => exact absurd hfuel (Nat.not_lt_zero _)
  | succ fuel ih =>
    obtain ⟨c, x, a, y, rfl⟩ := exists_build o ht
    have ha := h.getHole
    rw [Mem.climb, ptr_build, ha.1, Option.bind_eq_bind, Option.bind_some, rbParent_cell ha.2.1]
    by_cases hp : p = .root
    · subst hp
      rw [rest_root]
      exact if_pos rfl
    obtain ⟨s, c', up, b, z, rfl⟩ := exists_hole hp
    rw [fill_hole] at h
    have hb := h.getHole
    rw [ptr_build] at hb
    rw [parentPtr_hole, if_neg hb.2.2.ne, hb.1, Option.bind_some]
    by_cases hs : s = o
    · subst hs
      rw [child_cell_flip, rest_hole]
      have hne : a ≠ ptr z := by
        by_cases hz : z = nil
        · subst hz
          exact ha.2.2.ne
        · have := h.ptr_ne_ptr hz
          rwa [ptr_build] at this
      rw [if_neg hne]
      exact rfl
    · obtain rfl : s = o.flip := by cases s <;> cases o <;> simp_all [Side.flip]
      rw [child_cell, if_pos rfl, rest_hole_flip]
      rw [depth_hole] at hfuel
      have hup := ih h build_ne_nil (Nat.lt_of_succ_lt_succ hfuel)
      rwa [ptr_build] at hup

/-- `rb_next` leads to the next entry, and `rb_prev` to the one before. -/
theorem stepAt (h : m.Rep base (p.fill (build o c x a y)))
    (hfuel : (p.fill (build o c x a y)).height < fuel) :
    m.rbStep fuel a o.flip = some ((order o y ++ rest o p).headD 0) := by
  have ha := h.getHole
  have hbound := depth_add_height p (build o c x a y)
  rw [height_build] at hbound
  have hself : parentPtr p ≠ a := by
    by_cases hp : p = .root
    · subst hp
      exact ha.2.2.ne.symm
    · obtain ⟨s, c', up, b, z, rfl⟩ := exists_hole hp
      have hcells := rep_fill.mp h
      refine hcells.ne_of_mem ?_ ?_
      · rw [parentPtr_hole, pathCells_hole, Chunks.keys_singleton_add]
        exact Multiset.mem_cons_self _ _
      · rw [cells_build, Chunks.keys_singleton_add]
        exact Multiset.mem_cons_self _ _
  unfold Mem.rbStep
  rw [ha.1, Option.bind_eq_bind, Option.bind_some, rbParent_cell ha.2.1, if_neg hself,
    child_cell_flip]
  have hy : m.Rep base ((hole o.flip c p a x).fill y) := by
    rw [fill_hole, build_flip]
    exact h
  by_cases hnil : y = nil
  · subst hnil
    rw [if_pos (hy.ptr_eq_zero.mpr rfl), order_nil, List.nil_append]
    have hup := h.climbAt (o := o) build_ne_nil
      (show depth p < fuel by omega)
    rwa [ptr_build] at hup
  · rw [if_neg (mt hy.ptr_eq_zero.mp hnil), flip_flip, hy.deepestAt hnil (by omega)]
    obtain ⟨b, l, hl⟩ := List.exists_cons_of_ne_nil (order_ne_nil (o := o) hnil)
    rw [hl]
    exact rfl

theorem walkFrom (h : m.Rep base t) (hfuel : t.height < fuel) {xs ys : List Ptr}
    (hys : order o t = xs ++ ys) (hk : ys.length < k) :
    m.walk fuel o k (ys.headD 0) = some ys := by
  induction ys generalizing xs k with
  | nil =>
    obtain ⟨k, rfl⟩ := Nat.exists_eq_add_of_lt hk
    exact if_pos rfl
  | cons a ys ih =>
    obtain ⟨q, c, x, y, hfill, hrest⟩ := exists_place t .root hys
    have hplace : m.Rep base (q.fill (build o c x a y)) := hfill ▸ h
    have hheight : (q.fill (build o c x a y)).height < fuel := by
      rw [← hfill]
      exact hfuel
    cases k with
    | zero => exact absurd hk (Nat.not_lt_zero _)
    | succ k =>
      rw [Mem.walk, List.headD_cons, if_neg hplace.getHole.2.2.ne, hplace.stepAt hheight, hrest,
        rest_root, List.append_nil, Option.bind_eq_bind, Option.bind_some,
        ih (show _ = (xs ++ [a]) ++ ys by rw [hys, List.append_assoc]; exact rfl)
          (Nat.lt_of_succ_lt_succ hk)]
      exact rfl

/-- The loop over a tree comes to its entries in their order. -/
theorem walk_eq_order (h : m.Rep base t) (hfuel : t.height < fuel) (hk : t.size < k) :
    (m.rbEnd fuel o).bind (m.walk fuel o k) = some (order o t) := by
  have hlen : (order o t).length < k := by
    cases o <;> simpa [order, length_toList] using hk
  have hfirst : m.rbEnd fuel o = some ((order o t).headD 0) := by
    unfold Mem.rbEnd
    rw [h.root]
    by_cases ht : t = nil
    · subst ht
      rw [order_nil]
      exact if_pos rfl
    · have hroot : m.Rep base (RbPath.root.fill t) := h
      rw [if_neg (mt hroot.ptr_eq_zero.mp ht)]
      exact hroot.deepestAt ht hfuel.le
  rw [hfirst, Option.bind_some]
  exact h.walkFrom hfuel (List.nil_append _).symm hlen

end Mem.Has

open Mem.Has in
theorem walk_three :
    let t : RbRoot Ptr := .node .black (.node .red nil 4 nil) 8 (.node .red nil 12 nil)
    let m : Mem := ⟨store t 0 fun _ => none, ptr t⟩
    (m.rbFirst 3).bind (m.walk 3 .left 4) = some [4, 8, 12] ∧
      (m.rbLast 3).bind (m.walk 3 .right 4) = some [12, 8, 4] :=
  ⟨walk_eq_order (o := .left) (rep_store (by decide) (by simp [RbRoot.toList]; decide))
      (by decide) (by decide),
    walk_eq_order (o := .right) (rep_store (by decide) (by simp [RbRoot.toList]; decide))
      (by decide) (by decide)⟩

end Mtrace.Rb
