import Mtrace.Chunks
import Mtrace.RedBlack
import Mtrace.Rb.Node

/-!
# A tree as the nodes of a memory

What the memory holds for a tree whose entries are the addresses of its nodes, and what the accesses
of the source do to it.  A step of the source is followed at the hole of a path: the cells of the
path, those of the tree in the hole, and what is around them.

1. The word of a node: a parent and a colour.
2. `RbRoot.cells` and `RbPath.cells`; a `Side` for the two mirror images of a node and of a hole.
3. `Mem.Has`: the nodes of a collection and the root; one rule for each access.
4. `Mem.rotate`.
5. `store`: every tree of distinct nodes can stand in memory.
-/

namespace Mtrace.Rb

open RbTree
open RbTree.RbRoot (nil node)

/-! ## The word of a node -/

/-- The address of a node. -/
structure Valid (a : Ptr) : Prop where
  ne : a ≠ 0
  aligned : a &&& 3 = 0

/-- The colour in the lowest bit. -/
def bit : Color → UInt64
  | .red => 0
  | .black => 1

/-- The word of a node with a parent and a colour. -/
def word (up : Ptr) (c : Color) : UInt64 := up ||| bit c

section Word

variable {up up' : Ptr} {c c' : Color}

theorem or_and_distrib (a b c : UInt64) : (a ||| b) &&& c = a &&& c ||| b &&& c := by
  rw [← UInt64.toBitVec_inj]
  exact BitVec.and_or_distrib_right

theorem and_not_three (h : up &&& 3 = 0) : up &&& ~~~3 = up := by
  have hsplit := or_and_distrib 3 (~~~3) up
  have hall : (3 : UInt64) ||| ~~~3 = -1 := by decide
  rw [hall, UInt64.neg_one_and, UInt64.and_comm 3, h, UInt64.zero_or] at hsplit
  rw [UInt64.and_comm]
  exact hsplit.symm

theorem and_one (h : up &&& 3 = 0) : up &&& 1 = 0 := by
  have hone : (1 : UInt64) = 3 &&& 1 := by decide
  rw [hone, ← UInt64.and_assoc, h, UInt64.zero_and]

theorem and_not_one (h : up &&& 3 = 0) : up &&& ~~~1 = up := by
  have hone : ~~~3 &&& ~~~1 = ~~~(3 : UInt64) := by decide
  rw [← and_not_three h, UInt64.and_assoc, hone]

theorem word_parent (h : up &&& 3 = 0) : word up c &&& ~~~3 = up := by
  have hbit : bit c &&& ~~~3 = 0 := by cases c <;> decide
  rw [word, or_and_distrib, and_not_three h, hbit, UInt64.or_zero]

theorem word_color (h : up &&& 3 = 0) : word up c &&& 1 = bit c := by
  have hbit : bit c &&& 1 = bit c := by cases c <;> decide
  rw [word, or_and_distrib, and_one h, hbit, UInt64.zero_or]

theorem word_and_not_one (h : up &&& 3 = 0) : word up c &&& ~~~1 = up := by
  have hbit : bit c &&& ~~~1 = 0 := by cases c <;> decide
  rw [word, or_and_distrib, and_not_one h, hbit, UInt64.or_zero]

theorem word_red (h : up &&& 3 = 0) : word up c &&& ~~~1 = word up .red := by
  rw [word_and_not_one h]
  exact UInt64.or_zero.symm

theorem word_black : word up c ||| 1 = word up .black := by
  have hbit : bit c ||| 1 = 1 := by cases c <;> decide
  rw [word, UInt64.or_assoc, hbit]
  exact rfl

theorem word_recolor (h : up &&& 3 = 0) : word up c &&& ~~~1 ||| bit c' = word up c' := by
  rw [word_and_not_one h]
  exact rfl

theorem word_reparent (h : up &&& 3 = 0) : word up c &&& 3 ||| up' = word up' c := by
  have hbit : bit c &&& 3 = bit c := by cases c <;> decide
  rw [word, or_and_distrib, h, hbit, UInt64.zero_or, UInt64.or_comm]
  exact rfl

end Word

/-! ## Both sides -/

/-- A node whose children are given from the side `s` on. -/
def cell (s : Side) (w : UInt64) (near far : Ptr) : RbNode :=
  match s with
  | .left => ⟨w, far, near⟩
  | .right => ⟨w, near, far⟩

/-- A node of a tree whose subtrees are given from the side `s` on. -/
def build (s : Side) (c : Color) (near : RbRoot Ptr) (a : Ptr) (far : RbRoot Ptr) : RbRoot Ptr :=
  match s with
  | .left => node c near a far
  | .right => node c far a near

/-- A hole on the side `s` of a node. -/
def hole (s : Side) (c : Color) (up : RbPath Ptr) (a : Ptr) (far : RbRoot Ptr) : RbPath Ptr :=
  match s with
  | .left => .left c up a far
  | .right => .right c far a up

section Sides

variable {s : Side} {w : UInt64} {near far p : Ptr} {c : Color} {x y t : RbRoot Ptr} {a : Ptr}
  {up : RbPath Ptr}

@[simp] theorem flip_flip (s : Side) : s.flip.flip = s := by cases s <;> rfl

theorem cell_flip : cell s.flip w near far = cell s w far near := by cases s <;> rfl

theorem build_flip : build s.flip c x a y = build s c y a x := by cases s <;> rfl

@[simp] theorem child_cell : (cell s w near far).child s = near := by cases s <;> rfl

@[simp] theorem child_cell_flip : (cell s w near far).child s.flip = far := by cases s <;> rfl

@[simp] theorem setChild_cell : (cell s w near far).setChild p s = cell s w p far := by
  cases s <;> rfl

@[simp] theorem setChild_cell_flip :
    (cell s w near far).setChild p s.flip = cell s w near p := by
  cases s <;> rfl

@[simp] theorem rbParentColor_cell : (cell s w near far).rbParentColor = w := by cases s <;> rfl

theorem fill_hole : (hole s c up a y).fill t = up.fill (build s c t a y) := by cases s <;> rfl

theorem exists_build (s : Side) (h : t ≠ nil) : ∃ c x a y, t = build s c x a y := by
  cases t with
  | nil => exact absurd rfl h
  | node c l a r =>
    cases s with
    | left => exact ⟨c, l, a, r, rfl⟩
    | right => exact ⟨c, r, a, l, rfl⟩

@[simp] theorem isRed_build : (build s c x a y).isRed = decide (c = .red) := by
  cases s <;> cases c <;> rfl

@[simp] theorem setBlack_build : (build s c x a y).setBlack = build s .black x a y := by
  cases s <;> rfl

@[simp] theorem setRed_build : (build s c x a y).setRed = build s .red x a y := by
  cases s <;> rfl

theorem hole_ne_root : hole s c up a y ≠ .root := by
  cases s <;> (intro heq; cases heq)

theorem build_ne_nil : build s c x a y ≠ nil := by
  cases s <;> (intro heq; cases heq)

theorem exists_hole {p : RbPath Ptr} (h : p ≠ .root) : ∃ s c up a y, p = hole s c up a y := by
  cases p with
  | root => exact absurd rfl h
  | left c up a r => exact ⟨.left, c, up, a, r, rfl⟩
  | right c l a up => exact ⟨.right, c, up, a, l, rfl⟩

end Sides

/-! ## The cells of a tree -/

/-- The pointer to a tree. -/
def ptr : RbRoot Ptr → Ptr
  | nil => 0
  | node _ _ a _ => a

/-- The parent of what stands in the hole. -/
def parentPtr : RbPath Ptr → Ptr
  | .root => 0
  | .left _ _ a _ | .right _ _ a _ => a

/-- The root of the tree when the hole points to `x`. -/
def topPtr : RbPath Ptr → Ptr → Ptr
  | .root, x => x
  | .left _ up a _, _ | .right _ _ a up, _ => topPtr up a

abbrev Cells := Multiset (Ptr × RbNode)

/-- The nodes of a tree whose root has the parent `up`. -/
def cells : RbRoot Ptr → Ptr → Cells
  | nil, _ => 0
  | node c l a r, up => {(a, ⟨word up c, ptr r, ptr l⟩)} + (cells l a + cells r a)

/-- The nodes of a tree with a hole that points to `x`. -/
def pathCells : RbPath Ptr → Ptr → Cells
  | .root, _ => 0
  | .left c up a r, x =>
    {(a, ⟨word (parentPtr up) c, ptr r, x⟩)} + (cells r a + pathCells up a)
  | .right c l a up, x =>
    {(a, ⟨word (parentPtr up) c, x, ptr l⟩)} + (cells l a + pathCells up a)

section Cells

variable {s : Side} {c : Color} {x y t t' : RbRoot Ptr} {a b up z : Ptr} {p : RbPath Ptr}

@[simp] theorem ptr_build : ptr (build s c x a y) = a := by cases s <;> rfl

@[simp] theorem ptr_setBlack (t : RbRoot Ptr) : ptr t.setBlack = ptr t := by cases t <;> rfl

@[simp] theorem parentPtr_hole : parentPtr (hole s c p a y) = a := by cases s <;> rfl

@[simp] theorem topPtr_hole : topPtr (hole s c p a y) b = topPtr p a := by cases s <;> rfl

theorem cells_build : cells (build s c x a y) up =
    {(a, cell s (word up c) (ptr x) (ptr y))} + (cells x a + cells y a) := by
  cases s with
  | left => exact rfl
  | right => exact congrArg _ (add_comm _ _)

theorem pathCells_hole : pathCells (hole s c p a y) z =
    {(a, cell s (word (parentPtr p) c) z (ptr y))} + (cells y a + pathCells p a) := by
  cases s <;> exact rfl

theorem cells_fill (p : RbPath Ptr) (t : RbRoot Ptr) :
    cells (p.fill t) 0 = pathCells p (ptr t) + cells t (parentPtr p) := by
  induction p generalizing t with
  | root => exact (zero_add _).symm
  | left c up a r ih =>
    show cells (up.fill (node c t a r)) 0 = _
    rw [ih]
    simp only [cells, pathCells, parentPtr, ptr]
    abel
  | right c l a up ih =>
    show cells (up.fill (node c l a t)) 0 = _
    rw [ih]
    simp only [cells, pathCells, parentPtr, ptr]
    abel

theorem ptr_fill (p : RbPath Ptr) (t : RbRoot Ptr) : ptr (p.fill t) = topPtr p (ptr t) := by
  induction p generalizing t with
  | root => exact rfl
  | left c up a r ih => exact ih _
  | right c l a up ih => exact ih _

/-- The addresses of the cells are the entries of the tree. -/
theorem keys_cells (t : RbRoot Ptr) (up : Ptr) :
    (cells t up).map Prod.fst = (t.toList : Multiset Ptr) := by
  induction t generalizing up with
  | nil => exact rfl
  | node c l a r ihl ihr =>
    rw [cells, Multiset.map_add, Multiset.map_add, Multiset.map_singleton, ihl, ihr, toList_node,
      ← Multiset.coe_add, ← Multiset.cons_coe, ← Multiset.singleton_add]
    abel

theorem mem_keys_cells : b ∈ (cells t up).map Prod.fst ↔ b ∈ t.toList := by
  rw [keys_cells]
  exact Iff.rfl

theorem ptr_mem_keys (ht : t ≠ nil) : ptr t ∈ (cells t up).map Prod.fst := by
  obtain ⟨c, x, a, y, rfl⟩ := exists_build .left ht
  rw [cells_build, ptr_build, Multiset.map_add, Multiset.mem_add, Multiset.map_singleton]
  exact .inl (Multiset.mem_singleton_self a)

end Cells

/-! ## The fields of a cell -/

section Fields

variable {s : Side} {c c' : Color} {near far up up' : Ptr}

theorem rbParent_cell (h : up &&& 3 = 0) : (cell s (word up c) near far).rbParent = up := by
  unfold RbNode.rbParent
  rw [rbParentColor_cell, word_parent h]

theorem rbColor_cell (h : up &&& 3 = 0) : (cell s (word up c) near far).rbColor = bit c := by
  unfold RbNode.rbColor
  rw [rbParentColor_cell, word_color h]

theorem rbIsRed_cell (h : up &&& 3 = 0) :
    (cell s (word up c) near far).rbIsRed = decide (c = .red) := by
  unfold RbNode.rbIsRed
  rw [rbColor_cell h]
  cases c <;> decide

theorem rbIsBlack_cell (h : up &&& 3 = 0) :
    (cell s (word up c) near far).rbIsBlack = decide (c = .black) := by
  unfold RbNode.rbIsBlack
  rw [rbColor_cell h]
  cases c <;> decide

theorem rbSetBlack_cell :
    (cell s (word up c) near far).rbSetBlack = cell s (word up .black) near far := by
  cases s <;> simp only [RbNode.rbSetBlack, cell, word_black]

theorem rbSetRed_cell (h : up &&& 3 = 0) :
    (cell s (word up c) near far).rbSetRed = cell s (word up .red) near far := by
  cases s <;> simp only [RbNode.rbSetRed, cell, word_red h]

theorem rbSetParent_cell (h : up &&& 3 = 0) :
    (cell s (word up c) near far).rbSetParent up' = cell s (word up' c) near far := by
  cases s <;> simp only [RbNode.rbSetParent, cell, word_reparent h]

theorem rbSetColor_cell (h : up &&& 3 = 0) :
    (cell s (word up c) near far).rbSetColor (bit c') = cell s (word up c') near far := by
  cases s <;> simp only [RbNode.rbSetColor, cell, word_recolor h]

end Fields

/-! ## A memory with these nodes -/

/-- The memory holds the nodes `s`, all at addresses of nodes, and the root is `r`. -/
structure Mem.Has (base : Ptr → Option RbNode) (s : Cells) (r : Ptr) (m : Mem) : Prop where
  holds : Chunks.Holds base s m.node
  root : m.root = r
  valid : ∀ a ∈ s.map Prod.fst, Valid a

/-- The memory holds a tree; it is like `base` elsewhere. -/
abbrev Mem.Rep (base : Ptr → Option RbNode) (t : RbRoot Ptr) (m : Mem) : Prop :=
  m.Has base (cells t 0) (ptr t)

namespace Mem.Has

variable {base : Ptr → Option RbNode} {S T : Cells} {r a b up up' x y : Ptr} {m : Mem} {n : RbNode}
  {s s' : Side} {c c' : Color} {near far : Ptr} {p : RbPath Ptr} {t : RbRoot Ptr}

theorem congr (h : m.Has base S r) (heq : S = T) : m.Has base T r := heq ▸ h

theorem get (h : m.Has base ({(a, n)} + S) r) : m.node a = some n := h.holds.read

theorem valid_left (h : m.Has base (S + T) r) (ha : a ∈ S.map Prod.fst) : Valid a :=
  h.valid a (by rw [Multiset.map_add]; exact Multiset.mem_add.mpr (.inl ha))

theorem valid_right (h : m.Has base (S + T) r) (ha : a ∈ T.map Prod.fst) : Valid a :=
  h.valid a (by rw [Multiset.map_add]; exact Multiset.mem_add.mpr (.inr ha))

theorem valid_cell (h : m.Has base ({(a, n)} + S) r) : Valid a :=
  h.valid_left (Multiset.mem_singleton_self a)

theorem ne_of_mem (h : m.Has base (S + T) r) (ha : a ∈ S.map Prod.fst) (hb : b ∈ T.map Prod.fst) :
    a ≠ b := by
  have hnodup := h.holds.nodup
  rw [Multiset.map_add] at hnodup
  exact Multiset.disjoint_left.mp (Multiset.nodup_add.mp hnodup).2.2 ha |>.imp (· ▸ hb)

/-- The parent of what stands in a hole is a node, or none. -/
theorem parent_aligned (h : m.Has base (pathCells p x + S) r) : parentPtr p &&& 3 = 0 := by
  by_cases hp : p = .root
  · subst hp
    exact rfl
  · obtain ⟨s, c, up, a, far, rfl⟩ := exists_hole hp
    rw [pathCells_hole, add_assoc] at h
    rw [parentPtr_hole]
    exact h.valid_cell.aligned

/-! ### Accesses -/

theorem modify (h : m.Has base ({(a, n)} + S) r) (f : RbNode → RbNode) :
    ∃ m', m.modify a f = some m' ∧ m'.Has base ({(a, f n)} + S) r := by
  refine ⟨⟨Function.update m.node a (some (f n)), m.root⟩, ?_, h.holds.write (f n), h.root, ?_⟩
  · unfold Mem.modify
    rw [h.get]
    exact rfl
  · rw [Chunks.keys_singleton_add, ← Chunks.keys_singleton_add (n := n)]
    exact h.valid

theorem setBlack (h : m.Has base ({(a, cell s (word up c) near far)} + S) r) :
    ∃ m', m.setBlack a = some m' ∧
      m'.Has base ({(a, cell s (word up .black) near far)} + S) r := by
  rw [← rbSetBlack_cell (c := c)]
  exact h.modify _

theorem setRed (h : m.Has base ({(a, cell s (word up c) near far)} + S) r) (hup : up &&& 3 = 0) :
    ∃ m', m.setRed a = some m' ∧ m'.Has base ({(a, cell s (word up .red) near far)} + S) r := by
  rw [← rbSetRed_cell (c := c) hup]
  exact h.modify _

theorem setParent (h : m.Has base ({(a, cell s (word up c) near far)} + S) r)
    (hup : up &&& 3 = 0) (up' : Ptr) :
    ∃ m', m.setParent a up' = some m' ∧
      m'.Has base ({(a, cell s (word up' c) near far)} + S) r := by
  rw [← rbSetParent_cell (c := c) hup]
  exact h.modify _

theorem setColor (h : m.Has base ({(a, cell s (word up c) near far)} + S) r)
    (hup : up &&& 3 = 0) (c' : Color) :
    ∃ m', m.setColor a (bit c') = some m' ∧
      m'.Has base ({(a, cell s (word up c') near far)} + S) r := by
  rw [← rbSetColor_cell (c := c) hup]
  exact h.modify _

theorem setChild (h : m.Has base ({(a, cell s (word up c) near far)} + S) r) (x : Ptr) :
    ∃ m', m.setChild a x s = some m' ∧ m'.Has base ({(a, cell s (word up c) x far)} + S) r := by
  have hcell : (cell s (word up c) near far).setChild x s = _ := setChild_cell
  rw [← hcell]
  exact h.modify _

theorem setChild_flip (h : m.Has base ({(a, cell s (word up c) near far)} + S) r) (x : Ptr) :
    ∃ m', m.setChild a x s.flip = some m' ∧
      m'.Has base ({(a, cell s (word up c) near x)} + S) r := by
  have hcell : (cell s (word up c) near far).setChild x s.flip = _ := setChild_cell_flip
  rw [← hcell]
  exact h.modify _

theorem isRed (h : m.Has base (cells t up + S) r) (hup : up &&& 3 = 0) :
    m.isRed (ptr t) = some t.isRed := by
  unfold Mem.isRed
  by_cases ht : t = nil
  · subst ht
    exact rfl
  · obtain ⟨c, x, a, y, rfl⟩ := exists_build .left ht
    rw [cells_build, add_assoc] at h
    rw [ptr_build, if_neg h.valid_cell.ne, h.get, Option.map_some, rbIsRed_cell hup, isRed_build]

theorem isBlack (h : m.Has base (cells t up + S) r) (hup : up &&& 3 = 0) :
    m.isBlack (ptr t) = some !t.isRed := by
  unfold Mem.isBlack
  by_cases ht : t = nil
  · subst ht
    exact rfl
  · obtain ⟨c, x, a, y, rfl⟩ := exists_build .left ht
    rw [cells_build, add_assoc] at h
    rw [ptr_build, if_neg h.valid_cell.ne, h.get, Option.map_some, rbIsBlack_cell hup, isRed_build]
    cases c <;> rfl

theorem reparent (h : m.Has base (cells t up + S) r) (hup : up &&& 3 = 0) (up' : Ptr) :
    ∃ m', m.reparent (ptr t) up' = some m' ∧ m'.Has base (cells t up' + S) r := by
  unfold Mem.reparent
  by_cases ht : t = nil
  · subst ht
    exact ⟨m, rfl, h⟩
  · obtain ⟨c, x, a, y, rfl⟩ := exists_build .left ht
    rw [cells_build, add_assoc] at h ⊢
    rw [ptr_build, if_neg h.valid_cell.ne]
    exact h.setParent hup up'

/-- What is elsewhere in the memory is not the subtree. -/
theorem ptr_ne (h : m.Has base (cells t up + S) r) (hx : x ∈ S.map Prod.fst) : ptr t ≠ x := by
  by_cases ht : t = nil
  · subst ht
    exact (h.valid_right hx).ne.symm
  · exact h.ne_of_mem (ptr_mem_keys ht) hx

theorem replace (h : m.Has base (pathCells p x + S) (topPtr p x)) (hx : x ∈ S.map Prod.fst)
    (y : Ptr) (s : Side) :
    ∃ m', m.replace (parentPtr p) x y s = some m' ∧ m'.Has base (pathCells p y + S)
    (topPtr p y) := by
  unfold Mem.replace
  by_cases hp : p = .root
  · subst hp
    exact ⟨{ m with root := y }, rfl, h.holds, rfl, h.valid⟩
  · obtain ⟨s', c, up, a, far, rfl⟩ := exists_hole hp
    rw [pathCells_hole, add_assoc] at h ⊢
    rw [topPtr_hole] at h ⊢
    rw [parentPtr_hole, if_neg h.valid_cell.ne, h.get, Option.bind_eq_bind, Option.bind_some]
    by_cases hs : s' = s
    · subst hs
      rw [child_cell, if_pos rfl]
      exact h.setChild y
    · obtain rfl : s' = s.flip := by cases s <;> cases s' <;> simp_all [Side.flip]
      have hfar : ptr far ≠ x := by
        have hrest : m.Has base (cells far a + ({(a, _)} + (pathCells up a + S))) (topPtr up a) :=
          h.congr (by abel)
        refine hrest.ptr_ne ?_
        rw [Multiset.map_add, Multiset.map_add, Multiset.mem_add, Multiset.mem_add]
        exact .inr (.inr hx)
      have hchild : (cell s.flip (word (parentPtr up) c) x (ptr far)).child s = ptr far := by
        rw [cell_flip, child_cell]
      rw [hchild, if_neg hfar]
      exact h.setChild y

/-! ### Trees -/

theorem rep_fill : m.Rep base (p.fill t) ↔
    m.Has base (pathCells p (ptr t) + cells t (parentPtr p)) (topPtr p (ptr t)) := by
  rw [Rep, cells_fill, ptr_fill]

/-- A rotation: the child on the other side comes above the node. -/
theorem rotate {x y z : RbRoot Ptr} (h : m.Rep base (p.fill (build s c x a (build s c' y b z)))) :
    ∃ m', m.rotate a s = some m' ∧
      m'.Rep base (p.fill (build s c' (build s c x a y) b z)) := by
  rw [rep_fill, cells_build, cells_build, ptr_build, ptr_build] at h
  rw [show (∃ m', _ ∧ _) ↔ _ from exists_congr fun m' => and_congr_right fun _ => rep_fill,
    cells_build, cells_build, ptr_build, ptr_build]
  have hup := h.parent_aligned
  have ha : m.Has base ({(a, cell s (word (parentPtr p) c) (ptr x) b)} +
      ({(b, cell s (word a c') (ptr y) (ptr z))} +
        (cells y b + (cells x a + cells z b + pathCells p a)))) (topPtr p a) := h.congr (by abel)
  have hb := ha.congr (add_left_comm _ _ _)
  have haa := ha.valid_cell.aligned
  have hba := hb.valid_cell.aligned
  unfold Mem.rotate
  simp only [Option.bind_eq_bind, ha.get, hb.get, Option.bind_some, child_cell, child_cell_flip,
    rbParent_cell hup]
  obtain ⟨m1, hm1, h1⟩ := ha.setChild_flip (ptr y)
  have h1' : m1.Has base (cells y b + ({(a, cell s (word (parentPtr p) c) (ptr x) (ptr y))} +
      ({(b, cell s (word a c') (ptr y) (ptr z))} + (cells x a + cells z b + pathCells p a))))
      (topPtr p a) := h1.congr (by abel)
  obtain ⟨m2, hm2, h2⟩ := h1'.reparent hba a
  have h2' : m2.Has base ({(b, cell s (word a c') (ptr y) (ptr z))} +
      ({(a, cell s (word (parentPtr p) c) (ptr x) (ptr y))} +
        (cells y a + (cells x a + cells z b + pathCells p a)))) (topPtr p a) := h2.congr (by abel)
  obtain ⟨m3, hm3, h3⟩ := h2'.setChild a
  obtain ⟨m4, hm4, h4⟩ := h3.setParent haa (parentPtr p)
  have h4' : m4.Has base (pathCells p a + ({(a, cell s (word (parentPtr p) c) (ptr x) (ptr y))} +
      ({(b, cell s (word (parentPtr p) c') a (ptr z))} +
        (cells y a + (cells x a + cells z b))))) (topPtr p a) := h4.congr (by abel)
  obtain ⟨m5, hm5, h5⟩ := h4'.replace (by simp) b s
  have h5' : m5.Has base ({(a, cell s (word (parentPtr p) c) (ptr x) (ptr y))} +
      (pathCells p b + ({(b, cell s (word (parentPtr p) c') a (ptr z))} +
        (cells y a + (cells x a + cells z b))))) (topPtr p b) := h5.congr (by abel)
  obtain ⟨m6, hm6, h6⟩ := h5'.setParent hup b
  refine ⟨m6, ?_, h6.congr (by abel)⟩
  rw [hm1, Option.bind_some, hm2, Option.bind_some, hm3, Option.bind_some, hm4, Option.bind_some,
    hm5, Option.bind_some, hm6]

end Mem.Has

/-! ## Trees that stand in memory -/

/-- The nodes of a tree written to memory. -/
def store : RbRoot Ptr → Ptr → (Ptr → Option RbNode) → Ptr → Option RbNode
  | nil, _, m => m
  | .node c l a r, up, m =>
    Function.update (store l a (store r a m)) a (some ⟨word up c, ptr r, ptr l⟩)

section Store

variable {base : Ptr → Option RbNode} {t : RbRoot Ptr} {a up : Ptr} {n : RbNode}

theorem store_of_notMem (ha : a ∉ t.toList) : store t up base a = base a := by
  induction t generalizing up base with
  | nil => exact rfl
  | node c l b r ihl ihr =>
    rw [toList_node, List.mem_append, List.mem_cons, not_or, not_or] at ha
    rw [store, Function.update_of_ne ha.2.1, ihl ha.1, ihr ha.2.2]

theorem store_of_mem (ht : t.toList.Nodup) (ha : (a, n) ∈ cells t up) :
    store t up base a = some n := by
  induction t generalizing up base with
  | nil => exact absurd ha (Multiset.notMem_zero _)
  | node c l b r ihl ihr =>
    rw [toList_node, List.nodup_middle, List.nodup_cons, List.mem_append, not_or,
      List.nodup_append] at ht
    obtain ⟨⟨hbl, hbr⟩, hl, hr, hlr⟩ := ht
    rw [cells, Multiset.mem_add, Multiset.mem_add, Multiset.mem_singleton] at ha
    rw [store]
    rcases ha with ha | ha | ha
    · cases ha
      exact Function.update_self ..
    · have hin := mem_keys_cells.mp (Multiset.mem_map_of_mem Prod.fst ha)
      rw [Function.update_of_ne (fun heq : a = b => hbl (heq ▸ hin))]
      exact ihl hl ha
    · have hin := mem_keys_cells.mp (Multiset.mem_map_of_mem Prod.fst ha)
      rw [Function.update_of_ne (fun heq : a = b => hbr (heq ▸ hin)),
        store_of_notMem fun hal => hlr a hal a hin rfl]
      exact ihr hr ha

/-- Every tree of distinct nodes can stand in memory. -/
theorem rep_store (ht : t.toList.Nodup) (hvalid : ∀ a ∈ t.toList, Valid a) :
    (⟨store t 0 base, ptr t⟩ : Mem).Rep base t where
  holds := {
    nodup := by
      rw [keys_cells, Multiset.coe_nodup]
      exact ht
    cell := store_of_mem ht
    frame := fun ha => store_of_notMem fun hin => ha (mem_keys_cells.mpr hin) }
  root := rfl
  valid a ha := hvalid a (mem_keys_cells.mp ha)

end Store

instance (a : Ptr) : Decidable (Valid a) :=
  decidable_of_iff (a ≠ 0 ∧ a &&& 3 = 0) ⟨fun h => ⟨h.1, h.2⟩, fun h => ⟨h.ne, h.aligned⟩⟩

end Mtrace.Rb
