import Mtrace.Rb.Shape

/-!
# Linking a node, in memory

`rb_link_node` and `rb_insert_color` follow the functions on trees: no access goes wrong, the loop
ends after at most one pass for each level, and no node outside of the tree is touched.
-/

namespace Mtrace.Rb

open RbTree
open RbTree.RbRoot (nil node)

/-! ## The passes, for both sides -/

section Sides

variable {s s' : Side} {c : Color} {g : RbPath Ptr} {gr r t : RbRoot Ptr} {v gv : Ptr}

theorem insertColor_uncle (hred : gr.isRed = true) :
    (hole s .red (hole s' c g gv gr) v r).insertColor t =
      g.insertColor (build s' .red (build s .black t v r) gv gr.setBlack) := by
  cases s <;> cases s' <;> exact if_pos hred

theorem insertColor_outer (hred : gr.isRed = false) :
    (hole s .red (hole s c g gv gr) v r).insertColor t =
      (g.fill (build s .black t v (build s .red r gv gr))).setBlack := by
  have hne : ¬ gr.isRed = true := by rw [hred]; decide
  cases s <;> exact if_neg hne

theorem insertColor_inner (hred : gr.isRed = false) {tl tr : RbRoot Ptr} {tv : Ptr} {tc : Color} :
    (hole s.flip .red (hole s c g gv gr) v r).insertColor (build s tc tl tv tr) =
      (g.fill (build s .black (build s .red r v tl) tv (build s .red tr gv gr))).setBlack := by
  have hne : ¬ gr.isRed = true := by rw [hred]; decide
  cases s <;> exact if_neg hne

theorem insertColor_black : (hole s .black g v r).insertColor t =
    ((hole s .black g v r).fill t).setBlack := by
  cases s <;> rfl

end Sides

/-- The number of levels above a hole. -/
def depth : RbPath Ptr → ℕ
  | .root => 0
  | .left _ up _ _ | .right _ _ _ up => depth up + 1

@[simp] theorem depth_hole {s : Side} {c : Color} {up : RbPath Ptr} {a : Ptr} {y : RbRoot Ptr} :
    depth (hole s c up a y) = depth up + 1 := by
  cases s <;> rfl

/-! ## The rule above a hole -/

section Fits

variable {s : Side} {p : RbPath Ptr} {t x y : RbRoot Ptr} {a : Ptr} {c c' : Color} {n : ℕ}

theorem fits_red (h : (hole s .red p a y).Fits c n) :
    c = .black ∧ y.Balanced .black n ∧ p.Fits .red n := by
  cases s with
  | left => cases h with | redLeft hr hup => exact ⟨rfl, hr, hup⟩
  | right => cases h with | redRight hl hup => exact ⟨rfl, hl, hup⟩

theorem fits_black (h : (hole s .black p a y).Fits c n) :
    (∃ c', y.Balanced c' n) ∧ p.Fits .black (n + 1) := by
  cases s with
  | left => cases h with | blackLeft hr hup => exact ⟨⟨_, hr⟩, hup⟩
  | right => cases h with | blackRight hl hup => exact ⟨⟨_, hl⟩, hup⟩

theorem hole_fits_black (hy : y.Balanced c' n) (h : p.Fits .black (n + 1)) :
    (hole s .black p a y).Fits c n := by
  cases s with
  | left => exact .blackLeft hy h
  | right => exact .blackRight hy h

theorem build_black (hx : x.Balanced c n) (hy : y.Balanced c' n) :
    (build s .black x a y).Balanced .black (n + 1) := by
  cases s with
  | left => exact .black hx hy
  | right => exact .black hy hx

theorem build_red (hx : x.Balanced .black n) (hy : y.Balanced .black n) :
    (build s .red x a y).Balanced .red n := by
  cases s with
  | left => exact .red hx hy
  | right => exact .red hy hx

theorem balanced_red (h : (build s .red x a y).Balanced c n) :
    c = .red ∧ x.Balanced .black n ∧ y.Balanced .black n := by
  cases s with
  | left => cases h with | red hl hr => exact ⟨rfl, hl, hr⟩
  | right => cases h with | red hl hr => exact ⟨rfl, hr, hl⟩

theorem balanced_black (h : (build s .black x a y).Balanced c n) :
    c = .black ∧ ∃ k c₁ c₂, n = k + 1 ∧ x.Balanced c₁ k ∧ y.Balanced c₂ k := by
  cases s with
  | left => cases h with | black hl hr => exact ⟨rfl, _, _, _, rfl, hl, hr⟩
  | right => cases h with | black hl hr => exact ⟨rfl, _, _, _, rfl, hr, hl⟩

/-- A red tree that follows the rule. -/
theorem exists_red (s : Side) (h : t.Balanced .red n) :
    ∃ x a y, t = build s .red x a y ∧ x.Balanced .black n ∧ y.Balanced .black n := by
  cases h with
  | @red l r v n hl hr =>
    cases s with
    | left => exact ⟨l, v, r, rfl, hl, hr⟩
    | right => exact ⟨r, v, l, rfl, hr, hl⟩

end Fits

/-- The link of a hole. -/
def linkOf : RbPath Ptr → RbLink
  | .root => .root
  | .left _ _ a _ => .child a .left
  | .right _ _ a _ => .child a .right

/-- The root of the tree around the hole is black, or the hole is the root. -/
def RootBlack (p : RbPath Ptr) : Prop := (p.fill nil).isRed = false

theorem isRed_fill {p : RbPath Ptr} (hp : p ≠ .root) (t t' : RbRoot Ptr) :
    (p.fill t).isRed = (p.fill t').isRed := by
  induction p generalizing t t' with
  | root => exact absurd rfl hp
  | left c up a r ih =>
    show (up.fill _).isRed = (up.fill _).isRed
    by_cases hup : up = .root
    · subst hup
      cases c <;> rfl
    · exact ih hup _ _
  | right c l a up ih =>
    show (up.fill _).isRed = (up.fill _).isRed
    by_cases hup : up = .root
    · subst hup
      cases c <;> rfl
    · exact ih hup _ _

theorem RootBlack.up {s : Side} {c : Color} {p : RbPath Ptr} {a : Ptr} {y : RbRoot Ptr}
    (h : RootBlack (hole s c p a y)) : RootBlack p ∧ (p = .root → c = .black) := by
  unfold RootBlack at h ⊢
  rw [fill_hole] at h
  by_cases hp : p = .root
  · subst hp
    refine ⟨rfl, fun _ => ?_⟩
    replace h : (build s c nil a y).isRed = false := h
    rw [isRed_build] at h
    cases c with
    | red => exact absurd h (by decide)
    | black => rfl
  · refine ⟨?_, fun heq => absurd heq hp⟩
    rw [isRed_fill hp nil]
    exact h

/-! ## The loop -/

namespace Mem.Has

variable {base : Ptr → Option RbNode} {r a b v gv x y : Ptr} {m : Mem} {s s' : Side} {c c' : Color}
  {p g : RbPath Ptr} {t l gr : RbRoot Ptr} {n fuel : ℕ}

/-- `rb_set_black(root->rb_node)`. -/
theorem blackRoot (h : m.Rep base t) (ht : t ≠ nil) :
    ∃ m', m.setBlack m.root = some m' ∧ m'.Rep base t.setBlack := by
  obtain ⟨c, x, a, y, rfl⟩ := exists_build .left ht
  rw [h.root, ptr_build, setBlack_build]
  unfold Rep at h ⊢
  rw [cells_build, ptr_build] at h ⊢
  exact h.setBlack

/-- Recolouring the node in the hole. -/
theorem blackHole {x y : RbRoot Ptr} (h : m.Rep base (p.fill (build s c x a y))) :
    ∃ m', m.setBlack a = some m' ∧ m'.Rep base (p.fill (build s .black x a y)) := by
  rw [rep_fill, cells_build, ptr_build] at h
  have h' := h.congr (add_comm _ _)
  rw [add_assoc] at h'
  obtain ⟨m', hm', hrep⟩ := h'.setBlack
  refine ⟨m', hm', rep_fill.mpr ?_⟩
  rw [cells_build, ptr_build]
  exact hrep.congr (by abel)

theorem redHole {x y : RbRoot Ptr} (h : m.Rep base (p.fill (build s c x a y))) :
    ∃ m', m.setRed a = some m' ∧ m'.Rep base (p.fill (build s .red x a y)) := by
  rw [rep_fill, cells_build, ptr_build] at h
  have hup := h.parent_aligned
  have h' := h.congr (add_comm _ _)
  rw [add_assoc] at h'
  obtain ⟨m', hm', hrep⟩ := h'.setRed hup
  refine ⟨m', hm', rep_fill.mpr ?_⟩
  rw [cells_build, ptr_build]
  exact hrep.congr (by abel)

theorem colorHole {x y : RbRoot Ptr} (h : m.Rep base (p.fill (build s c x a y))) (c' : Color) :
    ∃ m', m.setColor a (bit c') = some m' ∧ m'.Rep base (p.fill (build s c' x a y)) := by
  rw [rep_fill, cells_build, ptr_build] at h
  have hup := h.parent_aligned
  have h' := h.congr (add_comm _ _)
  rw [add_assoc] at h'
  obtain ⟨m', hm', hrep⟩ := h'.setColor hup c'
  refine ⟨m', hm', rep_fill.mpr ?_⟩
  rw [cells_build, ptr_build]
  exact hrep.congr (by abel)

/-- What stands in a hole. -/
theorem getHole {x y : RbRoot Ptr} (h : m.Rep base (p.fill (build s c x a y))) :
    m.node a = some (cell s (word (parentPtr p) c) (ptr x) (ptr y)) ∧ parentPtr p &&& 3 = 0 ∧
      Valid a := by
  rw [rep_fill, cells_build, ptr_build] at h
  have hup := h.parent_aligned
  have h' := h.congr (add_comm _ _)
  rw [add_assoc] at h'
  exact ⟨h'.get, hup, h'.valid_cell⟩

/-- The colours of the subtrees. -/
theorem isRedHole {x y : RbRoot Ptr} (h : m.Rep base (p.fill (build s c x a y))) :
    m.isRed (ptr x) = some x.isRed ∧ m.isRed (ptr y) = some y.isRed := by
  have ha := h.getHole.2.2.aligned
  rw [rep_fill, cells_build, ptr_build] at h
  constructor
  · have hx : m.Has base (cells x a + (pathCells p a + ({(a, _)} + cells y a))) (topPtr p a) :=
      h.congr (by abel)
    exact hx.isRed ha
  · have hy : m.Has base (cells y a + (pathCells p a + ({(a, _)} + cells x a))) (topPtr p a) :=
      h.congr (by abel)
    exact hy.isRed ha

theorem isBlackHole {x y : RbRoot Ptr} (h : m.Rep base (p.fill (build s c x a y))) :
    m.isBlack (ptr x) = some !x.isRed ∧ m.isBlack (ptr y) = some !y.isRed := by
  have ha := h.getHole.2.2.aligned
  rw [rep_fill, cells_build, ptr_build] at h
  constructor
  · have hx : m.Has base (cells x a + (pathCells p a + ({(a, _)} + cells y a))) (topPtr p a) :=
      h.congr (by abel)
    exact hx.isBlack ha
  · have hy : m.Has base (cells y a + (pathCells p a + ({(a, _)} + cells x a))) (topPtr p a) :=
      h.congr (by abel)
    exact hy.isBlack ha

/-- A subtree is not the other one. -/
theorem ptr_ne_ptr {x y : RbRoot Ptr} (h : m.Rep base (p.fill (build s c x a y))) (hy : y ≠ nil) :
    ptr x ≠ ptr y := by
  rw [rep_fill, cells_build, ptr_build] at h
  have hx : m.Has base (cells x a + (cells y a + ({(a, _)} + pathCells p a))) (topPtr p a) :=
    h.congr (by abel)
  refine hx.ptr_ne ?_
  rw [Multiset.map_add, Multiset.mem_add]
  exact .inl (ptr_mem_keys hy)

/-- The parent is black now, the grandparent red and below it. -/
theorem insertTurn {r : RbRoot Ptr}
    (h : m.Rep base (g.fill (build s .black (build s c t v r) gv gr))) :
    ∃ m', (∀ x : Ptr, (do
        let m ← m.setBlack v
        let m ← m.setRed gv
        (m.rotate gv s.flip).map (·, x)) = some (m', x)) ∧
      m'.Rep base (g.fill (build s .black t v (build s .red r gv gr))) := by
  rw [← fill_hole] at h
  obtain ⟨m1, hm1, h1⟩ := h.blackHole
  rw [fill_hole] at h1
  obtain ⟨m2, hm2, h2⟩ := h1.redHole
  rw [← build_flip, ← build_flip (x := r)] at h2
  obtain ⟨m3, hm3, h3⟩ := h2.rotate
  rw [build_flip, build_flip] at h3
  refine ⟨m3, fun x => ?_, h3⟩
  simp only [Option.bind_eq_bind, hm1, hm2, Option.bind_some, hm3, Option.map_some]

theorem insertRotate_outer {r : RbRoot Ptr}
    (h : m.Rep base (g.fill (build s .black (build s .red t v r) gv gr))) (ht : t ≠ nil) :
    ∃ m', m.insertRotate (ptr t) v gv s = some (m', ptr t) ∧
      m'.Rep base (g.fill (build s .black t v (build s .red r gv gr))) := by
  obtain ⟨m', hturn, h'⟩ := h.insertTurn
  rw [← fill_hole] at h
  have hv := h.getHole.1
  rw [← build_flip] at h
  have hne := h.ptr_ne_ptr ht
  refine ⟨m', ?_, h'⟩
  unfold Mem.insertRotate
  rw [hv, Option.bind_eq_bind, Option.bind_some, child_cell_flip, if_neg hne]
  exact hturn (ptr t)

theorem insertRotate_inner {r tl tr : RbRoot Ptr} {tv : Ptr}
    (h : m.Rep base (g.fill (build s .black (build s .red r v (build s .red tl tv tr)) gv gr))) :
    ∃ m', m.insertRotate tv v gv s = some (m', v) ∧
      m'.Rep base (g.fill (build s .black (build s .red r v tl) tv (build s .red tr gv gr))) := by
  rw [← fill_hole] at h
  have hv := h.getHole.1
  obtain ⟨m1, hm1, h1⟩ := h.rotate
  rw [fill_hole] at h1
  obtain ⟨m', hturn, h'⟩ := h1.insertTurn
  refine ⟨m', ?_, h'⟩
  unfold Mem.insertRotate
  rw [hv, Option.bind_eq_bind, Option.bind_some, child_cell_flip, ptr_build, if_pos rfl, hm1]
  exact hturn v

/-! ### The loop -/

/-- The test for the side a node is on. -/
theorem side_eq {w : UInt64} (hne : b ≠ a) :
    (if a = (cell s w a b).rbLeft then Side.left else .right) = s := by
  cases s with
  | left => exact if_pos rfl
  | right => exact if_neg hne.symm

/-- A pass below a red parent. -/
theorem insert_pass {nb nv ng : RbNode} {u : Ptr} {red : Bool} (hb : m.node b = some nb)
    (hparent : nb.rbParent = v) (hne : v ≠ 0) (hv : m.node v = some nv)
    (hblack : nv.rbIsBlack = false) (hgparent : nv.rbParent = gv) (hg : m.node gv = some ng)
    (hs : (if v = ng.rbLeft then Side.left else .right) = s) (hu : ng.child s.flip = u)
    (hred : m.isRed u = some red) :
    m.rbInsertColor (fuel + 1) b = if red then (do
        let m ← m.setBlack u
        let m ← m.setBlack v
        let m ← m.setRed gv
        m.rbInsertColor fuel gv)
      else (do
        let (m, node) ← m.insertRotate b v gv s
        m.rbInsertColor fuel node) := by
  subst hparent hgparent hs hu
  simp only [Mem.rbInsertColor, Option.bind_eq_bind, hb, Option.bind_some, if_neg hne, hv, hblack,
    hg, hred, Bool.false_eq_true, if_false]

/-- A red uncle: the colours of two levels are exchanged. -/
theorem insertUncle {r : RbRoot Ptr}
    (h : m.Rep base (g.fill (build s' .black (build s .red t v r) gv gr))) (hgr : gr ≠ nil) :
    ∃ m', (∀ (β : Type) (f : Mem → Option β), (do
        let m ← m.setBlack (ptr gr)
        let m ← m.setBlack v
        let m ← m.setRed gv
        f m) = f m') ∧
      m'.Rep base (g.fill (build s' .red (build s .black t v r) gv gr.setBlack)) := by
  obtain ⟨c, x, u, y, rfl⟩ := exists_build .left hgr
  rw [← build_flip, ← fill_hole] at h
  obtain ⟨m1, hm1, h1⟩ := h.blackHole
  rw [fill_hole, build_flip, ← fill_hole] at h1
  obtain ⟨m2, hm2, h2⟩ := h1.blackHole
  rw [fill_hole] at h2
  obtain ⟨m3, hm3, h3⟩ := h2.redHole
  refine ⟨m3, fun β f => ?_, ?_⟩
  · simp only [Option.bind_eq_bind, ptr_build, hm1, Option.bind_some, hm2, hm3]
  · rw [setBlack_build]
    exact h3

/-- Below a black node there is nothing to do. -/
theorem insert_black (fuel : ℕ) (h : m.Rep base ((hole s .black p a l).fill t))
    (ht : t ≠ nil) :
    ∃ m', m.rbInsertColor (fuel + 1) (ptr t) = some m' ∧
      m'.Rep base ((hole s .black p a l).fill t).setBlack := by
  have hfill : (hole s .black p a l).fill t ≠ nil := by
    intro heq
    have hlist := congrArg RbRoot.toList heq
    obtain ⟨c, x, b, y, rfl⟩ := exists_build .left ht
    simp [build] at hlist
  obtain ⟨m', hm', h'⟩ := h.blackRoot hfill
  obtain ⟨c, x, b, y, rfl⟩ := exists_build .left ht
  have hb := h.getHole
  rw [fill_hole] at h
  have ha := h.getHole
  refine ⟨m', ?_, h'⟩
  rw [Mem.rbInsertColor, ptr_build, hb.1, Option.bind_eq_bind, Option.bind_some,
    rbParent_cell hb.2.1, parentPtr_hole, if_neg ha.2.2.ne, ha.1, Option.bind_some,
    rbIsBlack_cell ha.2.1, if_pos (by decide)]
  exact hm'

/-- `rb_insert_color` in the memory is the function on trees. -/
theorem rbInsertColor (h : m.Rep base (p.fill t)) (ht : t.Balanced .red n) (hp : p.Fits .black n)
    (htop : RootBlack p) (hfuel : depth p < fuel) :
    ∃ m', m.rbInsertColor fuel (ptr t) = some m' ∧ m'.Rep base (p.insertColor t) := by
  induction fuel generalizing m p t n with
  | zero => exact absurd hfuel (Nat.not_lt_zero _)
  | succ fuel ih =>
    have hnil : t ≠ nil := fun heq => by cases heq ▸ ht
    by_cases hroot : p = .root
    · -- the loop has moved up to the root
      subst hroot
      obtain ⟨m', hm', h'⟩ := h.blackRoot hnil
      refine ⟨m', ?_, h'⟩
      obtain ⟨x, b, y, rfl, -, -⟩ := exists_red .left ht
      have hb := h.getHole
      rw [Mem.rbInsertColor, ptr_build, hb.1, Option.bind_eq_bind, Option.bind_some,
        rbParent_cell hb.2.1]
      exact hm'
    obtain ⟨s, c, up, v, r, rfl⟩ := exists_hole hroot
    cases c with
    | black =>
      rw [insertColor_black]
      exact h.insert_black fuel hnil
    | red =>
      obtain ⟨-, hr, hup⟩ := fits_red hp
      have hne : up ≠ .root := fun heq => by cases (htop.up.2 heq)
      obtain ⟨s', c, g, gv, gr, rfl⟩ := exists_hole hne
      cases c with
      | red => cases (fits_red hup).1
      | black =>
        obtain ⟨⟨c', hgr⟩, hg⟩ := fits_black hup
        obtain ⟨x, b, y, htree, -, -⟩ := exists_red s ht
        have hb := (htree ▸ h : m.Rep base (RbPath.fill _ (build s .red x b y))).getHole
        rw [fill_hole] at h
        have hv := h.getHole
        rw [fill_hole] at h
        have hgv := h.getHole
        have huncle := h.isRedHole.2
        have hne := (build_flip (s := s') ▸ h : m.Rep base (g.fill
          (build s'.flip .black gr gv (build s .red t v r)))).ptr_ne_ptr build_ne_nil
        rw [ptr_build] at hne
        have hpass : m.rbInsertColor (fuel + 1) (ptr t) = if gr.isRed then (do
              let m ← m.setBlack (ptr gr)
              let m ← m.setBlack v
              let m ← m.setRed gv
              m.rbInsertColor fuel gv)
            else (do
              let (m, node) ← m.insertRotate (ptr t) v gv s'
              m.rbInsertColor fuel node) := by
          rw [parentPtr_hole] at hb hv
          rw [ptr_build] at hgv
          rw [show ptr t = b by rw [htree, ptr_build]] at hv ⊢
          exact insert_pass hb.1 (rbParent_cell hb.2.1) hv.2.2.ne hv.1 (rbIsBlack_cell hv.2.1)
            (rbParent_cell hv.2.1) hgv.1 (side_eq hne) child_cell_flip huncle
        rw [hpass]
        cases hred : gr.isRed with
        | true =>
          have hgrnil : gr ≠ nil := fun heq => by rw [heq] at hred; cases hred
          obtain ⟨m', hm', h'⟩ := h.insertUncle hgrnil
          obtain ⟨k, hk, hkn⟩ := hgr.setBlack
          rw [hkn (hgr.isRed_eq.mp hred)] at hk
          rw [if_pos rfl, hm', insertColor_uncle hred]
          have hdepth : depth g < fuel := by
            simp only [depth_hole] at hfuel
            omega
          have := ih h' (build_red (build_black ht hr) hk) hg htop.up.1.up.1 hdepth
          rwa [ptr_build] at this
        | false =>
          rw [if_neg (by decide)]
          obtain ⟨fuel, rfl⟩ : ∃ k, fuel = k + 1 := by
            simp only [depth_hole] at hfuel
            exact ⟨fuel - 1, by omega⟩
          by_cases hs : s = s'
          · subst hs
            obtain ⟨m1, hm1, h1⟩ := h.insertRotate_outer hnil
            rw [insertColor_outer hred, hm1]
            rw [← fill_hole] at h1 ⊢
            exact h1.insert_black fuel hnil
          · obtain rfl : s = s'.flip := by cases s <;> cases s' <;> simp_all [Side.flip]
            obtain ⟨tl, tv, tr, rfl, -, -⟩ := exists_red s' ht
            rw [build_flip] at h
            obtain ⟨m1, hm1, h1⟩ := h.insertRotate_inner
            rw [insertColor_inner hred, ptr_build, hm1]
            rw [← fill_hole] at h1 ⊢
            have hlast := h1.insert_black fuel build_ne_nil
            rwa [ptr_build] at hlast

/-- `rb_link_node` where a search fell off the tree. -/
theorem rbLinkNode {n₀ : RbNode} (h : m.Rep base (p.fill nil)) (ha : Valid a)
    (hnew : a ∉ (p.fill nil).toList) (hnode : m.node a = some n₀) :
    ∃ m', m.rbLinkNode a (parentPtr p) (linkOf p) = some m' ∧
      m'.Rep base (p.fill (RbRoot.node .red nil a nil)) := by
  have hkeys : a ∉ (cells (p.fill nil) 0).map Prod.fst := fun hin => hnew (mem_keys_cells.mp hin)
  have hall : m.Has base ({(a, n₀)} + cells (p.fill nil) 0) (ptr (p.fill nil)) := by
    refine ⟨h.holds.acquire hkeys hnode, h.root, fun b hb => ?_⟩
    rw [Chunks.keys_singleton_add, Multiset.mem_cons] at hb
    rcases hb with rfl | hb
    · exact ha
    · exact h.valid b hb
  obtain ⟨m1, hm1, h1⟩ := hall.modify fun _ => ⟨parentPtr p, 0, 0⟩
  rw [cells_fill, ptr_fill] at h1
  unfold Mem.rbLinkNode
  rw [hm1, Option.bind_eq_bind, Option.bind_some]
  have hcell : (⟨parentPtr p, 0, 0⟩ : RbNode) = ⟨word (parentPtr p) .red, 0, 0⟩ := by
    rw [word, show bit Color.red = 0 from rfl, UInt64.or_zero]
  have hgoal {m' : Mem} (h : m'.Has base ({(a, ⟨parentPtr p, 0, 0⟩)} + pathCells p a)
      (topPtr p a)) :
      m'.Rep base (p.fill (RbRoot.node .red nil a nil)) := by
    rw [hcell] at h
    exact rep_fill.mpr (h.congr (add_comm _ _))
  by_cases hp : p = .root
  · subst hp
    exact ⟨{ m1 with root := a }, rfl, hgoal ⟨h1.holds, rfl, h1.valid⟩⟩
  · obtain ⟨s, c, up, b, y, rfl⟩ := exists_hole hp
    rw [pathCells_hole] at h1 hgoal
    rw [topPtr_hole] at h1 hgoal
    have hb : m1.Has base ({(b, cell s (word (parentPtr up) c) 0 (ptr y))} +
        ({(a, ⟨parentPtr (hole s c up b y), 0, 0⟩)} + (cells y b + pathCells up b)))
        (topPtr up b) := h1.congr (by rw [cells, ptr]; abel)
    obtain ⟨m2, hm2, h2⟩ := hb.setChild a
    refine ⟨m2, ?_, hgoal (h2.congr (by abel))⟩
    cases s <;> exact hm2

/-- Linking a node and colouring it. -/
theorem rbInsert {n₀ : RbNode} (h : m.Rep base (p.fill nil)) (hrule : (p.fill nil).RedBlack)
    (htop : RootBlack p) (ha : Valid a) (hnew : a ∉ (p.fill nil).toList)
    (hnode : m.node a = some n₀) (hfuel : depth p < fuel) :
    ∃ m', (do
        let m ← m.rbLinkNode a (parentPtr p) (linkOf p)
        m.rbInsertColor fuel a) = some m' ∧ m'.Rep base (p.insertNew a) := by
  obtain ⟨m1, hm1, h1⟩ := h.rbLinkNode ha hnew hnode
  obtain ⟨c, n, hp, hnil⟩ := hrule.unfill
  cases hnil
  obtain ⟨m2, hm2, h2⟩ := h1.rbInsertColor (.red .nil .nil) hp htop hfuel
  exact ⟨m2, by rw [hm1]; exact hm2, h2⟩

end Mem.Has

end Mtrace.Rb
