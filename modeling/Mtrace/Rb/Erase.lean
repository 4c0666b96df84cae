import Mtrace.Rb.Insert

/-!
# Taking a node out, in memory

`rb_erase` and `__rb_erase_color` follow the functions on trees: the sibling of a place that is one
black node short is there whenever the code goes through it, the loop ends after at most one pass
for each level and one more, and no node outside of the tree is touched. -/

namespace Mtrace.Rb

open RbTree
open RbTree.RbRoot (nil)

/-! ## The passes, for both sides -/

/-- The closing rotations for a hole `t` on the side `s` of `v`. -/
def borrow (s : Side) (c : Color) (t : RbRoot Ptr) (v : Ptr) (o : RbRoot Ptr) :
    Option (RbRoot Ptr) :=
  match s with
  | .left => RbPath.borrowRight c t v o
  | .right => RbPath.borrowLeft c t v o

section Sides

variable {s : Side} {c c' : Color} {up : RbPath Ptr} {t t' x y sib xl xr : RbRoot Ptr}
  {v w xv : Ptr}

theorem borrow_far (hy : y.isRed = true) : borrow s c t v (build s c' x w y) =
    some (build s c (build s .black t v x) w y.setBlack) := by
  cases s <;> exact if_pos hy

theorem borrow_near (hy : y.isRed = false) :
    borrow s c t v (build s c' (build s .red xl xv xr) w y) =
      some (build s c (build s .black t v xl) xv (build s .black xr w y)) := by
  have hne : ¬ y.isRed = true := by rw [hy]; decide
  cases s <;> exact if_neg hne

theorem borrow_none (hx : x.isRed = false) (hy : y.isRed = false) :
    borrow s c t v (build s c' x w y) = none := by
  have hne : ¬ y.isRed = true := by rw [hy]; decide
  have hno : x = nil ∨ ∃ a u b, x = build s .black a u b := by
    by_cases hnil : x = nil
    · exact .inl hnil
    · obtain ⟨c, a, u, b, rfl⟩ := exists_build s hnil
      cases c with
      | red => rw [isRed_build] at hx; exact absurd hx (by decide)
      | black => exact .inr ⟨a, u, b, rfl⟩
  rcases hno with rfl | ⟨a, u, b, rfl⟩ <;> cases s <;> exact if_neg hne

theorem of_borrow_none (h : borrow s c t v (build s c' x w y) = none) :
    x.isRed = false ∧ y.isRed = false := by
  cases hy : y.isRed with
  | true =>
    rw [borrow_far hy] at h
    cases h
  | false =>
    refine ⟨?_, rfl⟩
    by_contra hx
    have hnil : x ≠ nil := fun heq => hx (by rw [heq]; rfl)
    obtain ⟨c₁, xl, xv, xr, rfl⟩ := exists_build s hnil
    rw [isRed_build, Bool.not_eq_false, decide_eq_true_eq] at hx
    subst hx
    rw [borrow_near hy] at h
    cases h

/-- What the rotations need of the sibling, on either side. -/
theorem balanced_borrow {n : ℕ} (ht : t.Balanced .black n) (hsib : sib.Balanced .black (n + 1))
    (s : Side) (c : Color) (v : Ptr) :
    (borrow s c t v sib = none ∧ sib.setRed.Balanced .red n) ∨
      ∃ t', borrow s c t v sib = some t' := by
  cases s with
  | left => exact (ht.borrowRight hsib c v).imp_right fun ⟨a, w, b, hb, _⟩ => ⟨_, hb⟩
  | right => exact (ht.borrowLeft hsib c v).imp_right fun ⟨a, w, b, hb, _⟩ => ⟨_, hb⟩

theorem eraseColor_red (ht : t.isRed = true) :
    (hole s c up v sib).eraseColor t = (hole s c up v sib).fill t.setBlack := by
  cases s <;> exact if_pos ht

theorem eraseColor_redSib_some (ht : t.isRed = false) (hb : borrow s .red t v x = some t') :
    (hole s c up v (build s .red x w y)).eraseColor t =
      ((hole s .black up w y).fill t').setBlack := by
  have hne : ¬ t.isRed = true := by rw [ht]; decide
  cases s <;> (refine (if_neg hne).trans ?_; dsimp only [borrow, build] at hb ⊢; rw [hb]; exact rfl)

theorem eraseColor_redSib_none (ht : t.isRed = false) (hb : borrow s .red t v x = none) :
    (hole s c up v (build s .red x w y)).eraseColor t =
      (hole s .black up w y).fill (build s .black t v x.setRed) := by
  have hne : ¬ t.isRed = true := by rw [ht]; decide
  cases s <;> (refine (if_neg hne).trans ?_; dsimp only [borrow, build] at hb ⊢; rw [hb]; exact rfl)

theorem eraseColor_some (ht : t.isRed = false)
    (hb : borrow s c t v (build s .black x w y) = some t') :
    (hole s c up v (build s .black x w y)).eraseColor t = (up.fill t').setBlack := by
  have hne : ¬ t.isRed = true := by rw [ht]; decide
  cases s <;> (refine (if_neg hne).trans ?_; dsimp only [borrow, build] at hb ⊢; rw [hb])

theorem eraseColor_none (ht : t.isRed = false)
    (hb : borrow s c t v (build s .black x w y) = none) :
    (hole s c up v (build s .black x w y)).eraseColor t =
      up.eraseColor (build s c t v (build s .red x w y)) := by
  have hne : ¬ t.isRed = true := by rw [ht]; decide
  cases s <;> (refine (if_neg hne).trans ?_; dsimp only [borrow, build] at hb ⊢; rw [hb]; exact rfl)

end Sides

/-! ## A pass -/

namespace Mem.Has

variable {base : Ptr → Option RbNode} {r a v w xv : Ptr} {m : Mem} {s : Side} {c c' : Color}
  {p up : RbPath Ptr} {t x y xl xr : RbRoot Ptr} {n fuel : ℕ}

/-- The colour of what stands in a hole. -/
theorem isBlackAt (h : m.Rep base (p.fill t)) : m.isBlack (ptr t) = some !t.isRed := by
  rw [rep_fill] at h
  exact (h.congr (add_comm _ _)).isBlack h.parent_aligned

/-- A black sibling stays where it is. -/
theorem eraseSibling_black (h : m.Rep base (up.fill (build s c t v (build s .black x w y)))) :
    m.eraseSibling v w s = some (m, w) := by
  rw [← build_flip, ← fill_hole] at h
  have hw := h.getHole
  unfold Mem.eraseSibling
  rw [hw.1, Option.bind_eq_bind, Option.bind_some, rbIsRed_cell hw.2.1]
  exact if_neg (by decide)

theorem eraseSibling_red (h : m.Rep base (up.fill (build s c t v (build s .red x w y)))) :
    ∃ m', m.eraseSibling v w s = some (m', ptr x) ∧
      m'.Rep base (up.fill (build s .black (build s .red t v x) w y)) := by
  rw [← build_flip, ← fill_hole] at h
  have hw := h.getHole
  obtain ⟨m1, hm1, h1⟩ := h.blackHole
  rw [fill_hole, build_flip] at h1
  obtain ⟨m2, hm2, h2⟩ := h1.redHole
  obtain ⟨m3, hm3, h3⟩ := h2.rotate
  have hv := h3
  rw [← fill_hole] at hv
  refine ⟨m3, ?_, h3⟩
  unfold Mem.eraseSibling
  simp only [Option.bind_eq_bind, hw.1, Option.bind_some, rbIsRed_cell hw.2.1, decide_true, if_true,
    hm1, hm2, hm3, hv.getHole.1, child_cell_flip]

theorem blackChildren (h : m.Rep base (p.fill (build s c x w y))) :
    m.blackChildren w = some (!x.isRed && !y.isRed) := by
  have hw := h.getHole.1
  obtain ⟨hx, hy⟩ := h.isBlackHole
  unfold Mem.blackChildren
  rw [hw, Option.bind_eq_bind, Option.bind_some]
  cases s with
  | left =>
    show ((m.isBlack (ptr x)).bind fun b => if b = true then m.isBlack (ptr y) else some false) = _
    rw [hx, hy, Option.bind_some]
    cases x.isRed <;> rfl
  | right =>
    show ((m.isBlack (ptr y)).bind fun b => if b = true then m.isBlack (ptr x) else some false) = _
    rw [hx, hy, Option.bind_some]
    cases x.isRed <;> cases y.isRed <;> rfl

/-- The last rotation: the far child of the sibling becomes black, and the sibling takes the colour
and the place of the parent. -/
theorem eraseTurn (h : m.Rep base (up.fill (build s c t v (build s c' x w y)))) (hy : y ≠ nil) :
    ∃ m', (do
        let m ← m.setColor w (← m.node v).rbColor
        let m ← m.setBlack v
        let m ← m.setBlack ((← m.node w).child s.flip)
        m.rotate v s) = some m' ∧
      m'.Rep base (up.fill (build s c (build s .black t v x) w y.setBlack)) := by
  obtain ⟨c₁, yl, yv, yr, rfl⟩ := exists_build s hy
  have hv := h.getHole
  rw [← build_flip, ← fill_hole] at h
  obtain ⟨m1, hm1, h1⟩ := h.colorHole c
  rw [fill_hole, build_flip] at h1
  obtain ⟨m2, hm2, h2⟩ := h1.blackHole
  rw [← build_flip, ← fill_hole] at h2
  have hw := h2.getHole
  rw [← build_flip, ← fill_hole] at h2
  obtain ⟨m3, hm3, h3⟩ := h2.blackHole
  rw [fill_hole, build_flip, fill_hole, build_flip] at h3
  obtain ⟨m4, hm4, h4⟩ := h3.rotate
  refine ⟨m4, ?_, by rwa [setBlack_build]⟩
  simp only [Option.bind_eq_bind, hv.1, Option.bind_some, rbColor_cell hv.2.1, hm1, hm2, hw.1,
    child_cell_flip, ptr_build, hm3, hm4]

theorem eraseRotate_far (h : m.Rep base (up.fill (build s c t v (build s .black x w y))))
    (hy : y.isRed = true) :
    ∃ m', m.eraseRotate v w s = some m' ∧
      m'.Rep base (up.fill (build s c (build s .black t v x) w y.setBlack)) := by
  have hnil : y ≠ nil := fun heq => by rw [heq] at hy; cases hy
  obtain ⟨m', hm', h'⟩ := h.eraseTurn hnil
  rw [← build_flip, ← fill_hole] at h
  have hw := h.getHole.1
  have hfar := h.isBlackHole.2
  refine ⟨m', ?_, h'⟩
  unfold Mem.eraseRotate
  simp only [Option.bind_eq_bind, hw, Option.bind_some, child_cell_flip, hfar, hy, Bool.not_true,
    Bool.false_eq_true, if_false]
  exact hm'

theorem eraseRotate_near
    (h : m.Rep base (up.fill (build s c t v (build s .black (build s .red xl xv xr) w y))))
    (hy : y.isRed = false) :
    ∃ m', m.eraseRotate v w s = some m' ∧
      m'.Rep base (up.fill (build s c (build s .black t v xl) xv (build s .black xr w y))) := by
  rw [← build_flip, ← fill_hole] at h
  have hw := h.getHole.1
  have hfar := h.isBlackHole.2
  rw [← fill_hole] at h
  obtain ⟨m1, hm1, h1⟩ := h.blackHole
  rw [fill_hole] at h1
  obtain ⟨m2, hm2, h2⟩ := h1.redHole
  rw [← build_flip, ← build_flip (x := xr)] at h2
  obtain ⟨m3, hm3, h3⟩ := h2.rotate
  rw [build_flip, build_flip, fill_hole, build_flip] at h3
  have hv := h3.getHole.1
  rw [ptr_build] at hv
  obtain ⟨m', hm', h'⟩ := h3.eraseTurn build_ne_nil
  rw [setBlack_build] at h'
  refine ⟨m', ?_, h'⟩
  unfold Mem.eraseRotate
  simp only [Option.bind_eq_bind, hw, Option.bind_some, child_cell_flip, hfar, hy, Bool.not_false,
    if_true, child_cell, ptr_build, hm1, hm2, hm3, hv]
  rw [hv] at hm'
  exact hm'

/-! ## The loop -/

/-- The root of the tree is one of the nodes of the path. -/
theorem topPtr_mem (hp : p ≠ .root) (a b : Ptr) : topPtr p a ∈ (pathCells p b).map Prod.fst := by
  induction p generalizing a b with
  | root => exact absurd rfl hp
  | left c up v r ih =>
    rw [pathCells, Chunks.keys_singleton_add, Multiset.map_add, Multiset.mem_cons, Multiset.mem_add]
    by_cases hup : up = .root
    · subst hup
      exact .inl rfl
    · exact .inr (.inr (ih hup _ _))
  | right c l v up ih =>
    rw [pathCells, Chunks.keys_singleton_add, Multiset.map_add, Multiset.mem_cons, Multiset.mem_add]
    by_cases hup : up = .root
    · subst hup
      exact .inl rfl
    · exact .inr (.inr (ih hup _ _))

/-- `if (node) rb_set_black(node)`. -/
theorem blacken (h : m.Rep base (p.fill t)) :
    ∃ m', m.blacken (ptr t) = some m' ∧ m'.Rep base (p.fill t.setBlack) := by
  unfold Mem.blacken
  by_cases ht : t = nil
  · subst ht
    exact ⟨m, rfl, h⟩
  · obtain ⟨c, x, a, y, rfl⟩ := exists_build .left ht
    rw [ptr_build, if_neg h.getHole.2.2.ne, setBlack_build]
    exact h.blackHole

/-- A red node ends the loop. -/
theorem erase_red (fuel : ℕ) (h : m.Rep base (p.fill t)) (ht : t.isRed = true)
    (parent : Ptr) :
    ∃ m', m.rbEraseColor (fuel + 1) (ptr t) parent = some m' ∧
      m'.Rep base (p.fill t.setBlack) := by
  obtain ⟨m', hm', h'⟩ := h.blacken
  refine ⟨m', ?_, h'⟩
  rw [Mem.rbEraseColor, h.isBlackAt, ht, Option.bind_eq_bind, Option.bind_some]
  exact hm'

/-- So does the root. -/
theorem erase_root (fuel : ℕ) (h : m.Rep base t) (parent : Ptr) :
    ∃ m', m.rbEraseColor (fuel + 1) (ptr t) parent = some m' ∧ m'.Rep base t.setBlack := by
  have hat : m.Rep base (RbPath.root.fill t) := h
  obtain ⟨m', hm', h'⟩ := hat.blacken
  refine ⟨m', ?_, h'⟩
  rw [Mem.rbEraseColor, hat.isBlackAt, Option.bind_eq_bind, Option.bind_some, h.root,
    if_neg (by simp)]
  exact hm'

/-- A pass at a place that is one black node short. -/
theorem erase_pass (h : m.Rep base ((hole s c up v y).fill t)) (ht : t.isRed = false)
    (hy : y ≠ nil) :
    m.rbEraseColor (fuel + 1) (ptr t) v = (do
      let (m, other) ← m.eraseSibling v (ptr y) s
      if ← m.blackChildren other then
        let m ← m.setRed other
        m.rbEraseColor fuel v (← m.node v).rbParent
      else
        let m ← m.eraseRotate v other s
        m.blacken m.root) := by
  have hblack := h.isBlackAt
  have hne : ptr t ≠ m.root := by
    have hcells := rep_fill.mp h
    rw [hcells.root]
    exact (hcells.congr (add_comm _ _)).ptr_ne (topPtr_mem hole_ne_root _ _)
  rw [fill_hole] at h
  have hv := h.getHole.1
  have hside : (if (cell s (word (parentPtr up) c) (ptr t) (ptr y)).rbLeft = ptr t then Side.left
      else .right) = s := by
    cases s with
    | left => exact if_pos rfl
    | right => exact if_neg (h.ptr_ne_ptr hy).symm
  have hgo : (!false && ptr t != m.root) = true := by simpa using hne
  rw [Mem.rbEraseColor, hblack, ht]
  simp only [Option.bind_eq_bind, Option.bind_some, hgo, if_true, hv, hside, child_cell_flip]

/-- A black sibling with a red child ends the loop. -/
theorem erase_some {t' : RbRoot Ptr}
    (h : m.Rep base (up.fill (build s c t v (build s .black x w y))))
    (hb : borrow s c t v (build s .black x w y) = some t') :
    ∃ m', (do
        if ← m.blackChildren w then
          let m ← m.setRed w
          m.rbEraseColor fuel v (← m.node v).rbParent
        else
          let m ← m.eraseRotate v w s
          m.blacken m.root) = some m' ∧ m'.Rep base (up.fill t').setBlack := by
  have hturn : (x.isRed = true ∨ y.isRed = true) ∧
      ∃ m1, m.eraseRotate v w s = some m1 ∧ m1.Rep base (up.fill t') := by
    cases hy : y.isRed with
    | true =>
      rw [borrow_far hy] at hb
      cases hb
      exact ⟨.inr rfl, h.eraseRotate_far hy⟩
    | false =>
      cases hx : x.isRed with
      | false =>
        rw [borrow_none hx hy] at hb
        cases hb
      | true =>
        obtain ⟨c', xl, xv, xr, rfl⟩ :=
          exists_build s (t := x) fun heq => by rw [heq] at hx; cases hx
        rw [isRed_build] at hx
        obtain rfl := of_decide_eq_true hx
        rw [borrow_near hy] at hb
        cases hb
        exact ⟨.inl rfl, h.eraseRotate_near hy⟩
  obtain ⟨hred, m1, hm1, h1⟩ := hturn
  have hroot : m1.Rep base (RbPath.root.fill (up.fill t')) := h1
  obtain ⟨m2, hm2, h2⟩ := hroot.blacken
  refine ⟨m2, ?_, h2⟩
  rw [← build_flip, ← fill_hole] at h
  have hchildren : (!x.isRed && !y.isRed) = false := by
    rcases hred with hred | hred
    · rw [hred]; rfl
    · rw [hred, Bool.not_true, Bool.and_false]
  simp only [Option.bind_eq_bind, h.blackChildren, Option.bind_some, hchildren, Bool.false_eq_true,
    if_false, hm1, h1.root]
  exact hm2

/-- A black sibling with black children becomes red, and the loop goes on at the parent. -/
theorem erase_none (fuel : ℕ) (h : m.Rep base (up.fill (build s c t v (build s .black x w y))))
    (hb : borrow s c t v (build s .black x w y) = none) :
    ∃ m' : Mem, (do
        if ← m.blackChildren w then
          let m ← m.setRed w
          m.rbEraseColor fuel v (← m.node v).rbParent
        else
          let m ← m.eraseRotate v w s
          m.blacken m.root) = m'.rbEraseColor fuel v (parentPtr up) ∧
      m'.Rep base (up.fill (build s c t v (build s .red x w y))) := by
  obtain ⟨hx, hy⟩ := of_borrow_none hb
  rw [← build_flip, ← fill_hole] at h
  obtain ⟨m1, hm1, h1⟩ := h.redHole
  rw [fill_hole, build_flip] at h1
  have hv := h1.getHole
  refine ⟨m1, ?_, h1⟩
  have hchildren : (!x.isRed && !y.isRed) = true := by rw [hx, hy]; rfl
  simp only [Option.bind_eq_bind, h.blackChildren, Option.bind_some, hchildren, if_true, hm1, hv.1,
    rbParent_cell hv.2.1]

/-- A tree of black height above `0` has a black root with two subtrees. -/
theorem exists_black (s : Side) (h : t.Balanced .black (n + 1)) :
    ∃ x a y c₁ c₂, t = build s .black x a y ∧ x.Balanced c₁ n ∧ y.Balanced c₂ n := by
  cases h with
  | @black l r v n c₁ c₂ hl hr =>
    cases s with
    | left => exact ⟨l, v, r, _, _, rfl, hl, hr⟩
    | right => exact ⟨r, v, l, _, _, rfl, hr, hl⟩

theorem balanced_of_short (h : t.Short n) (ht : t.isRed = false) :
    t.Balanced .black n := by
  unfold RbRoot.Short at h
  rwa [if_neg (by rw [ht]; decide)] at h

/-- `__rb_erase_color` in the memory is the function on trees. -/
theorem rbEraseColor (h : m.Rep base (p.fill t)) (hp : p.Fits .black (n + 1)) (ht : t.Short n)
    (hfuel : depth p < fuel) :
    ∃ m', m.rbEraseColor fuel (ptr t) (parentPtr p) = some m' ∧ m'.Rep base (p.eraseColor t) := by
  induction fuel generalizing m p t n with
  | zero => exact absurd hfuel (Nat.not_lt_zero _)
  | succ fuel ih =>
    by_cases hroot : p = .root
    · subst hroot
      have hlast := h.erase_root fuel 0
      exact hlast
    obtain ⟨s, c, up, v, sib, rfl⟩ := exists_hole hroot
    cases hred : t.isRed with
    | true =>
      rw [eraseColor_red hred]
      exact h.erase_red fuel hred _
    | false =>
      have htb := balanced_of_short ht hred
      have hsib : sib ≠ nil := by
        rintro rfl
        cases c with
        | red => cases (fits_red hp).2.1
        | black =>
          obtain ⟨⟨_, hnil⟩, -⟩ := fits_black hp
          cases hnil
      rw [parentPtr_hole, h.erase_pass hred hsib]
      rw [fill_hole] at h
      by_cases hsred : sib.isRed = true
      · -- the sibling is red, and its child next to the place becomes the sibling
        obtain ⟨c', x, w, y, rfl⟩ := exists_build s hsib
        obtain rfl : c' = .red := by rwa [isRed_build, decide_eq_true_eq] at hsred
        obtain ⟨m1, hm1, h1⟩ := h.eraseSibling_red
        rw [ptr_build, hm1, Option.bind_eq_bind, Option.bind_some]
        have hx : x.Balanced .black (n + 1) := by
          cases c with
          | red => cases (balanced_red (fits_red hp).2.1).1
          | black =>
            obtain ⟨⟨_, hs⟩, -⟩ := fits_black hp
            exact (balanced_red hs).2.1
        obtain ⟨xl, xv, xr, _, _, rfl, -, -⟩ := exists_black s hx
        rw [← fill_hole] at h1
        rw [ptr_build]
        rcases balanced_borrow htb hx s .red v with ⟨hb, -⟩ | ⟨t', hb⟩
        · obtain ⟨m2, hm2, h2⟩ := h1.erase_none fuel hb
          obtain ⟨fuel, rfl⟩ : ∃ k, fuel = k + 1 := by
            rw [depth_hole] at hfuel
            exact ⟨fuel - 1, by omega⟩
          have hlast := h2.erase_red fuel (by rw [isRed_build]; rfl)
            (parentPtr (hole s .black up w y))
          rw [ptr_build, setBlack_build] at hlast
          rw [eraseColor_redSib_none hred hb, setRed_build]
          obtain ⟨m3, hm3, h3⟩ := hlast
          exact ⟨m3, hm2.trans hm3, h3⟩
        · rw [eraseColor_redSib_some hred hb]
          exact h1.erase_some hb
      · have hs : sib.Balanced .black (n + 1) := by
          cases c with
          | red => exact (fits_red hp).2.1
          | black =>
            obtain ⟨⟨c', hs⟩, -⟩ := fits_black hp
            cases c' with
            | red => exact absurd (hs.isRed_eq.mpr rfl) hsred
            | black => exact hs
        obtain ⟨x, w, y, _, _, rfl, -, -⟩ := exists_black s hs
        rw [ptr_build, h.eraseSibling_black, Option.bind_eq_bind, Option.bind_some]
        rcases balanced_borrow htb hs s c v with ⟨hb, hsr⟩ | ⟨t', hb⟩
        · obtain ⟨m2, hm2, h2⟩ := h.erase_none fuel hb
          rw [setRed_build] at hsr
          rw [eraseColor_none hred hb]
          have hdepth : depth up < fuel := by
            rw [depth_hole] at hfuel
            omega
          have hgo : ∃ k,
              up.Fits .black (k + 1) ∧ (build s c t v (build s .red x w y)).Short k := by
            cases c with
            | red =>
              refine ⟨n, (fits_red hp).2.2.of_red, ?_⟩
              unfold RbRoot.Short
              rw [isRed_build, if_pos (by rfl), setBlack_build]
              exact build_black htb hsr
            | black => exact ⟨n + 1, (fits_black hp).2, (build_black htb hsr).short⟩
          obtain ⟨k, hup, hshort⟩ := hgo
          obtain ⟨m3, hm3, h3⟩ := ih h2 hup hshort hdepth
          rw [ptr_build] at hm3
          exact ⟨m3, hm2.trans hm3, h3⟩
        · rw [eraseColor_some hred hb]
          exact h.erase_some hb

end Mem.Has

end Mtrace.Rb
