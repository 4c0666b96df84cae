import Mtrace.RbTree

/-!
# What the colours are for

The rule of a red-black tree, kept by linking a node and by taking one out, and what a search over a
run of entries gains from it: when the search ends at the first entry of the run and that entry is
taken out, the next search ends at the first of those that are left.

1. `RbRoot.Balanced` and `RbPath.Fits`: the rule for a tree and for a tree with a hole.
2. `RbRoot.Tops`: the entry of a run that is nearest to the root is the first one of the run.
-/

namespace RbTree

universe u

variable {α : Type u} {β : Type u}

open RbRoot RbPath

/-! ## The rule -/

/-- A red node has black children, and there are `n` black nodes on every way down. -/
inductive RbRoot.Balanced : RbRoot α → Color → ℕ → Prop where
  | nil : Balanced nil .black 0
  | red {l r : RbRoot α} {v : α} {n : ℕ} (hl : l.Balanced .black n) (hr : r.Balanced .black n) :
      Balanced (node .red l v r) .red n
  | black {l r : RbRoot α} {v : α} {n : ℕ} {c c' : Color} (hl : l.Balanced c n)
      (hr : r.Balanced c' n) : Balanced (node .black l v r) .black (n + 1)

/-- A tree of the colour `c` with `n` black nodes on every way down fits in the hole. -/
inductive RbPath.Fits : RbPath α → Color → ℕ → Prop where
  | root {c : Color} {n : ℕ} : Fits root c n
  | redLeft {up : RbPath α} {v : α} {r : RbRoot α} {n : ℕ} (hr : r.Balanced .black n)
      (hup : up.Fits .red n) : Fits (left .red up v r) .black n
  | redRight {l : RbRoot α} {v : α} {up : RbPath α} {n : ℕ} (hl : l.Balanced .black n)
      (hup : up.Fits .red n) : Fits (right .red l v up) .black n
  | blackLeft {up : RbPath α} {v : α} {r : RbRoot α} {c c' : Color} {n : ℕ}
      (hr : r.Balanced c' n) (hup : up.Fits .black (n + 1)) : Fits (left .black up v r) c n
  | blackRight {l : RbRoot α} {v : α} {up : RbPath α} {c c' : Color} {n : ℕ}
      (hl : l.Balanced c' n) (hup : up.Fits .black (n + 1)) : Fits (right .black l v up) c n

/-- The tree follows the rule. -/
def RbRoot.RedBlack (t : RbRoot α) : Prop := ∃ c n, t.Balanced c n

section Rule

variable {t s l r : RbRoot α} {p : RbPath α} {c c' : Color} {n : ℕ} {v : α}

theorem redBlack_nil : (nil : RbRoot α).RedBlack := ⟨_, _, .nil⟩

theorem RbRoot.Balanced.isRed_eq (h : t.Balanced c n) : t.isRed = true ↔ c = .red := by
  cases h <;> simp [isRed]

theorem RbRoot.Balanced.setBlack (h : t.Balanced c n) :
    ∃ m, t.setBlack.Balanced .black m ∧ (c = .red → m = n + 1) := by
  cases h with
  | nil => exact ⟨0, .nil, fun h => by cases h⟩
  | red hl hr => exact ⟨_, .black hl hr, fun _ => rfl⟩
  | black hl hr => exact ⟨_, .black hl hr, fun h => by cases h⟩

theorem RbRoot.Balanced.map (f : α → β) (h : t.Balanced c n) : (t.map f).Balanced c n := by
  induction h with
  | nil => exact .nil
  | red _ _ ihl ihr => exact .red ihl ihr
  | black _ _ ihl ihr => exact .black ihl ihr

theorem RbRoot.RedBlack.map (f : α → β) (h : t.RedBlack) : (t.map f).RedBlack := by
  obtain ⟨c, n, h⟩ := h
  exact ⟨c, n, h.map f⟩

/-- Where a red tree fits, a black one does. -/
theorem RbPath.Fits.of_red (h : p.Fits .red n) : p.Fits .black n := by
  cases h with
  | root => exact .root
  | blackLeft hr hup => exact .blackLeft hr hup
  | blackRight hl hup => exact .blackRight hl hup

theorem RbPath.Fits.fill (hp : p.Fits c n) (ht : t.Balanced c n) : (p.fill t).RedBlack := by
  induction hp generalizing t with
  | root => exact ⟨_, _, ht⟩
  | redLeft hr _ ih => exact ih (.red ht hr)
  | redRight hl _ ih => exact ih (.red hl ht)
  | blackLeft hr _ ih => exact ih (.black ht hr)
  | blackRight hl _ ih => exact ih (.black hl ht)

/-- Every subtree of a tree that follows the rule fits in its place. -/
theorem RbRoot.RedBlack.unfill (h : (p.fill t).RedBlack) :
    ∃ c n, p.Fits c n ∧ t.Balanced c n := by
  induction p generalizing t with
  | root =>
    obtain ⟨c, n, h⟩ := h
    exact ⟨c, n, .root, h⟩
  | left c up v r ih =>
    obtain ⟨c', n, hup, hnode⟩ := ih h
    cases hnode with
    | red hl hr => exact ⟨_, _, .redLeft hr hup, hl⟩
    | black hl hr => exact ⟨_, _, .blackLeft hr hup, hl⟩
  | right c l v up ih =>
    obtain ⟨c', n, hup, hnode⟩ := ih h
    cases hnode with
    | red hl hr => exact ⟨_, _, .redRight hl hup, hr⟩
    | black hl hr => exact ⟨_, _, .blackRight hl hup, hr⟩

theorem RbRoot.RedBlack.setBlack (h : t.RedBlack) : t.setBlack.RedBlack := by
  obtain ⟨c, n, h⟩ := h
  obtain ⟨m, hm, -⟩ := h.setBlack
  exact ⟨_, _, hm⟩

theorem RbRoot.RedBlack.set {x : Loc α} (h : x.tree.RedBlack) (v : α) : (x.set v).RedBlack := by
  obtain ⟨c, n, hfits, hx⟩ := h.unfill
  refine hfits.fill (t := node x.color x.l v x.r) ?_
  cases hx' : x.color with
  | red => rw [hx'] at hx; cases hx with | red hl hr => exact .red hl hr
  | black => rw [hx'] at hx; cases hx with | black hl hr => exact .black hl hr

/-! ## Linking a node -/

theorem RbPath.Fits.insertColor (hp : p.Fits .black n) (ht : t.Balanced .red n) :
    (p.insertColor t).RedBlack := by
  fun_induction RbPath.insertColor p t generalizing n with
  | case1 t c g gv gr v r hred ih =>
    cases hp with | redLeft hr hup => cases hup with | blackLeft hgr hg =>
    obtain ⟨m, hgr', hm⟩ := hgr.setBlack
    rw [hm (hgr.isRed_eq.mp hred)] at hgr'
    exact ih hg (.red (.black ht hr) hgr')
  | case2 t c g gv gr v r hred =>
    cases hp with | redLeft hr hup => cases hup with | @blackLeft _ _ _ _ c' _ hgr hg =>
    cases c' with
    | red => exact absurd (hgr.isRed_eq.mpr rfl) hred
    | black => exact (hg.fill (.black ht (.red hr hgr))).setBlack
  | case3 t l v c g gv gr hred ih =>
    cases hp with | redRight hl hup => cases hup with | blackLeft hgr hg =>
    obtain ⟨m, hgr', hm⟩ := hgr.setBlack
    rw [hm (hgr.isRed_eq.mp hred)] at hgr'
    exact ih hg (.red (.black hl ht) hgr')
  | case4 l v c g gv gr hred c' tl tv tr =>
    cases hp with | redRight hl hup => cases hup with | @blackLeft _ _ _ _ c' _ hgr hg =>
    cases ht with | red htl htr =>
    cases c' with
    | red => exact absurd (hgr.isRed_eq.mpr rfl) hred
    | black => exact (hg.fill (.black (.red hl htl) (.red htr hgr))).setBlack
  | case5 l v c g gv gr hred => cases ht
  | case6 t l v c gl gv g hred ih =>
    cases hp with | redRight hl hup => cases hup with | blackRight hgl hg =>
    obtain ⟨m, hgl', hm⟩ := hgl.setBlack
    rw [hm (hgl.isRed_eq.mp hred)] at hgl'
    exact ih hg (.red hgl' (.black hl ht))
  | case7 t l v c gl gv g hred =>
    cases hp with | redRight hl hup => cases hup with | @blackRight _ _ _ _ c' _ hgl hg =>
    cases c' with
    | red => exact absurd (hgl.isRed_eq.mpr rfl) hred
    | black => exact (hg.fill (.black (.red hgl hl) ht)).setBlack
  | case8 t c gl gv g v r hred ih =>
    cases hp with | redLeft hr hup => cases hup with | blackRight hgl hg =>
    obtain ⟨m, hgl', hm⟩ := hgl.setBlack
    rw [hm (hgl.isRed_eq.mp hred)] at hgl'
    exact ih hg (.red hgl' (.black ht hr))
  | case9 c gl gv g v r hred c' tl tv tr =>
    cases hp with | redLeft hr hup => cases hup with | @blackRight _ _ _ _ c' _ hgl hg =>
    cases ht with | red htl htr =>
    cases c' with
    | red => exact absurd (hgl.isRed_eq.mpr rfl) hred
    | black => exact (hg.fill (.black (.red hgl htl) (.red htr hr))).setBlack
  | case10 c gl gv g v r hred => cases ht
  | case11 p t h1 h2 h3 h4 =>
    cases hp with
    | root => exact RedBlack.setBlack ⟨_, _, ht⟩
    | blackLeft hr hup => exact (hup.fill (.black ht hr)).setBlack
    | blackRight hl hup => exact (hup.fill (.black hl ht)).setBlack
    | redLeft hr hup =>
      cases hup with
      | root => exact ⟨_, _, .black ht hr⟩
      | blackLeft => exact (h1 _ _ _ _ _ _ rfl).elim
      | blackRight => exact (h4 _ _ _ _ _ _ rfl).elim
    | redRight hl hup =>
      cases hup with
      | root => exact ⟨_, _, .black hl ht⟩
      | blackLeft => exact (h2 _ _ _ _ _ _ rfl).elim
      | blackRight => exact (h3 _ _ _ _ _ _ rfl).elim

theorem RbRoot.RedBlack.insertNew (h : (p.fill nil).RedBlack) (v : α) :
    (p.insertNew v).RedBlack := by
  obtain ⟨c, n, hp, hnil⟩ := h.unfill
  cases hnil
  exact hp.insertColor (.red .nil .nil)

/-- Linking an entry where a search for it falls off the tree. -/
theorem RbRoot.RedBlack.insert {cut : α → Ordering} (h : t.RedBlack) (hf : t.find cut = none)
    (v : α) : ((t.gap cut).insertNew v).RedBlack := by
  refine RedBlack.insertNew ?_ v
  have hfill := fill_zoom cut t .root
  unfold find at hf
  rcases zoom_fst cut t .root with hz | ⟨c, l, w, r, hz, -⟩
  · rw [hz] at hfill
    have htree : (t.gap cut).fill nil = t := hfill
    rw [htree]
    exact h
  · rw [show zoom cut t .root = (node c l w r, (zoom cut t .root).2) from Prod.ext hz rfl] at hf
    cases hf

/-! ## Taking a node out -/

/-- What the closing rotations need of the sibling, and what they leave. -/
theorem RbRoot.Balanced.borrowRight (ht : t.Balanced .black n) (hs : s.Balanced .black (n + 1))
    (c : Color) (v : α) : (RbPath.borrowRight c t v s = none ∧ s.setRed.Balanced .red n) ∨
      ∃ a w b, RbPath.borrowRight c t v s = some (node c a w b) ∧
        a.Balanced .black (n + 1) ∧ b.Balanced .black (n + 1) := by
  cases hs with | @black ol or ov _ c1 c2 hol hor =>
  unfold RbPath.borrowRight
  cases c2 with
  | red =>
    obtain ⟨m, hor', hm⟩ := hor.setBlack
    obtain rfl := hm rfl
    exact .inr ⟨_, _, _, if_pos (hor.isRed_eq.mpr rfl), .black ht hol, hor'⟩
  | black =>
    have hor' : ¬ or.isRed = true := fun h => by cases hor.isRed_eq.mp h
    dsimp only
    rw [if_neg hor']
    cases hol with
    | nil => exact .inl ⟨rfl, .red .nil hor⟩
    | red hl hr => exact .inr ⟨_, _, _, rfl, .black ht hl, .black hr hor⟩
    | black hl hr => exact .inl ⟨rfl, .red (.black hl hr) hor⟩

theorem RbRoot.Balanced.borrowLeft (ht : t.Balanced .black n) (hs : s.Balanced .black (n + 1))
    (c : Color) (v : α) : (RbPath.borrowLeft c t v s = none ∧ s.setRed.Balanced .red n) ∨
      ∃ a w b, RbPath.borrowLeft c t v s = some (node c a w b) ∧
        a.Balanced .black (n + 1) ∧ b.Balanced .black (n + 1) := by
  cases hs with | @black ol or ov _ c1 c2 hol hor =>
  unfold RbPath.borrowLeft
  cases c1 with
  | red =>
    obtain ⟨m, hol', hm⟩ := hol.setBlack
    obtain rfl := hm rfl
    exact .inr ⟨_, _, _, if_pos (hol.isRed_eq.mpr rfl), hol', .black hor ht⟩
  | black =>
    have hol' : ¬ ol.isRed = true := fun h => by cases hol.isRed_eq.mp h
    dsimp only
    rw [if_neg hol']
    cases hor with
    | nil => exact .inl ⟨rfl, .red hol .nil⟩
    | red hl hr => exact .inr ⟨_, _, _, rfl, .black hol hl, .black hr ht⟩
    | black hl hr => exact .inl ⟨rfl, .red hol (.black hl hr)⟩

/-- A tree that is one black node short, unless it is red. -/
def RbRoot.Short (t : RbRoot α) (n : ℕ) : Prop :=
  if t.isRed then t.setBlack.Balanced .black (n + 1) else t.Balanced .black n

theorem RbRoot.Balanced.short (h : t.Balanced c n) : t.Short n := by
  unfold RbRoot.Short
  cases c with
  | red =>
    obtain ⟨m, hm, hn⟩ := h.setBlack
    rw [if_pos (h.isRed_eq.mpr rfl), ← hn rfl]
    exact hm
  | black =>
    rw [if_neg fun hred => by cases h.isRed_eq.mp hred]
    exact h

theorem RbPath.Fits.eraseColor (hp : p.Fits .black (n + 1)) (ht : t.Short n) :
    (p.eraseColor t).RedBlack := by
  induction p generalizing n t with
  | root =>
    unfold RbPath.eraseColor
    unfold RbRoot.Short at ht
    split at ht
    · exact ⟨_, _, ht⟩
    · exact RedBlack.setBlack ⟨_, _, ht⟩
  | left c up v s ih =>
    unfold RbPath.eraseColor
    unfold RbRoot.Short at ht
    split
    next hred =>
      rw [if_pos hred] at ht
      exact hp.fill ht
    next hred =>
      rw [if_neg hred] at ht
      cases hp with
      | redLeft hs hup =>
        cases hs with | @black ol or ov _ _ _ hol hor =>
        rcases ht.borrowRight (s := node .black ol ov or) (.black hol hor) .red v with ⟨hb, hs'⟩ |
          ⟨a, w, b, hb, ha, hb'⟩
        · simp only [hb]
          have hshort : (node .red t v (node .red ol ov or)).Short n := RbRoot.Balanced.black ht hs'
          exact ih hup.of_red hshort
        · simp only [hb]
          exact (hup.fill (.red ha hb')).setBlack
      | blackLeft hs hup =>
        cases hs with
        | @red ol or ov _ hol hor =>
          have hup' : (left .black up ov or).Fits .red (n + 1) := .blackLeft hor hup
          rcases ht.borrowRight hol .red v with ⟨hb, hs'⟩ | ⟨a, w, b, hb, ha, hb'⟩
          · simp only [hb]
            exact hup'.of_red.fill (.black ht hs')
          · simp only [hb]
            exact (hup'.fill (.red ha hb')).setBlack
        | @black ol or ov _ _ _ hol hor =>
          rcases ht.borrowRight (s := node .black ol ov or) (.black hol hor) .black v
            with ⟨hb, hs'⟩ | ⟨a, w, b, hb, ha, hb'⟩
          · simp only [hb]
            exact ih hup (RbRoot.Balanced.black ht hs').short
          · simp only [hb]
            exact (hup.fill (.black ha hb')).setBlack
  | right c s v up ih =>
    unfold RbPath.eraseColor
    unfold RbRoot.Short at ht
    split
    next hred =>
      rw [if_pos hred] at ht
      exact hp.fill ht
    next hred =>
      rw [if_neg hred] at ht
      cases hp with
      | redRight hs hup =>
        cases hs with | @black ol or ov _ _ _ hol hor =>
        rcases ht.borrowLeft (s := node .black ol ov or) (.black hol hor) .red v with ⟨hb, hs'⟩ |
          ⟨a, w, b, hb, ha, hb'⟩
        · simp only [hb]
          have hshort : (node .red (node .red ol ov or) v t).Short n := RbRoot.Balanced.black hs' ht
          exact ih hup.of_red hshort
        · simp only [hb]
          exact (hup.fill (.red ha hb')).setBlack
      | blackRight hs hup =>
        cases hs with
        | @red ol or ov _ hol hor =>
          have hup' : (right .black ol ov up).Fits .red (n + 1) := .blackRight hol hup
          rcases ht.borrowLeft hor .red v with ⟨hb, hs'⟩ | ⟨a, w, b, hb, ha, hb'⟩
          · simp only [hb]
            exact hup'.of_red.fill (.black hs' ht)
          · simp only [hb]
            exact (hup'.fill (.red ha hb')).setBlack
        | @black ol or ov _ _ _ hol hor =>
          rcases ht.borrowLeft (s := node .black ol ov or) (.black hol hor) .black v
            with ⟨hb, hs'⟩ | ⟨a, w, b, hb, ha, hb'⟩
          · simp only [hb]
            exact ih hup (RbRoot.Balanced.black hs' ht).short
          · simp only [hb]
            exact (hup.fill (.black ha hb')).setBlack

theorem RbPath.Fits.splice (hp : p.Fits c n)
    (h : (node c nil v t).Balanced c n ∨ (node c t v nil).Balanced c n) :
    (RbPath.splice c p t).RedBlack := by
  cases c with
  | red =>
    rcases h with h | h
    · cases h with | red hl hr => exact hp.of_red.fill hr
    · cases h with | red hl hr => exact hp.of_red.fill hl
  | black =>
    rcases h with h | h
    · cases h with | black hl hr => exact hp.eraseColor hr.short
    · cases h with | black hl hr => exact hp.eraseColor hl.short

theorem RbPath.Fits.spliceMin (hp : p.Fits c n) (h : (node c l v r).Balanced c n) :
    (RbPath.spliceMin c l v r p).RedBlack := by
  induction l generalizing c v r p n with
  | nil => exact hp.splice (.inl h)
  | node c' l' v' r' ihl _ =>
    unfold RbPath.spliceMin
    cases h with
    | red hl hr =>
      have hup := RbPath.Fits.redLeft (v := v) hr hp
      cases hl with | black hl' hr' =>
      exact ihl hup (.black hl' hr')
    | black hl hr =>
      have hup : ∀ c', (left .black p v r).Fits c' _ := fun c' => .blackLeft hr hp
      cases hl with
      | red hl' hr' => exact ihl (hup _) (.red hl' hr')
      | black hl' hr' => exact ihl (hup _) (.black hl' hr')

theorem RbRoot.RedBlack.erase {x : Loc α} (h : x.tree.RedBlack) : x.erase.RedBlack := by
  obtain ⟨p, c, l, v, r⟩ := x
  obtain ⟨c', n, hp, hx⟩ := h.unfill
  obtain rfl : c = c' := by cases hx <;> rfl
  dsimp only at hp hx
  cases l with
  | nil => exact hp.splice (.inl hx)
  | node lc ll lv lr =>
    cases r with
    | nil => exact hp.splice (.inr hx)
    | node rc rl rv rr =>
      show (RbPath.spliceMin rc rl rv rr _).RedBlack
      cases hx with
      | red hl hr =>
        have hup := RbPath.Fits.redRight (v := minVal rl rv) hl hp
        cases hr with | black hl' hr' =>
        exact hup.spliceMin (.black hl' hr')
      | black hl hr =>
        have hup : ∀ c', (right .black (node lc ll lv lr) (minVal rl rv) p).Fits c' _ :=
          fun c' => .blackRight hl hp
        cases hr with
        | red hl' hr' => exact (hup _).spliceMin (.red hl' hr')
        | black hl' hr' => exact (hup _).spliceMin (.black hl' hr')

/-- A node without a left child has at most a leaf on its right. -/
theorem RbRoot.RedBlack.leaf_of_nil {x : Loc α} (h : x.tree.RedBlack) (hl : x.l = nil) :
    x.r = nil ∨ ∃ c w, x.r = node c nil w nil := by
  obtain ⟨p, c, l, v, r⟩ := x
  obtain ⟨c', n, -, hx⟩ := h.unfill
  obtain rfl : c = c' := by cases hx <;> rfl
  obtain rfl : l = nil := hl
  dsimp only at hx ⊢
  cases hx with
  | red hl hr =>
    cases hl
    cases hr
    exact .inl rfl
  | black hl hr =>
    cases hl
    cases hr with
    | nil => exact .inl rfl
    | red hl' hr' =>
      cases hl'
      cases hr'
      exact .inr ⟨_, _, rfl⟩

end Rule

/-! ## Runs of entries -/

/-- The entry with `P` that is nearest to the root has none with `P` on its left. -/
def RbRoot.Tops (P : α → Prop) : RbRoot α → Prop
  | nil => True
  | node _ l v r => (P v ∧ ∀ w ∈ l.toList, ¬ P w) ∨ ¬ P v ∧ l.Tops P ∧ r.Tops P

/-- No entry of the path, and none of what hangs off it, has `P`. -/
def RbPath.Clear (P : α → Prop) (p : RbPath α) : Prop := ∀ w, w ∈ p.before ∨ w ∈ p.after → ¬ P w

/-- The hole is on the right of an entry with `P` that has none with `P` on its left or above. -/
inductive RbPath.Under (P : α → Prop) : RbPath α → Prop where
  | here {c : Color} {l : RbRoot α} {v : α} {up : RbPath α} (hv : P v) (hl : ∀ w ∈ l.toList, ¬ P w)
      (hup : up.Clear P) : Under P (right c l v up)
  | left {c : Color} {up : RbPath α} {v : α} {r : RbRoot α} (hup : up.Under P) :
      Under P (left c up v r)
  | right {c : Color} {l : RbRoot α} {v : α} {up : RbPath α} (hup : up.Under P) :
      Under P (right c l v up)

section Runs

variable {P : α → Prop} {t s l r : RbRoot α} {p : RbPath α} {c : Color} {v : α}

theorem tops_of_none (h : ∀ w ∈ t.toList, ¬ P w) : t.Tops P := by
  induction t with
  | nil => trivial
  | node c l v r ihl ihr =>
    rw [toList_node] at h
    exact .inr ⟨h v (by simp), ihl fun w hw => h w (by simp [hw]),
      ihr fun w hw => h w (by simp [hw])⟩

theorem RbRoot.Tops.setBlack (h : t.Tops P) : t.setBlack.Tops P := by
  cases t <;> exact h

theorem RbPath.Clear.of_left (h : (left c p v r).Clear P) :
    ¬ P v ∧ (∀ w ∈ r.toList, ¬ P w) ∧ p.Clear P := by
  refine ⟨h v (.inr (by simp [after])), fun w hw => h w (.inr (by simp [after, hw])),
    fun w hw => ?_⟩
  rcases hw with hw | hw
  · exact h w (.inl (by simp [before, hw]))
  · exact h w (.inr (by simp [after, hw]))

theorem RbPath.Clear.of_right (h : (right c l v p).Clear P) :
    ¬ P v ∧ (∀ w ∈ l.toList, ¬ P w) ∧ p.Clear P := by
  refine ⟨h v (.inl (by simp [before])), fun w hw => h w (.inl (by simp [before, hw])),
    fun w hw => ?_⟩
  rcases hw with hw | hw
  · exact h w (.inl (by simp [before, hw]))
  · exact h w (.inr (by simp [after, hw]))

theorem RbPath.Clear.fill (hp : p.Clear P) (ht : t.Tops P) : (p.fill t).Tops P := by
  induction p generalizing t with
  | root => exact ht
  | left c up v r ih =>
    obtain ⟨hv, hr, hup⟩ := hp.of_left
    exact ih hup (.inr ⟨hv, ht, tops_of_none hr⟩)
  | right c l v up ih =>
    obtain ⟨hv, hl, hup⟩ := hp.of_right
    exact ih hup (.inr ⟨hv, tops_of_none hl, ht⟩)

theorem RbPath.Under.fill (hp : p.Under P) (t : RbRoot α) : (p.fill t).Tops P := by
  induction hp generalizing t with
  | here hv hl hup => exact hup.fill (.inl ⟨hv, hl⟩)
  | left _ ih => exact ih _
  | right _ ih => exact ih _

theorem forall_setRed (h : ∀ w ∈ t.toList, ¬ P w) : ∀ w ∈ t.setRed.toList, ¬ P w := by
  rwa [toList_setRed]

theorem tops_borrowRight {t' : RbRoot α} (ht : t.Tops P) (hv : ¬ P v) (hs : ∀ w ∈ s.toList, ¬ P w)
    (h : borrowRight c t v s = some t') : t'.Tops P := by
  unfold borrowRight at h
  split at h
  · cases h
  next ol ov or =>
    have hol : ol.Tops P := tops_of_none fun w hw => hs w (by simp [hw])
    have hor : or.Tops P := tops_of_none fun w hw => hs w (by simp [hw])
    have hov := hs ov (by simp)
    split at h
    · cases h
      exact .inr ⟨hov, .inr ⟨hv, ht, hol⟩, hor.setBlack⟩
    · split at h
      next oll olv olr =>
        cases h
        rcases hol with ⟨holv, -⟩ | ⟨holv, holl, holr⟩
        · exact absurd holv (hs olv (by simp))
        · exact .inr ⟨holv, .inr ⟨hv, ht, holl⟩, .inr ⟨hov, holr, hor⟩⟩
      · cases h

theorem tops_borrowLeft {t' : RbRoot α} (hvt : P v ∨ ¬ P v ∧ t.Tops P)
    (hs : ∀ w ∈ s.toList, ¬ P w) (h : borrowLeft c t v s = some t') : t'.Tops P := by
  unfold borrowLeft at h
  split at h
  · cases h
  next ol ov or =>
    have hol : ol.Tops P := tops_of_none fun w hw => hs w (by simp [hw])
    have hov := hs ov (by simp)
    have hbelow : ∀ {u : RbRoot α}, (∀ w ∈ u.toList, ¬ P w) → (node .black u v t).Tops P :=
      fun hu => hvt.imp (fun hv => ⟨hv, hu⟩) fun ⟨hv, ht⟩ => ⟨hv, tops_of_none hu, ht⟩
    split at h
    · cases h
      exact .inr ⟨hov, hol.setBlack, hbelow fun w hw => hs w (by simp [hw])⟩
    · split at h
      next orl orv orr =>
        cases h
        have horl : orl.Tops P := tops_of_none fun w hw => hs w (by simp [hw])
        exact .inr ⟨hs orv (by simp), .inr ⟨hov, hol, horl⟩, hbelow fun w hw => hs w (by simp [hw])⟩
      · cases h

/-- Rebalancing above a run of entries leaves the run as it is. -/
theorem RbPath.Clear.eraseColor (hp : p.Clear P) (ht : t.Tops P) : (p.eraseColor t).Tops P := by
  induction p generalizing t with
  | root => exact ht.setBlack
  | left c up v s ih =>
    obtain ⟨hv, hs, hup⟩ := hp.of_left
    unfold RbPath.eraseColor
    split
    · exact hp.fill ht.setBlack
    split
    next ol ov or =>
      have hol : ∀ w ∈ ol.toList, ¬ P w := fun w hw => hs w (by simp [hw])
      have hup' : (left .black up ov or).Clear P := fun w hw =>
        hp w (hw.imp id fun hw => by simp [after] at hw ⊢; tauto)
      split
      next hb => exact (hup'.fill (tops_borrowRight ht hv hol hb)).setBlack
      next => exact hup'.fill (.inr ⟨hv, ht, tops_of_none (forall_setRed hol)⟩)
    · split
      next hb => exact (hup.fill (tops_borrowRight ht hv hs hb)).setBlack
      next => exact ih hup (.inr ⟨hv, ht, tops_of_none (forall_setRed hs)⟩)
  | right c s v up ih =>
    obtain ⟨hv, hs, hup⟩ := hp.of_right
    unfold RbPath.eraseColor
    split
    · exact hp.fill ht.setBlack
    split
    next ol ov or =>
      have hor : ∀ w ∈ or.toList, ¬ P w := fun w hw => hs w (by simp [hw])
      have hup' : (right .black ol ov up).Clear P := fun w hw =>
        hp w (hw.imp (fun hw => by simp [before] at hw ⊢; tauto) id)
      split
      next hb => exact (hup'.fill (tops_borrowLeft (.inr ⟨hv, ht⟩) hor hb)).setBlack
      next => exact hup'.fill (.inr ⟨hv, tops_of_none (forall_setRed hor), ht⟩)
    · split
      next hb => exact (hup.fill (tops_borrowLeft (.inr ⟨hv, ht⟩) hs hb)).setBlack
      next => exact ih hup (.inr ⟨hv, tops_of_none (forall_setRed hs), ht⟩)

/-- Rebalancing below the first entry of a run, and above, keeps it on top of the run. -/
theorem RbPath.Under.eraseColor (hp : p.Under P) (t : RbRoot α) : (p.eraseColor t).Tops P := by
  induction hp generalizing t with
  | @here c s v up hv hs hup =>
    unfold RbPath.eraseColor
    split
    · exact (Under.here hv hs hup).fill _
    split
    next ol ov or =>
      have hor : ∀ w ∈ or.toList, ¬ P w := fun w hw => hs w (by simp [hw])
      have hup' : (RbPath.right .black ol ov up).Clear P := fun w hw => by
        rcases hw with hw | hw
        · simp only [before, List.mem_append, List.mem_singleton] at hw
          rcases hw with (hw | hw) | rfl
          · exact hup w (.inl hw)
          · exact hs w (by simp [hw])
          · exact hs w (by simp)
        · exact hup w (.inr hw)
      split
      next hb => exact (hup'.fill (tops_borrowLeft (.inl hv) hor hb)).setBlack
      next => exact hup'.fill (.inl ⟨hv, forall_setRed hor⟩)
    · split
      next hb => exact (hup.fill (tops_borrowLeft (.inl hv) hs hb)).setBlack
      next => exact hup.eraseColor (.inl ⟨hv, forall_setRed hs⟩)
  | @left c up v s hup ih =>
    unfold RbPath.eraseColor
    split
    · exact hup.left.fill _
    split
    · split
      · exact (hup.left.fill _).setBlack
      · exact hup.left.fill _
    · split
      · exact (hup.fill _).setBlack
      · exact ih _
  | @right c s v up hup ih =>
    unfold RbPath.eraseColor
    split
    · exact hup.right.fill _
    split
    · split
      · exact (hup.right.fill _).setBlack
      · exact hup.right.fill _
    · split
      · exact (hup.fill _).setBlack
      · exact ih _

theorem RbPath.Under.splice (hp : p.Under P) (c : Color) (t : RbRoot α) :
    (RbPath.splice c p t).Tops P := by
  cases c with
  | red => exact hp.fill t
  | black => exact hp.eraseColor t

theorem RbPath.Clear.splice (hp : p.Clear P) (c : Color) (ht : t.Tops P) :
    (RbPath.splice c p t).Tops P := by
  cases c with
  | red => exact hp.fill ht
  | black => exact hp.eraseColor ht

theorem RbPath.Under.spliceMin (hp : p.Under P) (c : Color) (l : RbRoot α) (v : α) (r : RbRoot α) :
    (RbPath.spliceMin c l v r p).Tops P := by
  induction l generalizing c v r p with
  | nil => exact hp.splice c r
  | node c' l' v' r' ihl _ => exact ihl hp.left c' v' r'

/-- When the first entry of a run is taken out, the next one is on top of what is left of the run:
it takes the place of the first, and the rotations do not lift another one above it. -/
theorem tops_erase {x : Loc α} (h : x.tree.RedBlack) (hpath : x.path.Clear P)
    (hl : ∀ w ∈ x.l.toList, ¬ P w)
    (hmin : ∀ w ∈ x.r.toList, P w → ∀ u us, x.r.toList = u :: us → P u) : x.erase.Tops P := by
  have hleaf := h.leaf_of_nil
  obtain ⟨p, c, l, v, r⟩ := x
  dsimp only at hpath hl hmin hleaf
  cases l with
  | nil =>
    refine hpath.splice c ?_
    rcases hleaf rfl with rfl | ⟨c', w, rfl⟩
    · trivial
    · by_cases hw : P w
      · exact .inl ⟨hw, fun _ h => by cases h⟩
      · exact .inr ⟨hw, trivial, trivial⟩
  | node lc ll lv lr =>
    cases r with
    | nil => exact hpath.splice c (tops_of_none hl)
    | node rc rl rv rr =>
      show (RbPath.spliceMin rc rl rv rr _).Tops P
      obtain ⟨rest, hrest, hsp⟩ := toList_spliceMin rc rl rv rr
        (.right c (node lc ll lv lr) (minVal rl rv) p)
      by_cases hex : ∃ w ∈ (node rc rl rv rr).toList, P w
      · obtain ⟨w, hw, hPw⟩ := hex
        have hP : P (minVal rl rv) := hmin w hw hPw _ _ hrest
        exact (Under.here hP hl hpath).spliceMin ..
      · refine tops_of_none fun w hw hPw => ?_
        rw [hsp] at hw
        simp only [before, after, List.mem_append, List.mem_singleton] at hw
        rcases hw with (((hw | hw) | rfl) | hw) | hw
        · exact hpath w (.inl hw) hPw
        · exact hl w hw hPw
        · exact hex ⟨_, by rw [toList_node, hrest]; exact List.mem_cons_self .., hPw⟩
        · exact hex ⟨_, by rw [toList_node, hrest]; exact List.mem_cons_of_mem _ hw, hPw⟩
        · exact hpath w (.inr hw) hPw

end Runs

/-! ## Searching a run -/

section Search

variable {cut : α → Ordering} {t : RbRoot α} {x : Loc α}

/-- Outside of the subtree a search ends at there is no hit. -/
theorem clear_of_find (hm : MonoCut cut t.toList) (h : t.find cut = some x) :
    x.path.Clear (cut · = .eq) := by
  have hz := zoom_cut (p := .root) hm (by simp [before]) (by simp [after])
  unfold find at h
  split at h
  next c l v r p hzoom =>
    cases h
    rw [hzoom] at hz
    rintro w (hw | hw) heq
    · rw [hz.1 w hw] at heq; cases heq
    · rw [hz.2 w hw] at heq; cases heq
  next => cases h

theorem RbRoot.Tops.congr {P Q : α → Prop} (h : t.Tops P) (hPQ : ∀ w ∈ t.toList, P w ↔ Q w) :
    t.Tops Q := by
  induction t with
  | nil => trivial
  | node c l v r ihl ihr =>
    have hv := hPQ v (by simp)
    have hl : ∀ w ∈ l.toList, P w ↔ Q w := fun w hw => hPQ w (by simp [hw])
    rcases h with ⟨hPv, hno⟩ | ⟨hPv, htl, htr⟩
    · exact .inl ⟨hv.mp hPv, fun w hw hQ => hno w hw ((hl w hw).mpr hQ)⟩
    · exact .inr ⟨fun hQ => hPv (hv.mpr hQ), ihl htl hl, ihr htr fun w hw => hPQ w (by simp [hw])⟩

theorem left_of_tops {p : RbPath α} (ht : t.Tops (cut · = .eq)) {c : Color} {l r : RbRoot α}
    {v : α} {p' : RbPath α} (h : zoom cut t p = (node c l v r, p')) :
    ∀ w ∈ l.toList, cut w ≠ .eq := by
  induction t generalizing p with
  | nil => cases h
  | node c' l' v' r' ihl ihr =>
    unfold zoom at h
    cases hv : cut v' with
    | eq =>
      rw [hv] at h
      cases h
      rcases ht with ⟨-, hno⟩ | ⟨hne, -⟩
      · exact hno
      · exact absurd hv hne
    | lt =>
      rw [hv] at h
      rcases ht with ⟨heq, -⟩ | ⟨-, hl, -⟩
      · rw [hv] at heq; cases heq
      · exact ihl hl h
    | gt =>
      rw [hv] at h
      rcases ht with ⟨heq, -⟩ | ⟨-, -, hr⟩
      · rw [hv] at heq; cases heq
      · exact ihr hr h

/-- If the first hit is on top, it is the one a search ends at. -/
theorem first_of_tops (hm : MonoCut cut t.toList) (ht : t.Tops (cut · = .eq))
    (h : t.find cut = some x) : ∀ w ∈ x.before, cut w ≠ .eq := by
  have hclear := clear_of_find hm h
  unfold find at h
  split at h
  next c l v r p hzoom =>
    cases h
    intro w hw
    rcases List.mem_append.mp hw with hw | hw
    · exact hclear w (.inl hw)
    · exact left_of_tops ht hzoom w hw
  next => cases h

/-- When a search ends at the first hit and this node is taken out, the search among the others ends
at the first one that is left. -/
theorem first_of_erase {cut' : α → Ordering} {y : Loc α} (h : t.RedBlack)
    (hm : MonoCut cut t.toList) (hx : t.find cut = some x) (hfirst : ∀ w ∈ x.before, cut w ≠ .eq)
    (hm' : MonoCut cut' x.erase.toList)
    (hcut : ∀ w ∈ x.erase.toList, cut w = .eq ↔ cut' w = .eq)
    (hy : x.erase.find cut' = some y) : ∀ w ∈ y.before, cut' w ≠ .eq := by
  obtain ⟨htree, hval⟩ := find_some hx
  refine first_of_tops hm' (RbRoot.Tops.congr ?_ hcut) hy
  refine tops_erase (htree ▸ h) (clear_of_find hm hx)
    (fun w hw => hfirst w (List.mem_append_right _ hw)) fun w hw hPw u us hus => ?_
  -- the entry is between two hits
  rw [← htree, toList_tree, Loc.after] at hm
  have hvr := (List.pairwise_append.mp hm).2.1
  obtain ⟨hvu, hr⟩ := List.pairwise_cons.mp hvr
  have hr' := (List.pairwise_append.mp hr).1
  rw [hus] at hr' hw
  have hlt : cut u ≠ .lt := by
    rcases List.mem_cons.mp hw with rfl | hw
    · rw [hPw]; decide
    · exact ((List.pairwise_cons.mp hr').1 w hw).1 (by rw [hPw]; decide)
  have hgt : cut u ≠ .gt := fun hgt => by
    have hu : u ∈ x.r.toList ++ x.path.after := by rw [hus]; simp
    rw [(hvu u hu).2 hgt] at hval
    cases hval
  cases hc : cut u with
  | eq => rfl
  | lt => exact absurd hc hlt
  | gt => exact absurd hc hgt

end Search

end RbTree
