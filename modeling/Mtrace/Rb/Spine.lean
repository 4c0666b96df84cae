import Mtrace.Rb.Erase
import Mtrace.Rb.Walks

/-!
# The way down on one side

The nodes from a subtree down to its first or its last one, which the source follows in loops of one
line, and the removal of a node with two children, whose successor stands at the end of that way.

1. `extend`: a path continued on one side, and the cells of the part that was added.
2. `Mem.deepest`.
3. `Mem.rbErase`.
-/

namespace Mtrace.Rb

open RbTree
open RbTree.RbRoot (nil)

/-- The nodes on the way down a side, each with its colour and its other subtree. -/
abbrev Spine := List (Color × Ptr × RbRoot Ptr)

/-- The hole at the end of the way. -/
def extend (s : Side) : Spine → RbPath Ptr → RbPath Ptr
  | [], p => p
  | (c, a, y) :: ls, p => extend s ls (hole s c p a y)

/-- The pointer to the first node of the way. -/
def spinePtr : Spine → Ptr → Ptr
  | [], x => x
  | (_, a, _) :: _, _ => a

/-- The parent of what stands at the end of the way. -/
def spineEnd : Spine → Ptr → Ptr
  | [], up => up
  | (_, a, _) :: ls, _ => spineEnd ls a

/-- The nodes of the way and their other subtrees. -/
def spineCells (s : Side) : Spine → Ptr → Ptr → Cells
  | [], _, _ => 0
  | (c, a, y) :: ls, up, x =>
    {(a, cell s (word up c) (spinePtr ls x) (ptr y))} + (cells y a + spineCells s ls a x)

section Spine

variable {s : Side} {p : RbPath Ptr} {x z a up : Ptr} {t : RbRoot Ptr}

theorem parentPtr_extend (ls : Spine) (p : RbPath Ptr) :
    parentPtr (extend s ls p) = spineEnd ls (parentPtr p) := by
  induction ls generalizing p with
  | nil => exact rfl
  | cons e ls ih =>
    obtain ⟨c, a, y⟩ := e
    rw [extend, ih, parentPtr_hole]
    exact rfl

theorem topPtr_extend (ls : Spine) (p : RbPath Ptr) (x : Ptr) :
    topPtr (extend s ls p) x = topPtr p (spinePtr ls x) := by
  induction ls generalizing p with
  | nil => exact rfl
  | cons e ls ih =>
    obtain ⟨c, a, y⟩ := e
    rw [extend, ih, topPtr_hole]
    exact rfl

theorem pathCells_extend (ls : Spine) (p : RbPath Ptr) (x : Ptr) :
    pathCells (extend s ls p) x =
      spineCells s ls (parentPtr p) x + pathCells p (spinePtr ls x) := by
  induction ls generalizing p with
  | nil => exact (zero_add _).symm
  | cons e ls ih =>
    obtain ⟨c, a, y⟩ := e
    rw [extend, ih, pathCells_hole, parentPtr_hole]
    simp only [spineCells, spinePtr]
    abel

theorem depth_extend (ls : Spine) (p : RbPath Ptr) :
    depth (extend s ls p) = ls.length + depth p := by
  induction ls generalizing p with
  | nil => exact (Nat.zero_add _).symm
  | cons e ls ih =>
    obtain ⟨c, a, y⟩ := e
    rw [extend, ih, depth_hole, List.length_cons]
    omega

/-- The parent of the end is on the way, if there is one. -/
theorem spineEnd_mem {ls : Spine} (hls : ls ≠ []) :
    spineEnd ls up ∈ (spineCells s ls z x).map Prod.fst := by
  induction ls generalizing up z with
  | nil => exact absurd rfl hls
  | cons e ls ih =>
    obtain ⟨c, a, y⟩ := e
    rw [spineCells, Chunks.keys_singleton_add, Multiset.mem_cons, Multiset.map_add,
      Multiset.mem_add]
    by_cases hnil : ls = []
    · subst hnil
      exact .inl rfl
    · exact .inr (.inr (ih hnil))

end Spine

namespace Mem.Has

variable {base : Ptr → Option RbNode} {S : Cells} {r a b x up : Ptr} {m : Mem} {s : Side}
  {ls : Spine} {far : Ptr} {w : UInt64} {fuel : ℕ}

/-- The loop ends at the end of the way. -/
theorem deepest (h : m.Has base (spineCells s ls up b + ({(b, cell s w 0 far)} + S)) r)
    (hfuel : ls.length < fuel) : m.deepest fuel (spinePtr ls b) s = some b := by
  induction fuel generalizing ls up S with
  | zero => exact absurd hfuel (Nat.not_lt_zero _)
  | succ fuel ih =>
    cases ls with
    | nil =>
      rw [spineCells, zero_add] at h
      rw [Mem.deepest, spinePtr, h.get, Option.bind_eq_bind, Option.bind_some, child_cell]
      exact if_pos rfl
    | cons e ls =>
      obtain ⟨c, a, y⟩ := e
      rw [spineCells, add_assoc] at h
      have hnext : m.Has base (spineCells s ls a b + ({(b, cell s w 0 far)} +
          ({(a, _)} + (cells y a + S)))) r := h.congr (by abel)
      have hne : spinePtr ls b ≠ 0 := by
        cases ls with
        | nil =>
          rw [spineCells, zero_add] at hnext
          exact hnext.valid_cell.ne
        | cons e ls =>
          rw [spineCells, add_assoc] at hnext
          exact hnext.valid_cell.ne
      rw [Mem.deepest, spinePtr, h.get, Option.bind_eq_bind, Option.bind_some, child_cell,
        if_neg hne]
      exact ih hnext (Nat.lt_of_succ_lt_succ hfuel)

/-- The first node of the way gets another parent. -/
theorem spineParent (h : m.Has base (spineCells s ls up x + S) r) (hls : ls ≠ [])
    (hup : up &&& 3 = 0) (up' : Ptr) :
    ∃ m', m.setParent (spinePtr ls x) up' = some m' ∧
      m'.Has base (spineCells s ls up' x + S) r := by
  cases ls with
  | nil => exact absurd rfl hls
  | cons e ls =>
    obtain ⟨c, a, y⟩ := e
    rw [spineCells, add_assoc] at h ⊢
    exact h.setParent hup up'

/-- The last node of the way gets another child. -/
theorem spineChild (h : m.Has base (spineCells s ls up x + S) r) (hls : ls ≠ []) (z : Ptr) :
    ∃ m', m.setChild (spineEnd ls up) z s = some m' ∧
      m'.Has base (spineCells s ls up z + S) r := by
  induction ls generalizing up S with
  | nil => exact absurd rfl hls
  | cons e ls ih =>
    obtain ⟨c, a, y⟩ := e
    by_cases hnil : ls = []
    · subst hnil
      rw [spineCells, add_assoc] at h ⊢
      exact h.setChild z
    · have hptr (w : Ptr) : spinePtr ls w = spinePtr ls x := by
        cases ls with
        | nil => exact absurd rfl hnil
        | cons e ls => rfl
      rw [spineCells] at h ⊢
      have hrest : m.Has base (spineCells s ls a x +
          ({(a, cell s (word up c) (spinePtr ls x) (ptr y))} + (cells y a + S))) r :=
        h.congr (by abel)
      obtain ⟨m', hm', h'⟩ := ih hrest hnil
      refine ⟨m', hm', ?_⟩
      rw [hptr z]
      exact h'.congr (by abel)

end Mem.Has

/-! ## The successor -/

/-- The way to the entry `spliceMin` takes out. -/
theorem exists_min (c : Color) (l : RbRoot Ptr) (v : Ptr) (y : RbRoot Ptr) :
    ∃ ls bc br, (∀ p : RbPath Ptr, p.fill (.node c l v y) =
        (extend .left ls p).fill (.node bc nil (RbPath.minVal l v) br)) ∧
      ∀ p, RbPath.spliceMin c l v y p = RbPath.splice bc (extend .left ls p) br := by
  induction l generalizing c v y with
  | nil => exact ⟨[], c, y, fun p => rfl, fun p => rfl⟩
  | node c' l' v' y' ihl _ =>
    obtain ⟨ls, bc, br, hfill, hsplice⟩ := ihl c' v' y'
    exact ⟨(c, v, y) :: ls, bc, br, fun p => hfill (.left c p v y), fun p => hsplice _⟩

/-- The rule above a hole says nothing of the entries. -/
theorem fits_extend {s : Side} {p p' : RbPath Ptr} {c : Color} {n : ℕ} (ls : Spine)
    (h : ∀ c n, p.Fits c n → p'.Fits c n) (hfits : (extend s ls p).Fits c n) :
    (extend s ls p').Fits c n := by
  induction ls generalizing p p' with
  | nil => exact h c n hfits
  | cons e ls ih =>
    obtain ⟨c', a, y⟩ := e
    refine ih (fun c n hp => ?_) hfits
    cases c' with
    | red =>
      obtain ⟨rfl, hy, hup⟩ := fits_red hp
      cases s with
      | left => exact .redLeft hy (h _ _ hup)
      | right => exact .redRight hy (h _ _ hup)
    | black =>
      obtain ⟨⟨_, hy⟩, hup⟩ := fits_black hp
      exact hole_fits_black hy (h _ _ hup)

theorem fits_hole {p : RbPath Ptr} {s : Side} {c c' : Color} {n : ℕ} {a : Ptr} {y : RbRoot Ptr}
    (h : (hole s c p a y).Fits c' n) (b : Ptr) : (hole s c p b y).Fits c' n := by
  cases c with
  | red =>
    obtain ⟨rfl, hy, hup⟩ := fits_red h
    cases s with
    | left => exact .redLeft hy hup
    | right => exact .redRight hy hup
  | black =>
    obtain ⟨⟨_, hy⟩, hup⟩ := fits_black h
    exact hole_fits_black hy hup

/-! ## `rb_erase` -/

namespace Mem.Has

variable {base : Ptr → Option RbNode} {a b : Ptr} {m : Mem} {s : Side} {c : Color}
  {p : RbPath Ptr} {t l : RbRoot Ptr} {n fuel : ℕ}

/-- The end of `rb_erase`: a black node is missed. -/
theorem splice (h : m.Rep base (p.fill t)) (hp : p.Fits c n)
    (ht : (build s c nil a t).Balanced c n) (hfuel : depth p < fuel) :
    ∃ m', (if bit c = 1 then m.rbEraseColor fuel (ptr t) (parentPtr p) else some m) = some m' ∧
      m'.Rep base (RbPath.splice c p t) := by
  cases c with
  | red => exact ⟨m, if_neg (by decide), h⟩
  | black =>
    obtain ⟨-, k, c₁, c₂, rfl, -, hbal⟩ := balanced_black ht
    rw [if_pos (show bit .black = 1 from rfl)]
    exact h.rbEraseColor hp hbal.short hfuel

/-- A node with at most one child: the child takes its place. -/
theorem eraseOuter (h : m.Rep base (p.fill (build s c nil a t)))
    (hrule : (p.fill (build s c nil a t)).RedBlack) (hfuel : depth p < fuel) :
    ∃ m', m.eraseOuter fuel a (cell s (word (parentPtr p) c) 0 (ptr t)) (ptr t) = some m' ∧
      m'.Rep (Function.update base a (m.node a)) (RbPath.splice c p t) := by
  have ha := h.getHole
  rw [rep_fill, cells_build, ptr_build] at h
  have hsub : m.Has base (cells t a + (pathCells p a +
      {(a, cell s (word (parentPtr p) c) 0 (ptr t))})) (topPtr p a) := h.congr (by
    rw [show cells nil a = 0 from rfl, show ptr nil = 0 from rfl]
    abel)
  obtain ⟨m1, hm1, h1⟩ := hsub.reparent ha.2.2.aligned (parentPtr p)
  have hpath : m1.Has base (pathCells p a + ({(a, cell s (word (parentPtr p) c) 0 (ptr t))} +
      cells t (parentPtr p))) (topPtr p a) := h1.congr (by abel)
  obtain ⟨m2, hm2, h2⟩ := hpath.replace (by simp) (ptr t) .left
  have hcell : m2.Has base ({(a, cell s (word (parentPtr p) c) 0 (ptr t))} +
      (pathCells p (ptr t) + cells t (parentPtr p))) (topPtr p (ptr t)) := h2.congr (by abel)
  have hrep : m2.Rep (Function.update base a (m.node a)) (p.fill t) := by
    rw [ha.1]
    exact rep_fill.mpr ⟨hcell.holds.release, hcell.root, fun b hb => hcell.valid b
      (by rw [Chunks.keys_singleton_add]; exact Multiset.mem_cons_of_mem hb)⟩
  obtain ⟨c', n, hp, hbal⟩ := hrule.unfill
  have hc : c' = c := by
    cases c with
    | red => exact (balanced_red hbal).1
    | black => exact (balanced_black hbal).1
  subst hc
  obtain ⟨m3, hm3, h3⟩ := hrep.splice hp hbal hfuel
  refine ⟨m3, ?_, h3⟩
  unfold Mem.eraseOuter
  simp only [Option.bind_eq_bind, rbParent_cell ha.2.1, rbColor_cell ha.2.1, hm1, Option.bind_some,
    hm2]
  exact hm3

theorem setParent_ptr {S : Cells} {r up : Ptr} (h : m.Has base (cells t up + S) r) (ht : t ≠ nil)
    (hup : up &&& 3 = 0) (up' : Ptr) :
    ∃ m', m.setParent (ptr t) up' = some m' ∧ m'.Has base (cells t up' + S) r := by
  obtain ⟨m', hm', h'⟩ := h.reparent hup up'
  have hne : ptr t ≠ 0 := (h.valid_left (ptr_mem_keys ht)).ne
  unfold Mem.reparent at hm'
  rw [if_neg hne] at hm'
  exact ⟨m', hm', h'⟩

/-- The place of the successor is closed, and the successor takes over the right subtree. -/
theorem eraseSucc {S : Cells} {r : Ptr} {ls : Spine} {w : UInt64} {left : Ptr}
    (h : m.Has base (spineCells .left ls a b + ({(a, ⟨w, spinePtr ls b, left⟩)} +
      ({(b, ⟨word (spineEnd ls a) c, ptr t, 0⟩)} + (cells t b + S)))) r) :
    ∃ m', m.eraseSucc a b (ptr t) (spineEnd ls a) = some (m', spineEnd ls b) ∧
      m'.Has base (spineCells .left ls b (ptr t) + ({(a, ⟨w, spinePtr ls b, left⟩)} +
        ({(b, ⟨word (spineEnd ls a) c, spinePtr ls (ptr t), 0⟩)} +
          (cells t (spineEnd ls b) + S)))) r := by
  cases ls with
  | nil => exact ⟨m, if_pos rfl, h⟩
  | cons e ls =>
    set sp : Spine := e :: ls with hsp
    have hls : sp ≠ [] := nofun
    have hend : spineEnd sp b = spineEnd sp a := rfl
    have hptr : spinePtr sp (ptr t) = spinePtr sp b := rfl
    have hne : spineEnd sp a ≠ a := h.ne_of_mem (spineEnd_mem hls) (by simp)
    have haligned (x : Ptr) (hx : x ∈ [a, b]) : x &&& 3 = 0 := by
      refine (h.valid_right ?_).aligned
      simp only [List.mem_cons, List.not_mem_nil, or_false] at hx
      rcases hx with rfl | rfl <;> simp
    have h0 : m.Has base (cells t b + (spineCells .left sp a b +
        ({(a, ⟨w, spinePtr sp b, left⟩)} + ({(b, ⟨word (spineEnd sp a) c, ptr t, 0⟩)} + S)))) r :=
      h.congr (by abel)
    obtain ⟨m1, hm1, h1⟩ := h0.reparent (haligned b (by simp)) (spineEnd sp a)
    have h1' := h1.congr (add_left_comm _ _ _)
    obtain ⟨m2, hm2, h2⟩ := h1'.spineChild hls (ptr t)
    have h2a : m2.Has base ({(a, ⟨w, spinePtr sp b, left⟩)} + (spineCells .left sp a (ptr t) +
        (cells t (spineEnd sp a) + ({(b, ⟨word (spineEnd sp a) c, ptr t, 0⟩)} + S)))) r :=
      h2.congr (by abel)
    have h2b : m2.Has base ({(b, cell .right (word (spineEnd sp a) c) (ptr t) 0)} +
        (spineCells .left sp a (ptr t) + (cells t (spineEnd sp a) +
          ({(a, ⟨w, spinePtr sp b, left⟩)} + S)))) r := h2.congr (by unfold cell; abel)
    obtain ⟨m3, hm3, h3⟩ := h2b.setChild (spinePtr sp b)
    have h3' := h3.congr (add_left_comm _ _ _)
    obtain ⟨m4, hm4, h4⟩ := h3'.spineParent hls (haligned a (by simp)) b
    refine ⟨m4, ?_, h4.congr ?_⟩
    · unfold Mem.eraseSucc
      rw [if_neg hne]
      simp only [Option.bind_eq_bind, hm1, Option.bind_some, hm2, h2a.get, hm3]
      rw [← hptr, hm4, Option.bind_some, hend]
    · rw [hend, hptr]
      unfold cell
      abel

/-- The fuel is enough for every hole of the tree. -/
theorem depth_lt {t : RbRoot Ptr} (h : (p.fill t).height < fuel) : depth p < fuel :=
  (Nat.le_of_add_right_le (depth_add_height p t)).trans_lt h

/-- A node with two children: its successor takes its place. -/
theorem eraseInner {rc : Color} {rl rr : RbRoot Ptr} {rv : Ptr}
    (h : m.Rep base (p.fill (.node c l a (.node rc rl rv rr))))
    (hrule : (p.fill (.node c l a (.node rc rl rv rr))).RedBlack) (hl : l ≠ nil)
    (hfuel : (p.fill (.node c l a (.node rc rl rv rr))).height < fuel) :
    ∃ m', m.eraseInner fuel a ⟨word (parentPtr p) c, rv, ptr l⟩ = some m' ∧
      m'.Rep (Function.update base a (m.node a))
        (RbPath.spliceMin rc rl rv rr (.right c l (RbPath.minVal rl rv) p)) := by
  obtain ⟨ls, bc, br, hfill, hsplice⟩ := exists_min rc rl rv rr
  rw [hsplice]
  generalize RbPath.minVal rl rv = b at hfill ⊢
  have htree : p.fill (.node c l a (.node rc rl rv rr)) =
      (extend .left ls (hole .right c p a l)).fill (.node bc nil b br) := hfill (.right c l a p)
  have hfirst : rv = spinePtr ls b := by
    have hptr := congrArg ptr (hfill .root)
    rw [ptr_fill .root, ptr_fill, topPtr_extend] at hptr
    exact hptr
  subst hfirst
  have ha := (show m.Rep base (p.fill (build .left c l a (.node rc rl _ rr))) from h).getHole
  have hup := ha.2.1
  rw [htree] at hrule hfuel
  have hdepth := depth_lt hfuel
  rw [htree, rep_fill, pathCells_extend, pathCells_hole, topPtr_extend, topPtr_hole,
    parentPtr_extend, parentPtr_hole, show ptr (.node bc nil b br) = b from rfl] at h
  set w := word (parentPtr p) c
  have hcells : cells (.node bc nil b br) (spineEnd ls a) =
      {(b, cell .left (word (spineEnd ls a) bc) 0 (ptr br))} + cells br b := by
    rw [cells, show cells nil b = 0 from rfl, zero_add]
    exact rfl
  rw [hcells] at h
  -- the way down ends at the successor
  have hspine : m.Has base (spineCells .left ls a b +
      ({(b, cell .left (word (spineEnd ls a) bc) 0 (ptr br))} +
        (cells br b + ({(a, cell .right w (spinePtr ls b) (ptr l))} +
          (cells l a + pathCells p a))))) (topPtr p a) := h.congr (by abel)
  have hend : spineEnd ls a &&& 3 = 0 := by
    by_cases hls : ls = []
    · subst hls
      exact ha.2.2.aligned
    · exact (hspine.valid_left (spineEnd_mem hls)).aligned
  have hlen : ls.length < fuel := by
    rw [depth_extend] at hdepth
    omega
  have hdeep := hspine.deepest hlen
  have hpath : m.Has base (pathCells p a + ({(a, cell .right w (spinePtr ls b) (ptr l))} +
      (spineCells .left ls a b + ({(b, cell .left (word (spineEnd ls a) bc) 0 (ptr br))} +
        (cells br b + cells l a))))) (topPtr p a) := h.congr (by abel)
  obtain ⟨m1, hm1, h1⟩ := hpath.replace (by simp) b .left
  have hb1 : m1.Has base ({(b, cell .left (word (spineEnd ls a) bc) 0 (ptr br))} +
      (spineCells .left ls a b + ({(a, cell .right w (spinePtr ls b) (ptr l))} +
        (cells br b + (cells l a + pathCells p b))))) (topPtr p b) := h1.congr (by abel)
  have hsucc : m1.Has base (spineCells .left ls a b + ({(a, ⟨w, spinePtr ls b, ptr l⟩)} +
      ({(b, ⟨word (spineEnd ls a) bc, ptr br, 0⟩)} +
        (cells br b + (cells l a + pathCells p b))))) (topPtr p b) := h1.congr (by
    unfold cell
    abel)
  obtain ⟨m2, hm2, h2⟩ := hsucc.eraseSucc
  have ha2 : m2.Has base ({(a, ⟨w, spinePtr ls b, ptr l⟩)} + (spineCells .left ls b (ptr br) +
      ({(b, ⟨word (spineEnd ls a) bc, spinePtr ls (ptr br), 0⟩)} + (cells br (spineEnd ls b) +
        (cells l a + pathCells p b))))) (topPtr p b) := h2.congr (by abel)
  have hb2 : m2.Has base ({(b, ⟨word (spineEnd ls a) bc, spinePtr ls (ptr br), 0⟩)} +
      ({(a, ⟨w, spinePtr ls b, ptr l⟩)} + (spineCells .left ls b (ptr br) +
        (cells br (spineEnd ls b) + (cells l a + pathCells p b))))) (topPtr p b) :=
    h2.congr (by abel)
  -- the successor gets the word and the left subtree
  obtain ⟨m3, hm3, h3⟩ := hb2.modify fun n => { n with rbParentColor := w }
  have hb3 : m3.Has base ({(b, cell .left w 0 (spinePtr ls (ptr br)))} + _) (topPtr p b) := h3
  obtain ⟨m4, hm4, h4⟩ := hb3.setChild (ptr l)
  have hl4 : m4.Has base (cells l a + ({(b, cell .left w (ptr l) (spinePtr ls (ptr br)))} +
      ({(a, ⟨w, spinePtr ls b, ptr l⟩)} + (spineCells .left ls b (ptr br) +
        (cells br (spineEnd ls b) + pathCells p b))))) (topPtr p b) := h4.congr (by abel)
  obtain ⟨m5, hm5, h5⟩ := hl4.setParent_ptr hl ha.2.2.aligned b
  have ha5 : m5.Has base ({(a, ⟨w, spinePtr ls b, ptr l⟩)} +
      (pathCells (extend .left ls (hole .right c p b l)) (ptr br) +
        cells br (parentPtr (extend .left ls (hole .right c p b l))))) (topPtr p b) := h5.congr (by
    rw [pathCells_extend, parentPtr_extend, pathCells_hole, parentPtr_hole]
    unfold cell
    abel)
  have hrep : m5.Rep (Function.update base a (m.node a))
      ((extend .left ls (hole .right c p b l)).fill br) := by
    rw [ha.1]
    refine rep_fill.mpr ⟨ha5.holds.release, ?_, fun x hx => ha5.valid x ?_⟩
    · rw [topPtr_extend, topPtr_hole]
      exact ha5.root
    · rw [Chunks.keys_singleton_add]
      exact Multiset.mem_cons_of_mem hx
  obtain ⟨c', n, hp, hbal⟩ := hrule.unfill
  obtain rfl : c' = bc := by
    cases bc with
    | red => exact (balanced_red (s := .left) hbal).1
    | black => exact (balanced_black (s := .left) hbal).1
  have hfits : (extend .left ls (hole .right c p b l)).Fits _ n :=
    fits_extend ls (fun _ _ hp => fits_hole hp b) hp
  have hdepth' : depth (extend .left ls (hole .right c p b l)) < fuel := by
    rw [depth_extend, depth_hole] at hdepth ⊢
    exact hdepth
  obtain ⟨m6, hm6, h6⟩ := hrep.splice (a := b) (s := .left) hfits hbal hdepth'
  refine ⟨m6, ?_, h6⟩
  have hparent : (⟨w, spinePtr ls b, ptr l⟩ : RbNode).rbParent = parentPtr p :=
    rbParent_cell (s := .left) hup
  have hbparent : (cell .left (word (spineEnd ls a) c') 0 (ptr br)).rbParent = spineEnd ls a :=
    rbParent_cell hend
  have hbcolor : (cell .left (word (spineEnd ls a) c') 0 (ptr br)).rbColor = bit c' :=
    rbColor_cell hend
  rw [parentPtr_extend, parentPtr_hole] at hm6
  unfold Mem.eraseInner
  rw [hdeep, hparent]
  simp only [Option.bind_eq_bind, Option.bind_some, hm1, hb1.get, hbparent, hbcolor]
  rw [show (cell .left (word (spineEnd ls a) c') 0 (ptr br)).rbRight = ptr br from rfl, hm2]
  simp only [Option.bind_some, ha2.get, hm3, hm4, hm5]
  exact hm6

/-- `rb_erase` in the memory is the function on trees; the node itself is left as it was. -/
theorem rbErase {x : Loc Ptr} (h : m.Rep base x.tree) (hrule : x.tree.RedBlack)
    (hfuel : x.tree.height < fuel) :
    ∃ m', m.rbErase fuel x.val = some m' ∧
      m'.Rep (Function.update base x.val (m.node x.val)) x.erase := by
  obtain ⟨p, c, l, a, r⟩ := x
  have ha := (show m.Rep base (p.fill (build .left c l a r)) from h).getHole
  have hl : ptr l = 0 ↔ l = nil := ptr_eq_zero (p := .left c p a r) h
  have hr : ptr r = 0 ↔ r = nil := ptr_eq_zero (p := .right c l a p) h
  have hdepth : depth p < fuel := depth_lt hfuel
  have hcall : m.rbErase fuel a =
      if ptr l = 0 then m.eraseOuter fuel a ⟨word (parentPtr p) c, ptr r, ptr l⟩ (ptr r)
      else if ptr r = 0 then m.eraseOuter fuel a ⟨word (parentPtr p) c, ptr r, ptr l⟩ (ptr l)
      else m.eraseInner fuel a ⟨word (parentPtr p) c, ptr r, ptr l⟩ := by
    rw [Mem.rbErase, ha.1, Option.bind_eq_bind, Option.bind_some]
    exact rfl
  dsimp only
  rw [hcall]
  by_cases hlnil : l = nil
  · subst hlnil
    rw [if_pos (hl.mpr rfl)]
    exact eraseOuter (s := .left) h hrule hdepth
  · rw [if_neg fun heq => hlnil (hl.mp heq)]
    obtain ⟨lc, ll, lv, lr, rfl⟩ := exists_build .left hlnil
    cases r with
    | nil =>
      rw [if_pos (hr.mpr rfl)]
      exact eraseOuter (s := .right) h hrule hdepth
    | node rc rl rv rr =>
      rw [if_neg fun heq => absurd (hr.mp heq) nofun]
      exact h.eraseInner hrule hlnil hfuel

end Mem.Has

end Mtrace.Rb
