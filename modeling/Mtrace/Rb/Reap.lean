import Mtrace.Rb.Walks

/-!
# Freeing a tree

`rbtree_postorder_for_each_entry_safe` around a body that frees the entry it is given: the next
entry is found before the entry is freed, and from nodes that were not freed before.

1. `openCells` and `postRest`: what is left of a path when the subtrees on the left are gone, and
the entries the loop still comes to. 2. `Mem.rbNextPostorder` in such a memory. 3. `Mem.reap`: the
loop. -/

namespace Mtrace.Rb

open RbTree
open RbTree.RbRoot (nil)

/-- `rbtree_postorder_for_each_entry_safe` from `pos` on, with a body that frees `pos`; the entries
it came to. -/
def Mem.reap (fuel : ℕ) : ℕ → Mem → Ptr → Option (Mem × List Ptr)
  | 0, _, _ => none
  | k + 1, m, pos =>
    if pos = 0 then some (m, [])
    else do
      let n ← m.rbNextPostorder fuel pos
      let m ← m.free pos
      (Mem.reap fuel k m n).map (Prod.map id (pos :: ·))

/-- The cells of a path without the subtrees on the left. -/
def openCells : RbPath Ptr → Ptr → Cells
  | .root, _ => 0
  | .left c up a r, x =>
    {(a, ⟨word (parentPtr up) c, ptr r, x⟩)} + (cells r a + openCells up a)
  | .right c l a up, x => {(a, ⟨word (parentPtr up) c, x, ptr l⟩)} + openCells up a

/-- The entries the loop comes to after those of the hole. -/
def postRest : RbPath Ptr → List Ptr
  | .root => []
  | .left _ up a r => r.postorder ++ a :: postRest up
  | .right _ _ a up => a :: postRest up

/-- A subtree on the left that is gone was not where the hole points to. -/
def Apart (p : RbPath Ptr) (x : Ptr) : Prop :=
  match p with
  | .right _ l _ _ => ptr l ≠ x
  | _ => True

/-- A memory without the nodes of a list. -/
def wipe (base : Ptr → Option RbNode) (l : List Ptr) (a : Ptr) : Option RbNode :=
  if a ∈ l then none else base a

section Wipe

variable {base : Ptr → Option RbNode} {l l' : List Ptr} {a : Ptr}

@[simp] theorem wipe_nil : wipe base [] = base := funext fun _ => if_neg List.not_mem_nil

theorem wipe_append : wipe (wipe base l) l' = wipe base (l ++ l') := by
  funext a
  simp only [wipe, List.mem_append]
  by_cases hl' : a ∈ l' <;> by_cases hl : a ∈ l <;> simp [hl, hl']

theorem wipe_singleton : wipe base [a] = Function.update base a none := by
  funext b
  simp only [wipe, List.mem_singleton, Function.update_apply]

end Wipe

theorem postorder_ne_nil {t : RbRoot Ptr} (ht : t ≠ nil) : t.postorder ≠ [] := by
  cases t with
  | nil => exact absurd rfl ht
  | node c l a r => simp [RbRoot.postorder]

theorem headD_append {l : List Ptr} (hl : l ≠ []) (l' : List Ptr) :
    (l ++ l').headD 0 = l.headD 0 := by
  obtain ⟨b, l, rfl⟩ := List.exists_cons_of_ne_nil hl
  exact rfl

namespace Mem.Has

variable {base : Ptr → Option RbNode} {S : Cells} {r a up near far : Ptr} {m : Mem} {c : Color}
  {p : RbPath Ptr} {t : RbRoot Ptr} {fuel k : ℕ}

theorem ptr_ne_zero (h : m.Has base (cells t up + S) r) (ht : t ≠ nil) : ptr t ≠ 0 :=
  (h.valid_left (ptr_mem_keys ht)).ne

/-- The way down leads to the first leaf. -/
theorem leftDeepest (h : m.Has base (cells t up + S) r) (ht : t ≠ nil) (hfuel : t.height ≤ fuel) :
    m.rbLeftDeepestNode fuel (ptr t) = some (t.postorder.headD 0) := by
  induction t generalizing fuel up S with
  | nil => exact absurd rfl ht
  | node c l a y ihl ihr =>
    rw [RbRoot.height] at hfuel
    obtain ⟨fuel, rfl⟩ := Nat.exists_eq_add_of_lt (Nat.zero_lt_of_lt hfuel)
    rw [cells, add_assoc] at h
    have hl : m.Has base (cells l a + (cells y a + ({(a, _)} + S))) r := h.congr (by abel)
    have hy : m.Has base (cells y a + (cells l a + ({(a, _)} + S))) r := h.congr (by abel)
    rw [Nat.zero_add, Mem.rbLeftDeepestNode, ptr, h.get, Option.bind_eq_bind, Option.bind_some,
      RbRoot.postorder, List.append_assoc]
    by_cases hlnil : l = nil
    · subst hlnil
      rw [if_neg (by simp [ptr])]
      by_cases hynil : y = nil
      · subst hynil
        exact if_neg (by simp [ptr])
      · rw [if_pos (hy.ptr_ne_zero hynil), ihr hy hynil (by omega)]
        exact congrArg some (headD_append (postorder_ne_nil hynil) _).symm
    · rw [if_pos (hl.ptr_ne_zero hlnil), ihl hl hlnil (by omega),
        headD_append (postorder_ne_nil hlnil)]

/-- The next entry is found where nothing was freed. -/
theorem nextPostorder (h : m.Has base (openCells p a + {(a, ⟨word (parentPtr p) c, far, near⟩)}) r)
    (hapart : Apart p a) (hfuel : (p.fill t).height ≤ fuel) :
    m.rbNextPostorder fuel a = some ((postRest p).headD 0) := by
  have ha := h.congr (add_comm _ _)
  have hword (hup : parentPtr p &&& 3 = 0) :
      (⟨word (parentPtr p) c, far, near⟩ : RbNode).rbParent = parentPtr p :=
    rbParent_cell (s := .left) hup
  unfold Mem.rbNextPostorder
  rw [if_neg ha.valid_cell.ne, ha.get, Option.bind_eq_bind, Option.bind_some]
  cases p with
  | root =>
    rw [hword rfl]
    exact if_pos rfl
  | left c' q v y =>
    rw [openCells, add_assoc] at h
    have hy : m.Has base (cells y v + (openCells q v + ({(v, _)} + {(a, _)}))) r :=
      h.congr (by abel)
    rw [hword h.valid_cell.aligned, parentPtr, if_neg h.valid_cell.ne, h.get, Option.bind_some]
    by_cases hynil : y = nil
    · subst hynil
      exact if_neg (by simp [ptr])
    · have hheight : y.height ≤ fuel := by
        have hnode : (RbRoot.node c' t v y).height ≤ (q.fill (.node c' t v y)).height :=
          (Nat.le_add_left _ _).trans (depth_add_height q _)
        rw [RbRoot.height] at hnode
        rw [RbPath.fill] at hfuel
        omega
      rw [if_pos ⟨rfl, hy.ptr_ne_zero hynil⟩, hy.leftDeepest hynil hheight]
      exact congrArg some (headD_append (postorder_ne_nil hynil) _).symm
  | right c' l v q =>
    rw [openCells, add_assoc] at h
    rw [hword h.valid_cell.aligned, parentPtr, if_neg h.valid_cell.ne, h.get, Option.bind_some]
    exact if_neg fun heq => hapart heq.1.symm

/-- Freeing an entry. -/
theorem free {n : RbNode} (h : m.Has base ({(a, n)} + S) r) :
    ∃ m', m.free a = some m' ∧ m'.Has (wipe base [a]) S r := by
  refine ⟨⟨Function.update m.node a none, m.root⟩, ?_, ?_, h.root, fun b hb => h.valid_right hb⟩
  · unfold Mem.free
    rw [h.get]
    exact rfl
  · rw [wipe_singleton]
    exact h.holds.drop

/-- The passes over the entries of a subtree. -/
theorem reapTree (h : m.Has base (openCells p (ptr t) + cells t (parentPtr p)) r)
    (hapart : t ≠ nil → Apart p (ptr t)) (hfuel : (p.fill t).height ≤ fuel) :
    ∃ m' : Mem, m'.Has (wipe base t.postorder) (openCells p (ptr t)) r ∧ ∀ k,
      m.reap fuel (t.size + k) ((t.postorder ++ postRest p).headD 0) =
        (m'.reap fuel k ((postRest p).headD 0)).map (Prod.map id (t.postorder ++ ·)) := by
  induction t generalizing base m p with
  | nil =>
    refine ⟨m, ?_, fun k => ?_⟩
    · rw [RbRoot.postorder, wipe_nil]
      exact h.congr (add_zero _)
    · rw [RbRoot.size, Nat.zero_add]
      exact Option.map_id'.symm
  | node c l a y ihl ihr =>
    rw [show ptr (.node c l a y) = a from rfl] at h hapart ⊢
    rw [cells] at h
    -- the left subtree
    have hl : m.Has base (openCells (.left c p a y) (ptr l) +
        cells l (parentPtr (.left c p a y))) r := h.congr (by
      simp only [openCells, parentPtr]
      abel)
    obtain ⟨m1, h1, hm1⟩ := ihl hl (fun _ => trivial) hfuel
    -- the right one
    have hapart' : y ≠ nil → Apart (.right c l a p) (ptr y) := fun hy => by
      have hcells : m.Has base (cells l a + (cells y a + (openCells p a + {(a, _)}))) r :=
        h.congr (by abel)
      refine hcells.ptr_ne ?_
      rw [Multiset.map_add, Multiset.mem_add]
      exact .inl (ptr_mem_keys hy)
    have hr : m1.Has (wipe base l.postorder) (openCells (.right c l a p) (ptr y) +
        cells y (parentPtr (.right c l a p))) r := h1.congr (by
      simp only [openCells, parentPtr]
      abel)
    obtain ⟨m2, h2, hm2⟩ := ihr hr hapart' hfuel
    -- the entry itself
    rw [openCells] at h2
    have hnext := (h2.congr (add_comm _ _)).nextPostorder
      (hapart fun heq => by cases heq) hfuel
    obtain ⟨m3, hm3, h3⟩ := h2.free
    refine ⟨m3, ?_, fun k => ?_⟩
    · rw [wipe_append, wipe_append] at h3
      rwa [RbRoot.postorder, List.append_assoc]
    · have hstep : m2.reap fuel (k + 1) ((postRest (.right c l a p)).headD 0) =
          (m3.reap fuel k ((postRest p).headD 0)).map (Prod.map id (a :: ·)) := by
        rw [postRest, List.headD_cons, Mem.reap, if_neg h2.valid_cell.ne, hnext,
          Option.bind_eq_bind, Option.bind_some, hm3]
        exact rfl
      have hsize : (RbRoot.node c l a y).size + k = l.size + (y.size + (k + 1)) := by
        rw [RbRoot.size]
        omega
      have hfirst : (RbRoot.node c l a y).postorder ++ postRest p =
          l.postorder ++ postRest (.left c p a y) := by
        simp [RbRoot.postorder, postRest]
      have hsecond : postRest (.left c p a y) = y.postorder ++ postRest (.right c l a p) := rfl
      rw [hsize, hfirst, hm1, hsecond, hm2, hstep, Option.map_map, Option.map_map]
      refine congrArg (fun f => Option.map f _) (funext fun x => ?_)
      rw [RbRoot.postorder, List.append_assoc]
      exact Prod.ext rfl (by simp)

/-- The loop frees the nodes of a tree and nothing else, each of them once, and uses none of them
afterwards. -/
theorem reap_eq_postorder (h : m.Rep base t) (hfuel : t.height ≤ fuel) (hk : t.size < k) :
    ∃ m', (m.rbFirstPostorder fuel).bind (m.reap fuel k) = some (m', t.postorder) ∧
      m'.node = wipe base t.postorder := by
  have hroot : m.Has base (openCells .root (ptr t) + cells t (parentPtr .root)) (ptr t) :=
    h.congr (zero_add _).symm
  obtain ⟨m', h', hm'⟩ := hroot.reapTree (fun _ => trivial) hfuel
  refine ⟨m', ?_, funext fun a => h'.holds.frame (Multiset.notMem_zero _)⟩
  have hfirst : m.rbFirstPostorder fuel = some (t.postorder.headD 0) := by
    unfold Mem.rbFirstPostorder
    rw [h.root]
    by_cases ht : t = nil
    · subst ht
      exact if_pos rfl
    · have hcells : m.Has base (cells t 0 + 0) (ptr t) := h.congr (add_zero _).symm
      rw [if_neg (hcells.ptr_ne_zero ht)]
      exact hcells.leftDeepest ht hfuel
  obtain ⟨j, rfl⟩ := Nat.exists_eq_add_of_lt hk
  have hrun := hm' (j + 1)
  rw [postRest, List.append_nil] at hrun
  rw [hfirst, Option.bind_some, Nat.add_assoc, hrun]
  show some (m', t.postorder ++ []) = _
  rw [List.append_nil]

end Mem.Has

theorem reap_three :
    let t : RbRoot Ptr := .node .black (.node .red nil 4 nil) 8 (.node .red nil 12 nil)
    let m : Mem := ⟨store t 0 fun _ => none, ptr t⟩
    ∃ m', (m.rbFirstPostorder 2).bind (m.reap 2 4) = some (m', [4, 12, 8]) ∧
      m'.node = wipe (fun _ => none) [4, 12, 8] :=
  Mem.Has.reap_eq_postorder (rep_store (by decide) (by simp [RbRoot.toList]; decide)) (by decide)
    (by decide)

end Mtrace.Rb
