import Mtrace.RbTree
import Mtrace.Machine

/-!
# Walking through a tree that changes

`rb_iterate` of `rbtree.c`, whose callback may link nodes and take nodes out.  The walk stands at a
node; while the callback runs, it holds on to nothing but the parent of that node, and goes on from
wherever it finds the parent afterwards.

1. `Walk.move` and `Walk.visit`: what the loops do around one callback.
2. `Cursor.pending`: the nodes a walk will still come to if the tree changes no more.
3. `Callback.Keeps`: a callback that leaves the parent in place and the rest of the walk as it was.
4. `Walk.Sound`: no node is used that was taken out, and what stays is visited once.
5. `Walk.quiet_postorder`: in a tree that does not change the walk is the postorder.
6. `Walk.astray_of_not_keeps`: what a callback that does not keep the walk leads to.
-/

namespace RbTree

universe u

variable {α : Type}

open RbRoot RbPath

/-! ## Steps in a tree -/

namespace RbRoot

/-- `rb_first` of the subtree at `p`: left as far as possible. -/
def first : RbRoot α → RbPath α → Option (Loc α)
  | nil, _ => none
  | node c l v r, p => (first l (.left c p v r)).or (some ⟨p, c, l, v, r⟩)

/-- The entry of the topmost node. -/
def top : RbRoot α → Option α
  | nil => none
  | node _ _ v _ => some v

end RbRoot

/-- `rb_parent`. -/
def RbPath.parent : RbPath α → RbRoot α → Option (Loc α)
  | root, _ => none
  | left c up v r, t => some ⟨up, c, t, v, r⟩
  | right c l v up, t => some ⟨up, c, l, v, t⟩

def Loc.parent (x : Loc α) : Option (Loc α) := x.path.parent (node x.color x.l x.val x.r)

/-! ## The walk -/

/-- Where the walk stands: at the head of the outer loop, at the head of the inner one, at its end,
or at a node that was taken out. -/
inductive Cursor (α : Type) where
  | outer (x : Loc α)
  | call (x : Loc α)
  | done
  | dangling

/-- What a callback leaves behind: the tree, the nodes taken out at some time during the callback,
and whether the first node linked afterwards stands at the address of the one that was visited. -/
structure Callback (α : Type) where
  after : RbRoot α
  gone : List α
  reused : Bool

structure Walk (α : Type) where
  cursor : Cursor α
  /-- The nodes the callback was called with, in this order. -/
  visited : List α
  /-- The nodes of the tree at the beginning that were never taken out. -/
  kept : List α

/-- The entry of `rb_iterate`. -/
def Walk.start (t : RbRoot α) : Walk α :=
  ⟨match t.first .root with | some x => .outer x | none => .done, [], t.toList⟩

/-- `while(node)` up to the next turn or to the call. -/
def Walk.move (w : Walk α) : Walk α :=
  match w.cursor with
  | .outer x =>
    match x.r.first (.right x.color x.l x.val x.path) with
    | some y => { w with cursor := .outer y }
    | none => { w with cursor := .call x }
  | _ => w

section Visit

variable [DecidableEq α]

/-- `last == parent->rb_right`, for a callback that was called at `x`. -/
def Callback.fromRight (cb : Callback α) (x y : Loc α) : Bool :=
  match y.r.top with
  | none => false
  | some v =>
    if x.val ∈ cb.gone then
      cb.reused && decide (v ∈ cb.gone ∨ v ∉ x.tree.toList)
    else decide (v = x.val)

/-- `node = parent` and the conditions of the loops. -/
def Callback.resume (cb : Callback α) (x : Loc α) : Option (Loc α) → Cursor α
  | none => .done
  | some p =>
    if p.val ∈ cb.gone then .dangling
    else
      match cb.after.locate (fun v => decide (v = p.val)) .root with
      | none => .dangling
      | some y => if cb.fromRight x y then .call y else .outer y

/-- A call, and the way to the next node. -/
def Walk.visit (w : Walk α) (cb : Callback α) : Walk α :=
  match w.cursor with
  | .call x =>
    ⟨cb.resume x x.parent, w.visited ++ [x.val], w.kept.filter fun v => decide (v ∉ cb.gone)⟩
  | _ => w

end Visit

/-! ## What is left of a walk -/

/-- The entries behind a subtree in postorder. -/
def RbPath.behind : RbPath α → List α
  | root => []
  | left _ up v r => r.postorder ++ v :: up.behind
  | right _ _ v up => v :: up.behind

/-- The nodes the walk comes to if nothing changes any more. -/
def Cursor.pending : Cursor α → List α
  | .outer x => x.r.postorder ++ x.val :: x.path.behind
  | .call x => x.val :: x.path.behind
  | .done => []
  | .dangling => []

/-- The callback does not take out the parent, and the nodes that are behind `x` in postorder are
those that are at or behind the parent afterwards, or in its right subtree unless `x` still is its
root. -/
def Callback.Keeps [DecidableEq α] (cb : Callback α) (kept : List α) (x : Loc α) : Prop :=
  ∀ p, x.parent = some p → p.val ∉ cb.gone ∧
    ∃ y, cb.after.locate (fun v => decide (v = p.val)) .root = some y ∧
      ∀ v ∈ kept, v ∉ cb.gone →
        ((if cb.fromRight x y then [] else y.r.postorder) ++ y.val :: y.path.behind).count v =
          x.path.behind.count v

/-- Whether `Callback.Keeps` holds. -/
def Callback.keepsTest [DecidableEq α] (cb : Callback α) (kept : List α) (x : Loc α) : Bool :=
  match x.parent with
  | none => true
  | some p => decide (p.val ∉ cb.gone) &&
    match cb.after.locate (fun v => decide (v = p.val)) .root with
    | none => false
    | some y => kept.all fun v => decide (v ∈ cb.gone) ||
      decide (((if cb.fromRight x y then [] else y.r.postorder) ++ y.val :: y.path.behind).count v =
        x.path.behind.count v)

theorem keeps_of_keepsTest [DecidableEq α] {cb : Callback α} {kept : List α} {x : Loc α}
    (h : cb.keepsTest kept x = true) : cb.Keeps kept x := by
  intro p hp
  unfold Callback.keepsTest at h
  rw [hp] at h
  dsimp only at h
  obtain ⟨hgone, h⟩ := Bool.and_eq_true_iff.mp h
  cases hy : cb.after.locate (fun v => decide (v = p.val)) .root with
  | none =>
    rw [hy] at h
    cases h
  | some y =>
    rw [hy] at h
    refine ⟨of_decide_eq_true hgone, y, rfl, fun v hv hstays => ?_⟩
    have := List.all_eq_true.mp h v hv
    rw [decide_eq_false hstays, Bool.false_or] at this
    exact of_decide_eq_true this

section Pending

variable {w : Walk α} {x y : Loc α} {p : RbPath α} {t : RbRoot α}

theorem first_eq_none_iff : t.first p = none ↔ t = nil := by
  cases t with
  | nil => exact ⟨fun _ => rfl, fun _ => rfl⟩
  | node c l v r =>
    constructor
    · intro h
      cases (Option.or_eq_none_iff.mp h).2
    · intro h
      cases h

/-- Behind the first node of a subtree, in postorder, is all of the subtree. -/
theorem first_eq_some (h : t.first p = some y) : y.tree = p.fill t ∧ y.r.size < t.size ∧
    y.r.postorder ++ y.val :: y.path.behind = t.postorder ++ p.behind := by
  induction t generalizing p with
  | nil => cases h
  | node c l v r ihl _ =>
    have hsize : (node c l v r).size = l.size + 1 + r.size := rfl
    rcases Option.or_eq_some_iff.mp h with hl | ⟨hl, hv⟩
    · obtain ⟨htree, hlt, hpost⟩ := ihl hl
      refine ⟨htree, by omega, ?_⟩
      rw [hpost]
      simp only [behind, postorder, List.append_assoc, List.cons_append, List.nil_append]
    · obtain rfl := first_eq_none_iff.mp hl
      cases hv
      refine ⟨rfl, by dsimp only; omega, ?_⟩
      simp only [postorder, List.append_assoc, List.cons_append, List.nil_append]

/-- The cursor does not stand at a node that was taken out. -/
def Cursor.Intact : Cursor α → Prop
  | .outer _ | .call _ | .done => True
  | .dangling => False

/-- The tree a cursor stands in. -/
def Cursor.In (t : RbRoot α) : Cursor α → Prop
  | .outer x => x.tree = t
  | .call x => x.tree = t
  | .done => True
  | .dangling => True

theorem start_pending (t : RbRoot α) :
    (Walk.start t).cursor.pending = t.postorder ∧ (Walk.start t).cursor.In t := by
  unfold Walk.start
  cases h : t.first .root with
  | none =>
    rw [first_eq_none_iff.mp h]
    exact ⟨rfl, trivial⟩
  | some x =>
    obtain ⟨htree, -, hpost⟩ := first_eq_some h
    refine ⟨?_, htree⟩
    rw [behind, List.append_nil] at hpost
    exact hpost

/-- On the way to the next call nothing is left out. -/
theorem move_pending (w : Walk α) : w.move.cursor.pending = w.cursor.pending ∧
    w.move.visited = w.visited ∧ w.move.kept = w.kept ∧
    (w.cursor.Intact → w.move.cursor.Intact) ∧
    (w.cursor.In t → w.move.cursor.In t) := by
  obtain ⟨cursor, visited, kept⟩ := w
  cases cursor with
  | outer x =>
    unfold Walk.move
    dsimp only
    cases hr : x.r.first (.right x.color x.l x.val x.path) with
    | none =>
      have hnil := first_eq_none_iff.mp hr
      refine ⟨?_, rfl, rfl, fun _ => trivial, id⟩
      simp only [Cursor.pending, hnil, postorder, List.nil_append]
    | some y =>
      obtain ⟨htree, -, hpost⟩ := first_eq_some hr
      exact ⟨hpost, rfl, rfl, fun _ => trivial, fun hx => htree.trans hx⟩
  | call x => exact ⟨rfl, rfl, rfl, id, id⟩
  | done => exact ⟨rfl, rfl, rfl, id, id⟩
  | dangling => exact ⟨rfl, rfl, rfl, id, id⟩

theorem Loc.parent_eq_none (h : x.parent = none) : x.path = root := by
  obtain ⟨p, c, l, v, r⟩ := x
  cases p with
  | root => rfl
  | left => cases h
  | right => cases h

theorem Loc.tree_parent (h : x.parent = some y) : y.tree = x.tree := by
  obtain ⟨p, c, l, v, r⟩ := x
  cases p with
  | root => cases h
  | left => cases h; rfl
  | right => cases h; rfl

end Pending

/-! ## Callbacks that keep the walk -/

section Sound

variable [DecidableEq α] {w : Walk α} {x y : Loc α} {cb : Callback α} {t : RbRoot α}

/-- No node is used that was taken out, and each node of the beginning that has stayed is either
visited or still to come, once. -/
structure Walk.Sound (w : Walk α) : Prop where
  intact : w.cursor.Intact
  once : ∀ v ∈ w.kept, w.visited.count v + w.cursor.pending.count v = 1

theorem Walk.sound_start (h : t.toList.Nodup) : (Walk.start t).Sound where
  intact := by
    unfold Walk.start
    cases t.first .root with
    | none => exact trivial
    | some x => exact trivial
  once := by
    intro v hv
    have hpost : (t.postorder).count v = t.toList.count v := (postorder_perm t).count_eq v
    have hone : t.toList.count v = 1 := List.count_eq_one_of_mem h hv
    have hvisited : (Walk.start t).visited = [] := rfl
    rw [hvisited, (start_pending t).1, hpost, hone, List.count_nil]

theorem Walk.Sound.move (h : w.Sound) : w.move.Sound := by
  obtain ⟨hpending, hvisited, hkept, hcursor, -⟩ := move_pending (t := nil) w
  refine ⟨hcursor h.intact, fun v hv => ?_⟩
  rw [hpending, hvisited]
  exact h.once v (hkept ▸ hv)

/-- The walk goes on in the new tree. -/
theorem resume_in (cb : Callback α) (x : Loc α) (p : Option (Loc α)) :
    (cb.resume x p).In cb.after := by
  cases p with
  | none => trivial
  | some p =>
    unfold Callback.resume
    dsimp only
    split
    · trivial
    · split
      · trivial
      next y hy =>
        have htree := tree_of_locate hy
        split
        · exact htree
        · exact htree

/-- Where a callback that keeps the walk is left. -/
theorem Callback.Keeps.resume {kept : List α} (h : cb.Keeps kept x) :
    (cb.resume x x.parent).Intact ∧ ∀ v ∈ kept, v ∉ cb.gone →
      (cb.resume x x.parent).pending.count v = x.path.behind.count v := by
  cases hp : x.parent with
  | none =>
    refine ⟨trivial, fun v _ _ => ?_⟩
    rw [Loc.parent_eq_none hp]
    rfl
  | some p =>
    obtain ⟨hgone, y, hy, hcount⟩ := h p hp
    unfold Callback.resume
    simp only [if_neg hgone, hy]
    cases hright : cb.fromRight x y with
    | true =>
      simp only [hright, if_true, List.nil_append] at hcount
      exact ⟨trivial, hcount⟩
    | false =>
      simp only [hright, if_neg Bool.false_ne_true] at hcount
      exact ⟨trivial, hcount⟩

/-- What a callback keeps, in terms of the way it is left. -/
theorem Callback.keeps_iff {kept : List α} : cb.Keeps kept x ↔
    (cb.resume x x.parent).Intact ∧ ∀ v ∈ kept, v ∉ cb.gone →
      (cb.resume x x.parent).pending.count v = x.path.behind.count v := by
  constructor
  · exact Keeps.resume
  · rintro ⟨hintact, hpending⟩ p hp
    rw [hp] at hintact hpending
    unfold Callback.resume at hintact hpending
    by_cases hgone : p.val ∈ cb.gone
    · simp only [if_pos hgone] at hintact
      exact hintact.elim
    refine ⟨hgone, ?_⟩
    cases hy : cb.after.locate (fun v => decide (v = p.val)) .root with
    | none =>
      simp only [if_neg hgone, hy] at hintact
      exact hintact.elim
    | some y =>
      refine ⟨y, rfl, fun v hv hstays => ?_⟩
      rw [← hpending v hv hstays]
      simp only [if_neg hgone, hy]
      cases cb.fromRight x y <;> rfl

theorem Walk.Sound.visit (h : w.Sound) (hx : w.cursor = .call x) (hkeeps : cb.Keeps w.kept x) :
    (w.visit cb).Sound := by
  obtain ⟨hintact, hpending⟩ := hkeeps.resume
  have hvisit : w.visit cb = ⟨cb.resume x x.parent, w.visited ++ [x.val],
      w.kept.filter fun v => decide (v ∉ cb.gone)⟩ := by
    unfold Walk.visit
    rw [hx]
  rw [hvisit]
  refine ⟨hintact, fun v hv => ?_⟩
  obtain ⟨hkept, hstays⟩ := List.mem_filter.mp hv
  have hbefore := h.once v hkept
  rw [hx, Cursor.pending, List.count_cons] at hbefore
  dsimp only
  rw [hpending v hkept (of_decide_eq_true hstays), List.count_append, List.count_singleton]
  omega

end Sound

/-! ## A tree that does not change -/

section Quiet

variable [DecidableEq α] {w : Walk α} {x y : Loc α} {t : RbRoot α}

/-- A callback that leaves the tree alone. -/
def Callback.quiet (t : RbRoot α) : Callback α := ⟨t, [], false⟩

/-- Among distinct entries a node is found by its entry. -/
theorem locate_val (h : x.tree.toList.Nodup) :
    x.tree.locate (fun v => decide (v = x.val)) .root = some x := by
  rw [toList_tree, List.nodup_append] at h
  obtain ⟨-, -, hdisjoint⟩ := h
  have hother : ∀ v ∈ x.before, decide (v = x.val) = false := fun v hv =>
    decide_eq_false (hdisjoint v hv x.val List.mem_cons_self)
  refine locate_fill (fun v hv => hother v (List.mem_append_left _ hv)) ?_
  rw [locate, locate_eq_none _ fun v hv => hother v (List.mem_append_right _ hv)]
  exact if_pos (decide_eq_true rfl)

/-- Without a change the parent is found where it was, and the walk goes on behind `x`. -/
theorem resume_quiet (cb : Callback α) (h : x.tree.toList.Nodup) (hafter : cb.after = x.tree)
    (hgone : cb.gone = []) :
    (cb.resume x x.parent).pending = x.path.behind ∧ (cb.resume x x.parent).Intact := by
  cases hp : x.parent with
  | none =>
    refine ⟨?_, trivial⟩
    rw [Loc.parent_eq_none hp]
    rfl
  | some p =>
    have htree := Loc.tree_parent hp
    have hfind : cb.after.locate (fun v => decide (v = p.val)) .root = some p := by
      rw [hafter, ← htree]
      exact locate_val (htree ▸ h)
    have hstays (v : α) : v ∉ cb.gone := by
      rw [hgone]
      exact List.not_mem_nil
    unfold Callback.resume
    simp only [if_neg (hstays p.val), hfind]
    obtain ⟨path, c, l, v, r⟩ := x
    have hlist := toList_tree (Loc.mk path c l v r)
    cases path with
    | root => cases hp
    | left c' up v' r' =>
      cases hp
      -- what hangs on the right of the parent are other entries
      have hright : cb.fromRight ⟨.left c' up v' r', c, l, v, r⟩ ⟨up, c', node c l v r, v', r'⟩ =
          false := by
        unfold Callback.fromRight
        cases r' with
        | nil => rfl
        | node rc rl rv rr =>
          simp only [RbRoot.top, if_neg (hstays v)]
          refine decide_eq_false fun heq => ?_
          rw [hlist, List.nodup_append] at h
          have hmem : rv ∈ (Loc.mk (.left c' up v' (node rc rl rv rr)) c l v r).after := by
            simp [Loc.after, RbPath.after]
          exact (List.nodup_cons.mp h.2.1).1 (heq ▸ hmem)
      rw [hright]
      exact ⟨rfl, trivial⟩
    | right c' l' v' up =>
      cases hp
      have hright : cb.fromRight ⟨.right c' l' v' up, c, l, v, r⟩ ⟨up, c', l', v', node c l v r⟩ =
          true := by
        unfold Callback.fromRight
        simp only [RbRoot.top, if_neg (hstays v), decide_true]
      rw [hright]
      exact ⟨rfl, trivial⟩

/-- A turn of the loops of `rb_iterate` in a tree that stays as it is. -/
def Walk.quiet (w : Walk α) : Walk α :=
  match w.cursor with
  | .outer _ => w.move
  | .call x => w.visit (.quiet x.tree)
  | _ => w

/-- The outer loop comes to a call. -/
theorem quiet_outer (x : Loc α) (visited kept : List α) : ∃ n y,
    Walk.quiet^[n] ⟨.outer x, visited, kept⟩ = ⟨.call y, visited, kept⟩ ∧
      y.tree = x.tree ∧ (Cursor.call y).pending = (Cursor.outer x).pending := by
  induction hsize : x.r.size using Nat.strong_induction_on generalizing x with
  | _ k ih =>
    cases hr : x.r.first (.right x.color x.l x.val x.path) with
    | none =>
      refine ⟨1, x, ?_, rfl, ?_⟩
      · show Walk.move ⟨.outer x, visited, kept⟩ = _
        simp only [Walk.move, hr]
      · rw [Cursor.pending, Cursor.pending, first_eq_none_iff.mp hr]
        rfl
    | some z =>
      obtain ⟨htree, hlt, hpost⟩ := first_eq_some hr
      obtain ⟨n, y, hrun, hy, hpending⟩ := ih z.r.size (hsize ▸ hlt) z rfl
      refine ⟨n + 1, y, ?_, hy.trans htree, hpending.trans hpost⟩
      rw [Function.iterate_succ_apply]
      have hmove : Walk.quiet ⟨.outer x, visited, kept⟩ = ⟨.outer z, visited, kept⟩ := by
        show Walk.move ⟨.outer x, visited, kept⟩ = _
        simp only [Walk.move, hr]
      rw [hmove, hrun]

/-- A walk through a tree that changes no more comes to its end, by way of what is pending. -/
theorem quiet_pending (h : t.toList.Nodup) (c : Cursor α) (visited kept : List α) (hin : c.In t)
    (hintact : c.Intact) : ∃ n,
      Walk.quiet^[n] ⟨c, visited, kept⟩ = ⟨.done, visited ++ c.pending, kept⟩ := by
  -- one call takes one entry off what is pending
  have hcall (k : ℕ) (ih : ∀ c' visited, c'.In t → c'.Intact → c'.pending.length = k → ∃ n,
      Walk.quiet^[n] ⟨c', visited, kept⟩ = ⟨.done, visited ++ c'.pending, kept⟩) (y : Loc α)
      (hy : y.tree = t) (hlen : y.path.behind.length = k) (visited : List α) : ∃ n,
        Walk.quiet^[n] ⟨.call y, visited, kept⟩ =
          ⟨.done, visited ++ (Cursor.call y).pending, kept⟩ := by
    subst hy
    obtain ⟨hpending, hintact⟩ := resume_quiet (.quiet y.tree) h rfl rfl
    obtain ⟨n, hrun⟩ := ih _ (visited ++ [y.val]) (resume_in (.quiet y.tree) y y.parent) hintact
      (hpending ▸ hlen)
    have hvisit : Walk.quiet ⟨.call y, visited, kept⟩ =
        ⟨(Callback.quiet y.tree).resume y y.parent, visited ++ [y.val], kept⟩ := by
      have hall : (kept.filter fun v => decide (v ∉ (Callback.quiet y.tree).gone)) = kept :=
        List.filter_eq_self.mpr fun v _ => decide_eq_true List.not_mem_nil
      show Walk.mk _ _ _ = _
      rw [hall]
    refine ⟨n + 1, ?_⟩
    rw [Function.iterate_succ_apply, hvisit, hrun, hpending, List.append_assoc]
    rfl
  induction hk : c.pending.length generalizing c visited with
  | zero =>
    cases c with
    | outer x => simp [Cursor.pending] at hk
    | call x => simp [Cursor.pending] at hk
    | done => exact ⟨0, by rw [Cursor.pending, List.append_nil]; rfl⟩
    | dangling => exact hintact.elim
  | succ k ih =>
    have ih' : ∀ c' visited, c'.In t → c'.Intact → c'.pending.length = k → ∃ n,
        Walk.quiet^[n] ⟨c', visited, kept⟩ = ⟨.done, visited ++ c'.pending, kept⟩ :=
      fun c' visited hin hintact hlen => ih c' visited hin hintact hlen
    cases c with
    | outer x =>
      obtain ⟨n, y, hrun, hy, hpending⟩ := quiet_outer x visited kept
      have hlen : y.path.behind.length = k := by
        rw [← hpending, Cursor.pending, List.length_cons] at hk
        omega
      obtain ⟨m, hcalled⟩ := hcall k ih' y (hy.trans hin) hlen visited
      refine ⟨m + n, ?_⟩
      rw [Function.iterate_add_apply, hrun, hcalled, hpending]
    | call x =>
      rw [Cursor.pending, List.length_cons] at hk
      exact hcall k ih' x hin (by omega) visited
    | done => cases hk
    | dangling => exact hintact.elim

/-- In a tree that does not change `rb_iterate` visits every node once, children before their
parent. -/
theorem Walk.quiet_postorder (h : t.toList.Nodup) : ∃ n,
    Walk.quiet^[n] (Walk.start t) = ⟨.done, t.postorder, t.toList⟩ := by
  obtain ⟨hpending, hin⟩ := start_pending t
  obtain ⟨n, hrun⟩ := quiet_pending h (Walk.start t).cursor [] t.toList hin
    (Walk.sound_start h).intact
  refine ⟨n, ?_⟩
  rw [hpending] at hrun
  exact hrun

/-- After a callback that does not keep the walk, either the next node is one that was taken out, or
it is enough that nothing else happens, and a node that has stayed is left out or visited twice. -/
theorem Walk.astray_of_not_keeps {cb : Callback α} (h : w.Sound) (hx : w.cursor = .call x)
    (hnot : ¬ cb.Keeps w.kept x) (hafter : cb.after.toList.Nodup) :
    ¬ (w.visit cb).cursor.Intact ∨ ∃ n, ∃ v ∈ w.kept, v ∉ cb.gone ∧
      (Walk.quiet^[n] (w.visit cb)).cursor = .done ∧
      (Walk.quiet^[n] (w.visit cb)).visited.count v ≠ 1 := by
  have hvisit : w.visit cb = ⟨cb.resume x x.parent, w.visited ++ [x.val],
      w.kept.filter fun v => decide (v ∉ cb.gone)⟩ := by
    unfold Walk.visit
    rw [hx]
  rw [hvisit]
  by_cases hintact : (cb.resume x x.parent).Intact
  · have hcount : ∃ v ∈ w.kept, v ∉ cb.gone ∧
        (cb.resume x x.parent).pending.count v ≠ x.path.behind.count v := by
      by_contra hall
      push Not at hall
      exact hnot (Callback.keeps_iff.mpr ⟨hintact, hall⟩)
    obtain ⟨v, hkept, hstays, hne⟩ := hcount
    obtain ⟨n, hrun⟩ := quiet_pending hafter _ (w.visited ++ [x.val])
      (w.kept.filter fun v => decide (v ∉ cb.gone)) (resume_in cb x x.parent) hintact
    refine .inr ⟨n, v, hkept, hstays, by rw [hrun], ?_⟩
    have hbefore := h.once v hkept
    rw [hx, Cursor.pending, List.count_cons] at hbefore
    rw [hrun]
    dsimp only
    rw [List.count_append, List.count_append, List.count_singleton]
    omega
  · exact .inl hintact

end Quiet

end RbTree
