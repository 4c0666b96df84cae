import Mtrace.Orbit
import Mtrace.RedBlack
import Mtrace.Walk

/-!
# Callbacks of a walk

Two kinds of callbacks that `rb_iterate` is given: those that take out the node they are called
with, and those that leave the tree alone and may fail.

1. `Emptying`: the walk stands at the first node of the tree, or at the leaf on its right, so that
   nothing is skipped however the tree is rotated.
2. `Iteration`: a value that is not 0 ends the inner loop only.
-/

namespace RbTree

variable {α : Type}

open RbRoot RbPath

/-! ## The first node -/

section First

variable {x : Loc α} {t : RbRoot α}

/-- `rb_first` has nothing in front of it. -/
theorem first_before {path : RbPath α} (h : t.first path = some x) : x.before = path.before := by
  induction t generalizing path with
  | nil => cases h
  | node c l v r ihl _ =>
    rcases Option.or_eq_some_iff.mp h with hl | ⟨hl, hv⟩
    · have hleft := ihl hl
      exact hleft
    · obtain rfl := first_eq_none_iff.mp hl
      cases hv
      exact List.append_nil path.before

theorem toList_eq_nil (h : t.toList = []) : t = nil := by
  cases t with
  | nil => rfl
  | node c l v r =>
    rw [toList_node] at h
    exact absurd h (List.append_ne_nil_of_right_ne_nil _ (List.cons_ne_nil _ _))

theorem before_eq_nil (h : x.before = []) : x.l = nil ∧ x.path.before = [] := by
  unfold Loc.before at h
  obtain ⟨hpath, hl⟩ := List.append_eq_nil_iff.mp h
  exact ⟨toList_eq_nil hl, hpath⟩

/-- The walk and the tree. -/
structure Emptying (α : Type) where
  walk : Walk α
  tree : RbRoot α

def Emptying.start (t : RbRoot α) : Emptying α := ⟨Walk.start t, t⟩

/-- The walk is at its end, with no node left, or stands at the first node of the tree. -/
def Emptying.AtFirst (e : Emptying α) : Prop :=
  e.walk.cursor = .done ∧ e.tree = nil ∨
    ∃ x, e.walk.cursor = .outer x ∧ x.tree = e.tree ∧ x.before = []

theorem emptying_start (t : RbRoot α) : (Emptying.start t).AtFirst := by
  unfold Emptying.start Walk.start
  cases h : t.first .root with
  | none => exact .inl ⟨rfl, first_eq_none_iff.mp h⟩
  | some x =>
    obtain ⟨htree, -⟩ := first_eq_some h
    exact .inr ⟨x, rfl, htree, first_before h⟩

/-- A machine that stays where the cursor dangles, and comes to an end, never dangles. -/
theorem iterate_intact {σ : Type} (cursor : σ → Cursor α) {f : σ → σ} {a : σ} {m : ℕ}
    (hdangling : ∀ b, cursor b = .dangling → f b = b) (hdone : cursor (f^[m] a) = .done)
    (hfixed : f (f^[m] a) = f^[m] a) (n : ℕ) : (cursor (f^[n] a)).Intact := by
  cases hn : cursor (f^[n] a) with
  | outer x => exact trivial
  | call x => exact trivial
  | done => exact trivial
  | dangling =>
    have hstays := Function.iterate_fixed (hdangling _ hn) m
    have hends := Function.iterate_fixed hfixed n
    rw [← Function.iterate_add_apply] at hstays hends
    rw [Nat.add_comm, hstays] at hends
    rw [hends, hdone] at hn
    cases hn

end First

/-! ## Taking every node out -/

section Emptying

variable [DecidableEq α] {x y p : Loc α} {t : RbRoot α} {visited : List α}

/-- A callback that erases the node it is called with. -/
def Callback.erasing (x : Loc α) : Callback α := ⟨x.erase, [x.val], false⟩

/-- A turn of the loops of `rb_iterate`. -/
def Emptying.turn (e : Emptying α) : Emptying α :=
  match e.walk.cursor with
  | .outer _ => { e with walk := e.walk.move }
  | .call x => ⟨e.walk.visit (.erasing x), x.erase⟩
  | _ => e

/-- When a node is erased whose parent is the first one of those that are left, the walk goes on at
the parent, and at the head of the outer loop. -/
theorem resume_erasing (hnodup : x.tree.toList.Nodup) (hp : x.parent = some p) {rest : List α}
    (hlist : x.before ++ x.after = p.val :: rest) :
    ∃ y, (Callback.erasing x).resume x x.parent = .outer y ∧ y.tree = x.erase ∧ y.before = [] := by
  have htree : x.erase.toList = p.val :: rest := (toList_erase x).trans hlist
  have hperm : (x.val :: x.erase.toList).Perm x.tree.toList := by
    rw [toList_erase, toList_tree]
    exact List.perm_middle.symm
  have hdistinct := hperm.nodup_iff.mpr hnodup
  rw [htree] at hdistinct
  obtain ⟨hval, hrest⟩ := List.nodup_cons.mp hdistinct
  have hgone : p.val ∉ (Callback.erasing x).gone := by
    intro hmem
    rw [List.mem_singleton.mp hmem] at hval
    exact hval List.mem_cons_self
  cases hy : x.erase.locate (fun v => decide (v = p.val)) .root with
  | none =>
    have hnot := locate_none hy p.val (by rw [htree]; exact List.mem_cons_self)
    simp at hnot
  | some y =>
    obtain ⟨hyval, as, bs, has, hbefore, -⟩ := locate_some hy
    have hfirst : as = [] := by
      cases as with
      | nil => rfl
      | cons a as =>
        rw [htree, List.cons_append] at has
        obtain ⟨rfl, hrest'⟩ := List.cons_eq_cons.mp has
        rw [hrest', of_decide_eq_true hyval] at hrest
        exact absurd (List.mem_append_right as List.mem_cons_self) (List.nodup_cons.mp hrest).1
    refine ⟨y, ?_, tree_of_locate hy, by rw [hbefore, hfirst]; rfl⟩
    have hright : (Callback.erasing x).fromRight x y = false := by
      unfold Callback.fromRight
      cases y.r.top with
      | none => rfl
      | some v =>
        dsimp only
        rw [if_pos (show x.val ∈ (Callback.erasing x).gone from List.mem_singleton_self _)]
        rfl
    rw [hp]
    unfold Callback.resume
    dsimp only
    rw [if_neg hgone]
    have hlocate : (Callback.erasing x).after.locate (fun v => decide (v = p.val))
        .root = some y := hy
    rw [hlocate]
    dsimp only
    rw [hright]
    rfl

/-- One node went from the tree. -/
structure Emptying.Takes (e e' : Emptying α) (v : α) : Prop where
  visited : e'.walk.visited = e.walk.visited ++ [v]
  perm : e.tree.toList.Perm (v :: e'.tree.toList)
  redBlack : e'.tree.RedBlack
  atFirst : e'.AtFirst

/-- The call at a node whose parent is the first of the others. -/
theorem takes_call {e : Emptying α} (hx : e.walk.cursor = .call x) (htree : x.tree = e.tree)
    (h : e.tree.RedBlack) (hnodup : e.tree.toList.Nodup)
    (hlone : x.parent = none → x.before ++ x.after = [])
    (hfirst : ∀ p, x.parent = some p → ∃ rest, x.before ++ x.after = p.val :: rest) :
    e.Takes e.turn x.val := by
  have hturn : e.turn = ⟨⟨(Callback.erasing x).resume x x.parent, e.walk.visited ++ [x.val],
      e.walk.kept.filter fun v => decide (v ∉ (Callback.erasing x).gone)⟩, x.erase⟩ := by
    unfold Emptying.turn
    rw [hx]
    dsimp only
    unfold Walk.visit
    rw [hx]
  rw [hturn]
  rw [← htree] at h hnodup
  refine ⟨rfl, ?_, h.erase, ?_⟩
  · rw [← htree]
    show x.tree.toList.Perm (x.val :: x.erase.toList)
    rw [toList_erase, toList_tree]
    exact List.perm_middle
  · cases hp : x.parent with
    | none =>
      refine .inl ⟨rfl, ?_⟩
      apply toList_eq_nil
      rw [toList_erase]
      exact hlone hp
    | some p =>
      obtain ⟨rest, hlist⟩ := hfirst p hp
      obtain ⟨y, hresume, hy, hbefore⟩ := resume_erasing hnodup hp hlist
      rw [hp] at hresume
      exact .inr ⟨y, hresume, hy, hbefore⟩

/-- The walk at another place. -/
def Emptying.at (e : Emptying α) (c : Cursor α) : Emptying α :=
  ⟨{ e.walk with cursor := c }, e.tree⟩

theorem turn_outer_nil {e : Emptying α} (hx : e.walk.cursor = .outer x) (hr : x.r = nil) :
    e.turn = e.at (.call x) := by
  unfold Emptying.turn
  rw [hx]
  dsimp only
  unfold Walk.move
  rw [hx]
  dsimp only
  rw [hr]
  rfl

theorem turn_outer_some {e : Emptying α} (hx : e.walk.cursor = .outer x)
    (hy : x.r.first (.right x.color x.l x.val x.path) = some y) : e.turn = e.at (.outer y) := by
  unfold Emptying.turn
  rw [hx]
  dsimp only
  unfold Walk.move
  rw [hx]
  dsimp only
  rw [hy]
  rfl

/-- From the first node on, the next turns take out a node, and come to the first one that is
left. -/
theorem emptying_takes {e : Emptying α} (hx : e.walk.cursor = .outer x) (htree : x.tree = e.tree)
    (hfirst : x.before = []) (h : e.tree.RedBlack) (hnodup : e.tree.toList.Nodup) :
    ∃ m v, e.Takes (Emptying.turn^[m] e) v := by
  obtain ⟨hl, hpath⟩ := before_eq_nil hfirst
  have hleaf := RbRoot.RedBlack.leaf_of_nil (x := x) (htree ▸ h) hl
  rcases hleaf with hr | ⟨c', w, hr⟩
  · -- nothing is on its right, and it is called with
    have htakes : (e.at (.call x)).Takes (e.at (.call x)).turn x.val := by
      refine takes_call (e := e.at (.call x)) rfl htree h hnodup ?_ ?_
      · intro hp
        rw [hfirst, Loc.after, hr, Loc.parent_eq_none hp]
        rfl
      · intro p hp
        obtain ⟨path, c, l, v, r⟩ := x
        cases path with
        | root => cases hp
        | left cu up vu ru =>
          cases hp
          refine ⟨ru.toList ++ up.after, ?_⟩
          rw [hfirst, Loc.after]
          dsimp only at hr ⊢
          rw [hr]
          rfl
        | right cu lu vu up => simp [before] at hpath
    refine ⟨2, x.val, ?_⟩
    rw [Function.iterate_succ_apply, turn_outer_nil hx hr]
    exact ⟨htakes.visited, htakes.perm, htakes.redBlack, htakes.atFirst⟩
  · -- the leaf on its right comes before it
    obtain ⟨path, c, l, v, r⟩ := x
    dsimp only at hl hpath hr
    subst hl hr
    have hdown : (node c' nil w nil).first (.right c nil v path) =
      some ⟨.right c nil v path, c', nil, w, nil⟩ := rfl
    have htakes : (e.at (.call ⟨.right c nil v path, c', nil, w, nil⟩)).Takes
        (e.at (.call ⟨.right c nil v path, c', nil, w, nil⟩)).turn w := by
      refine takes_call (e := e.at (.call ⟨.right c nil v path, c', nil, w, nil⟩)) rfl
        htree h hnodup
        ?_ ?_
      · intro hp
        cases hp
      · intro p hp
        cases hp
        refine ⟨path.after, ?_⟩
        simp [Loc.before, Loc.after, before, after, hpath]
    refine ⟨3, w, ?_⟩
    rw [Function.iterate_succ_apply, turn_outer_some hx hdown, Function.iterate_succ_apply,
      turn_outer_nil rfl rfl]
    exact ⟨htakes.visited, htakes.perm, htakes.redBlack, htakes.atFirst⟩

/-- A walk that stands at the first node takes all of them out. -/
theorem emptying_ends {e : Emptying α} (he : e.AtFirst) (h : e.tree.RedBlack)
    (hnodup : e.tree.toList.Nodup) : ∃ m visited kept,
      Emptying.turn^[m] e = ⟨⟨.done, e.walk.visited ++ visited, kept⟩, nil⟩ ∧
        visited.Perm e.tree.toList := by
  induction hsize : e.tree.toList.length generalizing e with
  | zero =>
    have hnil := List.length_eq_zero_iff.mp hsize
    rcases he with ⟨hdone, htree⟩ | ⟨x, -, htree, -⟩
    · refine ⟨0, [], e.walk.kept, ?_, ?_⟩
      · obtain ⟨⟨cursor, visited, kept⟩, tree⟩ := e
        cases hdone
        cases htree
        rw [List.append_nil]
        rfl
      · rw [hnil]
    · rw [← htree, toList_tree] at hnil
      simp at hnil
  | succ k ih =>
    rcases he with ⟨-, htree⟩ | ⟨x, hx, htree, hfirst⟩
    · rw [htree] at hsize
      cases hsize
    · obtain ⟨m, v, htakes⟩ := emptying_takes hx htree hfirst h hnodup
      have hless := htakes.perm.length_eq
      rw [hsize, List.length_cons] at hless
      have hrest := (List.nodup_cons.mp (htakes.perm.nodup_iff.mp hnodup)).2
      obtain ⟨n, visited, kept, hrun, hperm⟩ :=
        ih htakes.atFirst htakes.redBlack hrest (Nat.succ.inj hless).symm
      refine ⟨n + m, v :: visited, kept, ?_, (hperm.cons v).trans htakes.perm.symm⟩
      rw [Function.iterate_add_apply, hrun, htakes.visited, List.append_assoc]
      rfl

/-- `rb_iterate` ends, calls back once for each node, and uses none that was erased: in a tree that
stays as it is children come before their parent, and if each node is erased when its turn comes no
node is left. -/
theorem rb_iterate_once (h : t.RedBlack) (hnodup : t.toList.Nodup) :
    (∃ n, Walk.quiet^[n] (Walk.start t) = ⟨.done, t.postorder, t.toList⟩) ∧
    (∃ n visited kept, Emptying.turn^[n] (Emptying.start t) = ⟨⟨.done, visited, kept⟩, nil⟩ ∧
      visited.Perm t.toList) ∧
    ∀ n, (Walk.quiet^[n] (Walk.start t)).cursor.Intact ∧
      (Emptying.turn^[n] (Emptying.start t)).walk.cursor.Intact := by
  obtain ⟨m, hquiet⟩ := Walk.quiet_postorder hnodup
  obtain ⟨k, visited, kept, hrun, hperm⟩ := emptying_ends (emptying_start t) h hnodup
  refine ⟨⟨m, hquiet⟩, ⟨k, visited, kept, ?_, hperm⟩, fun n => ⟨?_, ?_⟩⟩
  · rw [hrun]
    rfl
  · refine iterate_intact Walk.cursor (fun w hw => ?_) (congrArg Walk.cursor hquiet)
      (by rw [hquiet]; rfl) n
    unfold Walk.quiet
    rw [hw]
  · refine iterate_intact (fun e : Emptying α => e.walk.cursor) (fun e he => ?_)
      (congrArg (fun e => e.walk.cursor) hrun) (by rw [hrun]; rfl) n
    unfold Emptying.turn
    rw [he]

/-- A black node with two red leaves. -/
theorem rb_iterate_three : ∃ n visited kept,
    Emptying.turn^[n] (Emptying.start (node .black (node .red nil 1 nil) 2 (node .red nil 3 nil))) =
      ⟨⟨.done, visited, kept⟩, nil⟩ ∧ visited.Perm [1, 2, 3] := by
  have hleaf (v : ℕ) : (node .red nil v nil).Balanced .red 0 := .red .nil .nil
  exact (rb_iterate_once ⟨_, _, .black (hleaf 1) (hleaf 3)⟩ (by decide)).2.1

end Emptying

/-! ## Errors -/

section Errors

variable [DecidableEq α] {func : ℕ → α → ℤ} {t : RbRoot α} {x : Loc α}

/-- The walk, and the variable `ret`. -/
structure Iteration (α : Type) where
  walk : Walk α
  ret : ℤ

def Iteration.start (t : RbRoot α) : Iteration α := ⟨Walk.start t, 0⟩

/-- A turn of the loops for a callback that leaves the tree as it is; what it returns may depend on
how often it was called.  The `break` leads to the head of the outer loop, with the same node. -/
def Iteration.turn (func : ℕ → α → ℤ) (i : Iteration α) : Iteration α ⊕ ℤ :=
  match i.walk.cursor with
  | .outer _ => .inl { i with walk := i.walk.move }
  | .call x =>
    let ret := func i.walk.visited.length x.val
    if ret ≠ 0 then .inl ⟨⟨.outer x, i.walk.visited ++ [x.val], i.walk.kept⟩, ret⟩
    else .inl ⟨i.walk.visit (.quiet x.tree), ret⟩
  | .done => .inr i.ret
  | .dangling => .inr i.ret

/-- Once a call has returned a value that is not 0, there is no further one, and this value is
returned. -/
def StopsAtError (func : ℕ → α → ℤ) (t : RbRoot α) : Prop :=
  ∀ i, Orbit.Reaches (Iteration.turn func) (.start t) i → i.ret ≠ 0 →
    (∀ j, Orbit.Reaches (Iteration.turn func) i j → j.walk.visited = i.walk.visited) ∧
      ∃ n, Orbit.run (Iteration.turn func) n i = .inr i.ret

/-- From the head of the outer loop there is another call. -/
theorem call_of_outer (func : ℕ → α → ℤ) (ret : ℤ) (visited kept : List α) (x : Loc α) : ∃ y,
    Orbit.Reaches (Iteration.turn func) ⟨⟨.outer x, visited, kept⟩, ret⟩
      ⟨⟨.call y, visited, kept⟩, ret⟩ := by
  induction hsize : x.r.size using Nat.strongRecOn generalizing x with
  | ind k ih =>
    cases hr : x.r.first (.right x.color x.l x.val x.path) with
    | none =>
      refine ⟨x, .one ?_⟩
      unfold Iteration.turn Walk.move
      dsimp only
      rw [hr]
    | some z =>
      obtain ⟨-, hlt, -⟩ := first_eq_some hr
      obtain ⟨y, hreach⟩ := ih z.r.size (hsize ▸ hlt) z rfl
      refine ⟨y, Orbit.Reaches.trans (.one ?_) hreach⟩
      unfold Iteration.turn Walk.move
      dsimp only
      rw [hr]

/-- A call is one node more. -/
theorem visited_of_call (func : ℕ → α → ℤ) (ret : ℤ) (visited kept : List α) (x : Loc α) : ∃ i,
    Orbit.Reaches (Iteration.turn func) ⟨⟨.call x, visited, kept⟩, ret⟩ i ∧
      i.walk.visited = visited ++ [x.val] ∧ i.ret = func visited.length x.val ∧
        (i.ret ≠ 0 → i.walk.cursor = .outer x) ∧
          (i.ret = 0 → i.walk = Walk.visit ⟨.call x, visited, kept⟩ (.quiet x.tree)) := by
  by_cases hret : func visited.length x.val ≠ 0
  · refine ⟨⟨⟨.outer x, visited ++ [x.val], kept⟩, func visited.length x.val⟩, .one ?_, rfl, rfl,
      fun _ => rfl, fun h => absurd h hret⟩
    unfold Iteration.turn
    dsimp only
    rw [if_pos hret]
  · refine ⟨⟨Walk.visit ⟨.call x, visited, kept⟩ (.quiet x.tree), func visited.length x.val⟩,
      .one ?_, rfl, rfl, fun h => absurd h hret, fun _ => rfl⟩
    unfold Iteration.turn
    dsimp only
    rw [if_neg hret]

/-- There is a call to come. -/
def Cursor.Live : Cursor α → Prop
  | .outer _ | .call _ => True
  | .done | .dangling => False

/-- After an error the loops go on. -/
theorem live_of_error {i : Iteration α} (h : Orbit.Reaches (Iteration.turn func) (.start t) i) :
    i.ret ≠ 0 → i.walk.cursor.Live := by
  refine Orbit.Reaches.invariant (P := fun i : Iteration α => i.ret ≠ 0 → i.walk.cursor.Live) ?_
    (fun hret => absurd rfl hret) h
  intro i j hi hturn hret
  obtain ⟨⟨cursor, visited, kept⟩, ret⟩ := i
  unfold Iteration.turn at hturn
  cases cursor with
  | outer x =>
    cases hturn
    unfold Walk.move
    dsimp only
    cases x.r.first (.right x.color x.l x.val x.path) <;> exact trivial
  | call x =>
    dsimp only at hturn
    split at hturn
    · cases hturn
      exact trivial
    next hzero =>
      cases hturn
      exact absurd hret hzero
  | done => cases hturn
  | dangling => cases hturn

/-- So a walk that stops at errors has none. -/
theorem no_error_of_stops (h : StopsAtError func t) {i : Iteration α}
    (hi : Orbit.Reaches (Iteration.turn func) (.start t) i) : i.ret = 0 := by
  by_contra hret
  have hlive := live_of_error hi hret
  have hsame := (h i hi hret).1
  obtain ⟨⟨cursor, visited, kept⟩, ret⟩ := i
  have hcall (x : Loc α)
      (hx : Orbit.Reaches (Iteration.turn func) ⟨⟨cursor, visited, kept⟩, ret⟩
        ⟨⟨.call x, visited, kept⟩, ret⟩) : False := by
    obtain ⟨j, hj, hvisited, -⟩ := visited_of_call func ret visited kept x
    have heq := hsame j (hx.trans hj)
    rw [hvisited] at heq
    exact absurd heq (by simp)
  cases cursor with
  | outer x =>
    obtain ⟨y, hy⟩ := call_of_outer func ret visited kept x
    exact hcall y hy
  | call x => exact hcall x (.refl _)
  | done => exact hlive
  | dangling => exact hlive

/-- Without errors the walk is the one through a tree that does not change. -/
theorem quiet_of_no_error
    (h : ∀ i, Orbit.Reaches (Iteration.turn func) (.start t) i → i.ret = 0) (n : ℕ) :
    ∃ i, Orbit.Reaches (Iteration.turn func) (.start t) i ∧ i.walk = Walk.quiet^[n] (.start t) ∧
      ∀ k v, i.walk.visited[k]? = some v → func k v = 0 := by
  induction n with
  | zero =>
    refine ⟨.start t, .refl _, rfl, fun k v hv => ?_⟩
    have hnone : (Iteration.start t).walk.visited[k]? = none := rfl
    rw [hnone] at hv
    cases hv
  | succ n ih =>
    obtain ⟨i, hi, hwalk, hzero⟩ := ih
    rw [Function.iterate_succ_apply', ← hwalk]
    obtain ⟨⟨cursor, visited, kept⟩, ret⟩ := i
    cases cursor with
    | outer x =>
      refine ⟨⟨Walk.move ⟨.outer x, visited, kept⟩, ret⟩, hi.trans (.one rfl), rfl, ?_⟩
      obtain ⟨-, hvisited, -⟩ := move_pending (t := nil) (Walk.mk (.outer x) visited kept)
      rw [hvisited]
      exact hzero
    | call x =>
      obtain ⟨j, hj, hvisited, hret, -, hvisit⟩ := visited_of_call func ret visited kept x
      have hjzero := h j (hi.trans hj)
      refine ⟨j, hi.trans hj, hvisit hjzero, fun k v hv => ?_⟩
      rw [hvisited] at hv
      by_cases hlt : k < visited.length
      · rw [List.getElem?_append_left hlt] at hv
        exact hzero k v hv
      · rw [List.getElem?_append_right (Nat.le_of_not_lt hlt), List.getElem?_singleton] at hv
        split at hv
        next hk =>
          cases hv
          rw [show k = visited.length by omega, ← hret]
          exact hjzero
        next => cases hv
    | done => exact ⟨_, hi, rfl, hzero⟩
    | dangling => exact ⟨_, hi, rfl, hzero⟩

/-- Where no call in postorder fails, none fails. -/
theorem no_error_of_zero (hnodup : t.toList.Nodup)
    (hzero : ∀ k v, t.postorder[k]? = some v → func k v = 0) {i : Iteration α}
    (hi : Orbit.Reaches (Iteration.turn func) (.start t) i) : i.ret = 0 := by
  obtain ⟨hpending, hin⟩ := start_pending t
  have hstart : (Iteration.start t).ret = 0 ∧ (Iteration.start t).walk.visited ++
      (Iteration.start t).walk.cursor.pending = t.postorder ∧
        (Iteration.start t).walk.cursor.In t :=
    ⟨rfl, hpending, hin⟩
  have hinv : i.ret = 0 ∧ i.walk.visited ++ i.walk.cursor.pending = t.postorder ∧
      i.walk.cursor.In t := by
    refine Orbit.Reaches.invariant (P := fun i : Iteration α => i.ret = 0 ∧
      i.walk.visited ++ i.walk.cursor.pending = t.postorder ∧ i.walk.cursor.In t) ?_
      hstart hi
    rintro i j ⟨hret, hpost, hcursor⟩ hturn
    obtain ⟨⟨cursor, visited, kept⟩, ret⟩ := i
    unfold Iteration.turn at hturn
    cases cursor with
    | outer x =>
      cases hturn
      obtain ⟨hsame, hvisited, -, -, hstays⟩ :=
        move_pending (t := t) (Walk.mk (.outer x) visited kept)
      refine ⟨hret, ?_, hstays hcursor⟩
      rw [hsame, hvisited]
      exact hpost
    | call x =>
      have hnext : func visited.length x.val = 0 := by
        apply hzero
        rw [← hpost, List.getElem?_append_right (Nat.le_refl _), Nat.sub_self]
        rfl
      dsimp only at hturn
      rw [if_neg (not_not_intro hnext)] at hturn
      cases hturn
      have htree : x.tree = t := hcursor
      obtain ⟨hbehind, -⟩ := resume_quiet (.quiet x.tree) (htree ▸ hnodup) rfl rfl
      refine ⟨hnext, ?_, htree ▸ resume_in (.quiet x.tree) x x.parent⟩
      show visited ++ [x.val] ++ ((Callback.quiet x.tree).resume x x.parent).pending = _
      rw [hbehind, List.append_assoc]
      exact hpost
    | done => cases hturn
    | dangling => cases hturn
  exact hinv.1

/-- `rb_iterate` stops at the first error exactly if there is none: for any tree, and whatever the
calls return. -/
theorem rb_iterate_stops_iff (hnodup : t.toList.Nodup) :
    StopsAtError func t ↔ ∀ k v, t.postorder[k]? = some v → func k v = 0 := by
  constructor
  · intro h k v hv
    obtain ⟨m, hquiet⟩ := Walk.quiet_postorder hnodup
    obtain ⟨i, -, hwalk, hzero⟩ := quiet_of_no_error (fun i hi => no_error_of_stops h hi) m
    apply hzero k v
    rw [hwalk, hquiet]
    exact hv
  · intro hzero i hi hret
    exact absurd (no_error_of_zero hnodup hzero hi) hret

/-- What fails only when it is called more often than there are nodes. -/
def failsFourth (k _ : ℕ) : ℤ := if k < 3 then 0 else -1

theorem rb_iterate_stops_three :
    StopsAtError failsFourth (node .black (node .red nil 1 nil) 2 (node .red nil 3 nil)) := by
  refine (rb_iterate_stops_iff (by decide)).mpr fun k v hv => ?_
  have hlt : k < [1, 3, 2].length := (List.getElem?_eq_some_iff.mp hv).1
  exact if_pos hlt

/-- What fails when it is called for the first time. -/
def failsOnce (k _ : ℕ) : ℤ := if k = 0 then -1 else 0

/-- The callback fails at the only node; it is called with it once more, and 0 is returned. -/
theorem rb_iterate_calls_again :
    Orbit.run (Iteration.turn failsOnce) 5 (.start (node .black nil 0 nil)) = .inr 0 ∧
    ¬ StopsAtError failsOnce (node .black nil 0 nil) := by
  refine ⟨rfl, fun h => ?_⟩
  have hfailed : Orbit.Reaches (Iteration.turn failsOnce) (.start (node .black nil 0 nil))
      ⟨⟨.outer ⟨.root, .black, nil, 0, nil⟩, [0], [0]⟩, -1⟩ := ⟨2, rfl⟩
  have hagain : Orbit.Reaches (Iteration.turn failsOnce)
      ⟨⟨.outer ⟨.root, .black, nil, 0, nil⟩, [0], [0]⟩, -1⟩ ⟨⟨.done, [0, 0], [0]⟩, 0⟩ := ⟨2, rfl⟩
  have hsame := (h _ hfailed (by decide)).1 _ hagain
  cases hsame

end Errors

end RbTree
