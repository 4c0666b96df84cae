import Mathlib.Data.List.Chain
import Mathlib.Data.List.Nodup
import Mathlib.Logic.Function.Basic

/-!
# Circular lists of several heads

The functions of `list.h` on the pointers of all nodes at once, the heads of lists and their entries
alike, so that an entry can go from one list to another.

`Ring l h xs` says that the list behind the head `h` holds `xs`.  Every function only sets pairs of
pointers, from a node forward and back to it; a chain of nodes is kept by such a pair where the
first of it is not in the chain before its end and the second not behind its start. -/

/-- `struct list_head` of all nodes. -/
structure ListHeads (N : Type*) where
  next : N → N
  prev : N → N

namespace ListHeads

variable {N : Type*}

/-- Two nodes in a row. -/
def Linked (l : ListHeads N) (a b : N) : Prop := l.next a = b ∧ l.prev b = a

/-- The nodes behind a head, from a node on, with a bound on their number. -/
def walk [DecidableEq N] (l : ListHeads N) (head : N) : ℕ → N → List N
  | 0, _ => []
  | fuel + 1, x => if x = head then [] else x :: walk l head fuel (l.next x)

section Operations

variable [DecidableEq N]

/-- `__list_del`, which is the pair of pointers between two nodes. -/
def join (l : ListHeads N) (prev next : N) : ListHeads N :=
  ⟨Function.update l.next prev next, Function.update l.prev next prev⟩

/-- `INIT_LIST_HEAD`. -/
def init (l : ListHeads N) (list : N) : ListHeads N := l.join list list

/-- `__list_add`. -/
def addBetween (l : ListHeads N) (elem prev next : N) : ListHeads N :=
  (l.join elem next).join prev elem

def listAdd (l : ListHeads N) (elem head : N) : ListHeads N := l.addBetween elem head (l.next head)

def listAddTail (l : ListHeads N) (elem head : N) : ListHeads N :=
  l.addBetween elem (l.prev head) head

/-- `__list_del_entry`. -/
def delEntry (l : ListHeads N) (entry : N) : ListHeads N := l.join (l.prev entry) (l.next entry)

def listDel (l : ListHeads N) (entry : N) : ListHeads N := (l.delEntry entry).init entry

def listMove (l : ListHeads N) (entry head : N) : ListHeads N :=
  (l.delEntry entry).listAdd entry head

def listMoveTail (l : ListHeads N) (entry head : N) : ListHeads N :=
  (l.delEntry entry).listAddTail entry head

/-- `__list_splice`. -/
def splice (l : ListHeads N) (list prev next : N) : ListHeads N :=
  (l.join prev (l.next list)).join (l.prev list) next

def listSpliceInit (l : ListHeads N) (list head : N) : ListHeads N :=
  if l.next list = list then l else (l.splice list head (l.next head)).init list

end Operations

/-! ## Chains -/

section Chains

variable [DecidableEq N] {l : ListHeads N} {a b e h x y : N} {c xs ys zs : List N}

theorem linked_join (l : ListHeads N) (a b : N) : (l.join a b).Linked a b :=
  ⟨Function.update_self _ _ _, Function.update_self _ _ _⟩

theorem Linked.join (hl : l.Linked x y) (hx : x ≠ a) (hy : y ≠ b) : (l.join a b).Linked x y :=
  ⟨(Function.update_of_ne hx _ _).trans hl.1, (Function.update_of_ne hy _ _).trans hl.2⟩

/-- A pair that starts at the end of a chain or outside of it, and ends at its start or outside. -/
theorem chain_join (hc : c.IsChain l.Linked) (ha : a ∉ c.dropLast) (hb : b ∉ c.tail) :
    c.IsChain (l.join a b).Linked := by
  induction hc with
  | nil => exact .nil
  | singleton x => exact .singleton x
  | @cons_cons x y c hxy hc ih =>
    rw [List.dropLast_cons_cons, List.mem_cons, not_or] at ha
    rw [List.tail_cons, List.mem_cons, not_or] at hb
    exact .cons_cons (hxy.join (Ne.symm ha.1) (Ne.symm hb.1)) (ih ha.2 hb.2)

/-- A chain away from both nodes. -/
theorem chain_join_of_not_mem (hc : c.IsChain l.Linked) (ha : a ∉ c) (hb : b ∉ c) :
    c.IsChain (l.join a b).Linked :=
  chain_join hc (fun h => ha ((List.dropLast_sublist c).mem h)) fun h => hb (List.mem_of_mem_tail h)

/-- Taking a node out of a chain. -/
theorem chain_delEntry {ps ns : List N} {p n : N}
    (hc : (ps ++ p :: e :: n :: ns).IsChain l.Linked)
    (hstarts : (ps ++ p :: e :: (n :: ns).dropLast).Nodup)
    (hends : ((ps ++ [p]).tail ++ e :: n :: ns).Nodup) :
    (ps ++ p :: n :: ns).IsChain (l.delEntry e).Linked := by
  rw [List.isChain_append_cons_cons] at hc
  obtain ⟨hps, hpe, hc⟩ := hc
  obtain ⟨hen, hns⟩ := List.isChain_cons_cons.mp hc
  unfold delEntry
  rw [hpe.2, hen.1, List.isChain_append_cons_cons]
  obtain ⟨-, hnodup, hdisj⟩ := List.nodup_append.mp hstarts
  obtain ⟨-, hnodup', hdisj'⟩ := List.nodup_append.mp hends
  refine ⟨chain_join hps ?_ ?_, linked_join l p n, chain_join hns ?_ ?_⟩
  · rw [List.dropLast_concat]
    exact fun hmem => hdisj p hmem p List.mem_cons_self rfl
  · exact fun hmem => hdisj' n hmem n (by simp) rfl
  · exact fun hmem => (List.nodup_cons.mp hnodup).1 (List.mem_cons_of_mem e hmem)
  · exact fun hmem => (List.nodup_cons.mp (List.nodup_cons.mp hnodup').2).1 hmem

/-- Putting a node into a chain. -/
theorem chain_addBetween {ps ns : List N} {p n : N}
    (hc : (ps ++ p :: n :: ns).IsChain l.Linked) (he : e ∉ ps ++ p :: n :: ns)
    (hstarts : (ps ++ p :: (n :: ns).dropLast).Nodup)
    (hends : ((ps ++ [p]).tail ++ n :: ns).Nodup) :
    (ps ++ p :: e :: n :: ns).IsChain (l.addBetween e p n).Linked := by
  rw [List.isChain_append_cons_cons] at hc ⊢
  obtain ⟨hps, -, hns⟩ := hc
  obtain ⟨-, hnodup, hdisj⟩ := List.nodup_append.mp hstarts
  obtain ⟨-, hnodup', hdisj'⟩ := List.nodup_append.mp hends
  have heps : e ∉ ps ++ [p] := fun hmem => he (by simp_all)
  have hens : e ∉ n :: ns := fun hmem => he (by simp_all)
  have hep : e ≠ p := fun heq => heps (by simp [heq])
  have hne : n ≠ e := fun heq => hens (by simp [heq])
  unfold addBetween
  refine ⟨chain_join (chain_join hps ?_ ?_) ?_ ?_, linked_join _ p e,
    List.isChain_cons_cons.mpr ⟨(linked_join l e n).join hep hne,
      chain_join (chain_join hns ?_ ?_) ?_ ?_⟩⟩
  · exact fun hmem => heps ((List.dropLast_sublist _).mem hmem)
  · exact fun hmem => hdisj' n hmem n List.mem_cons_self rfl
  · rw [List.dropLast_concat]
    exact fun hmem => hdisj p hmem p List.mem_cons_self rfl
  · exact fun hmem => heps (List.mem_of_mem_tail hmem)
  · exact fun hmem => hens ((List.dropLast_sublist _).mem hmem)
  · exact fun hmem => (List.nodup_cons.mp hnodup').1 hmem
  · exact fun hmem => (List.nodup_cons.mp hnodup).1 hmem
  · exact fun hmem => hens (List.mem_of_mem_tail hmem)

end Chains

/-! ## Rings -/

/-- The list behind the head `h` holds `xs`. -/
structure Ring (l : ListHeads N) (h : N) (xs : List N) : Prop where
  nodup : (h :: xs).Nodup
  chain : (h :: (xs ++ [h])).IsChain l.Linked

section Rings

variable {l : ListHeads N} {a b e h h' x y : N} {xs ys zs : List N}

theorem Ring.not_mem (hr : l.Ring h xs) : h ∉ xs := (List.nodup_cons.mp hr.nodup).1

theorem not_mem_cyclic (he : e ∉ h :: xs) : e ∉ h :: (xs ++ [h]) := by
  rw [List.mem_cons, not_or] at he
  rw [List.mem_cons, List.mem_append, List.mem_singleton]
  tauto

/-- A cyclic list is taken apart at an entry: what is before it ends in some node, and what is
behind it starts with some node. -/
theorem exists_around (h : N) (ys zs : List N) : ∃ ps p n ns, h :: ys = ps ++ [p] ∧
    zs ++ [h] = n :: ns := by
  obtain ⟨ps, p, hp⟩ := List.eq_nil_or_concat (h :: ys) |>.resolve_left (List.cons_ne_nil h ys)
  cases hz : zs ++ [h] with
  | nil => exact absurd hz (by simp)
  | cons n ns => exact ⟨ps, p, n, ns, hp.trans (List.concat_eq_append), rfl⟩

/-- The cyclic list around an entry. -/
theorem cyclic_split {ps ns : List N} {p n : N} (e : N) (hp : h :: ys = ps ++ [p])
    (hn : zs ++ [h] = n :: ns) : h :: ((ys ++ e :: zs) ++ [h]) = ps ++ p :: e :: n :: ns := by
  rw [← hn, List.append_assoc, ← List.cons_append, hp]
  simp

/-- The pointers of a head: to its first entry and to its last. -/
theorem Ring.next_head (hr : l.Ring h xs) {n : N} {ns : List N} (hn : xs ++ [h] = n :: ns) :
    l.next h = n := by
  have hc := hr.chain
  rw [hn] at hc
  exact (List.isChain_cons_cons.mp hc).1.1

theorem Ring.prev_head (hr : l.Ring h xs) {p : N} {ps : List N} (hp : h :: xs = ps ++ [p]) :
    l.prev h = p := by
  have hc := hr.chain
  rw [← List.cons_append, hp, List.append_assoc] at hc
  exact (List.isChain_append_cons_cons.mp hc).2.1.2

theorem Ring.neighbours (hr : l.Ring h (ys ++ e :: zs)) :
    (∃ p ∈ h :: ys, l.prev e = p) ∧ ∃ n ∈ zs ++ [h], l.next e = n := by
  obtain ⟨ps, p, n, ns, hp, hn⟩ := exists_around h ys zs
  have hc := hr.chain
  rw [cyclic_split e hp hn, List.isChain_append_cons_cons] at hc
  obtain ⟨-, hpe, hc⟩ := hc
  obtain ⟨hen, -⟩ := List.isChain_cons_cons.mp hc
  exact ⟨⟨p, hp ▸ by simp, hpe.2⟩, n, hn ▸ List.mem_cons_self, hen.1⟩

/-- The pointer of an entry to what is behind it. -/
theorem Ring.next_entry (hr : l.Ring h (ys ++ e :: zs)) {n : N} {ns : List N}
    (hn : zs ++ [h] = n :: ns) : l.next e = n := by
  have hc := hr.chain
  rw [List.append_assoc, List.cons_append, hn, ← List.cons_append] at hc
  exact (List.isChain_cons_cons.mp hc.right_of_append).1.1

/-- The pointers of a list stay in it. -/
theorem Ring.mem_neighbours (hr : l.Ring h xs) (hx : x ∈ h :: xs) :
    l.next x ∈ h :: xs ∧ l.prev x ∈ h :: xs := by
  rcases List.mem_cons.mp hx with rfl | hx
  · obtain ⟨ps, p, n, ns, hp, hn⟩ := exists_around x xs xs
    rw [hr.next_head hn, hr.prev_head hp]
    have hmem : n ∈ xs ++ [x] := hn ▸ List.mem_cons_self
    rw [List.mem_append, List.mem_singleton] at hmem
    exact ⟨List.mem_cons.mpr hmem.symm, hp ▸ by simp⟩
  · obtain ⟨ys, zs, rfl⟩ := List.append_of_mem hx
    obtain ⟨⟨p, hp, hprev⟩, n, hn, hnext⟩ := hr.neighbours
    rw [List.mem_cons] at hp
    rw [List.mem_append, List.mem_singleton] at hn
    rw [hprev, hnext, List.mem_cons, List.mem_cons, List.mem_append, List.mem_append, List.mem_cons]
    tauto

/-- An entry is not among the others. -/
theorem Ring.not_mem_others (hr : l.Ring h (ys ++ e :: zs)) : e ∉ h :: (ys ++ zs) := by
  have hnodup := hr.nodup
  rw [← List.cons_append, List.nodup_middle] at hnodup
  exact (List.nodup_cons.mp hnodup).1

/-- What is left of a list when an entry goes to another one. -/
theorem disjoint_others (hd : List.Disjoint (h :: (ys ++ e :: zs)) (h' :: xs)) :
    List.Disjoint (h' :: xs) (h :: (ys ++ zs)) := by
  have hsub : (h :: (ys ++ zs)).Sublist (h :: (ys ++ e :: zs)) :=
    ((List.sublist_cons_self e zs).append_left ys).cons_cons h
  exact fun x hx hx' => hd (hsub.mem hx') hx

variable [DecidableEq N]

/-- The list does not notice a pair of pointers between other nodes. -/
theorem Ring.join (hr : l.Ring h xs) (ha : a ∉ h :: xs) (hb : b ∉ h :: xs) :
    (l.join a b).Ring h xs := by
  exact ⟨hr.nodup, chain_join_of_not_mem hr.chain (not_mem_cyclic ha) (not_mem_cyclic hb)⟩

theorem ring_init (l : ListHeads N) (h : N) : (l.init h).Ring h [] :=
  ⟨List.nodup_singleton h, .cons_cons (linked_join l h h) (.singleton h)⟩

theorem Ring.delEntry (hr : l.Ring h (ys ++ e :: zs)) : (l.delEntry e).Ring h (ys ++ zs) := by
  obtain ⟨ps, p, n, ns, hp, hn⟩ := exists_around h ys zs
  have hjoined : h :: ((ys ++ zs) ++ [h]) = ps ++ p :: n :: ns := by
    rw [← hn, List.append_assoc, ← List.cons_append, hp]
    simp
  have hnodup := hr.nodup
  refine ⟨?_, ?_⟩
  · exact hnodup.sublist (((List.sublist_cons_self e zs).append_left ys).cons_cons h)
  · rw [hjoined]
    refine chain_delEntry (cyclic_split e hp hn ▸ hr.chain) ?_ ?_
    · rw [← hn, List.dropLast_concat]
      have heq : ps ++ p :: e :: zs = h :: (ys ++ e :: zs) := by
        rw [← List.cons_append, hp]
        simp
      rw [heq]
      exact hnodup
    · rw [← hp, ← hn, List.tail_cons]
      have hperm : (h :: (ys ++ e :: zs)).Perm (ys ++ e :: (zs ++ [h])) := by
        have heq : ys ++ e :: (zs ++ [h]) = (ys ++ e :: zs) ++ [h] := by simp
        rw [heq]
        exact (List.perm_append_singleton h _).symm
      exact hperm.nodup_iff.mp hnodup

/-- An entry that was taken out is only linked with itself. -/
theorem Ring.listDel (hr : l.Ring h (ys ++ e :: zs)) : (l.listDel e).Ring h (ys ++ zs) :=
  hr.delEntry.join hr.not_mem_others hr.not_mem_others

theorem Ring.listAdd (hr : l.Ring h xs) (he : e ∉ h :: xs) : (l.listAdd e h).Ring h (e :: xs) := by
  obtain ⟨-, -, n, ns, -, hn⟩ := exists_around h ([] : List N) xs
  have hnodup : (h :: e :: xs).Nodup :=
    (List.Perm.swap e h xs).nodup_iff.mpr (List.nodup_cons.mpr ⟨he, hr.nodup⟩)
  refine ⟨hnodup, ?_⟩
  have hc := hr.chain
  rw [List.cons_append, hn]
  rw [hn] at hc
  unfold ListHeads.listAdd
  rw [hr.next_head hn]
  refine chain_addBetween (show (([] : List N) ++ _ :: _ :: _).IsChain _ from hc) ?_ ?_ ?_
  · rw [← hn]
    exact not_mem_cyclic he
  · rw [← hn, List.dropLast_concat]
    exact hr.nodup
  · rw [← hn]
    exact (List.perm_append_singleton h xs).nodup_iff.mpr hr.nodup

theorem Ring.listAddTail (hr : l.Ring h xs) (he : e ∉ h :: xs) :
    (l.listAddTail e h).Ring h (xs ++ [e]) := by
  obtain ⟨ps, p, -, -, hp, -⟩ := exists_around h xs ([] : List N)
  have hnodup : (h :: (xs ++ [e])).Nodup := by
    rw [← List.cons_append]
    exact (List.perm_append_singleton e (h :: xs)).nodup_iff.mpr
      (List.nodup_cons.mpr ⟨he, hr.nodup⟩)
  refine ⟨hnodup, ?_⟩
  have hsplit : h :: ((xs ++ [e]) ++ [h]) = ps ++ p :: e :: h :: [] := by
    rw [List.append_assoc, ← List.cons_append, hp]
    simp
  have hc : (ps ++ p :: h :: []).IsChain l.Linked := by
    have heq : ps ++ p :: h :: [] = h :: (xs ++ [h]) := by
      rw [← List.cons_append, hp]
      simp
    rw [heq]
    exact hr.chain
  have heq : ps ++ p :: h :: [] = (h :: xs) ++ [h] := by
    rw [hp]
    simp
  rw [hsplit]
  unfold ListHeads.listAddTail
  rw [hr.prev_head hp]
  refine chain_addBetween hc ?_ ?_ ?_
  · rw [heq]
    exact not_mem_cyclic he
  · rw [show ps ++ p :: [h].dropLast = h :: xs by rw [hp]; rfl]
    exact hr.nodup
  · rw [← hp]
    exact (List.perm_append_singleton h xs).nodup_iff.mpr hr.nodup

/-! ## Two lists -/

/-- Taking an entry out of one list does not concern another. -/
theorem Ring.delEntry_other (hr : l.Ring h (ys ++ e :: zs)) (hr' : l.Ring h' xs)
    (hd : List.Disjoint (h :: (ys ++ e :: zs)) (h' :: xs)) : (l.delEntry e).Ring h' xs := by
  obtain ⟨⟨p, hp, hprev⟩, n, hn, hnext⟩ := hr.neighbours
  unfold ListHeads.delEntry
  rw [hprev, hnext]
  refine hr'.join (hd ?_) (hd ?_)
  · rw [List.mem_cons] at hp
    rw [List.mem_cons, List.mem_append]
    tauto
  · rw [List.mem_append, List.mem_singleton] at hn
    rw [List.mem_cons, List.mem_append, List.mem_cons]
    tauto

theorem Ring.listDel_other (hr : l.Ring h (ys ++ e :: zs)) (hr' : l.Ring h' xs)
    (hd : List.Disjoint (h :: (ys ++ e :: zs)) (h' :: xs)) : (l.listDel e).Ring h' xs :=
  (hr.delEntry_other hr' hd).join (hd (by simp)) (hd (by simp))

/-- Adding an entry to one list does not concern another that it is not in. -/
theorem Ring.listAddTail_other (hr : l.Ring h xs) (hr' : l.Ring h' ys) (he : e ∉ h' :: ys)
    (hd : List.Disjoint (h :: xs) (h' :: ys)) : (l.listAddTail e h).Ring h' ys := by
  obtain ⟨ps, p, -, -, hp, -⟩ := exists_around h xs ([] : List N)
  unfold ListHeads.listAddTail addBetween
  rw [hr.prev_head hp]
  exact (hr'.join he (hd List.mem_cons_self)).join (hd (hp ▸ by simp)) he

theorem Ring.listAdd_other (hr : l.Ring h xs) (hr' : l.Ring h' ys) (he : e ∉ h' :: ys)
    (hd : List.Disjoint (h :: xs) (h' :: ys)) : (l.listAdd e h).Ring h' ys := by
  obtain ⟨-, -, n, ns, -, hn⟩ := exists_around h ([] : List N) xs
  have hmem : n ∈ h :: xs := by
    have hn' : n ∈ xs ++ [h] := hn ▸ List.mem_cons_self
    rw [List.mem_append, List.mem_singleton] at hn'
    rw [List.mem_cons]
    tauto
  unfold ListHeads.listAdd addBetween
  rw [hr.next_head hn]
  exact (hr'.join he (hd hmem)).join (hd List.mem_cons_self) he

theorem ring_listMoveTail (hr : l.Ring h (ys ++ e :: zs)) (hr' : l.Ring h' xs)
    (hd : List.Disjoint (h :: (ys ++ e :: zs)) (h' :: xs)) :
    (l.listMoveTail e h').Ring h (ys ++ zs) ∧ (l.listMoveTail e h').Ring h' (xs ++ [e]) := by
  have he : e ∉ h' :: xs := hd (by simp)
  have hother := hr.delEntry_other hr' hd
  exact ⟨hother.listAddTail_other hr.delEntry hr.not_mem_others (disjoint_others hd),
    hother.listAddTail he⟩

theorem ring_listMove (hr : l.Ring h (ys ++ e :: zs)) (hr' : l.Ring h' xs)
    (hd : List.Disjoint (h :: (ys ++ e :: zs)) (h' :: xs)) :
    (l.listMove e h').Ring h (ys ++ zs) ∧ (l.listMove e h').Ring h' (e :: xs) := by
  have he : e ∉ h' :: xs := hd (by simp)
  have hother := hr.delEntry_other hr' hd
  exact ⟨hother.listAdd_other hr.delEntry hr.not_mem_others (disjoint_others hd),
    hother.listAdd he⟩

/-- All entries of a list go to the front of another. -/
theorem ring_listSpliceInit {list head : N} (hr : l.Ring list xs) (hr' : l.Ring head ys)
    (hd : List.Disjoint (list :: xs) (head :: ys)) :
    (l.listSpliceInit list head).Ring list [] ∧ (l.listSpliceInit list head).Ring head
    (xs ++ ys) := by
  cases xs with
  | nil =>
    have heq : l.listSpliceInit list head = l := if_pos (hr.next_head rfl)
    rw [heq]
    exact ⟨hr, hr'⟩
  | cons f fs =>
    obtain ⟨gs, g, hg⟩ := List.eq_nil_or_concat (f :: fs) |>.resolve_left (List.cons_ne_nil f fs)
    rw [List.concat_eq_append] at hg
    obtain ⟨-, -, m, ms, -, hm⟩ := exists_around head ([] : List N) ys
    have hfirst : l.next list = f := hr.next_head rfl
    have hcons : list :: f :: fs = (list :: gs) ++ [g] := by rw [hg]; rfl
    have hlast : l.prev list = g := hr.prev_head hcons
    have hnodup : (list :: f :: fs).Nodup := hr.nodup
    obtain ⟨hlistf, hffs⟩ := List.nodup_cons.mp hnodup
    have hne : l.next list ≠ list := fun heq => hlistf (by rw [← heq, hfirst]; simp)
    have hheadf : head ∉ f :: fs := fun hmem => hd (List.mem_cons_of_mem _ hmem) List.mem_cons_self
    have hmem : ∀ x ∈ f :: fs, x ∉ m :: ms := by
      intro x hx hx'
      rw [← hm, List.mem_append, List.mem_singleton] at hx'
      refine hd (List.mem_cons_of_mem _ hx) ?_
      rw [List.mem_cons]
      exact hx'.symm
    have hms : (m :: ms).Nodup := by
      rw [← hm]
      exact (List.perm_append_singleton head ys).nodup_iff.mpr hr'.nodup
    have hdrop : (m :: ms).dropLast = ys := by rw [← hm, List.dropLast_concat]
    have hlistm : list ∉ m :: ms := by
      intro hx
      rw [← hm, List.mem_append, List.mem_singleton] at hx
      refine hd List.mem_cons_self ?_
      rw [List.mem_cons]
      exact hx.symm
    have heq : l.listSpliceInit list head = (((l.join head f).join g m).join list list) := by
      unfold listSpliceInit splice init
      rw [if_neg hne, hfirst, hlast, hr'.next_head hm]
    have hgf : g ∈ f :: fs := hg ▸ by simp
    have hmf : m ∉ f :: fs := fun hx => hmem m hx List.mem_cons_self
    -- the entries that move, behind the new head
    have hmoved : (head :: f :: fs).IsChain ((l.join head f).join g m).Linked := by
      have hchain : (f :: fs).IsChain l.Linked := by
        have hc := (List.isChain_cons_cons.mp hr.chain).2
        exact hc.left_of_append
      have hone : (head :: f :: fs).IsChain (l.join head f).Linked :=
        .cons_cons (linked_join l head f) (chain_join hchain
          (fun hx => hheadf ((List.dropLast_sublist _).mem hx)) (List.nodup_cons.mp hffs).1)
      refine chain_join hone ?_ ?_
      · have hgs : (head :: f :: fs).dropLast = head :: gs := by
          rw [hg, ← List.cons_append, List.dropLast_concat]
        rw [hgs, List.mem_cons, not_or]
        rw [hg] at hffs
        exact ⟨fun h => hheadf (h ▸ hgf),
          fun h => (List.nodup_append.mp hffs).2.2 g h g (List.mem_singleton_self g) rfl⟩
      · exact hmf
    -- the entries that were there
    have hthere : (m :: ms).IsChain ((l.join head f).join g m).Linked := by
      have hc := hr'.chain
      rw [hm] at hc
      refine chain_join (chain_join (List.isChain_cons_cons.mp hc).2 ?_ ?_) ?_ ?_
      · rw [hdrop]
        exact hr'.not_mem
      · exact fun hx => hmem f List.mem_cons_self (List.mem_cons_of_mem m hx)
      · exact fun hx => hmem g hgf ((List.dropLast_sublist _).mem hx)
      · exact (List.nodup_cons.mp hms).1
    have hcycle : head :: ((f :: fs ++ ys) ++ [head]) = (head :: gs) ++ g :: m :: ms := by
      rw [List.append_assoc, hm, hg]
      simp
    rw [heq]
    refine ⟨ring_init _ list, ?_, ?_⟩
    · rw [List.nodup_cons, List.mem_append, not_or, List.nodup_append]
      refine ⟨⟨hheadf, hr'.not_mem⟩, hffs, (List.nodup_cons.mp hr'.nodup).2, ?_⟩
      rintro x hx y hy rfl
      exact hd (List.mem_cons_of_mem _ hx) (List.mem_cons_of_mem _ hy)
    · have hnot : list ∉ (head :: gs) ++ g :: m :: ms := by
        rw [← hcycle, List.append_assoc, hm, List.mem_cons, List.mem_append, not_or, not_or]
        exact ⟨fun h => hd List.mem_cons_self (h ▸ List.mem_cons_self), hlistf, hlistm⟩
      rw [hcycle]
      refine chain_join_of_not_mem ?_ hnot hnot
      rw [List.isChain_append_cons_cons]
      refine ⟨?_, linked_join _ g m, hthere⟩
      rw [List.cons_append, ← hg]
      exact hmoved

end Rings

/-! ## Walking -/

section Walk

variable [DecidableEq N] {l : ListHeads N} {h x : N} {xs : List N}

theorem walk_eq (hc : (x :: (xs ++ [h])).IsChain l.Linked) (hh : h ∉ xs) {fuel : ℕ}
    (hfuel : xs.length < fuel) : l.walk h fuel (l.next x) = xs := by
  induction xs generalizing x fuel with
  | nil =>
    obtain ⟨fuel, rfl⟩ := Nat.exists_eq_succ_of_ne_zero hfuel.ne'
    rw [(List.isChain_cons_cons.mp hc).1.1]
    exact if_pos rfl
  | cons y ys ih =>
    obtain ⟨fuel, rfl⟩ :=
      Nat.exists_eq_succ_of_ne_zero (Nat.ne_of_gt ((Nat.zero_le _).trans_lt hfuel))
    rw [List.mem_cons, not_or] at hh
    obtain ⟨hxy, hc⟩ := List.isChain_cons_cons.mp hc
    rw [hxy.1]
    refine (if_neg (Ne.symm hh.1)).trans ?_
    rw [ih hc hh.2 (Nat.lt_of_succ_lt_succ hfuel)]

theorem Ring.walk (hr : l.Ring h xs) {fuel : ℕ} (hfuel : xs.length < fuel) :
    l.walk h fuel (l.next h) = xs := walk_eq hr.chain hr.not_mem hfuel

end Walk

end ListHeads
