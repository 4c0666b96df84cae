import Mathlib.Data.List.Nodup
import Mathlib.Logic.Function.Basic

/-!
# Circular doubly linked lists

The intrusive lists of `list.h`: a node is an entry or the head of the list, `none`, and holds the
nodes after and before it.  An entry in no list points to itself.

`Represents l xs` says that the list holds `xs`, in this order.  Removing an entry is harmless where
the entry is in no list; adding one that is in the list already is not, and no lemma covers it.
-/

/-- The pointers of a head and of all entries that may be linked behind it. -/
structure Links (α : Type*) where
  next : Option α → Option α
  prev : Option α → Option α

namespace Links

variable {α : Type*}

/-- `LIST_HEAD`, with every entry behind `INIT_LIST_HEAD`. -/
def empty : Links α := ⟨id, id⟩

section Operations

variable [DecidableEq α]

/-- `list_add_tail` behind the head. -/
def addTail (l : Links α) (x : α) : Links α :=
  let prev := l.prev none
  ⟨Function.update (Function.update l.next (some x) none) prev (some x),
    Function.update (Function.update l.prev none (some x)) (some x) prev⟩

/-- `list_del`. -/
def del (l : Links α) (x : α) : Links α :=
  let next := l.next (some x)
  let prev := l.prev (some x)
  ⟨Function.update (Function.update l.next prev next) (some x) (some x),
    Function.update (Function.update l.prev next prev) (some x) (some x)⟩

/-- Whether an entry is linked to anything but itself. -/
def linked (l : Links α) (x : α) : Bool := l.next (some x) ≠ some x

end Operations

/-- The other direction of the same list. -/
def flip (l : Links α) : Links α := ⟨l.prev, l.next⟩

/-! ## Segments -/

/-- From the node `a` the pointers lead through `xs` to the node `b`. -/
def Seg (next : Option α → Option α) : Option α → List α → Option α → Prop
  | a, [], b => next a = b
  | a, x :: xs, b => next a = some x ∧ Seg next (some x) xs b

/-- The last node of a segment. -/
def last : Option α → List α → Option α
  | a, [] => a
  | _, x :: xs => last (some x) xs

section Segments

variable {next next' : Option α → Option α} {a b : Option α} {x : α} {xs ys : List α}

theorem seg_append :
    Seg next a (xs ++ x :: ys) b ↔ Seg next a xs (some x) ∧ Seg next (some x) ys b := by
  induction xs generalizing a with
  | nil => rfl
  | cons y xs ih => exact (and_congr_right fun _ => ih).trans and_assoc.symm

theorem last_append : last a (xs ++ [x]) = some x := by
  induction xs generalizing a with
  | nil => rfl
  | cons y xs ih => exact ih

theorem last_mem (a : Option α) (xs : List α) : last a xs = a ∨ ∃ x ∈ xs, last a xs = some x := by
  induction xs generalizing a with
  | nil => exact .inl rfl
  | cons y xs ih =>
    obtain h | ⟨x, hx, h⟩ := ih (some y)
    · exact .inr ⟨y, List.mem_cons_self, h⟩
    · exact .inr ⟨x, List.mem_cons_of_mem y hx, h⟩

/-- Where the first pointer of a segment leads. -/
theorem Seg.first (h : Seg next a xs b) : next a = (xs.head?.map some).getD b := by
  cases xs with
  | nil => exact h
  | cons x xs => exact h.1

theorem Seg.congr (h : Seg next a xs b) (ha : next' a = next a)
    (hxs : ∀ x ∈ xs, next' (some x) = next (some x)) : Seg next' a xs b := by
  induction xs generalizing a with
  | nil => exact ha.trans h
  | cons x xs ih =>
    obtain ⟨hx, hxs⟩ := List.forall_mem_cons.mp hxs
    exact ⟨ha.trans h.1, ih h.2 hx hxs⟩

/-- The same segment from another node. -/
theorem Seg.restart {a' : Option α} (h : Seg next a xs b) (ha : next' a' = next a)
    (hxs : ∀ x ∈ xs, next' (some x) = next (some x)) : Seg next' a' xs b := by
  cases xs with
  | nil => exact ha.trans h
  | cons x xs =>
    obtain ⟨hx, hxs⟩ := List.forall_mem_cons.mp hxs
    exact ⟨ha.trans h.1, h.2.congr hx hxs⟩

variable [DecidableEq α]

/-- Pointing the last node of a segment elsewhere. -/
theorem Seg.retarget {c : Option α} (h : Seg next a xs b) (ha : ∀ x ∈ xs, a ≠ some x)
    (hnodup : xs.Nodup) : Seg (Function.update next (last a xs) c) a xs c := by
  induction xs generalizing a with
  | nil => exact Function.update_self _ _ _
  | cons x xs ih =>
    obtain ⟨hx, hxs⟩ := List.nodup_cons.mp hnodup
    have hne : a ≠ last (some x) xs := by
      obtain hlast | ⟨y, hy, hlast⟩ := last_mem (some x) xs
      · rw [hlast]
        exact ha x List.mem_cons_self
      · rw [hlast]
        exact ha y (List.mem_cons_of_mem x hy)
    refine ⟨(Function.update_of_ne hne _ _).trans h.1, ih h.2 (fun y hy heq => ?_) hxs⟩
    cases heq
    exact hx hy

end Segments

/-! ## What a list holds -/

structure Represents (l : Links α) (xs : List α) : Prop where
  nodup : xs.Nodup
  next : Seg l.next none xs none
  prev : Seg l.prev none xs.reverse none
  alone : ∀ x ∉ xs, l.next (some x) = some x ∧ l.prev (some x) = some x

variable {l : Links α} {x : α} {xs ys : List α}

theorem represents_empty : (empty : Links α).Represents [] :=
  ⟨List.nodup_nil, rfl, rfl, fun _ _ => ⟨rfl, rfl⟩⟩

namespace Represents

theorem flip (h : l.Represents xs) : l.flip.Represents xs.reverse :=
  ⟨List.nodup_reverse.mpr h.nodup, h.prev, by rw [List.reverse_reverse]; exact h.next,
    fun x hx => (h.alone x fun hmem => hx (List.mem_reverse.mpr hmem)).symm⟩

theorem next_none (h : l.Represents xs) : l.next none = xs.head? := by
  rw [h.next.first]
  cases xs with
  | nil => rfl
  | cons x xs => rfl

theorem prev_none (h : l.Represents xs) : l.prev none = last none xs := by
  rw [h.prev.first]
  obtain rfl | ⟨ys, y, rfl⟩ := List.eq_nil_or_concat xs
  · rfl
  · rw [List.concat_eq_append, last_append, List.reverse_append]
    rfl

theorem next_of_mem (h : l.Represents (xs ++ x :: ys)) :
    l.next (some x) = ys.head? := by
  rw [(seg_append.mp h.next).2.first]
  cases ys with
  | nil => rfl
  | cons y ys => rfl

theorem prev_of_mem (h : l.Represents (xs ++ x :: ys)) : l.prev (some x) = last none xs := by
  have hprev := h.prev
  rw [List.reverse_append, List.reverse_cons, List.append_assoc] at hprev
  rw [(seg_append.mp hprev).2.first]
  obtain rfl | ⟨zs, z, rfl⟩ := List.eq_nil_or_concat xs
  · rfl
  · rw [List.concat_eq_append, last_append, List.reverse_append]
    rfl

variable [DecidableEq α]

theorem linked_iff (h : l.Represents xs) : l.linked x = true ↔ x ∈ xs := by
  unfold linked
  rw [decide_eq_true_iff]
  refine ⟨fun hne => ?_, fun hx heq => ?_⟩
  · by_contra hx
    exact hne (h.alone x hx).1
  · obtain ⟨ys, zs, rfl⟩ := List.append_of_mem hx
    rw [h.next_of_mem] at heq
    have hnodup := (List.nodup_append.mp h.nodup).2.1
    exact (List.nodup_cons.mp hnodup).1 (List.mem_of_mem_head? heq)

theorem addTail (h : l.Represents xs) (hx : x ∉ xs) : (l.addTail x).Represents (xs ++ [x]) := by
  have hlast : ∀ y, y ∉ xs → last none xs ≠ some y := by
    intro y hy heq
    obtain hnone | ⟨z, hz, hsome⟩ := last_mem (none : Option α) xs
    · rw [hnone] at heq
      cases heq
    · rw [hsome] at heq
      cases heq
      exact hy hz
  have hne : ∀ y ∈ xs, some y ≠ some x := fun y hy heq => hx (Option.some.inj heq ▸ hy)
  refine ⟨List.nodup_append.mpr ⟨h.nodup, List.nodup_singleton x, ?_⟩, ?_, ?_, ?_⟩
  · intro y hy z hz heq
    exact hne y hy (congrArg some (heq.trans (List.mem_singleton.mp hz)))
  · rw [seg_append]
    unfold Links.addTail
    simp only [h.prev_none]
    refine ⟨?_, ?_⟩
    · refine Seg.retarget (h.next.congr ?_ fun y hy => ?_) (fun y _ => nofun) h.nodup
      · exact Function.update_of_ne (Option.some_ne_none x).symm _ _
      · exact Function.update_of_ne (hne y hy) _ _
    · refine (Function.update_of_ne (hlast x hx).symm _ _).trans ?_
      exact Function.update_self _ _ _
  · rw [List.reverse_append]
    refine ⟨?_, h.prev.restart ?_ fun y hy => ?_⟩
    · exact (Function.update_of_ne (f := Function.update l.prev none (some x))
        (Option.some_ne_none x).symm (l.prev none)).trans (Function.update_self _ _ _)
    · exact Function.update_self _ _ _
    · exact (Function.update_of_ne (hne y (List.mem_reverse.mp hy)) _ _).trans
        (Function.update_of_ne (Option.some_ne_none y) _ _)
  · intro y hy
    rw [List.mem_append, List.mem_singleton, not_or] at hy
    have hyx : some y ≠ some x := fun heq => hy.2 (Option.some.inj heq)
    unfold Links.addTail
    simp only [h.prev_none]
    refine ⟨?_, ?_⟩
    · rw [Function.update_of_ne (hlast y hy.1).symm, Function.update_of_ne hyx]
      exact (h.alone y hy.1).1
    · rw [Function.update_of_ne hyx, Function.update_of_ne (Option.some_ne_none y)]
      exact (h.alone y hy.1).2

/-- The pointers forward after `list_del` of an entry of the list. -/
theorem seg_next_del (h : l.Represents (xs ++ x :: ys)) :
    Seg (l.del x).next none (xs ++ ys) none := by
  obtain ⟨hxs, hys⟩ := seg_append.mp h.next
  obtain ⟨hnodup, hnodup', hdisj⟩ := List.nodup_append.mp h.nodup
  have hseg : Seg (Function.update l.next (last none xs) ys.head?) none xs ys.head? :=
    hxs.retarget (fun y _ => nofun) hnodup
  have hkeep : Seg (l.del x).next none xs ys.head? := by
    unfold Links.del
    simp only [h.next_of_mem, h.prev_of_mem]
    refine hseg.congr (Function.update_of_ne (Option.some_ne_none x).symm _ _) fun y hy =>
      Function.update_of_ne ?_ _ _
    intro heq
    exact hdisj y hy x List.mem_cons_self (Option.some.inj heq)
  cases ys with
  | nil =>
    rw [List.append_nil]
    exact hkeep
  | cons y ys =>
    refine seg_append.mpr ⟨hkeep, hys.2.congr ?_ fun z hz => ?_⟩
    all_goals
      unfold Links.del
      simp only [h.next_of_mem, h.prev_of_mem]
      rw [Function.update_of_ne, Function.update_of_ne]
      · intro heq
        obtain hnone | ⟨w, hw, hsome⟩ := last_mem (none : Option α) xs
        · rw [hnone] at heq
          cases heq
        · rw [hsome] at heq
          refine hdisj w hw _ ?_ (Option.some.inj heq).symm
          simp_all
      · intro heq
        refine (List.nodup_cons.mp hnodup').1 ?_
        rw [← Option.some.inj heq]
        simp_all

theorem del (h : l.Represents xs) : (l.del x).Represents (xs.erase x) := by
  by_cases hx : x ∈ xs
  · obtain ⟨ys, zs, rfl⟩ := List.append_of_mem hx
    have hnodup := h.nodup
    have hys : x ∉ ys := fun hmem =>
      (List.nodup_append.mp hnodup).2.2 x hmem x List.mem_cons_self rfl
    rw [List.erase_append_right _ hys, List.erase_cons_head]
    refine ⟨?_, h.seg_next_del, ?_, fun y hy => ?_⟩
    · exact hnodup.sublist ((List.sublist_cons_self x zs).append_left ys)
    · -- the pointers backward are those forward of the flipped list
      have hflip := h.flip
      rw [List.reverse_append, List.reverse_cons, List.append_assoc] at hflip
      rw [List.reverse_append]
      exact hflip.seg_next_del
    · unfold Links.del
      simp only [h.next_of_mem, h.prev_of_mem]
      by_cases hyx : y = x
      · rw [hyx, Function.update_self, Function.update_self]
        exact ⟨rfl, rfl⟩
      · have hne : some y ≠ some x := fun heq => hyx (Option.some.inj heq)
        have hmem : y ∉ ys ++ x :: zs := fun hmem => hy (by simp_all)
        rw [Function.update_of_ne hne, Function.update_of_ne hne, Function.update_of_ne,
          Function.update_of_ne]
        · exact h.alone y hmem
        · intro heq
          exact hy (List.mem_append_right _ (List.mem_of_mem_head? heq.symm))
        · intro heq
          obtain hnone | ⟨w, hw, hsome⟩ := last_mem (none : Option α) ys
          · rw [hnone] at heq
            cases heq
          · rw [hsome] at heq
            exact hy (List.mem_append_left _ (Option.some.inj heq ▸ hw))
  · -- an entry that points to itself
    have halone := h.alone x hx
    have heq : l.del x = l := by
      unfold Links.del
      simp only [halone.1, halone.2, Function.update_idem]
      have hnext := Function.update_eq_self (some x) l.next
      have hprev := Function.update_eq_self (some x) l.prev
      rw [halone.1] at hnext
      rw [halone.2] at hprev
      rw [hnext, hprev]
    rw [heq, List.erase_of_not_mem hx]
    exact h

end Represents

/-! ## Lists that hold something -/

section Linked

variable [DecidableEq α] {y : α}

theorem linked_empty (x : α) : (empty : Links α).linked x = false := by
  have h := represents_empty.linked_iff (x := x)
  rw [← Bool.not_eq_true, h]
  exact List.not_mem_nil

theorem linked_addTail (h : l.Represents xs) (hx : l.linked x = false) :
    (l.addTail x).linked y = true ↔ l.linked y = true ∨ y = x := by
  have hmem : x ∉ xs := fun hmem => Bool.false_ne_true (hx.symm.trans (h.linked_iff.mpr hmem))
  rw [(h.addTail hmem).linked_iff, h.linked_iff, List.mem_append, List.mem_singleton]

theorem linked_del (h : l.Represents xs) :
    (l.del x).linked y = true ↔ l.linked y = true ∧ y ≠ x := by
  rw [h.del.linked_iff, h.linked_iff, h.nodup.mem_erase_iff, and_comm]

theorem linked_of_next (h : l.Represents xs) (hx : l.next none = some x) : l.linked x = true := by
  rw [h.next_none] at hx
  exact h.linked_iff.mpr (List.mem_of_mem_head? hx)

end Linked

end Links
