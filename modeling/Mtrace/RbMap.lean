import Mathlib.Logic.Function.Basic
import Mathlib.Order.Defs.LinearOrder
import Mtrace.RbTree

/-!
# A tree as a map

A tree whose entries are in the order of their keys, no two with the same one, is a map from keys to
entries: linking a node, writing to one and taking one out change it at one key.
-/

namespace RbTree

universe u v

variable {α : Type u} {κ : Type v} [LinearOrder κ] (key : α → κ)

open RbRoot RbPath

/-- The descent for a key. -/
def keyCut (a : κ) (v : α) : Ordering :=
  if a < key v then .lt else if key v < a then .gt else .eq

/-- The entries are in the order of their keys. -/
def RbRoot.Sorted (t : RbRoot α) : Prop := t.toList.Pairwise fun v w => key v < key w

/-- The entry of a key. -/
def RbRoot.entry (t : RbRoot α) (a : κ) : Option α := (t.find (keyCut key a)).map Loc.val

section Map

variable {key} {t : RbRoot α} {x : Loc α} {a b : κ} {v w : α}

theorem keyCut_eq_eq : keyCut key a v = .eq ↔ key v = a := by
  unfold keyCut
  split
  next hlt => exact iff_of_false (fun h => by cases h) hlt.ne'
  split
  next hlt => exact iff_of_false (fun h => by cases h) hlt.ne
  next hle hge => exact ⟨fun _ => le_antisymm (not_lt.mp hle) (not_lt.mp hge), fun _ => rfl⟩

theorem sorted_nil : (nil : RbRoot α).Sorted key := .nil

theorem monoCut_keyCut (h : t.Sorted key) (a : κ) : MonoCut (keyCut key a) t.toList := by
  refine h.imp fun {v w} hlt => ?_
  have hgt : keyCut key a w ≠ .lt → keyCut key a v = .gt := by
    unfold keyCut
    split
    next => exact fun hne => absurd rfl hne
    next hge =>
      have hva := hlt.trans_le (not_lt.mp hge)
      intro _
      rw [if_neg hva.not_gt, if_pos hva]
  exact ⟨fun hne => by rw [hgt hne]; decide, fun heq => hgt (by rw [heq]; decide)⟩

/-- Two entries with the same key are the same. -/
theorem RbRoot.Sorted.key_inj (h : t.Sorted key) (hv : v ∈ t.toList) (hw : w ∈ t.toList)
    (heq : key v = key w) : v = w := by
  have hne : t.toList.Pairwise fun v w => key v ≠ key w := List.Pairwise.imp ne_of_lt h
  have hnodup : (t.toList.map key).Nodup := List.pairwise_map.mpr hne
  exact List.inj_on_of_nodup_map hnodup hv hw heq

theorem find_key (h : t.find (keyCut key a) = some x) : x.tree = t ∧ key x.val = a := by
  obtain ⟨htree, hcut⟩ := find_some h
  exact ⟨htree, keyCut_eq_eq.mp hcut⟩

theorem RbRoot.Sorted.entry_eq_some (h : t.Sorted key) :
    t.entry key a = some v ↔ v ∈ t.toList ∧ key v = a := by
  unfold RbRoot.entry
  constructor
  · intro hentry
    obtain ⟨x, hfind, rfl⟩ := Option.map_eq_some_iff.mp hentry
    exact ⟨mem_of_find hfind, (find_key hfind).2⟩
  · rintro ⟨hv, hkey⟩
    cases hfind : t.find (keyCut key a) with
    | none =>
      have hne := (find_eq_none_iff (monoCut_keyCut h a)).mp hfind v hv
      exact absurd (keyCut_eq_eq.mpr hkey) hne
    | some x =>
      have hsame := h.key_inj (mem_of_find hfind) hv ((find_key hfind).2.trans hkey.symm)
      exact congrArg some hsame

/-! ### Changes -/

/-- A tree with other entries is the map with another entry. -/
theorem entry_eq_update {t' : RbRoot α} {r : Option α} (h : t.Sorted key) (h' : t'.Sorted key)
    (hself : ∀ w, r = some w ↔ w ∈ t'.toList ∧ key w = a)
    (hother : ∀ w, key w ≠ a → (w ∈ t'.toList ↔ w ∈ t.toList)) :
    t'.entry key = Function.update (t.entry key) a r := by
  funext b
  apply Option.ext
  intro w
  rw [h'.entry_eq_some]
  by_cases hb : b = a
  · subst hb
    rw [Function.update_self]
    exact (hself w).symm
  · rw [Function.update_of_ne hb, h.entry_eq_some]
    constructor
    · rintro ⟨hw, rfl⟩
      exact ⟨(hother w hb).mp hw, rfl⟩
    · rintro ⟨hw, rfl⟩
      exact ⟨(hother w hb).mpr hw, rfl⟩

/-- Linking a node where the search for its key ended. -/
theorem sorted_insertNew (h : t.Sorted key) (hfind : t.find (keyCut key a) = none)
    (hv : key v = a) : ((t.gap (keyCut key a)).insertNew v).Sorted key ∧
      ((t.gap (keyCut key a)).insertNew v).entry key =
        Function.update (t.entry key) a (some v) := by
  subst hv
  have hlist := toList_of_find_none hfind
  obtain ⟨hbefore, hafter⟩ := gap_cut (monoCut_keyCut h (key v))
  have hlt : ∀ w ∈ (t.gap (keyCut key (key v))).before, key w < key v := by
    intro w hw
    have hcut := hbefore w hw
    unfold keyCut at hcut
    split at hcut
    · cases hcut
    split at hcut
    · assumption
    · cases hcut
  have hgt : ∀ w ∈ (t.gap (keyCut key (key v))).after, key v < key w := by
    intro w hw
    have hcut := hafter w hw
    unfold keyCut at hcut
    split at hcut
    · assumption
    split at hcut <;> cases hcut
  have hsorted : ((t.gap (keyCut key (key v))).insertNew v).Sorted key := by
    have hold := h
    unfold RbRoot.Sorted at hold ⊢
    rw [hlist, List.pairwise_append] at hold
    obtain ⟨hb, ha, hba⟩ := hold
    rw [toList_insertNew, List.pairwise_append, List.pairwise_cons]
    refine ⟨hb, ⟨hgt, ha⟩, fun w hw u hu => ?_⟩
    rcases List.mem_cons.mp hu with rfl | hu
    · exact hlt w hw
    · exact hba w hw u hu
  refine ⟨hsorted, entry_eq_update h hsorted (fun w => ?_) fun w hw => ?_⟩
  · have hv : v ∈ ((t.gap (keyCut key (key v))).insertNew v).toList := by
      rw [toList_insertNew]
      exact List.mem_append_right _ List.mem_cons_self
    constructor
    · intro hsome
      cases hsome
      exact ⟨hv, rfl⟩
    · rintro ⟨hw, hkey⟩
      rw [hsorted.key_inj hv hw hkey.symm]
  · rw [toList_insertNew, hlist, List.mem_append, List.mem_append, List.mem_cons]
    have hne : w ≠ v := fun heq => hw (congrArg key heq)
    exact or_congr_right (or_iff_right hne)

/-- Writing to a node with the same key. -/
theorem sorted_set (h : t.Sorted key) (hfind : t.find (keyCut key a) = some x) (hv : key v = a) :
    (x.set v).Sorted key ∧ (x.set v).entry key = Function.update (t.entry key) a (some v) := by
  obtain ⟨htree, hx⟩ := find_key hfind
  have hlist := toList_of_find hfind
  have hset := toList_set x v
  have hsorted : (x.set v).Sorted key := by
    have hold := h
    unfold RbRoot.Sorted at hold ⊢
    rw [hlist, List.pairwise_append, List.pairwise_cons] at hold
    rw [hset, List.pairwise_append, List.pairwise_cons]
    obtain ⟨hb, ⟨hva, ha⟩, hba⟩ := hold
    have hsame : key x.val = key v := hx.trans hv.symm
    refine ⟨hb, ⟨fun w hw => hsame ▸ hva w hw, ha⟩, fun w hw u hu => ?_⟩
    rcases List.mem_cons.mp hu with rfl | hu
    · exact hsame ▸ hba w hw x.val List.mem_cons_self
    · exact hba w hw u (List.mem_cons_of_mem _ hu)
  have hin : v ∈ (x.set v).toList := by
    rw [hset]
    exact List.mem_append_right _ List.mem_cons_self
  refine ⟨hsorted, entry_eq_update h hsorted (fun w => ?_) fun w hw => ?_⟩
  · constructor
    · intro hsome
      cases hsome
      exact ⟨hin, hv⟩
    · rintro ⟨hw, hkey⟩
      rw [hsorted.key_inj hin hw (hv.trans hkey.symm)]
  · rw [hset, hlist, List.mem_append, List.mem_append, List.mem_cons, List.mem_cons]
    have hne : w ≠ v := fun heq => hw (heq ▸ hv)
    have hne' : w ≠ x.val := fun heq => hw (heq ▸ hx)
    exact or_congr_right ((or_iff_right hne).trans (or_iff_right hne').symm)

/-- Taking a node out. -/
theorem sorted_erase (h : t.Sorted key) (hfind : t.find (keyCut key a) = some x) :
    x.erase.Sorted key ∧ x.erase.entry key = Function.update (t.entry key) a none := by
  obtain ⟨htree, hx⟩ := find_key hfind
  have hlist := toList_of_find hfind
  have herase := toList_erase x
  have hold := h
  unfold RbRoot.Sorted at hold
  rw [hlist] at hold
  have hsorted : x.erase.Sorted key := by
    unfold RbRoot.Sorted
    rw [herase]
    exact hold.sublist ((List.sublist_cons_self _ _).append_left _)
  have hgone : ∀ w ∈ x.erase.toList, key w ≠ a := by
    intro w hw heq
    rw [herase] at hw
    rw [List.pairwise_append, List.pairwise_cons] at hold
    obtain ⟨-, ⟨hva, -⟩, hba⟩ := hold
    rcases List.mem_append.mp hw with hw | hw
    · exact (hba w hw x.val List.mem_cons_self).ne (heq.trans hx.symm)
    · exact (hva w hw).ne (hx.trans heq.symm)
  refine ⟨hsorted, entry_eq_update h hsorted (fun w => ?_) fun w hw => ?_⟩
  · constructor
    · exact fun hnone => by cases hnone
    · exact fun hw => absurd hw.2 (hgone w hw.1)
  · rw [herase, hlist, List.mem_append, List.mem_append, List.mem_cons]
    have hne : w ≠ x.val := fun heq => hw (heq ▸ hx)
    exact or_congr_right (or_iff_right hne).symm

end Map

end RbTree
