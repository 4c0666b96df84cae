import Mathlib.Data.List.MinMax
import Mathlib.Data.List.Nodup

/-!
# The best offer for each key

A list has one place for each key.  The first offer for a key gets a place behind the others, and a
later one takes the place over if it is better than what is there.

`find_take`: what has the place in the end is the first of the best offers.
-/

namespace Offers

variable {α κ ρ : Type} [DecidableEq κ] [LinearOrder ρ] (key : α → κ) (rank : α → ρ)

def offer (x : α) : List α → List α
  | [] => [x]
  | y :: ys =>
    if key y = key x then if rank x < rank y then x :: ys else y :: ys else y :: offer x ys

/-- The list after all offers. -/
def take (xs : List α) : List α := xs.foldl (fun l x => offer key rank x l) []

@[simp] theorem take_nil : take key rank [] = [] := rfl

@[simp] theorem take_concat (xs : List α) (x : α) :
    take key rank (xs ++ [x]) = offer key rank x (take key rank xs) := by
  simp [take]

/-! ## Keys -/

theorem map_key_offer (x : α) (l : List α) :
    (offer key rank x l).map key =
      if key x ∈ l.map key then l.map key else l.map key ++ [key x] := by
  induction l with
  | nil => simp [offer]
  | cons y ys ih =>
    unfold offer
    by_cases hk : key y = key x
    · have hmem : key x ∈ (y :: ys).map key := by simp [hk]
      rw [if_pos hk, if_pos hmem]
      split
      · rw [List.map_cons, List.map_cons, hk]
      · rfl
    · have hmem : key x ∈ (y :: ys).map key ↔ key x ∈ ys.map key := by
        rw [List.map_cons, List.mem_cons]
        exact or_iff_right fun h => hk h.symm
      rw [if_neg hk, List.map_cons, ih]
      simp only [hmem]
      split <;> rfl

theorem nodup_offer {l : List α} (x : α) (h : (l.map key).Nodup) :
    ((offer key rank x l).map key).Nodup := by
  rw [map_key_offer]
  split
  · exact h
  next hmem => exact List.nodup_append.mpr ⟨h, List.nodup_singleton _, by simpa using hmem⟩

theorem nodup_take (xs : List α) : ((take key rank xs).map key).Nodup := by
  induction xs using List.reverseRecOn with
  | nil => simp
  | append_singleton xs x ih => simpa using nodup_offer key rank x ih

/-! ## Places -/

/-- What has the place of a key. -/
def place (k : κ) (l : List α) : Option α := l.find? fun y => decide (key y = k)

theorem place_offer_of_ne {x : α} {k : κ} (hk : key x ≠ k) (l : List α) :
    place key k (offer key rank x l) = place key k l := by
  unfold place
  induction l with
  | nil => simp [offer, hk]
  | cons y ys ih =>
    unfold offer
    by_cases hy : key y = key x
    · have hyk : key y ≠ k := hy ▸ hk
      rw [if_pos hy]
      split <;> simp [hk, hyk]
    · rw [if_neg hy, List.find?_cons, List.find?_cons, ih]

/-- An offer against what has the place. -/
theorem place_offer (x : α) (l : List α) :
    place key (key x) (offer key rank x l) =
      match place key (key x) l with
      | none => some x
      | some y => if rank x < rank y then some x else some y := by
  unfold place
  induction l with
  | nil => simp [offer]
  | cons y ys ih =>
    unfold offer
    by_cases hy : key y = key x
    · rw [if_pos hy, List.find?_cons_of_pos (by simp [hy])]
      split
      next hlt => simp [hlt]
      next hlt => simp [hlt, hy]
    · rw [if_neg hy, List.find?_cons_of_neg (by simp [hy]), ih,
        List.find?_cons_of_neg (by simp [hy])]

/-- The place of a key goes to the first of the best offers for it. -/
theorem place_take (xs : List α) (k : κ) :
    place key k (take key rank xs) =
      (xs.filter fun x => decide (key x = k)).argmin rank := by
  induction xs using List.reverseRecOn with
  | nil => simp [place]
  | append_singleton xs x ih =>
    rw [take_concat, List.filter_append]
    by_cases hk : key x = k
    · subst hk
      have hsingle : [x].filter (fun y => decide (key y = key x)) = [x] := by simp
      rw [place_offer, ih, hsingle, List.argmin_concat]
      cases (xs.filter fun y => decide (key y = key x)).argmin rank <;> rfl
    · rw [place_offer_of_ne key rank hk, ih]
      simp [hk]

theorem place_eq_some {l : List α} (h : (l.map key).Nodup) {x : α} :
    place key (key x) l = some x ↔ x ∈ l := by
  unfold place
  constructor
  · exact List.mem_of_find?_eq_some
  · intro hx
    obtain ⟨y, hy⟩ := Option.isSome_iff_exists.mp
      (List.find?_isSome (p := fun y => decide (key y = key x)).mpr ⟨x, hx, by simp⟩)
    have hk : key y = key x := by simpa using List.find?_some hy
    rw [hy, List.inj_on_of_nodup_map h (List.mem_of_find?_eq_some hy) hx hk]

/-- The members of the list are the first of the best offers for their keys. -/
theorem mem_take {xs : List α} {x : α} :
    x ∈ take key rank xs ↔
      (xs.filter fun y => decide (key y = key x)).argmin rank = some x := by
  rw [← place_take key rank xs (key x), place_eq_some key (nodup_take key rank xs)]

end Offers
