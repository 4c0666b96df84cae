import Mathlib.Data.List.Nodup
import Mathlib.Logic.Function.Basic

/-!
# Hash tables of lists

A table has a list of entries for each hash value.  While each entry is in the list of its key and
no list has a key twice, the table is a partial function from keys to entries. -/

namespace Buckets

variable {I K E : Type*}

/-- Each entry is in the list of its key, and no list has a key twice. -/
structure Valid (key : E → K) (hash : K → I) (b : I → List E) : Prop where
  hashed : ∀ i, ∀ e ∈ b i, hash (key e) = i
  nodup : ∀ i, ((b i).map key).Nodup

theorem valid_empty (key : E → K) (hash : K → I) : Valid key hash fun _ => [] :=
  ⟨fun _ _ he => absurd he List.not_mem_nil, fun _ => List.nodup_nil⟩

section Enumeration

variable {key : E → K} {hash : K → I} {b : I → List E} {is : List I}

/-- The entries of some lists have different keys. -/
theorem Valid.nodup_flatMap (h : Valid key hash b) (his : is.Nodup) :
    ((is.flatMap b).map key).Nodup := by
  induction is with
  | nil => exact List.nodup_nil
  | cons i is ih =>
    obtain ⟨hi, his⟩ := List.nodup_cons.mp his
    rw [List.flatMap_cons, List.map_append, List.nodup_append]
    refine ⟨h.nodup i, ih his, ?_⟩
    rintro k hk k' hk' rfl
    obtain ⟨e, he, rfl⟩ := List.mem_map.mp hk
    obtain ⟨e', he', hkey⟩ := List.mem_map.mp hk'
    obtain ⟨j, hj, he'⟩ := List.mem_flatMap.mp he'
    refine hi ?_
    rw [← h.hashed i e he, ← hkey, h.hashed j e' he']
    exact hj

/-- An entry is in a list with the hash value of its key, or in none. -/
theorem Valid.mem_flatMap (h : Valid key hash b) {e : E} (his : hash (key e) ∈ is) :
    e ∈ is.flatMap b ↔ e ∈ b (hash (key e)) := by
  rw [List.mem_flatMap]
  constructor
  · rintro ⟨i, -, he⟩
    rwa [h.hashed i e he]
  · exact fun he => ⟨_, his, he⟩

end Enumeration

section Finding

variable [DecidableEq K]

/-- The entry of a key. -/
def find (key : E → K) (hash : K → I) (b : I → List E) (k : K) : Option E :=
  (b (hash k)).find? (key · = k)

variable {key : E → K} {hash : K → I} {b : I → List E} {e x : E} {k : K} {ys zs : List E}

theorem find_eq_none_iff : find key hash b k = none ↔ ∀ e ∈ b (hash k), key e ≠ k := by
  unfold find
  rw [List.find?_eq_none]
  simp only [decide_eq_true_eq, ne_eq]

omit [DecidableEq K] in
/-- The other entries of a list have other keys. -/
theorem Valid.key_ne (h : Valid key hash b) {i : I} (hsplit : b i = ys ++ e :: zs)
    (hx : x ∈ ys ++ zs) : key x ≠ key e := by
  intro heq
  have hnodup := h.nodup i
  rw [hsplit, List.map_append, List.map_cons, List.nodup_middle, List.nodup_cons,
    ← List.map_append] at hnodup
  exact hnodup.1 (heq ▸ List.mem_map_of_mem hx)

theorem Valid.find_eq_some_iff (h : Valid key hash b) :
    find key hash b k = some e ↔ e ∈ b (hash k) ∧ key e = k := by
  unfold find
  constructor
  · intro hfind
    exact ⟨List.mem_of_find?_eq_some hfind, by simpa using List.find?_some hfind⟩
  · rintro ⟨he, rfl⟩
    obtain ⟨ys, zs, hsplit⟩ := List.append_of_mem he
    rw [hsplit, List.find?_eq_some_iff_append]
    refine ⟨by simp, ys, zs, rfl, fun y hy => ?_⟩
    rw [Bool.not_eq_true', decide_eq_false_iff_not]
    exact h.key_ne hsplit (List.mem_append_left _ hy)

end Finding

section Updates

variable [DecidableEq I] [DecidableEq K]

/-- An entry is put in front of the list of its key. -/
def insert (key : E → K) (hash : K → I) (b : I → List E) (e : E) : I → List E :=
  Function.update b (hash (key e)) (e :: b (hash (key e)))

/-- The entry of a key is taken out of its list. -/
def erase (key : E → K) (hash : K → I) (b : I → List E) (k : K) : I → List E :=
  Function.update b (hash k) ((b (hash k)).eraseP (key · = k))

variable {key : E → K} {hash : K → I} {b : I → List E} {e x : E} {k : K} {ys zs : List E}

theorem Valid.insert (h : Valid key hash b) (hnew : find key hash b (key e) = none) :
    Valid key hash (insert key hash b e) := by
  refine ⟨fun i x hx => ?_, fun i => ?_⟩
  all_goals unfold Buckets.insert at *
  · by_cases hi : i = hash (key e)
    · rw [hi, Function.update_self, List.mem_cons] at hx
      rcases hx with rfl | hx
      · exact hi.symm
      · rw [hi, h.hashed _ x hx]
    · rw [Function.update_of_ne hi] at hx
      exact h.hashed i x hx
  · by_cases hi : i = hash (key e)
    · rw [hi, Function.update_self, List.map_cons, List.nodup_cons]
      refine ⟨fun hmem => ?_, h.nodup _⟩
      obtain ⟨x, hx, hkey⟩ := List.mem_map.mp hmem
      exact find_eq_none_iff.mp hnew x hx hkey
    · rw [Function.update_of_ne hi]
      exact h.nodup i

theorem find_insert (e : E) :
    find key hash (insert key hash b e) = Function.update (find key hash b) (key e) (some e) := by
  funext k
  unfold find insert
  by_cases hk : k = key e
  · rw [hk, Function.update_self, Function.update_self, List.find?_cons_of_pos (by simp)]
  · rw [Function.update_of_ne hk]
    by_cases hi : hash k = hash (key e)
    · rw [hi, Function.update_self, List.find?_cons_of_neg (by simpa using Ne.symm hk)]
    · rw [Function.update_of_ne hi]

theorem erase_sublist (k : K) (i : I) : (erase key hash b k i).Sublist (b i) := by
  unfold erase
  by_cases hi : i = hash k
  · rw [hi, Function.update_self]
    exact List.eraseP_sublist
  · rw [Function.update_of_ne hi]

/-- The other entries stay. -/
theorem mem_erase_of_ne (hx : key x ≠ k) (i : I) : x ∈ erase key hash b k i ↔ x ∈ b i := by
  unfold erase
  by_cases hi : i = hash k
  · rw [hi, Function.update_self, List.mem_eraseP_of_neg (by simpa using hx)]
  · rw [Function.update_of_ne hi]

theorem erase_of_find_eq_none (hnone : find key hash b k = none) : erase key hash b k = b := by
  unfold erase
  rw [List.eraseP_of_forall_not, Function.update_eq_self]
  intro e he
  rw [decide_eq_true_eq]
  exact find_eq_none_iff.mp hnone e he

/-- What is taken out is the only entry of its key. -/
theorem Valid.erase_eq (h : Valid key hash b) (hsplit : b (hash (key e)) = ys ++ e :: zs) :
    erase key hash b (key e) = Function.update b (hash (key e)) (ys ++ zs) := by
  unfold erase
  rw [hsplit, List.eraseP_append_right, List.eraseP_cons_of_pos (by simp)]
  intro y hy
  rw [decide_eq_true_eq]
  exact h.key_ne hsplit (List.mem_append_left _ hy)

theorem Valid.erase (h : Valid key hash b) (k : K) : Valid key hash (erase key hash b k) :=
  ⟨fun i x hx => h.hashed i x ((erase_sublist k i).mem hx),
    fun i => (h.nodup i).sublist ((erase_sublist k i).map key)⟩

theorem Valid.find_erase (h : Valid key hash b) (k : K) :
    find key hash (Buckets.erase key hash b k) = Function.update (find key hash b) k none := by
  funext k'
  by_cases hk : k' = k
  · rw [hk, Function.update_self]
    cases hfind : find key hash b k with
    | none => rw [erase_of_find_eq_none hfind, hfind]
    | some e =>
      obtain ⟨he, rfl⟩ := h.find_eq_some_iff.mp hfind
      obtain ⟨ys, zs, hsplit⟩ := List.append_of_mem he
      rw [h.erase_eq hsplit, find_eq_none_iff, Function.update_self]
      exact fun x hx => h.key_ne hsplit hx
  · rw [Function.update_of_ne hk]
    ext x
    rw [(h.erase k).find_eq_some_iff, h.find_eq_some_iff]
    constructor
    · rintro ⟨hx, rfl⟩
      exact ⟨(mem_erase_of_ne hk _).mp hx, rfl⟩
    · rintro ⟨hx, rfl⟩
      exact ⟨(mem_erase_of_ne hk _).mpr hx, rfl⟩

end Updates

end Buckets
