import Mathlib.Data.List.Nodup
import Mathlib.Data.UInt
import Mtrace.Buckets
import Mtrace.Rings

/-!
# The dictionary of breakpoints

`dict.c`: a hash table with a circular list for each bucket, with the hash and the comparison of
addresses of `breakpoint.c`.

The lists have the entries of a hash table, `Dict.Holds`, so that the functions are those of a
partial function.  `dict_apply_to_all` goes on at the entry behind the one it calls for, which it
has read before; so the call can take its own entry out. -/

namespace Mtrace.Server

/-! ## The functions of `dict.c` -/

/-- `struct dict_entry` behind its list head. -/
@[ext] structure DictEntry where
  key : UInt64
  value : UInt64
  deriving DecidableEq, Repr

/-- A `struct list_head`: that of a bucket, or that of the entry at an address. -/
inductive DictNode where
  | bucket (i : UInt32)
  | entry (p : ℕ)
  deriving DecidableEq, Repr

/-- `struct dict` and the entries in memory.  An entry gets the number of those before it as its
address, and there is none after `free`. -/
structure Dict where
  size : UInt32
  key2hash : UInt64 → UInt32
  keyCmp : UInt64 → UInt64 → ℤ
  heads : ListHeads DictNode
  entries : ℕ → Option DictEntry
  allocated : ℕ

/-- `dict_init`, in memory with any pointers. -/
def dictInit (heads : ListHeads DictNode) (size : UInt32) (key2hash : UInt64 → UInt32)
    (keyCmp : UInt64 → UInt64 → ℤ) : Dict where
  size := size
  key2hash := key2hash
  keyCmp := keyCmp
  heads := (List.range size.toNat).foldl (fun l i => l.init (.bucket (.ofNat i))) heads
  entries _ := none
  allocated := 0

namespace Dict

/-- The bucket of a key. -/
def bucketOf (d : Dict) (key : UInt64) : UInt32 := d.key2hash key % d.size

/-- `container_of`. -/
def entryOf (d : Dict) : DictNode → Option (ℕ × DictEntry)
  | .bucket _ => none
  | .entry p => (d.entries p).map (p, ·)

/-- The loop of `_dict_find_entry`, from a list head on. -/
def findLoop (d : Dict) (key : UInt64) (head : DictNode) :
    ℕ → DictNode → Option (Option (ℕ × DictEntry))
  | 0, _ => none
  | fuel + 1, it =>
    if it = head then some none
    else (d.entryOf it).bind fun x =>
      if d.keyCmp key x.2.key = 0 then some (some x) else findLoop d key head fuel (d.heads.next it)

/-- `_dict_find_entry`. -/
def findEntry (d : Dict) (key : UInt64) (hash : UInt32) : Option (Option (ℕ × DictEntry)) :=
  d.findLoop key (.bucket hash) (d.allocated + 1) (d.heads.next (.bucket hash))

/-- The new entry of `dict_add` in front of its bucket. -/
def addEntry (d : Dict) (key value : UInt64) : Dict :=
  let p := d.allocated
  { d with
    heads := (d.heads.init (.entry p)).listAdd (.entry p) (.bucket (d.bucketOf key))
    entries := Function.update d.entries p (some ⟨key, value⟩)
    allocated := p + 1 }

/-- `dict_add`. -/
def dictAdd (d : Dict) (key value : UInt64) : Option (ℤ × Dict) :=
  (d.findEntry key (d.bucketOf key)).map fun
    | some _ => (-1, d)
    | none => (0, d.addEntry key value)

/-- `list_del` and `free` of an entry. -/
def freeEntry (d : Dict) (p : ℕ) : Dict :=
  { d with heads := d.heads.listDel (.entry p), entries := Function.update d.entries p none }

/-- `dict_remove_entry`; `NULL` is 0. -/
def dictRemoveEntry (d : Dict) (key : UInt64) : Option (UInt64 × Dict) :=
  (d.findEntry key (d.bucketOf key)).map fun
    | some (p, entry) => (entry.value, d.freeEntry p)
    | none => (0, d)

/-- `dict_find_entry`. -/
def dictFindEntry (d : Dict) (key : UInt64) : Option UInt64 :=
  (d.findEntry key (d.bucketOf key)).map fun
    | some (_, entry) => entry.value
    | none => 0

end Dict

/-- The argument of `dict_apply_to_all`, which can change the dictionary and other things. -/
abbrev DictFunc (σ : Type) := UInt64 → UInt64 → Dict → σ → Option (ℤ × Dict × σ)

namespace Dict

variable {σ : Type}

/-- `list_for_each_safe` of a bucket, from a list head on with the one behind it. -/
def applyLoop (func : DictFunc σ) (head : DictNode) :
    ℕ → DictNode → DictNode → Dict → σ → Option (ℤ × Dict × σ)
  | 0, _, _, _, _ => none
  | fuel + 1, it, next, d, s =>
    if it = head then some (0, d, s)
    else (d.entryOf it).bind fun x =>
      (func x.2.key x.2.value d s).bind fun
        | (ret, d, s) =>
          if ret ≠ 0 then some (-1, d, s) else applyLoop func head fuel next (d.heads.next next) d s

/-- The buckets of `dict_apply_to_all`, from a bucket on. -/
def applyBuckets (func : DictFunc σ) : ℕ → UInt32 → Dict → σ → Option (ℤ × Dict × σ)
  | 0, _, _, _ => none
  | fuel + 1, i, d, s =>
    if i < d.size then
      let it := d.heads.next (.bucket i)
      (applyLoop func (.bucket i) (d.allocated + 1) it (d.heads.next it) d s).bind fun
        | (ret, d, s) => if ret ≠ 0 then some (-1, d, s) else applyBuckets func fuel (i + 1) d s
    else some (0, d, s)

/-- `dict_apply_to_all`. -/
def dictApplyToAll (func : DictFunc σ) (d : Dict) (s : σ) : Option (ℤ × Dict × σ) :=
  applyBuckets func (d.size.toNat + 1) 0 d s

end Dict

/-! ## The functions of `breakpoint.c` -/

/-- The union of `target_address_hash`. -/
def addressParts (addr : UInt64) : List UInt16 :=
  [addr.toUInt16, (addr >>> 16).toUInt16, (addr >>> 32).toUInt16, (addr >>> 48).toUInt16]

/-- `target_address_hash`. -/
def targetAddressHash (key : UInt64) : UInt32 :=
  (addressParts key).foldl
    (fun h v => h + (h >>> (2 : UInt32) ^^^ v.toUInt32 <<< (3 : UInt32))) 4713

/-- `target_address_cmp`. -/
def targetAddressCmp (addr1 addr2 : UInt64) : ℤ :=
  if addr1 < addr2 then 1 else if addr1 > addr2 then -1 else 0

/-- `destroy_breakpoint_cb`: `breakpoint_delete` takes the address of a breakpoint out of the
dictionary that was not deleted before. -/
def destroyBreakpointCb (addr : UInt64 → UInt64) : DictFunc (UInt64 → Bool) :=
  fun _ value d deleted =>
    if deleted value then some (0, d, deleted)
    else (d.dictRemoveEntry (addr value)).map fun
      | (_, d) => (0, d, Function.update deleted value true)

theorem targetAddressCmp_eq_zero_iff {addr1 addr2 : UInt64} :
    targetAddressCmp addr1 addr2 = 0 ↔ addr1 = addr2 := by
  unfold targetAddressCmp
  constructor
  · intro h
    by_cases hlt : addr1 < addr2
    · rw [if_pos hlt] at h
      cases h
    · by_cases hgt : addr1 > addr2
      · rw [if_neg hlt, if_pos hgt] at h
        cases h
      · exact UInt64.le_antisymm (UInt64.not_lt.mp hgt) (UInt64.not_lt.mp hlt)
  · rintro rfl
    rw [if_neg (UInt64.lt_irrefl _), if_neg (UInt64.lt_irrefl _)]

/-! ## The lists of the buckets -/

namespace Dict

/-- The key of an entry at an address. -/
def keyOf (x : ℕ × DictEntry) : UInt64 := x.2.key

/-- The buckets hold the entries `b`, which are in memory. -/
structure Holds (d : Dict) (b : UInt32 → List (ℕ × DictEntry)) : Prop where
  size : 0 < d.size
  cmp : ∀ key1 key2, d.keyCmp key1 key2 = 0 ↔ key1 = key2
  ring : ∀ i, i < d.size → d.heads.Ring (.bucket i) ((b i).map fun x => .entry x.1)
  stored : ∀ i, ∀ x ∈ b i, d.entries x.1 = some x.2
  used : ∀ p, d.allocated ≤ p → d.entries p = none
  valid : Buckets.Valid keyOf d.bucketOf b

/-- The node of the first of these entries, or the head of their bucket behind them. -/
def first (i : UInt32) : List (ℕ × DictEntry) → DictNode
  | [] => .bucket i
  | x :: _ => .entry x.1

section Lists

variable {d : Dict} {b : UInt32 → List (ℕ × DictEntry)} {x : ℕ × DictEntry} {i : UInt32}
  {ys zs : List (ℕ × DictEntry)} {key : UInt64}

theorem bucketOf_lt (hsize : 0 < d.size) (key : UInt64) : d.bucketOf key < d.size :=
  UInt32.mod_lt _ hsize

theorem map_append_bucket (i : UInt32) (zs : List (ℕ × DictEntry)) :
    ∃ ns, (zs.map fun x => DictNode.entry x.1) ++ [.bucket i] = first i zs :: ns := by
  cases zs with
  | nil => exact ⟨[], rfl⟩
  | cons x zs => exact ⟨_, rfl⟩

theorem Holds.next_bucket (h : d.Holds b) (hi : i < d.size) :
    d.heads.next (.bucket i) = first i (b i) := by
  obtain ⟨ns, hns⟩ := map_append_bucket i (b i)
  exact (h.ring i hi).next_head hns

theorem Holds.next_entry (h : d.Holds b) (hi : i < d.size) (hsplit : b i = ys ++ x :: zs) :
    d.heads.next (.entry x.1) = first i zs := by
  obtain ⟨ns, hns⟩ := map_append_bucket i zs
  have hring := h.ring i hi
  rw [hsplit, List.map_append, List.map_cons] at hring
  exact hring.next_entry hns

theorem Holds.entryOf_eq (h : d.Holds b) (hx : x ∈ b i) : d.entryOf (.entry x.1) = some x := by
  unfold entryOf
  dsimp only
  rw [h.stored i x hx]
  rfl

theorem Holds.lt_allocated (h : d.Holds b) (hx : x ∈ b i) : x.1 < d.allocated := by
  by_contra hlt
  have hnone := h.used x.1 (not_lt.mp hlt)
  rw [h.stored i x hx] at hnone
  cases hnone

/-- There is one entry at an address. -/
theorem Holds.eq_of_address (h : d.Holds b) {y : ℕ × DictEntry} {j : UInt32} (hx : x ∈ b i)
    (hy : y ∈ b j) (heq : y.1 = x.1) : y.2 = x.2 := by
  have hstored := h.stored j y hy
  rw [heq, h.stored i x hx] at hstored
  exact (Option.some.inj hstored).symm

/-- A bucket has no more entries than were allocated. -/
theorem Holds.length_le (h : d.Holds b) (hi : i < d.size) : (b i).length ≤ d.allocated := by
  have hnodup : ((b i).map Prod.fst).Nodup := by
    have hring := (List.nodup_cons.mp (h.ring i hi).nodup).2
    have hmap : ((b i).map fun x => DictNode.entry x.1) = ((b i).map Prod.fst).map .entry := by
      rw [List.map_map]
      rfl
    rw [hmap] at hring
    exact hring.of_map
  have hsub : (b i).map Prod.fst ⊆ List.range d.allocated := by
    intro p hp
    obtain ⟨x, hx, rfl⟩ := List.mem_map.mp hp
    exact List.mem_range.mpr (h.lt_allocated hx)
  have hle := (List.subperm_of_subset hnodup hsub).length_le
  rwa [List.length_map, List.length_range] at hle

/-- The heads and entries of two buckets are different. -/
theorem Holds.disjoint (h : d.Holds b) {j : UInt32} (hij : i ≠ j) :
    List.Disjoint (DictNode.bucket i :: (b i).map fun x => DictNode.entry x.1)
      (DictNode.bucket j :: (b j).map fun x => DictNode.entry x.1) := by
  intro n hn hn'
  rw [List.mem_cons, List.mem_map] at hn hn'
  rcases hn with rfl | ⟨x, hx, rfl⟩
  · rcases hn' with hn' | ⟨y, -, hn'⟩
    · cases hn'
      exact hij rfl
    · cases hn'
  · rcases hn' with hn' | ⟨y, hy, hn'⟩
    · cases hn'
    · have hp : y.1 = x.1 := DictNode.entry.inj hn'
      refine hij ?_
      rw [← h.valid.hashed i x hx, ← h.valid.hashed j y hy]
      unfold keyOf
      rw [h.eq_of_address hx hy hp]

/-! ## Finding, adding and removing -/

theorem Holds.findLoop_eq (h : d.Holds b) (hi : i < d.size) (key : UInt64) :
    ∀ zs ys fuel, b i = ys ++ zs → zs.length < fuel →
      d.findLoop key (.bucket i) fuel (first i zs) = some (zs.find? (keyOf · = key)) := by
  intro zs
  induction zs with
  | nil =>
    intro ys fuel _ hfuel
    obtain ⟨fuel, rfl⟩ := Nat.exists_eq_succ_of_ne_zero hfuel.ne'
    exact if_pos rfl
  | cons x zs ih =>
    intro ys fuel hsplit hfuel
    obtain ⟨fuel, rfl⟩ :=
      Nat.exists_eq_succ_of_ne_zero (Nat.ne_of_gt ((Nat.zero_le _).trans_lt hfuel))
    have hentry : d.entryOf (.entry x.1) = some x := h.entryOf_eq (i := i) (hsplit ▸ by simp)
    have hcmp : d.keyCmp key x.2.key = 0 ↔ key = keyOf x := h.cmp _ _
    refine (if_neg (by unfold first; simp)).trans ?_
    rw [show first i (x :: zs) = .entry x.1 from rfl, hentry, Option.bind_some]
    by_cases hkey : key = keyOf x
    · rw [if_pos (hcmp.mpr hkey), List.find?_cons_of_pos (by simpa using hkey.symm)]
    · rw [if_neg fun heq => hkey (hcmp.mp heq),
        List.find?_cons_of_neg (by simpa using Ne.symm hkey), h.next_entry hi hsplit]
      exact ih (ys ++ [x]) fuel (hsplit.trans (List.append_cons ys x zs))
        (Nat.lt_of_succ_lt_succ hfuel)

theorem Holds.findEntry_eq (h : d.Holds b) (key : UInt64) :
    d.findEntry key (d.bucketOf key) = some (Buckets.find keyOf d.bucketOf b key) := by
  have hi := bucketOf_lt h.size key
  unfold findEntry
  rw [h.next_bucket hi]
  exact h.findLoop_eq hi key (b (d.bucketOf key)) [] _ rfl (Nat.lt_succ_of_le (h.length_le hi))

/-- A new entry in front of its bucket. -/
theorem Holds.addEntry (h : d.Holds b) {key value : UInt64}
    (hnew : Buckets.find keyOf d.bucketOf b key = none) :
    (d.addEntry key value).Holds
      (Buckets.insert keyOf d.bucketOf b (d.allocated, ⟨key, value⟩)) := by
  have hi := bucketOf_lt h.size key
  set e : ℕ × DictEntry := (d.allocated, ⟨key, value⟩) with he
  have hunused : ∀ j, ∀ x ∈ b j, x.1 ≠ d.allocated := fun j x hx => (h.lt_allocated hx).ne
  have hfresh : ∀ j, DictNode.entry d.allocated ∉
      DictNode.bucket j :: (b j).map fun x => DictNode.entry x.1 := by
    intro j hmem
    rw [List.mem_cons, List.mem_map] at hmem
    rcases hmem with hmem | ⟨x, hx, heq⟩
    · cases hmem
    · exact hunused j x hx (DictNode.entry.inj heq)
  have hring : ∀ j, j < d.size → (d.heads.init (.entry d.allocated)).Ring (.bucket j)
      ((b j).map fun x => .entry x.1) := fun j hj => (h.ring j hj).join (hfresh j) (hfresh j)
  refine ⟨h.size, h.cmp, fun j hj => ?_, fun j x hx => ?_, fun p hp => ?_, h.valid.insert hnew⟩
  · unfold Buckets.insert
    by_cases hj' : j = d.bucketOf key
    · rw [show keyOf e = key from rfl, hj', Function.update_self, List.map_cons]
      exact (hring _ hi).listAdd (hfresh _)
    · rw [show keyOf e = key from rfl, Function.update_of_ne hj']
      exact (hring _ hi).listAdd_other (hring j hj) (hfresh j) (h.disjoint (Ne.symm hj'))
  · have hmem : x = e ∨ x ∈ b j := by
      unfold Buckets.insert at hx
      by_cases hj' : j = d.bucketOf key
      · rw [show keyOf e = key from rfl, hj', Function.update_self, List.mem_cons] at hx
        rwa [hj']
      · rw [show keyOf e = key from rfl, Function.update_of_ne hj'] at hx
        exact .inr hx
    unfold Dict.addEntry
    dsimp only
    rcases hmem with rfl | hmem
    · rw [he, Function.update_self]
    · rw [Function.update_of_ne (hunused j x hmem), h.stored j x hmem]
  · have hlt : d.allocated < p := hp
    unfold Dict.addEntry
    dsimp only
    rw [Function.update_of_ne hlt.ne', h.used p hlt.le]

/-- An entry less in its bucket. -/
theorem Holds.freeEntry (h : d.Holds b) (hx : x ∈ b (d.bucketOf (keyOf x))) :
    (d.freeEntry x.1).Holds (Buckets.erase keyOf d.bucketOf b (keyOf x)) := by
  have hi := bucketOf_lt h.size (keyOf x)
  obtain ⟨ys, zs, hsplit⟩ := List.append_of_mem hx
  have hring := h.ring _ hi
  rw [hsplit, List.map_append, List.map_cons] at hring
  refine ⟨h.size, h.cmp, fun j hj => ?_, fun j y hy => ?_, fun p hp => ?_, h.valid.erase _⟩
  · rw [h.valid.erase_eq hsplit]
    by_cases hj' : j = d.bucketOf (keyOf x)
    · rw [hj', Function.update_self, List.map_append]
      exact hring.listDel
    · rw [Function.update_of_ne hj']
      refine hring.listDel_other (h.ring j hj) ?_
      have hdisjoint := h.disjoint (Ne.symm hj')
      rwa [hsplit, List.map_append, List.map_cons] at hdisjoint
  · have hy' := (Buckets.erase_sublist _ j).mem hy
    have hne : y.1 ≠ x.1 := by
      intro heq
      have hkey : keyOf y = keyOf x := by
        unfold keyOf
        rw [h.eq_of_address hx hy' heq]
      have hnone : Buckets.find keyOf d.bucketOf (Buckets.erase keyOf d.bucketOf b (keyOf x))
          (keyOf x) = none := by
        rw [h.valid.find_erase, Function.update_self]
      refine Buckets.find_eq_none_iff.mp hnone y ?_ hkey
      rwa [← hkey, h.valid.hashed j y hy', hkey]
    unfold Dict.freeEntry
    dsimp only
    rw [Function.update_of_ne hne, h.stored j y hy']
  · unfold Dict.freeEntry
    dsimp only
    by_cases hp' : p = x.1
    · rw [hp', Function.update_self]
    · rw [Function.update_of_ne hp', h.used p hp]

/-- `dict_add` fails where there is an entry. -/
theorem Holds.dictAdd_eq (h : d.Holds b) (key value : UInt64) :
    d.dictAdd key value = some (if (Buckets.find keyOf d.bucketOf b key).isSome then (-1, d)
      else (0, d.addEntry key value)) := by
  unfold Dict.dictAdd
  rw [h.findEntry_eq key]
  cases Buckets.find keyOf d.bucketOf b key with
  | none => rfl
  | some x => rfl

/-- `dict_remove_entry` returns the value of the entry and takes it out. -/
theorem Holds.dictRemoveEntry_eq (h : d.Holds b) (key : UInt64) :
    ∃ d', d.dictRemoveEntry key =
        some (((Buckets.find keyOf d.bucketOf b key).map (·.2.value)).getD 0, d') ∧
      d'.bucketOf = d.bucketOf ∧ d'.size = d.size ∧
      d'.Holds (Buckets.erase keyOf d.bucketOf b key) := by
  unfold Dict.dictRemoveEntry
  rw [h.findEntry_eq key]
  cases hfind : Buckets.find keyOf d.bucketOf b key with
  | none =>
    rw [Buckets.erase_of_find_eq_none hfind]
    exact ⟨d, rfl, rfl, rfl, h⟩
  | some x =>
    obtain ⟨hx, rfl⟩ := h.valid.find_eq_some_iff.mp hfind
    exact ⟨d.freeEntry x.1, rfl, rfl, rfl, h.freeEntry hx⟩

theorem Holds.dictFindEntry_eq (h : d.Holds b) (key : UInt64) :
    d.dictFindEntry key =
      some (((Buckets.find keyOf d.bucketOf b key).map (·.2.value)).getD 0) := by
  unfold Dict.dictFindEntry
  rw [h.findEntry_eq key]
  cases Buckets.find keyOf d.bucketOf b key with
  | none => rfl
  | some x => rfl

end Lists

/-! ## Calling for all entries -/

/-- The function returns 0, and leaves the dictionary as it is or takes the entry out that it is
called for. -/
def KeepsOrRemoves {σ : Type} (func : DictFunc σ) (e : DictEntry) : Prop :=
  ∀ d s, ∃ s', func e.key e.value d s = some (0, d, s') ∨
    func e.key e.value d s = (d.dictRemoveEntry e.key).map fun r => (0, r.2, s')

/-- The function is called for one entry after the other. -/
def callEach {σ : Type} (func : DictFunc σ) : List DictEntry → Dict → σ → Option (ℤ × Dict × σ)
  | [], d, s => some (0, d, s)
  | e :: es, d, s =>
    (func e.key e.value d s).bind fun
      | (ret, d, s) => if ret ≠ 0 then some (-1, d, s) else callEach func es d s

/-- So many buckets from one on. -/
def bucketsFrom (i n : ℕ) : List UInt32 := (List.range' i n).map .ofNat

/-- The entries of some buckets. -/
def entriesOf (b : UInt32 → List (ℕ × DictEntry)) (is : List UInt32) : List DictEntry :=
  (is.flatMap b).map Prod.snd

section Traversal

variable {σ : Type} {func : DictFunc σ} {d d' : Dict} {b : UInt32 → List (ℕ × DictEntry)}
  {i : UInt32} {s s' : σ} {x : ℕ × DictEntry} {xs ys zs : List (ℕ × DictEntry)}
    {es fs : List DictEntry}

theorem callEach_append (h : callEach func es d s = some (0, d', s')) :
    callEach func (es ++ fs) d s = callEach func fs d' s' := by
  induction es generalizing d s with
  | nil =>
    cases h
    rfl
  | cons e es ih =>
    rw [callEach] at h
    rw [List.cons_append, callEach]
    obtain ⟨⟨ret, d₁, s₁⟩, hcall, h⟩ := Option.bind_eq_some_iff.mp h
    rw [hcall, Option.bind_some]
    dsimp only at h ⊢
    by_cases hret : ret ≠ 0
    · rw [if_pos hret] at h
      cases h
    · rw [if_neg hret] at h ⊢
      exact ih h

/-- What is behind the entry in its bucket stays, and the other buckets too. -/
theorem KeepsOrRemoves.call (hfunc : KeepsOrRemoves func x.2) (h : d.Holds b)
    (hsplit : b i = ys ++ x :: zs) (s : σ) :
    ∃ d' s' b' ys', func x.2.key x.2.value d s = some (0, d', s') ∧ d'.size = d.size ∧
      d'.Holds b' ∧ b' i = ys' ++ zs ∧ ∀ j, j ≠ i → b' j = b j := by
  obtain ⟨s', hkeep | hremove⟩ := hfunc d s
  · exact ⟨d, s', b, ys ++ [x], hkeep, rfl, h, hsplit.trans (List.append_cons ys x zs),
      fun _ _ => rfl⟩
  · obtain ⟨d', hremoved, -, hsize, hholds⟩ := h.dictRemoveEntry_eq x.2.key
    have hi : d.bucketOf (keyOf x) = i := h.valid.hashed i x (hsplit ▸ by simp)
    have hsplit' := hsplit
    rw [← hi] at hsplit'
    rw [hremoved] at hremove
    have herase := h.valid.erase_eq hsplit'
    refine ⟨d', s', _, ys, hremove, hsize, hholds, ?_, fun j hj => ?_⟩
    · rw [show x.2.key = keyOf x from rfl, herase, hi, Function.update_self]
    · rw [show x.2.key = keyOf x from rfl, herase, hi, Function.update_of_ne hj]

/-- A bucket: the loop has the next entry before the call, and the call leaves it where it is. -/
theorem applyLoop_eq (zs : List (ℕ × DictEntry)) : ∀ {d b ys fuel} {s : σ}, d.Holds b → i < d.size →
    b i = ys ++ zs → zs.length < fuel → (∀ x ∈ zs, KeepsOrRemoves func x.2) →
    ∃ d' s' b',
      applyLoop func (.bucket i) fuel (first i zs) (d.heads.next (first i zs)) d s =
        some (0, d', s') ∧
      callEach func (zs.map Prod.snd) d s = some (0, d', s') ∧ d'.size = d.size ∧ d'.Holds b' ∧
      ∀ j, j ≠ i → b' j = b j := by
  induction zs with
  | nil =>
    intro d b ys fuel s h _ _ hfuel _
    obtain ⟨fuel, rfl⟩ := Nat.exists_eq_succ_of_ne_zero hfuel.ne'
    exact ⟨d, s, b, if_pos rfl, rfl, rfl, h, fun _ _ => rfl⟩
  | cons x zs ih =>
    intro d b ys fuel s h hi hsplit hfuel hfunc
    obtain ⟨fuel, rfl⟩ :=
      Nat.exists_eq_succ_of_ne_zero (Nat.ne_of_gt ((Nat.zero_le _).trans_lt hfuel))
    obtain ⟨d₁, s₁, b₁, ys₁, hcall, hsize₁, h₁, hsplit₁, hother₁⟩ :=
      (hfunc x List.mem_cons_self).call h hsplit s
    obtain ⟨d₂, s₂, b₂, hloop, heach, hsize₂, h₂, hother₂⟩ := ih (s := s₁) h₁ (hsize₁ ▸ hi) hsplit₁
      (Nat.lt_of_succ_lt_succ hfuel) fun y hy => hfunc y (List.mem_cons_of_mem x hy)
    have hnext : d.heads.next (first i (x :: zs)) = first i zs := h.next_entry hi hsplit
    refine ⟨d₂, s₂, b₂, ?_, ?_, hsize₂.trans hsize₁, h₂,
      fun j hj => (hother₂ j hj).trans (hother₁ j hj)⟩
    · have hentry : d.entryOf (first i (x :: zs)) = some x :=
        h.entryOf_eq (i := i) (hsplit ▸ by simp)
      refine (if_neg (by unfold first; simp)).trans ?_
      rw [hentry, Option.bind_some, hcall, Option.bind_some, hnext]
      exact hloop
    · rw [List.map_cons]
      unfold callEach
      rw [hcall, Option.bind_some]
      exact heach

theorem bucketsFrom_succ (i n : ℕ) : bucketsFrom i (n + 1) = .ofNat i :: bucketsFrom (i + 1) n := by
  unfold bucketsFrom
  rw [List.range'_succ, List.map_cons]

theorem mem_bucketsFrom {i n : ℕ} {j : UInt32} (hn : i + n ≤ 2 ^ 32) :
    j ∈ bucketsFrom i n ↔ i ≤ j.toNat ∧ j.toNat < i + n := by
  unfold bucketsFrom
  rw [List.mem_map]
  constructor
  · rintro ⟨k, hk, rfl⟩
    obtain ⟨hle, hlt⟩ := List.mem_range'_1.mp hk
    rw [UInt32.toNat_ofNat_of_lt' (hlt.trans_le hn)]
    exact ⟨hle, hlt⟩
  · exact fun hj => ⟨j.toNat, List.mem_range'_1.mpr hj, UInt32.ofNat_toNat⟩

/-- All buckets. -/
theorem applyBuckets_eq (n : ℕ) : ∀ {d b} {i : UInt32} {s : σ}, d.Holds b →
    i.toNat + n = d.size.toNat →
    (∀ e ∈ entriesOf b (bucketsFrom i.toNat n), KeepsOrRemoves func e) →
    ∃ d' s' b', applyBuckets func (n + 1) i d s = some (0, d', s') ∧
      callEach func (entriesOf b (bucketsFrom i.toNat n)) d s = some (0, d', s') ∧ d'.Holds b' := by
  induction n with
  | zero =>
    intro d b i s h hn _
    have hlt : ¬ i < d.size := by
      rw [UInt32.lt_iff_toNat_lt]
      omega
    exact ⟨d, s, b, if_neg hlt, rfl, h⟩
  | succ n ih =>
    intro d b i s h hn hfunc
    have hi : i < d.size := by
      rw [UInt32.lt_iff_toNat_lt]
      omega
    have hbound := d.size.toNat_lt
    have hsucc : (i + 1).toNat = i.toNat + 1 := by
      rw [UInt32.toNat_add, UInt32.toNat_one]
      exact Nat.mod_eq_of_lt (by omega)
    have hentries : entriesOf b (bucketsFrom i.toNat (n + 1)) =
        (b i).map Prod.snd ++ entriesOf b (bucketsFrom (i + 1).toNat n) := by
      unfold entriesOf
      rw [bucketsFrom_succ, UInt32.ofNat_toNat, List.flatMap_cons, List.map_append, hsucc]
    rw [hentries] at hfunc ⊢
    obtain ⟨d₁, s₁, b₁, hloop, heach, hsize₁, h₁, hother₁⟩ := applyLoop_eq (s := s) (b i) h hi
      (show b i = [] ++ b i from rfl) (Nat.lt_succ_of_le (h.length_le hi))
      fun x hx => hfunc x.2 (List.mem_append_left _ (List.mem_map_of_mem hx))
    have hrest : entriesOf b₁ (bucketsFrom (i + 1).toNat n) =
        entriesOf b (bucketsFrom (i + 1).toNat n) := by
      unfold entriesOf
      refine congrArg (List.map Prod.snd) (List.flatMap_congr fun j hj => hother₁ j ?_)
      rintro rfl
      have hmem := (mem_bucketsFrom (by omega)).mp hj
      omega
    obtain ⟨d₂, s₂, b₂, hbuckets, heach₂, h₂⟩ := ih (i := i + 1) (s := s₁) h₁
      (by rw [hsucc, hsize₁]; omega) fun e he => hfunc e (List.mem_append_right _ (hrest ▸ he))
    refine ⟨d₂, s₂, b₂, ?_, ?_, h₂⟩
    · refine (if_pos hi).trans ?_
      dsimp only
      rw [h.next_bucket hi, hloop, Option.bind_some]
      exact hbuckets
    · rw [callEach_append heach, ← hrest]
      exact heach₂

/-- `dict_apply_to_all` calls for the entries that are there, in the order of the buckets. -/
theorem Holds.dictApplyToAll_eq (h : d.Holds b)
    (hfunc : ∀ e ∈ entriesOf b (bucketsFrom 0 d.size.toNat), KeepsOrRemoves func e) (s : σ) :
    ∃ d' s' b', d.dictApplyToAll func s = some (0, d', s') ∧
      callEach func (entriesOf b (bucketsFrom 0 d.size.toNat)) d s = some (0, d', s') ∧
      d'.Holds b' :=
  applyBuckets_eq d.size.toNat (i := 0) h (Nat.zero_add _) hfunc

theorem Holds.nodup_entriesOf (h : d.Holds b) :
    (entriesOf b (bucketsFrom 0 d.size.toNat)).Nodup := by
  have hbound := d.size.toNat_lt
  have hbuckets : (bucketsFrom 0 d.size.toNat).Nodup := by
    unfold bucketsFrom
    refine (List.nodup_range' (h := Nat.one_pos)).map_on fun j hj k hk heq => ?_
    rw [List.mem_range'_1] at hj hk
    have hnat := congrArg UInt32.toNat heq
    rwa [UInt32.toNat_ofNat_of_lt' (show j < 2 ^ 32 by omega),
      UInt32.toNat_ofNat_of_lt' (show k < 2 ^ 32 by omega)] at hnat
  have hnodup := h.valid.nodup_flatMap hbuckets
  refine List.Nodup.of_map DictEntry.key ?_
  unfold entriesOf
  rw [List.map_map]
  exact hnodup

theorem Holds.mem_entriesOf (h : d.Holds b) (e : DictEntry) :
    e ∈ entriesOf b (bucketsFrom 0 d.size.toNat) ↔
      (Buckets.find keyOf d.bucketOf b e.key).map (·.2.value) = some e.value := by
  have hmem : d.bucketOf e.key ∈ bucketsFrom 0 d.size.toNat := by
    have hbound := d.size.toNat_lt
    rw [mem_bucketsFrom (by omega), Nat.zero_add]
    exact ⟨Nat.zero_le _, UInt32.lt_iff_toNat_lt.mp (bucketOf_lt h.size e.key)⟩
  unfold entriesOf
  rw [List.mem_map, Option.map_eq_some_iff]
  constructor
  · rintro ⟨x, hx, rfl⟩
    exact ⟨x, h.valid.find_eq_some_iff.mpr ⟨(h.valid.mem_flatMap hmem).mp hx, rfl⟩, rfl⟩
  · rintro ⟨x, hfind, hvalue⟩
    obtain ⟨hx, hkey⟩ := h.valid.find_eq_some_iff.mp hfind
    have hbucket : d.bucketOf (keyOf x) ∈ bucketsFrom 0 d.size.toNat := by rwa [hkey]
    refine ⟨x, (h.valid.mem_flatMap hbucket).mpr (by rwa [hkey]), ?_⟩
    rw [DictEntry.ext_iff]
    exact ⟨hkey, hvalue⟩

end Traversal

end Dict

/-! ## Sequences of calls -/

inductive DictCall where
  | add (key value : UInt64)
  | remove (key : UInt64)
  | find (key : UInt64)
  deriving DecidableEq, Repr

/-- What a call returns. -/
inductive DictResult where
  | ret (ret : ℤ)
  | value (value : UInt64)
  deriving DecidableEq, Repr

/-- A call for a finite map: a key is only added where it is not there. -/
def mapCall (m : UInt64 → Option UInt64) : DictCall → DictResult × (UInt64 → Option UInt64)
  | .add key value =>
    if (m key).isSome then (.ret (-1), m) else (.ret 0, Function.update m key (some value))
  | .remove key => (.value ((m key).getD 0), Function.update m key none)
  | .find key => (.value ((m key).getD 0), m)

def mapCalls (m : UInt64 → Option UInt64) :
    List DictCall → List DictResult × (UInt64 → Option UInt64)
  | [] => ([], m)
  | c :: cs =>
    let (r, m) := mapCall m c
    let (rs, m) := mapCalls m cs
    (r :: rs, m)

namespace Dict

def call (d : Dict) : DictCall → Option (DictResult × Dict)
  | .add key value => (d.dictAdd key value).map fun (ret, d) => (.ret ret, d)
  | .remove key => (d.dictRemoveEntry key).map fun (value, d) => (.value value, d)
  | .find key => (d.dictFindEntry key).map fun value => (.value value, d)

def calls (d : Dict) : List DictCall → Option (List DictResult × Dict)
  | [] => some ([], d)
  | c :: cs => (d.call c).bind fun (r, d) => (d.calls cs).map fun (rs, d) => (r :: rs, d)

/-- The buckets hold the values of `m` under their keys. -/
def Represents (d : Dict) (m : UInt64 → Option UInt64) : Prop :=
  ∃ b, d.Holds b ∧ ∀ key, (Buckets.find keyOf d.bucketOf b key).map (·.2.value) = m key

section Calls

variable {d : Dict} {m : UInt64 → Option UInt64}

/-- `dict_init` makes empty lists. -/
theorem represents_dictInit (heads : ListHeads DictNode) {size : UInt32} (hsize : 0 < size)
    (key2hash : UInt64 → UInt32) {keyCmp : UInt64 → UInt64 → ℤ}
    (hcmp : ∀ key1 key2, keyCmp key1 key2 = 0 ↔ key1 = key2) :
    (dictInit heads size key2hash keyCmp).Represents fun _ => none := by
  have hring : ∀ n, n ≤ 2 ^ 32 → ∀ i : UInt32, i.toNat < n →
      ((List.range n).foldl (fun l i => l.init (.bucket (.ofNat i))) heads).Ring
        (.bucket i) [] := by
    intro n
    induction n with
    | zero => exact fun _ i hi => absurd hi (Nat.not_lt_zero _)
    | succ n ih =>
      intro hn i hi
      rw [List.range_succ, List.foldl_append, List.foldl_cons, List.foldl_nil]
      by_cases heq : i.toNat = n
      · rw [← heq, UInt32.ofNat_toNat]
        exact ListHeads.ring_init _ _
      · have hne : DictNode.bucket (.ofNat n) ∉ [DictNode.bucket i] := by
          rw [List.mem_singleton, DictNode.bucket.injEq]
          rintro rfl
          exact heq (UInt32.toNat_ofNat_of_lt' hn)
        exact (ih (Nat.le_of_succ_le hn) i (by omega)).join hne hne
  refine ⟨fun _ => [], ⟨hsize, hcmp, fun i hi => ?_, ?_, fun _ _ => rfl, ?_⟩, fun _ => rfl⟩
  · exact hring size.toNat size.toNat_lt.le i (UInt32.lt_iff_toNat_lt.mp hi)
  · exact fun _ _ hx => absurd hx List.not_mem_nil
  · exact Buckets.valid_empty _ _

theorem Represents.dictAdd (h : d.Represents m) (key value : UInt64) :
    ∃ d', d.dictAdd key value = some (if (m key).isSome then -1 else 0, d') ∧
      d'.Represents (if (m key).isSome then m else Function.update m key (some value)) := by
  obtain ⟨b, hb, hm⟩ := h
  rw [hb.dictAdd_eq, ← hm key, Option.isSome_map]
  cases hfind : Buckets.find keyOf d.bucketOf b key with
  | some x => exact ⟨d, rfl, b, hb, hm⟩
  | none =>
    refine ⟨d.addEntry key value, rfl, _, hb.addEntry hfind, fun k => ?_⟩
    rw [show (d.addEntry key value).bucketOf = d.bucketOf from rfl, Buckets.find_insert,
      Option.isSome_none, if_neg Bool.false_ne_true,
      show keyOf (d.allocated, ⟨key, value⟩) = key from rfl]
    by_cases hk : k = key
    · rw [hk, Function.update_self, Function.update_self]
      rfl
    · rw [Function.update_of_ne hk, Function.update_of_ne hk, hm]

theorem Represents.dictRemoveEntry (h : d.Represents m) (key : UInt64) :
    ∃ d', d.dictRemoveEntry key = some ((m key).getD 0, d') ∧
      d'.Represents (Function.update m key none) := by
  obtain ⟨b, hb, hm⟩ := h
  obtain ⟨d', hremove, hbucket, -, hholds⟩ := hb.dictRemoveEntry_eq key
  rw [hremove, hm]
  refine ⟨d', rfl, _, hholds, fun k => ?_⟩
  rw [hbucket, hb.valid.find_erase]
  by_cases hk : k = key
  · rw [hk, Function.update_self, Function.update_self]
    rfl
  · rw [Function.update_of_ne hk, Function.update_of_ne hk, hm]

theorem Represents.dictFindEntry (h : d.Represents m) (key : UInt64) :
    d.dictFindEntry key = some ((m key).getD 0) := by
  obtain ⟨b, hb, hm⟩ := h
  rw [hb.dictFindEntry_eq, hm]

theorem Represents.call (h : d.Represents m) (c : DictCall) :
    ∃ d', d.call c = some ((mapCall m c).1, d') ∧ d'.Represents (mapCall m c).2 := by
  cases c with
  | add key value =>
    obtain ⟨d', hadd, h'⟩ := h.dictAdd key value
    unfold Dict.call mapCall
    dsimp only
    rw [hadd]
    cases hm : (m key).isSome with
    | false =>
      rw [hm] at h'
      exact ⟨d', rfl, h'⟩
    | true =>
      rw [hm] at h'
      exact ⟨d', rfl, h'⟩
  | remove key =>
    obtain ⟨d', hremove, h'⟩ := h.dictRemoveEntry key
    unfold Dict.call mapCall
    dsimp only
    rw [hremove]
    exact ⟨d', rfl, h'⟩
  | find key =>
    unfold Dict.call mapCall
    dsimp only
    rw [h.dictFindEntry]
    exact ⟨d, rfl, h⟩

/-- A sequence of calls returns what it does for a finite map. -/
theorem Represents.calls (h : d.Represents m) (cs : List DictCall) :
    ∃ d', d.calls cs = some ((mapCalls m cs).1, d') ∧ d'.Represents (mapCalls m cs).2 := by
  induction cs generalizing d m with
  | nil => exact ⟨d, rfl, h⟩
  | cons c cs ih =>
    obtain ⟨d₁, hcall, h₁⟩ := h.call c
    obtain ⟨d₂, hcalls, h₂⟩ := ih h₁
    refine ⟨d₂, ?_, h₂⟩
    unfold Dict.calls
    rw [hcall, Option.bind_some]
    dsimp only
    rw [hcalls]
    rfl

/-- All that `dict_apply_to_all` does is to call for the entries of the map, once for each. -/
theorem Represents.dictApplyToAll (h : d.Represents m) :
    ∃ es : List DictEntry, es.Nodup ∧ (∀ e, e ∈ es ↔ m e.key = some e.value) ∧
      ∀ (σ : Type) (func : DictFunc σ), (∀ e ∈ es, KeepsOrRemoves func e) → ∀ s, ∃ d' s',
        d.dictApplyToAll func s = some (0, d', s') ∧ callEach func es d s = some (0, d', s') := by
  obtain ⟨b, hb, hm⟩ := h
  refine ⟨entriesOf b (bucketsFrom 0 d.size.toNat), hb.nodup_entriesOf, fun e => ?_,
    fun σ func hfunc s => ?_⟩
  · rw [hb.mem_entriesOf, hm]
  · obtain ⟨d', s', -, happly, heach, -⟩ := hb.dictApplyToAll_eq hfunc s
    exact ⟨d', s', happly, heach⟩

end Calls

end Dict

/-- `destroy_breakpoint_cb` takes out the entry that it is called for, or nothing. -/
theorem keepsOrRemoves_destroyBreakpointCb {addr : UInt64 → UInt64} {e : DictEntry}
    (haddr : addr e.value = e.key) : Dict.KeepsOrRemoves (destroyBreakpointCb addr) e := by
  intro d deleted
  unfold destroyBreakpointCb
  cases hdeleted : deleted e.value with
  | true => exact ⟨deleted, .inl rfl⟩
  | false =>
    rw [haddr]
    exact ⟨_, .inr rfl⟩

section Clearing

variable {addr : UInt64 → UInt64} {d : Dict} {m : UInt64 → Option UInt64} {deleted : UInt64 → Bool}

theorem callEach_destroyBreakpointCb (es : List DictEntry) : ∀ {d m deleted}, d.Represents m →
    es.Nodup → (∀ e, e ∈ es ↔ m e.key = some e.value) →
    (∀ e ∈ es, addr e.value = e.key ∧ deleted e.value = false) →
    ∀ {d' deleted'},
      Dict.callEach (destroyBreakpointCb addr) es d deleted = some (0, d', deleted') →
      d'.Represents (fun _ => none) ∧
        ∀ value, deleted' value = true ↔ deleted value = true ∨ ∃ e ∈ es, e.value = value := by
  induction es with
  | nil =>
    intro d m deleted h _ hmem _ d' deleted' heach
    cases heach
    have hm : m = fun _ => none := by
      funext key
      cases hkey : m key with
      | none => rfl
      | some value => exact absurd ((hmem ⟨key, value⟩).mpr hkey) List.not_mem_nil
    exact ⟨hm ▸ h, fun value => by simp⟩
  | cons e es ih =>
    intro d m deleted h hnodup hmem haddr d' deleted' heach
    obtain ⟨he, hnodup⟩ := List.nodup_cons.mp hnodup
    obtain ⟨haddr_e, hdeleted_e⟩ := haddr e List.mem_cons_self
    obtain ⟨d₁, hremove, h₁⟩ := h.dictRemoveEntry e.key
    have hcall : destroyBreakpointCb addr e.key e.value d deleted =
        some (0, d₁, Function.update deleted e.value true) := by
      unfold destroyBreakpointCb
      rw [hdeleted_e, if_neg Bool.false_ne_true, haddr_e, hremove]
      rfl
    -- no other entry has its key, or its breakpoint
    have hkey : ∀ f ∈ es, f.key ≠ e.key := by
      intro f hf heq
      have hf' := (hmem f).mp (List.mem_cons_of_mem e hf)
      rw [heq, (hmem e).mp List.mem_cons_self] at hf'
      exact he (DictEntry.ext heq (Option.some.inj hf').symm ▸ hf)
    have hvalue : ∀ f ∈ es, f.value ≠ e.value := by
      intro f hf heq
      refine hkey f hf ?_
      rw [← (haddr f (List.mem_cons_of_mem e hf)).1, heq, haddr_e]
    have hmem₁ : ∀ f, f ∈ es ↔ Function.update m e.key none f.key = some f.value := by
      intro f
      constructor
      · intro hf
        rw [Function.update_of_ne (hkey f hf)]
        exact (hmem f).mp (List.mem_cons_of_mem e hf)
      · intro hf
        by_cases hk : f.key = e.key
        · rw [hk, Function.update_self] at hf
          cases hf
        · rw [Function.update_of_ne hk] at hf
          exact (List.mem_cons.mp ((hmem f).mpr hf)).resolve_left fun heq => hk (heq ▸ rfl)
    have haddr₁ : ∀ f ∈ es, addr f.value = f.key ∧
        Function.update deleted e.value true f.value = false := by
      intro f hf
      rw [Function.update_of_ne (hvalue f hf)]
      exact haddr f (List.mem_cons_of_mem e hf)
    rw [Dict.callEach, hcall, Option.bind_some] at heach
    obtain ⟨h', hdeleted'⟩ := ih h₁ hnodup hmem₁ haddr₁ heach
    refine ⟨h', fun value => ?_⟩
    rw [hdeleted' value]
    by_cases hv : value = e.value
    · rw [hv, Function.update_self]
      simp
    · rw [Function.update_of_ne hv]
      simp [Ne.symm hv]

/-- `breakpoint_clear_all` deletes all breakpoints and leaves no entry, while each is under its
address and was not deleted before. -/
theorem breakpointClearAll_empties (h : d.Represents m)
    (haddr : ∀ key value, m key = some value → addr value = key ∧ deleted value = false) :
    ∃ d' deleted', d.dictApplyToAll (destroyBreakpointCb addr) deleted = some (0, d', deleted') ∧
      d'.Represents (fun _ => none) ∧
      ∀ key value, m key = some value → deleted' value = true := by
  obtain ⟨es, hnodup, hmem, happly⟩ := h.dictApplyToAll
  have hes : ∀ e ∈ es, addr e.value = e.key ∧ deleted e.value = false := fun e he =>
    haddr e.key e.value ((hmem e).mp he)
  obtain ⟨d', deleted', hall, heach⟩ := happly _ (destroyBreakpointCb addr)
    (fun e he => keepsOrRemoves_destroyBreakpointCb (hes e he).1) deleted
  obtain ⟨h', hdeleted'⟩ := callEach_destroyBreakpointCb es h hnodup hmem hes heach
  exact ⟨d', deleted', hall, h', fun key value hm =>
    (hdeleted' value).mpr (.inr ⟨⟨key, value⟩, (hmem _).mpr hm, rfl⟩)⟩

end Clearing

/-- After any calls for a new dictionary, which returned what they do for a finite map, a function
that can take out its own entry is called for all entries of the map, once for each. -/
theorem dict_refines_map (heads : ListHeads DictNode) {size : UInt32} (hsize : 0 < size)
    (cs : List DictCall) :
    ∃ d es, (dictInit heads size targetAddressHash targetAddressCmp).calls cs =
        some ((mapCalls (fun _ => none) cs).1, d) ∧
      es.Nodup ∧ (∀ e, e ∈ es ↔ (mapCalls (fun _ => none) cs).2 e.key = some e.value) ∧
      ∀ (σ : Type) (func : DictFunc σ), (∀ e ∈ es, Dict.KeepsOrRemoves func e) → ∀ s, ∃ d' s',
        d.dictApplyToAll func s = some (0, d', s') ∧
          Dict.callEach func es d s = some (0, d', s') := by
  obtain ⟨d, hcalls, hd⟩ := (Dict.represents_dictInit heads hsize targetAddressHash
    fun _ _ => targetAddressCmp_eq_zero_iff).calls cs
  obtain ⟨es, hnodup, hmem, happly⟩ := hd.dictApplyToAll
  exact ⟨d, es, hcalls, hnodup, hmem, happly⟩

/-- Two breakpoints in the buckets of a small dictionary, which are deleted. -/
theorem dict_refines_map_two :
    ∃ (d : Dict) (es : List DictEntry),
      (dictInit ⟨id, id⟩ 2 targetAddressHash targetAddressCmp).calls
          [.add 0x1000 1, .add 0x1000 2, .add 0x2000 3, .find 0x1000, .add 0x3000 4, .remove 0x2000,
            .find 0x2000] =
        some ([.ret 0, .ret (-1), .ret 0, .value 1, .ret 0, .value 3, .value 0], d) ∧
      es.Nodup ∧ (⟨0x1000, 1⟩ ∈ es ∧ ⟨0x3000, 4⟩ ∈ es) ∧
      ∃ d' deleted, d.dictApplyToAll
        (destroyBreakpointCb fun value => if value = 1 then 0x1000 else 0x3000) (fun _ => false) =
          some (0, d', deleted) := by
  obtain ⟨d, es, hcalls, hnodup, hmem, happly⟩ := dict_refines_map ⟨id, id⟩
    (show (0 : UInt32) < 2 by decide) [.add 0x1000 1, .add 0x1000 2, .add 0x2000 3, .find 0x1000,
      .add 0x3000 4, .remove 0x2000,
      .find 0x2000]
  have hcases : ∀ e ∈ es, (if e.value = 1 then 0x1000 else 0x3000) = e.key := by
    intro e he
    have hm : Function.update (Function.update (Function.update (Function.update (fun _ => none)
        0x1000 (some 1)) 0x2000 (some 3)) 0x3000 (some 4)) 0x2000 none e.key = some e.value :=
      (hmem e).mp he
    by_cases h2 : e.key = 0x2000
    · rw [h2, Function.update_self] at hm
      cases hm
    · rw [Function.update_of_ne h2] at hm
      by_cases h3 : e.key = 0x3000
      · rw [h3, Function.update_self] at hm
        rw [h3, ← Option.some.inj hm]
        rfl
      · rw [Function.update_of_ne h3, Function.update_of_ne h2] at hm
        by_cases h1 : e.key = 0x1000
        · rw [h1, Function.update_self] at hm
          rw [h1, ← Option.some.inj hm]
          rfl
        · rw [Function.update_of_ne h1] at hm
          cases hm
  obtain ⟨d', deleted, hall, -⟩ := happly _
    (destroyBreakpointCb fun value => if value = 1 then 0x1000 else 0x3000)
    (fun e he => keepsOrRemoves_destroyBreakpointCb (hcases e he)) fun _ => false
  exact ⟨d, es, hcalls, hnodup, ⟨(hmem ⟨0x1000, 1⟩).mpr rfl, (hmem ⟨0x3000, 4⟩).mpr rfl⟩, d',
    deleted, hall⟩

end Mtrace.Server
