import Mtrace.Rb.Reap
import Mtrace.Rb.Spine

/-!
# Tables in memory

An entry of a table is a node with a record next to it.  The loops of a search and of an insertion
compare the record of each node they come to, and what they do to the memory is what the functions
on trees do to the records.

1. The root stays black.
2. `Table.search`, `Table.insert`, `Table.delete` and `Table.write`.
3. `Table.Rep`: the table holds a tree of records; one rule for each operation.
-/

namespace Mtrace.Rb

open RbTree
open RbTree.RbRoot (nil zoom)

/-! ## The root stays black -/

section Root

variable {p : RbPath Ptr} {t l r : RbRoot Ptr} {c : Color} {v : Ptr} {s : Side} {ls : Spine}

theorem isRed_setBlack (t : RbRoot Ptr) : t.setBlack.isRed = false := by
  cases t <;> exact rfl

theorem isRed_insertColor (p : RbPath Ptr) (t : RbRoot Ptr) : (p.insertColor t).isRed = false := by
  fun_induction RbPath.insertColor p t <;> first | assumption | exact isRed_setBlack _

theorem RootBlack.fill_hole {y : RbRoot Ptr} (h : RootBlack (hole s c p v y)) (t : RbRoot Ptr) :
    ((hole s c p v y).fill t).isRed = false :=
  (isRed_fill hole_ne_root t nil).trans h

theorem RootBlack.fill_black (h : RootBlack p) (s : Side) (v : Ptr) (y t : RbRoot Ptr) :
    ((hole s .black p v y).fill t).isRed = false := by
  rw [Rb.fill_hole]
  by_cases hp : p = .root
  · subst hp
    rw [RbPath.fill, isRed_build]
    exact rfl
  · exact (isRed_fill hp _ nil).trans h

theorem isRed_eraseColor (h : RootBlack p) : (p.eraseColor t).isRed = false := by
  induction p generalizing t with
  | root => exact isRed_setBlack t
  | left c up v y ih =>
    have hole : RootBlack (hole .left c up v y) := h
    rw [RbPath.eraseColor.eq_def]
    dsimp only
    split
    · exact hole.fill_hole _
    split
    · split
      · exact isRed_setBlack _
      · exact hole.up.1.fill_black .left _ _ _
    · split
      · exact isRed_setBlack _
      · exact ih hole.up.1
  | right c y v up ih =>
    have hole : RootBlack (hole .right c up v y) := h
    rw [RbPath.eraseColor.eq_def]
    dsimp only
    split
    · exact hole.fill_hole _
    split
    · split
      · exact isRed_setBlack _
      · exact hole.up.1.fill_black .right _ _ _
    · split
      · exact isRed_setBlack _
      · exact ih hole.up.1

/-- The place of a red node is not the root. -/
theorem isRed_splice (h : (p.fill (.node c l v r)).isRed = false) :
    (RbPath.splice c p t).isRed = false := by
  have hhole : RootBlack (hole .left c p v r) := by
    have hleft : (p.fill (.node c nil v r)).isRed = (p.fill (.node c l v r)).isRed := by
      by_cases hp : p = .root
      · subst hp
        cases c <;> exact rfl
      · exact isRed_fill hp _ _
    exact hleft.trans h
  obtain ⟨hp, hroot⟩ := hhole.up
  cases c with
  | red =>
    have hne : p ≠ .root := fun heq => absurd (hroot heq) nofun
    exact (isRed_fill hne t nil).trans hp
  | black => exact isRed_eraseColor hp

theorem isRed_spliceMin (h : (p.fill (.node c l v r)).isRed = false) :
    (RbPath.spliceMin c l v r p).isRed = false := by
  induction l generalizing c v r p with
  | nil => exact isRed_splice h
  | node c' l' v' r' ihl _ => exact ihl h

theorem isRed_erase {x : Loc Ptr} (h : x.tree.isRed = false) : x.erase.isRed = false := by
  obtain ⟨p, c, l, a, r⟩ := x
  cases l with
  | nil => exact isRed_splice h
  | node lc ll lv lr =>
    cases r with
    | nil => exact isRed_splice h
    | node rc rl rv rr =>
      refine isRed_spliceMin ?_
      have hsame : (p.fill (.node c (.node lc ll lv lr) (RbPath.minVal rl rv)
          (.node rc rl rv rr))).isRed = (p.fill (.node c (.node lc ll lv lr) a
            (.node rc rl rv rr))).isRed := by
        by_cases hp : p = .root
        · subst hp
          cases c <;> exact rfl
        · exact isRed_fill hp _ _
      exact hsame.trans h

end Root

/-! ## The operations -/

/-- A tree in memory, and the records next to its nodes. -/
structure Table (α : Type) where
  mem : Mem
  data : Ptr → Option α

namespace Table

variable {α : Type}

/-- The loop of a search. -/
def search (T : Table α) (cut : α → Ordering) : ℕ → Ptr → Option Ptr
  | 0, _ => none
  | fuel + 1, node =>
    if node = 0 then some 0
    else do
      match cut (← T.data node) with
      | .lt => T.search cut fuel (← T.mem.node node).rbLeft
      | .gt => T.search cut fuel (← T.mem.node node).rbRight
      | .eq => some node

/-- The loop that looks for the place of a new entry; there is none if the key is taken. -/
def place (T : Table α) (cut : α → Ordering) :
    ℕ → Ptr → Ptr → RbLink → Option (Option (Ptr × RbLink))
  | 0, _, _, _ => none
  | fuel + 1, this, parent, new =>
    if this = 0 then some (some (parent, new))
    else do
      match cut (← T.data this) with
      | .lt => T.place cut fuel (← T.mem.node this).rbLeft this (.child this .left)
      | .gt => T.place cut fuel (← T.mem.node this).rbRight this (.child this .right)
      | .eq => some none

/-- The record of a key. -/
def find (T : Table α) (fuel : ℕ) (cut : α → Ordering) : Option (Option α) := do
  let node ← T.search cut fuel T.mem.root
  if node = 0 then some none else (T.data node).map some

/-- A new entry at the address `a`, unless its key is taken. -/
def insert (T : Table α) (fuel : ℕ) (cut : α → Ordering) (a : Ptr) (n : RbNode) (v : α) :
    Option (Table α × Bool) := do
  match ← T.place cut fuel T.mem.root 0 .root with
  | none => some (T, false)
  | some (parent, new) =>
    let m ← (T.mem.malloc a n).rbLinkNode a parent new
    let m ← m.rbInsertColor fuel a
    some (⟨m, Function.update T.data a (some v)⟩, true)

/-- The entry of a key is taken out and freed. -/
def delete (T : Table α) (fuel : ℕ) (cut : α → Ordering) : Option (Table α × Option α) := do
  let node ← T.search cut fuel T.mem.root
  if node = 0 then some (T, none)
  else do
    let v ← T.data node
    let m ← T.mem.rbErase fuel node
    let m ← m.free node
    some (⟨m, Function.update T.data node none⟩, some v)

/-- Writing to the record of a key. -/
def write (T : Table α) (fuel : ℕ) (cut : α → Ordering) (f : α → α) : Option (Table α) := do
  let node ← T.search cut fuel T.mem.root
  if node = 0 then some T
  else do
    let v ← T.data node
    some { T with data := Function.update T.data node (some (f v)) }

/-- The comparison at a node. -/
def cutAt (T : Table α) (cut : α → Ordering) : Ptr → Ordering :=
  (fun o : Option α => o.elim .eq cut) ∘ T.data

/-- The table is the tree `s` of nodes; nothing else in memory belongs to it. -/
structure Shape (base : Ptr → Option RbNode) (s : RbRoot Ptr) (t : RbRoot α) (T : Table α) :
    Prop where
  rep : T.mem.Rep base s
  data : s.map T.data = t.map some
  rule : s.RedBlack
  black : s.isRed = false
  apart : ∀ a ∈ s.toList, base a = none

/-- The table holds the records of a tree; the rest of the memory is `base`. -/
def Rep (base : Ptr → Option RbNode) (t : RbRoot α) (T : Table α) : Prop := ∃ s, Shape base s t T

section Rules

variable {base : Ptr → Option RbNode} {s : RbRoot Ptr} {t : RbRoot α} {T : Table α}
  {cut : α → Ordering} {p : RbPath Ptr} {a : Ptr} {n : RbNode} {v : α} {fuel : ℕ} {x : Loc α}

theorem exists_data {s : RbRoot Ptr} {t : RbRoot α} (h : s.map T.data = t.map some)
    (ha : a ∈ s.toList) : ∃ v, T.data a = some v := by
  have hmem : T.data a ∈ (s.map T.data).toList := by
    rw [toList_map]
    exact List.mem_map_of_mem ha
  rw [h, toList_map] at hmem
  obtain ⟨v, -, hv⟩ := List.mem_map.mp hmem
  exact ⟨v, hv.symm⟩

theorem cutAt_eq (h : T.data a = some v) : T.cutAt cut a = cut v := by
  unfold cutAt
  rw [Function.comp_apply, h, Option.elim_some]

/-- A search in memory goes the way of a search in the tree. -/
theorem search_eq (h : T.mem.Rep base (p.fill s)) (hdata : ∀ a ∈ s.toList, ∃ v, T.data a = some v)
    (hfuel : s.height < fuel) :
    T.search cut fuel (ptr s) = some (ptr (zoom (T.cutAt cut) s p).1) := by
  induction s generalizing p fuel with
  | nil =>
    obtain ⟨fuel, rfl⟩ := Nat.exists_eq_add_of_lt hfuel
    exact if_pos rfl
  | node c l a r ihl ihr =>
    rw [RbRoot.height] at hfuel
    obtain ⟨fuel, rfl⟩ := Nat.exists_eq_add_of_lt (Nat.zero_lt_of_lt hfuel)
    have ha := (show T.mem.Rep base (p.fill (build .left c l a r)) from h).getHole
    obtain ⟨v, hv⟩ := hdata a (List.mem_append_right _ List.mem_cons_self)
    have hl (b : Ptr) (hb : b ∈ l.toList) := hdata b (List.mem_append_left _ hb)
    have hr (b : Ptr) (hb : b ∈ r.toList) :=
      hdata b (List.mem_append_right _ (List.mem_cons_of_mem _ hb))
    rw [Nat.zero_add, Table.search, show ptr (.node c l a r) = a from rfl, if_neg ha.2.2.ne, hv,
      Option.bind_eq_bind, Option.bind_some, ha.1, zoom, cutAt_eq hv]
    cases cut v with
    | lt => exact ihl (p := .left c p a r) h hl (by omega)
    | gt => exact ihr (p := .right c l a p) h hr (by omega)
    | eq => exact rfl

theorem place_eq (cut : α → Ordering) (h : T.mem.Rep base (p.fill s))
    (hdata : ∀ a ∈ s.toList, ∃ v, T.data a = some v)
    (hfuel : s.height < fuel) :
    T.place cut fuel (ptr s) (parentPtr p) (linkOf p) =
      some (if (zoom (T.cutAt cut) s p).1 = nil then
        some (parentPtr (zoom (T.cutAt cut) s p).2, linkOf (zoom (T.cutAt cut) s p).2)
      else none) := by
  induction s generalizing p fuel with
  | nil =>
    obtain ⟨fuel, rfl⟩ := Nat.exists_eq_add_of_lt hfuel
    exact if_pos rfl
  | node c l a r ihl ihr =>
    rw [RbRoot.height] at hfuel
    obtain ⟨fuel, rfl⟩ := Nat.exists_eq_add_of_lt (Nat.zero_lt_of_lt hfuel)
    have ha := (show T.mem.Rep base (p.fill (build .left c l a r)) from h).getHole
    obtain ⟨v, hv⟩ := hdata a (List.mem_append_right _ List.mem_cons_self)
    have hl (b : Ptr) (hb : b ∈ l.toList) := hdata b (List.mem_append_left _ hb)
    have hr (b : Ptr) (hb : b ∈ r.toList) :=
      hdata b (List.mem_append_right _ (List.mem_cons_of_mem _ hb))
    rw [Nat.zero_add, Table.place, show ptr (.node c l a r) = a from rfl, if_neg ha.2.2.ne, hv,
      Option.bind_eq_bind, Option.bind_some, ha.1, zoom, cutAt_eq hv]
    cases cut v with
    | lt => exact ihl (p := .left c p a r) h hl (by omega)
    | gt => exact ihr (p := .right c l a p) h hr (by omega)
    | eq => exact rfl

namespace Shape

theorem exists_data (h : Shape base s t T) (ha : a ∈ s.toList) : ∃ v, T.data a = some v :=
  Table.exists_data h.data ha

/-- The node a search ends at. -/
theorem find_map (h : Shape base s t T) (cut : α → Ordering) :
    (s.find (T.cutAt cut)).map (Loc.map T.data) = (t.find cut).map (Loc.map some) := by
  have hs := RbTree.find_map T.data (fun o : Option α => o.elim .eq cut) s
  have ht := RbTree.find_map some (fun o : Option α => o.elim .eq cut) t
  rw [h.data, ht] at hs
  exact hs.symm

theorem gap_map (h : Shape base s t T) (cut : α → Ordering) :
    (s.gap (T.cutAt cut)).map T.data = (t.gap cut).map some := by
  have hs := RbTree.gap_map T.data (fun o : Option α => o.elim .eq cut) s
  have ht := RbTree.gap_map some (fun o : Option α => o.elim .eq cut) t
  rw [h.data, ht] at hs
  exact hs.symm

theorem height_lt (h : Shape base s t T) (hfuel : 2 * Nat.log 2 (t.size + 1) < fuel) :
    s.height < fuel := by
  have hsize : s.size = t.size := by
    have hlen := congrArg (fun x : RbRoot (Option α) => x.toList.length) h.data
    simpa [length_toList] using hlen
  have hle := h.rule.height_le
  rw [hsize] at hle
  exact hle.trans_lt hfuel

theorem search (h : Shape base s t T) (cut : α → Ordering)
    (hfuel : 2 * Nat.log 2 (t.size + 1) < fuel) :
    T.search cut fuel T.mem.root = some (ptr (zoom (T.cutAt cut) s .root).1) := by
  rw [h.rep.root]
  exact search_eq (p := .root) h.rep (fun a ha => h.exists_data ha) (h.height_lt hfuel)

/-- A search ends at a node or falls off the tree. -/
theorem find_cases (h : Shape base s t T) (cut : α → Ordering)
    (hfuel : 2 * Nat.log 2 (t.size + 1) < fuel) :
    (t.find cut = none ∧ T.search cut fuel T.mem.root = some 0 ∧
        (zoom (T.cutAt cut) s .root).1 = nil) ∨
      ∃ x y, t.find cut = some y ∧ s.find (T.cutAt cut) = some x ∧ x.map T.data = y.map some ∧
        x.tree = s ∧ T.search cut fuel T.mem.root = some x.val ∧ x.val ≠ 0 := by
  have hfind := h.find_map cut
  have hsearch := h.search cut hfuel
  rcases hz : zoom (T.cutAt cut) s .root with ⟨_ | ⟨c, l, a, r⟩, q⟩
  · have hnone : s.find (T.cutAt cut) = none := by
      rw [RbRoot.find, hz]
    rw [hnone, Option.map_none, eq_comm, Option.map_eq_none_iff] at hfind
    rw [hz] at hsearch
    exact .inl ⟨hfind, hsearch, rfl⟩
  · have hsome : s.find (T.cutAt cut) = some ⟨q, c, l, a, r⟩ := by
      rw [RbRoot.find, hz]
    rw [hsome, Option.map_some, eq_comm, Option.map_eq_some_iff] at hfind
    obtain ⟨y, hy, hxy⟩ := hfind
    rw [hz] at hsearch
    have htree := (find_some hsome).1
    have hrep := h.rep
    rw [← htree] at hrep
    have hne : a ≠ 0 :=
      (show T.mem.Rep base (q.fill (build .left c l a r)) from hrep).getHole.2.2.ne
    exact .inr ⟨_, y, hy, hsome, hxy.symm, htree, hsearch, hne⟩

end Shape

/-- What belongs to the table does not depend on the rest of the memory there. -/
theorem rebase {base' : Ptr → Option RbNode} {m : Mem} (h : m.Rep base' s)
    (hbase : ∀ a ∉ s.toList, base' a = base a) : m.Rep base s :=
  ⟨⟨h.holds.nodup, h.holds.cell, fun {a} ha => (h.holds.frame ha).trans
    (hbase a fun hin => ha (mem_keys_cells.mpr hin))⟩, h.root, h.valid⟩

theorem nodup_toList {m : Mem} (h : m.Rep base s) : s.toList.Nodup := by
  have hnodup := h.holds.nodup
  rwa [keys_cells, Multiset.coe_nodup] at hnodup

theorem node_isSome {m : Mem} (h : m.Rep base s) (ha : a ∈ s.toList) :
    ∃ n, m.node a = some n := by
  have hkey : a ∈ (cells s 0).map Prod.fst := mem_keys_cells.mpr ha
  obtain ⟨⟨b, n⟩, hb, rfl⟩ := Multiset.mem_map.mp hkey
  exact ⟨n, h.holds.cell hb⟩

theorem node_malloc (m : Mem) (a : Ptr) (n : RbNode) :
    (m.malloc a n).node = Function.update m.node a (some n) := rfl

/-- Memory that the table does not use. -/
theorem malloc_rep {m : Mem} (h : m.Rep base s) (ha : m.node a = none) :
    (m.malloc a n).Rep (Function.update base a (some n)) s := by
  have hnot {b : Ptr} (hb : b ∈ s.toList) : b ≠ a := by
    rintro rfl
    obtain ⟨n, hn⟩ := node_isSome h hb
    rw [ha] at hn
    cases hn
  refine ⟨⟨h.holds.nodup, fun {b n'} hb => ?_, fun {b} hb => ?_⟩, h.root, h.valid⟩
  · have hne := hnot (mem_keys_cells.mp (Multiset.mem_map_of_mem Prod.fst hb))
    exact (Function.update_of_ne hne _ _).trans (h.holds.cell hb)
  · rw [node_malloc]
    by_cases hba : b = a
    · subst hba
      rw [Function.update_self, Function.update_self]
    · rw [Function.update_of_ne hba, Function.update_of_ne hba]
      exact h.holds.frame hb

namespace Rep

theorem find (h : Rep base t T) (cut : α → Ordering)
    (hfuel : 2 * Nat.log 2 (t.size + 1) < fuel) :
    T.find fuel cut = some ((t.find cut).map Loc.val) := by
  obtain ⟨s, h⟩ := h
  unfold Table.find
  rcases h.find_cases cut hfuel with ⟨hnone, hsearch, -⟩ | ⟨x, y, hy, -, hxy, -, hsearch, hne⟩
  · rw [hsearch, hnone, Option.bind_eq_bind, Option.bind_some]
    exact if_pos rfl
  · have hdata : T.data x.val = some y.val := congrArg Loc.val hxy
    rw [hsearch, hy, Option.bind_eq_bind, Option.bind_some, if_neg hne, hdata]
    exact rfl

/-- Memory without an entry is not the table's. -/
theorem frame (h : Rep base t T) (ha : T.data a = none) : T.mem.node a = base a := by
  obtain ⟨s, h⟩ := h
  refine h.rep.holds.frame fun hkey => ?_
  obtain ⟨v, hv⟩ := h.exists_data (mem_keys_cells.mp hkey)
  rw [ha] at hv
  cases hv

/-- A new entry. -/
theorem insert (h : Rep base t T) (hfuel : 2 * Nat.log 2 (t.size + 1) < fuel)
    (hfind : t.find cut = none) (ha : Valid a) (hfree : T.mem.node a = none) (n : RbNode) (v : α) :
    ∃ T', T.insert fuel cut a n v = some (T', true) ∧ Rep base ((t.gap cut).insertNew v) T' := by
  obtain ⟨s, h⟩ := h
  have hheight := h.height_lt hfuel
  have hplace := place_eq cut (p := .root) h.rep (fun a ha => h.exists_data ha) hheight
  rcases h.find_cases cut hfuel with ⟨-, -, hnil⟩ | ⟨x, y, hy, -⟩
  swap
  · rw [hfind] at hy
    cases hy
  have hfill : (s.gap (T.cutAt cut)).fill nil = s := by
    have hzoom := fill_zoom (T.cutAt cut) s .root
    rwa [hnil] at hzoom
  rw [if_pos hnil] at hplace
  have hgap := h.gap_map cut
  change T.place cut fuel (ptr s) 0 .root =
    some (some (parentPtr (s.gap (T.cutAt cut)), linkOf (s.gap (T.cutAt cut)))) at hplace
  generalize s.gap (T.cutAt cut) = p at hfill hplace hgap
  have hnew : a ∉ s.toList := fun hin => by
    obtain ⟨n, hn⟩ := node_isSome h.rep hin
    rw [hfree] at hn
    cases hn
  have hbase : base a = none := by
    rw [← h.rep.holds.frame fun hin => hnew (mem_keys_cells.mp hin)]
    exact hfree
  have hmalloc := malloc_rep (n := n) h.rep hfree
  have hrule := h.rule
  have hblack := h.black
  have hdepth : depth p < fuel := by
    rw [← hfill] at hheight
    exact Mem.Has.depth_lt hheight
  rw [← hfill] at hmalloc hrule hblack hnew
  have hself : (T.mem.malloc a n).node a = some n := by
    rw [node_malloc, Function.update_self]
  obtain ⟨m', hm', h'⟩ := hmalloc.rbInsert hrule hblack ha hnew hself hdepth
  rw [hfill] at hnew
  have hlist : s.toList = p.before ++ p.after := by
    rw [← hfill, toList_fill, toList_nil, List.append_nil]
  have hmem (b : Ptr) : b ∈ (p.insertNew a).toList ↔ b = a ∨ b ∈ s.toList := by
    rw [toList_insertNew, hlist, List.mem_append, List.mem_append, List.mem_cons]
    exact or_left_comm
  have hother {b : Ptr} (hb : b ∈ s.toList) : Function.update T.data a (some v) b = T.data b :=
    Function.update_of_ne (fun heq : b = a => hnew (heq ▸ hb)) _ _
  have hdata : (p.insertNew a).map (Function.update T.data a (some v)) =
      ((t.gap cut).insertNew v).map some := by
    rw [insertNew_map, Function.update_self, RbPath.map_congr
      (fun b hb => hother (by rw [hlist]; exact List.mem_append_left _ hb))
      (fun b hb => hother (by rw [hlist]; exact List.mem_append_right _ hb)), hgap, insertNew_map]
  refine ⟨⟨m', Function.update T.data a (some v)⟩, ?_, p.insertNew a, rebase h' fun b hb => ?_,
    hdata, hrule.insertNew a, isRed_insertColor _ _, fun b hb => ?_⟩
  · unfold Table.insert
    rw [h.rep.root, hplace]
    simp only [Option.bind_eq_bind, Option.bind_some]
    rw [Option.bind_eq_bind] at hm'
    rw [← Option.bind_assoc, hm', Option.bind_some]
  · exact Function.update_of_ne (fun heq => hb ((hmem b).mpr (.inl heq))) _ _
  · rcases (hmem b).mp hb with rfl | hb
    · exact hbase
    · exact h.apart b hb

/-- The key of a new entry is taken. -/
theorem insert_taken (h : Rep base t T) (hfuel : 2 * Nat.log 2 (t.size + 1) < fuel)
    (hfind : t.find cut = some x) (a : Ptr) (n : RbNode) (v : α) :
    T.insert fuel cut a n v = some (T, false) := by
  obtain ⟨s, h⟩ := h
  have hplace := place_eq cut (p := .root) h.rep (fun a ha => h.exists_data ha)
    (h.height_lt hfuel)
  rcases h.find_cases cut hfuel with ⟨hnone, -⟩ | ⟨x, y, -, hx, -⟩
  · rw [hfind] at hnone
    cases hnone
  have hne : (zoom (T.cutAt cut) s .root).1 ≠ nil := fun hnil => by
    rw [RbRoot.find, show zoom (T.cutAt cut) s .root = (nil, _) from Prod.ext hnil rfl] at hx
    cases hx
  rw [if_neg hne] at hplace
  unfold Table.insert
  rw [h.rep.root]
  exact congrArg (Option.bind · _) hplace

/-- The entry of a key is taken out. -/
theorem delete (h : Rep base t T) (hfuel : 2 * Nat.log 2 (t.size + 1) < fuel)
    (hfind : t.find cut = some x) :
    ∃ T', T.delete fuel cut = some (T', some x.val) ∧ Rep base x.erase T' := by
  obtain ⟨s, h⟩ := h
  rcases h.find_cases cut hfuel with ⟨hnone, -⟩ | ⟨z, y, hy, hz, hzy, htree, hsearch, hne⟩
  · rw [hfind] at hnone
    cases hnone
  rw [hfind] at hy
  obtain rfl := Option.some.inj hy
  have hval : T.data z.val = some x.val := congrArg Loc.val hzy
  have hheight := h.height_lt hfuel
  have hrep := h.rep
  have hrule := h.rule
  have hblack := h.black
  have hnodup := nodup_toList h.rep
  rw [← htree] at hheight hrep hrule hblack
  rw [← htree, toList_tree] at hnodup
  have hgone : z.val ∉ z.erase.toList := by
    rw [toList_erase]
    exact (List.nodup_middle.mp hnodup).notMem
  have hin {b : Ptr} (hb : b ∈ z.erase.toList) : b ∈ s.toList := by
    rw [toList_erase] at hb
    rw [← htree, toList_tree, List.mem_append, List.mem_cons]
    exact (List.mem_append.mp hb).imp_right .inr
  have hin' : z.val ∈ s.toList := mem_of_find hz
  obtain ⟨m1, hm1, h1⟩ := hrep.rbErase hrule hheight
  obtain ⟨n, hn⟩ := node_isSome h.rep hin'
  have hnode : m1.node z.val = some n := by
    rw [h1.holds.frame fun hkey => hgone (mem_keys_cells.mp hkey), Function.update_self, hn]
  have hdata : z.erase.map (Function.update T.data z.val none) = x.erase.map some := by
    rw [RbRoot.map_congr (g := T.data) fun b hb =>
      Function.update_of_ne (fun heq : b = z.val => hgone (heq ▸ hb)) _ _, erase_map, hzy,
      ← erase_map]
  refine ⟨⟨⟨Function.update m1.node z.val none, m1.root⟩, Function.update T.data z.val none⟩, ?_,
    z.erase, ⟨⟨h1.holds.nodup, fun {b n} hb => ?_, fun {b} hb => ?_⟩, h1.root, h1.valid⟩, hdata,
    hrule.erase, isRed_erase hblack, fun b hb => h.apart b (hin hb)⟩
  · unfold Table.delete Mem.free
    simp only [Option.bind_eq_bind, hsearch, Option.bind_some, if_neg hne, hval, hm1, hnode,
      Option.map_some]
  · have hkey := mem_keys_cells.mp (Multiset.mem_map_of_mem Prod.fst hb)
    exact (Function.update_of_ne (fun heq : b = z.val => hgone (heq ▸ hkey)) _ _).trans
      (h1.holds.cell hb)
  · by_cases hb' : b = z.val
    · rw [hb', h.apart _ hin']
      exact Function.update_self ..
    · have hframe := h1.holds.frame hb
      rw [Function.update_of_ne hb'] at hframe
      exact (Function.update_of_ne hb' _ _).trans hframe

theorem delete_none (h : Rep base t T) (hfuel : 2 * Nat.log 2 (t.size + 1) < fuel)
    (hfind : t.find cut = none) : T.delete fuel cut = some (T, none) := by
  obtain ⟨s, h⟩ := h
  rcases h.find_cases cut hfuel with ⟨-, hsearch, -⟩ | ⟨z, y, hy, -⟩
  · unfold Table.delete
    rw [hsearch, Option.bind_eq_bind, Option.bind_some]
    exact if_pos rfl
  · rw [hfind] at hy
    cases hy

theorem write_none (h : Rep base t T) (hfuel : 2 * Nat.log 2 (t.size + 1) < fuel)
    (hfind : t.find cut = none) (f : α → α) : T.write fuel cut f = some T := by
  obtain ⟨s, h⟩ := h
  rcases h.find_cases cut hfuel with ⟨-, hsearch, -⟩ | ⟨z, y, hy, -⟩
  · unfold Table.write
    rw [hsearch, Option.bind_eq_bind, Option.bind_some]
    exact if_pos rfl
  · rw [hfind] at hy
    cases hy

/-- Writing to the record of a key. -/
theorem write (h : Rep base t T) (hfuel : 2 * Nat.log 2 (t.size + 1) < fuel)
    (hfind : t.find cut = some x) (f : α → α) :
    ∃ T', T.write fuel cut f = some T' ∧ Rep base (x.set (f x.val)) T' := by
  obtain ⟨s, h⟩ := h
  rcases h.find_cases cut hfuel with ⟨hnone, -⟩ | ⟨z, y, hy, hz, hzy, htree, hsearch, hne⟩
  · rw [hfind] at hnone
    cases hnone
  rw [hfind] at hy
  obtain rfl := Option.some.inj hy
  have hval : T.data z.val = some x.val := congrArg Loc.val hzy
  have hnodup := nodup_toList h.rep
  rw [← htree, toList_tree] at hnodup
  have hgone := (List.nodup_middle.mp hnodup).notMem
  have hother {b : Ptr} (hb : b ∈ z.before ++ z.after) :
      Function.update T.data z.val (some (f x.val)) b = T.data b :=
    Function.update_of_ne (fun heq : b = z.val => hgone (heq ▸ hb)) _ _
  have hdata : s.map (Function.update T.data z.val (some (f x.val))) =
      (x.set (f x.val)).map some := by
    obtain ⟨p, c, l, a, r⟩ := z
    obtain ⟨q, c', l', v, r'⟩ := x
    simp only [Loc.map, Loc.mk.injEq] at hzy
    obtain ⟨hp, rfl, hl, -, hr⟩ := hzy
    simp only [Loc.before, Loc.after, List.mem_append] at hother
    rw [← htree, Loc.tree, Loc.set, fill_map, fill_map, RbRoot.map, RbRoot.map,
      Function.update_self, RbPath.map_congr (fun b hb => hother (.inl (.inl hb)))
        (fun b hb => hother (.inr (.inr hb))), RbRoot.map_congr fun b hb => hother (.inl (.inr hb)),
      RbRoot.map_congr fun b hb => hother (.inr (.inl hb)), hp, hl, hr]
  refine ⟨⟨T.mem, Function.update T.data z.val (some (f x.val))⟩, ?_, s, h.rep, hdata, h.rule,
    h.black, h.apart⟩
  unfold Table.write
  simp only [Option.bind_eq_bind, hsearch, Option.bind_some, if_neg hne, hval]

end Rep

end Rules

end Table

end Mtrace.Rb
