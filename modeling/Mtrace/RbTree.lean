import Mathlib.Data.List.Sort
import Mathlib.Data.List.Perm.Basic

/-!
# Red-black trees with a zipper

The intrusive red-black tree of `rbtree.c`, without its pointers: a node pointer is a `Loc`, a
node together with the path from the root to it.  Insertion and removal follow the C code's
recolouring and rotations, so the shapes agree; what the clients of the tree rely on is that both
keep the in-order sequence, which is `toList`.

1. `RbRoot`, `RbPath` and `Loc`: filling a hole, descending with a three-way comparison `cut`.
2. `RbPath.insertColor` and `RbPath.eraseColor`: the two rebalancing loops.
3. `toList` of every operation.
4. `MonoCut`: a comparison that agrees with the in-order sequence finds what is there.
5. `map`: renaming the entries and searching commute.
-/

namespace RbTree

universe u

/-- `RB_RED` and `RB_BLACK`. -/
inductive Color where
  | red
  | black
  deriving DecidableEq, Repr

inductive RbRoot (α : Type u) where
  | nil
  | node (c : Color) (l : RbRoot α) (v : α) (r : RbRoot α)
  deriving DecidableEq, Repr

/-- A tree with a hole, seen from the hole. -/
inductive RbPath (α : Type u) where
  | root
  | left (c : Color) (up : RbPath α) (v : α) (r : RbRoot α)
  | right (c : Color) (l : RbRoot α) (v : α) (up : RbPath α)

/-- A node of a tree: what a node pointer of the source denotes. -/
structure Loc (α : Type u) where
  path : RbPath α
  color : Color
  l : RbRoot α
  val : α
  r : RbRoot α

variable {α : Type u} {β : Type u}

namespace RbRoot

/-- The in-order sequence: what `rb_first` and `rb_next` walk through. -/
def toList : RbRoot α → List α
  | nil => []
  | node _ l v r => l.toList ++ v :: r.toList

/-- The order of `rb_iterate` and of `rb_next_postorder`: children before their parent. -/
def postorder : RbRoot α → List α
  | nil => []
  | node _ l v r => l.postorder ++ r.postorder ++ [v]

/-- The number of nodes. -/
def size : RbRoot α → ℕ
  | nil => 0
  | node _ l _ r => l.size + 1 + r.size

/-- Rewriting the entries in place. -/
def map (f : α → β) : RbRoot α → RbRoot β
  | nil => nil
  | node c l v r => node c (l.map f) (f v) (r.map f)

def isRed : RbRoot α → Bool
  | node .red _ _ _ => true
  | _ => false

def setBlack : RbRoot α → RbRoot α
  | nil => nil
  | node _ l v r => node .black l v r

def setRed : RbRoot α → RbRoot α
  | nil => nil
  | node _ l v r => node .red l v r

end RbRoot

namespace RbPath

open RbRoot

def fill : RbPath α → RbRoot α → RbRoot α
  | root, t => t
  | left c up v r, t => up.fill (node c t v r)
  | right c l v up, t => up.fill (node c l v t)

/-- The entries in front of the hole. -/
def before : RbPath α → List α
  | root => []
  | left _ up _ _ => up.before
  | right _ l v up => up.before ++ l.toList ++ [v]

/-- The entries behind the hole. -/
def after : RbPath α → List α
  | root => []
  | left _ up v r => v :: r.toList ++ up.after
  | right _ _ _ up => up.after

/-- The entries met on the way from the hole up to the root. -/
def entries : RbPath α → List α
  | root => []
  | left _ up v _ => v :: up.entries
  | right _ _ v up => v :: up.entries

/-- `rb_insert_color`: `t` is the red node just linked, or the grandparent the loop moved up to.
A red parent without a grandparent is a red root, which the source never leaves behind. -/
def insertColor : RbPath α → RbRoot α → RbRoot α
  | left .red (left _ g gv gr) v r, t =>
    if gr.isRed then g.insertColor (node .red (node .black t v r) gv gr.setBlack)
    else (g.fill (node .black t v (node .red r gv gr))).setBlack
  | right .red l v (left _ g gv gr), t =>
    if gr.isRed then g.insertColor (node .red (node .black l v t) gv gr.setBlack)
    else match t with
      | node _ tl tv tr =>
        (g.fill (node .black (node .red l v tl) tv (node .red tr gv gr))).setBlack
      | nil => (g.fill (node .red (node .black l v nil) gv gr)).setBlack
  | right .red l v (right _ gl gv g), t =>
    if gl.isRed then g.insertColor (node .red gl.setBlack gv (node .black l v t))
    else (g.fill (node .black (node .red gl gv l) v t)).setBlack
  | left .red (right _ gl gv g) v r, t =>
    if gl.isRed then g.insertColor (node .red gl.setBlack gv (node .black t v r))
    else match t with
      | node _ tl tv tr =>
        (g.fill (node .black (node .red gl gv tl) tv (node .red tr v r))).setBlack
      | nil => (g.fill (node .red gl gv (node .black nil v r))).setBlack
  | p, t => (p.fill t).setBlack

/-- `rb_link_node` followed by `rb_insert_color`. -/
def insertNew (p : RbPath α) (v : α) : RbRoot α :=
  p.insertColor (node .red nil v nil)

/-- The closing rotations of `__rb_erase_color` for a hole `t` on the left of `v`, when the sibling
has a red child. -/
def borrowRight (c : Color) (t : RbRoot α) (v : α) : RbRoot α → Option (RbRoot α)
  | nil => none
  | node _ ol ov or =>
    if or.isRed then some (node c (node .black t v ol) ov or.setBlack)
    else match ol with
      | node .red oll olv olr =>
        some (node c (node .black t v oll) olv (node .black olr ov or))
      | _ => none

/-- The mirror image of `borrowRight`. -/
def borrowLeft (c : Color) (t : RbRoot α) (v : α) : RbRoot α → Option (RbRoot α)
  | nil => none
  | node _ ol ov or =>
    if ol.isRed then some (node c ol.setBlack ov (node .black or v t))
    else match or with
      | node .red orl orv orr =>
        some (node c (node .black ol ov orl) orv (node .black orr v t))
      | _ => none

/-- `__rb_erase_color`: `t` stands where a black node was removed. -/
def eraseColor : RbPath α → RbRoot α → RbRoot α
  | root, t => t.setBlack
  | left c up v s, t =>
    if t.isRed then (left c up v s).fill t.setBlack
    else match s with
      | node .red ol ov or =>
        -- the red sibling is rotated above the parent, which is red now and ends the loop
        match borrowRight .red t v ol with
        | some t' => ((left .black up ov or).fill t').setBlack
        | none => (left .black up ov or).fill (node .black t v ol.setRed)
      | s =>
        match borrowRight c t v s with
        | some t' => (up.fill t').setBlack
        | none => up.eraseColor (node c t v s.setRed)
  | right c s v up, t =>
    if t.isRed then (right c s v up).fill t.setBlack
    else match s with
      | node .red ol ov or =>
        match borrowLeft .red t v or with
        | some t' => ((right .black ol ov up).fill t').setBlack
        | none => (right .black ol ov up).fill (node .black or.setRed v t)
      | s =>
        match borrowLeft c t v s with
        | some t' => (up.fill t').setBlack
        | none => up.eraseColor (node c s.setRed v t)

/-- The removal of a node with the only child `t`, at the place `p` of that node. -/
def splice (c : Color) (p : RbPath α) (t : RbRoot α) : RbRoot α :=
  match c with
  | .red => p.fill t
  | .black => p.eraseColor t

/-- The first entry of the tree `node c l v r`. -/
def minVal : RbRoot α → α → α
  | nil, v => v
  | node _ l v _, _ => minVal l v

/-- Takes the first node out of `node c l v r`, which stands at `p`. -/
def spliceMin (c : Color) (l : RbRoot α) (v : α) (r : RbRoot α) (p : RbPath α) : RbRoot α :=
  match l with
  | nil => splice c p r
  | node c' l' v' r' => spliceMin c' l' v' r' (left c p v r)

end RbPath

namespace Loc

open RbRoot RbPath

/-- The tree a node belongs to. -/
def tree (x : Loc α) : RbRoot α := x.path.fill (node x.color x.l x.val x.r)

/-- The entries in front of a node. -/
def before (x : Loc α) : List α := x.path.before ++ x.l.toList

/-- The entries behind a node. -/
def after (x : Loc α) : List α := x.r.toList ++ x.path.after

/-- Writing to the entry of a node, which stays where it is whatever its key becomes. -/
def set (x : Loc α) (v : α) : RbRoot α := x.path.fill (node x.color x.l v x.r)

/-- `rb_erase`: a node with two children is replaced by its successor. -/
def erase (x : Loc α) : RbRoot α :=
  match x.l, x.r with
  | nil, r => splice x.color x.path r
  | l, nil => splice x.color x.path l
  | l, node c rl rv rr => spliceMin c rl rv rr (.right x.color l (minVal rl rv) x.path)

end Loc

namespace RbRoot

/-- The descent all searches and insertions share: left where `cut` says the key is smaller, right
where it is greater, stopping where it hits or at a missing child. -/
def zoom (cut : α → Ordering) : RbRoot α → RbPath α → RbRoot α × RbPath α
  | nil, p => (nil, p)
  | node c l v r, p =>
    match cut v with
    | .lt => zoom cut l (.left c p v r)
    | .gt => zoom cut r (.right c l v p)
    | .eq => (node c l v r, p)

/-- The node a search ends at. -/
def find (cut : α → Ordering) (t : RbRoot α) : Option (Loc α) :=
  match zoom cut t .root with
  | (node c l v r, p) => some ⟨p, c, l, v, r⟩
  | (nil, _) => none

/-- The place where a search that finds nothing falls off the tree. -/
def gap (cut : α → Ordering) (t : RbRoot α) : RbPath α := (zoom cut t .root).2

/-- The first node with a property, which is not a matter of a key. -/
def locate (p : α → Bool) : RbRoot α → RbPath α → Option (Loc α)
  | nil, _ => none
  | node c l v r, path =>
    (locate p l (.left c path v r)).or
      (if p v then some ⟨path, c, l, v, r⟩ else locate p r (.right c l v path))

end RbRoot

/-! ## The in-order sequence -/

section InOrder

open RbRoot RbPath

@[simp] theorem toList_nil : (nil : RbRoot α).toList = [] := rfl

@[simp] theorem toList_node (c : Color) (l : RbRoot α) (v : α) (r : RbRoot α) :
    (node c l v r).toList = l.toList ++ v :: r.toList := rfl

@[simp] theorem toList_setBlack (t : RbRoot α) : t.setBlack.toList = t.toList := by
  cases t <;> rfl

@[simp] theorem toList_setRed (t : RbRoot α) : t.setRed.toList = t.toList := by
  cases t <;> rfl

@[simp] theorem toList_map (f : α → β) (t : RbRoot α) : (t.map f).toList = t.toList.map f := by
  induction t with
  | nil => rfl
  | node c l v r ihl ihr => simp [RbRoot.map, ihl, ihr]

theorem RbRoot.map_map {γ : Type u} (f : α → β) (g : β → γ) (t : RbRoot α) :
    (t.map f).map g = t.map fun v => g (f v) := by
  induction t with
  | nil => rfl
  | node c l v r ihl ihr => simp [RbRoot.map, ihl, ihr]

theorem length_toList (t : RbRoot α) : t.toList.length = t.size := by
  induction t with
  | nil => rfl
  | node c l v r ihl ihr =>
    simp only [toList_node, List.length_append, List.length_cons, size]; omega

theorem postorder_perm (t : RbRoot α) : t.postorder.Perm t.toList := by
  induction t with
  | nil => exact List.Perm.refl _
  | node c l v r ihl ihr =>
    rw [postorder, toList_node, List.append_assoc]
    refine ihl.append ?_
    exact (ihr.append_right [v]).trans List.perm_append_comm

@[simp] theorem toList_fill (p : RbPath α) (t : RbRoot α) :
    (p.fill t).toList = p.before ++ t.toList ++ p.after := by
  induction p generalizing t with
  | root => simp [fill, before, after]
  | left c up v r ih => simp [fill, before, after, ih]
  | right c l v up ih => simp [fill, before, after, ih]

@[simp] theorem toList_insertColor (p : RbPath α) (t : RbRoot α) :
    (p.insertColor t).toList = p.before ++ t.toList ++ p.after := by
  fun_induction insertColor p t <;> simp_all [before, after]

@[simp] theorem toList_insertNew (p : RbPath α) (v : α) :
    (p.insertNew v).toList = p.before ++ v :: p.after := by
  simp [insertNew]

theorem toList_borrowRight {c : Color} {t s t' : RbRoot α} {v : α}
    (h : borrowRight c t v s = some t') : t'.toList = t.toList ++ v :: s.toList := by
  unfold borrowRight at h
  split at h
  · cases h
  · split at h
    · cases h; simp
    · split at h
      · cases h; simp
      · cases h

theorem toList_borrowLeft {c : Color} {t s t' : RbRoot α} {v : α}
    (h : borrowLeft c t v s = some t') : t'.toList = s.toList ++ v :: t.toList := by
  unfold borrowLeft at h
  split at h
  · cases h
  · split at h
    · cases h; simp
    · split at h
      · cases h; simp
      · cases h

@[simp] theorem toList_eraseColor (p : RbPath α) (t : RbRoot α) :
    (p.eraseColor t).toList = p.before ++ t.toList ++ p.after := by
  induction p generalizing t with
  | root => simp [eraseColor, before, after]
  | left c up v s ih =>
    unfold eraseColor
    split
    · simp
    split
    · split
      next h => simp [before, after, toList_borrowRight h]
      next => simp [before, after]
    · split
      next h => simp [before, after, toList_borrowRight h]
      next => simp [before, after, ih]
  | right c s v up ih =>
    unfold eraseColor
    split
    · simp
    split
    · split
      next h => simp [before, after, toList_borrowLeft h]
      next => simp [before, after]
    · split
      next h => simp [before, after, toList_borrowLeft h]
      next => simp [before, after, ih]

@[simp] theorem toList_splice (c : Color) (p : RbPath α) (t : RbRoot α) :
    (splice c p t).toList = p.before ++ t.toList ++ p.after := by
  cases c <;> simp [splice]

/-- The entry `spliceMin` drops is the one `minVal` returns. -/
theorem toList_spliceMin (c : Color) (l : RbRoot α) (v : α) (r : RbRoot α) (p : RbPath α) :
    ∃ rest, l.toList ++ v :: r.toList = minVal l v :: rest ∧
      (spliceMin c l v r p).toList = p.before ++ rest ++ p.after := by
  induction l generalizing c v r p with
  | nil => exact ⟨r.toList, rfl, by simp [spliceMin]⟩
  | node c' l' v' r' ihl _ =>
    obtain ⟨rest, hrest, hsp⟩ := ihl c' v' r' (.left c p v r)
    refine ⟨rest ++ v :: r.toList, ?_, ?_⟩
    · rw [toList_node, hrest, minVal, List.cons_append]
    · rw [spliceMin, hsp]
      simp [before, after]

theorem toList_set (x : Loc α) (v : α) : (x.set v).toList = x.before ++ v :: x.after := by
  simp [Loc.set, Loc.before, Loc.after]

theorem toList_tree (x : Loc α) : x.tree.toList = x.before ++ x.val :: x.after := by
  simp [Loc.tree, Loc.before, Loc.after]

theorem toList_erase (x : Loc α) : x.erase.toList = x.before ++ x.after := by
  obtain ⟨p, c, l, v, r⟩ := x
  cases l with
  | nil => simp [Loc.erase, Loc.before, Loc.after]
  | node lc ll lv lr =>
    cases r with
    | nil => simp [Loc.erase, Loc.before, Loc.after]
    | node rc rl rv rr =>
      obtain ⟨rest, hrest, hsp⟩ := toList_spliceMin rc rl rv rr
        (.right c (node lc ll lv lr) (minVal rl rv) p)
      simp only [Loc.erase, Loc.before, Loc.after, hsp, toList_node, hrest]
      simp [before, after]

end InOrder

/-! ## Searching -/

section Search

open RbRoot RbPath

theorem fill_zoom (cut : α → Ordering) (t : RbRoot α) (p : RbPath α) :
    (zoom cut t p).2.fill (zoom cut t p).1 = p.fill t := by
  induction t generalizing p with
  | nil => rfl
  | node c l v r ihl ihr =>
    unfold zoom
    cases cut v with
    | lt => exact ihl _
    | gt => exact ihr _
    | eq => rfl

theorem zoom_fst (cut : α → Ordering) (t : RbRoot α) (p : RbPath α) :
    (zoom cut t p).1 = nil ∨
      ∃ c l v r, (zoom cut t p).1 = node c l v r ∧ cut v = .eq := by
  induction t generalizing p with
  | nil => exact .inl rfl
  | node c l v r ihl ihr =>
    unfold zoom
    cases h : cut v with
    | lt => exact ihl _
    | gt => exact ihr _
    | eq => exact .inr ⟨c, l, v, r, rfl, h⟩

/-- What a successful search says about its node. -/
theorem find_some {cut : α → Ordering} {t : RbRoot α} {x : Loc α} (h : t.find cut = some x) :
    x.tree = t ∧ cut x.val = .eq := by
  have hfill := fill_zoom cut t .root
  unfold find at h
  rcases zoom_fst cut t .root with hz | ⟨c, l, v, r, hz, hc⟩
  · rw [show zoom cut t .root = (nil, (zoom cut t .root).2) from Prod.ext hz rfl] at h
    cases h
  · rw [show zoom cut t .root = (node c l v r, (zoom cut t .root).2) from Prod.ext hz rfl] at h
    cases h
    rw [hz] at hfill
    exact ⟨hfill, hc⟩

theorem toList_of_find {cut : α → Ordering} {t : RbRoot α} {x : Loc α} (h : t.find cut = some x) :
    t.toList = x.before ++ x.val :: x.after := by
  rw [← (find_some h).1, toList_tree]

theorem mem_of_find {cut : α → Ordering} {t : RbRoot α} {x : Loc α} (h : t.find cut = some x) :
    x.val ∈ t.toList := by
  rw [toList_of_find h]; simp

/-- Where a search finds nothing, its gap splits the in-order sequence. -/
theorem toList_of_find_none {cut : α → Ordering} {t : RbRoot α} (h : t.find cut = none) :
    t.toList = (t.gap cut).before ++ (t.gap cut).after := by
  have hfill := fill_zoom cut t .root
  unfold find at h
  rcases zoom_fst cut t .root with hz | ⟨c, l, v, r, hz, -⟩
  · rw [hz] at hfill
    have htree : (t.gap cut).fill nil = t := hfill
    calc t.toList = ((t.gap cut).fill nil).toList := by rw [htree]
      _ = (t.gap cut).before ++ (t.gap cut).after := by simp
  · rw [show zoom cut t .root = (node c l v r, (zoom cut t .root).2) from Prod.ext hz rfl] at h
    cases h

/-- A comparison that never hits leaves no node. -/
theorem find_none_of_ne {cut : α → Ordering} {t : RbRoot α} (h : ∀ v ∈ t.toList, cut v ≠ .eq) :
    t.find cut = none := by
  rcases hf : t.find cut with _ | x
  · rfl
  · exact absurd (find_some hf).2 (h _ (mem_of_find hf))

/-- The comparison is consistent with the sequence: going right of an entry is going right of
everything in front of it, and going left of it is going left of everything behind it. -/
def MonoCut (cut : α → Ordering) (xs : List α) : Prop :=
  xs.Pairwise fun x y => (cut y ≠ .lt → cut x ≠ .lt) ∧ (cut y = .gt → cut x = .gt)

/-- The descent keeps what is smaller than the key in front of the hole and what is greater behind
it. -/
theorem zoom_cut {cut : α → Ordering} {t : RbRoot α} {p : RbPath α} (hm : MonoCut cut t.toList)
    (hb : ∀ x ∈ p.before, cut x = .gt) (ha : ∀ x ∈ p.after, cut x = .lt) :
    (∀ x ∈ (zoom cut t p).2.before, cut x = .gt) ∧ ∀ x ∈ (zoom cut t p).2.after, cut x = .lt := by
  induction t generalizing p with
  | nil => exact ⟨hb, ha⟩
  | node c l v r ihl ihr =>
    obtain ⟨hml, hmr, hlr⟩ := List.pairwise_append.mp hm
    obtain ⟨hv, hmr⟩ := List.pairwise_cons.mp hmr
    unfold zoom
    cases h : cut v with
    | eq => exact ⟨hb, ha⟩
    | lt =>
      refine ihl hml hb fun x hx => ?_
      simp only [after, List.cons_append, List.mem_cons, List.mem_append] at hx
      rcases hx with rfl | hx | hx
      · exact h
      · by_contra hne
        exact (hv x hx).1 hne h
      · exact ha x hx
    | gt =>
      refine ihr hmr (fun x hx => ?_) ha
      simp only [before, List.mem_append, List.mem_singleton] at hx
      rcases hx with (hx | hx) | rfl
      · exact hb x hx
      · exact (hlr x hx v (List.mem_cons_self ..)).2 h
      · exact h

/-- The gap of a search separates the smaller entries from the greater ones. -/
theorem gap_cut {cut : α → Ordering} {t : RbRoot α} (hm : MonoCut cut t.toList) :
    (∀ x ∈ (t.gap cut).before, cut x = .gt) ∧ ∀ x ∈ (t.gap cut).after, cut x = .lt :=
  zoom_cut hm (by simp [before]) (by simp [after])

/-- A consistent search finds a hit if there is one. -/
theorem find_eq_none_iff {cut : α → Ordering} {t : RbRoot α} (hm : MonoCut cut t.toList) :
    t.find cut = none ↔ ∀ v ∈ t.toList, cut v ≠ .eq := by
  refine ⟨fun h v hv => ?_, find_none_of_ne⟩
  rw [toList_of_find_none h, List.mem_append] at hv
  rcases hv with hv | hv
  · rw [(gap_cut hm).1 v hv]; decide
  · rw [(gap_cut hm).2 v hv]; decide

theorem locate_none {p : α → Bool} {t : RbRoot α} {path : RbPath α} (h : locate p t path = none) :
    ∀ v ∈ t.toList, p v = false := by
  induction t generalizing path with
  | nil => exact fun v hv => absurd hv List.not_mem_nil
  | node c l v r ihl ihr =>
    unfold locate at h
    obtain ⟨hl, h⟩ := Option.or_eq_none_iff.mp h
    split at h
    · cases h
    next hv =>
      intro w hw
      rw [toList_node, List.mem_append, List.mem_cons] at hw
      rcases hw with hw | rfl | hw
      · exact ihl hl w hw
      · exact Bool.eq_false_iff.mpr hv
      · exact ihr h w hw

/-- A located node splits the in-order sequence. -/
theorem locate_some {p : α → Bool} {t : RbRoot α} {path : RbPath α} {x : Loc α}
    (h : locate p t path = some x) : p x.val = true ∧ ∃ as bs, t.toList = as ++ x.val :: bs ∧
      x.before = path.before ++ as ∧ x.after = bs ++ path.after := by
  induction t generalizing path with
  | nil => cases h
  | node c l v r ihl ihr =>
    unfold locate at h
    rcases Option.or_eq_some_iff.mp h with hl | ⟨-, h⟩
    · obtain ⟨hx, as, bs, hlist, hb, ha⟩ := ihl hl
      refine ⟨hx, as, bs ++ v :: r.toList, ?_, hb, ?_⟩
      · rw [toList_node, hlist, List.append_assoc, List.cons_append]
      · rw [ha, after, List.append_assoc]
    · split at h
      next hv =>
        cases h
        exact ⟨hv, l.toList, r.toList, rfl, rfl, rfl⟩
      next =>
        obtain ⟨hx, as, bs, hlist, hb, ha⟩ := ihr h
        refine ⟨hx, l.toList ++ v :: as, bs, ?_, ?_, ha⟩
        · rw [toList_node, hlist, List.append_assoc, List.cons_append]
        · rw [hb, before]
          simp only [List.append_assoc, List.cons_append, List.nil_append]

theorem fill_of_locate {p : α → Bool} {t : RbRoot α} {path : RbPath α} {x : Loc α}
    (h : locate p t path = some x) : x.tree = path.fill t := by
  induction t generalizing path with
  | nil => cases h
  | node c l v r ihl ihr =>
    unfold locate at h
    rcases Option.or_eq_some_iff.mp h with hl | ⟨-, h⟩
    · exact ihl hl
    · split at h
      · cases h
        rfl
      · exact ihr h

theorem tree_of_locate {p : α → Bool} {t : RbRoot α} {x : Loc α} (h : locate p t .root = some x) :
    x.tree = t :=
  fill_of_locate h

theorem locate_eq_none {p : α → Bool} {t : RbRoot α} (path : RbPath α)
    (h : ∀ v ∈ t.toList, p v = false) : locate p t path = none := by
  cases hx : locate p t path with
  | none => rfl
  | some x =>
    obtain ⟨hp, as, bs, hlist, -⟩ := locate_some hx
    have hfalse := h x.val (by rw [hlist]; exact List.mem_append_right as List.mem_cons_self)
    exact absurd (hfalse.symm.trans hp) Bool.false_ne_true

/-- A node with no other one of its kind in front of it is the one that is located. -/
theorem locate_fill {p : α → Bool} {path : RbPath α} {t : RbRoot α} {x : Loc α}
    (hbefore : ∀ v ∈ path.before, p v = false) (h : locate p t path = some x) :
    locate p (path.fill t) .root = some x := by
  induction path generalizing t with
  | root => exact h
  | left c up v r ih =>
    refine ih hbefore ?_
    rw [locate, h]
    rfl
  | right c l v up ih =>
    simp only [before, List.mem_append, List.mem_singleton] at hbefore
    refine ih (fun w hw => hbefore w (.inl (.inl hw))) ?_
    rw [locate, locate_eq_none _ fun w hw => hbefore w (.inl (.inr hw)),
      if_neg (by rw [hbefore v (.inr rfl)]; exact Bool.false_ne_true), Option.none_or]
    exact h

/-- Erasing a located node. -/
theorem perm_of_locate {p : α → Bool} {t : RbRoot α} {x : Loc α} (h : locate p t .root = some x) :
    p x.val = true ∧ t.toList.Perm (x.val :: x.erase.toList) := by
  obtain ⟨hx, as, bs, hlist, hb, ha⟩ := locate_some h
  refine ⟨hx, ?_⟩
  have herase : x.erase.toList = as ++ bs := by
    rw [toList_erase, hb, ha]
    exact congrArg (as ++ ·) (List.append_nil bs)
  rw [hlist, herase]
  exact List.perm_middle

end Search

/-! ## Renaming the entries -/

section Map

open RbRoot

/-- The path with its entries renamed. -/
def RbPath.map (f : α → β) : RbPath α → RbPath β
  | .root => .root
  | .left c up v r => .left c (up.map f) (f v) (r.map f)
  | .right c l v up => .right c (l.map f) (f v) (up.map f)

/-- The node with all entries of its tree renamed. -/
def Loc.map (f : α → β) (x : Loc α) : Loc β :=
  ⟨x.path.map f, x.color, x.l.map f, f x.val, x.r.map f⟩

theorem RbRoot.map_congr {f g : α → β} {t : RbRoot α} (h : ∀ v ∈ t.toList, f v = g v) :
    t.map f = t.map g := by
  induction t with
  | nil => rfl
  | node c l v r ihl ihr =>
    have hl : ∀ w ∈ l.toList, f w = g w := fun w hw => h w (List.mem_append_left _ hw)
    have hr : ∀ w ∈ r.toList, f w = g w := fun w hw =>
      h w (List.mem_append_right _ (List.mem_cons_of_mem _ hw))
    have hv : f v = g v := h v (List.mem_append_right _ List.mem_cons_self)
    rw [RbRoot.map, RbRoot.map, ihl hl, ihr hr, hv]

theorem RbPath.map_congr {f g : α → β} {p : RbPath α}
    (hb : ∀ v ∈ p.before, f v = g v) (ha : ∀ v ∈ p.after, f v = g v) : p.map f = p.map g := by
  induction p with
  | root => rfl
  | left c up v r ih =>
    simp only [RbPath.after, List.cons_append, List.mem_cons, List.mem_append] at ha
    have hr : ∀ w ∈ r.toList, f w = g w := fun w hw => ha w (.inr (.inl hw))
    rw [RbPath.map, RbPath.map, ih hb fun w hw => ha w (.inr (.inr hw)), ha v (.inl rfl),
      RbRoot.map_congr hr]
  | right c l v up ih =>
    simp only [RbPath.before, List.mem_append, List.mem_singleton] at hb
    have hl : ∀ w ∈ l.toList, f w = g w := fun w hw => hb w (.inl (.inr hw))
    rw [RbPath.map, RbPath.map, ih (fun w hw => hb w (.inl (.inl hw))) ha, hb v (.inr rfl),
      RbRoot.map_congr hl]

theorem zoom_map (f : α → β) (cut : β → Ordering) (t : RbRoot α) (p : RbPath α) :
    zoom cut (t.map f) (p.map f) =
      ((zoom (cut ∘ f) t p).1.map f, (zoom (cut ∘ f) t p).2.map f) := by
  induction t generalizing p with
  | nil => rfl
  | node c l v r ihl ihr =>
    have hcut : (cut ∘ f) v = cut (f v) := rfl
    rw [RbRoot.map, zoom, zoom, hcut]
    cases cut (f v) with
    | lt => exact ihl (.left c p v r)
    | gt => exact ihr (.right c l v p)
    | eq => rfl

/-- A search sees the new names. -/
theorem find_map (f : α → β) (cut : β → Ordering) (t : RbRoot α) :
    (t.map f).find cut = (t.find (cut ∘ f)).map (Loc.map f) := by
  have h : zoom cut (t.map f) .root = _ := zoom_map f cut t .root
  unfold find
  rw [h]
  rcases zoom (cut ∘ f) t .root with ⟨_ | ⟨c, l, v, r⟩, p⟩
  · rfl
  · rfl

theorem gap_map (f : α → β) (cut : β → Ordering) (t : RbRoot α) :
    (t.map f).gap cut = (t.gap (cut ∘ f)).map f :=
  congrArg Prod.snd (zoom_map f cut t .root)

theorem fill_map (f : α → β) (p : RbPath α) (t : RbRoot α) :
    (p.fill t).map f = (p.map f).fill (t.map f) := by
  induction p generalizing t with
  | root => rfl
  | left c up v r ih => exact ih _
  | right c l v up ih => exact ih _

theorem setBlack_map (f : α → β) (t : RbRoot α) : t.setBlack.map f = (t.map f).setBlack := by
  cases t <;> rfl

theorem isRed_map (f : α → β) (t : RbRoot α) : (t.map f).isRed = t.isRed := by
  rcases t with _ | ⟨_ | _, l, v, r⟩ <;> rfl

theorem insertColor_map (f : α → β) (p : RbPath α) (t : RbRoot α) :
    (p.insertColor t).map f = (p.map f).insertColor (t.map f) := by
  fun_induction RbPath.insertColor p t <;>
    simp_all [RbPath.map, RbPath.insertColor, RbRoot.map, isRed_map, setBlack_map, fill_map]
  -- what is left is a root, a black parent or a red root as parent, where nothing is rotated
  case case11 p t h1 h2 h3 h4 =>
    rcases p with _ | ⟨_ | _, _ | _ | _, v, r⟩ | ⟨_ | _, l, v, _ | _ | _⟩
    all_goals first
      | rfl
      | exact (h1 _ _ _ _ _ _ rfl).elim
      | exact (h2 _ _ _ _ _ _ rfl).elim
      | exact (h3 _ _ _ _ _ _ rfl).elim
      | exact (h4 _ _ _ _ _ _ rfl).elim

/-- Linking a node does not look at the entries. -/
theorem insertNew_map (f : α → β) (p : RbPath α) (v : α) :
    (p.insertNew v).map f = (p.map f).insertNew (f v) :=
  insertColor_map f p _

theorem setRed_map (f : α → β) (t : RbRoot α) : t.setRed.map f = (t.map f).setRed := by
  cases t <;> rfl

theorem borrowRight_map (f : α → β) (c : Color) (t : RbRoot α) (v : α) (s : RbRoot α) :
    RbPath.borrowRight c (t.map f) (f v) (s.map f) = (RbPath.borrowRight c t v s).map
    (·.map f) := by
  rcases s with _ | ⟨_, _ | ⟨_ | _, _, _, _⟩, _, _ | ⟨_ | _, _, _, _⟩⟩ <;> rfl

theorem borrowLeft_map (f : α → β) (c : Color) (t : RbRoot α) (v : α) (s : RbRoot α) :
    RbPath.borrowLeft c (t.map f) (f v) (s.map f) = (RbPath.borrowLeft c t v s).map (·.map f) := by
  rcases s with _ | ⟨_, _ | ⟨_ | _, _, _, _⟩, _, _ | ⟨_ | _, _, _, _⟩⟩ <;> rfl

theorem eraseColor_map (f : α → β) (p : RbPath α) (t : RbRoot α) :
    (p.eraseColor t).map f = (p.map f).eraseColor (t.map f) := by
  induction p generalizing t with
  | root => exact setBlack_map f t
  | left c up v s ih =>
    by_cases hred : t.isRed = true
    · have hred' : (t.map f).isRed = true := (isRed_map f t).trans hred
      rw [RbPath.map, RbPath.eraseColor.eq_def, RbPath.eraseColor.eq_def]
      dsimp only
      rw [if_pos hred, if_pos hred', fill_map, setBlack_map]
      exact rfl
    · rcases s with _ | ⟨_ | _, ol, ov, or⟩
      all_goals simp only [RbPath.map, RbRoot.map, RbPath.eraseColor, isRed_map, hred]
      · exact ih (.node c t v nil)
      · rw [borrowRight_map]
        cases RbPath.borrowRight .red t v ol <;>
          simp [fill_map, setBlack_map, setRed_map, RbPath.map, RbRoot.map]
      · have hborrow := borrowRight_map f c t v (.node .black ol ov or)
        rw [RbRoot.map] at hborrow
        rw [hborrow]
        cases RbPath.borrowRight c t v (.node .black ol ov or) with
        | none => exact ih (.node c t v (RbRoot.setRed (.node .black ol ov or)))
        | some t' => simp [fill_map, setBlack_map]
  | right c s v up ih =>
    by_cases hred : t.isRed = true
    · have hred' : (t.map f).isRed = true := (isRed_map f t).trans hred
      rw [RbPath.map, RbPath.eraseColor.eq_def, RbPath.eraseColor.eq_def]
      dsimp only
      rw [if_pos hred, if_pos hred', fill_map, setBlack_map]
      exact rfl
    · rcases s with _ | ⟨_ | _, ol, ov, or⟩
      all_goals simp only [RbPath.map, RbRoot.map, RbPath.eraseColor, isRed_map, hred]
      · exact ih (.node c nil v t)
      · rw [borrowLeft_map]
        cases RbPath.borrowLeft .red t v or <;>
          simp [fill_map, setBlack_map, setRed_map, RbPath.map, RbRoot.map]
      · have hborrow := borrowLeft_map f c t v (.node .black ol ov or)
        rw [RbRoot.map] at hborrow
        rw [hborrow]
        cases RbPath.borrowLeft c t v (.node .black ol ov or) with
        | none => exact ih (.node c (RbRoot.setRed (.node .black ol ov or)) v t)
        | some t' => simp [fill_map, setBlack_map]

theorem splice_map (f : α → β) (c : Color) (p : RbPath α) (t : RbRoot α) :
    (RbPath.splice c p t).map f = RbPath.splice c (p.map f) (t.map f) := by
  cases c with
  | red => exact fill_map f p t
  | black => exact eraseColor_map f p t

theorem minVal_map (f : α → β) (l : RbRoot α) (v : α) :
    f (RbPath.minVal l v) = RbPath.minVal (l.map f) (f v) := by
  induction l generalizing v with
  | nil => rfl
  | node c l v' r ihl _ => exact ihl v'

theorem spliceMin_map (f : α → β) (c : Color) (l : RbRoot α) (v : α) (r : RbRoot α)
    (p : RbPath α) : (RbPath.spliceMin c l v r p).map f =
      RbPath.spliceMin c (l.map f) (f v) (r.map f) (p.map f) := by
  induction l generalizing c v r p with
  | nil => exact splice_map f c p r
  | node c' l v' r' ihl _ => exact ihl c' v' r' (.left c p v r)

/-- Neither does taking one out. -/
theorem erase_map (f : α → β) (x : Loc α) : x.erase.map f = (x.map f).erase := by
  obtain ⟨p, c, l, v, r⟩ := x
  cases l with
  | nil => exact splice_map f c p r
  | node lc ll lv lr =>
    cases r with
    | nil => exact splice_map f c p _
    | node rc rl rv rr =>
      refine (spliceMin_map f rc rl rv rr _).trans ?_
      rw [RbPath.map, minVal_map f]
      exact rfl

end Map

end RbTree
