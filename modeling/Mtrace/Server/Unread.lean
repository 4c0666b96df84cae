import Mtrace.Rings
import Mtrace.Server.Linkmap

/-!
# A link map that cannot be read

`linkmap_del` where reading an entry of the link map can fail, on the pointers of the lists: it
takes `libraries_list` apart into a list whose head is on its stack, moves the libraries back whose
entries it reads, and deletes those that are left over.  When a read fails it returns where it is.

`moveBack_spec`: what goes back and what stays behind is that of `moveMapped`.
-/

namespace Mtrace.Server

open RbTree

/-- The nodes of lists: the head in the task, the head on the stack, and the libraries. -/
inductive LibNode where
  | list
  | tmp
  | lib (node : ℕ)
  deriving DecidableEq, Repr

/-- The libraries of a leader in memory, numbered below `next`, with the addresses of their symbols,
and its breakpoints. -/
structure LibHeap where
  links : ListHeads LibNode
  libref : ℕ → Libref
  symList : ℕ → List UInt64
  tree : RbRoot Library
  traced : Traced
  next : ℕ

namespace LibHeap

/-- `container_of`. -/
def entry (s : LibHeap) : LibNode → Option Library
  | .lib node => some ⟨node, s.libref node⟩
  | _ => none

/-- The libraries that `list_for_each` comes to. -/
def members (s : LibHeap) (head : LibNode) : List Library :=
  (s.links.walk head (s.next + 1) (s.links.next head)).filterMap s.entry

/-- `library_delete`. -/
def libraryDelete (s : LibHeap) (lib : Library) : Except String LibHeap := do
  let traced ← (s.symList lib.node).foldlM (fun t addr =>
    match t.breakpointFind addr with
    | some bp => t.breakpointDelete bp
    | none => .ok t) s.traced
  let links := s.links.listDel (.lib lib.node)
  match s.tree.locate (fun this => this.node == lib.node) .root with
  | some x => .ok { s with traced, links, tree := x.erase }
  | none => .error "rb_erase of a node of another tree"

def libraryDeleteList (s : LibHeap) (head : LibNode) : Except String LibHeap :=
  (s.members head).foldlM libraryDelete s

/-- The loop of `linkmap_del`, and whether it came to the end of the link map. -/
def moveBack : List (Option LinkEntry) → LibHeap → LibHeap × Bool
  | [], s => (s, true)
  | none :: _, s => (s, false)
  | some e :: es, s =>
    match libraryFindByDyn (s.members .tmp) e.ld with
    | some lib => moveBack es { s with links := s.links.listMoveTail (.lib lib.node) .list }
    | none => moveBack es s

/-- The head on the stack gets all libraries and gives the first one back. -/
def takeApart (s : LibHeap) : LibHeap :=
  let links := s.links.init .tmp
  let links := links.listSpliceInit .list .tmp
  { s with links := links.listMove (links.next .tmp) .list }

/-- `linkmap_del`; an entry that cannot be read is `none`. -/
def linkmapDel (s : LibHeap) (map : List (Option LinkEntry)) : Except String LibHeap :=
  if map.isEmpty then .ok s
  else
    let r := moveBack map s.takeApart
    if r.2 then r.1.libraryDeleteList .tmp else .ok r.1

end LibHeap

/-! ## The two lists -/

def nodes (libs : List Library) : List LibNode := libs.map fun lib => .lib lib.node

/-- The list of the task holds `kept`, and the one of the stack `tmp`. -/
structure Lists (s : LibHeap) (kept tmp : List Library) : Prop where
  ring : s.links.Ring .list (nodes kept)
  ringTmp : s.links.Ring .tmp (nodes tmp)
  nodup : ((kept ++ tmp).map fun lib => lib.node).Nodup
  libref : ∀ lib ∈ kept ++ tmp, s.libref lib.node = lib.libref
  fresh : ∀ lib ∈ kept ++ tmp, lib.node < s.next

/-- Outside of `linkmap_del`. -/
structure Listed (s : LibHeap) (libs : List Library) : Prop where
  ring : s.links.Ring .list (nodes libs)
  libref : ∀ lib ∈ libs, s.libref lib.node = lib.libref
  fresh : ∀ lib ∈ libs, lib.node < s.next

section Lists

variable {s : LibHeap} {kept tmp libs : List Library} {lib first : Library} {head : LibNode}

theorem mem_nodes {node : ℕ} : LibNode.lib node ∈ nodes libs ↔ node ∈ libs.map fun lib =>
    lib.node := by
  unfold nodes
  simp

theorem head_not_mem_nodes (libs : List Library) :
    LibNode.list ∉ nodes libs ∧ LibNode.tmp ∉ nodes libs := by
  unfold nodes
  simp

theorem nodup_nodes (h : (nodes libs).Nodup) : (libs.map fun lib => lib.node).Nodup := by
  unfold nodes at h
  have hmap : (libs.map fun lib => LibNode.lib lib.node) =
      (libs.map fun lib => lib.node).map LibNode.lib := by rw [List.map_map]; rfl
  rw [hmap] at h
  exact h.of_map

theorem members_eq (hr : s.links.Ring head (nodes libs))
    (hlibref : ∀ lib ∈ libs, s.libref lib.node = lib.libref)
    (hfresh : ∀ lib ∈ libs, lib.node < s.next) : s.members head = libs := by
  have hnodup : (libs.map fun lib => lib.node).Nodup := nodup_nodes (List.nodup_cons.mp hr.nodup).2
  have hlen : (nodes libs).length < s.next + 1 := by
    have hsub : (libs.map fun lib => lib.node) ⊆ List.range s.next := by
      intro n hn
      obtain ⟨lib, hlib, rfl⟩ := List.mem_map.mp hn
      exact List.mem_range.mpr (hfresh lib hlib)
    have hle := (List.subperm_of_subset hnodup hsub).length_le
    rw [List.length_map, List.length_range] at hle
    unfold nodes
    rw [List.length_map]
    omega
  unfold LibHeap.members
  rw [hr.walk hlen]
  unfold nodes
  rw [List.filterMap_map]
  have hself :
      libs.filterMap (s.entry ∘ fun lib => LibNode.lib lib.node) = libs.filterMap some := by
    refine List.filterMap_congr fun lib hlib => ?_
    show some (⟨lib.node, s.libref lib.node⟩ : Library) = some lib
    rw [hlibref lib hlib]
  rw [hself, List.filterMap_some]

theorem Lists.disjoint (h : Lists s kept tmp) :
    List.Disjoint (LibNode.tmp :: nodes tmp) (LibNode.list :: nodes kept) := by
  have hdisj := (List.nodup_append.mp (List.map_append ▸ h.nodup)).2.2
  intro x hx hx'
  rw [List.mem_cons] at hx hx'
  cases x with
  | list =>
    rcases hx with hx | hx
    · cases hx
    · exact (head_not_mem_nodes tmp).1 hx
  | tmp =>
    rcases hx' with hx' | hx'
    · cases hx'
    · exact (head_not_mem_nodes kept).2 hx'
  | lib node =>
    have hk := mem_nodes.mp (hx'.resolve_left (by simp))
    have ht := mem_nodes.mp (hx.resolve_left (by simp))
    exact hdisj node hk node ht rfl

theorem Lists.members_tmp (h : Lists s kept tmp) : s.members .tmp = tmp :=
  members_eq h.ringTmp (fun lib hlib => h.libref lib (List.mem_append_right _ hlib))
    fun lib hlib => h.fresh lib (List.mem_append_right _ hlib)

theorem Lists.members_list (h : Lists s kept tmp) : s.members .list = kept :=
  members_eq h.ring (fun lib hlib => h.libref lib (List.mem_append_left _ hlib))
    fun lib hlib => h.fresh lib (List.mem_append_left _ hlib)

/-- A library goes back to the end of the list. -/
theorem Lists.moveTail (h : Lists s kept tmp) (hlib : lib ∈ tmp) :
    Lists { s with links := s.links.listMoveTail (.lib lib.node) .list } (kept ++ [lib])
      (tmp.erase lib) := by
  obtain ⟨ys, zs, rfl⟩ := List.append_of_mem hlib
  have hnodup : (ys ++ lib :: zs).Nodup :=
    (List.nodup_append.mp (List.map_append ▸ h.nodup)).2.1.of_map
  have hys : lib ∉ ys := fun hmem =>
    (List.nodup_append.mp hnodup).2.2 lib hmem lib List.mem_cons_self rfl
  have herase : (ys ++ lib :: zs).erase lib = ys ++ zs := by
    rw [List.erase_append_right _ hys, List.erase_cons_head]
  have hperm : ((kept ++ [lib]) ++ (ys ++ zs)).Perm (kept ++ (ys ++ lib :: zs)) := by
    rw [List.append_assoc]
    have hmiddle : (lib :: (ys ++ zs)).Perm (ys ++ lib :: zs) := List.perm_middle.symm
    exact hmiddle.append_left kept
  have htmp := h.ringTmp
  have hsplit : nodes (ys ++ lib :: zs) = nodes ys ++ LibNode.lib lib.node :: nodes zs := by
    unfold nodes
    rw [List.map_append, List.map_cons]
  rw [hsplit] at htmp
  have hdisj := h.disjoint
  rw [hsplit] at hdisj
  obtain ⟨htmp', hlist'⟩ := ListHeads.ring_listMoveTail htmp h.ring hdisj
  rw [herase]
  refine ⟨?_, ?_, ?_, ?_, ?_⟩
  · unfold nodes at hlist' ⊢
    rw [List.map_append]
    exact hlist'
  · unfold nodes at htmp' ⊢
    rw [List.map_append]
    exact htmp'
  · exact (hperm.map _).nodup_iff.mpr h.nodup
  · exact fun l hl => h.libref l (hperm.mem_iff.mp hl)
  · exact fun l hl => h.fresh l (hperm.mem_iff.mp hl)

/-- The first library is back, and the others are on the stack. -/
theorem Listed.takeApart (h : Listed s (first :: libs)) : Lists s.takeApart [first] libs := by
  have hinit : (s.links.init .tmp).Ring .list (nodes (first :: libs)) := by
    have hnot : LibNode.tmp ∉ LibNode.list :: nodes (first :: libs) := by
      rw [List.mem_cons, not_or]
      exact ⟨by simp, (head_not_mem_nodes _).2⟩
    exact h.ring.join hnot hnot
  have htmp : (s.links.init .tmp).Ring .tmp [] := ListHeads.ring_init _ _
  have hdisj : List.Disjoint (LibNode.list :: nodes (first :: libs)) [LibNode.tmp] := by
    intro x hx hx'
    rw [List.mem_singleton] at hx'
    rw [hx', List.mem_cons] at hx
    exact hx.elim (by simp) (head_not_mem_nodes _).2
  obtain ⟨hlist, hall⟩ := ListHeads.ring_listSpliceInit hinit htmp hdisj
  rw [List.append_nil] at hall
  have hnext := hall.next_head (n := .lib first.node) rfl
  have hdisj' : List.Disjoint (LibNode.tmp :: nodes (first :: libs)) [LibNode.list] := by
    intro x hx hx'
    rw [List.mem_singleton] at hx'
    rw [hx', List.mem_cons] at hx
    exact hx.elim (by simp) (head_not_mem_nodes _).1
  have hfirst : ((s.links.init .tmp).listSpliceInit .list .tmp).Ring .tmp
      ([] ++ .lib first.node :: nodes libs) := hall
  obtain ⟨htmp', hlist'⟩ := ListHeads.ring_listMove hfirst hlist hdisj'
  have hlinks : s.takeApart.links = ((s.links.init .tmp).listSpliceInit .list .tmp).listMove
      (.lib first.node) .list := by
    unfold LibHeap.takeApart
    dsimp only
    rw [hnext]
  refine ⟨hlinks ▸ hlist', hlinks ▸ htmp', ?_, h.libref, h.fresh⟩
  exact nodup_nodes (List.nodup_cons.mp h.ring.nodup).2

/-- The loop, up to an entry that it does not read. -/
theorem moveBack_spec (es : List LinkEntry) (rest : List (Option LinkEntry))
    (h : Lists s kept tmp) :
    ∃ links, LibHeap.moveBack (es.map some ++ rest) s = LibHeap.moveBack rest { s with links } ∧
      Lists { s with links } (kept ++ (moveMapped es tmp).1) (moveMapped es tmp).2 := by
  induction es generalizing s kept tmp with
  | nil =>
    refine ⟨s.links, rfl, ?_⟩
    unfold moveMapped
    rw [List.append_nil]
    exact h
  | cons e es ih =>
    rw [List.map_cons, List.cons_append, LibHeap.moveBack, h.members_tmp]
    unfold moveMapped
    cases hfind : libraryFindByDyn tmp e.ld with
    | none => exact ih h
    | some lib =>
      obtain ⟨links, heq, hlists⟩ := ih (h.moveTail (libraryFindByDyn_some hfind).1)
      refine ⟨links, heq, ?_⟩
      rw [List.append_assoc] at hlists
      exact hlists

/-- Nothing stays behind exactly when the entries are enough for the libraries. -/
theorem moveMapped_eq_nil_iff (es : List LinkEntry) (tmp : List Library) :
    (moveMapped es tmp).2 = [] ↔ (dyns tmp).Subperm (es.map fun e => e.ld) := by
  induction es generalizing tmp with
  | nil =>
    show tmp = [] ↔ _
    rw [List.map_nil, List.subperm_nil]
    unfold dyns
    rw [List.map_eq_nil_iff]
  | cons e es ih =>
    unfold moveMapped
    cases hfind : libraryFindByDyn tmp e.ld with
    | none =>
      have habsent := libraryFindByDyn_eq_none.mp hfind
      refine (ih tmp).trans ?_
      rw [List.map_cons, List.subperm_ext_iff, List.subperm_ext_iff]
      refine forall₂_congr fun d hd => ?_
      have hne : e.ld ≠ d := fun heq => habsent (heq ▸ hd)
      rw [List.count_cons_of_ne hne]
    | some lib =>
      obtain ⟨hlib, hdyn⟩ := libraryFindByDyn_some hfind
      refine (ih (tmp.erase lib)).trans ?_
      have hperm : (dyns tmp).Perm (e.ld :: dyns (tmp.erase lib)) := by
        have hp := (List.perm_cons_erase hlib).map fun lib => lib.libref.dyn
        rw [List.map_cons, hdyn] at hp
        exact hp
      rw [List.map_cons, hperm.subperm_right.trans (List.subperm_cons e.ld)]

theorem moveMapped_perm (es : List LinkEntry) (tmp : List Library) :
    ((moveMapped es tmp).1 ++ (moveMapped es tmp).2).Perm tmp := by
  induction es generalizing tmp with
  | nil => exact .refl tmp
  | cons e es ih =>
    unfold moveMapped
    cases hfind : libraryFindByDyn tmp e.ld with
    | none => exact ih tmp
    | some lib =>
      have hlib := (libraryFindByDyn_some hfind).1
      exact ((ih (tmp.erase lib)).cons lib).trans (List.perm_cons_erase hlib).symm

end Lists

/-! ## What is left of the libraries -/

/-- The libraries, the tree and the breakpoints of a task are as before, and no node of its list is
linked to the stack. -/
structure Intact (s s' : LibHeap) : Prop where
  libraries : ∀ lib, lib ∈ s'.members .list ↔ lib ∈ s.members .list
  tree : s'.tree = s.tree
  breakpoints : s'.traced = s.traced
  unlinked : ∀ x ∈ LibNode.list :: nodes (s.members .list),
    s'.links.next x ≠ .tmp ∧ s'.links.prev x ≠ .tmp

/-- When the link map cannot be read to its end, the libraries are as before exactly when the
entries that were read are enough for all libraries behind the first. -/
theorem linkmapDel_intact_iff (s : LibHeap) (first : Library) (rest : List Library)
    (hs : Listed s (first :: rest)) (before : List LinkEntry) (after : List (Option LinkEntry)) :
    ∃ s', s.linkmapDel (before.map some ++ none :: after) = .ok s' ∧
      (Intact s s' ↔ (dyns rest).Subperm (before.map fun e => e.ld)) := by
  obtain ⟨links, hloop, hlists⟩ := moveBack_spec before (none :: after) hs.takeApart
  rw [List.singleton_append] at hlists
  have hmembers : s.members .list = first :: rest := members_eq hs.ring hs.libref hs.fresh
  have hmembers' := hlists.members_list
  have hperm := moveMapped_perm before rest
  refine ⟨{ s.takeApart with links }, ?_, ?_⟩
  · unfold LibHeap.linkmapDel
    rw [if_neg (by simp), hloop]
    rfl
  · rw [← moveMapped_eq_nil_iff]
    constructor
    · intro hin
      rw [List.eq_nil_iff_forall_not_mem]
      intro lib hlib
      -- a library on the stack is not in the list
      have hrest : lib ∈ s.members .list := by
        rw [hmembers]
        exact List.mem_cons_of_mem _ (hperm.mem_iff.mp (List.mem_append_right _ hlib))
      have hkept := (hin.libraries lib).mpr hrest
      rw [hmembers'] at hkept
      exact (List.nodup_append.mp (List.map_append ▸ hlists.nodup)).2.2 lib.node
        (List.mem_map_of_mem hkept) lib.node (List.mem_map_of_mem hlib) rfl
    · intro hnil
      rw [hnil, List.append_nil] at hperm
      have hsame : (first :: (moveMapped before rest).1).Perm (first :: rest) := hperm.cons first
      refine ⟨fun lib => ?_, rfl, rfl, fun x hx => ?_⟩
      · rw [hmembers', hmembers]
        exact hsame.mem_iff
      · have hring := hlists.ring
        have hx' : x ∈ LibNode.list :: nodes (first :: (moveMapped before rest).1) := by
          rw [hmembers] at hx
          exact ((hsame.map fun lib => LibNode.lib lib.node).cons _).mem_iff.mpr hx
        obtain ⟨hn, hp⟩ := hring.mem_neighbours hx'
        have hnot : ∀ y ∈ LibNode.list :: nodes (first :: (moveMapped before rest).1),
            y ≠ .tmp := by
          rintro y hy rfl
          rw [List.mem_cons] at hy
          exact hy.elim (by simp) (head_not_mem_nodes _).2
        exact ⟨hnot _ hn, hnot _ hp⟩

/-- The program and the C library. -/
def twoLibraries : LibHeap where
  links := ((ListHeads.init ⟨id, id⟩ LibNode.list).listAddTail (.lib 0) .list).listAddTail
    (.lib 1) .list
  libref := fun node => if node = 0 then fileAt 0x1000 .main else fileAt 0x3000 .lib
  symList := fun _ => []
  tree := insertLib (insertLib .nil ⟨0, fileAt 0x1000 .main⟩) ⟨1, fileAt 0x3000 .lib⟩
  traced := .start (fun _ => 0) 0
  next := 2

theorem listed_twoLibraries :
    Listed twoLibraries [⟨0, fileAt 0x1000 .main⟩, ⟨1, fileAt 0x3000 .lib⟩] where
  ring := by
    have hone := (ListHeads.ring_init ⟨id, id⟩ LibNode.list).listAddTail (e := .lib 0) (by decide)
    exact hone.listAddTail (e := .lib 1) (by decide)
  libref := by decide
  fresh := by decide

/-- The second entry of the link map cannot be read. -/
theorem linkmapDel_loses : ¬ ∀ (s : LibHeap) (first : Library) (rest : List Library)
    (_ : Listed s (first :: rest)) (before : List LinkEntry) (after : List (Option LinkEntry)),
    ∃ s', s.linkmapDel (before.map some ++ none :: after) = .ok s' ∧ Intact s s' := by
  intro hall
  obtain ⟨s', hrun, hin⟩ := hall twoLibraries _ _ listed_twoLibraries
    [⟨some "", 0x1000, fileAt 0x1000 .main⟩] []
  cases hrun
  exact absurd ((hin.libraries ⟨1, fileAt 0x3000 .lib⟩).mpr (by decide)) (by decide)

theorem linkmapDel_intact_two : ∃ s', twoLibraries.linkmapDel
      [some ⟨some "", 0x1000, fileAt 0x1000 .main⟩,
        some ⟨some "libc.so.6", 0x3000, fileAt 0x3000 .lib⟩,
        none] = .ok s' ∧ Intact twoLibraries s' := by
  obtain ⟨s', hrun, hiff⟩ := linkmapDel_intact_iff twoLibraries _ _ listed_twoLibraries
    [⟨some "", 0x1000, fileAt 0x1000 .main⟩, ⟨some "libc.so.6", 0x3000, fileAt 0x3000 .lib⟩] []
  exact ⟨s', hrun, hiff.mpr (by decide)⟩

end Mtrace.Server
