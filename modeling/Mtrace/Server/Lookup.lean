import Mathlib.Data.List.Pairwise
import Mathlib.Order.CompletePartialOrder
import Mathlib.Order.Interval.Set.Disjoint
import Mtrace.Server.Linkmap

/-!
# The library of an address

`addr2libref` goes down the tree of a leader to the library whose text has an address.  The tree is
in the order of the text addresses, the greatest one first, however its libraries came and went.
-/

namespace Mtrace.Server

open RbTree

/-- The addresses of the text. -/
def Libref.text (l : Libref) : Set ℕ :=
  Set.Ico l.txtVaddr.toNat (l.txtVaddr.toNat + l.txtSize.toNat)

/-- Each text has an address, ends below the end of the address space, and has no address with
another one in common. -/
structure TextsApart (libs : List Library) : Prop where
  nonempty : ∀ lib ∈ libs, 0 < lib.libref.txtSize.toNat
  nowrap : ∀ lib ∈ libs, lib.libref.txtVaddr.toNat + lib.libref.txtSize.toNat < 2 ^ 64
  disjoint : libs.Pairwise fun x y => Disjoint x.libref.text y.libref.text

/-- The order of the tree. -/
def Descending (libs : List Library) : Prop :=
  libs.Pairwise fun x y => y.libref.txtVaddr < x.libref.txtVaddr

/-! ## Texts -/

section Texts

variable {libs libs' : List Library} {lib x y : Library} {l : Libref} {addr : UInt64}

theorem inText_iff (h : l.txtVaddr.toNat + l.txtSize.toNat < 2 ^ 64) :
    l.inText addr = true ↔ addr.toNat ∈ l.text := by
  unfold Libref.inText Libref.text
  rw [Bool.and_eq_true, decide_eq_true_iff, decide_eq_true_iff, UInt64.le_iff_toNat_le,
    UInt64.lt_iff_toNat_lt, UInt64.toNat_add, Nat.mod_eq_of_lt h, Set.mem_Ico]

/-- Of two texts that have nothing in common one is behind the other. -/
theorem disjoint_text (hx : 0 < x.libref.txtSize.toNat) (hy : 0 < y.libref.txtSize.toNat)
    (h : Disjoint x.libref.text y.libref.text) :
    x.libref.txtVaddr.toNat + x.libref.txtSize.toNat ≤ y.libref.txtVaddr.toNat ∨
      y.libref.txtVaddr.toNat + y.libref.txtSize.toNat ≤ x.libref.txtVaddr.toNat := by
  unfold Libref.text at h
  rw [Set.Ico_disjoint_Ico] at h
  omega

namespace TextsApart

theorem perm (h : TextsApart libs) (hperm : libs.Perm libs') : TextsApart libs' where
  nonempty lib hlib := h.nonempty lib (hperm.mem_iff.mpr hlib)
  nowrap lib hlib := h.nowrap lib (hperm.mem_iff.mpr hlib)
  disjoint := (hperm.pairwise_iff fun hxy => Disjoint.symm hxy).mp h.disjoint

theorem sublist (h : TextsApart libs) (hsub : libs'.Sublist libs) : TextsApart libs' where
  nonempty lib hlib := h.nonempty lib (hsub.subset hlib)
  nowrap lib hlib := h.nowrap lib (hsub.subset hlib)
  disjoint := h.disjoint.sublist hsub

/-- Another library begins at another place. -/
theorem vaddr_ne (h : TextsApart (lib :: libs)) (hx : x ∈ libs) :
    x.libref.txtVaddr ≠ lib.libref.txtVaddr := by
  intro heq
  have hlib := h.nonempty lib List.mem_cons_self
  have hpos := h.nonempty x (List.mem_cons_of_mem lib hx)
  have hdis := disjoint_text hlib hpos (List.rel_of_pairwise_cons h.disjoint hx)
  rw [heq] at hdis
  omega

/-- An address is in one text at most. -/
theorem text_inj (h : TextsApart libs) (hx : x ∈ libs) (hy : y ∈ libs) {a : ℕ}
    (hax : a ∈ x.libref.text)
    (hay : a ∈ y.libref.text) : x = y := by
  by_contra hne
  have hsymm : Std.Symm fun x y : Library => Disjoint x.libref.text y.libref.text :=
    ⟨fun _ _ hxy => hxy.symm⟩
  have hdis := h.disjoint.forall hx hy hne
  exact Set.disjoint_left.mp hdis hax hay

end TextsApart

/-! ## Searching -/

/-- The descent for an address goes by the order. -/
theorem monoCut_addrCut (h : TextsApart libs) (hd : Descending libs) (addr : UInt64) :
    MonoCut (addrCut addr) libs := by
  have hdis := h.disjoint.and hd
  refine hdis.imp_of_mem fun {x y} hx hy hxy => ?_
  obtain ⟨hxy, hlt⟩ := hxy
  have hord := disjoint_text (h.nonempty x hx) (h.nonempty y hy) hxy
  have hpos := h.nonempty x hx
  have hinx : x.libref.inText addr = true ↔ addr.toNat ∈ x.libref.text := inText_iff (h.nowrap x hx)
  have hiny : y.libref.inText addr = true ↔ addr.toNat ∈ y.libref.text := inText_iff (h.nowrap y hy)
  unfold Libref.text at hinx hiny
  rw [Set.mem_Ico] at hinx hiny
  rw [UInt64.lt_iff_toNat_lt] at hlt
  unfold addrCut
  simp only [hinx, hiny, UInt64.lt_iff_toNat_lt]
  constructor
  · intro hne
    split
    · decide
    split
    · exfalso
      apply hne
      rw [if_neg (by omega), if_pos (by omega)]
    · decide
  · split
    · exact fun hgt => by cases hgt
    split
    · exact fun hgt => by cases hgt
    · intro _
      rw [if_neg (by omega), if_neg (by omega)]

/-- So does the descent for a new library. -/
theorem monoCut_libCut (hd : Descending libs) (lib : Library) : MonoCut (libCut lib) libs := by
  refine hd.imp fun {x y} hlt => ?_
  rw [UInt64.lt_iff_toNat_lt] at hlt
  unfold libCut
  simp only [UInt64.lt_iff_toNat_lt]
  constructor
  · split
    · exact fun hne => absurd rfl hne
    · rw [if_neg (by omega)]
      decide
  · split
    · exact fun hgt => by cases hgt
    · rw [if_neg (by omega)]
      exact id

theorem libCut_ne_eq (lib this : Library) : libCut lib this ≠ .eq := by
  unfold libCut
  split <;> decide

/-- A search in an ordered tree finds the library of the address. -/
theorem addr2libref_eq_some {tree : RbRoot Library} (h : TextsApart tree.toList)
    (hd : Descending tree.toList) : addr2libref tree addr = some l ↔
      ∃ lib ∈ tree.toList, lib.libref = l ∧ addr.toNat ∈ l.text := by
  have hhit : ∀ lib ∈ tree.toList, addrCut addr lib = .eq ↔ addr.toNat ∈ lib.libref.text := by
    intro lib hlib
    rw [← inText_iff (h.nowrap lib hlib)]
    unfold addrCut
    split
    next hin => exact iff_of_true rfl hin
    next hout =>
      apply iff_of_false _ hout
      split <;> decide
  have hnone := find_eq_none_iff (monoCut_addrCut h hd addr)
  unfold addr2libref
  cases hfind : tree.find (addrCut addr) with
  | none =>
    apply iff_of_false
    · exact fun hsome => by cases hsome
    · rintro ⟨lib, hlib, rfl, ha⟩
      exact hnone.mp hfind lib hlib ((hhit lib hlib).mpr ha)
  | some x =>
    have hx := mem_of_find hfind
    have hax := (hhit x.val hx).mp (find_some hfind).2
    constructor
    · intro hsome
      cases hsome
      exact ⟨x.val, hx, rfl, hax⟩
    · rintro ⟨lib, hlib, rfl, ha⟩
      rw [h.text_inj hlib hx ha hax]
      rfl

theorem insertLib_descending {tree : RbRoot Library} (h : TextsApart (lib :: tree.toList))
    (hd : Descending tree.toList) : Descending (insertLib tree lib).toList := by
  have hgap := toList_of_find_none (find_none_of_ne fun this (_ : this ∈ tree.toList) =>
    libCut_ne_eq lib this)
  obtain ⟨hbefore, hafter⟩ := gap_cut (monoCut_libCut hd lib)
  have hmem : ∀ this, this ∈ (tree.gap (libCut lib)).before ∨ this ∈ (tree.gap (libCut lib)).after →
      this.libref.txtVaddr.toNat ≠ lib.libref.txtVaddr.toNat := by
    intro this hthis
    have hin : this ∈ tree.toList := by
      rw [hgap]
      exact List.mem_append.mpr hthis
    exact fun heq => h.vaddr_ne hin (UInt64.toNat_inj.mp heq)
  unfold Descending at hd ⊢
  unfold insertLib
  rw [toList_insertNew]
  rw [hgap, List.pairwise_append] at hd
  obtain ⟨hdb, hda, hdba⟩ := hd
  rw [List.pairwise_append, List.pairwise_cons]
  refine ⟨hdb, ⟨fun this hthis => ?_, hda⟩, fun this hthis other hother => ?_⟩
  · have hcut := hafter this hthis
    unfold libCut at hcut
    split at hcut
    · assumption
    · cases hcut
  · rcases List.mem_cons.mp hother with rfl | hother
    · have hcut := hbefore this hthis
      have hne := hmem this (.inl hthis)
      unfold libCut at hcut
      split at hcut
      · cases hcut
      · rw [UInt64.lt_iff_toNat_lt] at *
        omega
    · exact hdba this hthis other hother

end Texts

/-! ## Histories -/

/-- `library_add`, or `library_delete` of the library with this address. -/
inductive LibOp where
  | add (libref : Libref)
  | delete (node : ℕ)

/-- How many libraries were added, and those that were not deleted since. -/
def LibOp.change : ℕ × List Library → LibOp → ℕ × List Library
  | (n, libs), .add libref => (n + 1, libs ++ [⟨n, libref⟩])
  | (n, libs), .delete node => (n, libs.filter fun lib => lib.node ≠ node)

def changed (ops : List LibOp) : ℕ × List Library := ops.foldl LibOp.change (0, [])

/-- The libraries that are there after a history. -/
def present (ops : List LibOp) : List Library := (changed ops).2

/-- The texts are apart at any time, and what is deleted is there. -/
structure Orderly (ops : List LibOp) : Prop where
  apart : ∀ before, before <+: ops → TextsApart (present before)
  there : ∀ before node, before ++ [.delete node] <+: ops →
    ∃ lib ∈ present before, lib.node = node

theorem changed_append (ops : List LibOp) (op : LibOp) :
    changed (ops ++ [op]) = LibOp.change (changed ops) op := List.foldl_append

theorem Orderly.nil : Orderly [] where
  apart before hbefore := by
    rw [List.prefix_nil.mp hbefore]
    exact ⟨nofun, nofun, .nil⟩
  there before node hbefore := by
    cases (List.append_eq_nil_iff.mp (List.prefix_nil.mp hbefore)).2

/-- One operation more. -/
theorem Orderly.snoc {ops : List LibOp} {op : LibOp} (h : Orderly ops)
    (hapart : TextsApart (present (ops ++ [op])))
    (hthere : ∀ node, op = .delete node → ∃ lib ∈ present ops, lib.node = node) :
    Orderly (ops ++ [op]) where
  apart before hbefore := by
    rcases List.prefix_concat_iff.mp hbefore with rfl | hbefore
    · exact hapart
    · exact h.apart before hbefore
  there before node hbefore := by
    rcases List.prefix_concat_iff.mp hbefore with heq | hbefore
    · obtain ⟨rfl, hop⟩ := List.append_inj' heq rfl
      exact hthere node (List.singleton_inj.mp hop).symm
    · exact h.there before node hbefore

theorem Orderly.init {ops : List LibOp} {op : LibOp} (h : Orderly (ops ++ [op])) : Orderly ops where
  apart before hbefore := h.apart before (hbefore.trans (List.prefix_append ops [op]))
  there before node hbefore := h.there before node (hbefore.trans (List.prefix_append ops [op]))

/-! ## The libraries of a leader -/

namespace LoadState

/-- `library_delete` of a library of the leader. -/
def deleteLib (s : LoadState) (lib : Library) : Except String LoadState :=
  let libs := s.libs 0
  libraryDelete { s with
    libs := Function.update s.libs 0 { libs with list := libs.list.erase lib } } lib

/-- Before the first library. -/
def empty : LoadState := ⟨fun _ => ⟨[], .nil⟩, 0, .add, false, []⟩

/-- An operation on the libraries of the leader. -/
def libOp (s : LoadState) : LibOp → Except String LoadState
  | .add libref => s.libraryAdd 0 libref
  | .delete node =>
    match (s.libs 0).list.find? fun lib => lib.node == node with
    | some lib => s.deleteLib lib
    | none => .error "library_delete of a library that is gone"

section Sorted

variable {s s' : LoadState} {lib : Library} {libref : Libref}

/-- The node of a library of the list is in the tree, and goes from it. -/
theorem Shaped.deleteLib (h : s.Shaped) (hmem : lib ∈ (s.libs 0).list) :
    ∃ x, (s.libs 0).tree.locate (fun this => this.node == lib.node) .root = some x ∧
      s.deleteLib lib = .ok { s with
        libs := Function.update s.libs 0 ⟨(s.libs 0).list.erase lib, x.erase⟩ } ∧
      x.val = lib := by
  have hlib : lib ∈ (s.libs 0).tree.toList := h.tree.mem_iff.mpr hmem
  cases hloc : (s.libs 0).tree.locate (fun this => this.node == lib.node) .root with
  | none => exact absurd (locate_none hloc lib hlib) (by simp)
  | some x =>
    obtain ⟨hx, hperm⟩ := perm_of_locate hloc
    have hin : x.val ∈ (s.libs 0).list := (hperm.symm.trans h.tree).mem_iff.mp List.mem_cons_self
    have hval : x.val = lib := List.inj_on_of_nodup_map h.nodes hin hmem (beq_iff_eq.mp hx)
    refine ⟨x, rfl, ?_, hval⟩
    unfold LoadState.deleteLib libraryDelete
    dsimp only
    rw [Function.update_self]
    dsimp only
    rw [hloc]
    dsimp only
    rw [Function.update_idem]

/-- The tree is in order, and has the libraries of the list, which are apart. -/
structure Sorted (s : LoadState) : Prop where
  shaped : s.Shaped
  apart : TextsApart (s.libs 0).list
  descending : Descending (s.libs 0).tree.toList

theorem Sorted.setup (h : s.libs = fun _ => ⟨[], .nil⟩) : s.Sorted where
  shaped := by
    constructor <;> rw [h]
    · exact .nil
    · exact .nil
    · simp
    · simp
  apart := by
    constructor <;> simp [h]
  descending := by
    rw [h]
    exact .nil

theorem Sorted.add (h : s.Sorted) (hadd : s.libraryAdd 0 libref = .ok s')
    (hapart : TextsApart (s'.libs 0).list) : s'.Sorted := by
  rw [libraryAdd_leader] at hadd
  cases hadd
  refine ⟨h.shaped.addLib libref, hapart, ?_⟩
  rw [addLib_list] at hapart
  have hapart' : TextsApart (⟨s.next, libref⟩ :: (s.libs 0).tree.toList) :=
    hapart.perm ((List.perm_append_singleton _ _).trans (h.shaped.tree.symm.cons _))
  unfold LoadState.addLib
  dsimp only
  rw [Function.update_self]
  exact insertLib_descending hapart' h.descending

theorem Sorted.delete (h : s.Sorted) (hmem : lib ∈ (s.libs 0).list)
    (hdel : s.deleteLib lib = .ok s') : s'.Sorted := by
  obtain ⟨x, hloc, hok, hval⟩ := h.shaped.deleteLib hmem
  have hs' := Except.ok.inj (hok.symm.trans hdel)
  have hself : s'.libs 0 = ⟨(s.libs 0).list.erase lib, x.erase⟩ := by
    rw [← hs']
    exact Function.update_self 0 _ s.libs
  have hother : ∀ task, task ≠ 0 → s'.libs task = s.libs task := by
    intro task htask
    rw [← hs']
    exact Function.update_of_ne htask _ s.libs
  have hnext : s'.next = s.next := by rw [← hs']
  obtain ⟨-, hperm⟩ := perm_of_locate hloc
  rw [hval] at hperm
  have hrest : x.erase.toList.Perm ((s.libs 0).list.erase lib) :=
    (hperm.symm.trans (h.shaped.tree.trans (List.perm_cons_erase hmem))).cons_inv
  have hlist := toList_tree x
  rw [tree_of_locate hloc] at hlist
  have hsub : x.erase.toList.Sublist (s.libs 0).tree.toList := by
    rw [toList_erase, hlist]
    exact (List.sublist_cons_self _ _).append_left _
  have herase : ((s.libs 0).list.erase lib).Sublist (s.libs 0).list := List.erase_sublist
  constructor
  · constructor
    · rw [hself]
      exact hrest
    · rw [hself]
      exact h.shaped.nodes.sublist (herase.map _)
    · rw [hself, hnext]
      exact fun lib' hlib' => h.shaped.fresh lib' (herase.subset hlib')
    · intro task htask
      rw [hother task htask]
      exact h.shaped.others task htask
  · rw [hself]
    exact h.apart.sublist herase
  · rw [hself]
    exact h.descending.sublist hsub

/-- The code is as far as the history. -/
structure Follows (s : LoadState) (ops : List LibOp) : Prop where
  sorted : s.Sorted
  next : s.next = (changed ops).1
  list : (s.libs 0).list = present ops

theorem Follows.empty : empty.Follows [] := ⟨.setup rfl, rfl, rfl⟩

theorem Follows.add {ops : List LibOp} (h : s.Follows ops)
    (hapart : TextsApart (present (ops ++ [.add libref]))) :
    (s.addLib 0 libref).Follows (ops ++ [.add libref]) := by
  have hchanged : changed (ops ++ [.add libref]) =
      ((changed ops).1 + 1, present ops ++ [⟨(changed ops).1, libref⟩]) := changed_append ops _
  have hlist : ((s.addLib 0 libref).libs 0).list = present (ops ++ [.add libref]) := by
    rw [addLib_list, h.list, h.next]
    exact (congrArg Prod.snd hchanged).symm
  refine ⟨h.sorted.add rfl (hlist ▸ hapart), ?_, hlist⟩
  rw [hchanged, ← h.next]
  rfl

theorem Follows.delete {ops : List LibOp} (h : s.Follows ops) (hlib : lib ∈ present ops) :
    ∃ s', s.deleteLib lib = .ok s' ∧ s'.Follows (ops ++ [.delete lib.node]) := by
  have hmem : lib ∈ (s.libs 0).list := h.list ▸ hlib
  obtain ⟨x, -, hok, -⟩ := h.sorted.shaped.deleteLib hmem
  have hchanged : changed (ops ++ [.delete lib.node]) =
      ((changed ops).1, (present ops).filter fun x => x.node ≠ lib.node) := changed_append ops _
  refine ⟨_, hok, h.sorted.delete hmem hok, ?_, ?_⟩
  · rw [hchanged, ← h.next]
  · rw [present, hchanged, ← h.list, ← erase_eq_filter h.sorted.shaped.nodes hmem]
    exact congrArg Libs.list (Function.update_self 0 _ s.libs)

theorem Follows.libOp {ops : List LibOp} {op : LibOp} (h : s.Follows ops)
    (hops : Orderly (ops ++ [op])) : ∃ s', s.libOp op = .ok s' ∧ s'.Follows (ops ++ [op]) := by
  cases op with
  | add libref => exact ⟨_, rfl, h.add (hops.apart _ List.prefix_rfl)⟩
  | delete node =>
    obtain ⟨lib, hlib, rfl⟩ := hops.there ops node List.prefix_rfl
    have hfind : (s.libs 0).list.find? (fun x => x.node == lib.node) = some lib := by
      have hmem : lib ∈ (s.libs 0).list := h.list ▸ hlib
      obtain ⟨x, hx⟩ := Option.isSome_iff_exists.mp
        (List.find?_isSome (p := fun x => x.node == lib.node).mpr
          ⟨lib, hmem, beq_self_eq_true lib.node⟩)
      have hnode : x.node = lib.node := by simpa using List.find?_some hx
      rw [hx, List.inj_on_of_nodup_map h.sorted.shaped.nodes (List.mem_of_find?_eq_some hx) hmem
        hnode]
    obtain ⟨s', hok, hs'⟩ := h.delete hlib
    refine ⟨s', ?_, hs'⟩
    unfold LoadState.libOp
    dsimp only
    rw [hfind]
    exact hok

/-- No addition and no deletion of a history fails, and the code is as far as the history. -/
theorem run_libOp {ops : List LibOp} (hops : Orderly ops) :
    ∃ s, Machine.run libOp empty ops = .ok s ∧ s.Follows ops := by
  induction ops using List.reverseRecOn with
  | nil => exact ⟨empty, rfl, .empty⟩
  | append_singleton ops op ih =>
    obtain ⟨s, hrun, hs⟩ := ih hops.init
    obtain ⟨s', hop, hs'⟩ := hs.libOp hops
    exact ⟨s', Machine.run_append_of_ok hrun hop, hs'⟩

/-- The library that is found is the one whose text has the address. -/
theorem Follows.addr2libref_iff {ops : List LibOp} (h : s.Follows ops) (addr : UInt64)
    (l : Libref) :
    addr2libref (s.libs 0).tree addr = some l ↔
      ∃ lib ∈ present ops, lib.libref = l ∧ addr.toNat ∈ l.text := by
  have hsorted := h.sorted
  have hperm := hsorted.shaped.tree
  rw [addr2libref_eq_some (hsorted.apart.perm hperm.symm) hsorted.descending, ← h.list]
  exact exists_congr fun lib => and_congr_left fun _ => hperm.mem_iff

end Sorted

end LoadState

end Mtrace.Server
