import Mathlib.Data.List.Nodup
import Mathlib.Data.List.Perm.Basic
import Mtrace.Machine
import Mtrace.Server.Breakpoint
import Mtrace.Server.Library

/-!
# Libraries that come and go

The dynamic loader announces in `r_debug` that it is going to add or delete libraries, and then that
its link map is consistent again; each time it calls a function on which the server has a
breakpoint.  Whichever thread gets there, the libraries of the process are those of its leader.
Reading the memory of the process and the ELF files succeeds here.
-/

namespace Mtrace.Server

open RbTree

/-- `RT_CONSISTENT`, `RT_ADD` and `RT_DELETE`. -/
inductive RtState where
  | consistent
  | add
  | delete
  deriving DecidableEq, Repr

/-- `struct link_map`; `file` is what `elf_read_library` makes of the file. -/
structure LinkEntry where
  name : Option String
  ld : UInt64
  file : Libref
  deriving DecidableEq, Repr

/-- `struct r_debug`. -/
structure RDebug where
  state : RtState
  map : List LinkEntry
  deriving DecidableEq, Repr

/-- `libraries_list` and `libraries_tree` of a task. -/
structure Libs where
  list : List Library
  tree : RbRoot Library

/-- The tasks of a process, of which the leader is `0`, with `debug_state` of the leader and whether
`debug_addr` is set.  The libraries are numbered from `next` on, and `seen` is the link map when it
was last found to be consistent. -/
structure LoadState where
  libs : ℕ → Libs
  next : ℕ
  debugState : RtState
  initialised : Bool
  seen : List LinkEntry

/-- Getting to the entry point, and the breakpoint in the loader, by a task. -/
inductive LoadEvent where
  | init (task : ℕ) (rdbg : RDebug)
  | hit (task : ℕ) (rdbg : RDebug)

/-- The names that `linkmap_add` passes over: the program itself and the code of the kernel. -/
def unlistedNames : List String :=
  ["", "linux-vdso.so.1", "linux-gate.so.1", "linux-vdso32.so.1", "linux-vdso64.so.1"]

def LinkEntry.named (e : LinkEntry) : Bool := e.name.any fun name => name ∉ unlistedNames

def libraryFindByDyn (list : List Library) (dyn : UInt64) : Option Library :=
  list.find? fun lib => lib.libref.dyn == dyn

/-- The loop of `linkmap_del`: the libraries of the link map, in its order, and those that are left
over. -/
def moveMapped : List LinkEntry → List Library → List Library × List Library
  | [], tmp => ([], tmp)
  | e :: es, tmp =>
    match libraryFindByDyn tmp e.ld with
    | some lib =>
      let r := moveMapped es (tmp.erase lib)
      (lib :: r.1, r.2)
    | none => moveMapped es tmp

namespace LoadState

/-- `_library_add` to a task. -/
def addLib (s : LoadState) (task : ℕ) (libref : Libref) : LoadState :=
  let lib : Library := ⟨s.next, libref⟩
  let libs := s.libs task
  { s with
    next := s.next + 1
    libs := Function.update s.libs task ⟨libs.list ++ [lib], insertLib libs.tree lib⟩ }

def libraryAdd (s : LoadState) (task : ℕ) (libref : Libref) : Except String LoadState := do
  check (task == 0) "leader->leader == leader"
  return s.addLib task libref

/-- `library_delete` of a library that is in no list of a task any more. -/
def libraryDelete (s : LoadState) (lib : Library) : Except String LoadState :=
  let libs := s.libs 0
  match libs.tree.locate (fun this => this.node == lib.node) .root with
  | some x => .ok { s with libs := Function.update s.libs 0 { libs with tree := x.erase } }
  | none => .error "rb_erase of a node of another tree"

/-- The body of the loop of `linkmap_add`. -/
def addEntry (task : ℕ) (s : LoadState) (e : LinkEntry) : Except String LoadState :=
  match e.name with
  | none => .ok s
  | some name =>
    if (libraryFindByDyn (s.libs task).list e.ld).isSome then .ok s
    else if name ∈ unlistedNames then .ok s
    else s.libraryAdd task e.file

def linkmapAdd (s : LoadState) (task : ℕ) (rdbg : RDebug) : Except String LoadState :=
  rdbg.map.foldlM (addEntry task) s

/-- `linkmap_del`, which reads the first entry of the list whether there is one or not. -/
def linkmapDel (s : LoadState) (task : ℕ) (rdbg : RDebug) : Except String LoadState :=
  if rdbg.map.isEmpty then .ok s
  else match (s.libs task).list with
    | [] => .error "list_move of the head of a list"
    | first :: tmp =>
      let r := moveMapped rdbg.map tmp
      let libs := Function.update s.libs task { s.libs task with list := first :: r.1 }
      r.2.foldlM libraryDelete { s with libs }

def rdebugBpOnHit (s : LoadState) (task : ℕ) (rdbg : RDebug) : Except String LoadState :=
  match rdbg.state with
  | .consistent => do
    let s ← match s.debugState with
      | .add => s.linkmapAdd task rdbg
      | .delete => s.linkmapDel task rdbg
      | .consistent => .ok s
    return { s with debugState := .consistent, seen := rdbg.map }
  | state => .ok { s with debugState := state }

def linkmapInit (s : LoadState) (task : ℕ) (rdbg : RDebug) : Except String LoadState :=
  if s.initialised then .ok s
  else match rdbg.state with
    | .consistent => do
      let s ← s.linkmapAdd task rdbg
      return { s with initialised := true, seen := rdbg.map }
    | _ => .ok { s with initialised := true }

def step (s : LoadState) : LoadEvent → Except String LoadState
  | .init task rdbg => s.linkmapInit task rdbg
  | .hit task rdbg => s.rdebugBpOnHit task rdbg

/-- The process when its binary and its loader were read. -/
def start (main loader : Libref) : LoadState :=
  let none : LoadState := ⟨fun _ => ⟨[], .nil⟩, 0, .add, false, []⟩
  (none.addLib 0 main).addLib 0 loader

end LoadState

/-- A link map: no two entries share a dynamic section, a file has its own, and the loader is one of
the entries. -/
structure LinkMap (loader : Libref) (map : List LinkEntry) : Prop where
  distinct : (map.map fun e => e.ld).Nodup
  file : ∀ e ∈ map, e.named = true → e.file.dyn = e.ld
  loader : ∃ e ∈ map, e.named = true ∧ e.ld = loader.dyn

/-- What the loader does between two consistent link maps is what it has announced. -/
def LoadState.Announced (loader : Libref) (s : LoadState) : LoadEvent → Prop
  | .init _ rdbg => s.initialised = false ∧ (rdbg.state = .consistent → LinkMap loader rdbg.map)
  | .hit _ rdbg => s.initialised = true ∧ (rdbg.state = .consistent → LinkMap loader rdbg.map ∧
      match s.debugState with
      | .add => ∀ e ∈ s.seen, e ∈ rdbg.map
      | .delete => ∀ e ∈ rdbg.map, e ∈ s.seen
      | .consistent => rdbg.map = s.seen)

/-- The leader finds the link map consistent after a change. -/
def LoadState.ByLeader (s : LoadState) : LoadEvent → Prop
  | .init task rdbg => rdbg.state = .consistent → task = 0
  | .hit task rdbg => rdbg.state = .consistent → s.debugState ≠ .consistent → task = 0

/-- The libraries there are to be: the binary, the loader and what else is in the link map under a
name. -/
def tracked (main loader : Libref) (map : List LinkEntry) : List Libref :=
  main :: loader :: (map.filter fun e =>
    decide (e.named = true ∧ e.ld ≠ main.dyn ∧ e.ld ≠ loader.dyn)).map fun e => e.file

/-! ## Lists of libraries -/

section Lists

variable {list tmp : List Library} {dyn : UInt64} {lib : Library} {map : List LinkEntry}

/-- The dynamic sections of libraries. -/
abbrev dyns (list : List Library) : List UInt64 := list.map fun lib => lib.libref.dyn

theorem libraryFindByDyn_eq_none : libraryFindByDyn list dyn = none ↔ dyn ∉ dyns list := by
  unfold libraryFindByDyn dyns
  rw [List.find?_eq_none, List.mem_map]
  constructor
  · rintro h ⟨lib, hlib, hdyn⟩
    exact h lib hlib (beq_iff_eq.mpr hdyn)
  · exact fun h lib hlib hdyn => h ⟨lib, hlib, beq_iff_eq.mp hdyn⟩

theorem libraryFindByDyn_isSome :
    (libraryFindByDyn list dyn).isSome = true ↔ dyn ∈ dyns list := by
  rw [← not_iff_not, ← libraryFindByDyn_eq_none, Bool.not_eq_true, Option.isSome_eq_false_iff,
    Option.isNone_iff_eq_none]

theorem libraryFindByDyn_some (h : libraryFindByDyn list dyn = some lib) :
    lib ∈ list ∧ lib.libref.dyn = dyn := by
  unfold libraryFindByDyn at h
  exact ⟨List.mem_of_find?_eq_some h, by simpa using List.find?_some h⟩

/-- Where a key tells the libraries apart, taking one out leaves those with another key. -/
theorem erase_eq_filter {κ : Type} [DecidableEq κ] {key : Library → κ}
    (hnd : (list.map key).Nodup) (hlib : lib ∈ list) :
    list.erase lib = list.filter fun this => decide (key this ≠ key lib) := by
  rw [(List.Nodup.of_map _ hnd).erase_eq_filter]
  refine List.filter_congr fun this hthis => ?_
  rw [Bool.eq_iff_iff, bne_iff_ne, decide_eq_true_iff]
  exact not_congr ⟨fun h => by rw [h], fun h => List.inj_on_of_nodup_map hnd hthis hlib h⟩

/-- What moves is in the link map, and what is left is not. -/
theorem moveMapped_spec (map : List LinkEntry) (hnd : (dyns tmp).Nodup) :
    (moveMapped map tmp).1.Perm
        (tmp.filter fun lib => decide (lib.libref.dyn ∈ map.map fun e => e.ld)) ∧
      (moveMapped map tmp).2 =
        tmp.filter fun lib => decide (lib.libref.dyn ∉ map.map fun e => e.ld) := by
  induction map generalizing tmp with
  | nil => exact ⟨by simp [moveMapped], by simp [moveMapped]⟩
  | cons e es ih =>
    unfold moveMapped
    cases hfind : libraryFindByDyn tmp e.ld with
    | none =>
      have habsent : ∀ lib ∈ tmp, lib.libref.dyn ≠ e.ld := fun lib hlib heq =>
        libraryFindByDyn_eq_none.mp hfind (heq ▸ List.mem_map_of_mem hlib)
      obtain ⟨hmoved, hleft⟩ := ih hnd
      refine ⟨hmoved.trans (List.Perm.of_eq ?_), hleft.trans ?_⟩
      · refine List.filter_congr fun lib hlib => ?_
        simp only [List.map_cons, List.mem_cons, habsent lib hlib, false_or]
      · refine List.filter_congr fun lib hlib => ?_
        simp only [List.map_cons, List.mem_cons, habsent lib hlib, false_or]
    | some found =>
      obtain ⟨hmem, hdyn⟩ := libraryFindByDyn_some hfind
      have hsub : (tmp.erase found).Sublist tmp := List.erase_sublist
      obtain ⟨hmoved, hleft⟩ := ih (hnd.sublist (hsub.map _))
      have hother : ∀ lib ∈ tmp.erase found, lib.libref.dyn ≠ e.ld := fun lib hlib => by
        rw [erase_eq_filter hnd hmem, List.mem_filter, decide_eq_true_iff, hdyn] at hlib
        exact hlib.2
      constructor
      · have hperm := (List.perm_cons_erase hmem).filter
          fun lib => decide (lib.libref.dyn ∈ (e :: es).map fun e => e.ld)
        rw [List.filter_cons_of_pos (by simp [hdyn])] at hperm
        refine List.Perm.trans (List.Perm.cons found (hmoved.trans (List.Perm.of_eq ?_))) hperm.symm
        refine List.filter_congr fun lib hlib => ?_
        simp only [List.map_cons, List.mem_cons, hother lib hlib, false_or]
      · refine hleft.trans ?_
        rw [erase_eq_filter hnd hmem, List.filter_filter]
        refine List.filter_congr fun lib _ => ?_
        rw [hdyn, List.map_cons, Bool.eq_iff_iff, Bool.and_eq_true, decide_eq_true_iff,
          decide_eq_true_iff, decide_eq_true_iff, List.mem_cons, not_or]
        exact and_comm

end Lists

/-! ## Adding and deleting -/

theorem insertLib_perm (tree : RbRoot Library) (lib : Library) :
    (insertLib tree lib).toList.Perm (lib :: tree.toList) := by
  have hcut : ∀ this ∈ tree.toList, libCut lib this ≠ .eq := by
    intro this _
    unfold libCut
    split <;> exact fun h => by cases h
  unfold insertLib
  rw [toList_insertNew, RbTree.toList_of_find_none (RbTree.find_none_of_ne hcut)]
  exact List.perm_middle

namespace LoadState

/-- The tree has the libraries of the list, which are all different, and only the leader has any. -/
structure Shaped (s : LoadState) : Prop where
  tree : (s.libs 0).tree.toList.Perm (s.libs 0).list
  nodes : ((s.libs 0).list.map fun lib => lib.node).Nodup
  fresh : ∀ lib ∈ (s.libs 0).list, lib.node < s.next
  others : ∀ task, task ≠ 0 → (s.libs task).list = []

section Steps

variable {s : LoadState} {map : List LinkEntry} {task : ℕ}

theorem addLib_list (s : LoadState) (libref : Libref) :
    ((s.addLib 0 libref).libs 0).list = (s.libs 0).list ++ [⟨s.next, libref⟩] := by
  unfold addLib
  dsimp only
  rw [Function.update_self]

theorem Shaped.addLib (h : s.Shaped) (libref : Libref) : (s.addLib 0 libref).Shaped where
  tree := by
    unfold LoadState.addLib
    dsimp only
    rw [Function.update_self]
    exact (insertLib_perm _ _).trans ((h.tree.cons _).trans (List.perm_append_singleton _ _).symm)
  nodes := by
    rw [addLib_list, List.map_append, List.nodup_append]
    refine ⟨h.nodes, List.nodup_singleton _, fun a ha b hb heq => ?_⟩
    obtain ⟨lib, hlib, rfl⟩ := List.mem_map.mp ha
    have hlt := h.fresh lib hlib
    rw [heq, List.mem_singleton.mp hb] at hlt
    exact lt_irrefl _ hlt
  fresh := fun lib hlib => by
    rw [addLib_list, List.mem_append, List.mem_singleton] at hlib
    rcases hlib with hlib | rfl
    · exact (h.fresh lib hlib).trans (Nat.lt_succ_self _)
    · exact Nat.lt_succ_self _
  others := fun i hi => by
    unfold LoadState.addLib
    dsimp only
    rw [Function.update_of_ne hi]
    exact h.others i hi

/-- One entry: it is added if it has a name and the task does not have it. -/
theorem addEntry_eq (task : ℕ) (s : LoadState) (e : LinkEntry) : addEntry task s e =
    if e.named = true ∧ e.ld ∉ dyns (s.libs task).list then s.libraryAdd task e.file
    else .ok s := by
  unfold addEntry LinkEntry.named
  cases e.name with
  | none => exact (if_neg fun h => absurd h.1 Bool.false_ne_true).symm
  | some name =>
    dsimp only [Option.any_some]
    by_cases hfind : (libraryFindByDyn (s.libs task).list e.ld).isSome = true
    · rw [if_pos hfind, if_neg fun h => h.2 (libraryFindByDyn_isSome.mp hfind)]
    · have hnew : e.ld ∉ dyns (s.libs task).list := fun h => hfind (libraryFindByDyn_isSome.mpr h)
      rw [if_neg hfind]
      by_cases hname : name ∈ unlistedNames
      · rw [if_pos hname, if_neg (by exact fun h => of_decide_eq_true h.1 hname)]
      · rw [if_neg hname, if_pos ⟨decide_eq_true hname, hnew⟩]

theorem libraryAdd_leader (s : LoadState) (libref : Libref) :
    s.libraryAdd 0 libref = .ok (s.addLib 0 libref) := rfl

theorem libraryAdd_other (s : LoadState) (ht : task ≠ 0) (libref : Libref) :
    s.libraryAdd task libref = .error "leader->leader == leader" := by
  unfold libraryAdd check
  rw [beq_false_of_ne ht]
  rfl

/-- The leader adds what is in the link map under a name and is not in its list. -/
theorem linkmapAdd_leader (h : s.Shaped) (hd : (map.map fun e => e.ld).Nodup)
    (hf : ∀ e ∈ map, e.named = true → e.file.dyn = e.ld) :
    ∃ s' added, map.foldlM (addEntry 0) s = .ok s' ∧ s'.Shaped ∧ s'.initialised = s.initialised ∧
      (s'.libs 0).list = (s.libs 0).list ++ added ∧
      added.map (fun lib => lib.libref) = (map.filter fun e =>
        decide (e.named = true ∧ e.ld ∉ dyns (s.libs 0).list)).map fun e => e.file := by
  induction map generalizing s with
  | nil => exact ⟨s, [], rfl, h, rfl, (List.append_nil _).symm, rfl⟩
  | cons e es ih =>
    obtain ⟨hnot, hd⟩ := List.nodup_cons.mp hd
    have hf' := fun e' he' => hf e' (List.mem_cons_of_mem e he')
    rw [List.foldlM_cons, addEntry_eq]
    by_cases hadd : e.named = true ∧ e.ld ∉ dyns (s.libs 0).list
    · rw [if_pos hadd, List.filter_cons_of_pos (by exact decide_eq_true hadd)]
      obtain ⟨s', added, hs', hshaped, hinit, hlist, hadded⟩ := ih (h.addLib e.file) hd hf'
      refine ⟨s', ⟨s.next, e.file⟩ :: added, hs', hshaped, hinit, ?_, ?_⟩
      · rw [hlist, addLib_list, List.append_assoc, List.singleton_append]
      · rw [List.map_cons, List.map_cons, hadded]
        refine congrArg (e.file :: ·) (congrArg (List.map _) (List.filter_congr fun e' he' => ?_))
        -- what was added is not looked for again
        have hne : e'.ld ≠ e.file.dyn := fun heq =>
          hnot (List.mem_map.mpr ⟨e', he', heq.trans (hf e List.mem_cons_self hadd.1)⟩)
        have hdyns : dyns ((s.addLib 0 e.file).libs 0).list =
            dyns (s.libs 0).list ++ [e.file.dyn] := by
          rw [addLib_list]
          exact List.map_append
        rw [hdyns, decide_eq_decide, List.mem_append, List.mem_singleton, or_iff_left hne]
    · rw [if_neg hadd, List.filter_cons_of_neg (by exact fun h => hadd (of_decide_eq_true h))]
      exact ih h hd hf'

/-- Another thread runs into the assertion when there is anything to add. -/
theorem linkmapAdd_other (h : s.Shaped) (ht : task ≠ 0) (hnamed : ∃ e ∈ map, e.named = true) :
    ∃ err, map.foldlM (addEntry task) s = .error err := by
  induction map with
  | nil =>
    obtain ⟨e, he, -⟩ := hnamed
    cases he
  | cons e es ih =>
    rw [List.foldlM_cons, addEntry_eq, h.others task ht]
    by_cases he : e.named = true
    · rw [if_pos ⟨he, List.not_mem_nil⟩, libraryAdd_other s ht]
      exact ⟨_, rfl⟩
    · rw [if_neg fun h => he h.1]
      obtain ⟨e', he', hn⟩ := hnamed
      rcases List.mem_cons.mp he' with rfl | he'
      · exact absurd hn he
      · exact ih ⟨e', he', hn⟩

/-- The libraries that are left over go from the tree. -/
theorem foldlM_libraryDelete (s : LoadState) {keep tmp : List Library} {libs : ℕ → Libs}
    (htree : (libs 0).tree.toList.Perm (keep ++ tmp))
    (hnodes : ((keep ++ tmp).map fun lib => lib.node).Nodup) :
    ∃ tree, tmp.foldlM libraryDelete { s with libs } =
        .ok { s with libs := Function.update libs 0 { libs 0 with tree } } ∧
      tree.toList.Perm keep := by
  induction tmp generalizing libs with
  | nil =>
    refine ⟨(libs 0).tree, ?_, by simpa using htree⟩
    rw [Function.update_eq_self]
    rfl
  | cons lib tmp ih =>
    have hlib : lib ∈ (libs 0).tree.toList := htree.mem_iff.mpr (by simp)
    cases hloc : (libs 0).tree.locate (fun this => this.node == lib.node) .root with
    | none => exact absurd (RbTree.locate_none hloc lib hlib) (by simp)
    | some x =>
      obtain ⟨hx, hperm⟩ := RbTree.perm_of_locate hloc
      have hmem : x.val ∈ keep ++ lib :: tmp :=
        (hperm.symm.trans htree).mem_iff.mp List.mem_cons_self
      have hval : x.val = lib := List.inj_on_of_nodup_map hnodes hmem (by simp) (beq_iff_eq.mp hx)
      rw [hval] at hperm
      have hrest : x.erase.toList.Perm (keep ++ tmp) :=
        ((hperm.symm.trans htree).trans List.perm_middle).cons_inv
      have hnodes' : ((keep ++ tmp).map fun lib => lib.node).Nodup :=
        hnodes.sublist (List.Sublist.map _ ((List.sublist_cons_self lib tmp).append_left keep))
      have hstep : libraryDelete { s with libs } lib =
          .ok { s with libs := Function.update libs 0 { libs 0 with tree := x.erase } } := by
        unfold libraryDelete
        dsimp only
        rw [hloc]
      have htree' :
          (Function.update libs 0 { libs 0 with tree := x.erase } 0).tree.toList.Perm
            (keep ++ tmp) := by
        rw [Function.update_self]
        exact hrest
      obtain ⟨tree, hfold, hkeep⟩ := ih htree' hnodes'
      refine ⟨tree, ?_, hkeep⟩
      rw [List.foldlM_cons, hstep]
      refine hfold.trans ?_
      rw [Function.update_self, Function.update_idem]

end Steps

end LoadState

/-! ## The libraries there are to be -/

section Tracked

variable {main loader : Libref} {map seen : List LinkEntry}

/-- An entry that is in the list for its own sake. -/
abbrev Extra (main loader : Libref) (e : LinkEntry) : Prop :=
  e.named = true ∧ e.ld ≠ main.dyn ∧ e.ld ≠ loader.dyn

/-- The entries of a link map have their own dynamic sections. -/
structure Entries (map : List LinkEntry) : Prop where
  distinct : (map.map fun e => e.ld).Nodup
  file : ∀ e ∈ map, e.named = true → e.file.dyn = e.ld

theorem LinkMap.entries (h : LinkMap loader map) : Entries map := ⟨h.distinct, h.file⟩

theorem Entries.nodup (h : Entries map) : map.Nodup := h.distinct.of_map

theorem Entries.eq (h : Entries map) {e e' : LinkEntry} (he : e ∈ map) (he' : e' ∈ map)
    (heq : e.ld = e'.ld) : e = e' := List.inj_on_of_nodup_map h.distinct he he' heq

/-- The dynamic sections of the libraries. -/
theorem map_dyn_tracked (h : Entries map) : (tracked main loader map).map (fun l => l.dyn) =
    main.dyn :: loader.dyn :: (map.filter fun e => decide (Extra main loader e)).map
    fun e => e.ld := by
  unfold tracked
  rw [List.map_cons, List.map_cons, List.map_map]
  refine congrArg (main.dyn :: loader.dyn :: ·) (List.map_congr_left fun e he => ?_)
  obtain ⟨he, hextra⟩ := List.mem_filter.mp he
  exact h.file e he (of_decide_eq_true hextra).1

theorem nodup_dyn_tracked (h : Entries map) (hne : main.dyn ≠ loader.dyn) :
    ((tracked main loader map).map fun l => l.dyn).Nodup := by
  have hextra : ∀ ld ∈ (map.filter fun e => decide (Extra main loader e)).map (fun e => e.ld),
      ld ≠ main.dyn ∧ ld ≠ loader.dyn := by
    intro ld hld
    obtain ⟨e, he, rfl⟩ := List.mem_map.mp hld
    exact (of_decide_eq_true (List.mem_filter.mp he).2).2
  rw [map_dyn_tracked h, List.nodup_cons, List.nodup_cons, List.mem_cons, not_or]
  exact ⟨⟨hne, fun hm => (hextra _ hm).1 rfl⟩, fun hl => (hextra _ hl).2 rfl,
    h.distinct.sublist (List.filter_sublist.map _)⟩

/-- After libraries were added. -/
theorem extra_added (hseen : Entries seen) (hmap : Entries map) (hsub : ∀ e ∈ seen, e ∈ map) :
    ((seen.filter fun e => decide (Extra main loader e)) ++ map.filter fun e => decide
        (e.named = true ∧ e.ld ∉ (tracked main loader seen).map fun l => l.dyn)).Perm
      (map.filter fun e => decide (Extra main loader e)) := by
  rw [map_dyn_tracked hseen]
  refine (List.perm_ext_iff_of_nodup ?_ (hmap.nodup.filter _)).mpr fun e => ?_
  · refine List.nodup_append.mpr ⟨hseen.nodup.filter _, hmap.nodup.filter _, ?_⟩
    rintro a ha b hb rfl
    refine (of_decide_eq_true (List.mem_filter.mp hb).2).2 ?_
    exact List.mem_cons_of_mem _ (List.mem_cons_of_mem _ (List.mem_map_of_mem ha))
  · simp only [List.mem_append, List.mem_filter, decide_eq_true_iff, List.mem_cons,
      List.mem_map, not_or]
    constructor
    · rintro (⟨he, hextra⟩ | ⟨he, hnamed, hm, hl, -⟩)
      · exact ⟨hsub e he, hextra⟩
      · exact ⟨he, hnamed, hm, hl⟩
    · rintro ⟨he, hextra⟩
      by_cases hold : e ∈ seen
      · exact .inl ⟨hold, hextra⟩
      · refine .inr ⟨he, hextra.1, hextra.2.1, hextra.2.2, ?_⟩
        rintro ⟨e', ⟨he', -⟩, heq⟩
        exact hold (hmap.eq (hsub e' he') he heq ▸ he')

/-- After libraries were deleted. -/
theorem extra_deleted (hseen : Entries seen) (hmap : Entries map) (hsub : ∀ e ∈ map, e ∈ seen) :
    ((seen.filter fun e => decide (Extra main loader e)).filter fun e =>
        decide (e.file.dyn ∈ map.map fun e => e.ld)).Perm
      (map.filter fun e => decide (Extra main loader e)) := by
  refine (List.perm_ext_iff_of_nodup ((hseen.nodup.filter _).filter _)
    (hmap.nodup.filter _)).mpr fun e => ?_
  simp only [List.mem_filter, decide_eq_true_iff, List.mem_map]
  constructor
  · rintro ⟨⟨he, hextra⟩, e', he', heq⟩
    rw [hseen.file e he hextra.1] at heq
    exact ⟨hseen.eq (hsub e' he') he heq ▸ he', hextra⟩
  · rintro ⟨he, hextra⟩
    exact ⟨⟨hsub e he, hextra⟩, e, he, (hmap.file e he hextra.1).symm⟩

end Tracked

namespace LoadState

/-- What holds of a process between two hits. -/
structure Sound (main loader : Libref) (s : LoadState) : Prop where
  shaped : s.Shaped
  seen : Entries s.seen
  list : ∃ first rest, (s.libs 0).list = first :: rest ∧ first.libref = main ∧
    (rest.map fun lib => lib.libref).Perm (tracked main loader s.seen).tail
  fresh : s.initialised = false → s.seen = []

section Sound

variable {main loader : Libref} {s : LoadState} {rdbg : RDebug}

theorem Sound.perm (h : s.Sound main loader) :
    ((s.libs 0).list.map fun lib => lib.libref).Perm (tracked main loader s.seen) := by
  obtain ⟨first, rest, hlist, rfl, hrest⟩ := h.list
  rw [hlist]
  exact hrest.cons first.libref

theorem Sound.dyns (h : s.Sound main loader) :
    (dyns (s.libs 0).list).Perm ((tracked main loader s.seen).map fun l => l.dyn) := by
  have hperm := h.perm.map fun l => l.dyn
  rwa [List.map_map] at hperm

/-- The leader adds what is new. -/
theorem Sound.linkmapAdd (h : s.Sound main loader) (hmap : Entries rdbg.map)
    (hsub : ∀ e ∈ s.seen, e ∈ rdbg.map) :
    ∃ s', s.linkmapAdd 0 rdbg = .ok s' ∧ s'.initialised = s.initialised ∧
      ∀ debugState initialised, initialised = true →
        ({ s' with debugState, initialised, seen := rdbg.map } : LoadState).Sound main loader := by
  obtain ⟨s', added, hs', hshaped, hsame, hlist, hadded⟩ :=
    linkmapAdd_leader h.shaped hmap.distinct hmap.file
  refine ⟨s', hs', hsame,
    fun debugState initialised hinit => ⟨⟨hshaped.tree, hshaped.nodes, hshaped.fresh,
    hshaped.others⟩, hmap, ?_, fun hfresh => absurd (hinit.symm.trans hfresh) (by decide)⟩⟩
  obtain ⟨first, rest, hold, hmain, hrest⟩ := h.list
  refine ⟨first, rest ++ added, by rw [hlist, hold]; rfl, hmain, ?_⟩
  rw [List.map_append, hadded]
  refine (hrest.append_right _).trans (List.Perm.cons loader ?_)
  refine (List.Perm.of_eq List.map_append.symm).trans ?_
  refine List.Perm.map _ (List.Perm.trans (List.Perm.of_eq ?_) (extra_added h.seen hmap hsub))
  refine congrArg (_ ++ ·) (List.filter_congr fun e _ => ?_)
  rw [decide_eq_decide, h.dyns.mem_iff]

/-- The libraries that stay are those of the link map. -/
theorem moved_perm {rest moved : List Library} {map : List LinkEntry} (hseen : Entries s.seen)
    (hmap : LinkMap loader map) (hsub : ∀ e ∈ map, e ∈ s.seen)
    (hrest : (rest.map fun lib => lib.libref).Perm (tracked main loader s.seen).tail)
    (hmoved : moved.Perm
      (rest.filter fun lib => decide (lib.libref.dyn ∈ map.map fun e => e.ld))) :
    (moved.map fun lib => lib.libref).Perm (tracked main loader map).tail := by
  obtain ⟨eload, heload, -, hload⟩ := hmap.loader
  have hkeep : loader.dyn ∈ map.map fun e => e.ld := hload ▸ List.mem_map_of_mem heload
  -- filtering commutes with taking the files
  have hfilter := hrest.filter fun l => decide (l.dyn ∈ map.map fun e => e.ld)
  rw [List.filter_map] at hfilter
  refine (hmoved.map _).trans (hfilter.trans ?_)
  show (List.filter _ (loader :: _)).Perm (loader :: _)
  rw [List.filter_cons_of_pos (by exact decide_eq_true hkeep), List.filter_map]
  exact ((extra_deleted hseen hmap.entries hsub).map _).cons loader

/-- The leader deletes what is gone. -/
theorem Sound.linkmapDel (h : s.Sound main loader) (hmap : LinkMap loader rdbg.map)
    (hne : main.dyn ≠ loader.dyn) (hsub : ∀ e ∈ rdbg.map, e ∈ s.seen)
    (hinit : s.initialised = true) :
    ∃ s', s.linkmapDel 0 rdbg = .ok s' ∧ ∀ debugState,
      ({ s' with debugState, seen := rdbg.map } : LoadState).Sound main loader := by
  obtain ⟨first, rest, hlist, hmain, hrest⟩ := h.list
  have hnd : (Server.dyns (s.libs 0).list).Nodup :=
    h.dyns.nodup_iff.mpr (nodup_dyn_tracked h.seen hne)
  rw [hlist] at hnd
  obtain ⟨hmoved, hleft⟩ := moveMapped_spec rdbg.map (List.nodup_cons.mp hnd).2
  have hnonempty : rdbg.map.isEmpty = false := by
    obtain ⟨e, he, -⟩ := hmap.loader
    rw [List.isEmpty_eq_false_iff]
    exact List.ne_nil_of_mem he
  generalize hr : moveMapped rdbg.map rest = r at hmoved hleft
  -- what moves and what is left over are all libraries but the first
  have hsplit : (r.1 ++ r.2).Perm rest := by
    rw [hleft]
    refine (hmoved.append_right _).trans ?_
    simpa only [decide_not] using List.filter_append_perm _ rest
  have hall : ((first :: r.1) ++ r.2).Perm (s.libs 0).list := hlist ▸ hsplit.cons first
  generalize hlibs : Function.update s.libs 0 { s.libs 0 with list := first :: r.1 } = libs
  have hlibs0 : libs 0 = { s.libs 0 with list := first :: r.1 } := by
    rw [← hlibs, Function.update_self]
  have htree0 : (libs 0).tree.toList.Perm ((first :: r.1) ++ r.2) := by
    rw [hlibs0]
    exact h.shaped.tree.trans hall.symm
  obtain ⟨tree, hfold, htree⟩ := foldlM_libraryDelete s htree0
    ((hall.map _).nodup_iff.mpr h.shaped.nodes)
  have hsub' : (first :: r.1).Sublist ((first :: r.1) ++ r.2) := List.sublist_append_left _ _
  refine ⟨{ s with libs := Function.update libs 0 { libs 0 with tree } }, ?_, fun debugState =>
    ⟨⟨?_, ?_, fun lib hlib => ?_, fun i hi => ?_⟩, hmap.entries, ⟨first, r.1, ?_, hmain,
      moved_perm h.seen hmap hsub hrest hmoved⟩,
      fun hfresh => absurd (hinit.symm.trans hfresh) (by decide)⟩⟩
  · unfold LoadState.linkmapDel
    rw [hnonempty, if_neg Bool.false_ne_true, hlist]
    dsimp only
    rw [hr, hlibs]
    exact hfold
  · dsimp only
    rw [Function.update_self, hlibs0]
    exact htree
  · dsimp only
    rw [Function.update_self, hlibs0]
    exact ((hall.map _).nodup_iff.mpr h.shaped.nodes).sublist (hsub'.map _)
  · dsimp only at hlib
    rw [Function.update_self, hlibs0] at hlib
    exact h.shaped.fresh lib (hall.subset (hsub'.subset hlib))
  · dsimp only
    rw [Function.update_of_ne hi, ← hlibs, Function.update_of_ne hi]
    exact h.shaped.others i hi
  · dsimp only
    rw [Function.update_self, hlibs0]

/-! ## Steps -/

theorem Sound.setDebugState (h : s.Sound main loader) (debugState : RtState) :
    ({ s with debugState } : LoadState).Sound main loader :=
  ⟨⟨h.shaped.tree, h.shaped.nodes, h.shaped.fresh, h.shaped.others⟩, h.seen, h.list, h.fresh⟩

theorem Sound.setInitialised (h : s.Sound main loader) :
    ({ s with initialised := true } : LoadState).Sound main loader :=
  ⟨⟨h.shaped.tree, h.shaped.nodes, h.shaped.fresh, h.shaped.others⟩, h.seen, h.list,
    fun h => (by cases h)⟩

/-- A change of the link map that the leader finds. -/
theorem Sound.step (h : s.Sound main loader) (hne : main.dyn ≠ loader.dyn) {e : LoadEvent}
    (he : s.Announced loader e) (hlead : s.ByLeader e) :
    ∃ s', s.step e = .ok s' ∧ s'.Sound main loader := by
  cases e with
  | init task rdbg =>
    obtain ⟨hinit, hmap⟩ := he
    show ∃ s', s.linkmapInit task rdbg = .ok s' ∧ _
    unfold linkmapInit
    rw [hinit, if_neg Bool.false_ne_true]
    cases hstate : rdbg.state with
    | add => exact ⟨_, rfl, h.setInitialised⟩
    | delete => exact ⟨_, rfl, h.setInitialised⟩
    | consistent =>
      obtain rfl : task = 0 := hlead hstate
      have hsub : ∀ e ∈ s.seen, e ∈ rdbg.map := fun e he => by
        rw [h.fresh hinit] at he
        cases he
      obtain ⟨s', hs', -, hsound⟩ := h.linkmapAdd (hmap hstate).entries hsub
      exact ⟨_, by rw [hs']; rfl, hsound s'.debugState true rfl⟩
  | hit task rdbg =>
    obtain ⟨hinit, hmap⟩ := he
    show ∃ s', s.rdebugBpOnHit task rdbg = .ok s' ∧ _
    unfold rdebugBpOnHit
    cases hstate : rdbg.state with
    | add => exact ⟨_, rfl, h.setDebugState .add⟩
    | delete => exact ⟨_, rfl, h.setDebugState .delete⟩
    | consistent =>
      obtain ⟨hmap, hsub⟩ := hmap hstate
      cases hd : s.debugState with
      | add =>
        rw [hd] at hsub
        obtain rfl : task = 0 := hlead hstate (by rw [hd]; decide)
        obtain ⟨s', hs', hsame, hsound⟩ := h.linkmapAdd hmap.entries hsub
        exact ⟨_, by dsimp only; rw [hs']; rfl,
          hsound .consistent s'.initialised (hsame.trans hinit)⟩
      | delete =>
        rw [hd] at hsub
        obtain rfl : task = 0 := hlead hstate (by rw [hd]; decide)
        obtain ⟨s', hs', hsound⟩ := h.linkmapDel hmap hne hsub hinit
        exact ⟨_, by dsimp only; rw [hs']; rfl, hsound .consistent⟩
      | consistent =>
        rw [hd] at hsub
        refine ⟨_, rfl, ?_⟩
        rw [hsub]
        exact h.setDebugState .consistent

/-- A change of the link map that another thread finds. -/
theorem Sound.step_other (h : s.Sound main loader) {e : LoadEvent} (he : s.Announced loader e)
    (hlead : ¬ s.ByLeader e) : ∃ err, s.step e = .error err := by
  cases e with
  | init task rdbg =>
    obtain ⟨hinit, hmap⟩ := he
    obtain ⟨hstate, ht⟩ : rdbg.state = .consistent ∧ task ≠ 0 := Classical.not_imp.mp hlead
    obtain ⟨e, he, hnamed, -⟩ := (hmap hstate).loader
    obtain ⟨err, herr⟩ := linkmapAdd_other h.shaped ht ⟨e, he, hnamed⟩
    refine ⟨err, ?_⟩
    show s.linkmapInit task rdbg = _
    unfold linkmapInit LoadState.linkmapAdd
    rw [hinit, if_neg Bool.false_ne_true, hstate, herr]
    rfl
  | hit task rdbg =>
    obtain ⟨hinit, hmap⟩ := he
    obtain ⟨hstate, hrest⟩ := Classical.not_imp.mp hlead
    obtain ⟨hd, ht⟩ := Classical.not_imp.mp hrest
    obtain ⟨⟨-, -, e, he, hnamed, -⟩, -⟩ := hmap hstate
    show ∃ err, s.rdebugBpOnHit task rdbg = .error err
    unfold rdebugBpOnHit
    rw [hstate]
    cases hd' : s.debugState with
    | add =>
      obtain ⟨err, herr⟩ := linkmapAdd_other h.shaped ht ⟨e, he, hnamed⟩
      refine ⟨err, ?_⟩
      dsimp only
      unfold LoadState.linkmapAdd
      rw [herr]
      rfl
    | delete =>
      have hnonempty : rdbg.map.isEmpty = false := by
        rw [List.isEmpty_eq_false_iff]
        exact List.ne_nil_of_mem he
      refine ⟨"list_move of the head of a list", ?_⟩
      dsimp only
      unfold LoadState.linkmapDel
      rw [hnonempty, if_neg Bool.false_ne_true, h.shaped.others task ht]
      rfl
    | consistent => exact absurd hd' hd

theorem sound_start (main loader : Libref) : (start main loader).Sound main loader where
  shaped := by
    have hnone : Shaped ⟨fun _ => ⟨[], .nil⟩, 0, .add, false, []⟩ :=
      ⟨List.Perm.refl _, List.nodup_nil, fun lib h => (by cases h), fun _ _ => rfl⟩
    exact (hnone.addLib main).addLib loader
  seen := ⟨List.nodup_nil, fun e h => (by cases h)⟩
  list := ⟨⟨0, main⟩, [⟨1, loader⟩], rfl, rfl, List.Perm.refl _⟩
  fresh := fun _ => rfl

end Sound

end LoadState

/-- Whatever is loaded and unloaded, the leader has the libraries there are to be when the link map
is consistent, as long as each change is found by the leader; when another thread finds one, the
server does not survive. -/
theorem libraries_follow (main loader : Libref) (hne : main.dyn ≠ loader.dyn) (s : LoadState)
    (hr : Machine.Reach LoadState.step (fun s e => s.Announced loader e ∧ s.ByLeader e)
      (.start main loader) s) :
    ((s.libs 0).list.map fun lib => lib.libref).Perm (tracked main loader s.seen) ∧
      (s.libs 0).tree.toList.Perm (s.libs 0).list ∧
      ((s.libs 0).list.map fun lib => lib.libref.dyn).Nodup ∧
      ∀ e, s.Announced loader e → ((∃ s', s.step e = .ok s') ↔ s.ByLeader e) := by
  have hsound : s.Sound main loader := by
    refine hr.invariant (LoadState.sound_start main loader) fun s e s' hs hok hstep => ?_
    obtain ⟨s'', hs'', hsound⟩ := hs.step hne hok.1 hok.2
    cases hs''.symm.trans hstep
    exact hsound
  refine ⟨hsound.perm, hsound.shaped.tree,
    hsound.dyns.nodup_iff.mpr (nodup_dyn_tracked hsound.seen hne),
      fun e he => ⟨?_, fun hlead => ?_⟩⟩
  · rintro ⟨s', hs'⟩
    by_contra hlead
    obtain ⟨err, herr⟩ := hsound.step_other he hlead
    cases hs'.symm.trans herr
  · obtain ⟨s', hs', -⟩ := hsound.step hne he hlead
    exact ⟨s', hs'⟩

/-- A file with a dynamic section. -/
def fileAt (dyn : UInt64) (type : LibType) : Libref := { Libref.new type with dyn, txtVaddr := dyn }

/-- The link map of a program with the loader and the C library. -/
def linkMapAtStart : List LinkEntry :=
  [⟨some "", 0x1000, fileAt 0x1000 .main⟩, ⟨some "ld-linux.so.2", 0x2000, fileAt 0x2000 .lib⟩,
    ⟨some "libc.so.6", 0x3000, fileAt 0x3000 .lib⟩]

/-- The same after a library was loaded. -/
def linkMapLoaded : List LinkEntry :=
  linkMapAtStart ++ [⟨some "libm.so.6", 0x4000, fileAt 0x4000 .lib⟩]

/-- The program starts, and a task loads the library. -/
def loading (task : ℕ) : List LoadEvent :=
  [.init 0 ⟨.consistent, linkMapAtStart⟩, .hit task ⟨.add, linkMapAtStart⟩,
    .hit task ⟨.consistent, linkMapLoaded⟩]

/-- The leader loads it. -/
theorem libraries_follow_loading : ∃ s,
    Machine.run LoadState.step (.start (fileAt 0x1000 .main) (fileAt 0x2000 .loader)) (loading 0) =
        .ok s ∧
      ((s.libs 0).list.map fun lib => lib.libref).Perm
        [fileAt 0x1000 .main, fileAt 0x2000 .loader, fileAt 0x3000 .lib, fileAt 0x4000 .lib] := by
  have hstart : LinkMap (fileAt 0x2000 .loader) linkMapAtStart := by
    refine ⟨by decide, by decide, ?_⟩
    exact ⟨_, .tail _ (.head _), by decide, rfl⟩
  have hloaded : LinkMap (fileAt 0x2000 .loader) linkMapLoaded := by
    refine ⟨by decide, by decide, ?_⟩
    exact ⟨_, .tail _ (.head _), by decide, rfl⟩
  refine ⟨_, rfl, ?_⟩
  refine (libraries_follow (fileAt 0x1000 .main) (fileAt 0x2000 .loader) (by decide) _ ?_).1
  refine .step (e := .hit 0 ⟨.consistent, linkMapLoaded⟩)
    (.step (e := .hit 0 ⟨.add, linkMapAtStart⟩)
      (.step (e := .init 0 ⟨.consistent, linkMapAtStart⟩) .init ?_ rfl) ?_ rfl) ?_ rfl
  · exact ⟨⟨rfl, fun _ => hstart⟩, fun _ => rfl⟩
  · exact ⟨⟨rfl, fun h => (by cases h)⟩, fun h => (by cases h)⟩
  · exact ⟨⟨rfl, fun _ => ⟨hloaded, fun e he => List.mem_append_left _ he⟩⟩, fun _ _ => rfl⟩

/-- Another thread loads it. -/
theorem loaded_by_thread :
    Machine.run LoadState.step (.start (fileAt 0x1000 .main) (fileAt 0x2000 .loader)) (loading 1) =
      .error "leader->leader == leader" := rfl

end Mtrace.Server
