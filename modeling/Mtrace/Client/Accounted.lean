import Mathlib.Algebra.Order.BigOperators.Group.List
import Mathlib.Algebra.Order.Ring.Nat
import Mtrace.Client.Bulk
import Mtrace.Client.Client

/-!
# The references of the whole client

`Accounted` puts the equations of all records together: the dumps hold what their arrays list, and
what a record sees as the references of others is the sum over the other records.  A write to one
record keeps it when the record keeps its own equations, which is all that is left to check for a
handler.
-/

namespace Mtrace.Client

open RbTree Machine

/-! ## The table of processes -/

section PidTable

/-- The records in the order of their pids, each pid once. -/
def Sorted (ps : List Process) : Prop := ps.Pairwise fun p q => p.pid < q.pid

theorem pidCut_eq_eq {pid : UInt32} {p : Process} : pidCut pid p = .eq ↔ p.pid = pid := by
  unfold pidCut
  split
  next h => simp [UInt32.ne_of_lt h |>.symm]
  next h1 =>
    split
    next h => simp [UInt32.ne_of_lt h]
    next h2 =>
      simp only [true_iff]
      exact UInt32.le_antisymm (UInt32.not_lt.mp h1) (UInt32.not_lt.mp h2)

theorem pidCut_eq_lt {pid : UInt32} {p : Process} : pidCut pid p = .lt ↔ pid < p.pid := by
  unfold pidCut
  split
  · simp [*]
  · split <;> simp [*]

theorem pidCut_eq_gt {pid : UInt32} {p : Process} : pidCut pid p = .gt ↔ p.pid < pid := by
  unfold pidCut
  split
  next h => simp [UInt32.le_of_lt h]
  next h => split <;> simp [*]

theorem Sorted.monoCut {ps : List Process} (h : Sorted ps) (pid : UInt32) :
    MonoCut (pidCut pid) ps := by
  refine h.imp fun {p q} hpq => ⟨fun hq hp => hq ?_, fun hq => ?_⟩
  · exact pidCut_eq_lt.mpr (UInt32.lt_trans (pidCut_eq_lt.mp hp) hpq)
  · exact pidCut_eq_gt.mpr (UInt32.lt_trans hpq (pidCut_eq_gt.mp hq))

theorem Sorted.eq_of_pid {ps : List Process} (h : Sorted ps) {p q : Process} (hp : p ∈ ps)
    (hq : q ∈ ps) (hpid : p.pid = q.pid) : p = q := by
  have hnd : (ps.map (·.pid)).Nodup := by
    rw [List.nodup_iff_pairwise_ne, List.pairwise_map]
    exact h.imp fun hlt => UInt32.ne_of_lt hlt
  exact List.inj_on_of_nodup_map hnd hp hq hpid

theorem find_pid_eq_some {t : RbRoot Process} {pid : UInt32} {x : Loc Process}
    (h : t.find (pidCut pid) = some x) : x.val ∈ t.toList ∧ x.val.pid = pid :=
  ⟨mem_of_find h, pidCut_eq_eq.mp (find_some h).2⟩

theorem findProcess_eq_some {c : State} {pid : UInt32} {p : Process}
    (h : c.findProcess pid = some p) : p ∈ c.processes ∧ p.pid = pid := by
  obtain ⟨x, hx, rfl⟩ := Option.map_eq_some_iff.mp h
  exact find_pid_eq_some hx

theorem Sorted.findProcess_eq_none {c : State} (hs : Sorted c.processes) {pid : UInt32} :
    c.findProcess pid = none ↔ ∀ p ∈ c.processes, p.pid ≠ pid := by
  rw [State.findProcess, Option.map_eq_none_iff, find_eq_none_iff (hs.monoCut pid)]
  simp only [ne_eq, pidCut_eq_eq]

theorem Sorted.findProcess_of_mem {c : State} (hs : Sorted c.processes) {p : Process}
    (hp : p ∈ c.processes) : c.findProcess p.pid = some p := by
  rcases hf : c.findProcess p.pid with _ | q
  · exact absurd rfl (hs.findProcess_eq_none.mp hf p hp)
  · obtain ⟨hq, hpid⟩ := findProcess_eq_some hf
    rw [hs.eq_of_pid hq hp hpid]

theorem Sorted.pid_ne {as bs : List Process} {p : Process} (h : Sorted (as ++ p :: bs)) :
    ∀ q ∈ as ++ bs, q.pid ≠ p.pid := by
  obtain ⟨-, h2, h12⟩ := List.pairwise_append.mp h
  intro q hq
  rcases List.mem_append.mp hq with hq | hq
  · exact UInt32.ne_of_lt (h12 q hq p (List.mem_cons_self ..))
  · exact (UInt32.ne_of_lt ((List.pairwise_cons.mp h2).1 q hq)).symm

theorem Sorted.without {as bs : List Process} {p : Process} (h : Sorted (as ++ p :: bs)) :
    Sorted (as ++ bs) :=
  h.sublist ((List.Sublist.refl as).append (List.sublist_cons_self p bs))

theorem processes_store (c : State) (k : Stacks) (p : Process) :
    (c.store k p).processes = c.processes.map fun q => if q.pid = p.pid then p else q :=
  toList_map _ _

theorem mem_store {c : State} {k : Stacks} {p q : Process} (hq : q ∈ (c.store k p).processes) :
    q = p ∨ q ∈ c.processes ∧ q.pid ≠ p.pid := by
  rw [processes_store] at hq
  obtain ⟨r, hr, rfl⟩ := List.mem_map.mp hq
  by_cases h : r.pid = p.pid
  · exact .inl (if_pos h)
  · rw [if_neg h]; exact .inr ⟨hr, h⟩

theorem pid_store (c : State) (k : Stacks) (p : Process) :
    (c.store k p).processes.map (·.pid) = c.processes.map (·.pid) := by
  rw [processes_store, List.map_map]
  refine List.map_congr_left fun q _ => ?_
  simp only [Function.comp]
  split
  next h => exact h.symm
  next => rfl

theorem sorted_iff {ps : List Process} : Sorted ps ↔ (ps.map (·.pid)).Pairwise (· < ·) :=
  List.pairwise_map.symm

theorem Sorted.store {c : State} (hs : Sorted c.processes) (k : Stacks) (p : Process) :
    Sorted (c.store k p).processes := by
  rw [sorted_iff, pid_store, ← sorted_iff]; exact hs

theorem processes_addProcess {c : State} (hs : Sorted c.processes) {p : Process}
    (hnew : ∀ q ∈ c.processes, q.pid ≠ p.pid) :
    ∃ as bs, c.processes = as ++ bs ∧ (c.addProcess p).processes = as ++ p :: bs ∧
      Sorted (as ++ p :: bs) := by
  have hf : c.pidTable.find (pidCut p.pid) = none :=
    (find_eq_none_iff (hs.monoCut p.pid)).mpr fun q hq => fun he => hnew q hq (pidCut_eq_eq.mp he)
  obtain ⟨hb, ha⟩ := gap_cut (hs.monoCut p.pid)
  have hp : c.processes = _ := toList_of_find_none hf
  refine ⟨_, _, hp, toList_insertNew _ p, ?_⟩
  rw [hp] at hs
  obtain ⟨h1, h2, h12⟩ := List.pairwise_append.mp hs
  refine List.pairwise_append.mpr ⟨h1, List.pairwise_cons.mpr ⟨fun q hq => ?_, h2⟩, ?_⟩
  · exact pidCut_eq_lt.mp (ha q hq)
  · intro q hq r hr
    rcases List.mem_cons.mp hr with rfl | hr
    · exact pidCut_eq_gt.mp (hb q hq)
    · exact h12 q hq r hr

end PidTable

/-! ## The equations -/

/-- The references the dumps hold on the node `i` of the process `pid`. -/
def dumpRefs (ds : List Dump) (pid : UInt32) (i : NodeId) : ℕ :=
  (ds.map fun d => if d.pid = pid then d.arr.count i else 0).sum

/-- The references all processes hold on the `struct stack` `s`. -/
def totalRefs (ps : List Process) (s : StackId) : ℕ := (ps.map fun p => stackRefs p.nodes s).sum

/-- The references the processes other than `pid` hold on the `struct stack` `s`. -/
def otherRefs (ps : List Process) (pid : UInt32) (s : StackId) : ℕ :=
  (ps.map fun p => if p.pid = pid then 0 else stackRefs p.nodes s).sum

theorem otherRefs_of_ne {ps : List Process} {pid : UInt32} (h : ∀ p ∈ ps, p.pid ≠ pid)
    (s : StackId) : otherRefs ps pid s = totalRefs ps s := by
  unfold otherRefs totalRefs
  congr 1
  exact List.map_congr_left fun p hp => if_neg (h p hp)

theorem Sorted.totalRefs_eq {as bs : List Process} {p : Process} (h : Sorted (as ++ p :: bs))
    (s : StackId) :
    totalRefs (as ++ p :: bs) s = stackRefs p.nodes s + totalRefs (as ++ bs) s ∧
      otherRefs (as ++ p :: bs) p.pid s = totalRefs (as ++ bs) s := by
  have hne := h.pid_ne
  refine ⟨?_, ?_⟩
  · simp only [totalRefs, List.map_append, List.map_cons, List.sum_append, List.sum_cons]
    omega
  · rw [← otherRefs_of_ne hne]
    simp [otherRefs]

theorem Sorted.totalRefs_of_mem {ps : List Process} (h : Sorted ps) {p : Process} (hp : p ∈ ps)
    (s : StackId) : totalRefs ps s = stackRefs p.nodes s + otherRefs ps p.pid s := by
  obtain ⟨as, bs, rfl⟩ := List.append_of_mem hp
  obtain ⟨h1, h2⟩ := h.totalRefs_eq s
  rw [h1, h2]

theorem otherRefs_store (c : State) (k : Stacks) (p : Process) (s : StackId) :
    otherRefs (c.store k p).processes p.pid s = otherRefs c.processes p.pid s := by
  unfold otherRefs
  rw [processes_store, List.map_map]
  congr 1
  refine List.map_congr_left fun q _ => ?_
  simp only [Function.comp]
  split
  next h => simp
  next h => simp

/-- All references of the client are accounted for. -/
structure Accounted (c : State) : Prop where
  sorted : Sorted c.processes
  owned : ∀ p ∈ c.processes,
    Owned c.heap p (dumpRefs c.dumps p.pid) (otherRefs c.processes p.pid)
  counted : ∀ p ∈ c.processes, p.Counted
  shared : ∀ s, c.heap.refcnt s = totalRefs c.processes s
  unborn : ∀ s, c.heap.next ≤ s → c.heap.refcnt s = 0
  dumps : ∀ d ∈ c.dumps, d.arr ≠ [] ∧ ∃ p ∈ c.processes, p.pid = d.pid

theorem accounted_init (doTrace : Bool) : Accounted (State.init doTrace) where
  sorted := .nil
  owned p hp := by cases hp
  counted p hp := by cases hp
  shared _ := rfl
  unborn _ _ := rfl
  dumps d hd := by cases hd

/-- A record that is not touched sees the references of others move. -/
theorem Owned.rebase {k k' : Stacks} {p : Process} {ext ext' : NodeId → ℕ}
    {rest rest' : StackId → ℕ}
    (h : Owned k p ext rest) (hext : ∀ i, ext' i = ext i)
    (hsh : ∀ s, k'.refcnt s = stackRefs p.nodes s + rest' s)
    (hun : ∀ s, k'.next ≤ s → k'.refcnt s = 0) : Owned k' p ext' rest' := by
  rw [show ext' = ext from funext hext]
  exact ⟨⟨h.refs.nodup, h.refs.refcnt, h.refs.held, hsh, hun⟩, h.fresh, h.trees, h.restorable⟩

namespace Accounted

variable {c : State} {k : Stacks} {p p' : Process}

/-- Writing back a record, and changing what the dumps hold on its nodes. -/
theorem storeDumps {ds : List Dump} (h : Accounted c) (hp : p ∈ c.processes)
    (hpid : p'.pid = p.pid) (ho : Owned k p' (dumpRefs ds p.pid) (otherRefs c.processes p.pid))
    (hc : p'.Counted) (hext : ∀ pid, pid ≠ p.pid → ∀ i, dumpRefs ds pid i = dumpRefs c.dumps pid i)
    (hds : ∀ d ∈ ds, d.arr ≠ [] ∧ ∃ q ∈ c.processes, q.pid = d.pid) :
    Accounted { c.store k p' with dumps := ds } := by
  have hs : Sorted (c.store k p').processes := h.sorted.store k p'
  have hmem : p' ∈ (c.store k p').processes := by
    rw [processes_store]
    exact List.mem_map.mpr ⟨p, hp, if_pos hpid.symm⟩
  have hother : ∀ s, otherRefs (c.store k p').processes p.pid s = otherRefs c.processes p.pid s :=
    fun s => hpid ▸ otherRefs_store c k p' s
  have htotal : ∀ s, k.refcnt s = totalRefs (c.store k p').processes s := fun s => by
    rw [hs.totalRefs_of_mem hmem, hpid, hother, ho.refs.shared]
  refine ⟨hs, fun q hq => ?_, fun q hq => ?_, htotal, ho.refs.unborn, fun d hd => ?_⟩
  · rcases mem_store (k := k) hq with rfl | ⟨hq', hne⟩
    · rw [hpid, show otherRefs _ p.pid = _ from funext hother]
      exact ho
    · refine (h.owned q hq').rebase (hext q.pid (hpid ▸ hne)) (fun s => ?_) ho.refs.unborn
      rw [← hs.totalRefs_of_mem hq]
      exact htotal s
  · rcases mem_store (k := k) hq with rfl | ⟨hq', -⟩
    · exact hc
    · exact h.counted q hq'
  · obtain ⟨hne, q, hq, hqd⟩ := hds d hd
    refine ⟨hne, ?_⟩
    have hpids : d.pid ∈ (c.store k p').processes.map (·.pid) := by
      rw [pid_store, ← hqd]
      exact List.mem_map_of_mem hq
    obtain ⟨q', hq', he⟩ := List.mem_map.mp hpids
    exact ⟨q', hq', he⟩

theorem store (h : Accounted c) (hp : p ∈ c.processes) (hpid : p'.pid = p.pid)
    (ho : Owned k p' (dumpRefs c.dumps p.pid) (otherRefs c.processes p.pid)) (hc : p'.Counted) :
    Accounted (c.store k p') :=
  h.storeDumps hp hpid ho hc (fun _ _ _ => rfl) h.dumps

/-- The record of a process that reports for the first time. -/
theorem addProcess {pid : UInt32} {swapEndian tracing : Bool} (h : Accounted c)
    (hnew : ∀ q ∈ c.processes, q.pid ≠ pid) :
    Accounted (c.addProcess (processNew pid swapEndian tracing)) := by
  let p := processNew pid swapEndian tracing
  obtain ⟨as, bs, hps, hps', hs⟩ := processes_addProcess h.sorted (p := p) hnew
  have htotal : ∀ s, c.heap.refcnt s = totalRefs (c.addProcess p).processes s := fun s => by
    rw [h.shared, hps', (hs.totalRefs_eq s).1, hps]
    exact (Nat.zero_add _).symm
  have hs' : Sorted (c.addProcess p).processes := hps' ▸ hs
  have hmem : ∀ q, q ∈ (c.addProcess p).processes ↔ q = p ∨ q ∈ c.processes := fun q => by
    rw [hps', hps]
    simp only [List.mem_append, List.mem_cons]
    tauto
  refine ⟨hs', fun q hq => ?_, fun q hq => ?_, htotal, h.unborn, fun d hd => ?_⟩
  · have hshare : ∀ s, c.heap.refcnt s =
        stackRefs q.nodes s + otherRefs (c.addProcess p).processes q.pid s := fun s => by
      rw [← hs'.totalRefs_of_mem hq, htotal]
    rcases (hmem q).mp hq with rfl | hq'
    · -- no dump can hold nodes of a process that was not there
      have hext : ∀ i, dumpRefs c.dumps pid i = 0 := fun i => by
        unfold dumpRefs
        have hmap : (c.dumps.map fun d => if d.pid = pid then d.arr.count i else 0) =
            c.dumps.map fun _ => 0 := by
          refine List.map_congr_left fun d hd => if_neg fun he => ?_
          obtain ⟨-, q, hq, hqd⟩ := h.dumps d hd
          exact hnew q hq (hqd.trans he)
        simp [hmap]
      refine ⟨⟨List.nodup_nil, fun n hn => (by cases hn), fun i hi => ?_, hshare, h.unborn⟩,
        fun n hn => (by cases hn), rfl, fun re hre => (by cases hre)⟩
      exact absurd ((Nat.zero_add _).trans (hext i)) hi
    · exact (h.owned q hq').rebase (fun _ => rfl) hshare h.unborn
  · rcases (hmem q).mp hq with rfl | hq'
    · rfl
    · exact h.counted q hq'
  · obtain ⟨hne, q, hq, hqd⟩ := h.dumps d hd
    exact ⟨hne, q, (hmem q).mpr (.inr hq), hqd⟩

/-- A record taken out after its references are gone. -/
theorem erase {x : Loc Process} (h : Accounted c) (hx : c.processes = x.before ++ x.val :: x.after)
    (ho : Owned k x.val.cleared (dumpRefs c.dumps x.val.pid) (otherRefs c.processes x.val.pid))
    (hfree : ∀ d ∈ c.dumps, d.pid ≠ x.val.pid) :
    Accounted { c with pidTable := x.erase, heap := k } := by
  have hps : (State.processes { c with pidTable := x.erase, heap := k }) = x.before ++ x.after :=
    toList_erase x
  have hsub : ∀ q ∈ x.before ++ x.after, q ∈ c.processes := fun q hq => by
    rw [hx]
    simp only [List.mem_append, List.mem_cons] at hq ⊢
    tauto
  have hsx : Sorted (x.before ++ x.val :: x.after) := hx ▸ h.sorted
  have hs : Sorted (x.before ++ x.after) := hsx.without
  have htotal : ∀ s, k.refcnt s = totalRefs (x.before ++ x.after) s := fun s => by
    rw [ho.refs.shared, hx, (hsx.totalRefs_eq s).2]
    exact Nat.zero_add _
  refine ⟨?_, fun q hq => ?_, fun q hq => ?_, ?_, ho.refs.unborn, fun d hd => ?_⟩
  · rw [hps]; exact hs
  · rw [hps] at hq ⊢
    refine (h.owned q (hsub q hq)).rebase (fun _ => rfl) (fun s => ?_) ho.refs.unborn
    rw [← hs.totalRefs_of_mem hq]
    exact htotal s
  · rw [hps] at hq
    exact h.counted q (hsub q hq)
  · rw [hps]; exact htotal
  · obtain ⟨hne, q, hq, hqd⟩ := h.dumps d hd
    refine ⟨hne, q, ?_, hqd⟩
    rw [hx] at hq
    rw [hps]
    simp only [List.mem_append, List.mem_cons] at hq ⊢
    rcases hq with hq | rfl | hq
    · exact .inl hq
    · exact absurd hqd.symm (hfree d hd)
    · exact .inr hq

/-- A record is held from outside exactly while a dump of it waits. -/
theorem held_iff (h : Accounted c) (hp : p ∈ c.processes) :
    (∃ n ∈ p.nodes, dumpRefs c.dumps p.pid n.id ≠ 0) ↔ ∃ d ∈ c.dumps, d.pid = p.pid := by
  refine ⟨fun ⟨n, _, hne⟩ => ?_, fun ⟨d, hd, hpid⟩ => ?_⟩
  · by_contra hno
    refine hne ?_
    have hmap : (c.dumps.map fun d => if d.pid = p.pid then d.arr.count n.id else 0) =
        c.dumps.map fun _ => 0 :=
      List.map_congr_left fun d hd => if_neg fun he => hno ⟨d, hd, he⟩
    simp [dumpRefs, hmap]
  · obtain ⟨i, hi⟩ := List.exists_mem_of_ne_nil _ (h.dumps d hd).1
    have hle : d.arr.count i ≤ dumpRefs c.dumps p.pid i :=
      List.le_sum_of_mem (List.mem_map.mpr ⟨d, hd, if_pos hpid⟩)
    have hpos : 0 < d.arr.count i := List.count_pos_iff.mpr hi
    have hne : p.refs i + dumpRefs c.dumps p.pid i ≠ 0 := by omega
    obtain ⟨n, hn, rfl⟩ := List.mem_map.mp ((h.owned p hp).refs.held i hne)
    exact ⟨n, hn, by omega⟩

/-- `process_reset` of a record of the client returns unless a dump of it waits. -/
theorem processReset_ends (h : Accounted c) (hp : p ∈ c.processes) :
    ((∃ d ∈ c.dumps, d.pid = p.pid) ∧
        processReset c.heap p = .error (.fatal "unexpected stack tree ref count!\n")) ∨
      (¬ ∃ d ∈ c.dumps, d.pid = p.pid) ∧ ∃ k', processReset c.heap p = .ok (k', p.cleared) ∧
        Owned k' p.cleared (dumpRefs c.dumps p.pid) (otherRefs c.processes p.pid) := by
  rcases (h.owned p hp).processReset_ends (h.counted p hp) with ⟨hex, herr⟩ | ⟨hall, k', hok, ho⟩
  · exact .inl ⟨(h.held_iff hp).mp hex, herr⟩
  · refine .inr ⟨fun hd => ?_, k', hok, ho⟩
    obtain ⟨n, hn, hne⟩ := (h.held_iff hp).mpr hd
    exact hne (hall n hn)

end Accounted

end Mtrace.Client
