import Mtrace.Client.Steps

/-!
# References, open allocations and waiting dumps

What follows from the accounts for whole runs of the client: the reference counters are exact, the
counter of open allocations is exact, and the only way to abort in a reset is to reset a record
while one of its dumps waits.
-/

namespace Mtrace.Client

open RbTree Machine

variable {o : Options} {env : Env} {doTrace : Bool} {c : State}

/-! ## Reference counters -/

/-- The references to the nodes of a process are those of its table, its blocks, its pending
`realloc` calls and its dumps, the references to a `struct stack` are those of its nodes in all
processes, and nobody ever points to a node that is gone.  A reset frees all nodes and leaves the
`struct stack`s to the other processes. -/
theorem refcnt_eq_references (h : Reachable o env doTrace c) :
    (∀ p ∈ c.processes, ∀ n ∈ p.nodes, n.refcnt =
      1 + blockRefs p.blocks n.id + reallocRefs p.reallocList n.id + dumpRefs c.dumps p.pid n.id) ∧
    (∀ s, c.heap.refcnt s = totalRefs c.processes s) ∧
    (∀ p ∈ c.processes, ∀ i, (∃ b ∈ p.blocks, b.stackNode = i) ∨
      (∃ re ∈ p.reallocList, re.stackNode = some i) ∨ (∃ d ∈ c.dumps, d.pid = p.pid ∧ i ∈ d.arr) →
      ∃ n ∈ p.nodes, n.id = i ∧ n.refcnt ≠ 0 ∧ c.heap.refcnt n.stack.id ≠ 0) ∧
    (∀ e, c.step o env e ≠ .error .dangling) ∧
    (∀ p ∈ c.processes, ∀ k1 p1 k2 p2, processResetAllocations c.heap p = .ok (k1, p1) →
      resetStacks (p1.stackTable.postorder.map (·.id)) k1 p1 = .ok (k2, p2) →
      (∀ n ∈ p2.nodes, n.refcnt = 0) ∧ ∀ s, k2.refcnt s = otherRefs c.processes p.pid s) := by
  have hac := Reach.accounted h
  refine ⟨fun p hp n hn => ?_, hac.shared, fun p hp i hi => ?_, fun e he => ?_,
    fun p hp k1 p1 k2 p2 h1 h2 => ?_⟩
  · rw [(hac.owned p hp).refs.refcnt n hn, Process.refs]
    omega
  · have hne : p.refs i + dumpRefs c.dumps p.pid i ≠ 0 := by
      rcases hi with ⟨b, hb, rfl⟩ | ⟨re, hre, hi⟩ | ⟨d, hd, hpid, hi⟩
      · have := blockRefs_pos hb
        unfold Process.refs
        omega
      · have := reallocRefs_pos hre hi
        unfold Process.refs
        omega
      · have hle : d.arr.count i ≤ dumpRefs c.dumps p.pid i :=
          List.le_sum_of_mem (List.mem_map.mpr ⟨d, hd, if_pos hpid⟩)
        have hpos : 0 < d.arr.count i := List.count_pos_iff.mpr hi
        omega
    obtain ⟨n, hn, rfl⟩ := List.mem_map.mp ((hac.owned p hp).refs.held i hne)
    have hr := (hac.owned p hp).refs.refcnt n hn
    have hle := refcnt_le_stackRefs hn
    have hsh := (hac.owned p hp).refs.shared n.stack.id
    exact ⟨n, hn, rfl, by omega, by omega⟩
  · rcases (step_ends hac e).error he with ⟨hext | ⟨hf, -⟩, -⟩ | ⟨hf, -⟩
    · exact hext.external
    · cases hf
    · cases hf
  · obtain ⟨k1', p1', h1', hem, ho⟩ :=
      (hac.owned p hp).processResetAllocations_ok (hac.counted p hp)
    cases h1.symm.trans h1'
    obtain ⟨hnd, hF⟩ := ho.freeing hem.refs_eq
    rcases resetStacks_ends hnd hF with ⟨-, herr⟩ | ⟨-, k', t, hok, hk', -, hfreed⟩
    · rw [herr] at h2; cases h2
    · cases h2.symm.trans hok
      exact ⟨hfreed, hk'⟩

/-- A process that has allocated a block and is being dumped: the node of the block has one
reference more than the block and the table account for. -/
theorem refcnt_eq_references_sample :
    (sampleState.processes.flatMap (·.nodes)).map (·.refcnt) = [3] ∧
      sampleState.heap.refcnt 0 = totalRefs sampleState.processes 0 :=
  ⟨rfl, (refcnt_eq_references reachable_sample).2.1 0⟩

/-! ## Open allocations -/

/-- The counter of open allocations is the number of blocks, so the check of
`process_reset_allocations` never fails. -/
theorem nAllocations_eq_size (h : Reachable o env doTrace c) :
    (∀ p ∈ c.processes, p.nAllocations = UInt64.ofNat p.blockTable.size ∧
      (p.blockTable.size < 2 ^ 64 → p.nAllocations.toNat = p.blockTable.size)) ∧
    ∀ e, c.step o env e ≠ .error (.fatal "invalid allocation count!\n") := by
  have hac := Reach.accounted h
  refine ⟨fun p hp => ?_, fun e he => ?_⟩
  · have hc : p.nAllocations = UInt64.ofNat p.blockTable.size :=
      length_toList p.blockTable ▸ hac.counted p hp
    refine ⟨hc, fun hlt => ?_⟩
    rw [hc, UInt64.toNat_ofNat']
    exact Nat.mod_eq_of_lt hlt
  · rcases (step_ends hac e).error he with ⟨hext | ⟨hf, -⟩, -⟩ | ⟨hf, -⟩
    · rcases hext.external with hf | hf
      · exact absurd hf (by decide)
      · exact absurd hf (by decide)
    · cases hf
    · exact absurd hf (by decide)

theorem nAllocations_eq_size_sample :
    sampleState.processes.map (·.nAllocations) = [1] ∧
      sampleState.step plainOptions plainEnv (.reset 1) ≠
        .error (.fatal "invalid allocation count!\n") :=
  ⟨rfl, (nAllocations_eq_size reachable_sample).2 (.reset 1)⟩

/-! ## Waiting dumps -/

/-- The process calls `exec` while the user looks at a page of its dump. -/
theorem attach_during_dump_aborts : Reachable plainOptions plainEnv true sampleState ∧
    sampleState.step plainOptions plainEnv (.msg 1 false (.attach true false)) =
      .error (.fatal "unexpected stack tree ref count!\n") :=
  ⟨reachable_sample, rfl⟩

/-- A message aborts the client over the references of a stack node exactly when it resets a record
while a dump of it waits. -/
theorem unexpected_refcnt_iff (h : Reachable o env doTrace c) (e : Event) :
    c.step o env e = .error (.fatal "unexpected stack tree ref count!\n") ↔ c.HitsDump o e := by
  have hends : Ends _ _ (c.step o env e) := step_ends (Reach.accounted h) e
  refine ⟨fun he => ?_, fun hhit => ?_⟩
  · rcases hends.error he with ⟨hext | ⟨hf, -⟩, -⟩ | ⟨-, hhit⟩
    · rcases hext.external with hf | hf
      · exact absurd hf (by decide)
      · exact absurd hf (by decide)
    · cases hf
    · exact hhit
  · rcases hs : c.step o env e with f | c'
    · rcases hends.error hs with ⟨-, hno⟩ | ⟨rfl, -⟩
      · exact absurd hhit hno
      · rfl
    · exact absurd hhit (hends.ok hs).1

theorem unexpected_refcnt_iff_sample :
    sampleState.HitsDump plainOptions (.msg 1 false (.attach true false)) ∧
      ¬ sampleState.HitsDump plainOptions (mallocEvent 0x603000 16) :=
  ⟨(unexpected_refcnt_iff reachable_sample _).mp rfl, fun h => by cases h.2.1⟩

end Mtrace.Client
