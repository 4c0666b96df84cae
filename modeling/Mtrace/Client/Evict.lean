import Mtrace.Client.Table

/-!
# Making room

What `process_alloc` evicts for a new block: the blocks that start in its range, found by a search
that computes the end of the range in 64 bits.  A block that starts before the range and reaches
into it stays, and so does everything when the range reaches the end of the address space.
-/

namespace Mtrace.Client

open RbTree Machine Allocator

/-- The block `x` has taken the place of what it overlaps, and the rest is as it was. -/
structure MadeRoom (x : Span) (p p' : Process) : Prop where
  alone : ∃ as b bs, p'.blocks = as ++ b :: bs ∧ b.span = x ∧ ∀ b' ∈ as ++ bs, x.Apart b'.span
  others : ∀ b ∈ p.blocks, x.Apart b.span → b ∈ p'.blocks

/-- The blocks that overlap `x` start in it, and if there is one then `x` ends before the last
address. -/
def Evictable (x : Span) (bs : List RbBlock) : Prop :=
  ∀ b ∈ bs, x.Apart b.span ∨ b.span.StartsIn x ∧ x.last < 2 ^ 64

section Evict

variable {o : Options} {env : Env} {k : Stacks} {p : Process} {m : MtAllocPayload}
  {op : MtOperation} {r : Stacks × Process}

/-- `process_alloc` links its block between those that are not evicted. -/
theorem blocks_processAlloc (h : p.Ordered) (ht : p.tracing = true)
    (hr : processAlloc o env k p op m = .ok r) : ∃ as i bs,
      r.2.blocks = as ++ ⟨0, m.ptr, m.size, i⟩ :: bs ∧
        ∀ b, b ∈ as ++ bs ↔ b ∈ p.blocks ∧ startsIn m.ptr m.size b = false := by
  rcases processAlloc_cases hr with ⟨hf, -⟩ | ⟨-, k1, p1, k2, p2, i, n, h1, h2, -, rfl⟩
  · rw [ht] at hf; cases hf
  obtain ⟨-, hmem⟩ := mem_evictLoop h le_rfl h1
  obtain ⟨-, hbl, -⟩ := stackAdd_chain (C := fun _ => True) trivial h2
  obtain ⟨as, bs, hold, hnew⟩ := blocks_addBlock p2 ⟨0, m.ptr, m.size, i⟩
  refine ⟨as, i, bs, hnew, fun b => ?_⟩
  rw [← hold, ← hmem, Process.blocks, hbl]

theorem processAlloc_madeRoom_iff (h : p.Ordered) (ht : p.tracing = true)
    (hr : processAlloc o env k p op m = .ok r) :
    MadeRoom (range m) p r.2 ↔ Evictable (range m) p.blocks := by
  obtain ⟨as, i, bs, hblocks, hmem⟩ := blocks_processAlloc h ht hr
  have hst : ∀ b, startsIn m.ptr m.size b = true ↔ b.span.StartsIn (range m) ∧
      (range m).last < 2 ^ 64 := fun b => startsIn_iff_span (R := range m)
  have hlen := (range m).addr_lt_last
  constructor
  · rintro ⟨⟨as', b', bs', hblocks', hb', halone⟩, -⟩ b hb
    by_cases hin : startsIn m.ptr m.size b = true
    · exact .inr ((hst b).mp hin)
    · left
      -- the list without its one block at the range
      have hsplit : (as ++ ⟨0, m.ptr, m.size, i⟩ :: bs).Perm (as' ++ b' :: bs') :=
        (hblocks.symm.trans hblocks') ▸ .refl _
      have hnew : (⟨0, m.ptr, m.size, i⟩ : RbBlock) = b' := by
        have hmem' : (⟨0, m.ptr, m.size, i⟩ : RbBlock) ∈ as' ++ b' :: bs' :=
          hsplit.subset (by simp)
        rcases (by simpa [or_left_comm] using hmem') with heq | hmem'
        · exact heq
        · have hap := halone _ (by simpa using hmem')
          exact absurd rfl hap.ne
      subst hnew
      have hperm : (as ++ bs).Perm (as' ++ bs') :=
        List.Perm.cons_inv (List.perm_middle.symm.trans (hsplit.trans List.perm_middle))
      exact halone b (hperm.subset ((hmem b).mpr ⟨hb, Bool.not_eq_true _ ▸ hin⟩))
  · intro hev
    refine ⟨⟨as, _, bs, hblocks, rfl, fun b hb => ?_⟩, fun b hb hap => ?_⟩
    · obtain ⟨hb', hno⟩ := (hmem b).mp hb
      rcases hev b hb' with hap | hin
      · exact hap
      · rw [(hst b).mpr hin] at hno
        cases hno
    · have hno : startsIn m.ptr m.size b = false := by
        rw [← Bool.not_eq_true, hst]
        exact fun hin => hin.1.not_apart hap
      have hb' := (hmem b).mpr ⟨hb, hno⟩
      rw [hblocks]
      rw [List.mem_append] at hb' ⊢
      exact hb'.imp id (List.mem_cons_of_mem _)

/-- A block of two pages. -/
def twoPages : State := stateAfter (startEvents ++ [mallocEvent 0x1000 0x2000])

theorem twoPages_table : Reachable plainOptions plainEnv true twoPages ∧
    ∃ p ∈ twoPages.processes, p.tracing = true ∧ p.blocks = [⟨0, 0x1000, 0x2000, 0⟩] ∧
      ∀ ptr, ptr = 0x1000 ∨ ptr = 0x2000 → ∃ r, processAlloc plainOptions plainEnv twoPages.heap p
        .malloc ⟨ptr, 0x3000, callAt 0x10⟩ = .ok r := by
  refine ⟨reachable_stateAfter _, _, List.mem_singleton_self _, rfl, rfl, ?_⟩
  rintro _ (rfl | rfl)
  · exact ⟨_, rfl⟩
  · exact ⟨_, rfl⟩

theorem twoPages_ordered (h : p.blocks = [⟨0, 0x1000, 0x2000, 0⟩]) : p.Ordered := by
  rw [Process.Ordered, h]
  exact List.pairwise_singleton ..

/-- A longer block takes the place of the old one at its address. -/
theorem processAlloc_madeRoom_same : ∃ p ∈ twoPages.processes, ∃ r,
    processAlloc plainOptions plainEnv twoPages.heap p .malloc ⟨0x1000, 0x3000,
    callAt 0x10⟩ = .ok r ∧
      MadeRoom ⟨0x1000, 0x3000⟩ p r.2 := by
  obtain ⟨-, p, hp, ht, hb, hr⟩ := twoPages_table
  obtain ⟨r, hr⟩ := hr 0x1000 (.inl rfl)
  refine ⟨p, hp, r, hr, (processAlloc_madeRoom_iff (twoPages_ordered hb) ht hr).mpr ?_⟩
  rw [hb]
  intro b hb
  cases List.mem_singleton.mp hb
  exact .inr ⟨⟨by decide, by decide⟩, by decide⟩

/-- A block that begins in the middle of the old one leaves it where it is. -/
theorem lower_page_stays : Reachable plainOptions plainEnv true twoPages ∧
    ∃ p ∈ twoPages.processes, p.tracing = true ∧ p.Ordered ∧ ∃ r,
      processAlloc plainOptions plainEnv twoPages.heap p .malloc ⟨0x2000, 0x3000,
        callAt 0x10⟩ = .ok r ∧
        ¬ MadeRoom ⟨0x2000, 0x3000⟩ p r.2 := by
  obtain ⟨hreach, p, hp, ht, hb, hr⟩ := twoPages_table
  obtain ⟨r, hr⟩ := hr 0x2000 (.inr rfl)
  have hord := twoPages_ordered hb
  refine ⟨hreach, p, hp, ht, hord, r, hr, fun hroom => ?_⟩
  obtain ⟨as, b, bs, hblocks, hspan, halone⟩ := hroom.alone
  obtain ⟨-, i, hmem⟩ := mem_processAlloc hord ht hr
  have hold : (⟨0, 0x1000, 0x2000, 0⟩ : RbBlock) ∈ as ++ b :: bs := by
    rw [← hblocks, hmem, hb]
    exact .inr ⟨List.mem_singleton_self _, rfl⟩
  have hother : (⟨0, 0x1000, 0x2000, 0⟩ : RbBlock) ∈ as ++ bs := by
    rcases List.mem_append.mp hold with h | h
    · exact List.mem_append_left _ h
    · rcases List.mem_cons.mp h with rfl | h
      · cases hspan
      · exact List.mem_append_right _ h
  have hap := halone _ hother
  revert hap
  unfold Span.Apart
  decide

end Evict

end Mtrace.Client
