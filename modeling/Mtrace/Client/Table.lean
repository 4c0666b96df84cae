import Mtrace.Client.Order
import Mtrace.Spans

/-!
# The handlers on the block table

What `process_alloc`, `process_free` and `process_realloc_done` do to the blocks of a record, block
by block and as a set of ranges.
-/

namespace Mtrace.Client

open RbTree Machine Allocator

/-! ## Blocks -/

section Blocks

variable {o : Options} {env : Env} {k : Stacks} {p : Process} {m : MtAllocPayload}
  {r : Stacks × Process}

theorem Changed.tracing_eq {l : Change} {s s' : Stacks × Process} (hc : Changed l s s') :
    s'.2.tracing = s.2.tracing := by
  cases hc <;> rfl

theorem Chain.tracing_eq {C : Change → Prop} {s s' : Stacks × Process} (hc : Chain C s s') :
    s'.2.tracing = s.2.tracing :=
  hc.invariant (P := fun r => r.2.tracing = s.2.tracing)
    (fun _ _ _ _ h hc => hc.tracing_eq.trans h) rfl

/-- The loop of `process_alloc` takes the blocks out that start in the range. -/
theorem mem_evictLoop {ptr size : UInt64} {fuel : ℕ} (h : p.Ordered)
    (hfuel : p.blockTable.size ≤ fuel) (hr : evictLoop o ptr size fuel k p = .ok r) :
    r.2.reallocList = p.reallocList ∧
      ∀ b, b ∈ r.2.blocks ↔ b ∈ p.blocks ∧ startsIn ptr size b = false := by
  obtain ⟨hord, hre, hsub, hsup⟩ := evictLoop_induct
    (P := fun _ p' => p'.Ordered ∧ p'.reallocList = p.reallocList ∧
      (∀ b ∈ p'.blocks, b ∈ p.blocks) ∧
      ∀ b ∈ p.blocks, startsIn ptr size b = false → b ∈ p'.blocks)
    (fun k' p' x n ⟨hord, hre, hsub, hsup⟩ hs _ => by
      have hx := (find_some hs).1
      refine ⟨hord.dropBlock hx, hre, fun b hb => hsub b (mem_of_mem_dropBlock hx hb),
        fun b hb hst => ?_⟩
      rw [blocks_dropBlock, hord.mem_erase hx]
      refine ⟨hsup b hb hst, fun haddr => ?_⟩
      rw [hord.eq_of_addr (hsup b hb hst) (mem_of_find hs) haddr,
        startsIn_of_searchRange hs] at hst
      cases hst)
    _ k p r ⟨h, rfl, fun _ hb => hb, fun _ hb _ => hb⟩ hr
  have hnone := hord.searchRange_eq_none.mp (evictLoop_done hfuel hr)
  exact ⟨hre, fun b => ⟨fun hb => ⟨hsub b hb, hnone b hb⟩, fun ⟨hb, hst⟩ => hsup b hb hst⟩⟩

/-- `process_alloc` adds its block in the place of those that start in it. -/
theorem mem_processAlloc {op : MtOperation} (h : p.Ordered) (ht : p.tracing = true)
    (hr : processAlloc o env k p op m = .ok r) : r.2.reallocList = p.reallocList ∧
      ∃ i, ∀ b, b ∈ r.2.blocks ↔ b = ⟨0, m.ptr, m.size, i⟩ ∨
        b ∈ p.blocks ∧ startsIn m.ptr m.size b = false := by
  rcases processAlloc_cases hr with ⟨hf, -⟩ | ⟨-, k1, p1, k2, p2, i, n, h1, h2, -, rfl⟩
  · rw [ht] at hf; cases hf
  obtain ⟨hre1, hmem⟩ := mem_evictLoop h le_rfl h1
  obtain ⟨-, hbl, hre⟩ := stackAdd_chain (C := fun _ => True) trivial h2
  refine ⟨hre.trans hre1, i, fun b => ?_⟩
  rw [← hmem, show p1.blocks = p2.blocks by rw [Process.blocks, Process.blocks, hbl]]
  exact mem_addBlock

theorem enterRealloc_list {op : MtOperation} {re : ReallocEntry}
    (h : enterRealloc k p op re = .ok r) :
    r.2.reallocList = p.reallocList ++ if op = .reallocEnter then [re] else [] := by
  unfold enterRealloc at h
  split at h
  next hop =>
    rw [if_pos hop]
    rcases reallocAdd_cases h with ⟨i, n, -, -, rfl⟩ | ⟨-, rfl⟩
    · rfl
    · rfl
  next hop =>
    cases h
    rw [if_neg hop, List.append_nil]

/-- `process_free` of a block takes it out of the table. -/
theorem mem_processFree {op : MtOperation} {b : RbBlock} (h : p.Ordered) (ht : p.tracing = true)
    (hz : m.ptr ≠ 0) (hb : b ∈ p.blocks) (haddr : b.addr = m.ptr)
    (hr : processFree o env k p op m = .ok r) :
    (r.2.reallocList = p.reallocList ++
      if op = .reallocEnter then [b.entry m.size.toUInt32] else []) ∧
      ∀ b', b' ∈ r.2.blocks ↔ b' ∈ p.blocks ∧ b'.addr ≠ m.ptr := by
  rcases processFree_cases hr with ⟨hf | hf, -⟩ | ⟨-, -, r1, hnote, hrest⟩
  · rw [ht] at hf; cases hf
  · exact absurd hf hz
  obtain ⟨-, hbl, hre⟩ := hnote.chain (C := fun _ => True) trivial
  rcases hrest with ⟨x, r2, n, hs, henter, -, rfl⟩ | ⟨hs, -⟩
  · have hx : x.val = b := h.eq_of_addr (mem_of_find hs) hb ((addr_of_search hs).trans haddr.symm)
    have hlist := enterRealloc_list henter
    rw [hre, hx] at hlist
    refine ⟨hlist, fun b' => ?_⟩
    have hbs : b' ∈ (r2.2.dropBlock x).blocks ↔ b' ∈ x.before ++ x.after := by
      rw [← toList_erase]; exact Iff.rfl
    rw [hbs, h.mem_erase (find_some hs).1, addr_of_search hs]
  · have hsome := (h.search_isSome m.ptr).mpr ⟨b, hb, haddr⟩
    rw [hs] at hsome
    cases hsome

theorem findRealloc_of_mem {t : UInt32} {res : List ReallocEntry} {re : ReallocEntry}
    (hre : re ∈ res) (hpid : re.pid = t) :
    ∃ before x after, findRealloc t res = some (before, x, after) := by
  induction res with
  | nil => cases hre
  | cons y ys ih =>
    unfold findRealloc
    by_cases hy : y.pid = t
    · exact ⟨[], y, ys, if_pos hy⟩
    · rw [if_neg hy]
      rcases List.mem_cons.mp hre with rfl | hre
      · exact absurd hpid hy
      · obtain ⟨before, x, after, hf⟩ := ih hre
        exact ⟨y :: before, x, after, by rw [hf]; rfl⟩

theorem reallocDel_list {before after : List ReallocEntry} {re : ReallocEntry}
    (h : reallocDel k p before re after = .ok r) :
    r.2.reallocList = before ++ after ∧ r.2.blocks = p.blocks := by
  rcases reallocDel_cases h with ⟨i, n, -, -, rfl⟩ | ⟨-, rfl⟩
  · exact ⟨rfl, rfl⟩
  · exact ⟨rfl, rfl⟩

/-- The entries left without that of a thread. -/
theorem mem_before_after {before after : List ReallocEntry} {re x : ReallocEntry}
    (h : ((before ++ re :: after).map (·.pid)).Nodup) :
    x ∈ before ++ after ↔ x ∈ before ++ re :: after ∧ x.pid ≠ re.pid := by
  rw [List.map_append, List.map_cons, List.nodup_middle, List.nodup_cons, ← List.map_append] at h
  have hne : ∀ y ∈ before ++ after, y.pid ≠ re.pid := fun y hy heq =>
    h.1 (heq ▸ List.mem_map_of_mem hy)
  constructor
  · intro hx
    refine ⟨?_, hne x hx⟩
    simp only [List.mem_append, List.mem_cons] at hx ⊢
    tauto
  · rintro ⟨hx, hx'⟩
    simp only [List.mem_append, List.mem_cons] at hx ⊢
    rcases hx with hx | rfl | hx
    · exact .inl hx
    · exact absurd rfl hx'
    · exact .inr hx

/-- `process_realloc_done` forgets the entry of the thread and puts its block back after a
failure. -/
theorem mem_processReallocDone {re : ReallocEntry} (ht : p.tracing = true)
    (hnodup : (p.reallocList.map (·.pid)).Nodup) (hre : re ∈ p.reallocList)
    (hpid : re.pid = m.size.toUInt32) (hr : processReallocDone o k p m = .ok r) :
    r.2.reallocList.Sublist p.reallocList ∧
      (∀ x, x ∈ r.2.reallocList ↔ x ∈ p.reallocList ∧ x.pid ≠ re.pid) ∧
      ∃ i, ∀ b, b ∈ r.2.blocks ↔
        (m.ptr = 0 ∧ re.addr ≠ 0) ∧ b = re.block i ∨ b ∈ p.blocks := by
  obtain ⟨before, x, after, hf⟩ := findRealloc_of_mem hre hpid
  obtain ⟨hlist, hxpid, -⟩ := findRealloc_eq_some hf
  have hx : x = re := by
    refine List.inj_on_of_nodup_map hnodup ?_ hre (hxpid.trans hpid.symm)
    rw [hlist]
    simp
  subst hx
  rcases processReallocDone_cases hr with ⟨h0 | h0, -⟩ | ⟨-, before', x', after', hf', hrest⟩
  · rw [ht] at h0; cases h0
  · rw [hf] at h0; cases h0
  cases hf.symm.trans hf'
  have hmem : ∀ y, y ∈ before ++ after ↔ y ∈ p.reallocList ∧ y.pid ≠ x.pid := fun y => by
    rw [hlist] at hnodup ⊢
    exact mem_before_after hnodup
  have hsub : (before ++ after).Sublist p.reallocList :=
    hlist ▸ (List.sublist_cons_self ..).append_left _
  rcases hrest with ⟨i, n, hz, ha, -, -, hdel⟩ | ⟨hno, hdel⟩
  · obtain ⟨hl, hb⟩ := reallocDel_list hdel
    refine ⟨hl ▸ hsub, hl ▸ hmem, i, fun b => ?_⟩
    rw [hb, mem_addBlock, and_iff_right ⟨hz, ha⟩]
  · obtain ⟨hl, hb⟩ := reallocDel_list hdel
    refine ⟨hl ▸ hsub, hl ▸ hmem, 0, fun b => ?_⟩
    rw [hb]
    constructor
    · exact .inr
    · rintro (⟨⟨hz, ha⟩, -⟩ | hb)
      · exact (hno.elim (absurd hz) (fun h0 => absurd h0 ha))
      · exact hb

end Blocks

/-! ## Ranges -/

def RbBlock.span (b : RbBlock) : Span := ⟨b.addr, b.size⟩

/-- The ranges of the blocks. -/
def Process.spans (p : Process) : Set Span := {s | ∃ b ∈ p.blocks, b.span = s}

/-- The range a message is about. -/
def range (m : MtAllocPayload) : Span := ⟨m.ptr, m.size⟩

section Ranges

variable {o : Options} {env : Env} {k : Stacks} {p : Process} {m : MtAllocPayload}
  {r : Stacks × Process}

theorem startsIn_iff_span {R : Span} {b : RbBlock} :
    startsIn R.addr R.size b = true ↔ b.span.StartsIn R ∧ R.last < 2 ^ 64 :=
  startsIn_iff.trans and_assoc.symm

theorem mem_spans {b : RbBlock} (hb : b ∈ p.blocks) : b.span ∈ p.spans := ⟨b, hb, rfl⟩

theorem spans_congr {p' : Process} (h : p'.blockTable = p.blockTable) : p'.spans = p.spans := by
  unfold Process.spans Process.blocks
  rw [h]

theorem spans_dropBlock (h : p.Ordered) {x : Loc RbBlock} (hx : x.tree = p.blockTable) :
    (p.dropBlock x).spans = release x.val.addr p.spans := by
  ext s
  constructor
  · rintro ⟨b, hb, rfl⟩
    rw [blocks_dropBlock, h.mem_erase hx] at hb
    exact ⟨mem_spans hb.1, hb.2⟩
  · rintro ⟨⟨b, hb, rfl⟩, hne⟩
    refine mem_spans ?_
    rw [blocks_dropBlock, h.mem_erase hx]
    exact ⟨hb, hne⟩

theorem spans_trimBlock (h : p.Ordered) {x : Loc RbBlock} (hx : x.tree = p.blockTable)
    (size : UInt64) : (p.trimBlock x size).spans =
      insert ⟨x.val.addr + size, x.val.size - size⟩ (release x.val.addr p.spans) := by
  rw [← spans_dropBlock h hx]
  ext s
  simp only [Process.spans, blocks_trimBlock, blocks_dropBlock, Set.mem_ofPred_eq,
    Set.mem_insert_iff, List.mem_append, List.mem_cons]
  constructor
  · rintro ⟨b, hb | rfl | hb, rfl⟩
    · exact .inr ⟨b, .inl hb, rfl⟩
    · exact .inl rfl
    · exact .inr ⟨b, .inr hb, rfl⟩
  · rintro (rfl | ⟨b, hb | hb, rfl⟩)
    · exact ⟨_, .inr (.inl rfl), rfl⟩
    · exact ⟨b, .inl hb, rfl⟩
    · exact ⟨b, .inr (.inr hb), rfl⟩

theorem spans_addBlock (p : Process) (b : RbBlock) :
    (p.addBlock b).spans = insert b.span p.spans := by
  ext s
  constructor
  · rintro ⟨b', hb, rfl⟩
    rcases mem_addBlock.mp hb with rfl | hb
    · exact .inl rfl
    · exact .inr (mem_spans hb)
  · rintro (rfl | ⟨b', hb, rfl⟩)
    · exact mem_spans (mem_addBlock.mpr (.inl rfl))
    · exact mem_spans (mem_addBlock.mpr (.inr hb))

/-- A range that reaches the end of the address space evicts nothing. -/
theorem spans_processAlloc {op : MtOperation} (h : p.Ordered) (ht : p.tracing = true)
    (hr : processAlloc o env k p op m = .ok r) :
    r.2.spans = insert (range m)
      (if (range m).last < 2 ^ 64 then evict (range m) p.spans else p.spans) := by
  obtain ⟨-, i, hmem⟩ := mem_processAlloc h ht hr
  have hst : ∀ b, startsIn m.ptr m.size b = true ↔ b.span.StartsIn (range m) ∧
      (range m).last < 2 ^ 64 := fun b => startsIn_iff_span (R := range m)
  ext s
  constructor
  · rintro ⟨b, hb, rfl⟩
    rcases (hmem b).mp hb with rfl | ⟨hb, hno⟩
    · exact .inl rfl
    · refine .inr ?_
      split
      next hlt =>
        refine ⟨mem_spans hb, fun hin => ?_⟩
        rw [(hst b).mpr ⟨hin, hlt⟩] at hno
        cases hno
      next => exact mem_spans hb
  · rintro (rfl | hs)
    · exact ⟨_, (hmem _).mpr (.inl rfl), rfl⟩
    · split at hs
      next hlt =>
        obtain ⟨⟨b, hb, rfl⟩, hno⟩ := hs
        refine mem_spans ((hmem b).mpr (.inr ⟨hb, ?_⟩))
        rw [← Bool.not_eq_true, hst]
        exact fun hin => hno hin.1
      next hge =>
        obtain ⟨b, hb, rfl⟩ := hs
        refine mem_spans ((hmem b).mpr (.inr ⟨hb, ?_⟩))
        rw [← Bool.not_eq_true, hst]
        exact fun hin => hge hin.2

/-- `process_free`, with the entry it makes for a `realloc`. -/
theorem spans_processFree {op : MtOperation} (h : p.Ordered) (ht : p.tracing = true)
    (hz : m.ptr ≠ 0) (hr : processFree o env k p op m = .ok r) :
    r.2.spans = release m.ptr p.spans ∧ ∃ re : ReallocEntry, re.pid = m.size.toUInt32 ∧
      (r.2.reallocList = p.reallocList ++ if op = .reallocEnter then [re] else []) ∧
      (re.addr = 0 ∧ release m.ptr p.spans = p.spans ∨
        re.addr = m.ptr ∧ (⟨re.addr, re.size⟩ : Span) ∈ p.spans) := by
  by_cases hex : ∃ b ∈ p.blocks, b.addr = m.ptr
  · obtain ⟨b, hb, haddr⟩ := hex
    obtain ⟨hlist, hmem⟩ := mem_processFree h ht hz hb haddr hr
    refine ⟨?_, b.entry m.size.toUInt32, rfl, hlist, .inr ⟨haddr, mem_spans hb⟩⟩
    ext s
    constructor
    · rintro ⟨b', hb', rfl⟩
      obtain ⟨hb', hne⟩ := (hmem b').mp hb'
      exact ⟨mem_spans hb', hne⟩
    · rintro ⟨⟨b', hb', rfl⟩, hne⟩
      exact mem_spans ((hmem b').mpr ⟨hb', hne⟩)
  · have hself : release m.ptr p.spans = p.spans := by
      refine release_eq_self.mpr ?_
      rintro _ ⟨b, hb, rfl⟩ haddr
      exact hex ⟨b, hb, haddr⟩
    rcases processFree_cases hr with ⟨hf | hf, -⟩ | ⟨-, -, r1, hnote, hrest⟩
    · rw [ht] at hf; cases hf
    · exact absurd hf hz
    obtain ⟨-, hbl, hre⟩ := hnote.chain (C := fun _ => True) trivial
    rcases hrest with ⟨x, r2, n, hs, -⟩ | ⟨-, henter⟩
    · exact absurd ⟨x.val, mem_of_find hs, addr_of_search hs⟩ hex
    · have hlist := enterRealloc_list henter
      obtain ⟨-, hbl'⟩ := enterRealloc_chain (C := fun _ => True) trivial (fun _ => ⟨_, rfl⟩) henter
      refine ⟨?_, _, rfl, by rw [hlist, hre], .inl ⟨rfl, hself⟩⟩
      rw [hself]
      exact spans_congr (hbl'.trans hbl)

theorem findRealloc_append {res : List ReallocEntry} {re : ReallocEntry}
    (h : ∀ x ∈ res, x.pid ≠ re.pid) : findRealloc re.pid (res ++ [re]) = some (res, re, []) := by
  induction res with
  | nil => exact if_pos rfl
  | cons x res ih =>
    obtain ⟨hx, hres⟩ := List.forall_mem_cons.mp h
    rw [List.cons_append, findRealloc, if_neg hx, ih hres]
    rfl

/-- `process_realloc_done` of a thread whose entry is the last one. -/
theorem spans_processReallocDone {res : List ReallocEntry} {re : ReallocEntry}
    (ht : p.tracing = true) (hlist : p.reallocList = res ++ [re])
    (hres : ∀ x ∈ res, x.pid ≠ re.pid) (hpid : re.pid = m.size.toUInt32)
    (hr : processReallocDone o k p m = .ok r) : r.2.spans =
      if m.ptr = 0 ∧ re.addr ≠ 0 then insert ⟨re.addr, re.size⟩ p.spans else p.spans := by
  have hf : findRealloc m.size.toUInt32 p.reallocList = some (res, re, []) := by
    rw [hlist, ← hpid]
    exact findRealloc_append hres
  rcases processReallocDone_cases hr with ⟨h0 | h0, -⟩ | ⟨-, before, x, after, hf', hrest⟩
  · rw [ht] at h0; cases h0
  · rw [hf] at h0; cases h0
  cases hf.symm.trans hf'
  rcases hrest with ⟨i, n, hz, ha, -, -, hdel⟩ | ⟨hno, hdel⟩
  · rw [if_pos ⟨hz, ha⟩]
    unfold Process.spans
    rw [(reallocDel_list hdel).2]
    exact spans_addBlock p (re.block i)
  · rw [if_neg fun h => hno.elim (absurd h.1) fun h0 => h.2 h0]
    unfold Process.spans
    rw [(reallocDel_list hdel).2]

end Ranges

end Mtrace.Client
