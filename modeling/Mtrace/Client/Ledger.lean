import Mtrace.Allocator
import Mtrace.Client.Table

/-!
# The ledger follows the heap

The block table of a traced process against the heap of that process: the client is told of the
calls of all threads in the order in which they begin and end, and whenever no `realloc` is in
progress its table is the set of live blocks.  While one is, the table lacks the block of the call,
which another thread may already have been given; the entry in `realloc_list` remembers it in case
the call fails.
-/

namespace Mtrace.Client

open RbTree Machine Allocator

/-- The operation and the backtrace that come with a message. -/
structure Report where
  op : MtOperation
  data : List UInt8

/-- The operation the client is told. -/
def Report.reported (m : Report) : Action UInt32 → MtOperation
  | .free _ => .free
  | .reallocBegin .. => .reallocEnter
  | .reallocDone .. => .realloc
  | _ => m.op

/-- The messages about an action, handled one after the other.  What a `realloc` does between its
beginning and its end is not reported. -/
def follow (o : Options) (env : Env) (k : Stacks) (p : Process) (m : Report) :
    Action UInt32 → Except Fault (Stacks × Process)
  | .alloc x => processAlloc o env k p m.op ⟨x.addr, x.size, m.data⟩
  | .free a => processFree o env k p .free ⟨a, 0, m.data⟩
  | .reallocBegin t a => processFree o env k p .reallocEnter ⟨a, t.toUInt64, m.data⟩
  | .release _ | .reserve .. => .ok (k, p)
  | .reallocDone t x => do
    let (k, p) ← processAlloc o env k p .realloc ⟨x.addr, x.size, m.data⟩
    processReallocDone o k p ⟨x.addr, t.toUInt64, []⟩
  | .reallocFail t => processReallocDone o k p ⟨0, t.toUInt64, []⟩

/-- A heap and the record that follows it. -/
structure Traced where
  heap : Heap UInt32
  k : Stacks
  p : Process

/-- One action of the heap, with the messages about it. -/
def Traced.step (o : Options) (env : Env) (s : Traced) (e : Action UInt32 × Report) :
    Except Fault Traced := do
  let (k, p) ← follow o env s.k s.p e.2 e.1
  return ⟨s.heap.next e.1, k, p⟩

/-! ## The refinement -/

/-- The record follows the heap: the table has the tracked blocks, and each `realloc` in progress
has its entry. -/
structure Follows (s : Traced) : Prop where
  heap : s.heap.WellFormed
  tracing : s.p.tracing = true
  ordered : s.p.Ordered
  blocks : ∀ a z, (∃ b ∈ s.p.blocks, b.addr = a ∧ b.size = z) ↔ s.heap.Tracked a z
  threads : (s.p.reallocList.map (·.pid)).Nodup
  entries : ∀ re ∈ s.p.reallocList, ∃ r, s.heap.pending re.pid = some r ∧
    re.addr = r.old.addr ∧ re.size = r.old.size
  calls : ∀ t, s.heap.pending t ≠ none → ∃ re ∈ s.p.reallocList, re.pid = t

section Refinement

variable {o : Options} {env : Env} {s : Traced} {k' : Stacks} {p' : Process} {m : Report}

namespace Follows

/-- A block of the table is live. -/
theorem live_of_mem (hs : Follows s) {b : RbBlock} (hb : b ∈ s.p.blocks) :
    s.heap.live b.addr = some b.size :=
  ((hs.blocks _ _).mp ⟨b, hb, rfl, rfl⟩).1

theorem startsIn_of_apart (hs : Follows s) {x : Span}
    (hx : ∀ a z, s.heap.live a = some z → x.Apart ⟨a, z⟩) :
    ∀ b ∈ s.p.blocks, startsIn x.addr x.size b = false := by
  intro b hb
  have hap := hx _ _ (hs.live_of_mem hb)
  by_contra hst
  obtain ⟨h1, h2, -⟩ := startsIn_iff.mp (Bool.not_eq_false _ ▸ hst)
  unfold Span.Apart Span.last at hap
  dsimp only at hap
  omega

theorem processAlloc (hs : Follows s) {x : Span} {op : MtOperation} {data : List UInt8}
    (hx : ∀ a z, s.heap.live a = some z → x.Apart ⟨a, z⟩)
    (hr : processAlloc o env s.k s.p op ⟨x.addr, x.size, data⟩ = .ok (k', p')) :
    p'.tracing = true ∧ p'.Ordered ∧ p'.reallocList = s.p.reallocList ∧
      ∀ a z, (∃ b ∈ p'.blocks, b.addr = a ∧ b.size = z) ↔
        a = x.addr ∧ z = x.size ∨ s.heap.Tracked a z := by
  have hch := processAlloc_chain (C := fun _ => True) trivial (fun _ _ _ _ => trivial)
    (fun _ _ => trivial) hr
  have hno : ∀ b ∈ s.p.blocks, b.addr ≠ x.addr := fun b hb heq =>
    (hx _ _ (hs.live_of_mem hb)).ne heq.symm
  obtain ⟨hlist, i, hmem⟩ := mem_processAlloc hs.ordered hs.tracing hr
  refine ⟨hch.tracing_eq.trans hs.tracing, hs.ordered.processAlloc (fun _ => .inr hno) hr, hlist,
    fun a z => ?_⟩
  rw [← hs.blocks]
  constructor
  · rintro ⟨b, hb, rfl, rfl⟩
    rcases (hmem b).mp hb with rfl | ⟨hb, -⟩
    · exact .inl ⟨rfl, rfl⟩
    · exact .inr ⟨b, hb, rfl, rfl⟩
  · rintro (⟨rfl, rfl⟩ | ⟨b, hb, hba, hbz⟩)
    · exact ⟨_, (hmem _).mpr (.inl rfl), rfl, rfl⟩
    · exact ⟨b, (hmem b).mpr (.inr ⟨hb, hs.startsIn_of_apart hx b hb⟩), hba, hbz⟩

/-- The block of an address that is live and not under a `realloc`. -/
theorem exists_block (hs : Follows s) {a : UInt64} (hl : s.heap.live a ≠ none)
    (hh : ¬ s.heap.Held a) : a ≠ 0 ∧ ∃ b ∈ s.p.blocks, b.addr = a := by
  obtain ⟨z, hz⟩ := Option.ne_none_iff_exists'.mp hl
  refine ⟨fun h0 => hl (h0 ▸ hs.heap.live_zero), ?_⟩
  obtain ⟨b, hb, hba, -⟩ := (hs.blocks a z).mpr ⟨hz, hh⟩
  exact ⟨b, hb, hba⟩

theorem processFree (hs : Follows s) {a t : UInt64} {op : MtOperation} {data : List UInt8}
    (hl : s.heap.live a ≠ none) (hh : ¬ s.heap.Held a)
    (hr : processFree o env s.k s.p op ⟨a, t, data⟩ = .ok (k', p')) :
    p'.tracing = true ∧ p'.Ordered ∧
      (∃ re, re.pid = t.toUInt32 ∧ re.addr = a ∧ s.heap.live a = some re.size ∧
        p'.reallocList = s.p.reallocList ++ if op = .reallocEnter then [re] else []) ∧
      ∀ b z, (∃ x ∈ p'.blocks, x.addr = b ∧ x.size = z) ↔ s.heap.Tracked b z ∧ b ≠ a := by
  obtain ⟨hz, b, hb, hba⟩ := hs.exists_block hl hh
  have hch := processFree_chain (C := fun _ => True) trivial (fun _ _ _ _ => trivial) hr
  obtain ⟨hlist, hmem⟩ := mem_processFree hs.ordered hs.tracing hz hb hba hr
  refine ⟨hch.tracing_eq.trans hs.tracing, hs.ordered.processFree hr,
    ⟨b.entry t.toUInt32, rfl, hba, hba ▸ hs.live_of_mem hb, hlist⟩, fun c z => ?_⟩
  rw [← hs.blocks]
  constructor
  · rintro ⟨x, hx, rfl, rfl⟩
    obtain ⟨hx, hne⟩ := (hmem x).mp hx
    exact ⟨⟨x, hx, rfl, rfl⟩, hne⟩
  · rintro ⟨⟨x, hx, rfl, rfl⟩, hne⟩
    exact ⟨x, (hmem x).mpr ⟨hx, hne⟩, rfl, rfl⟩

/-- A `realloc` call that moves on without a message. -/
theorem moveOn (hs : Follows s) {h : Heap UInt32} {t : UInt32} {r r' : Realloc}
    (hw : h.WellFormed) (hr : s.heap.pending t = some r)
    (hpend : h.pending = Function.update s.heap.pending t (some r')) (hold : r'.old = r.old)
    (htr : ∀ a z, h.Tracked a z ↔ s.heap.Tracked a z) : Follows ⟨h, s.k, s.p⟩ where
  heap := hw
  tracing := hs.tracing
  ordered := hs.ordered
  blocks a z := (hs.blocks a z).trans (htr a z).symm
  threads := hs.threads
  entries re hre := by
    obtain ⟨x, hx, haddr, hsize⟩ := hs.entries re hre
    show ∃ r, h.pending re.pid = some r ∧ _
    rw [hpend]
    by_cases ht : re.pid = t
    · rw [ht] at hx
      cases hr.symm.trans hx
      exact ⟨r', Heap.update_eq_some.mpr (.inl ⟨ht, rfl⟩), by rw [hold]; exact haddr,
        by rw [hold]; exact hsize⟩
    · exact ⟨x, Heap.update_eq_some.mpr (.inr ⟨ht, hx⟩), haddr, hsize⟩
  calls t' ht' := by
    refine hs.calls t' fun hnone => ht' ?_
    show h.pending t' = none
    rw [hpend, Function.update_of_ne]
    · exact hnone
    · rintro rfl
      rw [hnone] at hr
      cases hr

/-- The calls that are left when the call of a thread has ended. -/
theorem entries_ended (hs : Follows s) {res : List ReallocEntry} {re : ReallocEntry}
    (hres : ∀ x, x ∈ res ↔ x ∈ s.p.reallocList ∧ x.pid ≠ re.pid) {pend : UInt32 → Option Realloc}
    (hpend : pend = Function.update s.heap.pending re.pid none) :
    (∀ x ∈ res, ∃ r, pend x.pid = some r ∧ x.addr = r.old.addr ∧ x.size = r.old.size) ∧
      ∀ t, pend t ≠ none → ∃ x ∈ res, x.pid = t := by
  subst hpend
  constructor
  · intro x hx
    obtain ⟨hx, hne⟩ := (hres x).mp hx
    obtain ⟨r, hr, hrest⟩ := hs.entries x hx
    exact ⟨r, Heap.update_eq_some.mpr (.inr ⟨hne, hr⟩), hrest⟩
  · intro t ht
    obtain ⟨r, hr⟩ := Option.ne_none_iff_exists'.mp ht
    rcases Heap.update_eq_some.mp hr with ⟨-, h0⟩ | ⟨hne, hr⟩
    · cases h0
    · obtain ⟨x, hx, hpid⟩ := hs.calls t (by rw [hr]; exact Option.some_ne_none _)
      exact ⟨x, (hres x).mpr ⟨hx, hpid ▸ hne⟩, hpid⟩

theorem step_reallocBegin (hs : Follows s) {t : UInt32} {a : UInt64}
    (he : s.heap.Enabled (.reallocBegin t a)) (hp : s.heap.Proper (.reallocBegin t a))
    (hr : follow o env s.k s.p m (.reallocBegin t a) = .ok (k', p')) :
    Follows ⟨s.heap.next (.reallocBegin t a), k', p'⟩ := by
  have htrk := fun b z => Heap.tracked_reallocBegin (a := b) (s := z) he
  have hwf := hs.heap.next he hp
  obtain ⟨hnone, hl⟩ := he
  obtain ⟨htr, hord, ⟨re, hpid, haddr, hz, hlist⟩, hblocks⟩ := hs.processFree hl hp hr
  rw [if_pos rfl] at hlist
  replace hpid : re.pid = t := hpid.trans (UInt32.toUInt32_toUInt64 t)
  -- the thread had no entry, because it was in no call
  have hnew : ∀ x ∈ s.p.reallocList, x.pid ≠ t := fun x hx heq => by
    obtain ⟨r, hr, -⟩ := hs.entries x hx
    rw [heq, hnone] at hr
    cases hr
  rw [Heap.next_reallocBegin hz] at *
  refine ⟨hwf, htr, hord, fun b z => (hblocks b z).trans (htrk b z).symm, ?_, ?_, ?_⟩
  · show (p'.reallocList.map (·.pid)).Nodup
    rw [hlist, List.map_append, List.map_singleton, ← List.concat_eq_append]
    refine List.Nodup.concat (fun hmem => ?_) hs.threads
    obtain ⟨x, hx, hxpid⟩ := List.mem_map.mp hmem
    exact hnew x hx (hxpid.trans hpid)
  · intro x hx
    rw [hlist] at hx
    rcases List.mem_append.mp hx with hx | hx
    · obtain ⟨r, hr, hrest⟩ := hs.entries x hx
      exact ⟨r, Heap.update_eq_some.mpr (.inr ⟨hnew x hx, hr⟩), hrest⟩
    · rw [List.mem_singleton.mp hx]
      exact ⟨_, Heap.update_eq_some.mpr (.inl ⟨hpid, rfl⟩), haddr, rfl⟩
  · intro t' ht'
    show ∃ x ∈ p'.reallocList, x.pid = t'
    rw [hlist]
    by_cases heq : t' = t
    · exact ⟨re, by simp, hpid.trans heq.symm⟩
    · have hold : s.heap.pending t' ≠ none := fun h0 =>
        ht' ((Function.update_of_ne heq _ _).trans h0)
      obtain ⟨x, hx, hxpid⟩ := hs.calls t' hold
      exact ⟨x, List.mem_append_left _ hx, hxpid⟩

theorem step_reallocDone (hs : Follows s) {t : UInt32} {x : Span}
    (he : s.heap.Enabled (.reallocDone t x))
    (hr : follow o env s.k s.p m (.reallocDone t x) = .ok (k', p')) :
    Follows ⟨s.heap.next (.reallocDone t x), k', p'⟩ := by
  have htrk := fun b z => Heap.tracked_reallocDone (a := b) (s := z) hs.heap he
  have hwf := hs.heap.next he trivial
  obtain ⟨r, hpend, -, hnew⟩ := he
  obtain ⟨⟨k1, p1⟩, h1, h2⟩ := bind_eq_ok.mp hr
  replace h2 : processReallocDone o k1 p1 ⟨x.addr, t.toUInt64, []⟩ = .ok (k', p') := h2
  obtain ⟨htr, hord, hlist, hblocks⟩ :=
    hs.processAlloc (fun a z hl => hs.heap.apart hpend hnew hl) h1
  obtain ⟨re, hre, hpid⟩ := hs.calls t (by rw [hpend]; exact Option.some_ne_none _)
  have hx0 : x.addr ≠ 0 := hs.heap.new_ne hpend hnew
  obtain ⟨hsub, hres, i, hmem⟩ := mem_processReallocDone htr (hlist ▸ hs.threads)
    (hlist ▸ hre) (hpid.trans (UInt32.toUInt32_toUInt64 t).symm) h2
  have hch :=
    processReallocDone_chain (C := fun _ => True) trivial (fun _ _ _ _ _ _ _ _ _ => trivial)
    h2
  rw [hlist] at hres hsub
  obtain ⟨hent, hcalls⟩ := hs.entries_ended hres rfl
  rw [hpid] at hent hcalls
  refine ⟨hwf, hch.tracing_eq.trans htr, hord.processReallocDone (fun _ hrest => ?_) h2,
    fun a z => ?_, hs.threads.sublist (hsub.map _), hent, hcalls⟩
  · exact absurd hrest.2.1 hx0
  · refine Iff.trans ?_ ((hblocks a z).trans (htrk a z).symm)
    refine exists_congr fun b => and_congr_left fun _ => (hmem b).trans ?_
    exact ⟨fun hb => hb.elim (fun h0 => absurd h0.1.1 hx0) id, .inr⟩

theorem step_reallocFail (hs : Follows s) {t : UInt32} (he : s.heap.Enabled (.reallocFail t))
    (hr : follow o env s.k s.p m (.reallocFail t) = .ok (k', p')) :
    Follows ⟨s.heap.next (.reallocFail t), k', p'⟩ := by
  have hwf := hs.heap.next he trivial
  obtain ⟨r, hpend, hrel, hl⟩ := he
  have htrk := fun b z => Heap.tracked_reallocFail (a := b) (s := z) hs.heap hpend hrel
  replace hr : processReallocDone o s.k s.p ⟨0, t.toUInt64, []⟩ = .ok (k', p') := hr
  obtain ⟨re, hre, hpid⟩ := hs.calls t (by rw [hpend]; exact Option.some_ne_none _)
  obtain ⟨r', hr', haddr, hsize⟩ := hs.entries re hre
  rw [hpid] at hr'
  cases hpend.symm.trans hr'
  have ha0 : re.addr ≠ 0 := fun h0 => by
    rw [← haddr, h0, hs.heap.live_zero] at hl
    cases hl
  obtain ⟨hsub, hres, i, hmem⟩ := mem_processReallocDone hs.tracing hs.threads hre
    (hpid.trans (UInt32.toUInt32_toUInt64 t).symm) hr
  have hch :=
    processReallocDone_chain (C := fun _ => True) trivial (fun _ _ _ _ _ _ _ _ _ => trivial)
    hr
  obtain ⟨hent, hcalls⟩ := hs.entries_ended hres rfl
  rw [hpid] at hent hcalls
  refine ⟨hwf, hch.tracing_eq.trans hs.tracing,
    hs.ordered.processReallocDone (fun re' hrest => ?_) hr,
    fun a z => ?_, hs.threads.sublist (hsub.map _), hent, hcalls⟩
  · -- the table lacks the block of the call
    intro b hb heq
    obtain ⟨-, -, -, before, after, hf⟩ := hrest
    obtain ⟨hlist, hpid', -⟩ := findRealloc_eq_some hf
    obtain ⟨r', hr', haddr', -⟩ := hs.entries re' (hlist ▸ by simp)
    rw [hpid', show (t.toUInt64).toUInt32 = t from UInt32.toUInt32_toUInt64 t, hpend] at hr'
    cases hr'
    refine ((hs.blocks b.addr b.size).mp ⟨b, hb, rfl, rfl⟩).2 ⟨t, r, hpend, hrel, ?_⟩
    rw [heq, haddr']
  · refine Iff.trans ?_ (htrk a z).symm
    rw [← hs.blocks, ← haddr, ← hsize]
    constructor
    · rintro ⟨b, hb, rfl, rfl⟩
      rcases (hmem b).mp hb with ⟨-, rfl⟩ | hb
      · exact .inl ⟨rfl, rfl⟩
      · exact .inr ⟨b, hb, rfl, rfl⟩
    · rintro (⟨rfl, rfl⟩ | ⟨b, hb, hba, hbz⟩)
      · exact ⟨re.block i, (hmem _).mpr (.inl ⟨⟨rfl, ha0⟩, rfl⟩), rfl, rfl⟩
      · exact ⟨b, (hmem b).mpr (.inr hb), hba, hbz⟩

/-- One action and the messages about it. -/
theorem step (hs : Follows s) {s' : Traced} {e : Action UInt32 × Report} (he : s.heap.Enabled e.1)
    (hp : s.heap.Proper e.1) (h : s.step o env e = .ok s') : Follows s' := by
  obtain ⟨act, m⟩ := e
  obtain ⟨⟨k', p'⟩, hr, h⟩ := bind_eq_ok.mp h
  cases h
  have hwf := hs.heap.next he hp
  cases act with
  | alloc x =>
    obtain ⟨htr, hord, hlist, hblocks⟩ := hs.processAlloc he.live hr
    refine ⟨hwf, htr, hord, fun a z => (hblocks a z).trans (Heap.tracked_alloc hs.heap he).symm,
      ?_, ?_, ?_⟩
    · exact hlist ▸ hs.threads
    · exact hlist ▸ hs.entries
    · exact hlist ▸ hs.calls
  | free a =>
    obtain ⟨htr, hord, ⟨re, -, -, -, hlist⟩, hblocks⟩ := hs.processFree he hp hr
    rw [if_neg (by decide), List.append_nil] at hlist
    refine ⟨hwf, htr, hord, fun b z => (hblocks b z).trans Heap.tracked_free.symm, ?_, ?_, ?_⟩
    · exact hlist ▸ hs.threads
    · exact hlist ▸ hs.entries
    · exact hlist ▸ hs.calls
  | reallocBegin t a => exact hs.step_reallocBegin he hp hr
  | release t =>
    cases hr
    have htrk := fun a z => Heap.tracked_release (a := a) (s := z) hs.heap he
    obtain ⟨r, hpend, -, -⟩ := he
    exact hs.moveOn hwf hpend (congrArg Heap.pending (Heap.next_release hpend)) rfl htrk
  | reserve t x =>
    cases hr
    have htrk := fun a z => Heap.tracked_reserve (a := a) (s := z) he
    obtain ⟨r, hpend, -, -⟩ := he
    exact hs.moveOn hwf hpend (congrArg Heap.pending (Heap.next_reserve hpend)) rfl htrk
  | reallocDone t x => exact hs.step_reallocDone he hr
  | reallocFail t => exact hs.step_reallocFail he hr

theorem processAlloc_returns (hs : Follows s) {x : Span} {op : MtOperation} {data : List UInt8}
    {ext : NodeId → ℕ} {rest : StackId → ℕ} (ho : Owned s.k s.p ext rest) (hk : o.kill = false)
    (hx : ∀ a z, s.heap.live a = some z → x.Apart ⟨a, z⟩)
    (hadd : ∀ f, stackAdd env s.k s.p data op ≠ .error f) :
    Ends (fun _ => False) (fun _ => True)
      (Client.processAlloc o env s.k s.p op ⟨x.addr, x.size, data⟩) := by
  refine ho.processAlloc_ends.mono (fun f hf => ?_) fun _ _ => id
  rcases hf with hf | ⟨k1, p1, hev, hf⟩
  · rw [hf.2] at hk; cases hk
  · rw [evictLoop_of_none _ (hs.ordered.searchRange_eq_none.mpr (hs.startsIn_of_apart hx))] at hev
    cases hev
    exact hadd f hf

/-- The client handles the messages about an action if `stack_add` accepts their backtrace. -/
theorem step_returns (hs : Follows s) {e : Action UInt32 × Report} {ext : NodeId → ℕ}
    {rest : StackId → ℕ} (ho : Owned s.k s.p ext rest) (he : s.heap.Enabled e.1)
    (hk : o.kill = false)
    (hadd : ∀ f, stackAdd env s.k s.p e.2.data (e.2.reported e.1) ≠ .error f) :
    ∃ s', s.step o env e = .ok s' := by
  obtain ⟨act, m⟩ := e
  have hkill : ∀ f, ¬ Killed o f := fun f hf => by rw [hf.2] at hk; cases hk
  have hret : Ends (fun _ => False) (fun _ => True) (follow o env s.k s.p m act) := by
    cases act with
    | alloc x => exact hs.processAlloc_returns ho hk he.live hadd
    | free a =>
      exact ho.processFree_ends.mono (fun f hf => hf.elim (hkill f) (hadd f)) fun _ _ => id
    | reallocBegin t a =>
      exact ho.processFree_ends.mono (fun f hf => hf.elim (hkill f) (hadd f)) fun _ _ => id
    | release t => trivial
    | reserve t x => trivial
    | reallocDone t x =>
      obtain ⟨r, hpend, -, hnew⟩ := he
      refine (hs.processAlloc_returns ho hk (fun a z => hs.heap.apart hpend hnew) hadd).bind
        fun ⟨k1, p1⟩ h1 _ => ?_
      have ho1 := ho.chain (processAlloc_chain (C := fun _ => True) trivial
        (fun _ _ _ _ => trivial) (fun _ _ => trivial) h1)
      exact ho1.processReallocDone_ends.mono (fun f => hkill f) fun _ _ => id
    | reallocFail t => exact ho.processReallocDone_ends.mono (fun f => hkill f) fun _ _ => id
  rcases hr : follow o env s.k s.p m act with f | ⟨k', p'⟩
  · exact (hret.error hr).elim
  · exact ⟨⟨s.heap.next act, k', p'⟩, by rw [Traced.step, hr]; rfl⟩

end Follows

theorem owned_step {e : Action UInt32 × Report} {s' : Traced} {ext : NodeId → ℕ}
    {rest : StackId → ℕ} (ho : Owned s.k s.p ext rest) (h : s.step o env e = .ok s') :
    Owned s'.k s'.p ext rest := by
  obtain ⟨act, m⟩ := e
  obtain ⟨⟨k', p'⟩, hr, h⟩ := bind_eq_ok.mp h
  cases h
  have hchain : Chain (fun _ => True) (s.k, s.p) (k', p') := by
    cases act with
    | alloc x =>
      exact processAlloc_chain trivial (fun _ _ _ _ => trivial) (fun _ _ => trivial) hr
    | free a => exact processFree_chain trivial (fun _ _ _ _ => trivial) hr
    | reallocBegin t a => exact processFree_chain trivial (fun _ _ _ _ => trivial) hr
    | release t => cases hr; exact .refl
    | reserve t x => cases hr; exact .refl
    | reallocDone t x =>
      obtain ⟨⟨k1, p1⟩, h1, h2⟩ := bind_eq_ok.mp hr
      exact (processAlloc_chain trivial (fun _ _ _ _ => trivial) (fun _ _ => trivial) h1).trans
        (processReallocDone_chain trivial (fun _ _ _ _ _ _ _ _ _ => trivial) h2)
    | reallocFail t => exact processReallocDone_chain trivial (fun _ _ _ _ _ _ _ _ _ => trivial) hr
  exact ho.chain hchain

end Refinement

/-! ## Runs -/

/-- A record that has been told of nothing yet. -/
structure Process.Blank (p : Process) : Prop where
  tracing : p.tracing = true
  blocks : p.blocks = []
  reallocs : p.reallocList = []

/-- The states of a heap and its record, from an empty heap, under the actions that meet `ok`. -/
abbrev Tracks (o : Options) (env : Env) (ok : Heap UInt32 → Action UInt32 → Prop) (k : Stacks)
    (p : Process) : Traced → Prop :=
  Machine.Reach (Traced.step o env) (fun s e => s.heap.Enabled e.1 ∧ ok s.heap e.1)
    ⟨Heap.empty, k, p⟩

section Runs

variable {o : Options} {env : Env} {doTrace : Bool} {c : State} {k : Stacks} {p : Process}
  {s : Traced}

theorem follows_init (hp : p.Blank) : Follows ⟨Heap.empty, k, p⟩ where
  heap := Heap.wellFormed_empty
  tracing := hp.tracing
  ordered := .of_nil hp.blocks
  blocks a z := by
    show (∃ b ∈ p.blocks, _) ↔ _
    rw [hp.blocks]
    exact ⟨fun ⟨b, hb, _⟩ => (by cases hb), fun ⟨h0, _⟩ => (by cases h0)⟩
  threads := by
    show (p.reallocList.map _).Nodup
    rw [hp.reallocs]
    exact .nil
  entries re hre := by
    replace hre : re ∈ p.reallocList := hre
    rw [hp.reallocs] at hre
    cases hre
  calls t ht := absurd rfl ht

/-- While no `realloc` is in progress the table is the set of live blocks, whatever the threads have
done; and the client gets there, as long as `stack_add` accepts the backtraces. -/
theorem ledger_eq_live (hc : Reachable o env doTrace c) (hp : p ∈ c.processes) (hblank : p.Blank)
    (h : Tracks o env Heap.Proper c.heap p s) :
    (s.heap.Quiet → ∀ a z, (∃ b ∈ s.p.blocks, b.addr = a ∧ b.size = z) ↔ s.heap.live a = some z) ∧
    ∀ e, s.heap.Enabled e.1 → o.kill = false →
      (∀ f, stackAdd env s.k s.p e.2.data (e.2.reported e.1) ≠ .error f) →
      ∃ s', s.step o env e = .ok s' := by
  let ext := dumpRefs c.dumps p.pid
  let rest := otherRefs c.processes p.pid
  have ho : Owned c.heap p ext rest := (Reach.accounted hc).owned p hp
  obtain ⟨hs, hos⟩ : Follows s ∧ Owned s.k s.p ext rest :=
    h.invariant (P := fun s => Follows s ∧ Owned s.k s.p ext rest) ⟨follows_init hblank, ho⟩
      fun s e s' ⟨hs, hos⟩ hok hstep => ⟨hs.step hok.1 hok.2 hstep, owned_step hos hstep⟩
  refine ⟨fun hq a z => (hs.blocks a z).trans hq.tracked_iff, fun e he hk hadd => ?_⟩
  exact hs.step_returns hos he hk hadd

end Runs

/-! ## Sample runs -/

/-- The record of a process that has started. -/
def startRecord : Process :=
  { processNew 1 false true with
    is64bit := true
    filename := some "a.out"
    mapList := [⟨0, 0x400000, 0x1000, 0, "a.out"⟩] }

theorem mem_startEvents : startRecord ∈ (stateAfter startEvents).processes :=
  List.mem_singleton_self _

theorem fresh_of_none {h : Heap UInt32} {x : Span} (hfits : x.last ≤ 2 ^ 64)
    (hl : ∀ a z, h.live a = some z → x.Apart ⟨a, z⟩) (hr : ∀ t r, h.pending t = some r →
    r.new = none) :
    h.Fresh x :=
  ⟨hfits, hl, fun t r y ht hy => by rw [hr t r ht] at hy; cases hy⟩

/-- Two threads in a `realloc` of the same block: the call that fails puts the block back, and the
one that succeeds does not know it any more.  And a block at address `0`, which is not freed. -/
theorem ledger_strays :
    (∃ s, Tracks plainOptions plainEnv (fun _ _ => True) (stateAfter startEvents).heap
    startRecord s ∧
      s.heap.Quiet ∧ s.heap.live 0x1000 = none ∧ ∃ b ∈ s.p.blocks, b.addr = 0x1000) ∧
    ∃ s, Tracks plainOptions plainEnv (fun _ _ => True) (stateAfter startEvents).heap
    startRecord s ∧
      s.heap.Quiet ∧ s.heap.live 0 = none ∧ ∃ b ∈ s.p.blocks, b.addr = 0 := by
  constructor
  · refine ⟨_, .step (.step (.step (.step (.step (.step (.step .init
      (e := (.alloc ⟨0x1000, 16⟩, ⟨.malloc, callAt 0x10⟩)) ⟨?_, trivial⟩ rfl)
      (e := (.reallocBegin 1 0x1000, ⟨.reallocEnter, []⟩)) ⟨?_, trivial⟩ rfl)
      (e := (.reallocBegin 2 0x1000, ⟨.reallocEnter, []⟩)) ⟨?_, trivial⟩ rfl)
      (e := (.reallocFail 1, ⟨.reallocDone, []⟩)) ⟨?_, trivial⟩ rfl)
      (e := (.reserve 2 ⟨0x2000, 32⟩, ⟨.realloc, []⟩)) ⟨?_, trivial⟩ rfl)
      (e := (.release 2, ⟨.realloc, []⟩)) ⟨?_, trivial⟩ rfl)
      (e := (.reallocDone 2 ⟨0x2000, 32⟩, ⟨.realloc, callAt 0x20⟩)) ⟨?_, trivial⟩ rfl, ?_, rfl,
      ⟨_, List.mem_cons_self .., rfl⟩⟩
    · exact fresh_of_none (by decide) (fun a z h0 => by cases h0) fun t r h0 => by cases h0
    · exact ⟨rfl, Option.some_ne_none _⟩
    · exact ⟨rfl, Option.some_ne_none _⟩
    · exact ⟨_, rfl, rfl, rfl⟩
    · refine ⟨_, rfl, rfl, fresh_of_none (by decide) (fun a z hl => ?_) fun t r hr => ?_⟩
      · rcases Heap.update_eq_some.mp hl with ⟨rfl, ⟨⟩⟩ | ⟨-, ⟨⟩⟩
        exact .inr (by decide)
      · have hr' := Heap.of_update_none hr
        rcases Heap.update_eq_some.mp hr' with ⟨-, ⟨⟩⟩ | ⟨-, hr'⟩
        · rfl
        · rcases Heap.update_eq_some.mp hr' with ⟨-, ⟨⟩⟩ | ⟨-, ⟨⟩⟩
          rfl
    · exact ⟨_, rfl, rfl, rfl⟩
    · exact ⟨_, rfl, rfl, rfl⟩
    · intro t
      by_cases h2 : t = 2
      · subst h2; rfl
      by_cases h1 : t = 1
      · subst h1; rfl
      simp [Heap.next, Heap.empty, h1, h2]
  · refine ⟨_, .step (.step .init
      (e := (.alloc ⟨0, 16⟩, ⟨.malloc, callAt 0x10⟩)) ⟨?_, trivial⟩ rfl)
      (e := (.free 0, ⟨.free, []⟩)) ⟨?_, trivial⟩ rfl, fun _ => rfl, rfl,
      ⟨_, List.mem_cons_self .., rfl⟩⟩
    · exact fresh_of_none (by decide) (fun a z h0 => by cases h0) fun t r h0 => by cases h0
    · exact Option.some_ne_none _

/-- While thread 1 moves its block from `0x1000` to `0x2000`, another thread is given `0x1000`. -/
theorem tracks_swap : ∃ s : Traced,
    Tracks plainOptions plainEnv Heap.Proper (stateAfter startEvents).heap startRecord s ∧
      s.heap.Quiet ∧ s.heap.live 0x1000 = some 24 ∧ s.heap.live 0x2000 = some 32 := by
  -- after the release nothing is live
  have hnone : ∀ a z : UInt64, Function.update (Function.update (fun _ => none) 0x1000 (some 16))
      0x1000 none a ≠ some z := fun a z hl => by
    rcases Heap.update_eq_some.mp hl with ⟨-, ⟨⟩⟩ | ⟨hne, hl⟩
    rcases Heap.update_eq_some.mp hl with ⟨ha, -⟩ | ⟨-, ⟨⟩⟩
    exact hne ha
  refine ⟨_, .step (.step (.step (.step (.step (.step .init
    (e := (.alloc ⟨0x1000, 16⟩, ⟨.malloc, callAt 0x10⟩)) ⟨?_, (by decide : _ ≠ _)⟩ rfl)
    (e := (.reallocBegin 1 0x1000, ⟨.reallocEnter, []⟩)) ⟨⟨rfl, Option.some_ne_none _⟩, ?_⟩ rfl)
    (e := (.release 1, ⟨.realloc, []⟩)) ⟨⟨_, rfl, rfl, rfl⟩, trivial⟩ rfl)
    (e := (.alloc ⟨0x1000, 24⟩, ⟨.malloc, callAt 0x10⟩)) ⟨?_, (by decide : _ ≠ _)⟩ rfl)
    (e := (.reserve 1 ⟨0x2000, 32⟩, ⟨.realloc, []⟩)) ⟨⟨_, rfl, rfl, ?_⟩, (by decide : _ ≠ _)⟩ rfl)
    (e := (.reallocDone 1 ⟨0x2000, 32⟩, ⟨.realloc, callAt 0x20⟩)) ⟨⟨_, rfl, rfl, rfl⟩, trivial⟩ rfl,
    fun t => ?_, rfl, rfl⟩
  · exact fresh_of_none (by decide) (fun a z h0 => by cases h0) fun t r h0 => by cases h0
  · rintro ⟨t, r, ⟨⟩, -, -⟩
  · refine fresh_of_none (by decide) (fun a z hl => absurd hl (hnone a z)) fun t r hr => ?_
    rcases Heap.update_eq_some.mp hr with ⟨-, ⟨⟩⟩ | ⟨hne, hr⟩
    · rfl
    · rcases Heap.update_eq_some.mp hr with ⟨ht, -⟩ | ⟨-, ⟨⟩⟩
      exact absurd ht hne
  · refine fresh_of_none (by decide) (fun a z hl => ?_) fun t r hr => ?_
    · rcases Heap.update_eq_some.mp hl with ⟨rfl, ⟨⟩⟩ | ⟨-, hl⟩
      · exact .inr (by decide)
      · exact absurd hl (hnone a z)
    · rcases Heap.update_eq_some.mp hr with ⟨-, ⟨⟩⟩ | ⟨hne, hr⟩
      · rfl
      · rcases Heap.update_eq_some.mp hr with ⟨ht, -⟩ | ⟨-, ⟨⟩⟩
        exact absurd ht hne
  · simp [Heap.next, Heap.empty]

theorem ledger_eq_live_swap : ∃ s : Traced,
    (∀ a z, (∃ b ∈ s.p.blocks, b.addr = a ∧ b.size = z) ↔ s.heap.live a = some z) ∧
      s.heap.live 0x1000 = some 24 ∧ s.heap.live 0x2000 = some 32 := by
  obtain ⟨s, hrun, hq, h1, h2⟩ := tracks_swap
  exact ⟨s, (ledger_eq_live (reachable_stateAfter _) mem_startEvents ⟨rfl, rfl, rfl⟩ hrun).1 hq,
    h1, h2⟩

end Mtrace.Client
