import Mtrace.Client.Ledger
import Mtrace.Client.Unmap
import Mtrace.Server.Api

/-!
# From a call to the table

The messages the server sends about a call, handled by the client, against the effect of the call on
the ranges the process holds.

1. `handle`: the handler of a message, as `client_func` chooses it.
2. `Api.Met`: when the block table of the client has, after the messages, the ranges that the
   process holds after the call.
3. `calls_met_iff`: it has them exactly then.
-/

namespace Mtrace

open RbTree Machine Allocator Client Server

/-! ## The client -/

/-- The handler of a message. -/
def handle (o : Options) (env : Env) (k : Stacks) (p : Process) (m : Message) :
    Except Fault (Stacks × Process) :=
  if isAllocOp m.1 then processAlloc o env k p m.1 m.2
  else if isFreeOp m.1 then processFree o env k p m.1 m.2
  else if m.1 = .reallocDone then processReallocDone o k p m.2
  else if m.1 = .munmap then processMunmap o k p m.2
  else .ok (k, p)

def handleAll (o : Options) (env : Env) :
    List Message → Stacks → Process → Except Fault (Stacks × Process)
  | [], k, p => .ok (k, p)
  | m :: ms, k, p => do
    let (k, p) ← handle o env k p m
    handleAll o env ms k p

/-- The message of the server as the client reads it. -/
def readMessage (m : Message) : Option MtMsg :=
  if h : isAllocOp m.1 = true then some (.alloc m.1 h m.2)
  else if h : isFreeOp m.1 = true then some (.free m.1 h m.2)
  else if m.1 = .reallocDone then some (.reallocDone m.2)
  else if m.1 = .munmap then some (.munmap m.2)
  else none

/-- `handle` is what the client does with the record of the process. -/
theorem dispatch_eq_handle {o : Options} {env : Env} {m : Message} {msg : MtMsg}
    (h : readMessage m = some msg) (c : State) (p : Process) :
    c.dispatch o env p msg = do
      let (k, p) ← handle o env c.heap p m
      return c.store k p := by
  unfold readMessage at h
  unfold handle
  by_cases h1 : isAllocOp m.1 = true
  · rw [dif_pos h1] at h
    cases h
    rw [if_pos h1]
    rfl
  rw [dif_neg h1] at h
  rw [if_neg h1]
  by_cases h2 : isFreeOp m.1 = true
  · rw [dif_pos h2] at h
    cases h
    rw [if_pos h2]
    rfl
  rw [dif_neg h2] at h
  rw [if_neg h2]
  by_cases h3 : m.1 = .reallocDone
  · rw [if_pos h3] at h
    cases h
    rw [if_pos h3]
    rfl
  rw [if_neg h3] at h
  rw [if_neg h3]
  by_cases h4 : m.1 = .munmap
  · rw [if_pos h4] at h
    cases h
    rw [if_pos h4]
    rfl
  · rw [if_neg h4] at h
    cases h

/-- A table that can be right: it is traced and in order, and its ranges can be held at once. -/
structure Table (limit : ℕ) (p : Process) : Prop where
  tracing : p.tracing = true
  ordered : p.Ordered
  laid : Laid limit p.spans

/-! ## When the table is right -/

/-- `process_munmap` takes the range out; a call at address `0` is not reported. -/
def Unmaps (p : Process) (R : Span) : Prop :=
  if R.addr = 0 then ∀ s ∈ p.spans, R.Apart s
  else NoReach R p.spans ∧ Sweeps p.mmapped p.blockTable R

/-- `process_munmap` changes no range. -/
def Keeps (p : Process) (R : Span) : Prop := R.addr = 0 ∨ Idle p R

/-- What the call obtains, releases, and how it fails is told right.  For `posix_memalign` a wrong
report is right where it is about ranges that the table has. -/
def Api.Tells (a : Api) (cfg : Config) (c : Call) (p : Process) : Prop :=
  match a with
  | .malloc | .calloc | .memalign => c.retval ≠ 0 → a.told cfg c = a.asked c
  | .posixMemalign => c.retval = 0 →
    c.peeked = c.stored ∧ (c.stored ≠ 0 → c.reread 2 = c.param 2) ∨
      (c.stored ≠ 0 → ⟨c.stored, c.param 2⟩ ∈ p.spans) ∧
        (c.peeked ≠ 0 → ⟨c.peeked, c.reread 2⟩ ∈ p.spans)
  | .realloc =>
    if c.retval = 0 then c.param 1 = 0 → ∀ s ∈ p.spans, s.addr ≠ c.param 0
    else c.reread 1 = c.param 1
  | .reallocarray => (c.retval ≠ 0 → a.told cfg c = a.asked c) ∧
    ∀ s ∈ p.spans, a.freed c = some s.addr → ∃ x, a.obtained c = some x ∧ s.StartsIn x
  | .mmap | .mmap64 =>
    if c.retval = c.failed then c.failed = cfg.mapFailed
    else c.retval ≠ 0 ∧ a.told cfg c = a.asked c
  | .munmap =>
    match a.unmapped c with
    | some R => Unmaps p R
    | none => Keeps p ⟨c.param 0, c.param 1⟩
  | .mremap => (c.retval ≠ c.failed ∧ c.retval ≠ 0 ∧ c.reread 2 = c.param 2) ∧
    match a.unmapped c with
    | some R => Unmaps p R
    | none => Keeps p ⟨c.param 0, c.param 1⟩
  | .free => True

/-- The table is right after the call: the reporter at the entry reads the arguments as they are,
the effect is told right, and no range that is left reaches over an end of the one obtained. -/
structure Api.Met (a : Api) (cfg : Config) (c : Call) (p : Process) : Prop where
  read : ∀ i < a.taken, c.entered i = c.param i
  tells : a.Tells cfg c p
  clean : ∀ x, a.obtained c = some x → Clean x (a.released c p.spans)

section Handlers

variable {o : Options} {env : Env} {k : Stacks} {p : Process} {r : Stacks × Process}

theorem handle_alloc {op : MtOperation} {m : MtAllocPayload} (hop : isAllocOp op = true) :
    handle o env k p (op, m) = processAlloc o env k p op m := if_pos hop

theorem handle_free {op : MtOperation} {m : MtAllocPayload} (hop : isFreeOp op = true) :
    handle o env k p (op, m) = processFree o env k p op m := by
  have hno : ¬ isAllocOp op = true := by revert hop; cases op <;> decide
  exact (if_neg hno).trans (if_pos hop)

theorem handleAll_cons {m : Message} {ms : List Message}
    (h : handleAll o env (m :: ms) k p = .ok r) :
    ∃ k' p', handle o env k p m = .ok (k', p') ∧ handleAll o env ms k' p' = .ok r := by
  obtain ⟨⟨k', p'⟩, h1, h2⟩ := bind_eq_ok.mp h
  exact ⟨k', p', h1, h2⟩

theorem handleAll_append {ms ms' : List Message} (h : handleAll o env (ms ++ ms') k p = .ok r) :
    ∃ k' p', handleAll o env ms k p = .ok (k', p') ∧ handleAll o env ms' k' p' = .ok r := by
  induction ms generalizing k p with
  | nil => exact ⟨k, p, rfl, h⟩
  | cons m ms ih =>
    obtain ⟨k1, p1, h1, h2⟩ := handleAll_cons h
    obtain ⟨k', p', h3, h4⟩ := ih h2
    refine ⟨k', p', ?_, h4⟩
    rw [handleAll, h1]
    exact h3

theorem handleAll_tell {op : MtOperation} {y : Span} {data : List UInt8}
    (hop : isAllocOp op = true) (h : handleAll o env (tell op (some y) data) k p = .ok r) :
    processAlloc o env k p op ⟨y.addr, y.size, data⟩ = .ok r := by
  obtain ⟨k1, p1, h1, h2⟩ := handleAll_cons h
  cases h2
  rw [handle_alloc hop] at h1
  exact h1

/-- The message about a range that was obtained. -/
theorem spans_tell {op : MtOperation} {y : Span} {data : List UInt8} (hord : p.Ordered)
    (ht : p.tracing = true) (hop : isAllocOp op = true)
    (h : handleAll o env (tell op (some y) data) k p = .ok r) :
    r.2.spans = insert y (if y.last < 2 ^ 64 then evict y p.spans else p.spans) :=
  spans_processAlloc hord ht (handleAll_tell hop h)

theorem handleAll_munmap {R : Span}
    (h : handleAll o env (emit .munmap R.addr R.size []) k p = .ok r) :
    R.addr = 0 ∧ r = (k, p) ∨
      R.addr ≠ 0 ∧ processMunmap o k p ⟨R.addr, R.size, []⟩ = .ok r := by
  by_cases hz : R.addr = 0
  · rw [emit_of_eq_zero hz] at h
    cases h
    exact .inl ⟨hz, rfl⟩
  · rw [emit_of_ne_zero hz] at h
    obtain ⟨k1, p1, h1, h2⟩ := handleAll_cons h
    cases h2
    exact .inr ⟨hz, h1⟩

theorem spans_emit_munmap_iff {R : Span} (ht : Table (2 ^ 64) p) (hR : R.last < 2 ^ 64)
    (hs : R.size ≠ 0) (h : handleAll o env (emit .munmap R.addr R.size []) k p = .ok r) :
    r.2.spans = cut R p.spans ↔ Unmaps p R := by
  unfold Unmaps
  rcases handleAll_munmap h with ⟨hz, rfl⟩ | ⟨hz, h⟩
  · rw [if_pos hz, eq_comm]
    exact cut_eq_self_iff ht.laid.separate
  · rw [if_neg hz]
    exact spans_processMunmap_iff (m := ⟨R.addr, R.size, []⟩) ht.tracing ht.ordered ht.laid.separate
      hR hs h

theorem spans_emit_munmap_self_iff {R : Span} (ht : Table (2 ^ 64) p)
    (h : handleAll o env (emit .munmap R.addr R.size []) k p = .ok r) :
    r.2.spans = p.spans ↔ Keeps p R := by
  unfold Keeps
  rcases handleAll_munmap h with ⟨hz, rfl⟩ | ⟨hz, h⟩
  · exact iff_of_true rfl (.inl hz)
  · rw [spans_processMunmap_self_iff ht.tracing ht.ordered ht.laid.separate h]
    exact ⟨.inr, fun h' => h'.resolve_left hz⟩

/-- The table after the message about a range that is unmapped. -/
theorem table_emit_munmap {R : Span} (ht : Table (2 ^ 64) p)
    (h : handleAll o env (emit .munmap R.addr R.size []) k p = .ok r) :
    r.2.tracing = true ∧ r.2.Ordered ∧
      ∀ t ∈ r.2.spans, ∃ s ∈ p.spans, s.addr.toNat ≤ t.addr.toNat ∧ t.last ≤ s.last := by
  rcases handleAll_munmap h with ⟨-, rfl⟩ | ⟨-, h⟩
  · exact ⟨ht.tracing, ht.ordered, fun t ht' => ⟨t, ht', le_rfl, le_rfl⟩⟩
  · have hch := processMunmap_chain (C := fun _ => True)
      (fun _ _ _ _ _ _ _ _ _ => by split <;> trivial) h
    refine ⟨hch.tracing_eq.trans ht.tracing, ht.ordered.processMunmap (fun _ => ?_) h, ?_⟩
    · -- no block starts inside another one
      intro b hb _ _ _
      refine .inl ⟨(ht.laid.fits _ (mem_spans hb)).le.trans' ?_, fun b' hb' hlt => ?_⟩
      · show _ ≤ b.addr.toNat + max b.size.toNat 1
        omega
      · have hne : b.span ≠ b'.span := fun heq =>
          UInt64.ne_of_lt hlt (congrArg Span.addr heq)
        rw [UInt64.lt_iff_toNat_lt] at hlt
        rcases ht.laid.apart (mem_spans hb) (mem_spans hb') hne with hap | hap
        · have hap' : b.addr.toNat + max b.size.toNat 1 ≤ b'.addr.toNat := hap
          omega
        · have hap' : b'.addr.toNat + max b'.size.toNat 1 ≤ b.addr.toNat := hap
          omega
    · rw [processMunmap_eq ht.tracing] at h
      exact (munmapLoop_within ht.ordered ht.laid.separate h).1

end Handlers

/-! ## The calls -/

section Calls

variable {o : Options} {env : Env} {k : Stacks} {p : Process} {r : Stacks × Process}
  {a : Api} {cfg : Config} {c : Call} {ms : List Message}

theorem effect_of_some {x : Span} {T : Set Span} (h : a.obtained c = some x) :
    a.effect c T = place x (a.released c T) := by
  unfold Api.effect
  rw [h]
  rfl

theorem effect_of_none {T : Set Span} (h : a.obtained c = none) :
    a.effect c T = a.released c T := by
  unfold Api.effect
  rw [h]
  rfl

theorem released_of_freed {q : UInt64} {T : Set Span} (h : a.freed c = some q) :
    a.released c T = release q T := by
  unfold Api.released
  rw [h]

theorem released_of_unmapped {R : Span} {T : Set Span} (h : a.freed c = none)
    (h' : a.unmapped c = some R) : a.released c T = cut R T := by
  unfold Api.released
  rw [h, h']

theorem released_of_none {T : Set Span} (h : a.freed c = none) (h' : a.unmapped c = none) :
    a.released c T = T := by
  unfold Api.released
  rw [h, h']

theorem clean_iff_of_some {x : Span} {T : Set Span} (h : a.obtained c = some x) :
    (∀ y, a.obtained c = some y → Clean y T) ↔ Clean x T := by
  rw [h]
  exact ⟨fun h => h x rfl, fun h y hy => by cases hy; exact h⟩

theorem clean_of_none {T : Set Span} (h : a.obtained c = none) :
    ∀ y, a.obtained c = some y → Clean y T := fun y hy => by rw [h] at hy; cases hy

/-- A call that changes nothing, and is not reported. -/
theorem exact_of_none (hrel : a.released c p.spans = p.spans) (hob : a.obtained c = none)
    (hr : handleAll o env [] k p = .ok r) :
    r.2.spans = a.effect c p.spans ∧
      ∀ y, a.obtained c = some y → Clean y (a.released c p.spans) := by
  cases hr
  exact ⟨by rw [effect_of_none hob, hrel], clean_of_none hob⟩

/-- A call that releases nothing and obtains a range, which is told of by its address. -/
theorem exact_of_some {op : MtOperation} {x y : Span} {data : List UInt8} (ht : Table (2 ^ 64) p)
    (ha : a.Allows c) (hop : isAllocOp op = true) (hrel : a.released c p.spans = p.spans)
    (hob : a.obtained c = some x) (haddr : y.addr = x.addr)
    (hr : handleAll o env (tell op (some y) data) k p = .ok r) :
    r.2.spans = a.effect c p.spans ↔
      y.size = x.size ∧ ∀ z, a.obtained c = some z → Clean z (a.released c p.spans) := by
  have hx : x.last < 2 ^ 64 := (ha.obtained x hob).trans_le (limit_le c)
  rw [effect_of_some hob, clean_iff_of_some hob, hrel, spans_tell ht.ordered ht.tracing hop hr]
  exact insert_eq_place_iff_of_addr ht.laid hx rfl haddr

/-- An allocator that returns the new block, or nothing. -/
theorem exact_of_retval {op : MtOperation} {size : UInt64} {data : List UInt8}
    (ht : Table (2 ^ 64) p) (ha : a.Allows c) (hop : isAllocOp op = true)
    (hrel : a.released c p.spans = p.spans)
    (hob : a.obtained c = if c.retval = 0 then none else some ⟨c.retval, size⟩)
    (hrep : a.reported cfg c = if c.retval = 0 then none else some ⟨c.retval, a.told cfg c⟩)
    (hr : handleAll o env (tell op (a.reported cfg c) data) k p = .ok r) :
    r.2.spans = a.effect c p.spans ↔ (c.retval ≠ 0 → a.told cfg c = size) ∧
      ∀ y, a.obtained c = some y → Clean y (a.released c p.spans) := by
  rw [hrep] at hr
  by_cases hz : c.retval = 0
  · rw [if_pos hz] at hob hr
    have hnone := exact_of_none hrel hob hr
    exact iff_of_true hnone.1 ⟨fun h => absurd hz h, hnone.2⟩
  · rw [if_neg hz] at hob hr
    rw [exact_of_some (y := ⟨c.retval, a.told cfg c⟩) ht ha hop hrel hob rfl hr]
    exact and_congr_left fun _ => ⟨fun h _ => h, fun h => h hz⟩

/-- A call that releases nothing, and what is told of it. -/
theorem exact_of_reported {op : MtOperation} {data : List UInt8} (ht : Table (2 ^ 64) p)
    (ha : a.Allows c) (hop : isAllocOp op = true) (hrel : a.released c p.spans = p.spans)
    (hr : handleAll o env (tell op (a.reported cfg c) data) k p = .ok r) :
    r.2.spans = a.effect c p.spans ↔
      (a.reported cfg c = a.obtained c ∨ (∀ x, a.obtained c = some x → x ∈ p.spans) ∧
        ∀ y, a.reported cfg c = some y → y ∈ p.spans) ∧
      ∀ y, a.obtained c = some y → Clean y (a.released c p.spans) := by
  have hclean : (∀ x, a.obtained c = some x → x ∈ p.spans) →
      ∀ y, a.obtained c = some y → Clean y (a.released c p.spans) :=
    fun h y hy => by
      rw [hrel]
      exact ht.laid.separate.clean (h y hy)
  have heffect : a.effect c p.spans = placing (a.obtained c) p.spans := by
    unfold Api.effect
    rw [hrel]
  cases hrep : a.reported cfg c with
  | none =>
    rw [hrep] at hr
    cases hr
    rw [heffect]
    cases hob : a.obtained c with
    | none => exact iff_of_true rfl ⟨.inl rfl, fun y hy => (by cases hy)⟩
    | some x =>
      constructor
      · intro h
        have hx : x ∈ p.spans := h ▸ Set.mem_insert x (cut x p.spans)
        have hall : ∀ y, some x = some y → y ∈ p.spans := fun y hy => Option.some.inj hy ▸ hx
        exact ⟨.inr ⟨hall, fun y hy => (by cases hy)⟩, hob ▸ hclean (hob ▸ hall)⟩
      · rintro ⟨h | h, -⟩
        · cases h
        · exact (ht.laid.place_of_mem (h.1 x rfl)).symm
  | some y =>
    rw [hrep] at hr
    by_cases hsame : some y = a.obtained c
    · rw [exact_of_some ht ha hop hrel hsame.symm rfl hr]
      exact and_congr_left fun _ => ⟨fun _ => .inl hsame, fun _ => rfl⟩
    · rw [heffect, spans_tell ht.ordered ht.tracing hop hr,
        insert_eq_placing_iff ht.laid rfl hsame]
      constructor
      · rintro ⟨hx, hy⟩
        exact ⟨.inr ⟨hx, fun z hz => Option.some.inj hz ▸ hy⟩, hclean hx⟩
      · rintro ⟨h | h, -⟩
        · exact absurd h hsame
        · exact ⟨h.1, h.2 y rfl⟩

theorem exact_posixMemalign (ht : Table (2 ^ 64) p) (ha : Api.posixMemalign.Allows c)
    (hem : Api.posixMemalign.Emits cfg c ms) (hr : handleAll o env ms k p = .ok r) :
    r.2.spans = Api.posixMemalign.effect c p.spans ↔ Api.posixMemalign.Tells cfg c p ∧
      ∀ y, Api.posixMemalign.obtained c = some y → Clean y p.spans := by
  obtain ⟨op, data, hop, rfl⟩ := hem
  refine (exact_of_reported ht ha hop rfl hr).trans (and_congr_left fun _ => ?_)
  have hob : Api.posixMemalign.obtained c =
    if c.retval ≠ 0 ∨ c.stored = 0 then none else some ⟨c.stored, c.param 2⟩ := rfl
  have hrep : Api.posixMemalign.reported cfg c =
    if c.retval ≠ 0 ∨ c.peeked = 0 then none else some ⟨c.peeked, c.reread 2⟩ := rfl
  rw [hob, hrep]
  by_cases hret : c.retval = 0
  swap
  · rw [if_pos (.inl hret), if_pos (.inl hret)]
    exact iff_of_true (.inl rfl) fun h => absurd h hret
  have hor : ∀ n : UInt64, (c.retval ≠ 0 ∨ n = 0) ↔ n = 0 := fun n => or_iff_right fun h => h hret
  simp only [hor]
  refine Iff.trans (or_congr ?_ (and_congr ?_ ?_)) ⟨fun h _ => h, fun h => h hret⟩
  · by_cases hp : c.peeked = 0
    · by_cases hs : c.stored = 0
      · rw [if_pos hp, if_pos hs]
        exact iff_of_true rfl ⟨hp.trans hs.symm, fun h => absurd hs h⟩
      · rw [if_pos hp, if_neg hs]
        exact iff_of_false (fun h => by cases h) fun h => hs (h.1.symm.trans hp)
    · by_cases hs : c.stored = 0
      · rw [if_neg hp, if_pos hs]
        exact iff_of_false (fun h => by cases h) fun h => hp (h.1.trans hs)
      · rw [if_neg hp, if_neg hs]
        constructor
        · intro h
          obtain ⟨haddr, hsize⟩ := Span.mk.inj (Option.some.inj h)
          exact ⟨haddr, fun _ => hsize⟩
        · rintro ⟨haddr, hsize⟩
          rw [haddr, hsize hs]
  · by_cases hs : c.stored = 0
    · rw [if_pos hs]
      exact iff_of_true (fun x hx => by cases hx) fun h => absurd hs h
    · rw [if_neg hs]
      exact ⟨fun h _ => h _ rfl, fun h x hx => Option.some.inj hx ▸ h hs⟩
  · by_cases hp : c.peeked = 0
    · rw [if_pos hp]
      exact iff_of_true (fun x hx => by cases hx) fun h => absurd hp h
    · rw [if_neg hp]
      exact ⟨fun h _ => h _ rfl, fun h x hx => Option.some.inj hx ▸ h hp⟩

theorem exact_free (ht : Table (2 ^ 64) p) (hread : c.entered 0 = c.param 0)
    (hem : Api.free.Emits cfg c ms) (hr : handleAll o env ms k p = .ok r) :
    r.2.spans = Api.free.effect c p.spans := by
  obtain ⟨op, data, hop, -, rfl⟩ := hem
  show r.2.spans = release (c.param 0) p.spans
  rw [hread] at hr
  by_cases hz : c.param 0 = 0
  · rw [emit_of_eq_zero hz] at hr
    cases hr
    rw [hz, ht.laid.release_zero]
  · rw [emit_of_ne_zero hz] at hr
    obtain ⟨k1, p1, h1, h2⟩ := handleAll_cons hr
    cases h2
    rw [handle_free hop] at h1
    exact (spans_processFree ht.ordered ht.tracing hz h1).1

/-! ### `mmap` -/

theorem toNat_failed (c : Call) : c.failed.toNat + 1 = c.limit := by
  unfold Call.failed Call.limit Task.narrow
  cases c.task.is64bit <;> rfl

/-- The tables have no range at `MAP_FAILED`. -/
theorem failed_not_mem (ht : Table c.limit p) (n : UInt64) : (⟨c.failed, n⟩ : Span) ∉ p.spans := by
  intro hmem
  have hlt := ht.laid.fits _ hmem
  have hf := toNat_failed c
  have : c.failed.toNat + max n.toNat 1 < c.limit := hlt
  omega

theorem failed_ne_zero (c : Call) : c.failed ≠ 0 := by
  unfold Call.failed Task.narrow
  cases c.task.is64bit <;> decide

/-- A return value is `MAP_FAILED` for the server only if it is for the task. -/
theorem eq_failed_of_mapFailed (ha : a.Allows c)
    (hw : c.task.is64bit = true → cfg.long64 = true) (h : c.retval = cfg.mapFailed) :
    c.retval = c.failed := by
  have hlt := ha.retval
  unfold Call.limit at hlt
  unfold Config.mapFailed Config.ulong at h
  unfold Call.failed Task.narrow
  cases hb : c.task.is64bit with
  | true =>
    rw [hw hb] at h
    exact h
  | false =>
    rw [hb] at hlt
    cases hl : cfg.long64 with
    | true =>
      rw [h, hl] at hlt
      exact absurd hlt (by decide)
    | false =>
      rw [hl] at h
      exact h

/-- `mmap` and `mmap64`. -/
theorem exact_mmap {op : MtOperation} {data : List UInt8} (ht : Table c.limit p)
    (ha : a.Allows c) (hop : isAllocOp op = true)
    (hw : c.task.is64bit = true → cfg.long64 = true)
    (hob : a.obtained c = if c.retval = c.failed then none else some ⟨c.retval, a.asked c⟩)
    (hrep : a.reported cfg c =
      if c.retval = cfg.mapFailed ∨ c.retval = 0 then none else some ⟨c.retval, a.told cfg c⟩)
    (hrel : a.released c p.spans = p.spans)
    (hr : handleAll o env (tell op (a.reported cfg c) data) k p = .ok r) :
    r.2.spans = a.effect c p.spans ↔
      (if c.retval = c.failed then c.failed = cfg.mapFailed
        else c.retval ≠ 0 ∧ a.told cfg c = a.asked c) ∧
      ∀ y, a.obtained c = some y → Clean y (a.released c p.spans) := by
  have ht' : Table (2 ^ 64) p := ⟨ht.tracing, ht.ordered, ht.laid.weaken (limit_le c)⟩
  rw [hrep] at hr
  by_cases hf : c.retval = c.failed
  · rw [if_pos hf] at hob ⊢
    by_cases hm : c.failed = cfg.mapFailed
    · rw [if_pos (.inl (hf.trans hm))] at hr
      have := exact_of_none hrel hob hr
      exact iff_of_true this.1 ⟨hm, this.2⟩
    · -- the failure goes to the client as a mapping
      have hz : c.retval ≠ 0 := fun h => failed_ne_zero c (hf.symm.trans h)
      rw [if_neg fun h => h.elim (fun h => hm (hf.symm.trans h)) hz] at hr
      refine iff_of_false (fun heq => ?_) fun h => hm h.1
      rw [effect_of_none hob, hrel, spans_tell ht.ordered ht.tracing hop hr, hf] at heq
      exact failed_not_mem ht (a.told cfg c) (heq ▸ Set.mem_insert ..)
  · rw [if_neg hf] at hob ⊢
    have hm : c.retval ≠ cfg.mapFailed := fun h => hf (eq_failed_of_mapFailed ha hw h)
    by_cases hz : c.retval = 0
    · -- a mapping at address `0` is not reported
      rw [if_pos (.inr hz)] at hr
      cases hr
      refine iff_of_false (fun heq => ?_) fun h => h.1.1 hz
      rw [effect_of_some hob, hrel] at heq
      exact ht.laid.ne_zero ⟨c.retval, a.asked c⟩ (heq ▸ Set.mem_insert ..) hz
    · rw [if_neg fun h => h.elim hm hz] at hr
      rw [exact_of_some (y := ⟨c.retval, a.told cfg c⟩) ht' ha hop hrel hob rfl hr]
      exact and_congr_left fun _ => ⟨fun h => ⟨hz, h⟩, fun h => h.2⟩

/-! ### `realloc` -/

theorem weaken_table (ht : Table c.limit p) : Table (2 ^ 64) p :=
  ⟨ht.tracing, ht.ordered, ht.laid.weaken (limit_le c)⟩

theorem release_eq_self_of_ne {T : Set Span} {q : UInt64} :
    T = release q T ↔ ∀ s ∈ T, s.addr ≠ q := eq_comm.trans release_eq_self

/-- The end of a `realloc` call: the table lacks the old block, which comes back if the call has
failed. -/
theorem spans_reallocDone {T : Set Span} {res : List ReallocEntry} {re : ReallocEntry}
    {q ret : UInt64} {t : UInt32} (hT : Laid (2 ^ 64) T) (hq : q ≠ 0)
    (ht : p.tracing = true) (hlist : p.reallocList = res ++ [re])
    (hres : ∀ x ∈ res, x.pid ≠ re.pid) (hpid : re.pid = t)
    (hentry : re.addr = 0 ∧ release q T = T ∨ re.addr = q ∧ (⟨re.addr, re.size⟩ : Span) ∈ T)
    (hspans : ret = 0 → p.spans = release q T)
    (hr : handleAll o env [(.reallocDone, ⟨ret, t.toUInt64, []⟩)] k p = .ok r) :
    r.2.spans = if ret = 0 then T else p.spans := by
  obtain ⟨k1, p1, h1, h2⟩ := handleAll_cons hr
  cases h2
  have hdone := spans_processReallocDone (m := ⟨ret, t.toUInt64, []⟩) ht hlist hres
    (hpid.trans (UInt32.toUInt32_toUInt64 t).symm) h1
  dsimp only at hdone
  rw [hdone]
  by_cases hz : ret = 0
  · rw [if_pos hz, hspans hz]
    rcases hentry with ⟨h0, hself⟩ | ⟨ha, hmem⟩
    · rw [if_neg fun h => h.2 h0, hself]
    · rw [if_pos ⟨hz, fun h0 => hq (ha.symm.trans h0)⟩]
      ext s
      constructor
      · rintro (rfl | hs)
        · exact hmem
        · exact hs.1
      · intro hs
        by_cases haddr : s.addr = q
        · exact .inl (hT.separate.eq_of_addr hs hmem (haddr.trans ha.symm))
        · exact .inr ⟨hs, haddr⟩
  · rw [if_neg hz, if_neg fun h => hz h.1]

/-- The table after the messages about a `realloc` whose block was read right. -/
theorem spans_realloc (ht : Table (2 ^ 64) p) (hread : c.entered 0 = c.param 0)
    (hpend : ∀ re ∈ p.reallocList, re.pid ≠ c.task.pid) (hem : Api.realloc.Emits cfg c ms)
    (hr : handleAll o env ms k p = .ok r) :
    r.2.spans = if c.retval = 0 then p.spans
      else insert ⟨c.retval, c.reread 1⟩ (if Span.last ⟨c.retval, c.reread 1⟩ < 2 ^ 64 then
        evict ⟨c.retval, c.reread 1⟩ (release (c.param 0) p.spans)
        else release (c.param 0) p.spans) := by
  obtain ⟨data, data', rfl⟩ := hem
  have hrep : Api.realloc.reported cfg c =
    if c.retval = 0 then none else some ⟨c.retval, c.reread 1⟩ := rfl
  rw [hread, hrep] at hr
  obtain ⟨k2, p2, hr, hdone⟩ := handleAll_append hr
  obtain ⟨k1, p1, henter, halloc⟩ := handleAll_append hr
  by_cases hq : c.param 0 = 0
  · -- a plain allocation
    rw [emit_of_eq_zero hq] at henter
    rw [if_pos hq] at hdone
    cases henter
    cases hdone
    rw [hq, ht.laid.release_zero]
    by_cases hz : c.retval = 0
    · rw [if_pos hz] at halloc
      cases halloc
      rw [if_pos hz]
    · rw [if_neg hz] at halloc ⊢
      exact spans_tell ht.ordered ht.tracing rfl halloc
  rw [emit_of_ne_zero hq] at henter
  rw [if_neg hq] at hdone
  obtain ⟨k1', p1', h1, h2⟩ := handleAll_cons henter
  cases h2
  have hfree : processFree o env k p .reallocEnter ⟨c.param 0, c.task.pid.toUInt64, data⟩ =
    .ok (k1, p1) := h1
  obtain ⟨hsp, re, hpid, hlist, hentry⟩ := spans_processFree ht.ordered ht.tracing hq hfree
  rw [if_pos rfl] at hlist
  replace hpid : re.pid = c.task.pid := hpid.trans (UInt32.toUInt32_toUInt64 _)
  have hres : ∀ x ∈ p.reallocList, x.pid ≠ re.pid := fun x hx => hpid ▸ hpend x hx
  have hch := processFree_chain (C := fun _ => True) trivial (fun _ _ _ _ => trivial) hfree
  have ht1 : p1.tracing = true := hch.tracing_eq.trans ht.tracing
  have hord1 : p1.Ordered := ht.ordered.processFree hfree
  by_cases hz : c.retval = 0
  · rw [if_pos hz] at halloc
    cases halloc
    rw [spans_reallocDone ht.laid hq ht1 hlist hres hpid hentry (fun _ => hsp) hdone, if_pos hz,
      if_pos hz]
  · rw [if_neg hz] at halloc
    have hp2 := handleAll_tell (show isAllocOp .realloc = true from rfl) halloc
    have hch2 := processAlloc_chain (C := fun _ => True) trivial (fun _ _ _ _ => trivial)
      (fun _ _ => trivial) hp2
    rw [spans_reallocDone ht.laid hq (hch2.tracing_eq.trans ht1)
      ((mem_processAlloc hord1 ht1 hp2).1.trans hlist) hres hpid hentry
        (fun h => absurd h hz) hdone,
      if_neg hz, if_neg hz, ← hsp]
    exact spans_tell hord1 ht1 rfl halloc

theorem exact_realloc (ht : Table (2 ^ 64) p) (ha : Api.realloc.Allows c)
    (hread : c.entered 0 = c.param 0) (hpend : ∀ re ∈ p.reallocList, re.pid ≠ c.task.pid)
    (hem : Api.realloc.Emits cfg c ms) (hr : handleAll o env ms k p = .ok r) :
    r.2.spans = Api.realloc.effect c p.spans ↔ Api.realloc.Tells cfg c p ∧
      ∀ x, Api.realloc.obtained c = some x → Clean x (Api.realloc.released c p.spans) := by
  rw [spans_realloc ht hread hpend hem hr]
  unfold Api.Tells
  dsimp only
  have hfreed : Api.realloc.freed c =
    if c.retval ≠ 0 ∨ c.param 1 = 0 then some (c.param 0) else none := rfl
  by_cases hz : c.retval = 0
  · have hob : Api.realloc.obtained c = none := if_pos hz
    rw [if_pos hz, if_pos hz, effect_of_none hob]
    by_cases hn : c.param 1 = 0
    · rw [if_pos (.inr hn)] at hfreed
      rw [released_of_freed hfreed, release_eq_self_of_ne]
      exact ⟨fun h => ⟨fun _ => h, clean_of_none hob⟩, fun h => h.1 hn⟩
    · rw [if_neg fun h => h.elim (absurd hz) hn] at hfreed
      rw [released_of_none hfreed rfl]
      exact iff_of_true rfl ⟨fun h => absurd h hn, clean_of_none hob⟩
  · have hob : Api.realloc.obtained c = some ⟨c.retval, c.param 1⟩ := if_neg hz
    have hx := (ha.obtained _ hob).trans_le (limit_le c)
    rw [if_pos (.inl hz)] at hfreed
    rw [if_neg hz, if_neg hz, effect_of_some hob, clean_iff_of_some hob, released_of_freed hfreed]
    exact insert_eq_place_iff_of_addr (ht.laid.mono (release_subset _ _)) hx rfl rfl

theorem exact_reallocarray (ht : Table (2 ^ 64) p) (ha : Api.reallocarray.Allows c)
    (hem : Api.reallocarray.Emits cfg c ms) (hr : handleAll o env ms k p = .ok r) :
    r.2.spans = Api.reallocarray.effect c p.spans ↔ Api.reallocarray.Tells cfg c p ∧
      ∀ x, Api.reallocarray.obtained c = some x →
        Clean x (Api.reallocarray.released c p.spans) := by
  obtain ⟨op, data, hop, rfl⟩ := hem
  unfold Api.Tells
  dsimp only
  have hfreed : Api.reallocarray.freed c =
    if c.retval ≠ 0 ∨ c.param 1 = 0 ∨ c.param 2 = 0 then some (c.param 0) else none := rfl
  have hrep : Api.reallocarray.reported cfg c =
    if c.retval = 0 then none else some ⟨c.retval, Api.reallocarray.told cfg c⟩ := rfl
  rw [hrep] at hr
  by_cases hz : c.retval = 0
  · have hob : Api.reallocarray.obtained c = none := if_pos hz
    rw [if_pos hz] at hr
    cases hr
    rw [effect_of_none hob]
    by_cases hn : c.param 1 = 0 ∨ c.param 2 = 0
    · rw [if_pos (.inr hn)] at hfreed
      rw [released_of_freed hfreed, release_eq_self_of_ne, hfreed, hob]
      constructor
      · intro h
        refine ⟨⟨fun h => absurd hz h, fun s hs heq =>
          absurd (Option.some.inj heq).symm (h s hs)⟩, fun y hy => ?_⟩
        cases hy
      · rintro ⟨⟨-, h⟩, -⟩ s hs heq
        obtain ⟨x, hx, -⟩ := h s hs (congrArg some heq.symm)
        cases hx
    · rw [if_neg fun h => h.elim (absurd hz) hn] at hfreed
      rw [released_of_none hfreed rfl, hfreed]
      exact iff_of_true rfl
        ⟨⟨fun h => absurd hz h, fun _ _ h => (by cases h)⟩, clean_of_none hob⟩
  · have hob : Api.reallocarray.obtained c = some ⟨c.retval, c.param 1 * c.param 2⟩ := if_neg hz
    have hx := (ha.obtained _ hob).trans_le (limit_le c)
    rw [if_pos (.inl hz)] at hfreed
    rw [if_neg hz] at hr
    have hspans := spans_tell ht.ordered ht.tracing hop hr
    have hlaid := ht.laid.mono (release_subset (c.param 0) p.spans)
    rw [effect_of_some hob, clean_iff_of_some hob, released_of_freed hfreed, hfreed, hob]
    by_cases htold : Api.reallocarray.told cfg c = c.param 1 * c.param 2
    · rw [htold, if_pos hx] at hspans
      rw [hspans, insert_evict_eq_place_release_iff ht.laid hx]
      refine and_congr_left fun _ => ⟨fun h => ⟨fun _ => htold, fun s hs heq => ?_⟩,
        fun h s hs heq => ?_⟩
      · exact ⟨_, rfl, h s hs (Option.some.inj heq).symm⟩
      · obtain ⟨x, hx, hst⟩ := h.2 s hs (congrArg some heq.symm)
        cases hx
        exact hst
    · -- the block is in the table with another size
      refine iff_of_false (fun heq => ?_) fun h => htold (h.1.1 hz)
      rcases (heq ▸ hspans ▸ Set.mem_insert .. :
        (⟨c.retval, Api.reallocarray.told cfg c⟩ : Span) ∈ _) with h | h
      · exact htold (congrArg Span.size h)
      · exact (apart_of_mem_cut hlaid.separate h).ne rfl

/-! ### `munmap` and `mremap` -/

theorem exact_munmap (ht : Table (2 ^ 64) p) (ha : Api.munmap.Allows c)
    (hread : ∀ i < 2, c.entered i = c.param i) (hem : Api.munmap.Emits cfg c ms)
    (hr : handleAll o env ms k p = .ok r) :
    r.2.spans = Api.munmap.effect c p.spans ↔ Api.munmap.Tells cfg c p ∧
      ∀ x, Api.munmap.obtained c = some x → Clean x (Api.munmap.released c p.spans) := by
  replace hem : ms = emit .munmap (c.entered 0) (c.entered 1) [] := hem
  rw [hread 0 Nat.two_pos, hread 1 Nat.one_lt_two] at hem
  subst hem
  refine Iff.trans ?_ (and_iff_left (clean_of_none (a := .munmap) rfl)).symm
  unfold Api.Tells
  rw [effect_of_none (a := .munmap) rfl]
  by_cases hz : c.retval = 0
  · have hun : Api.munmap.unmapped c = some ⟨c.param 0, c.param 1⟩ := if_pos hz
    obtain ⟨hs, hR⟩ := ha.unmapped _ hun
    rw [released_of_unmapped rfl hun]
    dsimp only
    rw [hun]
    exact spans_emit_munmap_iff ht (hR.trans_le (limit_le c)) hs hr
  · have hun : Api.munmap.unmapped c = none := if_neg hz
    rw [released_of_none rfl hun]
    dsimp only
    rw [hun]
    exact spans_emit_munmap_self_iff (R := ⟨c.param 0, c.param 1⟩) ht hr

/-- The first message about an `mremap`. -/
theorem released_mremap_iff {k' : Stacks} {p' : Process} (ht : Table (2 ^ 64) p)
    (ha : Api.mremap.Allows c)
    (hr : handleAll o env (emit .munmap (c.param 0) (c.param 1) []) k p = .ok (k', p')) :
    p'.spans = Api.mremap.released c p.spans ↔
      match Api.mremap.unmapped c with
      | some R => Unmaps p R
      | none => Keeps p ⟨c.param 0, c.param 1⟩ := by
  have hun : Api.mremap.unmapped c = if c.retval = c.failed ∨ c.keepsOld then none
    else some ⟨c.param 0, c.param 1⟩ := rfl
  by_cases hkeep : c.retval = c.failed ∨ c.keepsOld
  · rw [if_pos hkeep] at hun
    rw [released_of_none rfl hun, hun]
    exact spans_emit_munmap_self_iff (R := ⟨c.param 0, c.param 1⟩) ht hr
  · rw [if_neg hkeep] at hun
    obtain ⟨hs, hR⟩ := ha.unmapped _ hun
    rw [released_of_unmapped rfl hun, hun]
    exact spans_emit_munmap_iff ht (hR.trans_le (limit_le c)) hs hr

theorem laid_released_mremap (ht : Table (2 ^ 64) p) (ha : Api.mremap.Allows c) :
    Laid (2 ^ 64) (Api.mremap.released c p.spans) ∧
      ∀ t ∈ Api.mremap.released c p.spans, ∃ s ∈ p.spans,
        s.addr.toNat ≤ t.addr.toNat ∧ t.last ≤ s.last := by
  rcases hun : Api.mremap.unmapped c with _ | R
  · rw [released_of_none rfl hun]
    exact ⟨ht.laid, fun t ht => ⟨t, ht, le_rfl, le_rfl⟩⟩
  · rw [released_of_unmapped rfl hun]
    have hR := (ha.unmapped R hun).2.trans_le (limit_le c)
    refine ⟨ht.laid.cut le_rfl hR, fun t ⟨s, hs, hl⟩ => ⟨s, hs, ?_⟩⟩
    obtain ⟨h1, h2, -⟩ := hl.within (ht.laid.fits s hs).le
    exact ⟨h1, h2⟩

/-- For `mremap` the two messages can make up for each other where the new range lies on ranges that
the table had. -/
theorem exact_mremap (ht : Table c.limit p) (ha : Api.mremap.Allows c)
    (hread : ∀ i < 2, c.entered i = c.param i) (hem : Api.mremap.Emits cfg c ms)
    (hr : handleAll o env ms k p = .ok r) :
    (Api.mremap.Met cfg c p → r.2.spans = Api.mremap.effect c p.spans) ∧
      ((∀ x, Api.mremap.obtained c = some x → ∀ s ∈ p.spans, x.Apart s) →
        r.2.spans = Api.mremap.effect c p.spans → Api.mremap.Met cfg c p) := by
  have ht' := weaken_table ht
  obtain ⟨data, rfl⟩ := hem
  have hrep : Api.mremap.reported cfg c =
    if c.retval = 0 then none else some ⟨c.retval, c.reread 2⟩ := rfl
  rw [hread 0 Nat.two_pos, hread 1 Nat.one_lt_two, hrep] at hr
  obtain ⟨k1, p1, h1, h2⟩ := handleAll_append hr
  have hiff := released_mremap_iff ht' ha h1
  obtain ⟨htr, hord, hwithin⟩ := table_emit_munmap (R := ⟨c.param 0, c.param 1⟩) ht' h1
  obtain ⟨hlaid, hwithin'⟩ := laid_released_mremap ht' ha
  have hob : Api.mremap.obtained c =
    if c.retval = c.failed then none else some ⟨c.retval, c.param 2⟩ := rfl
  by_cases hf : c.retval = c.failed
  · rw [if_pos hf] at hob
    refine ⟨fun h => absurd hf h.tells.1.1, fun _ heq => ?_⟩
    -- the failure goes to the client as a mapping
    have hun : Api.mremap.unmapped c = none := if_pos (.inl hf)
    rw [if_neg fun h => failed_ne_zero c (hf.symm.trans h)] at h2
    rw [effect_of_none hob, released_of_none rfl hun, spans_tell hord htr rfl h2, hf] at heq
    exact absurd (heq ▸ Set.mem_insert ..) (failed_not_mem ht (c.reread 2))
  rw [if_neg hf] at hob
  have hx := (ha.obtained _ hob).trans_le (limit_le c)
  rw [effect_of_some hob]
  constructor
  · rintro ⟨-, ⟨⟨-, hz, hsize⟩, htells⟩, hclean⟩
    rw [clean_iff_of_some hob] at hclean
    rw [if_neg hz, hsize] at h2
    rw [spans_tell hord htr rfl h2, if_pos hx, hiff.mpr htells]
    exact (insert_evict_eq_place_iff hlaid hx).mpr hclean
  · intro hap heq
    have hap1 : ∀ t ∈ p1.spans, Span.Apart ⟨c.retval, c.param 2⟩ t := fun t ht => by
      obtain ⟨s, hs, h1, h2⟩ := hwithin t ht
      exact (hap _ hob s hs).of_within h1 h2
    have hap2 : ∀ t ∈ Api.mremap.released c p.spans, Span.Apart ⟨c.retval, c.param 2⟩ t :=
      fun t ht => by
        obtain ⟨s, hs, h1, h2⟩ := hwithin' t ht
        exact (hap _ hob s hs).of_within h1 h2
    rw [place, (cut_eq_self_iff hlaid.separate).mpr hap2] at heq
    have hz : c.retval ≠ 0 := by
      intro hz
      rw [if_pos hz] at h2
      cases h2
      exact (hap1 _ (heq ▸ Set.mem_insert ..)).ne rfl
    rw [if_neg hz] at h2
    have hspans := spans_tell hord htr rfl h2
    have hsize : c.reread 2 = c.param 2 := by
      rcases (heq ▸ hspans ▸ Set.mem_insert .. :
        (⟨c.retval, c.reread 2⟩ : Span) ∈ insert _ _) with h | h
      · exact congrArg Span.size h
      · exact absurd rfl (hap2 _ h).ne
    rw [hsize, if_pos hx, evict_eq_self hap1] at hspans
    have hrel : p1.spans = Api.mremap.released c p.spans := by
      rw [← Set.insert_sdiff_self_of_notMem fun h => (hap1 _ h).ne rfl, ← hspans, heq,
        Set.insert_sdiff_self_of_notMem fun h => (hap2 _ h).ne rfl]
    exact ⟨hread, ⟨⟨hf, hz, hsize⟩, hiff.mp hrel⟩,
      (clean_iff_of_some hob).mpr fun s hs => .inl (hap2 s hs)⟩

end Calls

/-! ## The table after a call -/

section Main

variable {o : Options} {env : Env} {k : Stacks} {p : Process} {r : Stacks × Process}
  {a : Api} {cfg : Config} {c : Call} {ms : List Message}

theorem exact_iff_met (ht : Table c.limit p) (ha : a.Allows c)
    (hw : c.task.is64bit = true → cfg.long64 = true)
    (hpend : ∀ re ∈ p.reallocList, re.pid ≠ c.task.pid) (hem : a.Emits cfg c ms)
    (hr : handleAll o env ms k p = .ok r) (hread : ∀ i < a.taken, c.entered i = c.param i) :
    (a.Met cfg c p → r.2.spans = a.effect c p.spans) ∧
      ((a = .mremap → ∀ x, a.obtained c = some x → ∀ s ∈ p.spans, x.Apart s) →
        r.2.spans = a.effect c p.spans → a.Met cfg c p) := by
  have ht' := weaken_table ht
  have hof : (r.2.spans = a.effect c p.spans ↔
        a.Tells cfg c p ∧ ∀ x, a.obtained c = some x → Clean x (a.released c p.spans)) →
      (a.Met cfg c p → r.2.spans = a.effect c p.spans) ∧
        ((a = .mremap → ∀ x, a.obtained c = some x → ∀ s ∈ p.spans, x.Apart s) →
          r.2.spans = a.effect c p.spans → a.Met cfg c p) := fun h =>
    ⟨fun hm => h.mpr ⟨hm.tells, hm.clean⟩, fun _ heq => ⟨hread, (h.mp heq).1, (h.mp heq).2⟩⟩
  cases a with
  | malloc | calloc | memalign =>
    obtain ⟨op, data, hop, rfl⟩ := hem
    exact hof (exact_of_retval ht' ha hop rfl rfl rfl hr)
  | posixMemalign => exact hof (exact_posixMemalign ht' ha hem hr)
  | realloc => exact hof (exact_realloc ht' ha (hread 0 Nat.one_pos) hpend hem hr)
  | reallocarray => exact hof (exact_reallocarray ht' ha hem hr)
  | free =>
    exact hof (iff_of_true (exact_free ht' (hread 0 Nat.one_pos) hem hr)
      ⟨trivial, clean_of_none rfl⟩)
  | mmap | mmap64 =>
    obtain ⟨op, data, hop, rfl⟩ := hem
    exact hof (exact_mmap ht ha hop hw rfl rfl rfl hr)
  | munmap => exact hof (exact_munmap ht' ha hread hem hr)
  | mremap =>
    obtain ⟨h1, h2⟩ := exact_mremap ht ha hread hem hr
    exact ⟨h1, fun h => h2 (h rfl)⟩

theorem handle_ends {ext : NodeId → ℕ} {rest : StackId → ℕ} (ho : Owned k p ext rest)
    (m : Message) :
    Ends (fun e => Killed o e ∨ ∃ k' p', stackAdd env k' p' m.2.data m.1 = .error e)
      (fun r => Owned r.1 r.2 ext rest) (handle o env k p m) := by
  unfold handle
  split
  · refine ho.processAlloc_ends.mono (fun e he => ?_) fun r hr _ => ho.chain
      (processAlloc_chain (C := fun _ => True) trivial (fun _ _ _ _ => trivial) (fun _ _ => trivial)
        hr)
    exact he.imp_right fun ⟨k1, p1, _, h⟩ => ⟨k1, p1, h⟩
  split
  · refine ho.processFree_ends.mono (fun e he => ?_) fun r hr _ => ho.chain
      (processFree_chain (C := fun _ => True) trivial (fun _ _ _ _ => trivial) hr)
    exact he.imp_right fun h => ⟨k, p, h⟩
  split
  · exact ho.processReallocDone_ends.mono (fun e => .inl) fun r hr _ => ho.chain
      (processReallocDone_chain (C := fun _ => True) trivial
        (fun _ _ _ _ _ _ _ _ _ => trivial) hr)
  split
  · exact ho.processMunmap_ends.mono (fun e => .inl) fun r hr _ => ho.chain
      (processMunmap_chain (C := fun _ => True) (fun _ _ _ _ _ _ _ _ _ => by split <;> trivial) hr)
  · exact ho

/-- The client stops at a message only for `--kill`, or if `stack_add` refuses a backtrace. -/
theorem handleAll_ends {ext : NodeId → ℕ} {rest : StackId → ℕ} (ho : Owned k p ext rest) :
    Ends (fun e => Killed o e ∨ ∃ m ∈ ms, ∃ k' p', stackAdd env k' p' m.2.data m.1 = .error e)
      (fun _ => True) (handleAll o env ms k p) := by
  induction ms generalizing k p with
  | nil => trivial
  | cons m ms ih =>
    refine ((handle_ends ho m).mono (fun e he => ?_) fun _ _ => id).bind fun r _ hr => ?_
    · exact he.imp_right fun h => ⟨m, List.mem_cons_self .., h⟩
    · refine (ih hr).mono (fun e he => ?_) fun _ _ => id
      exact he.imp_right fun ⟨m', hm', h⟩ => ⟨m', List.mem_cons_of_mem _ hm', h⟩

/-- Every intercepted function, every call of it and every table: the messages are sent and handled,
and the table is right after them if `Met` holds, and only then: apart from arguments that are
misread when the call is entered, and from a new range of `mremap` on ranges that the table has. -/
theorem calls_met_iff (cfg : Config) (libsym : LibrarySymbol) {f : Function} {doTrace : Bool}
    {st : State} (hf : f ∈ flist) (hst : Reachable o env doTrace st) (hp : p ∈ st.processes) :
    ∃ a, Api.ofSymbol f.name = some a ∧ ∀ c : Call, a.Allows c → c.task.inRealloc = false →
      (c.task.is64bit = true → cfg.long64 = true) → Table c.limit p →
      (∀ re ∈ p.reallocList, re.pid ≠ c.task.pid) →
      ∃ ms, f.messages cfg libsym c.task c.ret = .ok ms ∧
        (∀ e, handleAll o env ms st.heap p = .error e →
          Killed o e ∨ ∃ m ∈ ms, ∃ k' p', stackAdd env k' p' m.2.data m.1 = .error e) ∧
        ∀ r, handleAll o env ms st.heap p = .ok r →
          (a.Met cfg c p → r.2.spans = a.effect c p.spans) ∧
          ((∀ i < a.taken, c.entered i = c.param i) →
            (a = .mremap → ∀ x, a.obtained c = some x → ∀ s ∈ p.spans, x.Apart s) →
            r.2.spans = a.effect c p.spans → a.Met cfg c p) := by
  obtain ⟨a, hname, hrep⟩ := reports_of_mem hf
  refine ⟨a, hname, fun c ha hre hw ht hpend => ?_⟩
  obtain ⟨ms, hms, hem⟩ := hrep cfg c libsym ha hre hw
  have ho := (Reach.accounted hst).owned p hp
  exact ⟨ms, hms, fun e he => (handleAll_ends ho).error he, fun r hr =>
    ⟨fun hm => (exact_iff_met ht ha hw hpend hem hr hm.read).1 hm,
      fun hread => (exact_iff_met ht ha hw hpend hem hr hread).2⟩⟩

end Main

/-! ## Sample calls -/

/-- The record of a process that has one block. -/
def blockRecord : Process := (mallocState.findProcess 1).getD startRecord

theorem mem_blockRecord : blockRecord ∈ mallocState.processes := List.mem_singleton_self _

theorem spans_blockRecord : blockRecord.spans = {⟨0x602010, 16⟩} := by
  have hb : blockRecord.blocks = [⟨0, 0x602010, 16, 0⟩] := rfl
  ext s
  unfold Process.spans
  rw [hb]
  simp only [Set.mem_ofPred_eq, List.mem_singleton, exists_eq_left, Set.mem_singleton_iff, eq_comm]
  exact Iff.rfl

theorem table_blockRecord : Table (2 ^ 64) blockRecord where
  tracing := rfl
  ordered := List.pairwise_singleton ..
  laid := by
    rw [spans_blockRecord]
    refine ⟨Set.pairwise_singleton .., ?_, ?_⟩
    · rintro s rfl; decide
    · rintro s rfl; decide

/-- A server on a machine of 64 bits that takes backtraces of one frame. -/
def plainConfig : Config := ⟨false, 1, true, false⟩

/-- A call in the only thread of process 1. -/
def sampleCall (param : ℕ → UInt64) (retval : UInt64) : Call :=
  ⟨⟨1, true, false, inRegs param, 0, noWords, []⟩, ⟨retval, noWords, []⟩⟩

/-- `reallocarray(0x602010, 4, 8)`, which returns `0x603000`. -/
def reallocarrayCall : Call :=
  sampleCall (fun i => if i = 0 then 0x602010 else if i = 1 then 4 else 8) 0x603000

theorem allows_reallocarrayCall : Api.reallocarray.Allows reallocarrayCall where
  param i := UInt64.toNat_lt _
  retval := by decide
  obtained x hx := by cases hx; decide
  unmapped R hR := by cases hR
  calloc h := by cases h
  reallocarray _ _ := by decide

/-- `reallocarray` is reported as an allocation only: the block it has moved stays in the table. -/
theorem reallocarray_keeps_old : ∃ f ∈ flist, Api.ofSymbol f.name = some .reallocarray ∧
    Api.reallocarray.Allows reallocarrayCall ∧ Table (2 ^ 64) blockRecord ∧
    ∃ ms r, f.messages plainConfig ⟨0x400040⟩ reallocarrayCall.task reallocarrayCall.ret = .ok ms ∧
      handleAll plainOptions plainEnv ms mallocState.heap blockRecord = .ok r ∧
      r.2.spans ≠ Api.reallocarray.effect reallocarrayCall blockRecord.spans := by
  let ms : List Message := emit .malloc 0x603000 32 [0x40, 0, 0x40, 0, 0, 0, 0, 0]
  obtain ⟨r, hr⟩ : ∃ r, handleAll plainOptions plainEnv ms mallocState.heap blockRecord = .ok r :=
    ⟨_, rfl⟩
  refine ⟨⟨"reallocarray", none, reportReallocarrayOut⟩, by simp [flist], rfl,
    allows_reallocarrayCall, table_blockRecord, ms, r, rfl, hr, fun heq => ?_⟩
  have hem : Api.reallocarray.Emits plainConfig reallocarrayCall ms :=
    ⟨.malloc, [0x40, 0, 0x40, 0, 0, 0, 0, 0], rfl, rfl⟩
  have hmet := (exact_reallocarray table_blockRecord allows_reallocarrayCall hem hr).mp heq
  obtain ⟨x, hx, hst⟩ := hmet.1.2 ⟨0x602010, 16⟩ (by rw [spans_blockRecord]; rfl) rfl
  cases hx
  exact absurd hst.1 (by decide)

/-- `realloc(0x602010, 32)`, which returns `0x603000`. -/
def reallocCall : Call := sampleCall (fun i => if i = 0 then 0x602010 else 32) 0x603000

theorem allows_reallocCall : Api.realloc.Allows reallocCall where
  param i := UInt64.toNat_lt _
  retval := by decide
  obtained x hx := by cases hx; decide
  unmapped R hR := by cases hR
  calloc h := by cases h
  reallocarray h := by cases h

theorem calls_met_iff_realloc : ∃ ms r,
    Function.messages ⟨"realloc", some reportRealloc, some reportReallocOut⟩ plainConfig ⟨0x400040⟩
      reallocCall.task reallocCall.ret = .ok ms ∧
    handleAll plainOptions plainEnv ms mallocState.heap blockRecord = .ok r ∧
    r.2.spans = Api.realloc.effect reallocCall blockRecord.spans := by
  let f : Function := ⟨"realloc", some reportRealloc, some reportReallocOut⟩
  have hf : f ∈ flist := by simp [flist, f]
  obtain ⟨a, hname, h⟩ := calls_met_iff plainConfig ⟨0x400040⟩ hf (reachable_stateAfter _)
    mem_blockRecord
  cases hname
  obtain ⟨ms, hms, -, hexact⟩ := h reallocCall allows_reallocCall rfl (fun _ => rfl)
    table_blockRecord fun re hre => by cases hre
  let ms' : List Message := emit .reallocEnter 0x602010 1 [] ++
    emit .realloc 0x603000 32 [0x40, 0, 0x40, 0, 0, 0, 0, 0] ++ [(.reallocDone, ⟨0x603000, 1, []⟩)]
  have hms' : ms = ms' := Except.ok.inj (hms.symm.trans rfl)
  obtain ⟨r, hr⟩ : ∃ r, handleAll plainOptions plainEnv ms' mallocState.heap blockRecord = .ok r :=
    ⟨_, rfl⟩
  rw [← hms'] at hr
  have htells : Api.realloc.Tells plainConfig reallocCall blockRecord := by
    unfold Api.Tells
    dsimp only
    rw [if_neg (by decide)]
    rfl
  refine ⟨ms, r, hms, hr, (hexact r hr).1 ⟨fun i hi => ?_, htells, fun x hx s hs => ?_⟩⟩
  · rw [Nat.lt_one_iff.mp hi]
    rfl
  cases hx
  obtain ⟨hs, hne⟩ := hs
  rw [spans_blockRecord] at hs
  cases hs
  exact absurd rfl hne

end Mtrace
