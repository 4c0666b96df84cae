import Mtrace.Client.Counters

/-!
# When the statistics are right

The three groups of counters a user sees: the bytes in use of a process, the open allocations and
bytes of a stack, and the leaks of both.  Each is exact in every run that stays clear of the slips
of the source, and each slip is shown on a run.
-/

namespace Mtrace.Client

open RbTree Machine

variable {o : Options} {env : Env} {doTrace : Bool} {c : State}

/-! ## The conditions -/

/-- Every size that a message makes the client hand to `process_release_mem` fits in its 32-bit
parameter. -/
def ReleasesFit (p : Process) : MtMsg → Prop
  | .alloc _ _ m => p.tracing = true → ∀ b ∈ p.blocks, startsIn m.ptr m.size b = true →
      b.size < 0x100000000
  | .free _ _ m => p.tracing = true → ∀ b ∈ p.blocks, b.addr = m.ptr → b.size < 0x100000000
  | .munmap m => p.tracing = true → ∀ b ∈ p.blocks, p.mmapped b = true →
      startsIn m.ptr m.size b = true → b.size < 0x100000000 ∨
        b.addr - m.ptr < 0x100000000 ∧ m.ptr + m.size - b.addr < 0x100000000
  | _ => True

/-- The message reports that the pending `realloc` call `re` has failed. -/
def Restores (p : Process) (re : ReallocEntry) : MtMsg → Prop
  | .reallocDone m => p.tracing = true ∧ m.ptr = 0 ∧ re.addr ≠ 0 ∧ ∃ before after,
      findRealloc m.size.toUInt32 p.reallocList = some (before, re, after)
  | _ => False

/-- The message makes `p` a copy of another process with a property. -/
def Copies (c : State) (p : Process) (P : Process → Prop) : MtMsg → Prop
  | .fork ppid => ∃ parent ∈ c.processes, parent.pid = ppid ∧ parent.pid ≠ p.pid ∧ P parent
  | _ => False

/-! ## Messages -/

section Messages

variable {l : Level} {q : Kind} {p : Process} {k : Stacks} {ext : NodeId → ℕ} {rest : StackId → ℕ}
  {m : MtAllocPayload} {r : Stacks × Process}

theorem lt_of_remains {ptr size : UInt64} {b : RbBlock} (hrem : Remains m.ptr m.size ptr size)
    (hst : startsIn ptr size b = true)
    (hfit : b.size < 0x100000000 ∨
      b.addr - m.ptr < 0x100000000 ∧ m.ptr + m.size - b.addr < 0x100000000) :
    if size - munmapOff ptr b < b.size then size - munmapOff ptr b < 0x100000000
    else b.size < 0x100000000 := by
  rcases hfit with hfit | ⟨hnear, hlast⟩
  · split
    next hlt => exact UInt64.lt_trans hlt hfit
    next => exact hfit
  · rw [hrem.sub_munmapOff hst hnear]
    split
    · exact hlast
    next hge => exact UInt64.lt_of_le_of_lt (UInt64.not_lt.mp hge) hlast

/-- What a message must be like for the counter of kind `q` at level `l` to stay exact. -/
structure Fits (l : Level) (q : Kind) (c : State) (p : Process) (msg : MtMsg) : Prop where
  releases : q = .bytes → ReleasesFit p msg
  restores : ∀ re i, Restores p re msg → re.stackNode = some i → Keeps l q (.restore (re.block i))
  copies : ¬ Copies c p (fun parent =>
    (∃ b ∈ parent.blocks, ∃ n, parent.deref b.stackNode = .ok n ∧ l ≠ .process ∧ n.counter q ≠ 0) ∨
    (q = .leaks ∨ q = .leakedBytes) ∧ ∃ b ∈ parent.blocks, b.leaked = true) msg

theorem Exact.evolves {pid : UInt16} {sw : Bool} {p' : Process} {msg : MtMsg} (h : Exact l q p)
    (ho : Owned c.heap p ext rest) (hc : p.Counted) (hm : Fits l q c p msg)
    (hev : Evolves o env c p (.msg pid sw msg) p') : Exact l q p' := by
  obtain ⟨hfit, hrest, hcopy⟩ := hm
  cases hev with
  | alloc hr =>
    refine h.chain (s := (c.heap, p)) ho (processAlloc_chain trivial (fun b hb ht hs hq => ?_)
      (fun _ _ => trivial) hr)
    exact hfit hq ht b hb hs
  | free hr =>
    exact h.chain (s := (c.heap, p)) ho (processFree_chain trivial
      (fun b hb ht ha hq => hfit hq ht b hb ha) hr)
  | reallocDone hr =>
    exact h.chain (s := (c.heap, p)) ho (processReallocDone_chain trivial
      (fun before re after i ht hz ha hf hi => hrest re i ⟨ht, hz, ha, before, after, hf⟩ hi) hr)
  | munmap hr =>
    refine h.chain (s := (c.heap, p)) ho (processMunmap_chain
      (fun b hb ptr size ht hm hs hrem hst => ?_) hr)
    by_cases hq : q = .bytes
    · have := lt_of_remains hrem hst (hfit hq ht b hb hm hs)
      split
      next hlt => rw [if_pos hlt] at this; exact fun _ => this
      next hlt => rw [if_neg hlt] at this; exact fun _ => this
    · split
      · exact fun hq' => absurd hq' hq
      · exact fun hq' => absurd hq' hq
  | @fork _ _ ppid parent k' p' hparent hppid hr =>
    obtain ⟨k1, -, hdup⟩ := ho.processDuplicate_cases hc hr
    obtain ⟨p1, hd, -, -, hs⟩ := duplicateFrom_cases hdup
    refine Exact.sameLedger ?_ hs
    have hinit : ∀ a b d, Exact l q (processInit p.cleared a b d) := fun a b d =>
      (exact_cleared p).sameLedger ⟨rfl, rfl, rfl, ⟨_, map_withRefs _⟩, rfl, rfl, rfl, rfl⟩
    by_cases hpid : parent.pid = p.pid
    · rw [if_pos hpid] at hd
      cases hd
      exact hinit ..
    · rw [if_neg hpid] at hd
      have hmem : ∀ b ∈ parent.blockTable.postorder, b ∈ parent.blocks := fun b hb =>
        (postorder_perm parent.blockTable).mem_iff.mp hb
      refine (hinit ..).duplicateBlocks (fun n hn => by cases hn) (fun b hb n hn hl => ?_)
        (fun hq b hb => ?_) hd
      · by_contra hne
        exact hcopy ⟨parent, hparent, hppid, hpid, .inl ⟨b, hmem b hb, n, hn, hl, hne⟩⟩
      · by_contra hne
        exact hcopy ⟨parent, hparent, hppid, hpid,
          .inr ⟨hq, b, hmem b hb, Bool.not_eq_false _ ▸ hne⟩⟩
  | attach => exact (exact_cleared p).sameLedger ⟨rfl, rfl, rfl, ⟨_, map_withRefs _⟩, rfl, rfl,
    rfl, rfl⟩
  | scan hsc hs =>
    have hch : Chain (Keeps l q) (c.heap, p) (c.heap, _) :=
      scanBlocks_chain (fun _ _ => trivial) hsc
    exact (h.chain (s := (c.heap, p)) ho hch).sameLedger hs
  | select hs mode => exact (h.sameLedger hs).select mode
  | same hs => exact h.sameLedger hs

end Messages

/-! ## Runs -/

/-- A set of counters is exact along a run whose messages fit and whose resets find nothing the
nodes would keep. -/
theorem Reach.exact {ok : State → Event → Prop} {G : Level → Kind → Prop}
    (h : Reach o env ok doTrace c)
    (hmsg : ∀ c pid sw msg p l q, Accounted c → ok c (.msg pid sw msg) →
      c.target (.msg pid sw msg) = some p →
      (∀ p ∈ (c.entered (.msg pid sw msg)).processes, ∀ l q, G l q → Exact l q p) → G l q →
      Fits l q (c.entered (.msg pid sw msg)) p msg)
    (hreset : ∀ c pid p l q, ok c (.reset pid) ∨ ok c (.start pid) → c.findProcess pid = some p →
      G l q → l = .process ∨ q = .allocations ∨ total l q p.blocks = 0) :
    ∀ p ∈ c.processes, ∀ l q, G l q → Exact l q p := by
  refine h.records (fun pid sw tracing l q _ => exact_processNew pid sw tracing) ?_
  intro c e p p' hac hok hI ht hev l q hG
  have hp := target_mem hac ht
  have hpe := hI p hp l q hG
  cases e with
  | msg pid sw msg =>
    have hac' := accounted_entered hac (.msg pid sw msg)
    exact hpe.evolves (hac'.owned p hp) (hac'.counted p hp)
      (hmsg c pid sw msg p l q hac hok ht hI hG)
      hev
  | reset pid =>
    cases hev with
    | reset hem hs => exact (hpe.emptied hem (hreset c pid p l q (.inl hok) ht hG)).sameLedger hs
    | select hs mode => exact (hpe.sameLedger hs).select mode
    | same hs => exact hpe.sameLedger hs
  | start pid =>
    cases hev with
    | start hem hs => exact (hpe.emptied hem (hreset c pid p l q (.inr hok) ht hG)).sameLedger hs
    | select hs mode => exact (hpe.sameLedger hs).select mode
    | same hs => exact hpe.sameLedger hs
  | _ =>
    cases hev with
    | select hs mode => exact (hpe.sameLedger hs).select mode
    | same hs => exact hpe.sameLedger hs

/-! ## Reading the counters -/

section Reading

/-- The blocks a counter is about. -/
def Level.blocks (p : Process) : Level → List RbBlock
  | .process => p.blocks
  | .node i => p.blocks.filter fun b => b.stackNode = i

/-- Two `unsigned long` counters give the number and the size of a list of blocks. -/
structure Tallies (count bytes : UInt64) (bs : List RbBlock) : Prop where
  count : count.toNat = bs.length % 2 ^ 64
  bytes : bytes.toNat = (bs.map (·.size.toNat)).sum % 2 ^ 64

theorem toNat_sum (xs : List UInt64) : xs.sum.toNat = (xs.map (·.toNat)).sum % 2 ^ 64 := by
  induction xs with
  | nil => rfl
  | cons x xs ih => rw [List.sum_cons, UInt64.toNat_add, ih, List.map_cons, List.sum_cons,
    Nat.add_mod_mod]

theorem sum_ones {α : Type} (xs : List α) : (xs.map fun _ => (1 : UInt64)).sum.toNat =
    xs.length % 2 ^ 64 := by
  rw [toNat_sum, List.map_map]
  congr 1
  simp [Function.comp_def]

theorem total_eq_sum (p : Process) (l : Level) (q : Kind) :
    total l q p.blocks = ((l.blocks p).map q.weight).sum := by
  cases l with
  | process => simp [total, Level.covers, Level.blocks]
  | node i =>
    show total _ _ _ = ((p.blocks.filter fun b => b.stackNode = i).map q.weight).sum
    induction p.blocks with
    | nil => rfl
    | cons b bs ih =>
      rw [total_cons, ih, List.filter_cons]
      by_cases hb : b.stackNode = i
      · simp [Level.covers, hb]
      · simp [Level.covers, hb]

/-- A weight that only leaked blocks have. -/
theorem sum_leaked {w f : RbBlock → UInt64} (hw : ∀ b, w b = if b.leaked then f b else 0)
    (bs : List RbBlock) : (bs.map w).sum = ((bs.filter (·.leaked)).map f).sum := by
  induction bs with
  | nil => rfl
  | cons b bs ih =>
    rw [List.map_cons, List.sum_cons, ih, List.filter_cons, hw]
    cases hb : b.leaked <;> simp

variable {p : Process} {l : Level}

theorem Exact.tallies (hn : Exact l .allocations p) (hb : Exact l .bytes p) :
    Tallies (p.counter l .allocations) (p.counter l .bytes) (l.blocks p) := by
  rw [Exact, total_eq_sum] at hn hb
  constructor
  · rw [hn]; exact sum_ones _
  · rw [hb, toNat_sum, List.map_map]; rfl

theorem Exact.tallies_leaks (hn : Exact l .leaks p) (hb : Exact l .leakedBytes p) :
    Tallies (p.counter l .leaks) (p.counter l .leakedBytes) ((l.blocks p).filter (·.leaked)) := by
  rw [Exact, total_eq_sum] at hn hb
  constructor
  · rw [hn, sum_leaked (w := (Kind.weight · .leaks)) (f := fun _ => 1) fun _ => rfl]
    exact sum_ones _
  · rw [hb, sum_leaked (w := (Kind.weight · .leakedBytes)) (f := (·.size)) fun _ => rfl, toNat_sum,
      List.map_map]
    rfl

theorem sum_size_le {bs bs' : List RbBlock} (h : bs'.Sublist bs) :
    (bs'.map (·.size.toNat)).sum ≤ (bs.map (·.size.toNat)).sum :=
  (h.map fun b => b.size.toNat).sum_le_sum fun _ _ => Nat.zero_le _

/-- Counters that tally never fall below a block they count. -/
theorem Tallies.covers {count bytes : UInt64} {bs : List RbBlock} (h : Tallies count bytes bs)
    (hlen : bs.length < 2 ^ 64) (hsum : (bs.map (·.size.toNat)).sum < 2 ^ 64) {b : RbBlock}
    (hb : b ∈ bs) : 1 ≤ count ∧ b.size ≤ bytes := by
  have hpos : 0 < bs.length := List.length_pos_of_mem hb
  have hle : b.size.toNat ≤ (bs.map (·.size.toNat)).sum :=
    List.le_sum_of_mem (List.mem_map_of_mem hb)
  have hc := h.count
  have hs := h.bytes
  rw [Nat.mod_eq_of_lt hlen] at hc
  rw [Nat.mod_eq_of_lt hsum] at hs
  refine ⟨UInt64.le_iff_toNat_le.mpr ?_, UInt64.le_iff_toNat_le.mpr (by omega)⟩
  show 1 ≤ count.toNat
  omega

theorem counter_node_of_mem {k : Stacks} {ext : NodeId → ℕ} {rest : StackId → ℕ}
    (h : Owned k p ext rest) {n : RbStack} (hn : n ∈ p.nodes) (q : Kind) :
    p.counter (.node n.id) q = n.counter q := by
  show (p.node? n.id).elim 0 _ = _
  rw [node?_of_mem h.refs.nodup hn]
  rfl

end Reading

theorem copies_entered {e : Event} {p : Process} {P : Process → Prop} {m : MtMsg} (h : Accounted c)
    (hP : ∀ pid sw tracing, ¬ P (processNew pid sw tracing)) (hc : Copies (c.entered e) p P m) :
    Copies c p P m := by
  cases m with
  | fork ppid =>
    obtain ⟨parent, hparent, hppid, hne, hp⟩ := hc
    rcases entered_cases h hparent with hmem | ⟨pid, sw, tracing, rfl⟩
    · exact ⟨parent, hmem, hppid, hne, hp⟩
    · exact absurd hp (hP pid sw tracing)
  | _ => exact hc

theorem Copies.mono {p : Process} {P Q : Process → Prop} {m : MtMsg} (h : Copies c p P m)
    (hPQ : ∀ parent ∈ c.processes, P parent → Q parent) : Copies c p Q m := by
  cases m with
  | fork ppid =>
    obtain ⟨parent, hparent, hppid, hne, hp⟩ := h
    exact ⟨parent, hparent, hppid, hne, hPQ parent hparent hp⟩
  | _ => exact h

/-- A block has been allocated. -/
def mallocState : State := stateAfter (startEvents ++ [mallocEvent 0x602010 16])

/-- The three events of `mallocState` find a record without blocks. -/
theorem reach_mallocState {P : State → Event → Process → Prop}
    (h : ∀ c e p, e = .msg 1 false (.attach true false) ∨
      e = .msg 1 false (.addMap ⟨0x400000, 0, 0x1000, 0, "a.out"⟩) ∨ e = mallocEvent 0x602010 16 →
      p.blocks = [] → P c e p) :
    Reach plainOptions plainEnv (fun c e => ∀ p, c.target e = some p → P c e p) true
    mallocState := by
  refine .step (.step (.step .init (e := .msg 1 false (.attach true false)) ?_ rfl)
    (e := .msg 1 false (.addMap ⟨0x400000, 0, 0x1000, 0, "a.out"⟩)) ?_ rfl)
    (e := mallocEvent 0x602010 16) ?_ rfl
  · intro p hp
    cases hp
    exact h _ _ _ (.inl rfl) rfl
  · intro p hp
    cases hp
    exact h _ _ _ (.inr (.inl rfl)) rfl
  · intro p hp
    cases hp
    exact h _ _ _ (.inr (.inr rfl)) rfl

/-! ## Bytes in use -/

/-- The event releases sizes below `2 ^ 32` only and does not report that a `realloc` of a block
with bytes has failed. -/
def BytesKept (c : State) (e : Event) : Prop :=
  ∀ p, c.target e = some p → match e with
    | .msg _ _ m => ReleasesFit p m ∧ ∀ re, Restores p re m → re.size = 0
    | _ => True

/-- The bytes in use are the sum of the blocks, so the check of `process_duplicate` holds. -/
theorem bytesUsed_eq_sum (h : Reach o env BytesKept doTrace c) :
    (∀ p ∈ c.processes, p.bytesUsed.toNat = (p.blocks.map (·.size.toNat)).sum % 2 ^ 64) ∧
    ∀ e, c.step o env e ≠ .error (.assertion "copy->bytes_used == process->bytes_used") := by
  have hex : ∀ p ∈ c.processes, p.bytesUsed = (p.blocks.map (·.size)).sum := by
    intro p hp
    have hexact : Exact .process .bytes p := by
      refine h.exact (G := fun l q => l = .process ∧ q = .bytes) ?_ ?_ p hp .process
        .bytes ⟨rfl, rfl⟩
      · rintro c pid sw msg p l q - hok ht - ⟨rfl, rfl⟩
        obtain ⟨hfit, hre⟩ := hok p ht
        refine ⟨fun _ => hfit, fun re i hr _ => ⟨fun _ _ => hre re hr, fun hq => by simp at hq⟩, ?_⟩
        intro hcopy
        cases msg with
        | fork ppid =>
          obtain ⟨parent, -, -, -, ⟨b, -, n, -, hl, -⟩ | ⟨hq, -⟩⟩ := hcopy
          · exact hl rfl
          · simp at hq
        | _ => exact hcopy
      · rintro c pid p l q - - ⟨rfl, -⟩
        exact .inl rfl
    exact hexact.trans (total_process_bytes p.blocks)
  refine ⟨fun p hp => ?_, fun e he => ?_⟩
  · rw [hex p hp, toNat_sum, List.map_map]; rfl
  · have hac : Accounted c := Reach.accounted h
    rcases (step_ends hac e).error he with ⟨hext | ⟨-, q, hq, hdr⟩, -⟩ | ⟨hf, -⟩
    · have hmsg : "copy->bytes_used == process->bytes_used" =
        "this->stack->operation == operation" := hext.external
      exact absurd hmsg (by decide)
    · exact hdr (hex q hq)
    · cases hf

/-- `realloc` of the 16 bytes at `0x602010` by thread 1, which fails. -/
def failedRealloc : List Event :=
  [.msg 1 false (.free .reallocEnter isFreeOp_reallocEnter ⟨0x602010, 1, []⟩),
    .msg 1 false (.reallocDone ⟨0, 1, []⟩)]

/-- After a `realloc` that fails the 16 bytes of the block are missing, and the next `fork` aborts
the client; after the release of 4 GiB and 16 bytes 4 GiB are still counted. -/
theorem bytesUsed_drifts :
    (let es := startEvents ++ mallocEvent 0x602010 16 :: failedRealloc
     Reachable plainOptions plainEnv true (stateAfter es) ∧
       ((stateAfter es).processes.map fun p => (p.bytesUsed, p.blocks.map (·.size))) = [(0, [16])] ∧
       (stateAfter es).step plainOptions plainEnv (.msg 2 false (.fork 1)) =
         .error (.assertion "copy->bytes_used == process->bytes_used")) ∧
    (let es := startEvents ++ [mallocEvent 0x602010 0x100000010,
       .msg 1 false (.free .free isFreeOp_free ⟨0x602010, 0, []⟩)]
     Reachable plainOptions plainEnv true (stateAfter es) ∧
       ((stateAfter es).processes.map fun p => (p.bytesUsed, p.blocks.map (·.size))) =
         [(0x100000000, [])]) :=
  ⟨⟨reachable_stateAfter _, rfl, rfl⟩, reachable_stateAfter _, rfl⟩

theorem bytesUsed_eq_sum_malloc :
    mallocState.processes.map (fun p => (p.bytesUsed, p.blocks.map (·.size))) = [(16, [16])] ∧
    mallocState.step plainOptions plainEnv (.msg 2 false (.fork 1)) ≠
      .error (.assertion "copy->bytes_used == process->bytes_used") := by
  refine ⟨rfl, (bytesUsed_eq_sum (reach_mallocState fun c e p he hb => ?_)).2 _⟩
  rcases he with rfl | rfl | rfl
  · exact ⟨trivial, fun _ h => h.elim⟩
  · exact ⟨trivial, fun _ h => h.elim⟩
  · exact ⟨fun _ b hmem => (by rw [hb] at hmem; cases hmem), fun _ h => h.elim⟩

/-! ## Stacks -/

/-- The event releases sizes below `2 ^ 32` only, copies no process that has blocks, and resets
allocations only while the blocks of each stack have no bytes. -/
def StacksKept (c : State) (e : Event) : Prop :=
  ∀ p, c.target e = some p → match e with
    | .msg _ _ m => ReleasesFit p m ∧ ¬ Copies c p (fun parent => parent.blocks ≠ []) m
    | .reset _ | .start _ => ∀ i, (((Level.node i).blocks p).map (·.size)).sum = 0
    | _ => True

/-- The open allocations and the bytes of a stack node are those of its blocks. -/
theorem stack_tallies (h : Reach o env StacksKept doTrace c) :
    ∀ p ∈ c.processes, ∀ n ∈ p.nodes,
      Tallies n.nAllocations n.bytesUsed (p.blocks.filter fun b => b.stackNode = n.id) := by
  have hac : Accounted c := Reach.accounted h
  have hex : ∀ p ∈ c.processes, ∀ l q, (l ≠ .process ∧ (q = .allocations ∨ q = .bytes)) →
      Exact l q p := by
    refine h.exact ?_ ?_
    · rintro c pid sw msg p l q hac' hok ht - ⟨hl, hq⟩
      obtain ⟨hfit, hcopy⟩ := hok p ht
      refine ⟨fun _ => hfit, fun re i _ _ => ⟨fun _ hp => absurd hp hl, ?_⟩, fun hc => hcopy ?_⟩
      · rintro (rfl | rfl) <;> simp at hq
      · refine copies_entered hac' (fun _ _ _ hne => hne rfl) (hc.mono fun parent _ hP => ?_)
        rcases hP with ⟨b, hb, -⟩ | ⟨-, b, hb, -⟩
        · exact List.ne_nil_of_mem hb
        · exact List.ne_nil_of_mem hb
    · rintro c pid p l q hok hf ⟨hl, rfl | rfl⟩
      · exact .inr (.inl rfl)
      · refine .inr (.inr ?_)
        cases l with
        | process => exact absurd rfl hl
        | node i =>
          rw [total_eq_sum]
          rcases hok with hok | hok
          · exact hok p hf i
          · exact hok p hf i
  intro p hp n hn
  have htal := (hex p hp (.node n.id) .allocations ⟨by simp, .inl rfl⟩).tallies
    (hex p hp (.node n.id) .bytes ⟨by simp, .inr rfl⟩)
  rw [counter_node_of_mem (hac.owned p hp) hn, counter_node_of_mem (hac.owned p hp) hn] at htal
  exact htal

/-- After a reset the stack still shows the 16 bytes of the block that is gone, and the stack of a
forked process shows two allocations for one block. -/
theorem stack_stale :
    (let es := startEvents ++ [mallocEvent 0x602010 16, .reset 1]
     Reachable plainOptions plainEnv true (stateAfter es) ∧
       ((stateAfter es).processes.map fun p =>
         (p.blocks.length, p.nodes.map fun n => (n.nAllocations, n.bytesUsed))) =
           [(0, [(0, 16)])]) ∧
    (let es := startEvents ++ [mallocEvent 0x602010 16, .msg 2 false (.fork 1)]
     Reachable plainOptions plainEnv true (stateAfter es) ∧
       ((stateAfter es).processes.map fun p =>
         (p.blocks.length, p.nodes.map fun n => (n.nAllocations, n.bytesUsed))) =
         [(1, [(1, 16)]), (1, [(2, 32)])]) :=
  ⟨⟨reachable_stateAfter _, rfl⟩, reachable_stateAfter _, rfl⟩

theorem stack_tallies_malloc :
    mallocState.processes.map (fun p => p.nodes.map fun n => (n.nAllocations, n.bytesUsed)) =
        [[(1, 16)]] ∧
      ∀ p ∈ mallocState.processes, ∀ n ∈ p.nodes,
        Tallies n.nAllocations n.bytesUsed (p.blocks.filter fun b => b.stackNode = n.id) := by
  refine ⟨rfl, stack_tallies (reach_mallocState fun c e p he hb => ?_)⟩
  rcases he with rfl | rfl | rfl
  · exact ⟨trivial, id⟩
  · exact ⟨trivial, id⟩
  · exact ⟨fun _ b hmem => (by rw [hb] at hmem; cases hmem), id⟩

/-! ## Leaks -/

/-- The event does not report that a `realloc` of a leaked block has failed, copies no process that
has leaked blocks, and resets allocations only while there is none. -/
def LeaksKept (c : State) (e : Event) : Prop :=
  ∀ p, c.target e = some p → match e with
    | .msg _ _ m => (∀ re, Restores p re m → re.flags &&& blockLeaked = 0) ∧
        ¬ Copies c p (fun parent => ∃ b ∈ parent.blocks, b.leaked = true) m
    | .reset _ | .start _ => ∀ b ∈ p.blocks, b.leaked = false
    | _ => True

/-- The leaks of a process and of its stack nodes are the leaked blocks, and no counter is below
what a block will take from it. -/
theorem leaks_tally (h : Reach o env LeaksKept doTrace c) : ∀ p ∈ c.processes,
    Tallies p.leaks p.leakedBytes (p.blocks.filter (·.leaked)) ∧
    (∀ n ∈ p.nodes, Tallies n.leaks n.bytesLeaked
      ((p.blocks.filter fun b => b.stackNode = n.id).filter (·.leaked))) ∧
    (p.blocks.length < 2 ^ 64 → (p.blocks.map (·.size.toNat)).sum < 2 ^ 64 →
      ∀ b ∈ p.blocks, b.leaked = true → (1 ≤ p.leaks ∧ b.size ≤ p.leakedBytes) ∧
        ∀ n ∈ p.nodes, n.id = b.stackNode → 1 ≤ n.leaks ∧ b.size ≤ n.bytesLeaked) := by
  have hac : Accounted c := Reach.accounted h
  have hex : ∀ p ∈ c.processes, ∀ l q, (q = .leaks ∨ q = .leakedBytes) → Exact l q p := by
    refine h.exact ?_ ?_
    · rintro c pid sw msg p l q hac' hok ht hI hq
      obtain ⟨hre, hcopy⟩ := hok p ht
      refine ⟨?_, fun re i hr _ => ⟨?_, fun _ => ?_⟩, fun hc => hcopy ?_⟩
      · rintro rfl; simp at hq
      · rintro rfl; simp at hq
      · simpa [RbBlock.leaked, ReallocEntry.block] using hre re hr
      · refine copies_entered hac' (fun _ _ _ hb => by obtain ⟨b, hb, -⟩ := hb; cases hb)
          (hc.mono fun parent hmem hP => ?_)
        rcases hP with ⟨b, hb, n, hn, -, hne⟩ | ⟨-, hleak⟩
        · -- a node with a leak counted has a leaked block
          by_contra hno
          have hent := accounted_entered hac' (.msg pid sw msg)
          have hnm := mem_of_deref hn
          have hx : n.counter q = total (.node n.id) q parent.blocks := by
            rw [← counter_node_of_mem (hent.owned parent hmem) hnm.1]
            exact hI parent hmem (.node n.id) q hq
          refine hne (hx.trans (total_eq_zero fun b' hb' _ => ?_))
          have hl : b'.leaked = false := by
            by_contra hl
            exact hno ⟨b', hb', by simpa using hl⟩
          rcases hq with rfl | rfl <;> simp [Kind.weight, hl]
        · exact hleak
    · rintro c pid p l q hok hf hq
      refine .inr (.inr (total_eq_zero fun b hb _ => ?_))
      have hl : b.leaked = false := by
        rcases hok with hok | hok
        · exact hok p hf b hb
        · exact hok p hf b hb
      rcases hq with rfl | rfl <;> simp [Kind.weight, hl]
  intro p hp
  have hproc := (hex p hp .process .leaks (.inl rfl)).tallies_leaks
    (hex p hp .process .leakedBytes (.inr rfl))
  have hnode : ∀ n ∈ p.nodes, Tallies n.leaks n.bytesLeaked
      ((p.blocks.filter fun b => b.stackNode = n.id).filter (·.leaked)) := fun n hn => by
    have htal := (hex p hp (.node n.id) .leaks (.inl rfl)).tallies_leaks
      (hex p hp (.node n.id) .leakedBytes (.inr rfl))
    rw [counter_node_of_mem (hac.owned p hp) hn, counter_node_of_mem (hac.owned p hp) hn] at htal
    exact htal
  refine ⟨hproc, hnode, fun hlen hsum b hb hl => ⟨?_, fun n hn hid => ?_⟩⟩
  · have hsub : (p.blocks.filter (·.leaked)).Sublist p.blocks := List.filter_sublist
    exact Tallies.covers hproc (Nat.lt_of_le_of_lt hsub.length_le hlen)
      (Nat.lt_of_le_of_lt (sum_size_le hsub) hsum) (List.mem_filter.mpr ⟨hb, hl⟩)
  · have hsub :
        ((p.blocks.filter fun b => b.stackNode = n.id).filter (·.leaked)).Sublist p.blocks :=
      List.filter_sublist.trans List.filter_sublist
    refine (hnode n hn).covers (Nat.lt_of_le_of_lt hsub.length_le hlen)
      (Nat.lt_of_le_of_lt (sum_size_le hsub) hsum) ?_
    exact List.mem_filter.mpr ⟨List.mem_filter.mpr ⟨hb, by simpa using hid.symm⟩, hl⟩

/-- A scan has found the block at `0x602010` leaked. -/
def leakEvents : List Event :=
  startEvents ++ [mallocEvent 0x602010 16, .msg 1 false (.scan [0x602010])]

/-- Three ways to lose track of a leaked block: a `realloc` of it fails and the next release makes
the counters wrap around; a reset drops it but not the leak of its stack; a forked process has it
but does not count it. -/
theorem leaks_wrong :
    (let es := leakEvents ++ failedRealloc ++
    [.msg 1 false (.free .free isFreeOp_free ⟨0x602010, 0, []⟩)]
     Reachable plainOptions plainEnv true (stateAfter es) ∧
       ((stateAfter es).processes.map fun p => (p.blocks.length, p.leaks, p.leakedBytes)) =
         [(0, 0xffffffffffffffff, 0xfffffffffffffff0)]) ∧
    (let es := leakEvents ++ [.reset 1]
     Reachable plainOptions plainEnv true (stateAfter es) ∧
       ((stateAfter es).processes.map fun p =>
         (p.blocks.length, p.nodes.map fun n => (n.leaks, n.bytesLeaked))) = [(0, [(1, 16)])]) ∧
    (let es := leakEvents ++ [.msg 2 false (.fork 1)]
     Reachable plainOptions plainEnv true (stateAfter es) ∧
       ((stateAfter es).processes.map fun p => (p.blocks.map (·.leaked), p.leaks, p.leakedBytes)) =
         [([true], 1, 16), ([true], 0, 0)]) :=
  ⟨⟨reachable_stateAfter _, rfl⟩, ⟨reachable_stateAfter _, rfl⟩, reachable_stateAfter _, rfl⟩

/-- Of four leaked blocks one is freed, one is moved and one is unmapped in part. -/
def scannedEvents : List Event :=
  startEvents ++ [mallocEvent 0x602010 16, mallocEvent 0x603010 32, mallocEvent 0x604010 64,
    .msg 1 false (.alloc .mmap isAllocOp_mmap ⟨0x7000, 0x3000, callAt 0x20⟩),
    .msg 1 false (.scan [0x602010, 0x603010, 0x604010, 0x7000, 0x602010, 0x9999]),
    .msg 1 false (.free .free isFreeOp_free ⟨0x602010, 0, []⟩),
    .msg 1 false (.free .reallocEnter isFreeOp_reallocEnter ⟨0x603010, 1, []⟩),
    .msg 1 false (.alloc .realloc isAllocOp_realloc ⟨0x605010, 128, callAt 0x30⟩),
    .msg 1 false (.reallocDone ⟨0x605010, 1, []⟩),
    .msg 1 false (.munmap ⟨0x7000, 0x1000, []⟩)]

theorem leaksKept_scanned : ∀ e ∈ scannedEvents, ∀ c, LeaksKept c e := by
  have hmsg : ∀ m : MtMsg, (∀ re p, ¬ Restores p re m) → (∀ c p P, ¬ Copies c p P m) →
      ∀ c, LeaksKept c (.msg 1 false m) :=
    fun m hrestores hcopies c p _ => ⟨fun re hre => absurd hre (hrestores re p), hcopies c p _⟩
  have hdone : ∀ re p, ¬ Restores p re (.reallocDone ⟨0x605010, 1, []⟩) :=
    fun re p hre => absurd hre.2.1 (by decide)
  simp only [scannedEvents, startEvents, mallocEvent, List.cons_append, List.nil_append,
    List.forall_mem_cons]
  refine ⟨?_, ?_, ?_, ?_, ?_, ?_, ?_, ?_, ?_, ?_, hmsg _ hdone fun _ _ _ => id, ?_, ?_⟩
  all_goals first
    | exact hmsg _ (fun _ _ => id) fun _ _ _ => id
    | exact fun _ he => absurd he List.not_mem_nil

theorem leaks_tally_scanned :
    (stateAfter (scannedEvents.take 7)).processes.map (fun p => (p.leaks, p.leakedBytes)) =
      [(4, 0x3070)] ∧
    (stateAfter scannedEvents).processes.map (fun p =>
        (p.blocks.map fun b => (b.addr, b.leaked), p.leaks, p.leakedBytes)) =
      [([(0x8000, false), (0x604010, true), (0x605010, false)], 1, 64)] ∧
    ∀ p ∈ (stateAfter scannedEvents).processes,
      Tallies p.leaks p.leakedBytes (p.blocks.filter (·.leaked)) ∧
      ∀ n ∈ p.nodes, Tallies n.leaks n.bytesLeaked
        ((p.blocks.filter fun b => b.stackNode = n.id).filter (·.leaked)) := by
  have hreach : Reach plainOptions plainEnv LeaksKept true (stateAfter scannedEvents) :=
    Machine.reach_run scannedEvents _ _ leaksKept_scanned .init rfl
  refine ⟨rfl, rfl, fun p hp => ?_⟩
  obtain ⟨hproc, hnodes, -⟩ := leaks_tally hreach p hp
  exact ⟨hproc, hnodes⟩

end Mtrace.Client
