import Mtrace.Client.Client
import Mtrace.Client.Ownership

/-!
# Faults in `stack_add`

The two faults `stack_add` can raise, with the exact conditions on the message and on the record it
arrives in.  A message gets to `stack_add` with the backtrace `Process.adds`; what happens there is
`stackFault`.
-/

namespace Mtrace.Client

open RbTree Machine

/-- The faults of `stack_add`. -/
def Fault.ofStackAdd (f : Fault) : Prop :=
  f = .nullDeref ∨ f = .assertion "this->stack->operation == operation"

theorem Fault.ofStackAdd.ne_kill {f : Fault} (h : f.ofStackAdd) : f ≠ .kill := by
  rintro rfl
  rcases h with h | h
  · cases h
  · cases h

theorem Fault.ofStackAdd.ne_fatal {f : Fault} (h : f.ofStackAdd) (msg : String) :
    f ≠ .fatal msg := by
  rintro rfl
  rcases h with h | h
  · cases h
  · cases h

theorem Fault.ofStackAdd.not_killed {o : Options} {f : Fault} (h : f.ofStackAdd) :
    ¬ Killed o f :=
  fun hk => h.ne_kill hk.1

/-- How `stack_add` fails on a backtrace, if it does: a known one has another operation, or an
address of a new one lies in no map. -/
def stackFault (env : Env) (p : Process) (addrs : List UInt8) (operation : MtOperation) :
    Option Fault :=
  match p.stackTable.find (stackCut addrs) with
  | some x =>
    if x.val.stack.operation = operation then none
    else some (.assertion "this->stack->operation == operation")
  | none =>
    if (stackEntries env p addrs).all fun a => (locateMap p a).isSome then none
    else some .nullDeref

/-- Whether `process_free` has something to note: an address without a block, or a block that was
allocated by another kind of function. -/
def Process.notes (o : Options) (p : Process) (op : MtOperation) (m : MtAllocPayload) : Bool :=
  match processRbSearch p.blockTable m.ptr with
  | some x => (p.node? x.val.stackNode).any fun n =>
      !(isMmap n.stack.operation && o.kill) && !isSane n.stack.operation op
  | none => !p.attached && !o.kill

/-- The backtrace and the operation with which the handler of a message calls `stack_add`. -/
def Process.adds (o : Options) (p : Process) : MtMsg → Option (List UInt8 × MtOperation)
  | .alloc op _ m =>
    if p.tracing && !(o.kill && (processRbSearchRange p.blockTable m.ptr m.size).isSome) then
      some (m.data, op)
    else none
  | .free op _ m =>
    if p.tracing && m.ptr != 0 && !m.data.isEmpty && p.notes o op m then some (m.data, op)
    else none
  | _ => none

/-! ## `stack_add` -/

section StackAdd

variable {env : Env} {k : Stacks} {p : Process} {addrs : List UInt8} {op : MtOperation} {f : Fault}

theorem resolvAddress_eq_error_iff {a : UInt64} :
    resolvAddress env p a = .error f ↔ locateMap p a = none ∧ f = .nullDeref := by
  unfold resolvAddress
  cases locateMap p a with
  | none => simp [eq_comm]
  | some m => simp

theorem mapM_resolvAddress_eq_error_iff (as : List UInt64) :
    as.mapM (resolvAddress env p) = .error f ↔
      (as.all fun a => (locateMap p a).isSome) = false ∧ f = .nullDeref := by
  induction as with
  | nil => simp [pure, Except.pure]
  | cons a as ih =>
    rw [List.mapM_cons, bind_eq_error, resolvAddress_eq_error_iff, List.all_cons]
    simp only [bind_eq_error, ih, pure, Except.pure, reduceCtorEq, and_false, exists_false,
      or_false]
    cases hm : locateMap p a with
    | none => simp
    | some m =>
      obtain ⟨s, hs⟩ : ∃ s, resolvAddress env p a = .ok s := ⟨_, by rw [resolvAddress, hm]⟩
      simp [hs]

theorem stackAdd_eq_error_iff :
    stackAdd env k p addrs op = .error f ↔ stackFault env p addrs op = some f := by
  unfold stackAdd stackFault
  cases p.stackTable.find (stackCut addrs) with
  | some x =>
    by_cases hop : x.val.stack.operation = op
    · simp [hop]
    · simp [hop]
  | none =>
    simp only [stackResolv, bind_eq_error, mapM_resolvAddress_eq_error_iff, pure, Except.pure,
      reduceCtorEq, and_false, exists_false, or_false]
    cases (stackEntries env p addrs).all fun a => (locateMap p a).isSome with
    | true => simp
    | false => simp [eq_comm]

theorem ofStackAdd_of_stackFault (h : stackFault env p addrs op = some f) : f.ofStackAdd := by
  unfold stackFault at h
  cases hx : p.stackTable.find (stackCut addrs) with
  | some x =>
    rw [hx] at h
    dsimp only at h
    split at h
    · cases h
    · cases h
      exact .inr rfl
  | none =>
    rw [hx] at h
    dsimp only at h
    split at h
    · cases h
    · cases h
      exact .inl rfl

theorem stackFault_modifyNode (i : NodeId) {g : RbStack → RbStack}
    (hg : ∀ n, (g n).stack = n.stack) :
    stackFault env (p.modifyNode i g) addrs op = stackFault env p addrs op := by
  have hst : ∀ n : RbStack, (if n.id = i then g n else n).stack = n.stack := by
    intro n
    split
    · exact hg n
    · rfl
  have hcut : (stackCut addrs ∘ fun n => if n.id = i then g n else n) = stackCut addrs := by
    funext n
    simp only [Function.comp, stackCut, hst]
  have hfind : (p.modifyNode i g).stackTable.find (stackCut addrs) =
      (p.stackTable.find (stackCut addrs)).map
        (Loc.map fun n => if n.id = i then g n else n) := by
    rw [Process.modifyNode, find_map, hcut]
  unfold stackFault
  rw [hfind]
  cases p.stackTable.find (stackCut addrs) with
  | none => rfl
  | some x =>
    show (if (if x.val.id = i then g x.val else x.val).stack.operation = op then _ else _) = _
    rw [hst]

/-- Making room for a block does not change what `stack_add` does. -/
theorem stackFault_evictLoop {o : Options} {ptr size : UInt64} {fuel : ℕ} {r : Stacks × Process}
    (h : evictLoop o ptr size fuel k p = .ok r) :
    stackFault env r.2 addrs op = stackFault env p addrs op := by
  refine evictLoop_induct (P := fun _ q => stackFault env q addrs op = stackFault env p addrs op)
    (fun k' q x n hq hs hn => ?_) fuel k p r rfl h
  exact (stackFault_modifyNode (p := q) (g := RbStack.drop x.val) x.val.stackNode
    fun n => rfl).trans hq

end StackAdd

/-! ## The handlers -/

section Handlers

variable {o : Options} {env : Env} {c : State} {k : Stacks} {p : Process} {ext : NodeId → ℕ}
  {rest : StackId → ℕ} {m : MtAllocPayload} {f : Fault}

/-- The message gets to `stack_add`, which fails. -/
def Process.FailsIn (o : Options) (env : Env) (p : Process) (f : Fault) (m : MtMsg) : Prop :=
  ∃ addrs op, p.adds o m = some (addrs, op) ∧ stackFault env p addrs op = some f

theorem failsIn_alloc_iff {op : MtOperation} {hop : isAllocOp op = true} :
    p.FailsIn o env f (.alloc op hop m) ↔ p.tracing = true ∧
      (o.kill = true → processRbSearchRange p.blockTable m.ptr m.size = none) ∧
      stackFault env p m.data op = some f := by
  unfold Process.FailsIn Process.adds
  constructor
  · rintro ⟨addrs, op', hadds, hf⟩
    dsimp only at hadds
    split at hadds
    next hc =>
      cases hadds
      simp only [Bool.and_eq_true, Bool.not_eq_true', Bool.and_eq_false_iff] at hc
      refine ⟨hc.1, fun hk => ?_, hf⟩
      rcases hc.2 with h | h
      · rw [hk] at h
        cases h
      · simpa using h
    · cases hadds
  · rintro ⟨ht, hk, hf⟩
    refine ⟨m.data, op, ?_, hf⟩
    dsimp only
    rw [if_pos]
    cases hkill : o.kill with
    | false => simp [ht]
    | true => simp [ht, hk hkill]

theorem Owned.processAlloc_eq_error_iff {op : MtOperation} (hop : isAllocOp op = true)
    (h : Owned k p ext rest) (hf : f.ofStackAdd) :
    processAlloc o env k p op m = .error f ↔ p.FailsIn o env f (.alloc op hop m) := by
  rw [failsIn_alloc_iff]
  constructor
  · intro herr
    have ht : p.tracing = true := by
      by_contra ht
      rw [processAlloc, if_pos (by simpa using ht)] at herr
      cases herr
    rcases h.processAlloc_ends.error herr with hk | ⟨k1, p1, hev, hadd⟩
    · exact absurd hk hf.not_killed
    refine ⟨ht, fun hk => ?_, ?_⟩
    · rcases hs : processRbSearchRange p.blockTable m.ptr m.size with _ | x
      · rfl
      · -- there is a block in the table, so the loop makes a pass
        have hpos : p.blockTable.size ≠ 0 := by
          have hmem := mem_of_find hs
          rw [← length_toList]
          exact List.length_pos_of_mem hmem |>.ne'
        obtain ⟨fuel, hfuel⟩ := Nat.exists_eq_succ_of_ne_zero hpos
        rw [hfuel, evictLoop, hs] at hev
        dsimp only at hev
        rw [if_pos hk] at hev
        cases hev
    · rw [← stackFault_evictLoop hev]
      exact stackAdd_eq_error_iff.mp hadd
  · rintro ⟨ht, hk, hfault⟩
    obtain ⟨r, hev⟩ : ∃ r, evictLoop o m.ptr m.size p.blockTable.size k p = .ok r := by
      by_cases hkill : o.kill = true
      · exact ⟨_, evictLoop_of_none _ (hk hkill)⟩
      · rcases hev : evictLoop o m.ptr m.size p.blockTable.size k p with f' | r
        · exact absurd ((h.evictLoop_ends _).error hev).2 hkill
        · exact ⟨r, rfl⟩
    rw [processAlloc, if_neg (by simp [ht]), hev]
    refine bind_eq_error.mpr (.inr ⟨r, rfl, bind_eq_error.mpr (.inl ?_)⟩)
    rw [stackAdd_eq_error_iff, stackFault_evictLoop hev]
    exact hfault

theorem failsIn_free_iff {op : MtOperation} {hop : isFreeOp op = true} :
    p.FailsIn o env f (.free op hop m) ↔ p.tracing = true ∧ m.ptr ≠ 0 ∧ m.data ≠ [] ∧
      p.notes o op m = true ∧ stackFault env p m.data op = some f := by
  unfold Process.FailsIn Process.adds
  constructor
  · rintro ⟨addrs, op', hadds, hf⟩
    dsimp only at hadds
    split at hadds
    next hc =>
      cases hadds
      simp only [Bool.and_eq_true, bne_iff_ne, Bool.not_eq_true', List.isEmpty_eq_false_iff] at hc
      exact ⟨hc.1.1.1, hc.1.1.2, hc.1.2, hc.2, hf⟩
    · cases hadds
  · rintro ⟨ht, hz, hd, hn, hf⟩
    refine ⟨m.data, op, if_pos ?_, hf⟩
    simp only [Bool.and_eq_true, bne_iff_ne, Bool.not_eq_true', List.isEmpty_eq_false_iff]
    exact ⟨⟨⟨ht, hz⟩, hd⟩, hn⟩

theorem noteStack_eq_error_iff {data : List UInt8} {op : MtOperation} {g : RbStack → RbStack} :
    noteStack env k p data op g = .error f ↔ stackFault env p data op = some f := by
  rw [noteStack, bind_eq_error, stackAdd_eq_error_iff]
  simp [pure, Except.pure]

theorem noteBadfree_eq_error_iff {data : List UInt8} {op : MtOperation} (hf : f.ofStackAdd) :
    noteBadfree o env k p data op = .error f ↔ data ≠ [] ∧ (!p.attached && !o.kill) = true ∧
      stackFault env p data op = some f := by
  have hkill := hf.ne_kill
  unfold noteBadfree
  by_cases ha : p.attached = true
  · simp [ha]
  by_cases hk : o.kill = true
  · simp [ha, hk, hkill.symm]
  by_cases hd : data = []
  · simp [ha, hk, hd]
  · simp [ha, hk, hd, noteStack_eq_error_iff]

theorem noteMismatch_eq_error_iff {data : List UInt8} {alloc op : MtOperation} :
    noteMismatch env k p data alloc op = .error f ↔ data ≠ [] ∧ isSane alloc op = false ∧
      stackFault env p data op = some f := by
  unfold noteMismatch
  by_cases hd : data = []
  · simp [hd]
  by_cases hs : isSane alloc op = true
  · simp [hs]
  · simp [hd, hs, noteStack_eq_error_iff]

theorem Owned.processFree_eq_error_iff {op : MtOperation} (hop : isFreeOp op = true)
    (h : Owned k p ext rest) (hf : f.ofStackAdd) :
    processFree o env k p op m = .error f ↔ p.FailsIn o env f (.free op hop m) := by
  rw [failsIn_free_iff]
  by_cases ht : p.tracing = true
  swap
  · rw [processFree, if_pos (by simpa using ht)]
    simp [ht]
  by_cases hz : m.ptr = 0
  · rw [processFree, if_neg (by simp [ht]), if_pos hz]
    simp [hz]
  have hkill := hf.ne_kill
  rw [processFree, if_neg (by simp [ht]), if_neg hz]
  unfold Process.notes
  rcases hs : processRbSearch p.blockTable m.ptr with _ | x
  · have hrest : ∀ r : Stacks × Process,
        enterRealloc r.1 r.2 op ⟨m.size.toUInt32, 0, 0, 0, none⟩ ≠ .error f := by
      intro r hr
      have hends : Ends (fun _ => False) (fun _ => True)
          (enterRealloc r.1 r.2 op ⟨m.size.toUInt32, 0, 0, 0, none⟩) :=
        enterRealloc_ends fun i hi => by cases hi
      exact hends.error hr
    dsimp only
    rw [bind_eq_error, noteBadfree_eq_error_iff hf]
    simp only [hrest, and_false, exists_false, or_false, ht, hz, ne_eq, not_false_eq_true, true_and]
  · obtain ⟨n, hn⟩ := h.deref_block (mem_of_find hs)
    obtain ⟨hnode, -⟩ := Process.deref_eq_ok.mp hn
    have hrest : ∀ r, noteMismatch env k p m.data n.stack.operation op = .ok r →
        (enterRealloc r.1 r.2 op ⟨m.size.toUInt32, x.val.addr, x.val.size, x.val.flags,
          some x.val.stackNode⟩ >>= fun r => processRbDeleteBlock r.1 r.2 x) ≠ .error f := by
      intro r h1 hr
      obtain ⟨hch, hbl, -⟩ := (noted_of_noteMismatch h1).chain (C := fun _ => True) trivial
      have hmem : x.val ∈ r.2.blocks := by rw [Process.blocks, hbl]; exact mem_of_find hs
      exact ((h.chain hch).releaseBlock_ends hmem rfl).error hr
    dsimp only
    rw [hn, hnode, Option.any_some]
    cases hmm : isMmap n.stack.operation && o.kill with
    | true =>
      show (if (isMmap n.stack.operation && o.kill) = true then _ else _) = _ ↔ _
      rw [if_pos hmm]
      simp [hkill.symm]
    | false =>
      show (if (isMmap n.stack.operation && o.kill) = true then _ else _) = _ ↔ _
      rw [if_neg (by simp [hmm]), Bool.not_false, Bool.true_and]
      refine bind_eq_error.trans ?_
      rw [noteMismatch_eq_error_iff]
      constructor
      · rintro (⟨hd, hns, hfault⟩ | ⟨r, h1, h2⟩)
        · exact ⟨ht, hz, hd, by simpa using hns, hfault⟩
        · exact absurd h2 (hrest r h1)
      · rintro ⟨-, -, hd, hns, hfault⟩
        exact .inl ⟨hd, by simpa using hns, hfault⟩

/-- `process_alloc` fails under `--kill` or in `stack_add`. -/
theorem Owned.processAlloc_fails {op : MtOperation} (hop : isAllocOp op = true)
    (h : Owned k p ext rest) :
    Ends (fun f => Killed o f ∨ p.FailsIn o env f (.alloc op hop m)) (fun _ => True)
      (processAlloc o env k p op m) := by
  rcases hr : processAlloc o env k p op m with f | r
  · rcases h.processAlloc_ends.error hr with hk | ⟨k1, p1, -, hadd⟩
    · exact .inl hk
    · have hf := ofStackAdd_of_stackFault (stackAdd_eq_error_iff.mp hadd)
      exact .inr ((h.processAlloc_eq_error_iff hop hf).mp hr)
  · trivial

/-- `process_free` fails under `--kill` or in `stack_add`. -/
theorem Owned.processFree_fails {op : MtOperation} (hop : isFreeOp op = true)
    (h : Owned k p ext rest) :
    Ends (fun f => Killed o f ∨ p.FailsIn o env f (.free op hop m)) (fun _ => True)
      (processFree o env k p op m) := by
  rcases hr : processFree o env k p op m with f | r
  · rcases h.processFree_ends.error hr with hk | hadd
    · exact .inl hk
    · have hf := ofStackAdd_of_stackFault (stackAdd_eq_error_iff.mp hadd)
      exact .inr ((h.processFree_eq_error_iff hop hf).mp hr)
  · trivial

end Handlers

end Mtrace.Client
