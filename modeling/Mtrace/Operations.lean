import Mtrace.Client.Backtraces
import Mtrace.Server.Report

/-!
# Backtraces and operations

The client finds a backtrace in its stack table by the bytes of the payload, and asserts that it was
reported with the same operation.  Every intercepted function reports its backtraces with one
operation, except for `realloc`: its entry is reported as `MT_REALLOC_ENTER`, with a backtrace in
sanity mode, and its return as `MT_REALLOC`.
-/

namespace Mtrace

open Client Server Machine RbTree

/-! ## What the reporters send -/

/-- The function sends a message with this operation and this backtrace, on a call or on its
return. -/
def Server.Function.Reports (f : Function) (cfg : Config) (op : MtOperation)
    (data : List UInt8) : Prop :=
  ∃ g, (g = f.reportIn ∨ g = f.reportOut) ∧ ∃ libsym t t' ms m,
    reportBy g cfg libsym t = .ok (t', ms) ∧ (op, m) ∈ ms ∧ m.data = data

/-- The reporter sends backtraces with one operation only. -/
def Tags (cfg : Config) (op : MtOperation) (g : Option Reporter) : Prop :=
  ∀ libsym t t' ms op' m, reportBy g cfg libsym t = .ok (t', ms) → (op', m) ∈ ms → m.data ≠ [] →
    op' = op

section Tags

variable {cfg : Config} {op op' : MtOperation} {libsym : LibrarySymbol} {t : Task}
  {m : MtAllocPayload}

theorem op_of_mem_reportAlloc {ptr size : UInt64} {depth : ℕ}
    (h : (op', m) ∈ reportAlloc cfg t op ptr size depth libsym) : op' = op := by
  unfold reportAlloc reportAllocSized at h
  split at h
  · cases h
  · cases List.mem_singleton.mp h
    rfl

/-- Without a depth there is no backtrace. -/
theorem data_of_mem_reportAlloc {ptr size : UInt64}
    (h : (op', m) ∈ reportAlloc cfg t op ptr size 0 libsym) : m.data = [] := by
  unfold reportAlloc reportAllocSized at h
  split at h
  · cases h
  · cases List.mem_singleton.mp h
    rfl

theorem tags_none : Tags cfg op none := by
  intro libsym t t' ms op' m h hm
  cases h
  cases hm

/-- A reporter that sends what `report_alloc` does, or nothing. -/
theorem tags_of_reportAlloc {g : Reporter}
    (h : ∀ libsym t t' ms, g cfg libsym t = .ok (t', ms) → ms = [] ∨
      ∃ ptr size depth, ms = reportAlloc cfg t op ptr size depth libsym) :
    Tags cfg op (some g) := by
  intro libsym t t' ms op' m hg hm _
  rcases h libsym t t' ms hg with rfl | ⟨ptr, size, depth, rfl⟩
  · cases hm
  · exact op_of_mem_reportAlloc hm

/-- A reporter that sends what `report_alloc` does. -/
theorem tags_of_eq {g : Reporter} {ptr size : LibrarySymbol → Task → UInt64} {depth : ℕ}
    (h : ∀ libsym t, g cfg libsym t =
      .ok (t, reportAlloc cfg t op (ptr libsym t) (size libsym t) depth libsym)) :
    Tags cfg op (some g) := by
  refine tags_of_reportAlloc fun libsym t t' ms hg => ?_
  cases (h libsym t).symm.trans hg
  exact .inr ⟨_, _, _, rfl⟩

/-- A reporter that does so unless the call has failed. -/
theorem tags_of_ite {g : Reporter} {ptr size : LibrarySymbol → Task → UInt64} {depth : ℕ}
    {failed : Task → Prop} [DecidablePred failed]
    (h : ∀ libsym t, g cfg libsym t = if failed t then .ok (t, []) else
      .ok (t, reportAlloc cfg t op (ptr libsym t) (size libsym t) depth libsym)) :
    Tags cfg op (some g) := by
  refine tags_of_reportAlloc fun libsym t t' ms hg => ?_
  have hg' := (h libsym t).symm.trans hg
  split at hg'
  · cases hg'
    exact .inl rfl
  · cases hg'
    exact .inr ⟨_, _, _, rfl⟩

/-- A reporter without a depth sends no backtraces. -/
theorem tags_of_zero {g : Reporter} {op'' : MtOperation} {ptr size : LibrarySymbol → Task → UInt64}
    (h : ∀ libsym t, g cfg libsym t =
      .ok (t, reportAlloc cfg t op'' (ptr libsym t) (size libsym t) 0 libsym)) :
    Tags cfg op (some g) := by
  intro libsym t t' ms op' m hg hm hd
  cases (h libsym t).symm.trans hg
  exact absurd (data_of_mem_reportAlloc hm) hd

theorem tags_realloc : Tags cfg .reallocEnter (some reportRealloc) := by
  refine tags_of_reportAlloc fun libsym t t' ms hg => ?_
  have hg' : reportRealloc cfg libsym t = .ok (t', ms) := hg
  unfold reportRealloc at hg'
  split at hg'
  · cases hg'
  split at hg'
  · cases hg'
    exact .inr ⟨_, _, _, rfl⟩
  · cases hg'
    exact .inl rfl

/-- Without sanity mode the entry of `realloc` is reported without a backtrace. -/
theorem tags_realloc_of_not_sanity (hs : cfg.sanity = false) :
    Tags cfg op (some reportRealloc) := by
  intro libsym t t' ms op' m hg hm hd
  have hg' : reportRealloc cfg libsym t = .ok (t', ms) := hg
  unfold reportRealloc at hg'
  rw [hs, if_neg Bool.false_ne_true] at hg'
  split at hg'
  · cases hg'
  split at hg'
  · cases hg'
    exact absurd (data_of_mem_reportAlloc hm) hd
  · cases hg'
    cases hm

theorem tags_reallocOut : Tags cfg .realloc (some reportReallocOut) := by
  intro libsym t t' ms op' m hg hm hd
  have hdone : (op', m) ∈ (if t.retval ≠ 0 then
      reportAlloc cfg t .realloc t.retval (t.param 1) cfg.btDepth libsym else []) →
        op' = .realloc := by
    intro h
    split at h
    · exact op_of_mem_reportAlloc h
    · cases h
  have hg' : reportReallocOut cfg libsym t = .ok (t', ms) := hg
  unfold reportReallocOut at hg'
  dsimp only at hg'
  split at hg'
  · cases hg'
    exact hdone hm
  · cases hg'
    rcases List.mem_append.mp hm with hm | hm
    · exact hdone hm
    · cases List.mem_singleton.mp hm
      exact absurd rfl hd

end Tags

/-- The function reports its backtraces with one operation, or it is `realloc`. -/
def OneOperation (cfg : Config) (f : Function) : Prop :=
  (∃ op, Tags cfg op f.reportIn ∧ Tags cfg op f.reportOut) ∨
    f.reportIn = some reportRealloc ∧ f.reportOut = some reportReallocOut

theorem oneOperation_out {cfg : Config} {name : String} {g : Reporter} {op : MtOperation}
    (h : Tags cfg op (some g)) : OneOperation cfg ⟨name, none, some g⟩ :=
  .inl ⟨op, tags_none, h⟩

theorem oneOperation_in {cfg : Config} {name : String} {g : Reporter} {op : MtOperation}
    (h : Tags cfg op (some g)) : OneOperation cfg ⟨name, some g, none⟩ :=
  .inl ⟨op, h, tags_none⟩

theorem oneOperation_of_mem (cfg : Config) {f : Function} (hf : f ∈ flist) :
    OneOperation cfg f := by
  have hmalloc : ∀ name, OneOperation cfg ⟨name, none, some reportMallocOut⟩ :=
    fun name => oneOperation_out (tags_of_eq fun _ _ => rfl)
  have hnew : ∀ name, OneOperation cfg ⟨name, none, some reportNewOut⟩ :=
    fun name => oneOperation_out (tags_of_eq fun _ _ => rfl)
  have hnewArray : ∀ name, OneOperation cfg ⟨name, none, some reportNewArrayOut⟩ :=
    fun name => oneOperation_out (tags_of_eq fun _ _ => rfl)
  have hfree : ∀ name, OneOperation cfg ⟨name, some reportFree, none⟩ :=
    fun name => oneOperation_in (tags_of_eq fun _ _ => rfl)
  have hdelete : ∀ name, OneOperation cfg ⟨name, some reportDelete, none⟩ :=
    fun name => oneOperation_in (tags_of_eq fun _ _ => rfl)
  have hdeleteArray : ∀ name, OneOperation cfg ⟨name, some reportDeleteArray, none⟩ :=
    fun name => oneOperation_in (tags_of_eq fun _ _ => rfl)
  revert f
  simp only [flist, List.forall_mem_cons]
  refine ⟨hmalloc _, hfree _, .inr ⟨rfl, rfl⟩, oneOperation_out (tags_of_eq fun _ _ => rfl),
    oneOperation_out (tags_of_ite fun _ _ => rfl), oneOperation_out (tags_of_ite fun _ _ => rfl),
    oneOperation_out (tags_of_ite fun _ _ => rfl),
    .inl ⟨.munmap, tags_of_zero fun _ _ => rfl, tags_none⟩,
      oneOperation_out (tags_of_eq fun _ _ => rfl),
    oneOperation_out (tags_of_eq fun _ _ => rfl), oneOperation_out (tags_of_eq fun _ _ => rfl),
    oneOperation_out (tags_of_eq fun _ _ => rfl),
    .inl ⟨.mmap, tags_of_zero fun _ _ => rfl, tags_of_eq fun _ _ => rfl⟩, hfree _,
    oneOperation_out (tags_of_eq fun _ _ => rfl), ?_⟩
  refine ⟨hnew _, hnewArray _, hnew _, hnewArray _, hnew _, hnewArray _, hnew _, hnewArray _,
    hnew _, hnewArray _, hnew _, hnewArray _, hnew _, hnewArray _, hnew _, hnewArray _, ?_⟩
  refine ⟨hdelete _, hdeleteArray _, hdelete _, hdeleteArray _, hdelete _, hdeleteArray _,
    hdelete _, hdeleteArray _, hdelete _, hdeleteArray _, hdelete _, hdeleteArray _, hdelete _,
    hdeleteArray _, hdelete _, hdeleteArray _, ?_⟩
  exact fun f hf => absurd hf List.not_mem_nil

/-- The two operations of a `realloc`. -/
def ReallocPair (op op' : MtOperation) : Prop :=
  op = .realloc ∧ op' = .reallocEnter ∨ op = .reallocEnter ∧ op' = .realloc

/-- Two operations with which a function reports backtraces are the same, or those of a `realloc` in
sanity mode. -/
theorem operation_unique {cfg : Config} {f : Function} (hf : f ∈ flist) {op op' : MtOperation}
    {data data' : List UInt8} (hd : data ≠ []) (hd' : data' ≠ []) (h : f.Reports cfg op data)
    (h' : f.Reports cfg op' data') : op = op' ∨ cfg.sanity = true ∧ ReallocPair op op' := by
  obtain ⟨g, hg, libsym, t, t1, ms, m, hr, hm, rfl⟩ := h
  obtain ⟨g', hg', libsym', t', t1', ms', m', hr', hm', rfl⟩ := h'
  rcases oneOperation_of_mem cfg hf with ⟨op0, hin, hout⟩ | ⟨hin, hout⟩
  · have htags : ∀ g, g = f.reportIn ∨ g = f.reportOut → Tags cfg op0 g := by
      rintro g (rfl | rfl)
      · exact hin
      · exact hout
    exact .inl ((htags g hg _ _ _ _ _ _ hr hm hd).trans
      (htags g' hg' _ _ _ _ _ _ hr' hm' hd').symm)
  · -- an entry and a return of `realloc`, or twice the same
    rw [hin, hout] at hg hg'
    cases hs : cfg.sanity with
    | false =>
      have htags : ∀ g, g = some reportRealloc ∨ g = some reportReallocOut →
          Tags cfg .realloc g := by
        rintro g (rfl | rfl)
        · exact tags_realloc_of_not_sanity hs
        · exact tags_reallocOut
      exact .inl ((htags g hg _ _ _ _ _ _ hr hm hd).trans
        (htags g' hg' _ _ _ _ _ _ hr' hm' hd').symm)
    | true =>
      rcases hg with rfl | rfl
      · have hop := tags_realloc _ _ _ _ _ _ hr hm hd
        rcases hg' with rfl | rfl
        · exact .inl (hop.trans (tags_realloc _ _ _ _ _ _ hr' hm' hd').symm)
        · exact .inr ⟨rfl, .inr ⟨hop, tags_reallocOut _ _ _ _ _ _ hr' hm' hd'⟩⟩
      · have hop := tags_reallocOut _ _ _ _ _ _ hr hm hd
        rcases hg' with rfl | rfl
        · exact .inr ⟨rfl, .inl ⟨hop, tags_realloc _ _ _ _ _ _ hr' hm' hd'⟩⟩
        · exact .inl (hop.trans (tags_reallocOut _ _ _ _ _ _ hr' hm' hd').symm)

/-! ## What the client makes of it -/

/-- The message comes from a reporter, and `owner` says of which function: the backtrace starts with
the address of its symbol. -/
def Reported (cfg : Config) (owner : List UInt8 → Function) : Event → Prop
  | .msg _ _ (.alloc op _ m) =>
    m.data ≠ [] ∧ owner m.data ∈ flist ∧ (owner m.data).Reports cfg op m.data
  | .msg _ _ (.free op _ m) =>
    m.data ≠ [] → owner m.data ∈ flist ∧ (owner m.data).Reports cfg op m.data
  | _ => True

/-- The message brings a backtrace of `realloc` to `stack_add` that the record has from the other
end of a `realloc` call. -/
def Clashes (o : Options) (c : Client.State) : Event → Prop
  | .msg pid sw m => pid ≠ 0 ∧ ∃ p, c.target (.msg pid sw m) = some p ∧
      ∃ addrs op x, p.adds o m = some (addrs, op) ∧
        p.stackTable.find (stackCut addrs) = some x ∧ ReallocPair op x.val.stack.operation
  | _ => False

section Run

variable {cfg : Config} {owner : List UInt8 → Function} {o : Options} {env : Env} {doTrace : Bool}
  {c : Client.State} {p : Process}

/-- A backtrace in a stack table was reported by its function. -/
def Known (cfg : Config) (owner : List UInt8 → Function) (st : Stack) : Prop :=
  st.addrs ≠ [] ∧ owner st.addrs ∈ flist ∧ (owner st.addrs).Reports cfg st.operation st.addrs

theorem known_of_brings {e : Event} {st : Stack} (hok : Reported cfg owner e) (h : e.Brings st) :
    Known cfg owner st := by
  unfold Event.Brings at h
  split at h
  · obtain ⟨ha, rfl⟩ := h
    unfold Known
    rw [ha]
    exact hok
  · obtain ⟨hd, ha, rfl⟩ := h
    unfold Known
    rw [ha]
    exact ⟨hd, hok hd⟩
  · exact h.elim

theorem Reach.known (h : Reach o env (fun _ e => Reported cfg owner e) doTrace c) :
    ∀ p ∈ c.processes, ∀ st ∈ p.stacks, Known cfg owner st := by
  refine h.records (I := fun p => ∀ st ∈ p.stacks, Known cfg owner st) ?_ ?_
  · intro pid sw tracing st hst
    cases hst
  · intro c e p p' hac hok hI ht hev st hst
    have hent := accounted_entered hac e
    have hp := target_mem hac ht
    rcases mem_stacks_evolves (hent.owned p hp) (hent.counted p hp) hev st hst with
      hst | ⟨q, hq, hst⟩ | hbr
    · exact hI p hp st hst
    · exact hI q hq st hst
    · exact known_of_brings hok hbr

theorem brings_of_adds {pid : UInt16} {sw : Bool} {m : MtMsg} {addrs : List UInt8}
    {op : MtOperation} (h : p.adds o m = some (addrs, op)) (i : StackId) (ignore : Bool) :
    (Event.msg pid sw m).Brings ⟨i, addrs, op, ignore⟩ := by
  unfold Process.adds at h
  split at h
  · split at h
    · cases h
      exact ⟨rfl, rfl⟩
    · cases h
  · split at h
    next hc =>
      cases h
      simp only [Bool.and_eq_true, Bool.not_eq_true', List.isEmpty_eq_false_iff] at hc
      exact ⟨hc.1.2, rfl, rfl⟩
    · cases h
  · cases h

theorem stackFault_eq_assertion_iff {addrs : List UInt8} {op : MtOperation} :
    stackFault env p addrs op = some (.assertion "this->stack->operation == operation") ↔
      ∃ x, p.stackTable.find (stackCut addrs) = some x ∧ x.val.stack.operation ≠ op := by
  unfold stackFault
  cases p.stackTable.find (stackCut addrs) with
  | some x => simp
  | none =>
    dsimp only
    split <;> simp

/-- The assertion fails over a backtrace of `realloc`, in sanity mode. -/
theorem fails_assertion_iff {e : Event} (hac : Accounted c) (hok : Reported cfg owner e)
    (hI : ∀ p ∈ c.processes, ∀ st ∈ p.stacks, Known cfg owner st) :
    c.Fails o env (.assertion "this->stack->operation == operation") e ↔
      cfg.sanity = true ∧ Clashes o c e := by
  cases e with
  | msg pid sw m =>
    have hI' : ∀ q ∈ (c.entered (.msg pid sw m)).processes, ∀ st ∈ q.stacks,
        Known cfg owner st := by
      intro q hq st hst
      rcases entered_cases hac hq with hq | ⟨pid', sw', tracing, rfl⟩
      · exact hI q hq st hst
      · cases hst
    constructor
    · rintro ⟨hz, p, ht, ⟨addrs, op, hadds, hf⟩ | ⟨hf, -⟩⟩
      · obtain ⟨x, hx, hne⟩ := stackFault_eq_assertion_iff.mp hf
        have hbr : (Event.msg pid sw m).Brings ⟨0, addrs, op, false⟩ := brings_of_adds hadds 0 false
        obtain ⟨hd, hmem, hrep⟩ := known_of_brings hok hbr
        obtain ⟨hd', -, hrep'⟩ := hI' p (target_mem hac ht) x.val.stack
          (List.mem_map.mpr ⟨x.val, mem_of_find hx, rfl⟩)
        rw [addrs_of_find hx] at hd' hrep'
        rcases operation_unique hmem hd hd' hrep hrep' with heq | ⟨hs, hpair⟩
        · exact absurd heq.symm hne
        · exact ⟨hs, hz, p, ht, addrs, op, x, hadds, hx, hpair⟩
      · cases hf
    · rintro ⟨-, hz, p, ht, addrs, op, x, hadds, hx, hpair⟩
      refine ⟨hz, p, ht, .inl ⟨addrs, op, hadds, stackFault_eq_assertion_iff.mpr ⟨x, hx, ?_⟩⟩⟩
      rcases hpair with ⟨rfl, h⟩ | ⟨rfl, h⟩
      · rw [h]
        decide
      · rw [h]
        decide
  | _ => exact iff_of_false id fun h => h.2

/-- The block of an allocation gets a node of the backtrace and the operation of its message. -/
theorem node_of_processAlloc {k : Stacks} {op : MtOperation} {m : MtAllocPayload}
    {r : Stacks × Process} (ht : p.tracing = true) (h : processAlloc o env k p op m = .ok r) :
    ∃ b ∈ r.2.blocks, b.addr = m.ptr ∧ b.size = m.size ∧
      ∃ n ∈ r.2.nodes, n.id = b.stackNode ∧ n.stack.addrs = m.data ∧ n.stack.operation = op := by
  rcases processAlloc_cases h with ⟨hf, -⟩ | ⟨-, k1, p1, k2, p2, i, n, -, hadd, -, rfl⟩
  · rw [ht] at hf
    cases hf
  obtain ⟨-, n', hn', hid, ha, hop⟩ := stackAdd_spec hadd
  refine ⟨⟨0, m.ptr, m.size, i⟩, mem_addBlock.mpr (.inl rfl), rfl, rfl, ?_⟩
  -- the counters of the node change, its backtrace does not
  obtain ⟨g, hg, hnodes⟩ : ∃ g : RbStack → RbStack,
      (∀ n, (g n).id = n.id ∧ (g n).stack = n.stack) ∧
        ((p2.addBlock ⟨0, m.ptr, m.size, i⟩).charge i m.size).nodes = p2.nodes.map g := by
    refine ⟨_, ?_, (Process.nodes_modifyNode ..).trans
      ((congrArg _ (Process.nodes_modifyNode ..)).trans (List.map_map ..))⟩
    intro n
    by_cases hn : n.id = i
    · simp [hn, RbStack.add]
    · simp [hn]
  refine ⟨g n', ?_, (hg n').1.trans hid, ?_, ?_⟩
  · rw [hnodes]
    exact List.mem_map_of_mem hn'
  · rw [(hg n').2]
    exact ha
  · rw [(hg n').2]
    exact hop

/-- On messages of the reporters the assertion of `stack_add` fails exactly when, in sanity mode, a
backtrace of `realloc` comes from its entry and from its return, and without it never.  A block gets
a node of the operation it was reported with. -/
theorem operation_clash_iff (cfg : Config) (owner : List UInt8 → Function) (o : Options) (env : Env)
    (doTrace : Bool) (es : List Event) (hes : ∀ e ∈ es, Reported cfg owner e) :
    (run (State.step o env) (.init doTrace) es =
        .error (.assertion "this->stack->operation == operation") ↔
      cfg.sanity = true ∧ ∃ before e after c, es = before ++ e :: after ∧
        run (State.step o env) (.init doTrace) before = .ok c ∧ Clashes o c e) ∧
    ∀ c, run (State.step o env) (.init doTrace) es = .ok c → ∀ p ∈ c.processes, ∀ op m r,
      p.tracing = true → processAlloc o env c.heap p op m = .ok r →
      ∃ b ∈ r.2.blocks, b.addr = m.ptr ∧ b.size = m.size ∧
        ∃ n ∈ r.2.nodes, n.id = b.stackNode ∧ n.stack.addrs = m.data ∧ n.stack.operation = op := by
  refine ⟨?_, fun c _ p _ op m r ht h => node_of_processAlloc ht h⟩
  have hstep : ∀ before e after c, es = before ++ e :: after →
      run (State.step o env) (.init doTrace) before = .ok c →
      (c.step o env e = .error (.assertion "this->stack->operation == operation") ↔
        cfg.sanity = true ∧ Clashes o c e) := by
    intro before e after c hsplit hrun
    have hmem : ∀ e' ∈ before, ∀ _ : Client.State, Reported cfg owner e' := by
      intro e' he' _
      exact hes e' (hsplit ▸ List.mem_append_left _ he')
    have hreach : Reach o env (fun _ e => Reported cfg owner e) doTrace c :=
      reach_run before _ c hmem .init hrun
    have hok : Reported cfg owner e := hes e (hsplit ▸ List.mem_append_right _ List.mem_cons_self)
    rw [step_eq_error_iff (Client.Reach.accounted hreach) (.inr rfl)]
    exact fails_assertion_iff (Client.Reach.accounted hreach) hok (Reach.known hreach)
  rw [run_eq_error_iff]
  constructor
  · rintro ⟨before, e, after, c, hsplit, hrun, herr⟩
    obtain ⟨hs, hclash⟩ := (hstep before e after c hsplit hrun).mp herr
    exact ⟨hs, before, e, after, c, hsplit, hrun, hclash⟩
  · rintro ⟨hs, before, e, after, c, hsplit, hrun, hclash⟩
    exact ⟨before, e, after, c, hsplit, hrun, (hstep before e after c hsplit hrun).mpr ⟨hs, hclash⟩⟩

end Run

/-! ## A program that reallocates a stray pointer -/

/-- Sanity mode, with backtraces of up to 16 entries. -/
def sanityConfig : Config := ⟨true, 16, true, false⟩

/-- Thread 1 in `realloc`, called from `0x400010`. -/
def reallocTask (ptr retval : UInt64) (inRealloc : Bool) (frames : List Frame) : Task where
  pid := 1
  is64bit := true
  inRealloc := inRealloc
  saved := inRegs fun i => if i = 0 then ptr else 16
  retval := retval
  mem := noWords
  frames := frames

/-- The backtrace of both ends of the call: at the entry the frame of `realloc` itself is left out,
because it is the address the backtrace starts with. -/
def reallocTrace : List UInt8 := [0, 1, 0x40, 0, 0, 0, 0, 0, 0x10, 0, 0x40, 0, 0, 0, 0, 0]

/-- A block is allocated by `realloc`, and from the same place `realloc` is called with an address
that is no block. -/
def reallocEvents : List Event :=
  startEvents ++ [.msg 1 false (.alloc .realloc isAllocOp_realloc ⟨0x602010, 16, reallocTrace⟩),
    .msg 1 false (.free .reallocEnter isFreeOp_reallocEnter ⟨0x603000, 1, reallocTrace⟩)]

/-- The reporters send the same backtrace from both ends of `realloc`, and the client aborts. -/
theorem realloc_clashes :
    (∃ t, reportReallocOut sanityConfig ⟨0x400100⟩
        (reallocTask 0 0x602010 false [⟨false, 0x400010⟩]) =
      .ok (t, [(.realloc, ⟨0x602010, 16, reallocTrace⟩)])) ∧
    (∃ t, reportRealloc sanityConfig ⟨0x400100⟩
        (reallocTask 0x603000 0 false [⟨false, 0x400100⟩, ⟨false, 0x400010⟩]) =
      .ok (t, [(.reallocEnter, ⟨0x603000, 1, reallocTrace⟩)])) ∧
    run (State.step plainOptions plainEnv) (.init true) reallocEvents =
      .error (.assertion "this->stack->operation == operation") :=
  ⟨⟨_, rfl⟩, ⟨_, rfl⟩, rfl⟩

/-- The function `realloc`. -/
def reallocFunction : Function := ⟨"realloc", some reportRealloc, some reportReallocOut⟩

theorem reported_reallocEvents :
    ∀ e ∈ reallocEvents, Reported sanityConfig (fun _ => reallocFunction) e := by
  have hmem : reallocFunction ∈ flist :=
    List.mem_cons_of_mem _ (List.mem_cons_of_mem _ List.mem_cons_self)
  have hout : reallocFunction.Reports sanityConfig .realloc reallocTrace :=
    ⟨_, .inr rfl, ⟨0x400100⟩, reallocTask 0 0x602010 false [⟨false, 0x400010⟩], _, _,
      ⟨0x602010, 16, reallocTrace⟩, rfl, List.mem_singleton_self _, rfl⟩
  have hin : reallocFunction.Reports sanityConfig .reallocEnter reallocTrace :=
    ⟨_, .inl rfl, ⟨0x400100⟩,
      reallocTask 0x603000 0 false [⟨false, 0x400100⟩, ⟨false, 0x400010⟩], _, _,
      ⟨0x603000, 1, reallocTrace⟩, rfl, List.mem_singleton_self _, rfl⟩
  simp only [reallocEvents, startEvents, List.cons_append, List.nil_append, List.forall_mem_cons]
  exact ⟨trivial, trivial, ⟨by decide, hmem, hout⟩, fun _ => ⟨hmem, hin⟩,
    fun e he => absurd he List.not_mem_nil⟩

theorem operation_clash_iff_realloc :
    ∃ before e after c, reallocEvents = before ++ e :: after ∧
      run (State.step plainOptions plainEnv) (.init true) before = .ok c ∧
        Clashes plainOptions c e :=
  ((operation_clash_iff sanityConfig (fun _ => reallocFunction) plainOptions plainEnv true
    reallocEvents reported_reallocEvents).1.mp rfl).2

end Mtrace
