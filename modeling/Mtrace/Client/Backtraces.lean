import Mtrace.Client.Totality
import Mtrace.Client.Fork

/-!
# The backtraces of a record

Which backtraces are in a stack table, and with which operations: those of the messages that came
to `stack_add`, and after a fork those of the parent.
-/

namespace Mtrace.Client

open RbTree Machine

/-- The backtraces of a record, with their operations. -/
def Process.stacks (p : Process) : List Stack := p.nodes.map (·.stack)

/-! ## Comparing backtraces -/

theorem memcmp_eq_eq_iff {n : ℕ} {as bs : List UInt8} (ha : n ≤ as.length) (hb : n ≤ bs.length) :
    memcmp n as bs = .eq ↔ as.take n = bs.take n := by
  induction n generalizing as bs with
  | zero => simp [memcmp]
  | succ n ih =>
    rcases as with _ | ⟨a, as⟩
    · cases ha
    rcases bs with _ | ⟨b, bs⟩
    · cases hb
    rw [memcmp, List.take_succ_cons, List.take_succ_cons, List.cons.injEq]
    by_cases hlt : a < b
    · rw [if_pos hlt]
      exact iff_of_false (by decide) fun h => absurd h.1 (UInt8.ne_of_lt hlt)
    rw [if_neg hlt]
    by_cases hgt : b < a
    · rw [if_pos hgt]
      exact iff_of_false (by decide) fun h => absurd h.1.symm (UInt8.ne_of_lt hgt)
    rw [if_neg hgt, ih (Nat.le_of_succ_le_succ ha) (Nat.le_of_succ_le_succ hb)]
    have hab : a = b := UInt8.le_antisymm (UInt8.not_lt.mp hgt) (UInt8.not_lt.mp hlt)
    simp [hab]

/-- Two backtraces that compare as equal are the same bytes. -/
theorem eq_of_memncmp {as bs : List UInt8} (h : memncmp as bs = .eq) : as = bs := by
  unfold memncmp at h
  have hmin : (if as.length < bs.length then as.length else bs.length) =
      min as.length bs.length := by
    split <;> omega
  rw [hmin] at h
  rcases hc : memcmp (min as.length bs.length) as bs with _ | _ | _
  · rw [hc] at h
    cases h
  · rw [hc] at h
    dsimp only at h
    have hlen : as.length = bs.length := by
      by_contra hne
      rcases Nat.lt_or_gt_of_ne hne with hlt | hgt
      · rw [if_pos hlt] at h
        cases h
      · rw [if_neg (by omega), if_pos hgt] at h
        cases h
    have htake := (memcmp_eq_eq_iff (Nat.min_le_left _ _) (Nat.min_le_right _ _)).mp hc
    rwa [← hlen, Nat.min_self, List.take_length, hlen, List.take_length] at htake
  · rw [hc] at h
    cases h

theorem addrs_of_find {p : Process} {addrs : List UInt8} {x : Loc RbStack}
    (h : p.stackTable.find (stackCut addrs) = some x) : x.val.stack.addrs = addrs :=
  (eq_of_memncmp (find_some h).2).symm

/-! ## Where they come from -/

section Origin

variable {o : Options} {env : Env} {k : Stacks} {p p' : Process} {m : MtAllocPayload}
  {r : Stacks × Process}

theorem stacks_of_map {g : RbStack → RbStack} (hg : ∀ n, (g n).stack = n.stack)
    (h : p'.nodes = p.nodes.map g) : p'.stacks = p.stacks := by
  unfold Process.stacks
  rw [h, List.map_map]
  exact List.map_congr_left fun n _ => hg n

theorem stacks_modifyNode (i : NodeId) {g : RbStack → RbStack} (hg : ∀ n, (g n).stack = n.stack) :
    (p.modifyNode i g).stacks = p.stacks := by
  refine stacks_of_map (fun n => ?_) (Process.nodes_modifyNode p i g)
  split
  · exact hg n
  · rfl

theorem stacks_stampNode (i : NodeId) {g : RbStack → RbStack} (hg : ∀ n, (g n).stack = n.stack) :
    (p.stampNode i g).stacks = p.stacks :=
  stacks_modifyNode (g := fun n => { g n with tsc := p.tsc }) i hg

theorem stacks_addBlock (b : RbBlock) : (p.addBlock b).stacks = p.stacks :=
  stacks_modifyNode (g := (·.add b.size)) b.stackNode fun _ => rfl

theorem stacks_dropBlock (x : Loc RbBlock) : (p.dropBlock x).stacks = p.stacks :=
  stacks_modifyNode (g := (·.drop x.val)) x.val.stackNode fun _ => rfl

theorem stacks_changed {l : Change} {s s' : Stacks × Process} (hl : l ≠ .silent)
    (hc : Changed l s s') : s'.2.stacks = s.2.stacks := by
  cases hc with
  | @alloc k p ptr size i n hs hn =>
    exact (stacks_stampNode i fun _ => rfl).trans (stacks_addBlock ⟨0, ptr, size, i⟩)
  | restore hn => exact stacks_addBlock _
  | drop hx hn => exact stacks_dropBlock _
  | @trim k p x n hx hn size =>
    exact stacks_modifyNode (g := (·.release x.val size.toUInt32)) _ fun _ => rfl
  | @mark k p x n hx hn hl => exact stacks_modifyNode (g := (·.mark x.val)) _ fun _ => rfl
  | _ => exact absurd rfl hl

theorem Chain.stacks_eq {s s' : Stacks × Process} (hc : Chain (· ≠ .silent) s s') :
    s'.2.stacks = s.2.stacks :=
  hc.invariant (P := fun r => r.2.stacks = s.2.stacks)
    (fun _ _ _ hl h hc => (stacks_changed hl hc).trans h) rfl

theorem mem_stacks_linkNode {n : RbStack} {st : Stack}
    (h : p.stackTable.find (stackCut n.stack.addrs) = none) :
    st ∈ (p.linkNode n).stacks ↔ st = n.stack ∨ st ∈ p.stacks := by
  obtain ⟨as, bs, hp, hp'⟩ := nodes_linkNode h
  unfold Process.stacks
  rw [hp, hp']
  simp only [List.map_append, List.map_cons, List.mem_append, List.mem_cons]
  tauto

/-- `stack_add` returns a node of the backtrace and the operation, and adds nothing else. -/
theorem stackAdd_spec {addrs : List UInt8} {op : MtOperation} {k' : Stacks} {i : NodeId}
    (h : stackAdd env k p addrs op = .ok (k', p', i)) :
    (∀ st ∈ p'.stacks, st ∈ p.stacks ∨ st.addrs = addrs ∧ st.operation = op) ∧
      ∃ n ∈ p'.nodes, n.id = i ∧ n.stack.addrs = addrs ∧ n.stack.operation = op := by
  unfold stackAdd at h
  rcases hf : p.stackTable.find (stackCut addrs) with _ | x
  · rw [hf] at h
    obtain ⟨ignore, -, h⟩ := bind_eq_ok.mp h
    cases h
    constructor
    · intro st hst
      rcases (mem_stacks_linkNode hf).mp hst with rfl | hst
      · exact .inr ⟨rfl, rfl⟩
      · exact .inl hst
    · obtain ⟨as, bs, -, hp'⟩ := nodes_linkNode (n := .fresh k p addrs op ignore) hf
      exact ⟨_, hp' ▸ List.mem_append_right as (List.mem_cons_self ..), rfl, rfl, rfl⟩
  · rw [hf] at h
    dsimp only at h
    split at h
    next hop =>
      cases h
      exact ⟨fun st hst => .inl hst, x.val, mem_of_find hf, rfl, addrs_of_find hf, hop⟩
    · cases h

theorem mem_stacks_processAlloc {op : MtOperation} (h : processAlloc o env k p op m = .ok r) :
    ∀ st ∈ r.2.stacks, st ∈ p.stacks ∨ st.addrs = m.data ∧ st.operation = op := by
  rcases processAlloc_cases h with ⟨-, rfl⟩ | ⟨-, k1, p1, k2, p2, i, n, hev, hadd, -, rfl⟩
  · exact fun st hst => .inl hst
  · have h1 : p1.stacks = p.stacks :=
      (evictLoop_chain (C := (· ≠ .silent)) (fun _ _ _ => by simp) hev).stacks_eq
    intro st hst
    have h2 : ((p2.addBlock ⟨0, m.ptr, m.size, i⟩).charge i m.size).stacks = p2.stacks :=
      (stacks_stampNode i fun _ => rfl).trans (stacks_addBlock ⟨0, m.ptr, m.size, i⟩)
    rw [show Process.stacks _ = p2.stacks from h2] at hst
    rw [← h1]
    exact (stackAdd_spec hadd).1 st hst

theorem stacks_enterRealloc {op : MtOperation} {re : ReallocEntry}
    (h : enterRealloc k p op re = .ok r) : r.2.stacks = p.stacks := by
  unfold enterRealloc at h
  split at h
  · rcases reallocAdd_cases h with ⟨i, n, -, -, rfl⟩ | ⟨-, rfl⟩
    · exact stacks_modifyNode (g := fun n => { n with refcnt := n.refcnt + 1 }) i fun _ => rfl
    · rfl
  · cases h
    rfl

theorem mem_stacks_processFree {op : MtOperation} (h : processFree o env k p op m = .ok r) :
    ∀ st ∈ r.2.stacks, st ∈ p.stacks ∨ m.data ≠ [] ∧ st.addrs = m.data ∧ st.operation = op := by
  rcases processFree_cases h with ⟨-, rfl⟩ | ⟨-, -, r1, hnote, hrest⟩
  · exact fun st hst => .inl hst
  have hr : r.2.stacks = r1.2.stacks := by
    rcases hrest with ⟨x, r2, n, -, hre, -, rfl⟩ | ⟨-, hre⟩
    · exact (stacks_dropBlock x).trans (stacks_enterRealloc hre)
    · exact stacks_enterRealloc hre
  rw [hr]
  rcases hnote with rfl | ⟨hd, k1, p1, i, a, b, hadd, rfl⟩
  · exact fun st hst => .inl hst
  · intro st hst
    have hstamp : (p1.stampNode i fun n =>
        { n with nMismatched := n.nMismatched + a, nBadfree := n.nBadfree + b }).stacks =
        p1.stacks := by
      apply stacks_stampNode
      intro n
      rfl
    rw [hstamp] at hst
    exact ((stackAdd_spec hadd).1 st hst).imp_right fun h => ⟨hd, h⟩

theorem stacks_processReallocDone (h : processReallocDone o k p m = .ok r) :
    r.2.stacks = p.stacks := by
  have hdel : ∀ {k : Stacks} {q : Process} {before after : List ReallocEntry} {re : ReallocEntry},
      reallocDel k q before re after = .ok r → r.2.stacks = q.stacks := by
    intro k q before after re h
    rcases reallocDel_cases h with ⟨i, n, -, -, rfl⟩ | ⟨-, rfl⟩
    · exact stacks_modifyNode (g := fun n => { n with refcnt := n.refcnt - 1 }) i fun _ => rfl
    · rfl
  rcases processReallocDone_cases h with ⟨-, rfl⟩ | ⟨-, before, re, after, -, hrest⟩
  · rfl
  · rcases hrest with ⟨i, n, -, -, -, -, h⟩ | ⟨-, h⟩
    · exact (hdel h).trans (stacks_addBlock _)
    · exact hdel h

theorem stacks_processMunmap (h : processMunmap o k p m = .ok r) : r.2.stacks = p.stacks := by
  refine (processMunmap_chain (C := (· ≠ .silent)) (fun b _ ptr size _ _ _ _ _ => ?_) h).stacks_eq
  split <;> simp

theorem stacks_scanBlocks {leaks : List UInt64} (h : scanBlocks leaks p = .ok p') :
    p'.stacks = p.stacks :=
  (scanBlocks_chain (C := (· ≠ .silent)) (k := .empty) (fun _ _ => by simp) h).stacks_eq

theorem SameLedger.stacks_eq (h : SameLedger p p') : p'.stacks = p.stacks := by
  obtain ⟨c, hc⟩ := h.nodes
  refine stacks_of_map ?_ hc
  intro n
  rfl

theorem stacks_emptied (h : p.Emptied p') : p'.stacks = p.stacks := by
  obtain ⟨c, hc⟩ := h.nodes_eq
  refine stacks_of_map ?_ hc
  intro n
  rfl

theorem mem_stacks_duplicateFrom {copy : Process} {k' : Stacks}
    (h : duplicateFrom o copy k p.cleared = .ok (k', p')) : ∀ st ∈ p'.stacks, st ∈ copy.stacks := by
  obtain ⟨p1, hblocks, -, -, hs⟩ := duplicateFrom_cases h
  have hcopied := (copied_init copy p).duplicateBlocks hblocks
  intro st hst
  rw [hs.stacks_eq] at hst
  obtain ⟨n, hn, rfl⟩ := List.mem_map.mp hst
  obtain ⟨n', hn', hstack, -⟩ := hcopied.nodes n hn
  exact List.mem_map.mpr ⟨n', hn', hstack.symm⟩

/-- The event brings a backtrace to `stack_add`. -/
def Event.Brings (st : Stack) : Event → Prop
  | .msg _ _ (.alloc op _ m) => st.addrs = m.data ∧ st.operation = op
  | .msg _ _ (.free op _ m) => m.data ≠ [] ∧ st.addrs = m.data ∧ st.operation = op
  | _ => False

/-- Where the backtraces of a record come from. -/
theorem mem_stacks_evolves {c : State} {e : Event} {ext : NodeId → ℕ} {rest : StackId → ℕ}
    (ho : Owned c.heap p ext rest) (hc : p.Counted) (h : Evolves o env c p e p') :
    ∀ st ∈ p'.stacks, st ∈ p.stacks ∨ (∃ q ∈ c.processes, st ∈ q.stacks) ∨ e.Brings st := by
  intro st hst
  cases h with
  | alloc h => exact (mem_stacks_processAlloc h st hst).imp_right .inr
  | free h => exact (mem_stacks_processFree h st hst).imp_right .inr
  | reallocDone h => exact .inl (stacks_processReallocDone h ▸ hst)
  | munmap h => exact .inl (stacks_processMunmap h ▸ hst)
  | @fork pid sw ppid parent k' p' hparent hppid h =>
    obtain ⟨k1, -, hdup⟩ := ho.processDuplicate_cases hc h
    have hmem := mem_stacks_duplicateFrom hdup st hst
    split at hmem
    · cases hmem
    · exact .inr (.inl ⟨parent, hparent, hmem⟩)
  | attach => cases hst
  | scan h hs => exact .inl (stacks_scanBlocks h ▸ hs.stacks_eq ▸ hst)
  | reset h hs => exact .inl (stacks_emptied h ▸ hs.stacks_eq ▸ hst)
  | start h hs => exact .inl (stacks_emptied h ▸ hs.stacks_eq ▸ hst)
  | @select e p1 hs mode =>
    have hsel : (processLeaksScan p1 mode).stacks = p1.stacks := by
      unfold processLeaksScan
      split <;> rfl
    exact .inl (hs.stacks_eq ▸ hsel ▸ hst)
  | same hs => exact .inl (hs.stacks_eq ▸ hst)

end Origin

end Mtrace.Client
