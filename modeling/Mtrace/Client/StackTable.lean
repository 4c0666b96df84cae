import Mathlib.Data.List.Lex
import Mathlib.Logic.Relation
import Mtrace.RbMap
import Mtrace.Client.Backtraces

/-!
# The stack table

`memncmp` is the lexicographic order of byte strings.  `stack_add` and `stack_clone` both look for a
backtrace before they link a node for it where the search ended; so the table is sorted, has one
node for each backtrace, and `stack_trees` counts them. -/

namespace Mtrace.Client

open RbTree Machine

/-! ## The order of backtraces -/

/-- The bytes of a backtrace as numbers. -/
def bytes (addrs : List UInt8) : List ℕ := addrs.map UInt8.toNat

/-- The key of a node in the stack table. -/
def stackKey (n : RbStack) : List ℕ := bytes n.stack.addrs

section Order

variable {as bs cs : List UInt8}

theorem memncmp_cons_cons (a b : UInt8) (as bs : List UInt8) :
    memncmp (a :: as) (b :: bs) =
      if a < b then .lt else if b < a then .gt else memncmp as bs := by
  have hmin : (if (a :: as).length < (b :: bs).length then (a :: as).length else (b :: bs).length) =
      (if as.length < bs.length then as.length else bs.length) + 1 := by
    rw [List.length_cons, List.length_cons]
    split
    · rw [if_pos (by omega)]
    · rw [if_neg (by omega)]
  unfold memncmp
  rw [hmin, memcmp, List.length_cons, List.length_cons]
  simp only [Nat.add_lt_add_iff_right]
  by_cases hlt : a < b
  · rw [if_pos hlt, if_pos hlt]
  · by_cases hgt : b < a
    · rw [if_neg hlt, if_neg hlt, if_pos hgt, if_pos hgt]
    · rw [if_neg hlt, if_neg hlt, if_neg hgt, if_neg hgt]

/-- `memncmp` compares the first bytes that differ, and a backtrace comes before its extensions. -/
theorem memncmp_eq (as bs : List UInt8) : memncmp as bs =
    if bytes as < bytes bs then .lt else if bytes bs < bytes as then .gt else .eq := by
  induction as generalizing bs with
  | nil =>
    cases bs with
    | nil => rfl
    | cons b bs => exact (if_pos (List.nil_lt_cons _ _)).symm
  | cons a as ih =>
    cases bs with
    | nil =>
      have hlt : bytes [] < bytes (a :: as) := List.nil_lt_cons _ _
      rw [if_neg hlt.not_gt, if_pos hlt]
      rfl
    | cons b bs =>
      have hlt : bytes (a :: as) < bytes (b :: bs) ↔ a < b ∨ a = b ∧ bytes as < bytes bs := by
        unfold bytes
        rw [List.map_cons, List.map_cons, List.cons_lt_cons_iff, UInt8.lt_iff_toNat_lt,
          UInt8.toNat_inj]
      have hgt : bytes (b :: bs) < bytes (a :: as) ↔ b < a ∨ b = a ∧ bytes bs < bytes as := by
        unfold bytes
        rw [List.map_cons, List.map_cons, List.cons_lt_cons_iff, UInt8.lt_iff_toNat_lt,
          UInt8.toNat_inj]
      rw [memncmp_cons_cons, ih bs]
      simp only [hlt, hgt]
      by_cases hab : a < b
      · rw [if_pos hab, if_pos (.inl hab)]
      · by_cases hba : b < a
        · have hne : a ≠ b := (UInt8.ne_of_lt hba).symm
          rw [if_neg hab, if_pos hba, if_neg (by tauto), if_pos (.inl hba)]
        · have heq : a = b := UInt8.le_antisymm (UInt8.not_lt.mp hba) (UInt8.not_lt.mp hab)
          simp [heq]

theorem memncmp_eq_lt : memncmp as bs = .lt ↔ bytes as < bytes bs := by
  rw [memncmp_eq]
  split
  next hlt => exact iff_of_true rfl hlt
  next hge => exact iff_of_false (by split <;> decide) hge

theorem memncmp_eq_gt : memncmp as bs = .gt ↔ bytes bs < bytes as := by
  rw [memncmp_eq]
  split
  next hlt => exact iff_of_false (by decide) hlt.not_gt
  next hge =>
    split
    next hgt => exact iff_of_true rfl hgt
    next hle => exact iff_of_false (by decide) hle

theorem memncmp_eq_eq : memncmp as bs = .eq ↔ as = bs := by
  refine ⟨eq_of_memncmp, ?_⟩
  rintro rfl
  rw [memncmp_eq, if_neg (lt_irrefl _), if_neg (lt_irrefl _)]

theorem stackCut_eq (addrs : List UInt8) : stackCut addrs = keyCut stackKey (bytes addrs) := by
  funext n
  unfold stackCut keyCut
  rw [memncmp_eq]
  congr

end Order

/-! ## One node for each backtrace -/

/-- The stack table is sorted, and `stack_trees` is the number of its nodes. -/
structure Process.OneNode (p : Process) : Prop where
  sorted : p.stackTable.Sorted stackKey
  trees : p.stackTrees = p.nodes.length

section Table

variable {o : Options} {env : Env} {k k' : Stacks} {p p' : Process} {s s' : Stacks × Process}

theorem sorted_iff_stacks : p.stackTable.Sorted stackKey ↔
    p.stacks.Pairwise fun a b => bytes a.addrs < bytes b.addrs := by
  unfold RbRoot.Sorted Process.stacks
  rw [List.pairwise_map]
  rfl

theorem sorted_of_stacks (h : p.stackTable.Sorted stackKey) (hstacks : p'.stacks = p.stacks) :
    p'.stackTable.Sorted stackKey := by
  rw [sorted_iff_stacks, hstacks]
  exact sorted_iff_stacks.mp h

theorem length_stacks (p : Process) : p.stacks.length = p.nodes.length := List.length_map _

theorem Process.OneNode.nodup (h : p.OneNode) : (p.nodes.map (·.stack.addrs)).Nodup := by
  refine List.pairwise_map.mpr (h.sorted.imp fun {m n} hlt heq => ?_)
  unfold stackKey at hlt
  rw [heq] at hlt
  exact lt_irrefl _ hlt

/-- Linking a node where the search for its backtrace ended. -/
theorem sorted_linkNode (h : p.stackTable.Sorted stackKey) {n : RbStack}
    (hf : p.stackTable.find (stackCut n.stack.addrs) = none) :
    (p.linkNode n).stackTable.Sorted stackKey := by
  have hlink : (p.linkNode n).stackTable =
      (p.stackTable.gap (keyCut stackKey (bytes n.stack.addrs))).insertNew n := by
    rw [← stackCut_eq]
    rfl
  rw [stackCut_eq] at hf
  rw [hlink]
  exact (sorted_insertNew h hf rfl).1

theorem Process.OneNode.linkNode (h : p.OneNode) {n : RbStack}
    (hf : p.stackTable.find (stackCut n.stack.addrs) = none) : (p.linkNode n).OneNode := by
  refine ⟨sorted_linkNode h.sorted hf, ?_⟩
  obtain ⟨as, bs, hp, hp'⟩ := nodes_linkNode hf
  have htrees := h.trees
  rw [hp, List.length_append] at htrees
  rw [hp', List.length_append, List.length_cons, ← Nat.add_assoc, ← htrees]
  rfl

theorem oneNode_of_empty (htable : p.stackTable = .nil) (htrees : p.stackTrees = 0) :
    p.OneNode := by
  refine ⟨?_, ?_⟩
  · rw [htable]
    exact sorted_nil
  · rw [htrees]
    unfold Process.nodes
    rw [htable]
    rfl

/-- A call of `stack_add` or `stack_clone` that returns, or anything else that leaves the backtraces
of the table and their number. -/
inductive StackStep (env : Env) : Stacks × Process → Stacks × Process → Prop
  | add {k k' : Stacks} {p p' : Process} {addrs : List UInt8} {operation : MtOperation} {i : NodeId}
      (h : stackAdd env k p addrs operation = .ok (k', p', i)) : StackStep env (k, p) (k', p')
  | clone {k k' : Stacks} {p p' : Process} {n : RbStack} {i : NodeId}
      (h : stackClone k p n = (k', p', i)) : StackStep env (k, p) (k', p')
  | other {k k' : Stacks} {p p' : Process} (hstacks : p'.stacks = p.stacks)
      (htrees : p'.stackTrees = p.stackTrees) : StackStep env (k, p) (k', p')

theorem Process.OneNode.step (h : s.2.OneNode) (hs : StackStep env s s') : s'.2.OneNode := by
  cases hs with
  | add hadd =>
    rcases stackAdd_cases hadd with ⟨x, -, hr⟩ | ⟨hf, ignore, hr⟩
    · cases hr
      exact h
    · cases hr
      exact h.linkNode hf
  | @clone k k' p p' n i hclone =>
    rcases stackClone_cases k p n with ⟨x, -, hr⟩ | ⟨hf, hr⟩
    · cases hr.symm.trans hclone
      exact h
    · cases hr.symm.trans hclone
      exact h.linkNode (n := { n with id := p.nextNode, refcnt := 1 }) hf
  | other hstacks htrees =>
    refine ⟨sorted_of_stacks h.sorted hstacks, ?_⟩
    rw [htrees, h.trees, ← length_stacks, ← length_stacks, hstacks]

theorem Process.OneNode.run (h : s.2.OneNode) (hs : Relation.ReflTransGen (StackStep env) s s') :
    s'.2.OneNode := by
  induction hs with
  | refl => exact h
  | tail _ hstep ih => exact ih.step hstep

end Table

/-! ## Counting the nodes -/

section Counting

variable {k : Stacks} {p p' : Process} {r : Stacks × Process}

/-- The check that the table has as many nodes as were counted. -/
def treeCountFault : Fault := .fatal "invalid stack tree count!\n"

/-- The table has as many nodes as before, and as many are counted. -/
def SameTrees (p p' : Process) : Prop :=
  p'.nodes.length = p.nodes.length ∧ p'.stackTrees = p.stackTrees

theorem SameTrees.trans {p'' : Process} (h : SameTrees p p') (h' : SameTrees p' p'') :
    SameTrees p p'' := ⟨h'.1.trans h.1, h'.2.trans h.2⟩

theorem sameTrees_modifyNode (p : Process) (i : NodeId) (f : RbStack → RbStack) :
    SameTrees p (p.modifyNode i f) := by
  refine ⟨?_, rfl⟩
  rw [Process.nodes_modifyNode, List.length_map]

theorem deref_ends (p : Process) (i : NodeId) :
    Ends (· ≠ treeCountFault) (fun _ => True) (p.deref i) := by
  unfold Process.deref
  cases p.node? i with
  | none => exact Fault.noConfusion
  | some n =>
    dsimp only
    split
    · exact Fault.noConfusion
    · trivial

theorem stackPut_ends (k : Stacks) (p : Process) (i : NodeId) :
    Ends (· ≠ treeCountFault) (fun r => SameTrees p r.2) (stackPut k p i) :=
  (deref_ends p i).bind fun _ _ _ => sameTrees_modifyNode p i _

theorem stackGet_ends (k : Stacks) (p : Process) (i : NodeId) :
    Ends (· ≠ treeCountFault) (fun r => SameTrees p r.2) (stackGet k p i) :=
  (deref_ends p i).bind fun _ _ _ => sameTrees_modifyNode p i _

theorem resetBlocks_ends (bs : List RbBlock) (k : Stacks) (p : Process) :
    Ends (· ≠ treeCountFault) (fun r => SameTrees p r.2) (resetBlocks bs k p) := by
  induction bs generalizing k p with
  | nil => exact ⟨rfl, rfl⟩
  | cons b bs ih =>
    refine (stackPut_ends k _ b.stackNode).bind fun r _ hr => ?_
    refine (ih r.1 r.2).mono (fun _ he => he) fun r' _ hr' => ?_
    exact (sameTrees_modifyNode p b.stackNode fun n =>
      { n with nAllocations := n.nAllocations - 1 }).trans (hr.trans hr')

theorem resetReallocs_ends (res : List ReallocEntry) (k : Stacks) (p : Process) :
    Ends (· ≠ treeCountFault) (fun r => SameTrees p r.2) (resetReallocs res k p) := by
  induction res generalizing k p with
  | nil => exact ⟨rfl, rfl⟩
  | cons re res ih =>
    have hdel : Ends (· ≠ treeCountFault) (fun r => SameTrees p r.2)
        (reallocDel k p [] re res) := by
      unfold reallocDel
      cases re.stackNode with
      | none => exact ⟨rfl, rfl⟩
      | some i => exact (stackPut_ends k p i).bind fun r _ hr => hr
    exact hdel.bind fun r _ hr => (ih r.1 r.2).mono (fun _ he => he) fun r' _ hr' => hr.trans hr'

theorem processResetAllocations_ends (k : Stacks) (p : Process) :
    Ends (· ≠ treeCountFault) (fun r => SameTrees p r.2) (processResetAllocations k p) := by
  refine (resetBlocks_ends p.blockTable.postorder k p).bind fun r _ hr => ?_
  obtain ⟨k1, p1⟩ := r
  dsimp only
  split
  · exact (by decide : Fault.fatal "invalid allocation count!\n" ≠ treeCountFault)
  · exact (resetReallocs_ends p1.reallocList k1 { p1 with blockTable := .nil }).bind
      fun r' _ hr' => hr.trans hr'

/-- The walk of `process_reset` counts down once for each node. -/
theorem resetStacks_count (is : List NodeId) (k : Stacks) (p : Process) :
    Ends (· ≠ treeCountFault) (fun r => r.2.stackTrees = p.stackTrees - is.length)
      (resetStacks is k p) := by
  induction is generalizing k p with
  | nil => rfl
  | cons i is ih =>
    refine (deref_ends p i).bind fun n _ _ => ?_
    split
    · exact (by decide : Fault.fatal "unexpected stack tree ref count!\n" ≠ treeCountFault)
    · refine (stackPut_ends k p i).bind fun r _ hr => ?_
      refine (ih r.1 { r.2 with stackTrees := r.2.stackTrees - 1 }).mono (fun _ he => he)
        fun r' _ hr' => ?_
      rw [hr']
      dsimp only
      rw [hr.2, List.length_cons, Nat.sub_sub, Nat.add_comm]

theorem processReset_ne (h : p.stackTrees = p.nodes.length) (k : Stacks) :
    processReset k p ≠ .error treeCountFault := by
  have hends : Ends (· ≠ treeCountFault) (fun _ => True) (processReset k p) := by
    refine (processResetAllocations_ends k p).bind fun r _ hr => ?_
    obtain ⟨k1, p1⟩ := r
    dsimp only at hr ⊢
    refine (resetStacks_count (p1.stackTable.postorder.map (·.id)) k1 p1).bind fun r' _ hr' => ?_
    obtain ⟨k2, p2⟩ := r'
    dsimp only at hr' ⊢
    have hlen : (p1.stackTable.postorder.map (·.id)).length = p1.nodes.length := by
      rw [List.length_map]
      exact (postorder_perm p1.stackTable).length_eq
    rw [if_neg (by rw [hr', hlen, hr.1, hr.2, h, Nat.sub_self]; exact not_not.mpr rfl)]
    trivial
  exact fun heq => hends.error heq rfl

theorem dumpGet_ends (is : List NodeId) (k : Stacks) (p : Process) :
    Ends (· ≠ treeCountFault) (fun r => SameTrees p r.2) (dumpGet is k p) := by
  induction is generalizing k p with
  | nil => exact ⟨rfl, rfl⟩
  | cons i is ih =>
    exact (stackGet_ends k p i).bind fun r _ hr =>
      (ih r.1 r.2).mono (fun _ he => he) fun r' _ hr' => hr.trans hr'

theorem dumpBegin_ne (h : p.stackTrees = p.nodes.length) (k : Stacks) :
    dumpBegin k p ≠ .error treeCountFault := by
  have hends : Ends (· ≠ treeCountFault) (fun _ => True) (dumpBegin k p) := by
    unfold dumpBegin
    split
    · trivial
    · refine (dumpGet_ends (p.nodes.map (·.id)) k p).bind fun r _ hr => ?_
      obtain ⟨k1, p1⟩ := r
      dsimp only at hr ⊢
      rw [if_neg (by rw [hr.2, h, List.length_map]; exact not_not.mpr rfl)]
      trivial
  exact fun heq => hends.error heq rfl

end Counting

/-- `memncmp` is a strict total order of byte strings.  After any calls of `stack_add` and
`stack_clone` for a process whose table was empty, the table is sorted by it, has no backtrace
twice, and `stack_trees` is the number of its nodes, so that neither check of it fails. -/
theorem stackTable_one_node :
    ((∀ a b : List UInt8, memncmp a b = .eq ↔ a = b) ∧
      (∀ a b : List UInt8, memncmp a b = .lt ↔ memncmp b a = .gt) ∧
      ∀ a b c : List UInt8, memncmp a b = .lt → memncmp b c = .lt → memncmp a c = .lt) ∧
    ∀ (env : Env) (k k' : Stacks) (p p' : Process), p.stackTable = .nil → p.stackTrees = 0 →
      Relation.ReflTransGen (StackStep env) (k, p) (k', p') →
        (p'.nodes.Pairwise fun m n => memncmp m.stack.addrs n.stack.addrs = .lt) ∧
        (p'.nodes.map (·.stack.addrs)).Nodup ∧ p'.stackTrees = p'.nodes.length ∧
        processReset k' p' ≠ .error (.fatal "invalid stack tree count!\n") ∧
        dumpBegin k' p' ≠ .error (.fatal "invalid stack tree count!\n") := by
  refine ⟨⟨fun a b => memncmp_eq_eq, fun a b => ?_, fun a b c => ?_⟩, ?_⟩
  · rw [memncmp_eq_lt, memncmp_eq_gt]
  · rw [memncmp_eq_lt, memncmp_eq_lt, memncmp_eq_lt]
    exact lt_trans
  · intro env k k' p p' htable htrees hrun
    have hempty : ((k, p) : Stacks × Process).2.OneNode := oneNode_of_empty htable htrees
    have h : p'.OneNode := hempty.run hrun
    exact ⟨h.sorted.imp memncmp_eq_lt.mpr, h.nodup, h.trees, processReset_ne h.trees k',
      dumpBegin_ne h.trees k'⟩

/-- Three backtraces, of which one extends another and one comes from another process. -/
theorem stackTable_one_node_three : ∃ k p,
    Relation.ReflTransGen (StackStep plainEnv) (.empty, processNew 1 false true) (k, p) ∧
      p.nodes.map (·.stack.addrs) = [[1, 5], [2], [2, 1]] ∧ p.stackTrees = 3 ∧
      processReset k p ≠ .error (.fatal "invalid stack tree count!\n") := by
  let p0 := processNew 1 false true
  let k1 := Stacks.empty.new.get 0
  let p1 := p0.linkNode (.fresh .empty p0 [2, 1] .malloc false)
  let k2 := k1.new.get k1.next
  let p2 := p1.linkNode (.fresh k1 p1 [2] .malloc false)
  let n : RbStack := .fresh k2 p0 [1, 5] .malloc false
  let p3 := p2.linkNode { n with id := p2.nextNode, refcnt := 1 }
  have hadd : ∀ (k : Stacks) (p : Process) (addrs : List UInt8), p.ptrSize = 4 → addrs.length < 4 →
      p.stackTable.find (stackCut addrs) = none →
      stackAdd plainEnv k p addrs .malloc =
        .ok (k.new.get k.next, p.linkNode (.fresh k p addrs .malloc false), p.nextNode) := by
    intro k p addrs hptr hshort hf
    have hresolv : stackResolv plainEnv p addrs = .ok false := by
      unfold stackResolv stackEntries
      rw [hptr, Nat.div_eq_of_lt hshort]
      rfl
    unfold stackAdd
    rw [hf]
    dsimp only
    rw [hresolv]
    rfl
  have h1 := hadd .empty p0 [2, 1] rfl (by decide) rfl
  have h2 := hadd k1 p1 [2] rfl (by decide) rfl
  have h3 : stackClone k2 p2 n = (k2.get n.stack.id, p3, 2) := rfl
  have h4 : stackAdd plainEnv (k2.get n.stack.id) p3 [2] .malloc =
      .ok (k2.get n.stack.id, p3, 1) := rfl
  have hrun : Relation.ReflTransGen (StackStep plainEnv) (.empty, p0) (k2.get n.stack.id, p3) :=
    (((Relation.ReflTransGen.single (.add h1)).tail (.add h2)).tail (.clone h3)).tail (.add h4)
  exact ⟨_, _, hrun, rfl, rfl, (stackTable_one_node.2 plainEnv _ _ p0 p3 rfl rfl hrun).2.2.2.1⟩

/-! ## Runs of the client -/

section Runs

variable {o : Options} {env : Env} {c : State} {doTrace : Bool} {k : Stacks} {p p' : Process}

theorem Changed.sortedStacks {l : Change} {s s' : Stacks × Process} (hc : Changed l s s')
    (h : s.2.stackTable.Sorted stackKey) : s'.2.stackTable.Sorted stackKey := by
  cases hc with
  | link hf op ignore => exact sorted_linkNode h hf
  | stamp i a b => exact sorted_of_stacks h (stacks_stampNode i fun _ => rfl)
  | @hold k p re i n hi hn =>
    exact sorted_of_stacks h (stacks_modifyNode (g := fun n => { n with refcnt := n.refcnt + 1 }) i
      fun _ => rfl)
  | await pid => exact h
  | @release k p before after re i n hp hi hn =>
    exact sorted_of_stacks h (stacks_modifyNode (g := fun n => { n with refcnt := n.refcnt - 1 }) i
      fun _ => rfl)
  | forget hp hi => exact h
  | alloc hs hn => exact sorted_of_stacks h (stacks_changed (by simp) (.alloc hs hn))
  | restore hn => exact sorted_of_stacks h (stacks_changed (by simp) (.restore hn))
  | drop hx hn => exact sorted_of_stacks h (stacks_changed (by simp) (.drop hx hn))
  | trim hx hn size => exact sorted_of_stacks h (stacks_changed (by simp) (.trim hx hn size))
  | mark hx hn hl => exact sorted_of_stacks h (stacks_changed (by simp) (.mark hx hn hl))

theorem Chain.sortedStacks {C : Change → Prop} {s s' : Stacks × Process} (hc : Chain C s s')
    (h : s.2.stackTable.Sorted stackKey) : s'.2.stackTable.Sorted stackKey :=
  hc.invariant (P := fun s => s.2.stackTable.Sorted stackKey)
    (fun _ _ _ _ h hc => hc.sortedStacks h) h

theorem sorted_duplicateBlocks {copy : Process} {bs : List RbBlock} {r : Stacks × Process}
    (h : p.stackTable.Sorted stackKey) (hr : duplicateBlocks o copy bs k p = .ok r) :
    r.2.stackTable.Sorted stackKey := by
  induction bs generalizing k p with
  | nil =>
    cases hr
    exact h
  | cons b bs ih =>
    obtain ⟨r1, h1, h2⟩ := bind_eq_ok.mp hr
    obtain ⟨n, k1, p1, i, n1, -, hclone, -, rfl⟩ := processRbDuplicateBlock_cases h1
    have hsorted : p1.stackTable.Sorted stackKey := by
      rcases stackClone_cases k p n with ⟨x, -, heq⟩ | ⟨hf, heq⟩
      · cases heq.symm.trans hclone
        exact h
      · cases heq.symm.trans hclone
        exact sorted_linkNode (n := { n with id := p.nextNode, refcnt := 1 }) h hf
    exact ih (p := p1.copyBlock b i) (sorted_of_stacks hsorted (stacks_addBlock _)) h2

theorem sorted_evolves {e : Event} {ext : NodeId → ℕ} {rest : StackId → ℕ}
    (h : p.stackTable.Sorted stackKey) (ho : Owned c.heap p ext rest) (hc : p.Counted)
    (hev : Evolves o env c p e p') : p'.stackTable.Sorted stackKey := by
  have hchain : ∀ {r : Stacks × Process}, Chain (fun _ => True) (c.heap, p) r →
      r.2.stackTable.Sorted stackKey := fun hch => hch.sortedStacks h
  cases hev with
  | alloc hr => exact hchain (processAlloc_chain trivial (fun _ _ _ _ => trivial)
      (fun _ _ => trivial) hr)
  | free hr => exact hchain (processFree_chain trivial (fun _ _ _ _ => trivial) hr)
  | reallocDone hr => exact hchain (processReallocDone_chain trivial
      (fun _ _ _ _ _ _ _ _ _ => trivial) hr)
  | munmap hr => exact hchain (processMunmap_chain
      (fun _ _ _ _ _ _ _ _ _ => by split <;> trivial) hr)
  | @fork _ _ ppid parent k' p' hparent hppid hr =>
    obtain ⟨k1, -, hdup⟩ := ho.processDuplicate_cases hc hr
    obtain ⟨p1, hd, -, -, hs⟩ := duplicateFrom_cases hdup
    refine sorted_of_stacks ?_ hs.stacks_eq
    split at hd
    · cases hd
      exact sorted_nil
    · exact sorted_duplicateBlocks sorted_nil hd
  | attach => exact sorted_nil
  | scan hsc hs =>
    exact sorted_of_stacks (hchain (scanBlocks_chain (fun _ _ => trivial) hsc)) hs.stacks_eq
  | reset hem hs => exact sorted_of_stacks h (hs.stacks_eq.trans (stacks_emptied hem))
  | start hem hs => exact sorted_of_stacks h (hs.stacks_eq.trans (stacks_emptied hem))
  | @select e p1 hs mode =>
    have hscan : (processLeaksScan p1 mode).stacks = p1.stacks := by
      unfold processLeaksScan
      split <;> rfl
    exact sorted_of_stacks h (hscan.trans hs.stacks_eq)
  | same hs => exact sorted_of_stacks h hs.stacks_eq

/-- The table of each process is so in every state of the client, and no event aborts it over the
number of its nodes. -/
theorem oneNode_reachable (h : Reachable o env doTrace c) :
    (∀ p ∈ c.processes, p.OneNode) ∧ ∀ e, c.step o env e ≠ .error treeCountFault := by
  have hac := Reach.accounted h
  have hsorted : ∀ p ∈ c.processes, p.stackTable.Sorted stackKey := by
    refine Reach.records (I := fun p => p.stackTable.Sorted stackKey) h
      (fun _ _ _ => sorted_nil) ?_
    intro c e p p' hac _ hI ht hev
    have hp := target_mem hac ht
    have hac' := accounted_entered hac e
    exact sorted_evolves (hI p hp) (hac'.owned p hp) (hac'.counted p hp) hev
  refine ⟨fun p hp => ⟨hsorted p hp, (hac.owned p hp).trees⟩, fun e he => ?_⟩
  rcases (step_ends hac e).error he with ⟨hext | ⟨hf, -⟩, -⟩ | ⟨hf, -⟩
  · rcases hext.external with hf | hf
    · exact absurd hf (by decide)
    · exact absurd hf (by decide)
  · cases hf
  · exact absurd hf (by decide)

end Runs

end Mtrace.Client
