import Mathlib.Logic.Relation
import Mtrace.Client.Effects

/-!
# The handlers as sequences of changes

`Changed` lists what a message can do to a record in one go: a block comes, goes, is cut or is
marked, or only nodes and pending `realloc` calls move.  Every handler is a sequence of such
changes, and the theorems `*_chain` say which changes it can contain, in terms of the record it
started from.  An invariant is then checked on the changes, once.
-/

namespace Mtrace.Client

open RbTree Machine

/-- What a change does to the blocks. -/
inductive Change where
  | alloc (b : RbBlock)
  | restore (b : RbBlock)
  | drop (b : RbBlock)
  | trim (b : RbBlock) (size : UInt64)
  | mark (b : RbBlock)
  | silent

/-- A single change, with the accesses to stack nodes that precede it. -/
inductive Changed : Change → Stacks × Process → Stacks × Process → Prop
  | alloc {k : Stacks} {p : Process} {ptr size : UInt64} {i : NodeId} {n : RbStack}
      (hs : processRbSearchRange p.blockTable ptr size = none) (hn : p.deref i = .ok n) :
      Changed (.alloc ⟨0, ptr, size, i⟩) (k, p)
        (k.get n.stack.id, (p.addBlock ⟨0, ptr, size, i⟩).charge i size)
  | restore {k : Stacks} {p : Process} {b : RbBlock} {n : RbStack}
      (hn : p.deref b.stackNode = .ok n) :
      Changed (.restore b) (k, p) (k.get n.stack.id, p.addBlock b)
  | drop {k : Stacks} {p : Process} {x : Loc RbBlock} {n : RbStack} (hx : x.tree = p.blockTable)
      (hn : p.deref x.val.stackNode = .ok n) :
      Changed (.drop x.val) (k, p) (k.put n.stack.id, p.dropBlock x)
  | trim {k : Stacks} {p : Process} {x : Loc RbBlock} {n : RbStack} (hx : x.tree = p.blockTable)
      (hn : p.deref x.val.stackNode = .ok n) (size : UInt64) :
      Changed (.trim x.val size) (k, p) (k, p.trimBlock x size)
  | mark {k : Stacks} {p : Process} {x : Loc RbBlock} {n : RbStack} (hx : x.tree = p.blockTable)
      (hn : p.deref x.val.stackNode = .ok n) (hl : x.val.leaked = false) :
      Changed (.mark x.val) (k, p) (k, p.markBlock x)
  | link {k : Stacks} {p : Process} {addrs : List UInt8}
      (hf : p.stackTable.find (stackCut addrs) = none) (op : MtOperation) (ignore : Bool) :
      Changed .silent (k, p) (k.new.get k.next, p.linkNode (.fresh k p addrs op ignore))
  | stamp {k : Stacks} {p : Process} (i : NodeId) (a b : UInt64) :
      Changed .silent (k, p) (k, p.stampNode i fun n =>
        { n with nMismatched := n.nMismatched + a, nBadfree := n.nBadfree + b })
  | hold {k : Stacks} {p : Process} {re : ReallocEntry} {i : NodeId} {n : RbStack}
      (hi : re.stackNode = some i) (hn : p.deref i = .ok n) :
      Changed .silent (k, p)
        (k.get n.stack.id, { p.modifyNode i fun n => { n with refcnt := n.refcnt + 1 } with
          reallocList := p.reallocList ++ [re] })
  | await {k : Stacks} {p : Process} (pid : UInt32) :
      Changed .silent (k, p) (k, { p with reallocList := p.reallocList ++ [⟨pid, 0, 0, 0, none⟩] })
  | release {k : Stacks} {p : Process} {before after : List ReallocEntry} {re : ReallocEntry}
      {i : NodeId} {n : RbStack} (hp : p.reallocList = before ++ re :: after)
      (hi : re.stackNode = some i) (hn : p.deref i = .ok n) :
      Changed .silent (k, p)
        (k.put n.stack.id, { p.modifyNode i fun n => { n with refcnt := n.refcnt - 1 } with
          reallocList := before ++ after })
  | forget {k : Stacks} {p : Process} {before after : List ReallocEntry} {re : ReallocEntry}
      (hp : p.reallocList = before ++ re :: after) (hi : re.stackNode = none) :
      Changed .silent (k, p) (k, { p with reallocList := before ++ after })

/-- Any number of changes whose kinds satisfy `C`. -/
def Chain (C : Change → Prop) : Stacks × Process → Stacks × Process → Prop :=
  Relation.ReflTransGen fun s s' => ∃ l, C l ∧ Changed l s s'

namespace Chain

variable {C : Change → Prop} {s s' s'' : Stacks × Process}

theorem refl : Chain C s s := Relation.ReflTransGen.refl

theorem tail {l : Change} (h : Chain C s s') (hl : C l) (hc : Changed l s' s'') : Chain C s s'' :=
  Relation.ReflTransGen.tail h ⟨l, hl, hc⟩

theorem trans (h : Chain C s s') (h' : Chain C s' s'') : Chain C s s'' :=
  Relation.ReflTransGen.trans h h'

/-- What every change of a chain keeps, the chain keeps. -/
theorem invariant {P : Stacks × Process → Prop} (h : Chain C s s')
    (hP : ∀ l s s', C l → P s → Changed l s s' → P s') (h0 : P s) : P s' := by
  induction h with
  | refl => exact h0
  | tail _ hl ih =>
    obtain ⟨l, hC, hc⟩ := hl
    exact hP l _ _ hC ih hc

end Chain

/-! ## Parts of handlers -/

section Parts

variable {C : Change → Prop} {env : Env} {k : Stacks} {p : Process}

theorem stackAdd_chain (hC : C .silent) {addrs : List UInt8} {op : MtOperation} {k' : Stacks}
    {p' : Process} {i : NodeId} (h : stackAdd env k p addrs op = .ok (k', p', i)) :
    Chain C (k, p) (k', p') ∧ p'.blockTable = p.blockTable ∧ p'.reallocList = p.reallocList := by
  rcases stackAdd_cases h with ⟨x, -, hr⟩ | ⟨hf, ignore, hr⟩
  · cases hr; exact ⟨.refl, rfl, rfl⟩
  · cases hr; exact ⟨Chain.refl.tail hC (.link hf op ignore), rfl, rfl⟩

theorem Noted.chain (hC : C .silent) {data : List UInt8} {op : MtOperation}
    {r : Stacks × Process} (h : Noted env k p data op r) :
    Chain C (k, p) r ∧ r.2.blockTable = p.blockTable ∧ r.2.reallocList = p.reallocList := by
  rcases h with rfl | ⟨-, k1, p1, i, a, b, hadd, rfl⟩
  · exact ⟨.refl, rfl, rfl⟩
  · obtain ⟨hch, hbl, hre⟩ := stackAdd_chain hC hadd
    exact ⟨hch.tail hC (.stamp i a b), hbl, hre⟩

theorem enterRealloc_chain (hC : C .silent) {op : MtOperation} {re : ReallocEntry}
    {r : Stacks × Process} (hre : re.stackNode = none → ∃ pid, re = ⟨pid, 0, 0, 0, none⟩)
    (h : enterRealloc k p op re = .ok r) :
    Chain C (k, p) r ∧ r.2.blockTable = p.blockTable := by
  unfold enterRealloc at h
  split at h
  · rcases reallocAdd_cases h with ⟨i, n, hi, hn, rfl⟩ | ⟨hi, rfl⟩
    · exact ⟨Chain.refl.tail hC (.hold hi hn), rfl⟩
    · obtain ⟨pid, rfl⟩ := hre hi
      exact ⟨Chain.refl.tail hC (.await pid), rfl⟩
  · cases h; exact ⟨.refl, rfl⟩

theorem reallocDel_chain (hC : C .silent) {before after : List ReallocEntry} {re : ReallocEntry}
    {r : Stacks × Process} (hp : p.reallocList = before ++ re :: after)
    (h : reallocDel k p before re after = .ok r) : Chain C (k, p) r := by
  rcases reallocDel_cases h with ⟨i, n, hi, hn, rfl⟩ | ⟨hi, rfl⟩
  · exact Chain.refl.tail hC (.release hp hi hn)
  · exact Chain.refl.tail hC (.forget hp hi)

theorem mem_of_mem_dropBlock {x : Loc RbBlock} (hx : x.tree = p.blockTable) {b : RbBlock}
    (hb : b ∈ (p.dropBlock x).blocks) : b ∈ p.blocks := by
  have hp := Process.blocks_of_tree hx
  have hb' : b ∈ x.before ++ x.after := by rw [← toList_erase]; exact hb
  rw [hp]
  simp only [List.mem_append, List.mem_cons] at hb' ⊢
  tauto

/-- Each pass of `process_alloc` takes a block away, so its loop ends with the range empty. -/
theorem evictLoop_done {o : Options} {ptr size : UInt64} {fuel : ℕ} {r : Stacks × Process}
    (hfuel : p.blockTable.size ≤ fuel) (h : evictLoop o ptr size fuel k p = .ok r) :
    processRbSearchRange r.2.blockTable ptr size = none := by
  induction fuel generalizing k p with
  | zero =>
    cases h
    have hlen : p.blocks.length = 0 := by rw [length_toList]; omega
    refine find_none_of_ne fun v hv => ?_
    have hnil : p.blockTable.toList = [] := List.length_eq_zero_iff.mp hlen
    simp [hnil] at hv
  | succ fuel ih =>
    unfold evictLoop at h
    rcases hs : processRbSearchRange p.blockTable ptr size with _ | x
    · rw [hs] at h; cases h; exact hs
    · rw [hs] at h
      by_cases hk : o.kill = true
      · simp only [if_pos hk, reduceCtorEq] at h
      simp only [if_neg hk] at h
      obtain ⟨r', h1, h2⟩ := bind_eq_ok.mp h
      obtain ⟨n, -, rfl⟩ := processRbDeleteBlock_eq_ok.mp h1
      refine ih ?_ h2
      have hp : p.blockTable.toList.length = p.blockTable.size := length_toList _
      have hq : x.erase.toList.length = x.erase.size := length_toList _
      rw [toList_of_find hs] at hp
      rw [toList_erase] at hq
      simp only [List.length_append, List.length_cons] at hp hq
      show x.erase.size ≤ fuel
      omega

theorem evictLoop_chain {o : Options} {ptr size : UInt64} {fuel : ℕ} {r : Stacks × Process}
    (hdrop : ∀ b ∈ p.blocks, startsIn ptr size b = true → C (.drop b))
    (h : evictLoop o ptr size fuel k p = .ok r) : Chain C (k, p) r := by
  have hinv := evictLoop_induct
    (P := fun k' p' => Chain C (k, p) (k', p') ∧ ∀ b ∈ p'.blocks, b ∈ p.blocks)
    (fun k' p' x n ⟨hch, hsub⟩ hs hn => ?_) fuel k p r ⟨.refl, fun _ hb => hb⟩ h
  · exact hinv.1
  · have hx := (find_some hs).1
    refine ⟨hch.tail (hdrop _ (hsub _ (mem_of_find hs)) (startsIn_of_searchRange hs)) (.drop hx hn),
      fun b hb => hsub b (mem_of_mem_dropBlock hx hb)⟩

end Parts

/-! ## The handlers -/

section Handlers

variable {C : Change → Prop} {o : Options} {env : Env} {k : Stacks} {p : Process}
  {m : MtAllocPayload} {r : Stacks × Process}

theorem processAlloc_chain {op : MtOperation} (hC : C .silent)
    (hdrop : ∀ b ∈ p.blocks, p.tracing = true → startsIn m.ptr m.size b = true → C (.drop b))
    (halloc : ∀ i, p.tracing = true → C (.alloc ⟨0, m.ptr, m.size, i⟩))
    (h : processAlloc o env k p op m = .ok r) : Chain C (k, p) r := by
  rcases processAlloc_cases h with ⟨-, rfl⟩ | ⟨ht, k1, p1, k2, p2, i, n, h1, h2, hn, rfl⟩
  · exact .refl
  · have hev := evictLoop_chain (C := C) (fun b hb => hdrop b hb ht) h1
    have hnone := evictLoop_done le_rfl h1
    obtain ⟨hadd, hbl, -⟩ := stackAdd_chain hC h2
    refine (hev.trans hadd).tail (halloc i ht) (.alloc ?_ hn)
    rw [hbl]
    exact hnone

theorem processFree_chain {op : MtOperation} (hC : C .silent)
    (hdrop : ∀ b ∈ p.blocks, p.tracing = true → b.addr = m.ptr → C (.drop b))
    (h : processFree o env k p op m = .ok r) : Chain C (k, p) r := by
  rcases processFree_cases h with ⟨-, rfl⟩ | ⟨ht, -, r1, hnote, hrest⟩
  · exact .refl
  obtain ⟨hch, hbl, -⟩ := hnote.chain hC
  rcases hrest with ⟨x, r2, n, hs, henter, hn, rfl⟩ | ⟨-, henter⟩
  · obtain ⟨hch2, hbl2⟩ := enterRealloc_chain hC (fun hno => by cases hno) henter
    refine (hch.trans hch2).tail (hdrop x.val (mem_of_find hs) ht (addr_of_search hs)) (.drop ?_ hn)
    rw [hbl2, hbl]
    exact (find_some hs).1
  · exact hch.trans (enterRealloc_chain hC (fun _ => ⟨_, rfl⟩) henter).1

theorem processReallocDone_chain (hC : C .silent)
    (hrestore : ∀ before re after i, p.tracing = true → m.ptr = 0 → re.addr ≠ 0 →
      findRealloc m.size.toUInt32 p.reallocList = some (before, re, after) →
      re.stackNode = some i → C (.restore (re.block i)))
    (h : processReallocDone o k p m = .ok r) : Chain C (k, p) r := by
  rcases processReallocDone_cases h with ⟨-, rfl⟩ | ⟨ht, before, re, after, hf, hrest⟩
  · exact .refl
  have hlist := (findRealloc_eq_some hf).1
  rcases hrest with ⟨i, n, hz, ha, hi, hn, hdel⟩ | ⟨-, hdel⟩
  · have hadd : Chain C (k, p) (k.get n.stack.id, p.addBlock (re.block i)) :=
      Chain.refl.tail (hrestore before re after i ht hz ha hf hi) (.restore hn)
    exact hadd.trans (reallocDel_chain hC hlist hdel)
  · exact reallocDel_chain hC hlist hdel

/-- Whether a block was allocated by `mmap`. -/
def Process.mmapped (p : Process) (b : RbBlock) : Bool :=
  (p.node? b.stackNode).any fun n => isMmap n.stack.operation

theorem mmapped_of_deref {b : RbBlock} {n : RbStack} (hn : p.deref b.stackNode = .ok n)
    (hm : isMmap n.stack.operation = true) : p.mmapped b = true := by
  rw [Process.mmapped, (Process.deref_eq_ok.mp hn).1]
  exact hm

theorem mmapped_dropBlock (p : Process) (x : Loc RbBlock) (b : RbBlock) :
    (p.dropBlock x).mmapped b = p.mmapped b := by
  have hnode : (p.dropBlock x).node? b.stackNode =
      (p.modifyNode x.val.stackNode (·.drop x.val)).node? b.stackNode := rfl
  rw [Process.mmapped, hnode,
    Process.node?_modifyNode _ _ _ (f := fun n => n.drop x.val) fun _ => rfl]
  split
  next h =>
    rw [Process.mmapped, h]
    cases p.node? x.val.stackNode <;> rfl
  next => rfl

/-- A range `process_munmap` still has to look at, when it was called for another one: the
beginning moves up and the end stays. -/
structure Remains (ptr size ptr' size' : UInt64) : Prop where
  le : ptr ≤ ptr'
  last : ptr'.toNat + size'.toNat = ptr.toNat + size.toNat
  ne_zero : size' = 0 → size = 0

theorem Remains.refl (ptr size : UInt64) : Remains ptr size ptr size :=
  ⟨UInt64.le_refl _, rfl, id⟩

theorem toNat_munmapOff {ptr : UInt64} {b : RbBlock} (h : ptr.toNat ≤ b.addr.toNat) :
    (munmapOff ptr b).toNat = (b.addr.toNat - ptr.toNat) % 2 ^ 32 := by
  rw [munmapOff, UInt32.toNat_toUInt64, UInt64.toNat_toUInt32,
    UInt64.toNat_sub_of_le _ _ (UInt64.le_iff_toNat_le.mpr h)]

/-- A block found in what remains of a range starts in the range. -/
theorem Remains.startsIn {ptr size ptr' size' : UInt64} {b : RbBlock}
    (h : Remains ptr size ptr' size') (hs : Client.startsIn ptr' size' b = true) :
    Client.startsIn ptr size b = true := by
  obtain ⟨hle, hend, hz⟩ := h
  rw [startsIn_iff] at hs ⊢
  rw [UInt64.le_iff_toNat_le] at hle
  have hz' : size'.toNat = 0 → size.toNat = 0 := fun h0 => by
    rw [hz (UInt64.toNat_inj.mp (by simpa using h0))]; rfl
  omega

/-- The part of a range that remains behind a block found in it. -/
theorem Remains.drop {ptr size ptr' size' : UInt64} {b : RbBlock} (h : Remains ptr size ptr' size')
    (hs : Client.startsIn ptr' size' b = true) (hlt : ¬ size' - munmapOff ptr' b < b.size)
    (hz : size' - munmapOff ptr' b - b.size ≠ 0) :
    Remains ptr size (ptr' + munmapOff ptr' b + b.size) (size' - munmapOff ptr' b - b.size) := by
  obtain ⟨hle, hend, -⟩ := h
  obtain ⟨h1, h2, h3⟩ := startsIn_iff.mp hs
  have hoff := toNat_munmapOff h1
  have hmod := Nat.mod_le (b.addr.toNat - ptr'.toNat) (2 ^ 32)
  generalize munmapOff ptr' b = off at *
  have hb := b.size.toNat_lt
  have hs1 : (size' - off).toNat = size'.toNat - off.toNat :=
    UInt64.toNat_sub_of_le _ _ (UInt64.le_iff_toNat_le.mpr (by omega))
  have hge : b.size.toNat ≤ (size' - off).toNat := by
    rw [UInt64.lt_iff_toNat_lt] at hlt; omega
  have hs2 : (size' - off - b.size).toNat = (size' - off).toNat - b.size.toNat :=
    UInt64.toNat_sub_of_le _ _ (UInt64.le_iff_toNat_le.mpr hge)
  have hp : (ptr' + off + b.size).toNat = ptr'.toNat + off.toNat + b.size.toNat := by
    rw [UInt64.toNat_add, UInt64.toNat_add]; omega
  rw [UInt64.le_iff_toNat_le] at hle
  exact ⟨UInt64.le_iff_toNat_le.mpr (by omega), by omega, fun h0 => absurd h0 hz⟩

/-- For a block less than `2 ^ 32` above the range, what a pass of `process_munmap` finds behind the
beginning of the block is what the range has there. -/
theorem Remains.sub_munmapOff {ptr size ptr' size' : UInt64} {b : RbBlock}
    (h : Remains ptr size ptr' size') (hs : Client.startsIn ptr' size' b = true)
    (hnear : b.addr - ptr < 0x100000000) : size' - munmapOff ptr' b = ptr + size - b.addr := by
  obtain ⟨hle, hend, -⟩ := h
  obtain ⟨h1, h2, h3⟩ := startsIn_iff.mp hs
  have hoff := toNat_munmapOff h1
  rw [UInt64.le_iff_toNat_le] at hle
  have hsub : (b.addr - ptr).toNat = b.addr.toNat - ptr.toNat :=
    UInt64.toNat_sub_of_le _ _ (UInt64.le_iff_toNat_le.mpr (by omega))
  rw [UInt64.lt_iff_toNat_lt, hsub] at hnear
  have hlit : (0x100000000 : UInt64).toNat = 2 ^ 32 := rfl
  rw [Nat.mod_eq_of_lt (by omega)] at hoff
  have hsum : (ptr + size).toNat = ptr.toNat + size.toNat := by
    rw [UInt64.toNat_add]; omega
  rw [← UInt64.toNat_inj, UInt64.toNat_sub_of_le _ _ (UInt64.le_iff_toNat_le.mpr (by omega)),
    UInt64.toNat_sub_of_le _ _ (UInt64.le_iff_toNat_le.mpr (by omega)), hoff, hsum]
  omega

theorem processMunmap_chain (hC : ∀ b ∈ p.blocks, ∀ ptr size, p.tracing = true →
      p.mmapped b = true → startsIn m.ptr m.size b = true → Remains m.ptr m.size ptr size →
      startsIn ptr size b = true →
      if size - munmapOff ptr b < b.size then C (.trim b (size - munmapOff ptr b))
      else C (.drop b))
    (h : processMunmap o k p m = .ok r) : Chain C (k, p) r := by
  unfold processMunmap at h
  cases ht : p.tracing with
  | false =>
    simp only [ht, Bool.not_false, if_true] at h
    cases h
    exact .refl
  | true =>
    simp only [ht, Bool.not_true, Bool.false_eq_true, if_false] at h
    -- the blocks that are left are blocks of the record the call started from
    let P (k' : Stacks) (p' : Process) (ptr size : UInt64) : Prop :=
      Chain C (k, p) (k', p') ∧ (∀ b ∈ p'.blocks, b ∈ p.blocks) ∧
        (∀ b, p'.mmapped b = p.mmapped b) ∧ Remains m.ptr m.size ptr size
    refine munmapLoop_induct (P := P) (Q := fun k' p' => Chain C (k, p) (k', p'))
      (fun _ _ _ _ hP => hP.1) ?_ ?_ _ k p m.ptr m.size r
      ⟨.refl, fun _ hb => hb, fun _ => rfl, .refl _ _⟩ h
    · rintro k' p' ptr size x n ⟨hch, hsub, hmm, hrem⟩ hs hn hm hlt
      have hst := startsIn_of_searchRange hs
      have hc := hC x.val (hsub _ (mem_of_find hs)) ptr size ht
        (hmm x.val ▸ mmapped_of_deref hn hm) (hrem.startsIn hst) hrem hst
      rw [if_pos hlt] at hc
      exact hch.tail hc (.trim (find_some hs).1 hn _)
    · rintro k' p' ptr size x n ⟨hch, hsub, hmm, hrem⟩ hs hn hm hlt
      have hst := startsIn_of_searchRange hs
      have hx := (find_some hs).1
      have hc := hC x.val (hsub _ (mem_of_find hs)) ptr size ht
        (hmm x.val ▸ mmapped_of_deref hn hm) (hrem.startsIn hst) hrem hst
      rw [if_neg hlt] at hc
      have hch' := hch.tail hc (.drop hx hn)
      split
      · exact hch'
      next hz =>
        exact ⟨hch', fun b hb => hsub b (mem_of_mem_dropBlock hx hb),
          fun b => (mmapped_dropBlock p' x b).trans (hmm b), hrem.drop hst hlt hz⟩

theorem scanBlocks_chain {leaks : List UInt64} {p' : Process}
    (hC : ∀ b, b.leaked = false → C (.mark b)) (h : scanBlocks leaks p = .ok p') :
    Chain C (k, p) (k, p') :=
  scanBlocks_induct (P := fun p' => Chain C (k, p) (k, p'))
    (fun _ _ x _ hch hs hl hn => hch.tail (hC x.val hl) (.mark (find_some hs).1 hn hl))
    leaks p p' .refl h

end Handlers

end Mtrace.Client
