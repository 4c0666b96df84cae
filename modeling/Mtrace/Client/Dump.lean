import Mathlib.Data.List.Perm.Basic
import Mathlib.Data.Fintype.Basic
import Mathlib.Data.List.Permutation
import Mtrace.Client.Keywords
import Mtrace.Client.Statistics

/-!
# The report of a process

`_process_dump` of `client/process.c` for output to a file: it takes the nodes of the stack table,
has `qsort` put them in order, turns the order round for `stderr` and prints those that the order
does not skip.  The sort is whatever C allows, the arithmetic of `double` is any total order, and
what `dump_stack` prints about the addresses of a stack is not part of this model.

`dump_accounts`: the report has every block under exactly one stack, and its numbers are right.
-/

namespace Mtrace.Client

open RbTree Machine

/-! ## The orders -/

/-- The quotient of two counters as a `double`, and `0.0`. -/
structure Doubles (ρ : Type) where
  quot : UInt64 → UInt64 → ρ
  zero : ρ

/-- `-1` if the first is greater, `1` if the second is. -/
def greaterFirst {β : Type} [LT β] [DecidableLT β] (a b : β) : Ordering :=
  if a > b then .lt else if a < b then .gt else .eq

def sortTsc (p q : RbStack) : Ordering := greaterFirst p.tsc q.tsc

/-- `_sort_badfree`. -/
def sortBadfreeOnly (p q : RbStack) : Ordering := greaterFirst p.nBadfree q.nBadfree

/-- `_sort_mismatched`. -/
def sortMismatchedOnly (p q : RbStack) : Ordering := greaterFirst p.nMismatched q.nMismatched

def sortBadfree (p q : RbStack) : Ordering :=
  match sortBadfreeOnly p q with
  | .eq => sortMismatchedOnly p q
  | ret => ret

def sortMismatched (p q : RbStack) : Ordering :=
  match sortMismatchedOnly p q with
  | .eq => sortBadfreeOnly p q
  | ret => ret

/-- The comparison of two keys, and of what else there is if they are equal. -/
def keyFirst {β : Type} [LT β] [DecidableLT β] (key : RbStack → β)
    (others : RbStack → RbStack → Ordering) (p q : RbStack) : Ordering :=
  if key p > key q then .lt else if key p < key q then .gt else others p q

def sortUsage : RbStack → RbStack → Ordering := keyFirst (·.bytesUsed) sortTsc

section Average

variable {ρ : Type} [LinearOrder ρ] (d : Doubles ρ)

def RbStack.average (n : RbStack) : ρ :=
  if n.nAllocations ≠ 0 then d.quot n.bytesUsed n.nAllocations else d.zero

def sortAverage : RbStack → RbStack → Ordering := keyFirst (·.average d) sortUsage

end Average

def sortLeaks : RbStack → RbStack → Ordering := keyFirst (·.leaks) sortUsage

def sortBytesLeaked : RbStack → RbStack → Ordering := keyFirst (·.bytesLeaked) sortLeaks

def sortAllocations : RbStack → RbStack → Ordering := keyFirst (·.nAllocations) sortUsage

def sortTotal : RbStack → RbStack → Ordering := keyFirst (·.totalAllocations) sortAllocations

/-- The comparison that `qsort` gets. -/
def SortBy.compare {ρ : Type} [LinearOrder ρ] (d : Doubles ρ) :
    SortBy → RbStack → RbStack → Ordering
  | .average => sortAverage d
  | .usage => sortUsage
  | .leaks => sortLeaks
  | .bytesLeaked => sortBytesLeaked
  | .allocations => sortAllocations
  | .total => sortTotal
  | .tsc => sortTsc
  | .mismatched => sortMismatched
  | .badfree => sortBadfree

def Skip.skips : Skip → RbStack → Bool
  | .none, _ => false
  | .zeroAllocations, n => n.nAllocations == 0
  | .zeroLeaks, n => n.leaks == 0

/-- What C promises of `qsort` for a comparison that is an order up to ties. -/
structure IsQsort (qsort : (RbStack → RbStack → Ordering) → List RbStack → List RbStack) :
    Prop where
  perm : ∀ cmp ns, Std.TransCmp cmp → (qsort cmp ns).Perm ns
  sorted : ∀ cmp ns, Std.TransCmp cmp → (qsort cmp ns).Pairwise fun m n => cmp m n ≠ .gt

/-! ## The text -/

def strOperation : MtOperation → String
  | .malloc => "malloc"
  | .reallocEnter => "realloc enter"
  | .realloc => "realloc"
  | .reallocDone => "realloc done"
  | .memalign => "memalign"
  | .posixMemalign => "posix_memalign"
  | .alignedAlloc => "aligned_alloc"
  | .valloc => "valloc"
  | .pvalloc => "pvalloc"
  | .mmap => "mmap"
  | .mmap64 => "mmap64"
  | .free => "free"
  | .munmap => "munmap"
  | .new => "new"
  | .newArray => "new[]"
  | .delete => "delete"
  | .deleteArray => "delete[]"
  | _ => "unknow operation"

/-- The lines about a stack. -/
def RbStack.lines (dumpStack : Stack → String) (n : RbStack) : String :=
  "Stack (" ++ strOperation n.stack.operation ++ "):\n" ++
    (if n.nMismatched ≠ 0 ∨ n.nBadfree ≠ 0 then
      " total number of mismatches: " ++ toString n.nMismatched ++ "\n" ++
      " total number of bad free: " ++ toString n.nBadfree ++ "\n"
    else
      " bytes used: " ++ toString n.bytesUsed ++ "\n" ++
      " number of open allocations: " ++ toString n.nAllocations ++ "\n" ++
      " total number of allocations: " ++ toString n.totalAllocations ++ "\n" ++
      if n.leaks ≠ 0 then
        " leaked allocations: " ++ toString n.leaks ++ " (" ++ toString n.bytesLeaked ++ " bytes)\n"
      else "") ++
    " tsc: " ++ toString n.tsc ++ "\n" ++ dumpStack n.stack

def Process.headline (p : Process) : String :=
  "Process dump " ++ toString p.pid ++ " " ++ p.filename.getD "<unknown>" ++ "\n"

/-- The text of a report about these stacks. -/
def Process.report (dumpStack : Stack → String) (p : Process) (shown : List RbStack) : String :=
  p.headline ++ String.join (shown.map (·.lines dumpStack))

/-- Where a report goes. -/
inductive DumpFile where
  | stderr
  | file
  deriving DecidableEq, Repr

/-- A round of the loop that turns the array round. -/
def swapRound {α : Type} (arr : Array α) (i : ℕ) : Array α :=
  arr.swapIfInBounds i (arr.size - 1 - i)

def turnRound {α : Type} (arr : List α) : List α :=
  ((List.range (arr.length / 2)).foldl swapRound arr.toArray).toList

/-- `_process_dump`, which prints nothing about a process without stacks. -/
def processDump {ρ : Type} [LinearOrder ρ] (d : Doubles ρ)
    (qsort : (RbStack → RbStack → Ordering) → List RbStack → List RbStack)
    (dumpStack : Stack → String) (outfile : DumpFile) (order : DumpOrder) (k : Stacks)
    (p : Process) : Except Fault (Stacks × Process × String) := do
  let (k, p, _) ← dumpBegin k p
  if p.stackTrees = 0 then return (k, p, "")
  else
    let arr := qsort (order.sortby.compare d) p.nodes
    let arr := if outfile = .stderr then turnRound arr else arr
    let text := p.report dumpStack (arr.filter fun n => !order.skipfunc.skips n)
    let (k, p) ← dumpPut (arr.map (·.id)) k p
    return (k, p, text)

/-! ## The comparisons are orders -/

section Orders

variable {β : Type} [LT β] [DecidableLT β] {γ : Type} [LinearOrder γ]

/-- Comparing by a key is an order. -/
theorem transCmp_greaterFirst (key : RbStack → β) (f : β → γ) (hf : ∀ a b, a < b ↔ f a < f b) :
    Std.TransCmp fun p q => greaterFirst (key p) (key q) := by
  have hle : ∀ p q, (greaterFirst (key p) (key q)).isLE ↔ f (key q) ≤ f (key p) := by
    intro p q
    unfold greaterFirst
    rcases lt_trichotomy (f (key p)) (f (key q)) with h | h | h
    · simp [hf, h, not_lt_of_gt h, not_le_of_gt h]
    · simp [hf, h]
    · simp [hf, h, le_of_lt h]
  have hswap : Std.OrientedCmp fun p q => greaterFirst (key p) (key q) := by
    refine ⟨fun {p q} => ?_⟩
    unfold greaterFirst
    rcases lt_trichotomy (f (key p)) (f (key q)) with h | h | h
    · simp [hf, h, not_lt_of_gt h]
    · simp [hf, h]
    · simp [hf, h, not_lt_of_gt h]
  refine ⟨fun {p q r} h h' => ?_⟩
  rw [hle] at h h' ⊢
  exact h'.trans h

theorem keyFirst_eq (key : RbStack → β) (others : RbStack → RbStack → Ordering) :
    keyFirst key others = compareLex (fun p q => greaterFirst (key p) (key q)) others := by
  funext p q
  unfold keyFirst compareLex greaterFirst
  by_cases hgt : key p > key q
  · simp [hgt]
  · by_cases hlt : key p < key q <;> simp [hgt, hlt]

theorem transCmp_keyFirst (key : RbStack → β) (f : β → γ) (hf : ∀ a b, a < b ↔ f a < f b)
    {others : RbStack → RbStack → Ordering} (h : Std.TransCmp others) :
    Std.TransCmp (keyFirst key others) := by
  have := transCmp_greaterFirst key f hf
  rw [keyFirst_eq]
  infer_instance

theorem transCmp_then {cmp cmp' : RbStack → RbStack → Ordering} (h : Std.TransCmp cmp)
    (h' : Std.TransCmp cmp') : Std.TransCmp fun p q =>
      match cmp p q with
      | .eq => cmp' p q
      | ret => ret := by
  have heq : (fun p q => match cmp p q with
      | .eq => cmp' p q
      | ret => ret) = compareLex cmp cmp' := by
    funext p q
    unfold compareLex
    cases cmp p q <;> rfl
  rw [heq]
  infer_instance

/-- Counters are compared as numbers. -/
theorem transCmp_counter (key : RbStack → UInt64) :
    Std.TransCmp fun p q => greaterFirst (key p) (key q) :=
  transCmp_greaterFirst key UInt64.toNat fun _ _ => UInt64.lt_iff_toNat_lt

theorem transCmp_counterFirst (key : RbStack → UInt64) {others : RbStack → RbStack → Ordering}
    (h : Std.TransCmp others) : Std.TransCmp (keyFirst key others) :=
  transCmp_keyFirst key UInt64.toNat (fun _ _ => UInt64.lt_iff_toNat_lt) h

/-- What `qsort` asks for. -/
theorem SortBy.transCmp {ρ : Type} [LinearOrder ρ] (d : Doubles ρ) (s : SortBy) :
    Std.TransCmp (s.compare d) := by
  have htsc : Std.TransCmp sortTsc := transCmp_counter _
  have hbad : Std.TransCmp sortBadfreeOnly := transCmp_counter _
  have hmis : Std.TransCmp sortMismatchedOnly := transCmp_counter _
  have husage : Std.TransCmp sortUsage := transCmp_counterFirst _ htsc
  have hleaks : Std.TransCmp sortLeaks := transCmp_counterFirst _ husage
  have hallocs : Std.TransCmp sortAllocations := transCmp_counterFirst _ husage
  cases s with
  | average => exact transCmp_keyFirst (·.average d) id (fun _ _ => Iff.rfl) husage
  | usage => exact husage
  | leaks => exact hleaks
  | bytesLeaked => exact transCmp_counterFirst _ hleaks
  | allocations => exact hallocs
  | total => exact transCmp_counterFirst _ hallocs
  | tsc => exact htsc
  | mismatched => exact transCmp_then hmis hbad
  | badfree => exact transCmp_then hbad hmis

end Orders

/-! ## The array turned round -/

section Turn

variable {α : Type}

theorem size_swapRounds (xs : Array α) (is : List ℕ) : (is.foldl swapRound xs).size = xs.size := by
  induction is generalizing xs with
  | nil => rfl
  | cons i is ih => simp [ih, swapRound]

/-- After `n` rounds the first and the last `n` elements have changed places. -/
theorem getElem?_swapRounds (xs : Array α) {n : ℕ} (hn : n ≤ xs.size / 2) {j : ℕ}
    (hj : j < xs.size) :
    ((List.range n).foldl swapRound xs)[j]? =
      if j < n ∨ xs.size - 1 - j < n then xs[xs.size - 1 - j]? else xs[j]? := by
  induction n generalizing j with
  | zero => simp
  | succ n ih =>
    rw [List.range_succ, List.foldl_append, List.foldl_cons, List.foldl_nil]
    have hsize := size_swapRounds xs (List.range n)
    have ih' := fun j (hj : j < xs.size) => ih (by omega) hj
    generalize (List.range n).foldl swapRound xs = ys at *
    unfold swapRound
    rw [← hsize] at hn hj ih' ⊢
    rw [Array.getElem?_eq_getElem (by simpa using hj), Array.getElem_swapIfInBounds]
    have hlast : ys.size - 1 - n < ys.size := by omega
    by_cases hfront : j = n
    · subst hfront
      rw [dif_pos ⟨rfl, hlast⟩, ← Array.getElem?_eq_getElem, ih' _ hlast, if_neg (by omega),
        if_pos (.inl (Nat.lt_succ_self j))]
    · rw [dif_neg fun h => hfront h.1]
      by_cases hback : j = ys.size - 1 - n
      · have hn' : n < ys.size := by omega
        have hturned : ys.size - 1 - j = n := by omega
        rw [dif_pos ⟨hback, hn'⟩, ← Array.getElem?_eq_getElem, ih' n hn', if_neg (by omega),
          if_pos (by omega), hturned]
      · have hsame : j < n ∨ ys.size - 1 - j < n ↔ j < n + 1 ∨ ys.size - 1 - j < n + 1 := by omega
        rw [dif_neg fun h => hback h.1, ← Array.getElem?_eq_getElem, ih' j hj]
        exact if_congr hsame rfl rfl

theorem turnRound_eq (arr : List α) : turnRound arr = arr.reverse := by
  refine List.ext_getElem? fun j => ?_
  unfold turnRound
  rw [Array.getElem?_toList]
  by_cases hj : j < arr.length
  · rw [getElem?_swapRounds arr.toArray (by simp) (by simpa using hj), List.getElem?_reverse hj]
    simp only [List.size_toArray, List.getElem?_toArray]
    split_ifs with hturned
    · rfl
    · -- the middle of an odd number of elements
      have hmiddle : arr.length - 1 - j = j := by omega
      rw [hmiddle]
  · rw [Array.getElem?_eq_none (by rw [size_swapRounds]; simpa using hj),
      List.getElem?_eq_none (by simpa using hj)]

end Turn

/-! ## The report -/

/-- The order on the screen: what comes last is seen first there. -/
def DumpFile.shows (outfile : DumpFile) (cmp : RbStack → RbStack → Ordering) (m n : RbStack) :
    Prop :=
  match outfile with
  | .file => cmp m n ≠ .gt
  | .stderr => cmp n m ≠ .gt

section Report

variable {ρ : Type} [LinearOrder ρ] {d : Doubles ρ} {dumpStack : Stack → String}
  {qsort : (RbStack → RbStack → Ordering) → List RbStack → List RbStack}
  {k k' : Stacks} {p p' : Process} {ext : NodeId → ℕ} {rest : StackId → ℕ}

theorem exists_perm_of_map {α β : Type} {f : α → β} {l : List α} {ys : List β}
    (h : ys.Perm (l.map f)) : ∃ xs : List α, xs.Perm l ∧ xs.map f = ys := by
  have hmap : List.Forall₂ (fun y x => f x = y) (l.map f) l := by
    rw [List.forall₂_map_left_iff]
    exact List.forall₂_same.mpr fun _ _ => rfl
  obtain ⟨xs, hxs, hperm⟩ := List.perm_comp_forall₂ h hmap
  refine ⟨xs, hperm, ?_⟩
  clear h hmap hperm
  induction hxs with
  | nil => rfl
  | cons hx _ ih => rw [List.map_cons, hx, ih]

/-- Counters that account for the same references are the same. -/
theorem Rerefs.eq_of_owned (hre : Rerefs p p') (h : Owned k p ext rest)
    (h' : Owned k' p' ext rest) : p' = p ∧ k'.refcnt = k.refcnt := by
  obtain ⟨c, rfl⟩ := hre
  have hc : ∀ n ∈ p.nodes, n.withRefs (c n) = n := by
    intro n hn
    have hmem : n.withRefs (c n) ∈ (p.mapNodes fun n => n.withRefs (c n)).nodes := by
      rw [Process.nodes_mapNodes]
      exact List.mem_map_of_mem hn
    have href : c n = n.refcnt := (h'.refs.refcnt _ hmem).trans (h.refs.refcnt n hn).symm
    rw [href]
    rfl
  have hp : p.mapNodes (fun n => n.withRefs (c n)) = p := by
    refine Eq.trans ?_ (Process.mapNodes_id (f := fun n => n) fun _ => rfl)
    unfold Process.mapNodes
    rw [RbRoot.map_congr hc]
  refine ⟨hp, funext fun s => ?_⟩
  have hs := h'.refs.shared s
  rw [hp] at hs
  exact hs.trans (h.refs.shared s).symm

/-- The array in the order in which it is printed. -/
theorem DumpFile.shows_arr (outfile : DumpFile) {cmp : RbStack → RbStack → Ordering}
    (hcmp : Std.TransCmp cmp) (hq : IsQsort qsort) (ns : List RbStack) :
    (if outfile = .stderr then turnRound (qsort cmp ns) else qsort cmp ns).Perm ns ∧
      (if outfile = .stderr then turnRound (qsort cmp ns) else qsort cmp ns).Pairwise
        (outfile.shows cmp) := by
  have hperm := hq.perm cmp ns hcmp
  have hsorted := hq.sorted cmp ns hcmp
  cases outfile with
  | file => exact ⟨hperm, hsorted⟩
  | stderr =>
    rw [if_pos rfl, turnRound_eq]
    exact ⟨(List.reverse_perm _).trans hperm, List.pairwise_reverse.mpr hsorted⟩

/-- What is compared, skipped and printed does not depend on the reference counters. -/
theorem SortBy.compare_withRefs (s : SortBy) (c c' : ℕ) (m n : RbStack) :
    s.compare d (m.withRefs c) (n.withRefs c') = s.compare d m n := by
  cases s <;> rfl

theorem Skip.skips_withRefs (s : Skip) (c : ℕ) (n : RbStack) :
    s.skips (n.withRefs c) = s.skips n := by
  cases s <;> rfl

theorem report_withRefs (c : RbStack → ℕ) (shown : List RbStack) :
    (p.mapNodes fun n => n.withRefs (c n)).report dumpStack
        (shown.map fun n => n.withRefs (c n)) = p.report dumpStack shown := by
  unfold Process.report
  rw [List.map_map]
  rfl

/-- A report returns and leaves no trace in the record; it shows the stacks of the record that are
not skipped, in order. -/
theorem Owned.processDump_ok (h : Owned k p ext rest) (d : Doubles ρ) (hq : IsQsort qsort)
    (dumpStack : Stack → String) (outfile : DumpFile) (order : DumpOrder) : ∃ k' shown,
    processDump d qsort dumpStack outfile order k p =
        .ok (k', p, if p.nodes = [] then "" else p.report dumpStack shown) ∧
      k'.refcnt = k.refcnt ∧ shown.Perm (p.nodes.filter fun n => !order.skipfunc.skips n) ∧
      shown.Pairwise (outfile.shows (order.sortby.compare d)) := by
  by_cases htrees : p.stackTrees = 0
  · have hnodes : p.nodes = [] := List.length_eq_zero_iff.mp (h.trees.symm.trans htrees)
    refine ⟨k, [], ?_, rfl, by rw [hnodes]; exact .refl _, .nil⟩
    unfold processDump dumpBegin
    rw [if_pos htrees, if_pos hnodes]
    simp only [bind, Except.bind, htrees, if_true]
    rfl
  · obtain ⟨k1, p1, arr, hbegin, hre1, ho1⟩ := h.dumpBegin_ok
    have harr : arr = p.nodes.map (·.id) := by
      unfold dumpBegin at hbegin
      rw [if_neg htrees] at hbegin
      obtain ⟨⟨k', p'⟩, -, hr⟩ := bind_eq_ok.mp hbegin
      dsimp only at hr
      by_cases hne : p'.stackTrees ≠ (p.nodes.map (·.id)).length
      · rw [if_pos hne] at hr
        cases hr
      · rw [if_neg hne] at hr
        cases hr
        rfl
    have hcmp := order.sortby.transCmp d
    obtain ⟨hperm, hsorted⟩ := outfile.shows_arr hcmp hq p1.nodes
    generalize hlist : (if outfile = .stderr then
        turnRound (qsort (order.sortby.compare d) p1.nodes)
      else qsort (order.sortby.compare d) p1.nodes) = listed at hperm hsorted
    have hids : (listed.map (·.id)).Perm arr := by
      rw [harr, ← hre1.map_id]
      exact hperm.map _
    have hput : Owned k1 p1 (fun i => ext i + (listed.map (·.id)).count i) rest := by
      simpa only [hids.count_eq] using ho1
    obtain ⟨k2, p2, hput2, hre2, ho2⟩ := hput.dumpPut_ok
    obtain ⟨hp2, hk2⟩ := (hre1.trans hre2).eq_of_owned h ho2
    obtain ⟨c, rfl⟩ := hre1
    rw [Process.nodes_mapNodes] at hperm
    obtain ⟨ns, hns, rfl⟩ := exists_perm_of_map hperm
    refine ⟨k2, ns.filter fun n => !order.skipfunc.skips n, ?_, hk2, hns.filter _, ?_⟩
    · have hnodes : p.nodes ≠ [] := fun hnil => htrees (by rw [h.trees, hnil]; rfl)
      have htext : (ns.map fun n => n.withRefs (c n)).filter (fun n => !order.skipfunc.skips n) =
          (ns.filter fun n => !order.skipfunc.skips n).map fun n => n.withRefs (c n) := by
        rw [List.filter_map]
        congr 1
        exact List.filter_congr fun n _ => congrArg _ (Skip.skips_withRefs ..)
      unfold processDump
      rw [hbegin, if_neg hnodes]
      show (if p.stackTrees = 0 then _ else _) = _
      rw [if_neg htrees]
      dsimp only
      rw [hlist, hput2, hp2, htext, report_withRefs]
      rfl
    · refine List.Pairwise.sublist List.filter_sublist ((List.pairwise_map.mp hsorted).imp ?_)
      intro m n hmn
      unfold DumpFile.shows at hmn ⊢
      simpa only [SortBy.compare_withRefs] using hmn

end Report

section Accounts

variable {o : Options} {env : Env} {doTrace : Bool} {c : State} {p : Process}

/-- The counters of the stacks, as long as nothing disturbs them. -/
theorem Reach.node_exact (h : Reach o env StacksKept doTrace c) (hp : p ∈ c.processes) (i : NodeId)
    {q : Kind} (hq : q = .allocations ∨ q = .bytes) : Exact (.node i) q p := by
  refine h.exact (G := fun l q => l ≠ .process ∧ (q = .allocations ∨ q = .bytes)) ?_ ?_ p hp
    (.node i) q ⟨by simp, hq⟩
  · rintro c pid sw msg p l q hac hok ht - ⟨hl, hq⟩
    obtain ⟨hfit, hcopy⟩ := hok p ht
    refine ⟨fun _ => hfit, fun re j _ _ => ⟨fun _ hl' => absurd hl' hl, ?_⟩, fun hc => hcopy ?_⟩
    · rcases hq with rfl | rfl <;> simp
    · refine copies_entered hac (fun _ _ _ hne => hne rfl) (hc.mono fun parent _ hP => ?_)
      rcases hP with ⟨b, hb, -⟩ | ⟨-, b, hb, -⟩ <;> exact List.ne_nil_of_mem hb
  · rintro c pid p (_ | j) q hok hf ⟨hl, rfl | rfl⟩
    · exact absurd rfl hl
    · exact absurd rfl hl
    · exact .inr (.inl rfl)
    · rw [total_eq_sum]
      rcases hok with hok | hok <;> exact .inr (.inr (hok p hf j))

end Accounts

/-- A report shows the stacks of a process that its order does not skip, each once and in order,
with the number and the bytes of their blocks, and only a report about leaks leaves out a block.  It
leaves no trace. -/
theorem dump_accounts {ρ : Type} [LinearOrder ρ] (d : Doubles ρ)
    {qsort : (RbStack → RbStack → Ordering) → List RbStack → List RbStack} (hq : IsQsort qsort)
    (dumpStack : Stack → String) (outfile : DumpFile) (order : DumpOrder) {o : Options} {env : Env}
    {doTrace : Bool} {c : State} (h : Reach o env StacksKept doTrace c) {p : Process}
    (hp : p ∈ c.processes) : ∃ k shown,
      processDump d qsort dumpStack outfile order c.heap p =
          .ok (k, p, if p.nodes = [] then "" else p.report dumpStack shown) ∧
        k.refcnt = c.heap.refcnt ∧
        shown.Perm (p.nodes.filter fun n => !order.skipfunc.skips n) ∧
        (shown.map (·.id)).Nodup ∧
        shown.Pairwise (outfile.shows (order.sortby.compare d)) ∧
        (∀ n ∈ shown,
          Tallies n.nAllocations n.bytesUsed (p.blocks.filter fun b => b.stackNode = n.id)) ∧
        (order.skipfunc ≠ .zeroLeaks → p.blocks.length < 2 ^ 64 →
          ∀ b ∈ p.blocks, ∃ n ∈ shown, n.id = b.stackNode) := by
  have howned := (Reach.accounted h).owned p hp
  obtain ⟨k, shown, hdump, hk, hperm, hsorted⟩ :=
    howned.processDump_ok d hq dumpStack outfile order
  have hmem : ∀ n, n ∈ shown ↔ n ∈ p.nodes ∧ order.skipfunc.skips n = false := fun n => by
    rw [hperm.mem_iff, List.mem_filter, Bool.not_eq_true']
  have htallies : ∀ n ∈ p.nodes,
      Tallies n.nAllocations n.bytesUsed (p.blocks.filter fun b => b.stackNode = n.id) := by
    intro n hn
    have htal := (h.node_exact hp n.id (.inl rfl)).tallies (h.node_exact hp n.id (.inr rfl))
    rw [counter_node_of_mem howned hn, counter_node_of_mem howned hn] at htal
    exact htal
  refine ⟨k, shown, hdump, hk, hperm, ?_, hsorted, fun n hn => htallies n ((hmem n).mp hn).1, ?_⟩
  · have hnd : ((p.nodes.filter fun n => !order.skipfunc.skips n).map (·.id)).Nodup :=
      howned.refs.nodup.sublist (List.filter_sublist.map _)
    exact (hperm.map _).nodup_iff.mpr hnd
  · intro hskip hlen b hb
    have hheld : b.stackNode ∈ p.nodes.map (·.id) := by
      refine howned.refs.held _ ?_
      have := blockRefs_pos hb
      unfold Process.refs
      omega
    obtain ⟨n, hn, hid⟩ := List.mem_map.mp hheld
    refine ⟨n, (hmem n).mpr ⟨hn, ?_⟩, hid⟩
    have hblock : b ∈ p.blocks.filter fun b => b.stackNode = n.id := by simp [hb, hid]
    have hcount := (htallies n hn).count
    have hpos := List.length_pos_of_mem hblock
    have hle := List.length_filter_le (fun b : RbBlock => decide (b.stackNode = n.id)) p.blocks
    rw [Nat.mod_eq_of_lt (hle.trans_lt hlen)] at hcount
    cases hs : order.skipfunc with
    | none => rfl
    | zeroLeaks => exact absurd hs hskip
    | zeroAllocations =>
      refine beq_eq_false_iff_ne.mpr fun hzero => ?_
      rw [hzero] at hcount
      exact hpos.ne hcount

/-! ## A sample report -/

/-- A `qsort`. -/
def mergeQsort (cmp : RbStack → RbStack → Ordering) (ns : List RbStack) : List RbStack :=
  ns.mergeSort fun m n => (cmp m n).isLE

theorem isQsort_mergeQsort : IsQsort mergeQsort where
  perm cmp ns _ := List.mergeSort_perm ns _
  sorted cmp ns hcmp := by
    have htrans : ∀ l m n, (cmp l m).isLE = true → (cmp m n).isLE = true →
        (cmp l n).isLE = true := fun _ _ _ => hcmp.isLE_trans
    have htotal : ∀ m n, ((cmp m n).isLE || (cmp n m).isLE) = true := fun m n => by
      rw [hcmp.eq_swap (a := n)]
      cases cmp m n <;> rfl
    have hsorted : (mergeQsort cmp ns).Pairwise fun m n => (cmp m n).isLE = true :=
      List.pairwise_mergeSort htrans htotal ns
    refine hsorted.imp fun {m n} hle heq => ?_
    rw [heq] at hle
    cases hle

def wholeQuotients : Doubles ℕ := ⟨fun a b => a.toNat / b.toNat, 0⟩

/-- No block of the process is of `2 ^ 32` bytes or more. -/
def smallBlocks (c : State) : Event → Bool
  | .msg pid sw m =>
    (match m with
    | .fork _ | .munmap _ => false
    | _ => true) &&
      (c.target (.msg pid sw m)).all fun p => p.blocks.all fun b => decide (b.size < 0x100000000)
  | _ => false

theorem stacksKept_of_smallBlocks {c : State} {e : Event} (h : smallBlocks c e = true) :
    StacksKept c e := by
  intro p hp
  cases e with
  | msg pid sw m =>
    unfold smallBlocks at h
    dsimp only at h
    rw [hp, Option.all_some, Bool.and_eq_true_iff] at h
    have hsmall (b) (hb : b ∈ p.blocks) : b.size < 0x100000000 :=
      of_decide_eq_true (List.all_eq_true.mp h.2 b hb)
    cases m with
    | alloc => exact ⟨fun _ b hb _ => hsmall b hb, id⟩
    | free => exact ⟨fun _ b hb _ => hsmall b hb, id⟩
    | munmap => cases h.1
    | fork => cases h.1
    | _ => exact ⟨trivial, id⟩
  | _ => cases h

/-- Three calls from different places, of which the last block is freed. -/
def stacksEvents : List Event :=
  startEvents ++ [mallocEvent 0x602010 16,
    .msg 1 false (.alloc .malloc isAllocOp_malloc ⟨0x602100, 64, callAt 0x20⟩),
    .msg 1 false (.alloc .malloc isAllocOp_malloc ⟨0x602200, 8, callAt 0x30⟩),
    .msg 1 false (.free .free isFreeOp_free ⟨0x602200, 0, callAt 0x40⟩)]

def stacksState : State := stateAfter stacksEvents

/-- The stacks with a block are shown, the one with more bytes first. -/
theorem dump_accounts_stacks : ∃ k p shown, p ∈ stacksState.processes ∧ p.nodes.length = 3 ∧
    processDump wholeQuotients mergeQsort (fun _ => "") .file processDumpSortUsage
      stacksState.heap p = .ok (k, p, p.report (fun _ => "") shown) ∧
    shown.map (fun n => (n.bytesUsed, n.nAllocations)) = [(64, 1), (16, 1)] := by
  obtain ⟨p, m, n, hp, hlen, hshown, hm, hn, hmn⟩ : ∃ p m n, p ∈ stacksState.processes ∧
      p.nodes.length = 3 ∧
      p.nodes.filter (fun n => !processDumpSortUsage.skipfunc.skips n) = [m, n] ∧
      (m.bytesUsed, m.nAllocations) = (16, 1) ∧ (n.bytesUsed, n.nAllocations) = (64, 1) ∧
      (sortUsage m n) = .gt :=
    ⟨_, _, _, List.mem_singleton_self _, rfl, rfl, rfl, rfl, rfl⟩
  have hreach : Reach plainOptions plainEnv StacksKept true stacksState :=
    Machine.reach_runTested (fun _ _ _ (h : smallBlocks _ _ = true) =>
      stacksKept_of_smallBlocks h) stacksEvents _ _ .init rfl
  obtain ⟨k, shown, hdump, -, hperm, -, hsorted, -⟩ := dump_accounts wholeQuotients
    isQsort_mergeQsort (fun _ => "") .file processDumpSortUsage hreach hp
  rw [if_neg fun h => by rw [h] at hlen; cases hlen] at hdump
  refine ⟨k, p, shown, hp, hlen, hdump, ?_⟩
  rw [hshown] at hperm
  obtain rfl | rfl := List.perm_pair.mp hperm
  · exact absurd hmn ((List.pairwise_cons.mp hsorted).1 n (List.mem_singleton_self n))
  · rw [List.map_cons, List.map_cons, hm, hn]
    rfl

end Mtrace.Client
