import Mathlib.Data.List.Infix

/-!
# The keywords of a sort order

The option `-s` and the command `dump` of the client take a keyword each for the order of a report.
The option compares a few characters at the beginning of what it is given with those of a keyword;
the command takes what is a prefix of a keyword.
-/

namespace Mtrace.Client

/-! ## Reports -/

/-- The functions `sort_average` to `sort_badfree`, by which `qsort` orders the stacks. -/
inductive SortBy where
  | average
  | usage
  | leaks
  | bytesLeaked
  | allocations
  | total
  | tsc
  | mismatched
  | badfree
  deriving DecidableEq, Repr

/-- `skip_none`, `skip_zero_allocations` and `skip_zero_leaks`: the stacks that are left out. -/
inductive Skip where
  | none
  | zeroAllocations
  | zeroLeaks
  deriving DecidableEq, Repr

/-- What `process_dump` is given. -/
structure DumpOrder where
  sortby : SortBy
  skipfunc : Skip
  deriving DecidableEq, Repr

def processDumpSortAverage : DumpOrder := ⟨.average, .zeroAllocations⟩
def processDumpSortUsage : DumpOrder := ⟨.usage, .zeroAllocations⟩
def processDumpSortLeaks : DumpOrder := ⟨.leaks, .zeroLeaks⟩
def processDumpSortBytesLeaked : DumpOrder := ⟨.bytesLeaked, .zeroLeaks⟩
def processDumpSortAllocations : DumpOrder := ⟨.allocations, .zeroAllocations⟩
def processDumpSortTotal : DumpOrder := ⟨.total, .zeroAllocations⟩
def processDumpSortTsc : DumpOrder := ⟨.tsc, .zeroAllocations⟩
def processDumpSortMismatched : DumpOrder := ⟨.mismatched, .none⟩
def processDumpSortBadfree : DumpOrder := ⟨.badfree, .none⟩
def processDumpStacks : DumpOrder := ⟨.allocations, .none⟩

/-- `OPT_SORT_ALLOCATIONS` to `OPT_SORT_BADFREE`. -/
inductive OptSort where
  | allocations
  | average
  | bytesLeaked
  | leaks
  | stacks
  | total
  | tsc
  | usage
  | mismatched
  | badfree
  deriving DecidableEq, Repr

/-- The `switch` of `process_dump_sortby`. -/
def processDumpSortbyOrder : OptSort → DumpOrder
  | .average => ⟨.average, .zeroAllocations⟩
  | .bytesLeaked => ⟨.bytesLeaked, .zeroLeaks⟩
  | .leaks => ⟨.leaks, .zeroLeaks⟩
  | .stacks => ⟨.allocations, .none⟩
  | .total => ⟨.total, .none⟩
  | .tsc => ⟨.tsc, .zeroAllocations⟩
  | .usage => ⟨.usage, .zeroAllocations⟩
  | .mismatched => ⟨.mismatched, .none⟩
  | .badfree => ⟨.badfree, .none⟩
  | .allocations => ⟨.allocations, .zeroAllocations⟩

/-! ## Keywords -/

/-- Whether `strncmp` is 0, for strings that end where the lists do. -/
def strncmp : List Char → List Char → ℕ → Bool
  | _, _, 0 => true
  | [], [], _ + 1 => true
  | a :: as, b :: bs, n + 1 => decide (a = b) && strncmp as bs n
  | _, _, _ + 1 => false

/-- The comparisons of `case 's'` in `process_options`, in their order. -/
def sortOptions : List (List Char × ℕ × OptSort) :=
  [("allocations".toList, 2, .allocations), ("average".toList, 2, .average),
    ("badfree".toList, 1, .badfree), ("bytes-leaked".toList, 1, .bytesLeaked),
    ("leaks".toList, 1, .leaks), ("mismatched".toList, 1, .mismatched),
    ("stacks".toList, 1, .stacks), ("total".toList, 2, .total), ("tsc".toList, 2, .tsc),
    ("usage".toList, 1, .usage)]

/-- `case 's'`: the order for `optarg`, if it is accepted. -/
def sortOption (optarg : List Char) : Option OptSort :=
  (sortOptions.find? fun k => strncmp optarg k.1 k.2.1).map fun k => k.2.2

/-- `dump_opts`: the keywords, their `match_len` and their `data`. -/
def dumpOpts : List (List Char × ℕ × DumpOrder) :=
  [("allocations".toList, 2, processDumpSortAllocations),
    ("average".toList, 2, processDumpSortAverage), ("badfree".toList, 1, processDumpSortBadfree),
    ("bytes-leaked".toList, 1, processDumpSortBytesLeaked),
    ("leaks".toList, 1, processDumpSortLeaks), ("mismatched".toList, 1, processDumpSortMismatched),
    ("stacks".toList, 1, processDumpStacks), ("total".toList, 2, processDumpSortTotal),
    ("tsc".toList, 2, processDumpSortTsc), ("usage".toList, 1, processDumpSortUsage)]

/-- The loop of `do_dump`: the order for its argument, if that is a keyword. -/
def dumpOption (arg : List Char) : Option DumpOrder :=
  (dumpOpts.find? fun k => decide (k.2.1 ≤ arg.length) && strncmp k.1 arg arg.length).map
    fun k => k.2.2

/-! ## Agreement -/

/-- What the command takes for a keyword, the option accepts for the same order. -/
def DumpAccepted (s : List Char) : Prop :=
  ∀ order, dumpOption s = some order →
    ∃ opt, sortOption s = some opt ∧ (processDumpSortbyOrder opt).sortby = order.sortby

/-- What the option accepts, if it is a prefix of a keyword, the command takes for the same
order. -/
def OptionAccepted (s : List Char) : Prop :=
  ∀ opt, sortOption s = some opt → (∃ k ∈ dumpOpts, s <+: k.1) →
    ∃ order, dumpOption s = some order ∧ order.sortby = (processDumpSortbyOrder opt).sortby

/-- The orders that both have for a string. -/
def agree (s : List Char) : Bool :=
  (dumpOption s).map DumpOrder.sortby == (sortOption s).map fun opt =>
    (processDumpSortbyOrder opt).sortby

theorem strncmp_length_iff (name arg : List Char) :
    strncmp name arg arg.length = true ↔ arg <+: name := by
  induction arg generalizing name with
  | nil => simp [strncmp]
  | cons a arg ih =>
    cases name with
    | nil => simp [strncmp]
    | cons b name =>
      rw [List.length_cons, strncmp, Bool.and_eq_true, decide_eq_true_iff, ih,
        List.cons_prefix_cons]
      exact and_congr_left fun _ => eq_comm

/-- What the command takes is a prefix of a keyword. -/
theorem prefix_of_dumpOption {s : List Char} {order : DumpOrder} (h : dumpOption s = some order) :
    ∃ k ∈ dumpOpts, s <+: k.1 := by
  obtain ⟨k, hk, -⟩ := Option.map_eq_some_iff.mp h
  have hfound := List.find?_some hk
  rw [Bool.and_eq_true] at hfound
  exact ⟨k, List.mem_of_find?_eq_some hk, (strncmp_length_iff _ _).mp hfound.2⟩

/-- For a prefix of a keyword there is an order on both sides, and the same, or on none. -/
theorem accepted_iff_agree {s : List Char} (h : ∃ k ∈ dumpOpts, s <+: k.1) :
    DumpAccepted s ∧ OptionAccepted s ↔ agree s = true := by
  unfold DumpAccepted OptionAccepted agree
  rw [beq_iff_eq]
  cases hdump : dumpOption s with
  | none =>
    cases hsort : sortOption s with
    | none => simp
    | some opt => simp [h]
  | some order =>
    cases hsort : sortOption s with
    | none => simp
    | some opt => simp [h, eq_comm]

/-- For the prefixes of the keywords. -/
theorem agree_take : ∀ k ∈ dumpOpts, ∀ n ≤ k.1.length, agree (k.1.take n) =
    decide (¬ (2 ≤ (k.1.take n).length ∧ k.1.take n <+: "bytes-leaked".toList)) := by
  decide

theorem agree_iff {s : List Char} (h : ∃ k ∈ dumpOpts, s <+: k.1) :
    agree s = true ↔ ¬ (2 ≤ s.length ∧ s <+: "bytes-leaked".toList) := by
  obtain ⟨k, hk, hprefix⟩ := h
  have htake : k.1.take s.length = s := (List.prefix_iff_eq_take.mp hprefix).symm
  have hagree := agree_take k hk s.length hprefix.length_le
  rw [htake] at hagree
  rw [hagree, decide_eq_true_iff]

/-- The option and the command agree on every string but those that begin `bytes-leaked` with two
characters or more: for these the option stops at `badfree`, of which it compares one character. -/
theorem keywords_agree_iff (s : List Char) :
    DumpAccepted s ∧ OptionAccepted s ↔ ¬ (2 ≤ s.length ∧ s <+: "bytes-leaked".toList) := by
  by_cases hprefix : ∃ k ∈ dumpOpts, s <+: k.1
  · rw [accepted_iff_agree hprefix, agree_iff hprefix]
  · apply iff_of_true
    · constructor
      · intro order horder
        exact absurd (prefix_of_dumpOption horder) hprefix
      · intro opt _ hkeyword
        exact absurd hkeyword hprefix
    · rintro ⟨-, hbytes⟩
      exact hprefix ⟨("bytes-leaked".toList, 1, processDumpSortBytesLeaked), by decide, hbytes⟩

/-- `dump by` is the number of leaked bytes, and `-s by` that of bad releases. -/
theorem keywords_differ_by : dumpOption "by".toList = some processDumpSortBytesLeaked ∧
    sortOption "by".toList = some .badfree ∧
    ¬ (DumpAccepted "by".toList ∧ OptionAccepted "by".toList) := by
  refine ⟨rfl, rfl, ?_⟩
  rintro ⟨hdump, -⟩
  obtain ⟨opt, hopt, horder⟩ := hdump _ rfl
  cases hopt
  cases horder

end Mtrace.Client
