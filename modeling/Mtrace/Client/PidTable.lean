import Mtrace.Client.Client
import Mtrace.RbMap
import Mtrace.Rb.Table

/-!
# The table of processes in memory

`pid_table`, from the functions that search it, link an entry and take one out, over the memory of
its nodes.  A run of such calls is a run over a finite map: whatever `malloc` returns, no call uses
a node that is not there, none writes to memory outside of the table, and each loop ends after about
twice as many passes as the number of processes has binary digits. -/

namespace Mtrace.Client

open RbTree Rb

abbrev PidTable := Rb.Table Process

/-- What the client does with the table. -/
inductive TableCall where
  | find (pid : UInt32)
  /-- An entry at `a`, where `malloc` left `n`. -/
  | add (a : Ptr) (n : RbNode) (p : Process)
  | update (pid : UInt32) (f : Process → Process)
  | remove (pid : UInt32)

/-- What the client gets back. -/
inductive TableAnswer where
  | process (p : Option Process)
  | added (b : Bool)
  | done

/-- The table as it was meant. -/
abbrev PidMap := UInt32 → Option Process

def PidMap.call (M : PidMap) : TableCall → PidMap × TableAnswer
  | .find pid => (M, .process (M pid))
  | .add _ _ p =>
    if (M p.pid).isSome then (M, .added false)
    else (Function.update M p.pid (some p), .added true)
  | .update pid f => (Function.update M pid ((M pid).map f), .done)
  | .remove pid => (Function.update M pid none, .process (M pid))

def PidMap.run : PidMap → List TableCall → PidMap × List TableAnswer
  | M, [] => (M, [])
  | M, c :: cs =>
    let (M, r) := M.call c
    let (M, rs) := PidMap.run M cs
    (M, r :: rs)

namespace PidTable

/-- `RB_ROOT` in a memory without entries. -/
def empty (base : Ptr → Option RbNode) : PidTable := ⟨⟨base, 0⟩, fun _ => none⟩

/-- `pid_rb_search`, and the process of the entry. -/
def pidRbSearch (fuel : ℕ) (T : PidTable) (pid : UInt32) : Option (Option Process) :=
  T.find fuel (pidCut pid)

/-- `process_rb_insert`. -/
def processRbInsert (fuel : ℕ) (T : PidTable) (a : Ptr) (n : RbNode) (p : Process) :
    Option (PidTable × Bool) :=
  T.insert fuel (pidCut p.pid) a n p

/-- `pid_rb_delete`. -/
def pidRbDelete (fuel : ℕ) (T : PidTable) (pid : UInt32) : Option (PidTable × Option Process) :=
  T.delete fuel (pidCut pid)

def call (fuel : ℕ) (T : PidTable) : TableCall → Option (PidTable × TableAnswer)
  | .find pid => (T.pidRbSearch fuel pid).map (T, .process ·)
  | .add a n p => (T.processRbInsert fuel a n p).map (Prod.map id .added)
  | .update pid f => (T.write fuel (pidCut pid) f).map (·, .done)
  | .remove pid => (T.pidRbDelete fuel pid).map (Prod.map id .process)

def run (fuel : ℕ) : PidTable → List TableCall → Option (PidTable × List TableAnswer)
  | T, [] => some (T, [])
  | T, c :: cs => do
    let (T, r) ← T.call fuel c
    let (T, rs) ← run fuel T cs
    some (T, r :: rs)

/-- `malloc` returns memory that is not in use, and a process keeps its pid. -/
def Ready (T : PidTable) : TableCall → Prop
  | .add a _ _ => Valid a ∧ T.mem.node a = none
  | .update _ f => ∀ p, (f p).pid = p.pid
  | _ => True

def Runs (fuel : ℕ) : PidTable → List TableCall → Prop
  | _, [] => True
  | T, c :: cs => T.Ready c ∧ ∀ T' r, T.call fuel c = some (T', r) → Runs fuel T' cs

end PidTable

/-- The key of a process. -/
def pidKey (p : Process) : ℕ := p.pid.toNat

theorem pidCut_eq (pid : UInt32) : pidCut pid = keyCut pidKey pid.toNat := by
  funext p
  unfold pidCut keyCut pidKey
  simp only [UInt32.lt_iff_toNat_lt]

/-- The tree as a map. -/
def pidMap (t : RbRoot Process) : PidMap := fun pid => t.entry pidKey pid.toNat

section Map

variable {t t' : RbRoot Process} {pid : UInt32} {r : Option Process}

theorem pidMap_update (h : t'.entry pidKey = Function.update (t.entry pidKey) pid.toNat r) :
    pidMap t' = Function.update (pidMap t) pid r := by
  funext q
  unfold pidMap
  rw [h]
  by_cases hq : q = pid
  · subst hq
    rw [Function.update_self, Function.update_self]
  · have hne : q.toNat ≠ pid.toNat := fun heq => hq (UInt32.toNat_inj.mp heq)
    rw [Function.update_of_ne hne, Function.update_of_ne hq]

theorem pidMap_eq (t : RbRoot Process) (pid : UInt32) :
    pidMap t pid = (t.find (pidCut pid)).map Loc.val := by
  rw [pidCut_eq]
  exact rfl

end Map

section Sizes

variable {t : RbRoot Process} {pid : UInt32} {p : Process} {x : Loc Process}

theorem size_insertNew (hfind : t.find (pidCut pid) = none) :
    ((t.gap (pidCut pid)).insertNew p).size = t.size + 1 := by
  rw [← length_toList, ← length_toList, toList_insertNew, toList_of_find_none hfind]
  simp only [List.length_append, List.length_cons]
  omega

theorem size_set (hfind : t.find (pidCut pid) = some x) : (x.set p).size = t.size := by
  rw [← length_toList, ← length_toList, toList_set, toList_of_find hfind]
  simp only [List.length_append, List.length_cons]

theorem size_erase_le (hfind : t.find (pidCut pid) = some x) : x.erase.size ≤ t.size := by
  rw [← length_toList, ← length_toList, toList_erase, toList_of_find hfind]
  simp only [List.length_append, List.length_cons]
  omega

end Sizes

namespace PidTable

variable {base : Ptr → Option RbNode} {T : PidTable} {t : RbRoot Process} {c : TableCall}
  {cs : List TableCall} {fuel : ℕ}

theorem rep_empty (base : Ptr → Option RbNode) : (empty base).Rep base .nil :=
  ⟨.nil, ⟨Chunks.holds_empty base, rfl, fun _ ha => absurd ha (Multiset.notMem_zero _)⟩, rfl,
    redBlack_nil, rfl, fun _ ha => absurd ha List.not_mem_nil⟩

/-- A call to the table is a call to the map. -/
theorem call_step (h : T.Rep base t) (ht : t.Sorted pidKey) (hc : T.Ready c)
    (hfuel : 2 * Nat.log 2 (t.size + 1) < fuel) :
    ∃ T' t', T.call fuel c = some (T', ((pidMap t).call c).2) ∧ Rb.Table.Rep base t' T' ∧
      t'.Sorted pidKey ∧ pidMap t' = ((pidMap t).call c).1 ∧ t'.size ≤ t.size + 1 := by
  cases c with
  | find pid =>
    refine ⟨T, t, ?_, h, ht, rfl, Nat.le_succ _⟩
    rw [call, pidRbSearch, h.find _ hfuel, ← pidMap_eq]
    exact rfl
  | add a n p =>
    cases hfind : t.find (pidCut p.pid) with
    | none =>
      obtain ⟨T', hT', h'⟩ := h.insert hfuel hfind hc.1 hc.2 n p
      have hM : pidMap t p.pid = none := by rw [pidMap_eq, hfind]; exact rfl
      obtain ⟨hsorted, hentry⟩ := sorted_insertNew ht (pidCut_eq p.pid ▸ hfind)
        (show pidKey p = p.pid.toNat from rfl)
      rw [pidCut_eq] at h'
      refine ⟨T', _, ?_, h', hsorted, ?_, ?_⟩
      · rw [call, processRbInsert, hT', PidMap.call, hM]
        exact rfl
      · rw [pidMap_update hentry, PidMap.call, hM]
        exact rfl
      · exact (size_insertNew hfind).le
    | some x =>
      have hM : pidMap t p.pid = some x.val := by rw [pidMap_eq, hfind]; exact rfl
      refine ⟨T, t, ?_, h, ht, ?_, Nat.le_succ _⟩
      · rw [call, processRbInsert, h.insert_taken hfuel hfind, PidMap.call, hM]
        exact rfl
      · rw [PidMap.call, hM]
        exact rfl
  | update pid f =>
    cases hfind : t.find (pidCut pid) with
    | none =>
      have hM : pidMap t pid = none := by rw [pidMap_eq, hfind]; exact rfl
      refine ⟨T, t, ?_, h, ht, ?_, Nat.le_succ _⟩
      · rw [call, h.write_none hfuel hfind]
        exact rfl
      · rw [PidMap.call, hM, Option.map_none, ← hM]
        exact (Function.update_eq_self _ _).symm
    | some x =>
      obtain ⟨T', hT', h'⟩ := h.write hfuel hfind f
      have hM : pidMap t pid = some x.val := by rw [pidMap_eq, hfind]; exact rfl
      have hkey : pidKey (f x.val) = pid.toNat := by
        rw [pidKey, hc]
        exact (find_key (pidCut_eq pid ▸ hfind)).2
      obtain ⟨hsorted, hentry⟩ := sorted_set ht (pidCut_eq pid ▸ hfind) hkey
      refine ⟨T', _, ?_, h', hsorted, ?_, (size_set hfind).le.trans (Nat.le_succ _)⟩
      · rw [call, hT']
        exact rfl
      · rw [pidMap_update hentry, PidMap.call, hM]
        exact rfl
  | remove pid =>
    cases hfind : t.find (pidCut pid) with
    | none =>
      have hM : pidMap t pid = none := by rw [pidMap_eq, hfind]; exact rfl
      refine ⟨T, t, ?_, h, ht, ?_, Nat.le_succ _⟩
      · rw [call, pidRbDelete, h.delete_none hfuel hfind, PidMap.call, hM]
        exact rfl
      · rw [PidMap.call, ← hM]
        exact (Function.update_eq_self _ _).symm
    | some x =>
      obtain ⟨T', hT', h'⟩ := h.delete hfuel hfind
      have hM : pidMap t pid = some x.val := by rw [pidMap_eq, hfind]; exact rfl
      obtain ⟨hsorted, hentry⟩ := sorted_erase ht (pidCut_eq pid ▸ hfind)
      refine ⟨T', _, ?_, h', hsorted, ?_, (size_erase_le hfind).trans (Nat.le_succ _)⟩
      · rw [call, pidRbDelete, hT', PidMap.call, hM]
        exact rfl
      · rw [pidMap_update hentry, PidMap.call]

theorem run_steps (h : T.Rep base t) (ht : t.Sorted pidKey) (hcs : T.Runs fuel cs)
    (hfuel : 2 * Nat.log 2 (t.size + cs.length + 1) < fuel) :
    ∃ T' t', T.run fuel cs = some (T', ((pidMap t).run cs).2) ∧ Rb.Table.Rep base t' T' ∧
      t'.Sorted pidKey ∧ pidMap t' = ((pidMap t).run cs).1 ∧ t'.size ≤ t.size + cs.length := by
  induction cs generalizing T t with
  | nil => exact ⟨T, t, rfl, h, ht, rfl, le_rfl⟩
  | cons c cs ih =>
    rw [List.length_cons] at hfuel
    have hmono : Nat.log 2 (t.size + 1) ≤ Nat.log 2 (t.size + (cs.length + 1) + 1) :=
      Nat.log_mono_right (by omega)
    have hnow : 2 * Nat.log 2 (t.size + 1) < fuel := by omega
    obtain ⟨T1, t1, hT1, h1, ht1, hM1, hsize⟩ := call_step h ht hcs.1 hnow
    have hmono1 : Nat.log 2 (t1.size + cs.length + 1) ≤
        Nat.log 2 (t.size + (cs.length + 1) + 1) := Nat.log_mono_right (by omega)
    obtain ⟨T2, t2, hT2, h2, ht2, hM2, hsize2⟩ := ih h1 ht1 (hcs.2 _ _ hT1) (by omega)
    rw [hM1] at hT2 hM2
    refine ⟨T2, t2, ?_, h2, ht2, hM2, by rw [List.length_cons]; omega⟩
    rw [run, hT1, Option.bind_eq_bind, Option.bind_some]
    exact congrArg (Option.bind · _) hT2

/-- A run over the memory answers like a run over the map, and leaves the map in the tree and the
rest of the memory as it was. -/
theorem run_eq_map (hcs : (empty base).Runs fuel cs)
    (hfuel : 2 * Nat.log 2 (cs.length + 1) < fuel) :
    ∃ T', (empty base).run fuel cs = some (T', (PidMap.run (fun _ => none) cs).2) ∧
      (∀ pid, T'.pidRbSearch fuel pid = some ((PidMap.run (fun _ => none) cs).1 pid)) ∧
      ∀ a, T'.data a = none → T'.mem.node a = base a := by
  have hmap : pidMap .nil = fun _ => none := rfl
  obtain ⟨T', t', hT', h', -, hM, hsize⟩ := run_steps (rep_empty base) sorted_nil hcs (by
    rwa [RbRoot.size, Nat.zero_add])
  rw [RbRoot.size, Nat.zero_add] at hsize
  rw [hmap] at hT' hM
  have hlog : Nat.log 2 (t'.size + 1) ≤ Nat.log 2 (cs.length + 1) :=
    Nat.log_mono_right (Nat.succ_le_succ hsize)
  refine ⟨T', hT', fun pid => ?_, fun a ha => h'.frame ha⟩
  rw [pidRbSearch, h'.find _ (by omega), ← pidMap_eq, hM]

theorem run_two_processes :
    let cs : List TableCall := [.add 8 ⟨1, 2, 3⟩ (processNew 7 false true),
      .add 16 ⟨4, 5, 6⟩ (processNew 3 false true), .remove 7, .find 3]
    (empty fun _ => none).Runs 6 cs ∧ ∃ T', (empty fun _ => none).run 6 cs =
      some (T', [.added true, .added true, .process (some (processNew 7 false true)),
        .process (some (processNew 3 false true))]) := by
  have hruns : (empty fun _ => none).Runs 6 [.add 8 ⟨1, 2, 3⟩ (processNew 7 false true),
      .add 16 ⟨4, 5, 6⟩ (processNew 3 false true), .remove 7, .find 3] := by
    refine ⟨⟨by decide, rfl⟩, fun T' r h => ⟨⟨by decide, ?_⟩, fun _ _ _ => ⟨trivial, fun _ _ _ =>
      ⟨trivial, fun _ _ _ => trivial⟩⟩⟩⟩
    obtain rfl := congrArg Prod.fst (Option.some.inj h)
    exact rfl
  obtain ⟨T', hT', -⟩ := run_eq_map hruns (by decide)
  exact ⟨hruns, T', hT'⟩

end PidTable

end Mtrace.Client
