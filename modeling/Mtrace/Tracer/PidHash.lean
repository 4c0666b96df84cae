import Mtrace.Tracer.Counters

/-!
# The table of the tasks

`pid_hash` of `task.c`: `insert_pid`, `delete_pid`, `pid2task` and `each_pid` on arrays that come
from `malloc` and `realloc`.  The model of the server has a list of its tasks in the place of the
table.  In every state of the server the table that was filled and emptied on the way answers as
this list does, no element is read that was not written, and none is written outside of its array.
-/

namespace Mtrace.Tracer

/-- `struct pid_hash`; an element of `tasks` that was never written has no value. -/
structure PidHash where
  num : UInt32
  size : UInt32
  tasks : List (Option TaskId)
  deriving DecidableEq, Repr

/-- `pid_hash[]`. -/
abbrev PidTable := ℕ → Option PidHash

/-- `PID_HASH`. -/
def pidHashOf (pid : UInt32) : ℕ := pid.toNat % State.pidHashSize

namespace PidHash

/-- The first `malloc` of an entry. -/
def fresh : PidHash := ⟨0, 8, List.replicate 8 none⟩

/-- `realloc`. -/
def grow (e : PidHash) : PidHash :=
  let size := e.size + 8
  ⟨e.num, size,
    e.tasks.take size.toNat ++ List.replicate (size.toNat - e.tasks.length) none⟩

/-- `entry->tasks[i]`. -/
def read (e : PidHash) (i : ℕ) : Except String TaskId :=
  match e.tasks[i]? with
  | some (some t) => .ok t
  | some none => .error "not written"
  | none => .error "outside of the array"

/-- `entry->tasks[entry->num++] = task`. -/
def push (e : PidHash) (t : TaskId) : Except String PidHash :=
  if e.num.toNat < e.tasks.length then
    .ok { e with num := e.num + 1, tasks := e.tasks.set e.num.toNat (some t) }
  else .error "outside of the array"

/-- The loops over an entry: the first task with this pid, and where it is. -/
def search (pidOf : TaskId → UInt32) (pid : UInt32) (e : PidHash) :
    ℕ → ℕ → Except String (Option (ℕ × TaskId))
  | _, 0 => .ok none
  | i, n + 1 => do
    let t ← e.read i
    if pidOf t = pid then return some (i, t)
    e.search pidOf pid (i + 1) n

/-- `entry->num--` and the `memmove` of what comes after the element. -/
def remove (e : PidHash) (i : ℕ) : Except String PidHash :=
  let num := e.num - 1
  let n := (num - .ofNat i).toNat
  if i + 1 + n ≤ e.tasks.length then
    .ok { e with
      num
      tasks := e.tasks.take i ++ (e.tasks.drop (i + 1)).take n ++ e.tasks.drop (i + n) }
  else .error "outside of the array"

/-- An element that was copied. -/
def written : Option TaskId → Except String TaskId
  | some t => .ok t
  | none => .error "not written"

/-- The copy that `each_pid` makes of an entry. -/
def copy (e : PidHash) : Except String (List TaskId) :=
  if e.num.toNat ≤ e.tasks.length then (e.tasks.take e.num.toNat).mapM written
  else .error "outside of the array"

end PidHash

namespace PidTable

def empty : PidTable := fun _ => none

/-- The entry that `insert_pid` writes to. -/
def room : Option PidHash → PidHash
  | none => .fresh
  | some e => if e.size = e.num then e.grow else e

/-- `insert_pid`. -/
def insertPid (pidOf : TaskId → UInt32) (T : PidTable) (t : TaskId) : Except String PidTable := do
  let e ← (room (T (pidHashOf (pidOf t)))).push t
  return Function.update T (pidHashOf (pidOf t)) (some e)

/-- `delete_pid`. -/
def deletePid (pidOf : TaskId → UInt32) (T : PidTable) (t : TaskId) : Except String PidTable :=
  match T (pidHashOf (pidOf t)) with
  | none => .error "null pointer"
  | some e => do
    match ← e.search pidOf (pidOf t) 0 e.num.toNat with
    | none => return T
    | some (i, _) =>
      let e ← e.remove i
      return Function.update T (pidHashOf (pidOf t)) (some e)

/-- `pid2task`. -/
def pid2task (pidOf : TaskId → UInt32) (T : PidTable) (pid : UInt32) :
    Except String (Option TaskId) :=
  match T (pidHashOf pid) with
  | none => .ok none
  | some e => return (← e.search pidOf pid 0 e.num.toNat).map Prod.snd

/-- The tasks that `each_pid` calls its function for, if this leaves the table as it is. -/
def eachPid (T : PidTable) : Except String (List TaskId) := do
  let copies ← (List.range State.pidHashSize).mapM fun i =>
    match T i with
    | none => .ok []
    | some e => e.copy
  return copies.flatten

end PidTable

/-! ## An entry -/

namespace PidHash

/-- An entry holds these tasks. -/
structure Has (e : PidHash) (l : List TaskId) : Prop where
  num : e.num.toNat = l.length
  size : e.size.toNat = e.tasks.length
  tasks : l.map some <+: e.tasks

section Has

variable {e : PidHash} {l ys zs : List TaskId} {t : TaskId}

theorem Has.le (h : e.Has l) : l.length ≤ e.tasks.length := by
  have hle := h.tasks.length_le
  rwa [List.length_map] at hle

theorem Has.read (h : e.Has (ys ++ t :: zs)) : e.read ys.length = .ok t := by
  obtain ⟨rest, hrest⟩ := h.tasks
  have helem : e.tasks[ys.length]? = some (some t) := by
    rw [← hrest, List.map_append, List.map_cons, List.append_assoc,
      List.getElem?_append_right (by rw [List.length_map]), List.length_map, Nat.sub_self]
    rfl
  unfold PidHash.read
  rw [helem]

theorem Has.search (h : e.Has (ys ++ zs)) (pidOf : TaskId → UInt32) (pid : UInt32) :
    e.search pidOf pid ys.length zs.length =
      .ok ((zs.find? fun t => pidOf t = pid).map fun t => (ys.length + zs.idxOf t, t)) := by
  induction zs generalizing ys with
  | nil => rfl
  | cons z zs ih =>
    rw [List.length_cons, PidHash.search, h.read]
    dsimp only [bind, Except.bind]
    by_cases hz : pidOf z = pid
    · rw [if_pos hz, List.find?_cons_of_pos (by simpa using hz), Option.map_some,
        List.idxOf_cons_self]
      rfl
    · have h' : e.Has ((ys ++ [z]) ++ zs) := by rwa [List.append_assoc]
      have ih' := ih h'
      rw [List.length_append, List.length_singleton] at ih'
      rw [if_neg hz, List.find?_cons_of_neg (by simpa using hz), ih']
      congr 1
      cases hfind : zs.find? fun t => pidOf t = pid with
      | none => rfl
      | some t =>
        have ht : pidOf t = pid := by simpa using List.find?_some hfind
        have hne : z ≠ t := fun heq => hz (heq ▸ ht)
        rw [Option.map_some, Option.map_some, List.idxOf_cons_ne _ hne, Nat.succ_eq_add_one]
        congr 2
        omega

theorem has_fresh : fresh.Has [] :=
  ⟨rfl, rfl, List.nil_prefix⟩

theorem Has.grow (h : e.Has l) (hsize : e.size.toNat + 8 < 2 ^ 32) :
    e.grow.Has l ∧ l.length < e.grow.tasks.length := by
  have hadd : (e.size + 8).toNat = e.tasks.length + 8 := by
    rw [UInt32.toNat_add, ← h.size]
    exact Nat.mod_eq_of_lt hsize
  have htasks : e.grow.tasks = e.tasks ++ List.replicate 8 none := by
    unfold PidHash.grow
    dsimp only
    rw [hadd, List.take_of_length_le (by omega), Nat.add_sub_cancel_left]
  refine ⟨⟨h.num, ?_, ?_⟩, ?_⟩
  · rw [htasks, List.length_append, List.length_replicate]
    exact hadd
  · rw [htasks]
    exact h.tasks.trans (List.prefix_append _ _)
  · rw [htasks, List.length_append, List.length_replicate]
    have hle := h.le
    omega

theorem Has.push (h : e.Has l) (hroom : l.length < e.tasks.length) (hlt : l.length + 1 < 2 ^ 32)
    (t : TaskId) : ∃ e', e.push t = .ok e' ∧ e'.Has (l ++ [t]) := by
  obtain ⟨rest, hrest⟩ := h.tasks
  refine ⟨_, if_pos (h.num ▸ hroom), ?_, ?_, ?_⟩
  · dsimp only
    rw [UInt32.toNat_add, h.num, List.length_append, List.length_singleton]
    exact Nat.mod_eq_of_lt hlt
  · dsimp only
    rw [List.length_set]
    exact h.size
  · dsimp only
    cases rest with
    | nil =>
      rw [List.append_nil] at hrest
      rw [← hrest, List.length_map] at hroom
      exact absurd hroom (Nat.lt_irrefl _)
    | cons x rest =>
      refine ⟨rest, ?_⟩
      rw [h.num, ← hrest, List.set_append_right _ _ (by rw [List.length_map]), List.length_map,
        Nat.sub_self, List.set_cons_zero, List.map_append, List.append_assoc]
      rfl

theorem Has.remove (h : e.Has (ys ++ t :: zs)) :
    ∃ e', e.remove ys.length = .ok e' ∧ e'.Has (ys ++ zs) := by
  obtain ⟨rest, hrest⟩ := h.tasks
  have hlen : (ys ++ t :: zs).length = ys.length + zs.length + 1 := by
    rw [List.length_append, List.length_cons, Nat.add_assoc]
  have hlt := e.num.toNat_lt
  rw [h.num, hlen] at hlt
  have hnum : (e.num - 1).toNat = ys.length + zs.length := by
    rw [UInt32.toNat_sub_of_le _ _ (UInt32.le_iff_toNat_le.mpr (by
      rw [h.num, hlen]
      exact Nat.le_add_left 1 _)), h.num, hlen]
    rfl
  have hi : (UInt32.ofNat ys.length).toNat = ys.length := by
    rw [UInt32.toNat_ofNat']
    exact Nat.mod_eq_of_lt (by omega)
  have hn : (e.num - 1 - UInt32.ofNat ys.length).toNat = zs.length := by
    rw [UInt32.toNat_sub_of_le _ _ (UInt32.le_iff_toNat_le.mpr (by omega)), hnum, hi]
    omega
  have htasks : e.tasks = ys.map some ++ (some t :: (zs.map some ++ rest)) := by
    rw [← hrest, List.map_append, List.map_cons, List.append_assoc]
    rfl
  have hfit : ys.length + 1 + zs.length ≤ e.tasks.length := by
    have hle := h.le
    omega
  unfold PidHash.remove
  dsimp only
  rw [hn, if_pos hfit]
  refine ⟨_, rfl, ?_, ?_, ?_⟩
  · dsimp only
    rw [hnum, List.length_append]
  · dsimp only
    rw [h.size]
    simp only [List.length_append, List.length_take, List.length_drop]
    omega
  · have hfront : e.tasks.take ys.length = ys.map some := by
      rw [htasks]
      exact List.take_left' (List.length_map _)
    have hback : (e.tasks.drop (ys.length + 1)).take zs.length = zs.map some := by
      have hsplit : e.tasks = (ys.map some ++ [some t]) ++ (zs.map some ++ rest) := by
        rw [htasks, List.append_assoc]
        rfl
      rw [hsplit, List.drop_left' (by simp), List.take_left' (List.length_map _)]
    dsimp only
    rw [hfront, hback, ← List.map_append]
    exact List.prefix_append _ _

end Has

theorem mapM_written (l : List TaskId) : (l.map some).mapM written = .ok l := by
  induction l with
  | nil => rfl
  | cons t l ih =>
    rw [List.map_cons, List.mapM_cons, ih]
    rfl

theorem Has.copy {e : PidHash} {l : List TaskId} (h : e.Has l) : e.copy = .ok l := by
  unfold PidHash.copy
  rw [if_pos (h.num ▸ h.le), h.num, ← List.length_map (f := some),
    ← List.prefix_iff_eq_take.mp h.tasks]
  exact mapM_written l

end PidHash

/-! ## The table -/

namespace State

/-- `task->pid`. -/
def pidOf (s : State) (t : TaskId) : UInt32 := (s.task t).pid

/-- The tasks of an entry of the table. -/
def bucket (s : State) (i : ℕ) : List TaskId := s.live.filter fun t => pidHashOf (s.pidOf t) = i

end State

/-- An entry of the table holds these tasks. -/
def Holds : Option PidHash → List TaskId → Prop
  | none, l => l = []
  | some e, l => e.Has l

namespace PidTable

/-- The table has the tasks that there are. -/
def Has (T : PidTable) (s : State) : Prop := ∀ i, Holds (T i) (s.bucket i)

section Has

variable {T T' : PidTable} {s s' : State} {t : TaskId}

/-- The pids of an entry agree in their last byte, so that there are not too many of them. -/
theorem bucket_length_le (hs : Sane s) (h : Distinct s) (i : ℕ) : (s.bucket i).length ≤ 2 ^ 24 := by
  have hmod : ∀ t ∈ s.bucket i, t ∈ s.live ∧ (s.pidOf t).toNat % 256 = i := fun t ht =>
    ⟨(List.mem_filter.mp ht).1, of_decide_eq_true (List.mem_filter.mp ht).2⟩
  have hnodup : ((s.bucket i).map fun t => (s.pidOf t).toNat / 256).Nodup := by
    refine (hs.once.filter _).map_on fun t ht p hp heq => ?_
    obtain ⟨hlive, hmt⟩ := hmod t ht
    obtain ⟨hlive', hmp⟩ := hmod p hp
    refine h.inj t hlive p hlive' (UInt32.toNat_inj.mp ?_)
    unfold State.pidOf at heq hmt hmp
    omega
  have hsub : ((s.bucket i).map fun t => (s.pidOf t).toNat / 256) ⊆ List.range (2 ^ 24) := by
    intro n hn
    obtain ⟨t, -, rfl⟩ := List.mem_map.mp hn
    have hlt := (s.pidOf t).toNat_lt
    rw [List.mem_range]
    omega
  have hle := (hnodup.subperm hsub).length_le
  rwa [List.length_map, List.length_range] at hle

theorem has_start (inputs : List Input) : empty.Has (.start inputs) := fun _ => rfl

theorem Has.same (h : T.Has s) (hlive : s'.live = s.live)
    (hpid : ∀ t ∈ s.live, (s'.task t).pid = (s.task t).pid) : T.Has s' := by
  intro i
  have hbucket : s'.bucket i = s.bucket i := by
    unfold State.bucket State.pidOf
    rw [hlive]
    refine List.filter_congr fun t ht => ?_
    rw [hpid t ht]
  rw [hbucket]
  exact h i

/-- There is room in an entry after `insert_pid` looked at it. -/
theorem holds_room {e : Option PidHash} {l : List TaskId} (h : Holds e l) (hl : l.length ≤ 2 ^ 24) :
    (room e).Has l ∧ l.length < (room e).tasks.length := by
  cases e with
  | none =>
    cases h
    exact ⟨PidHash.has_fresh, Nat.succ_pos 7⟩
  | some e =>
    have he : e.Has l := h
    unfold room
    by_cases hfull : e.size = e.num
    · dsimp only
      rw [if_pos hfull]
      refine he.grow ?_
      rw [hfull, he.num]
      omega
    · dsimp only
      rw [if_neg hfull]
      refine ⟨he, lt_of_le_of_ne he.le fun heq => hfull (UInt32.toNat_inj.mp ?_)⟩
      rw [he.size, he.num, heq]

/-- `insert_pid` of a task that comes to the tasks. -/
theorem Has.insertPid (h : T.Has s) (hlive : s'.live = s.live ++ [t])
    (hpid : ∀ p ∈ s.live, (s'.task p).pid = (s.task p).pid)
    (hl : ∀ i, (s.bucket i).length ≤ 2 ^ 24) :
    ∃ T', T.insertPid s'.pidOf t = .ok T' ∧ T'.Has s' := by
  have hbucket : ∀ i, s'.bucket i =
      s.bucket i ++ if pidHashOf (s'.pidOf t) = i then [t] else [] := by
    intro i
    have hold : (s.live.filter fun p => pidHashOf (s'.pidOf p) = i) = s.bucket i := by
      unfold State.bucket State.pidOf
      refine List.filter_congr fun p hp => ?_
      rw [hpid p hp]
    unfold State.bucket at hold ⊢
    rw [hlive, List.filter_append, hold]
    by_cases hi : pidHashOf (s'.pidOf t) = i
    · simp [hi]
    · simp [hi]
  obtain ⟨hroom, hlt⟩ := holds_room (h (pidHashOf (s'.pidOf t))) (hl _)
  have hshort := hl (pidHashOf (s'.pidOf t))
  obtain ⟨e', hpush, he'⟩ := hroom.push hlt (by omega) t
  refine ⟨Function.update T (pidHashOf (s'.pidOf t)) (some e'), ?_, fun i => ?_⟩
  · unfold PidTable.insertPid
    rw [hpush]
    rfl
  · rw [hbucket]
    by_cases hi : pidHashOf (s'.pidOf t) = i
    · subst hi
      rw [Function.update_self, if_pos rfl]
      exact he'
    · rw [Function.update_of_ne (Ne.symm hi), if_neg hi, List.append_nil]
      exact h i

/-- What a search in an entry finds. -/
theorem find_bucket (s : State) (pid : UInt32) :
    ((s.bucket (pidHashOf pid)).find? fun t => s.pidOf t = pid) = s.pid2task pid := by
  unfold State.bucket State.pid2task
  rw [List.find?_filter]
  congr 1
  funext t
  unfold State.pidOf
  by_cases ht : (s.task t).pid = pid
  · simp [ht]
  · simp [ht]

theorem Has.pid2task (h : T.Has s) (pid : UInt32) :
    T.pid2task s.pidOf pid = .ok (s.pid2task pid) := by
  have hentry := h (pidHashOf pid)
  unfold PidTable.pid2task
  cases he : T (pidHashOf pid) with
  | none =>
    rw [he] at hentry
    have hnil : s.bucket (pidHashOf pid) = [] := hentry
    rw [← find_bucket, hnil]
    rfl
  | some e =>
    rw [he] at hentry
    have hhas : e.Has ([] ++ s.bucket (pidHashOf pid)) := hentry
    have hsearch := hhas.search s.pidOf pid
    rw [List.length_nil] at hsearch
    dsimp only
    rw [hhas.num, List.nil_append, hsearch, ← find_bucket]
    cases (s.bucket (pidHashOf pid)).find? fun t => s.pidOf t = pid <;> rfl

/-- `delete_pid` of one of the tasks. -/
theorem Has.deletePid (h : T.Has s) (hs : Sane s) (hd : Distinct s) (ht : t ∈ s.live)
    (hlive : s'.live = s.live.erase t)
    (hpid : ∀ p ∈ s.live, (s'.task p).pid = (s.task p).pid) :
    ∃ T', T.deletePid s.pidOf t = .ok T' ∧ T'.Has s' := by
  have hbucket : ∀ i, s'.bucket i = (s.bucket i).erase t := by
    intro i
    unfold State.bucket State.pidOf
    rw [hlive, hs.once.erase_eq_filter, (hs.once.filter _).erase_eq_filter, List.filter_filter,
      List.filter_filter]
    refine List.filter_congr fun p hp => ?_
    rw [hpid p hp, Bool.and_comm]
  have hmem : t ∈ s.bucket (pidHashOf (s.pidOf t)) := List.mem_filter.mpr ⟨ht, by simp⟩
  have hfound : ((s.bucket (pidHashOf (s.pidOf t))).find? fun p => s.pidOf p = s.pidOf t) =
      some t := by
    obtain ⟨p, hp⟩ := Option.isSome_iff_exists.mp
      (List.find?_isSome.mpr ⟨t, hmem, by simp⟩ :
        ((s.bucket (pidHashOf (s.pidOf t))).find? fun p => s.pidOf p = s.pidOf t).isSome)
    have hsame : s.pidOf p = s.pidOf t := by simpa using List.find?_some hp
    rw [hp, hd.inj p (List.mem_filter.mp (List.mem_of_find?_eq_some hp)).1 t ht hsame]
  obtain ⟨ys, zs, hsplit, hnot⟩ := List.eq_append_cons_of_mem hmem
  have hentry := h (pidHashOf (s.pidOf t))
  unfold PidTable.deletePid
  cases he : T (pidHashOf (s.pidOf t)) with
  | none =>
    rw [he] at hentry
    have hnil : s.bucket (pidHashOf (s.pidOf t)) = [] := hentry
    rw [hnil] at hmem
    cases hmem
  | some e =>
    rw [he] at hentry
    have hhas : e.Has ([] ++ s.bucket (pidHashOf (s.pidOf t))) := hentry
    have hsearch := hhas.search s.pidOf (s.pidOf t)
    have hplace : (s.bucket (pidHashOf (s.pidOf t))).idxOf t = ys.length := by
      rw [hsplit, List.idxOf_append_of_notMem hnot, List.idxOf_cons_self, Nat.add_zero]
    rw [hfound, Option.map_some, hplace, List.length_nil, Nat.zero_add] at hsearch
    have hwhole : e.Has (ys ++ t :: zs) := hsplit ▸ hentry
    obtain ⟨e', hremove, he'⟩ := hwhole.remove
    refine ⟨Function.update T (pidHashOf (s.pidOf t)) (some e'), ?_, fun i => ?_⟩
    · dsimp only
      rw [hhas.num, List.nil_append, hsearch]
      dsimp only [bind, Except.bind]
      rw [hremove]
      rfl
    · rw [hbucket]
      by_cases hi : i = pidHashOf (s.pidOf t)
      · subst hi
        rw [Function.update_self, hsplit, List.erase_append_right _ hnot, List.erase_cons_head]
        exact he'
      · have hout : t ∉ s.bucket i := fun hin =>
          hi (Eq.symm (of_decide_eq_true (List.mem_filter.mp hin).2))
        rw [Function.update_of_ne hi, List.erase_of_not_mem hout]
        exact h i

theorem Has.eachPid (h : T.Has s) : T.eachPid = .ok s.pids := by
  unfold PidTable.eachPid
  rw [Machine.mapM_eq_ok (g := s.bucket) _ fun i _ => ?_]
  · rfl
  · have hentry := h i
    cases he : T i with
    | none =>
      rw [he] at hentry
      exact congrArg Except.ok (Eq.symm hentry)
    | some e =>
      rw [he] at hentry
      exact PidHash.Has.copy hentry

end Has

/-! ## In the server -/

/-- The table beside the server: `task_new` inserts the task, `task_destroy` and `delete_task` take
it out. -/
inductive Beside (inputs : List Input) : State → PidTable → Prop
  | start : Beside inputs (.start inputs) empty
  | created {s : State} {T T' : PidTable} (pid : UInt32) (leader : TaskId)
      (h : Beside inputs s T) (hc : Change s (s.created pid leader))
      (hT : T.insertPid (s.created pid leader).pidOf s.next = .ok T') :
      Beside inputs (s.created pid leader) T'
  | retired {s : State} {T T' : PidTable} (t : TaskId) (h : Beside inputs s T)
      (hc : Change s (s.retired t)) (hlive : t ∈ s.live) (hT : T.deletePid s.pidOf t = .ok T') :
      Beside inputs (s.retired t) T'
  | abandoned {s : State} {T T' : PidTable} (t : TaskId) (h : Beside inputs s T)
      (hc : Change s (s.abandoned t)) (hlive : t ∈ s.live) (hT : T.deletePid s.pidOf t = .ok T') :
      Beside inputs (s.abandoned t) T'
  | other {s s' : State} {T : PidTable} (h : Beside inputs s T) (hc : Change s s')
      (hlive : s'.live = s.live) : Beside inputs s' T

section Beside

variable {inputs : List Input} {s s' : State} {T : PidTable}

theorem Has.created (h : T.Has s) (hs : Sane s) (hd : Distinct s) {pid : UInt32}
    {leader : TaskId} (hc : Change s (s.created pid leader)) :
    ∃ T', T.insertPid (s.created pid leader).pidOf s.next = .ok T' ∧
      T'.Has (s.created pid leader) :=
  h.insertPid rfl (fun p hp => pid_of_change hc (hs.live p hp)) (bucket_length_le hs hd)

theorem Has.gone (h : T.Has s) (hs : Sane s) (hd : Distinct s) {t : TaskId} (hc : Change s s')
    (hlive : s'.live = s.live.erase t) (ht : t ∈ s.live) :
    ∃ T', T.deletePid s.pidOf t = .ok T' ∧ T'.Has s' :=
  h.deletePid hs hd ht hlive fun p hp => pid_of_change hc (hs.live p hp)

theorem start_distinct (inputs : List Input) : Distinct (.start inputs) :=
  ⟨fun _ ht => absurd ht List.not_mem_nil, fun _ ht => absurd ht List.not_mem_nil⟩

theorem Beside.has (h : Beside inputs s T) : Sane s ∧ Distinct s ∧ T.Has s := by
  induction h with
  | start => exact ⟨start_sane inputs, start_distinct inputs, has_start inputs⟩
  | created pid leader _ hc hT ih =>
    obtain ⟨hs, hd, hT'⟩ := ih
    obtain ⟨T', hins, hhas⟩ := hT'.created hs hd hc
    rw [hins] at hT
    cases hT
    exact ⟨hs.change hc, hd.change hs hc, hhas⟩
  | retired t _ hc hlive hT ih | abandoned t _ hc hlive hT ih =>
    obtain ⟨hs, hd, hT'⟩ := ih
    obtain ⟨T', hdel, hhas⟩ := hT'.gone hs hd hc rfl hlive
    rw [hdel] at hT
    cases hT
    exact ⟨hs.change hc, hd.change hs hc, hhas⟩
  | other _ hc hlive ih =>
    obtain ⟨hs, hd, hT'⟩ := ih
    exact ⟨hs.change hc, hd.change hs hc,
      hT'.same hlive fun t ht => pid_of_change hc (hs.live t ht)⟩

/-- No call of `insert_pid` or `delete_pid` fails. -/
theorem Beside.change (h : Beside inputs s T) (hc : Change s s') : ∃ T', Beside inputs s' T' := by
  obtain ⟨hs, hd, hT⟩ := h.has
  have hstep := hc
  cases hc with
  | created pid leader =>
    obtain ⟨T', hins, -⟩ := hT.created hs hd hstep
    exact ⟨T', h.created pid leader hstep hins⟩
  | retired t hlive =>
    obtain ⟨T', hdel, -⟩ := hT.gone hs hd hstep rfl hlive
    exact ⟨T', h.retired t hstep hlive hdel⟩
  | abandoned t hlive =>
    obtain ⟨T', hdel, -⟩ := hT.gone hs hd hstep rfl hlive
    exact ⟨T', h.abandoned t hstep hlive hdel⟩
  | alike ha => exact ⟨T, h.other hstep ha.live⟩
  | _ => exact ⟨T, h.other hstep rfl⟩

theorem beside_of_changes (h : Changes (.start inputs) s) : ∃ T, Beside inputs s T :=
  Hoare.keeps_of_change (I := fun s => ∃ T, Beside inputs s T)
    (fun _ _ hc hI => hI.elim fun _ hT => hT.change hc) h ⟨empty, .start⟩

end Beside

end PidTable

/-- In every state of the server the table in memory is the list of the tasks: filling and emptying
it has not failed on the way, `pid2task` and `each_pid` do not fail, and they answer as the list
does. -/
theorem pid_hash_eq_live {inputs : List Input} {r : Option Halt} {s : State}
    (h : Met inputs r s) :
    (∃ T, PidTable.Beside inputs s T) ∧ ∀ T, PidTable.Beside inputs s T →
      (∀ pid, T.pid2task s.pidOf pid = .ok (s.pid2task pid)) ∧ T.eachPid = .ok s.pids := by
  refine ⟨PidTable.beside_of_changes h.changes, fun T hT => ?_⟩
  obtain ⟨-, -, hhas⟩ := hT.has
  exact ⟨hhas.pid2task, hhas.eachPid⟩

/-- A process with two threads, and one that cannot be attached, whose pids are in one entry of the
table. -/
def sharing : List (World × Step) :=
  [(.plain, .attach 100 [356] (some .bare)), (.plain, .attach 612 [] none), (.plain, .event {}),
    (.plain, .event {})]

def sharingInputs : List Input := [.wait (.first 100), .wait (.first 356), .lost]

theorem pid_hash_eq_live_sharing : ∃ s T, Met sharingInputs none s ∧
    PidTable.Beside sharingInputs s T ∧ s.next = 3 ∧ T.pid2task s.pidOf 356 = .ok (some 1) ∧
    T.pid2task s.pidOf 612 = .ok none ∧ T.eachPid = .ok [0, 1] := by
  obtain ⟨s, hr, hs⟩ : ∃ s, Reached sharingInputs s ∧
      (s.next, s.pid2task 356, s.pid2task 612, s.pids) = (3, some 1, none, [0, 1]) :=
    Machine.reach_of_observed step _ sharing
      (fun s => (s.next, s.pid2task 356, s.pid2task 612, s.pids)) (by decide +kernel)
  simp only [Prod.mk.injEq] at hs
  obtain ⟨hnext, hfind, hgone, hpids⟩ := hs
  obtain ⟨⟨T, hT⟩, hall⟩ := pid_hash_eq_live (.reached hr)
  obtain ⟨hpid2task, heach⟩ := hall T hT
  exact ⟨s, T, .reached hr, hT, hnext, hfind ▸ hpid2task 356, hgone ▸ hpid2task 612,
    hpids ▸ heach⟩

end Mtrace.Tracer
