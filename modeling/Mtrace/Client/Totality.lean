import Mtrace.Client.Steps

/-!
# Messages that end the client

Every message meets a handler, and the handlers fail only where the code says so, with two
exceptions: `process_duplicate` reads the parent of a fork before it asks whether there is one, and
`resolv_address` takes the name of a map that may be missing.  The theorem `nullDeref_iff` says of
any run of the client when it ends in one of them.
-/

namespace Mtrace.Client

open RbTree Machine

variable {o : Options} {env : Env} {c : State} {p : Process} {f : Fault}

/-! ## One message -/

/-- The message says that a process the client does not know has forked into the record. -/
def State.Orphans (c : State) (p : Process) (m : MtMsg) : Prop :=
  ∃ pid, m = .fork pid ∧ c.findProcess pid = none ∧ ¬ ∃ d ∈ c.dumps, d.pid = p.pid

theorem dispatch_of_failsIn {m : MtMsg} (h : Accounted c) (hp : p ∈ c.processes)
    (hf : p.FailsIn o env f m) : c.dispatch o env p m = .error f := by
  obtain ⟨addrs, op, hadds, hfault⟩ := id hf
  have hst := ofStackAdd_of_stackFault hfault
  cases m with
  | alloc op' hop m =>
    exact bind_eq_error.mpr (.inl (((h.owned p hp).processAlloc_eq_error_iff hop hst).mpr hf))
  | free op' hop m =>
    exact bind_eq_error.mpr (.inl (((h.owned p hp).processFree_eq_error_iff hop hst).mpr hf))
  | _ => cases hadds

theorem dispatch_of_orphans {m : MtMsg} (h : Accounted c) (hp : p ∈ c.processes)
    (ho : c.Orphans p m) : c.dispatch o env p m = .error .nullDeref := by
  obtain ⟨pid, rfl, hnone, hno⟩ := ho
  rcases h.processReset_ends hp with ⟨hd, -⟩ | ⟨-, k', hok, -⟩
  · exact absurd hd hno
  · refine bind_eq_error.mpr (.inl ?_)
    rw [hnone, processDuplicate, hok]
    rfl

/-- When a handler fails in `stack_add` or over a missing parent. -/
theorem dispatch_eq_error_iff {m : MtMsg} (h : Accounted c) (hp : p ∈ c.processes)
    (hf : f.ofStackAdd) : c.dispatch o env p m = .error f ↔
      p.FailsIn o env f m ∨ f = .nullDeref ∧ c.Orphans p m := by
  constructor
  · intro herr
    rcases (dispatch_ends h hp 0 false m).error herr with
      ⟨(hk | hin | ⟨rfl, pid, rfl, hnone⟩ | ⟨rfl, -⟩) | ⟨rfl, -⟩, hno⟩ | ⟨rfl, -⟩
    · exact absurd hk hf.not_killed
    · exact .inl hin
    · exact .inr ⟨rfl, pid, rfl, hnone, fun hd => hno ⟨rfl, hd⟩⟩
    · rcases hf with hf | hf <;> cases hf
    · rcases hf with hf | hf
      · cases hf
      · exact absurd hf (by decide)
    · rcases hf with hf | hf <;> cases hf
  · rintro (hin | ⟨rfl, ho⟩)
    · exact dispatch_of_failsIn h hp hin
    · exact dispatch_of_orphans h hp ho

/-! ## One step -/

theorem step_of_target {pid : UInt16} {sw : Bool} {m : MtMsg} (hz : pid ≠ 0)
    (ht : c.target (.msg pid sw m) = some p) :
    c.step o env (.msg pid sw m) = (c.entered (.msg pid sw m)).dispatch o env p m := by
  simp only [State.target] at ht
  show c.clientFunc o env pid sw m = _
  unfold State.clientFunc
  rw [if_neg hz]
  split at ht
  · cases ht
  next hcond =>
    cases ht
    dsimp only
    rw [if_neg hcond]
    rfl

theorem step_of_no_target {pid : UInt16} {sw : Bool} {m : MtMsg} (hz : pid ≠ 0)
    (ht : c.target (.msg pid sw m) = none) :
    c.step o env (.msg pid sw m) = .ok (c.entered (.msg pid sw m)) := by
  simp only [State.target] at ht
  show c.clientFunc o env pid sw m = _
  unfold State.clientFunc
  rw [if_neg hz]
  split at ht
  next hcond =>
    dsimp only
    rw [if_pos hcond]
    rfl
  · cases ht

/-- When a step fails in `stack_add` or over a missing parent. -/
def State.Fails (o : Options) (env : Env) (c : State) (f : Fault) : Event → Prop
  | .msg pid sw m => pid ≠ 0 ∧ ∃ p, c.target (.msg pid sw m) = some p ∧
      (p.FailsIn o env f m ∨ f = .nullDeref ∧ (c.entered (.msg pid sw m)).Orphans p m)
  | _ => False

theorem step_eq_error_iff {e : Event} (h : Accounted c) (hf : f.ofStackAdd) :
    c.step o env e = .error f ↔ c.Fails o env f e := by
  have hfatal := hf.ne_fatal
  cases e with
  | msg pid sw m =>
    by_cases hz : pid = 0
    · have hstep : c.step o env (.msg pid sw m) = .error (.fatal "protocol violation") := if_pos hz
      rw [hstep]
      exact iff_of_false (fun he => hfatal _ (Except.error.inj he).symm) fun hfail => hfail.1 hz
    rcases ht : c.target (.msg pid sw m) with _ | p
    · rw [step_of_no_target hz ht]
      refine iff_of_false (fun he => by cases he) ?_
      rintro ⟨-, p, hp, -⟩
      rw [ht] at hp
      cases hp
    · rw [step_of_target hz ht, dispatch_eq_error_iff (accounted_entered h _) (target_mem h ht) hf]
      constructor
      · exact fun hfail => ⟨hz, p, ht, hfail⟩
      · rintro ⟨-, p', ht', hfail⟩
        cases ht.symm.trans ht'
        exact hfail
  | info doTrace => exact iff_of_false (fun he => by cases he) id
  | _ =>
    refine iff_of_false (fun he => ?_) id
    rcases (step_ends h _).error he with ⟨hev | ⟨rfl, -⟩, -⟩ | ⟨hf', -⟩
    · exact hev
    · rcases hf with hf | hf
      · cases hf
      · exact absurd hf (by decide)
    · exact hfatal _ hf'

/-! ## Runs -/

theorem stackFault_eq_nullDeref_iff {addrs : List UInt8} {op : MtOperation} :
    stackFault env p addrs op = some .nullDeref ↔
      p.stackTable.find (stackCut addrs) = none ∧
        ∃ a ∈ stackEntries env p addrs, locateMap p a = none := by
  unfold stackFault
  cases p.stackTable.find (stackCut addrs) with
  | some x =>
    dsimp only
    split <;> simp
  | none =>
    cases hall : (stackEntries env p addrs).all fun a => (locateMap p a).isSome with
    | true =>
      simp only [List.all_eq_true] at hall
      refine iff_of_false (by simp) ?_
      rintro ⟨-, a, ha, hnone⟩
      have hsome := hall a ha
      rw [hnone] at hsome
      cases hsome
    | false => simpa using hall

/-- The event makes the client dereference a null pointer: a process that is not known has forked,
or a backtrace that is new to the record has an address in no map. -/
def State.Derefs (o : Options) (env : Env) (c : State) : Event → Prop
  | .msg pid sw m => pid ≠ 0 ∧ ∃ p, c.target (.msg pid sw m) = some p ∧
      ((c.entered (.msg pid sw m)).Orphans p m ∨
        ∃ addrs op, p.adds o m = some (addrs, op) ∧
          p.stackTable.find (stackCut addrs) = none ∧
          ∃ a ∈ stackEntries env p addrs, locateMap p a = none)
  | _ => False

theorem fails_nullDeref_iff {e : Event} : c.Fails o env .nullDeref e ↔ c.Derefs o env e := by
  cases e with
  | msg pid sw m =>
    simp only [State.Fails, State.Derefs, Process.FailsIn, stackFault_eq_nullDeref_iff, true_and]
    refine and_congr_right fun _ => exists_congr fun p => and_congr_right fun _ => or_comm
  | _ => exact Iff.rfl

/-- A run of the client ends with a null pointer exactly when one of its messages reports the fork
of an unknown process or brings a new backtrace with an address that lies in no map. -/
theorem nullDeref_iff (o : Options) (env : Env) (doTrace : Bool) (es : List Event) :
    run (State.step o env) (.init doTrace) es = .error .nullDeref ↔
      ∃ before e after c, es = before ++ e :: after ∧
        run (State.step o env) (.init doTrace) before = .ok c ∧ c.Derefs o env e := by
  rw [run_eq_error_iff]
  refine exists_congr fun before => exists_congr fun e => exists_congr fun after =>
    exists_congr fun c => and_congr_right fun _ => and_congr_right fun hrun => ?_
  have hreach : Reachable o env doTrace c :=
    reach_run before _ c (fun _ _ _ => trivial) .init hrun
  rw [step_eq_error_iff (Reach.accounted hreach) (.inl rfl), fails_nullDeref_iff]

/-- Process 1, which the client does not know, forks into process 2; and process 1 allocates from
code in no map that was reported. -/
theorem handlers_not_total :
    run (State.step plainOptions plainEnv) (.init true) [.msg 2 false (.fork 1)] =
        .error .nullDeref ∧
      run (State.step plainOptions plainEnv) (.init true)
        [.msg 1 false (.attach true false), mallocEvent 0x602010 16] = .error .nullDeref := by
  exact ⟨rfl, rfl⟩

end Mtrace.Client
