import Mtrace.Client.Alike
import Mtrace.Client.Steps
import Mtrace.Wire

/-!
# Processes side by side

The client keeps the records of all traced processes in one table under the pid its messages carry,
and that pid has 16 bits.  As long as the pids of the traced processes differ in them, every record
is what the messages of its own process make of it, whatever the others send in between.
-/

namespace Mtrace.Client

open RbTree Machine

/-! ## One record of the table -/

section Table

variable {c : State} {p : Process}

theorem Sorted.findProcess_eq_some_iff (hs : Sorted c.processes) {pid : UInt32} :
    c.findProcess pid = some p ↔ p ∈ c.processes ∧ p.pid = pid := by
  constructor
  · exact findProcess_eq_some
  · rintro ⟨hp, rfl⟩
    exact hs.findProcess_of_mem hp

/-- A write to one record leaves the others alone. -/
theorem findProcess_store (c : State) (k : Stacks) (p : Process) (pid : UInt32) :
    (c.store k p).findProcess pid =
      (c.findProcess pid).map fun q => if q.pid = p.pid then p else q := by
  have hcut : (pidCut pid ∘ fun q => if q.pid = p.pid then p else q) = pidCut pid := by
    funext q
    show pidCut pid (if q.pid = p.pid then p else q) = pidCut pid q
    split
    next h => rw [pidCut, pidCut, h]
    next => rfl
  unfold State.findProcess State.store
  rw [find_map, hcut, Option.map_map, Option.map_map]
  rfl

theorem findProcess_store_self {k : Stacks} {pid : UInt32} {q : Process}
    (hq : c.findProcess pid = some q) (hp : p.pid = pid) :
    (c.store k p).findProcess pid = some p := by
  rw [findProcess_store, hq, Option.map_some, if_pos ((findProcess_eq_some hq).2.trans hp.symm)]

theorem findProcess_store_other {k : Stacks} {pid : UInt32} (hp : p.pid ≠ pid) :
    (c.store k p).findProcess pid = c.findProcess pid := by
  rw [findProcess_store]
  rcases hq : c.findProcess pid with _ | q
  · rfl
  · rw [Option.map_some, if_neg fun h => hp (h.symm.trans (findProcess_eq_some hq).2)]

theorem findProcess_addProcess (hs : Sorted c.processes) (hnew : ∀ q ∈ c.processes, q.pid ≠ p.pid)
    (pid : UInt32) :
    (c.addProcess p).findProcess pid = if p.pid = pid then some p else c.findProcess pid := by
  obtain ⟨as, bs, hps, hps', hsort⟩ := processes_addProcess hs hnew
  have hs' : Sorted (c.addProcess p).processes := hps' ▸ hsort
  split
  next h => exact hs'.findProcess_eq_some_iff.mpr ⟨by rw [hps']; simp, h⟩
  next h =>
    apply Option.ext
    intro q
    rw [hs'.findProcess_eq_some_iff, hs.findProcess_eq_some_iff, hps', hps]
    simp only [List.mem_append, List.mem_cons]
    constructor
    · rintro ⟨hq | rfl | hq, hpid⟩
      · exact ⟨.inl hq, hpid⟩
      · exact absurd hpid h
      · exact ⟨.inr hq, hpid⟩
    · rintro ⟨hq, hpid⟩
      exact ⟨hq.imp_right .inr, hpid⟩

/-- `client_remove_process` of a process in the table: the record is reset, and it is gone. -/
theorem removeProcess_eq (hs : Sorted c.processes) {pid : UInt32}
    (hp : c.findProcess pid = some p) :
    ∃ t, c.removeProcess pid = (processReset c.heap p >>= fun r =>
        .ok { c with pidTable := t, heap := r.1 }) ∧
      ∀ k a, State.findProcess { c with pidTable := t, heap := k } a =
        if pid = a then none else c.findProcess a := by
  obtain ⟨x, hx, rfl⟩ := Option.map_eq_some_iff.mp hp
  refine ⟨x.erase, ?_, fun k a => ?_⟩
  · unfold State.removeProcess
    rw [hx]
    rfl
  · have hps : c.processes = x.before ++ x.val :: x.after := toList_of_find hx
    have hpid : x.val.pid = pid := (findProcess_eq_some hp).2
    have hps' : State.processes { c with pidTable := x.erase, heap := k } = x.before ++ x.after :=
      toList_erase x
    rw [hps] at hs
    have hs' : Sorted (State.processes { c with pidTable := x.erase, heap := k }) :=
      hps' ▸ hs.without
    split
    next h =>
      subst h
      rw [hs'.findProcess_eq_none, hps', ← hpid]
      exact hs.pid_ne
    next h =>
      apply Option.ext
      intro q
      rw [hs'.findProcess_eq_some_iff, Sorted.findProcess_eq_some_iff (hps ▸ hs), hps', hps]
      simp only [List.mem_append, List.mem_cons]
      constructor
      · rintro ⟨hq, hqa⟩
        exact ⟨hq.imp_right .inr, hqa⟩
      · rintro ⟨hq | rfl | hq, hqa⟩
        · exact ⟨.inl hq, hqa⟩
        · exact absurd (hpid.symm.trans hqa) h
        · exact ⟨.inr hq, hqa⟩

end Table

/-! ## A handler and its record -/

/-- The mapping a `struct mt_map_payload` is about. -/
def mapOf (m : MtMapPayload) : Map :=
  ⟨m.offset, m.addr, m.size, m.bias, m.filename⟩

/-- What a handler makes of a record, and whether the record is to be removed.  Of the rest of the
client it sees the heap and, at a fork, the record of the parent. -/
def handleRecord (o : Options) (env : Env) (parent : UInt32 → Option Process) (k : Stacks)
    (p : Process) : MtMsg → Except Fault (Stacks × Process × Bool)
  | .alloc op _ m => do
    let (k, p) ← processAlloc o env k p op m
    return (k, p, false)
  | .free op _ m => do
    let (k, p) ← processFree o env k p op m
    return (k, p, false)
  | .reallocDone m => do
    let (k, p) ← processReallocDone o k p m
    return (k, p, false)
  | .munmap m => do
    let (k, p) ← processMunmap o k p m
    return (k, p, false)
  | .fork pid => do
    let (k, p) ← processDuplicate o k p (parent pid)
    return (k, p, false)
  | .attach is64bit attached => do
    let (k, p) ← processReinit k p p.swapEndian is64bit attached
    return (k, p, false)
  | .aboutExit =>
    let p := { p with status := .exiting }
    .ok (k, if o.autoScan then processLeaksScan p .all else p, false)
  | .exit =>
    let p := { p with status := .exit }
    if o.interactive then .ok (k, p, false)
    else do
      let (k, p) ← processDumpSortby k p
      return (k, p, true)
  | .nofollow => .ok (k, p, true)
  | .scan leaks => processScan o k p leaks
  | .addMap m => .ok (k, processAddMap p ⟨m.offset, m.addr, m.size, m.bias, m.filename⟩, false)
  | .delMap m => do
    let p ← processDelMap p m
    return (k, p, false)
  | .detach =>
    let p := { p with status := .detach }
    if o.autoScan then .ok (k, processLeaksScan p .all, false)
    else if o.interactive then .ok (k, p, false)
    else do
      let (k, p) ← processDumpSortby k p
      return (k, p, true)

/-- Writing back the result of a handler. -/
def State.settle (c : State) (r : Stacks × Process × Bool) : Except Fault State :=
  if r.2.2 then (c.store r.1 r.2.1).removeProcess r.2.1.pid else .ok (c.store r.1 r.2.1)

section Handle

variable {o : Options} {env : Env} {c d : State} {p q : Process}

theorem store_self (hs : Sorted c.processes) (hp : p ∈ c.processes) : c.store c.heap p = c := by
  have hmap : ∀ t : RbRoot Process, (∀ q ∈ t.toList, q.pid = p.pid → q = p) →
      (t.map fun q => if q.pid = p.pid then p else q) = t := by
    intro t
    induction t with
    | nil => intro _; rfl
    | node col l v r ihl ihr =>
      intro h
      rw [RbRoot.map, ihl fun q hq => h q (by simp [hq]), ihr fun q hq => h q (by simp [hq])]
      congr 1
      split
      next hv => exact (h v (by simp) hv).symm
      next => rfl
  unfold State.store
  rw [hmap c.pidTable fun q hq hpid => hs.eq_of_pid hq hp hpid]

/-- `dispatch` is the handler and the writing back. -/
theorem dispatch_eq (hs : Sorted c.processes) (hp : p ∈ c.processes) (m : MtMsg) :
    c.dispatch o env p m = handleRecord o env c.findProcess c.heap p m >>= c.settle := by
  cases m with
  | alloc op hop m => rw [State.dispatch, handleRecord, bind_assoc]; rfl
  | free op hop m => rw [State.dispatch, handleRecord, bind_assoc]; rfl
  | reallocDone m => rw [State.dispatch, handleRecord, bind_assoc]; rfl
  | munmap m => rw [State.dispatch, handleRecord, bind_assoc]; rfl
  | fork pid => rw [State.dispatch, handleRecord, bind_assoc]; rfl
  | attach is64bit attached => rw [State.dispatch, handleRecord, bind_assoc]; rfl
  | aboutExit => rfl
  | exit =>
    rw [State.dispatch, State.processExit, handleRecord]
    split
    · rfl
    · rw [bind_assoc]; rfl
  | nofollow =>
    show _ = (c.store c.heap p).removeProcess p.pid
    rw [store_self hs hp]
    rfl
  | scan leaks => rfl
  | addMap m => rfl
  | delMap m => rw [State.dispatch, handleRecord, bind_assoc]; rfl
  | detach =>
    rw [State.dispatch, State.processDetach, handleRecord]
    split
    · rfl
    split
    · rfl
    · rw [bind_assoc]; rfl

/-- A handler does on a record what it does on one alike. -/
theorem handleRecord_agree (h : Alike p q) (parent parent' : UInt32 → Option Process) (k l : Stacks)
    {m : MtMsg} (hm : ∀ pid, m ≠ .fork pid) :
    Agree (fun r s => Alike r.2.1 s.2.1 ∧ r.2.2 = s.2.2) (handleRecord o env parent k p m)
      (handleRecord o env parent' l q m) := by
  have hkeep : ∀ r s : Stacks × Process, AlikeSnd r s →
      Agree (fun r s => Alike r.2.1 s.2.1 ∧ r.2.2 = s.2.2)
        (.ok (r.1, r.2, false) : Except Fault _) (.ok (s.1, s.2, false)) :=
          fun r s hrs => ⟨hrs, rfl⟩
  have hdump : ∀ {p q : Process}, Alike p q →
      Agree (fun r s => Alike r.2.1 s.2.1 ∧ r.2.2 = s.2.2)
        (processDumpSortby k p >>= fun r => .ok (r.1, r.2, true))
        (processDumpSortby l q >>= fun r => .ok (r.1, r.2, true)) := fun h =>
    (processDumpSortby_agree h k l).bind fun r s hrs => ⟨hrs, rfl⟩
  cases m with
  | alloc op hop m => exact (processAlloc_agree h k l op m).bind hkeep
  | free op hop m => exact (processFree_agree h k l op m).bind hkeep
  | reallocDone m => exact (processReallocDone_agree h k l m).bind hkeep
  | munmap m => exact (processMunmap_agree h k l m).bind hkeep
  | fork pid => exact absurd rfl (hm pid)
  | attach is64bit attached =>
    have hsw : p.swapEndian = q.swapEndian :=
      (congrArg Process.swapEndian h : p.bare.swapEndian = q.bare.swapEndian)
    rw [handleRecord, handleRecord, hsw]
    exact (processReinit_agree h k l q.swapEndian is64bit attached).bind hkeep
  | aboutExit =>
    have h1 := h.update (fun p => { p with status := .exiting }) fun _ => rfl
    refine ⟨?_, rfl⟩
    show Alike (if _ then _ else _) (if _ then _ else _)
    split
    · exact h1.processLeaksScan .all
    · exact h1
  | exit =>
    have h1 := h.update (fun p => { p with status := .exit }) fun _ => rfl
    exact Agree.ite Iff.rfl (fun _ => ⟨h1, rfl⟩) fun _ => hdump h1
  | nofollow => exact ⟨h, rfl⟩
  | scan leaks => exact processScan_agree h k l leaks
  | addMap m =>
    refine ⟨?_, rfl⟩
    exact h.update (fun p => processAddMap p ⟨m.offset, m.addr, m.size, m.bias, m.filename⟩)
      fun _ => rfl
  | delMap m => exact (processDelMap_agree h m).bind fun p q h => ⟨h, rfl⟩
  | detach =>
    have h1 := h.update (fun p => { p with status := .detach }) fun _ => rfl
    refine Agree.ite Iff.rfl (fun _ => ⟨h1.processLeaksScan .all, rfl⟩) fun _ => ?_
    exact Agree.ite Iff.rfl (fun _ => ⟨h1, rfl⟩) fun _ => hdump h1

/-- A handler leaves pid and tracing of the record alone, and the maps but for those of `m`. -/
structure Retains (m : MtMsg) (p p' : Process) : Prop where
  pid : p'.pid = p.pid
  tracing : p'.tracing = p.tracing
  mapList : ∀ x ∈ p'.mapList, x ∈ p.mapList ∨ ∃ m', m = .addMap m' ∧ x = mapOf m'

namespace Retains

variable {m : MtMsg} {p1 : Process}

theorem of_eq (hpid : p1.pid = p.pid) (ht : p1.tracing = p.tracing)
    (hmaps : p1.mapList = p.mapList) : Retains m p p1 :=
  ⟨hpid, ht, fun _ hx => .inl (hmaps ▸ hx)⟩

theorem refl : Retains m p p := of_eq rfl rfl rfl

theorem trans (h : Retains m p p1) (h' : Retains m p1 q) : Retains m p q where
  pid := h'.pid.trans h.pid
  tracing := h'.tracing.trans h.tracing
  mapList x hx := (h'.mapList x hx).elim (h.mapList x) .inr

end Retains

theorem Changed.retains {m : MtMsg} {l : Change} {s s' : Stacks × Process}
    (hc : Changed l s s') : Retains m s.2 s'.2 := by
  cases hc <;> exact .of_eq rfl rfl rfl

theorem Chain.retains {m : MtMsg} {C : Change → Prop} {s s' : Stacks × Process}
    (hc : Chain C s s') : Retains m s.2 s'.2 :=
  hc.invariant (P := fun r => Retains m s.2 r.2) (fun _ _ _ _ h hc => h.trans hc.retains) .refl

theorem processLeaksScan_retains (m : MtMsg) (p : Process) (mode : ScanMode) :
    Retains m p (processLeaksScan p mode) := by
  unfold processLeaksScan
  split
  · exact .refl
  · exact .of_eq rfl rfl rfl

theorem handleRecord_retains (h : Accounted c) (hp : p ∈ c.processes)
    {parent : UInt32 → Option Process} {m : MtMsg} (hm : ∀ pid, m ≠ .fork pid)
    {r : Stacks × Process × Bool} (hr : handleRecord o env parent c.heap p m = .ok r) :
    Retains m p r.2.1 := by
  have ho := h.owned p hp
  have hdump : ∀ p1 : Process, Owned c.heap p1 (dumpRefs c.dumps p.pid)
      (otherRefs c.processes p.pid) → (processDumpSortby c.heap p1 >>= fun r =>
        .ok (r.1, r.2, true)) = .ok r → Retains m p1 r.2.1 := by
    intro p1 ho1 hr
    obtain ⟨k', p', hd, ⟨c, rfl⟩, -⟩ := ho1.processDumpSortby_ok
    rw [hd] at hr
    cases hr
    exact .of_eq rfl rfl rfl
  cases m with
  | alloc op hop m =>
    obtain ⟨r', hr', hr⟩ := bind_eq_ok.mp hr
    cases hr
    exact (processAlloc_chain (C := fun _ => True) trivial (fun _ _ _ _ => trivial)
      (fun _ _ => trivial) hr').retains
  | free op hop m =>
    obtain ⟨r', hr', hr⟩ := bind_eq_ok.mp hr
    cases hr
    exact (processFree_chain (C := fun _ => True) trivial (fun _ _ _ _ => trivial) hr').retains
  | reallocDone m =>
    obtain ⟨r', hr', hr⟩ := bind_eq_ok.mp hr
    cases hr
    exact (processReallocDone_chain (C := fun _ => True) trivial
      (fun _ _ _ _ _ _ _ _ _ => trivial) hr').retains
  | munmap m =>
    obtain ⟨r', hr', hr⟩ := bind_eq_ok.mp hr
    cases hr
    refine (processMunmap_chain (C := fun _ => True) (fun _ _ _ _ _ _ _ _ _ => ?_) hr').retains
    split <;> trivial
  | fork pid => exact absurd rfl (hm pid)
  | attach is64bit attached =>
    obtain ⟨r', hr', hr⟩ := bind_eq_ok.mp hr
    cases hr
    obtain ⟨r1, hr1, hr'⟩ := bind_eq_ok.mp hr'
    cases hr'
    rcases h.processReset_ends hp with ⟨-, herr⟩ | ⟨-, k', hok, -⟩
    · cases herr.symm.trans hr1
    · cases hok.symm.trans hr1
      exact ⟨rfl, rfl, fun x hx => by cases hx⟩
  | aboutExit =>
    cases hr
    have hs : Retains .aboutExit p { p with status := .exiting } := .of_eq rfl rfl rfl
    show Retains _ _ (if _ then _ else _)
    split
    · exact hs.trans (processLeaksScan_retains _ _ _)
    · exact hs
  | exit =>
    have hs : Retains .exit p { p with status := .exit } := .of_eq rfl rfl rfl
    rw [handleRecord] at hr
    split at hr
    · cases hr; exact hs
    · exact hs.trans (hdump _ (ho.of_eq rfl rfl rfl rfl rfl) hr)
  | nofollow => cases hr; exact .refl
  | scan leaks =>
    obtain ⟨p1, hp1, hr⟩ := bind_eq_ok.mp hr
    have hch : Chain (fun _ => True) (c.heap, p) (c.heap, p1) :=
      scanBlocks_chain (fun _ _ => trivial) hp1
    split at hr
    · cases hr; exact hch.retains
    · exact hch.retains.trans (hdump p1 (ho.chain hch) hr)
  | addMap m =>
    cases hr
    refine ⟨rfl, rfl, fun x hx => ?_⟩
    rcases List.mem_append.mp hx with hx | hx
    · exact .inl hx
    · exact .inr ⟨m, rfl, List.mem_singleton.mp hx⟩
  | delMap m =>
    obtain ⟨p1, hp1, hr⟩ := bind_eq_ok.mp hr
    cases hr
    unfold processDelMap at hp1
    dsimp only at hp1
    split at hp1
    · cases hp1
      exact ⟨rfl, rfl, fun x hx => .inl (List.mem_of_mem_eraseP hx)⟩
    · cases hp1
  | detach =>
    have hs : Retains .detach p { p with status := .detach } := .of_eq rfl rfl rfl
    rw [handleRecord] at hr
    split at hr
    · cases hr; exact hs.trans (processLeaksScan_retains _ _ _)
    split at hr
    · cases hr; exact hs
    · exact hs.trans (hdump _ (ho.of_eq rfl rfl rfl rfl rfl) hr)

/-- The table after the result of a handler is written back. -/
theorem settle_spec (hs : Sorted c.processes) {pid : UInt32} (hp : c.findProcess pid = some p)
    {r : Stacks × Process × Bool} (hpid : r.2.1.pid = pid) {c' : State} (hc : c.settle r = .ok c') :
    c'.doTrace = c.doTrace ∧ ∀ a, c'.findProcess a =
      if pid = a then (if r.2.2 then none else some r.2.1) else c.findProcess a := by
  have hself := findProcess_store_self (k := r.1) hp hpid
  have hstore : ∀ a, (c.store r.1 r.2.1).findProcess a =
      if pid = a then some r.2.1 else c.findProcess a := by
    intro a
    split
    next h => rw [← h]; exact hself
    next h => exact findProcess_store_other fun he => h (hpid.symm.trans he)
  unfold State.settle at hc
  split at hc
  next hrem =>
    rw [hpid] at hc
    obtain ⟨t, ht, hfind⟩ := removeProcess_eq (hs.store r.1 r.2.1) hself
    rw [ht] at hc
    obtain ⟨r', -, hc⟩ := bind_eq_ok.mp hc
    cases hc
    refine ⟨rfl, fun a => ?_⟩
    rw [hfind, hstore, if_pos hrem]
    split <;> rfl
  next hrem =>
    cases hc
    refine ⟨rfl, fun a => ?_⟩
    rw [hstore, if_neg hrem]

theorem settle_agree (hc : Sorted c.processes) (hd : Sorted d.processes) {pid : UInt32}
    (hp : c.findProcess pid = some p) (hq : d.findProcess pid = some q)
    {r s : Stacks × Process × Bool} (hr : r.2.1.pid = pid) (h : Alike r.2.1 s.2.1)
    (hrem : r.2.2 = s.2.2) : Agree (fun _ _ => True) (c.settle r) (d.settle s) := by
  have hs : s.2.1.pid = pid := h.pid.symm.trans hr
  refine Agree.ite (by rw [hrem]) (fun _ => ?_) fun _ => trivial
  rw [hr, hs]
  obtain ⟨t, ht, -⟩ := removeProcess_eq (hc.store r.1 r.2.1) (findProcess_store_self hp hr)
  obtain ⟨t', ht', -⟩ := removeProcess_eq (hd.store s.1 s.2.1) (findProcess_store_self hq hs)
  rw [ht, ht']
  exact (processReset_agree h r.1 s.1).bind fun _ _ _ => trivial

end Handle

/-! ## One message in two runs -/

/-- Two states of the client that agree on the process `pid`. -/
structure Beside (pid : UInt32) (c d : State) : Prop where
  left : Accounted c
  right : Accounted d
  doTrace : c.doTrace = d.doTrace
  record : (c.findProcess pid).map Process.bare = (d.findProcess pid).map Process.bare

section Message

variable {o : Options} {env : Env} {c d : State}

theorem enter_spec (h : Accounted c) (pid : UInt32) (sw : Bool) :
    Accounted (c.enter pid sw).1 ∧ (c.enter pid sw).1.doTrace = c.doTrace ∧
      (c.enter pid sw).2 = (c.findProcess pid).getD (processNew pid sw c.doTrace) ∧
      ∀ a, (c.enter pid sw).1.findProcess a =
        if pid = a then some (c.enter pid sw).2 else c.findProcess a := by
  unfold State.enter
  rcases hf : c.findProcess pid with _ | p
  · have hnew := h.sorted.findProcess_eq_none.mp hf
    exact ⟨h.addProcess hnew, rfl, rfl, findProcess_addProcess h.sorted hnew⟩
  · refine ⟨h, rfl, rfl, fun a => ?_⟩
    by_cases ha : pid = a
    · rw [if_pos ha, ← ha]
      exact hf
    · rw [if_neg ha]

/-- The record both states enter for a message about the process they agree on. -/
theorem Beside.enter_alike {pid : UInt32} (h : Beside pid c d) (sw : Bool) :
    Alike (c.enter pid sw).2 (d.enter pid sw).2 := by
  have hrec := h.record
  rw [(enter_spec h.left pid sw).2.2.1, (enter_spec h.right pid sw).2.2.1, h.doTrace]
  generalize c.findProcess pid = x at hrec
  generalize d.findProcess pid = y at hrec
  rcases x with _ | p <;> rcases y with _ | q
  · exact .refl _
  · cases hrec
  · cases hrec
  · exact Option.some.inj hrec

/-- A message of the process two states agree on: the client fails in both, or they agree again. -/
theorem clientFunc_agree {pid : UInt16} (h : Beside pid.toUInt32 c d) (sw : Bool) {m : MtMsg}
    (hm : ∀ pid, m ≠ .fork pid) :
    Agree (Beside pid.toUInt32) (c.clientFunc o env pid sw m) (d.clientFunc o env pid sw m) := by
  obtain ⟨hac, htc, -, hfc⟩ := enter_spec h.left pid.toUInt32 sw
  obtain ⟨had, htd, -, hfd⟩ := enter_spec h.right pid.toUInt32 sw
  have hal := h.enter_alike sw
  have hpc := (hfc pid.toUInt32).trans (if_pos rfl)
  have hpd := (hfd pid.toUInt32).trans (if_pos rfl)
  have hmem := (findProcess_eq_some hpc).1
  have hmem' := (findProcess_eq_some hpd).1
  have hpid := (findProcess_eq_some hpc).2
  suffices hs : Agree (fun c' d' => c'.doTrace = d'.doTrace ∧
      (c'.findProcess pid.toUInt32).map Process.bare =
        (d'.findProcess pid.toUInt32).map Process.bare)
      (c.clientFunc o env pid sw m) (d.clientFunc o env pid sw m) from
    hs.mono fun c' d' hc' hd' hrec => ⟨((clientFunc_ends h.left pid sw m).ok hc').2.1,
      ((clientFunc_ends h.right pid sw m).ok hd').2.1, hrec.1, hrec.2⟩
  have htrace : (c.enter pid.toUInt32 sw).1.doTrace = (d.enter pid.toUInt32 sw).1.doTrace :=
    htc.trans (h.doTrace.trans htd.symm)
  refine Agree.ite Iff.rfl (fun _ => rfl) fun _ => ?_
  have hsw : (c.enter pid.toUInt32 sw).2.swapEndian = (d.enter pid.toUInt32 sw).2.swapEndian :=
    (congrArg Process.swapEndian hal : Process.swapEndian (Process.bare _) = _)
  have hst : (c.enter pid.toUInt32 sw).2.status = (d.enter pid.toUInt32 sw).2.status :=
    (congrArg Process.status hal : Process.status (Process.bare _) = _)
  have hskip : ((c.enter pid.toUInt32 sw).2.swapEndian ≠ sw ∨
      (c.enter pid.toUInt32 sw).2.status = .ignore) ↔
      ((d.enter pid.toUInt32 sw).2.swapEndian ≠ sw ∨
      (d.enter pid.toUInt32 sw).2.status = .ignore) := by
    rw [hsw, hst]
  refine Agree.ite hskip (fun _ => ⟨htrace, ?_⟩) fun _ => ?_
  · show (State.findProcess (c.enter pid.toUInt32 sw).1 _).map _ = _
    rw [hpc, Option.map_some, hal]
    show _ = (State.findProcess (d.enter pid.toUInt32 sw).1 _).map _
    rw [hpd, Option.map_some]
  · show Agree _ ((c.enter pid.toUInt32 sw).1.dispatch o env (c.enter pid.toUInt32 sw).2 m)
      ((d.enter pid.toUInt32 sw).1.dispatch o env (d.enter pid.toUInt32 sw).2 m)
    rw [dispatch_eq hac.sorted hmem m, dispatch_eq had.sorted hmem' m]
    refine Agree.bind ((handleRecord_agree hal _ _ _ _ hm).mono fun r s hr _ hrs =>
      And.intro ((handleRecord_retains hac hmem hm hr).pid) hrs) fun r s hrs => ?_
    obtain ⟨hr, hrs, hrem⟩ := hrs
    have hr' : r.2.1.pid = pid.toUInt32 := hr.trans hpid
    refine (settle_agree hac.sorted had.sorted hpc hpd hr' hrs hrem).mono
      fun c' d' hc' hd' _ => ?_
    obtain ⟨ht1, hf1⟩ := settle_spec hac.sorted hpc hr' hc'
    obtain ⟨ht2, hf2⟩ := settle_spec had.sorted hpd (hrs.pid.symm.trans hr') hd'
    refine ⟨ht1.trans (htrace.trans ht2.symm), ?_⟩
    rw [hf1, hf2, if_pos rfl, if_pos rfl, hrem]
    split
    · rfl
    · exact congrArg some hrs

/-- A message of another process. -/
theorem clientFunc_other (h : Accounted c) {pid : UInt16} {a : UInt32} (ha : pid.toUInt32 ≠ a)
    {sw : Bool} {m : MtMsg} (hm : ∀ pid, m ≠ .fork pid) {c' : State}
    (hc : c.clientFunc o env pid sw m = .ok c') :
    c'.doTrace = c.doTrace ∧ c'.findProcess a = c.findProcess a := by
  obtain ⟨hac, htc, -, hfc⟩ := enter_spec h pid.toUInt32 sw
  have hpc := (hfc pid.toUInt32).trans (if_pos rfl)
  have hoa := (hfc a).trans (if_neg ha)
  unfold State.clientFunc at hc
  by_cases hz : pid = 0
  · rw [if_pos hz] at hc
    cases hc
  rw [if_neg hz] at hc
  dsimp only at hc
  split at hc
  · cases hc
    exact ⟨htc, hoa⟩
  · rw [dispatch_eq hac.sorted (findProcess_eq_some hpc).1 m] at hc
    obtain ⟨r, hr, hc⟩ := bind_eq_ok.mp hc
    have hpid := (handleRecord_retains hac (findProcess_eq_some hpc).1 hm hr).pid.trans
      (findProcess_eq_some hpc).2
    obtain ⟨ht, hf⟩ := settle_spec hac.sorted hpc hpid hc
    exact ⟨ht.trans htc, (hf a).trans ((if_neg ha).trans hoa)⟩

/-- Every record after a message is one from before, or that of the process of the message. -/
theorem clientFunc_records (h : Accounted c) {pid : UInt16} {sw : Bool} {m : MtMsg}
    (hm : ∀ pid, m ≠ .fork pid) {c' : State} (hc : c.clientFunc o env pid sw m = .ok c') :
    c'.doTrace = c.doTrace ∧ ∀ a q, c'.findProcess a = some q →
      c.findProcess a = some q ∨ Retains m (c.enter pid.toUInt32 sw).2 q := by
  obtain ⟨hac, htc, -, hfc⟩ := enter_spec h pid.toUInt32 sw
  have hpc := (hfc pid.toUInt32).trans (if_pos rfl)
  have hentered : ∀ a q, (c.enter pid.toUInt32 sw).1.findProcess a = some q →
      c.findProcess a = some q ∨ Retains m (c.enter pid.toUInt32 sw).2 q := by
    intro a q hq
    rw [hfc] at hq
    split at hq
    · cases hq
      exact .inr .refl
    · exact .inl hq
  unfold State.clientFunc at hc
  split at hc
  · cases hc
  dsimp only at hc
  split at hc
  · cases hc
    exact ⟨htc, hentered⟩
  · rw [dispatch_eq hac.sorted (findProcess_eq_some hpc).1 m] at hc
    obtain ⟨r, hr, hc⟩ := bind_eq_ok.mp hc
    have hret := handleRecord_retains hac (findProcess_eq_some hpc).1 hm hr
    obtain ⟨ht, hf⟩ := settle_spec hac.sorted hpc
      (hret.pid.trans (findProcess_eq_some hpc).2) hc
    refine ⟨ht.trans htc, fun a q hq => ?_⟩
    rw [hf] at hq
    split at hq
    · split at hq
      · cases hq
      · cases hq
        exact .inr hret
    · exact hentered a q hq

end Message

/-! ## Streams -/

/-- The operation a message is sent with. -/
def MtMsg.operation : MtMsg → MtOperation
  | .alloc op _ _ => op
  | .free op _ _ => op
  | .reallocDone _ => .reallocDone
  | .munmap _ => .munmap
  | .fork _ => .fork
  | .attach is64bit _ => if is64bit then .attach64 else .attach
  | .aboutExit => .aboutExit
  | .exit => .exit
  | .nofollow => .nofollow
  | .scan _ => .scan
  | .addMap _ => .addMap
  | .delMap _ => .delMap
  | .detach => .detach

/-- A message as the server sends it, with the pid of the process it is about. -/
structure Sent where
  pid : UInt32
  swapEndian : Bool
  msg : MtMsg

/-- What is left of the pid in `struct mt_msg`. -/
def Sent.wirePid (s : Sent) : UInt16 := s.pid.toUInt16

/-- The message as it arrives at the client. -/
def Sent.event (s : Sent) : Event := .msg s.wirePid s.swapEndian s.msg

/-- The client on the messages of a stream. -/
def feed (o : Options) (env : Env) (doTrace : Bool) (ss : List Sent) : Except Fault State :=
  Machine.run (fun c s => c.step o env s.event) (.init doTrace) ss

/-- The record of a process, up to the names of its `struct stack`s. -/
def State.recordOf (c : State) (pid : UInt32) : Option Process :=
  (c.findProcess pid.toUInt16.toUInt32).map Process.bare

/-- The messages of one process. -/
def ownOf (pid : UInt32) (ss : List Sent) : List Sent := ss.filter fun s => s.pid = pid

section Streams

variable {o : Options} {env : Env} {doTrace : Bool} {pids : Set UInt32} {ss : List Sent}

theorem MtMsg.operation_ne_info (m : MtMsg) : m.operation ≠ .info := by
  cases m with
  | alloc op hop m => rintro rfl; cases hop
  | free op hop m => rintro rfl; cases hop
  | attach is64bit attached => cases is64bit <;> exact nofun
  | _ => exact nofun

/-- The header the client reads off the bytes of `server_send_msg` carries these 16 bits, on hosts
of either byte order. -/
theorem Sent.wirePid_received (s : Sent) (bo bo' : ByteOrder) {logfile : Bool} {serverFd : ℤ}
    (hfd : serverFd ≠ -1) (payload : List UInt8) (payloadLen : UInt32) :
    (Wire.serverSendMsg bo logfile serverFd s.msg.operation.code s.pid payload payloadLen).map
      (fun bs => (Wire.readHeader bo' (bs.take 8)).1.pid) = some s.wirePid := by
  rw [Wire.serverSendMsg_eq bo s.msg.operation s.pid payload payloadLen hfd, Option.map_some,
    Wire.take_toBytes_append]
  by_cases hbo : bo = bo'
  · subst hbo
    rw [Wire.readHeader_same]
    rfl
  · rw [Wire.readHeader_other hbo, if_neg s.msg.operation_ne_info]
    rfl

/-- The pids are told apart by the client. -/
def ToldApart (pids : Set UInt32) : Prop :=
  ∀ p ∈ pids, ∀ q ∈ pids, p ≠ q → p.toUInt16 = q.toUInt16 → p.toUInt16 = 0

/-- The client on a stream beside the client on the messages of one process. -/
theorem feed_beside (ha : ToldApart pids) (hss : ∀ s ∈ ss, s.pid ∈ pids ∧ ∀ pid, s.msg ≠ .fork pid)
    {pid : UInt32} (hpid : pid ∈ pids) {c : State} (hc : feed o env doTrace ss = .ok c) :
    ∃ d, feed o env doTrace (ownOf pid ss) = .ok d ∧ Beside pid.toUInt16.toUInt32 c d := by
  refine run_filter (R := Beside pid.toUInt16.toUInt32) ?_ ?_
    ⟨accounted_init doTrace, accounted_init doTrace, rfl, rfl⟩ hc
  · intro s hs hown c d h
    obtain rfl : s.pid = pid := of_decide_eq_true hown
    exact clientFunc_agree h s.swapEndian (hss s hs).2
  · intro s hs hown c d c' h hc'
    have hne : s.pid ≠ pid := of_decide_eq_false hown
    have hstep : c.clientFunc o env s.wirePid s.swapEndian s.msg = .ok c' := hc'
    have hz : s.wirePid ≠ 0 := by
      intro hz
      rw [State.clientFunc, if_pos hz] at hstep
      cases hstep
    have hother : s.wirePid.toUInt32 ≠ pid.toUInt16.toUInt32 := by
      intro he
      have he' : s.pid.toUInt16 = pid.toUInt16 := UInt16.toUInt32_inj.mp he
      exact hz (ha s.pid (hss s hs).1 pid hpid hne he')
    obtain ⟨ht, hf⟩ := clientFunc_other h.left hother (hss s hs).2 hstep
    refine ⟨((clientFunc_ends h.left _ _ _).ok hstep).2.1, h.right, ht.trans h.doTrace, ?_⟩
    rw [hf]
    exact h.record

/-- A stream the client does not get through has a process whose own stream it does not get
through. -/
theorem feed_error (ha : ToldApart pids) (hss : ∀ s ∈ ss, s.pid ∈ pids ∧ ∀ pid, s.msg ≠ .fork pid)
    {f : Fault} (hf : feed o env doTrace ss = .error f) :
    ∃ pid ∈ pids, feed o env doTrace (ownOf pid ss) = .error f := by
  obtain ⟨before, s, after, c, rfl, hb, hs⟩ := (run_eq_error_iff _ ss).mp hf
  have hmem : s ∈ before ++ s :: after := List.mem_append_right _ List.mem_cons_self
  refine ⟨s.pid, (hss s hmem).1, ?_⟩
  obtain ⟨d, hd, hcd⟩ := feed_beside ha (fun s' hs' => hss s' (List.mem_append_left _ hs'))
    (hss s hmem).1 hb
  have hstep : (d.step o env s.event) = .error f :=
    (clientFunc_agree hcd s.swapEndian (hss s hmem).2).error hs
  refine (run_eq_error_iff _ _).mpr ⟨ownOf s.pid before, s, ownOf s.pid after, d, ?_, hd, hstep⟩
  simp [ownOf]

/-- However the streams of the processes are interleaved, the client gets through all of it when it
gets through the stream of each of them, and keeps for each the record its own stream leads to. -/
theorem feed_apart (ha : ToldApart pids)
    (hss : ∀ s ∈ ss, s.pid ∈ pids ∧ ∀ pid, s.msg ≠ .fork pid) :
    ((∃ c, feed o env doTrace ss = .ok c) ↔
      ∀ pid ∈ pids, ∃ d, feed o env doTrace (ownOf pid ss) = .ok d) ∧
    ∀ c, feed o env doTrace ss = .ok c → ∀ pid ∈ pids, ∀ d,
      feed o env doTrace (ownOf pid ss) = .ok d → c.recordOf pid = d.recordOf pid := by
  refine ⟨⟨?_, ?_⟩, ?_⟩
  · rintro ⟨c, hc⟩ pid hpid
    obtain ⟨d, hd, -⟩ := feed_beside ha hss hpid hc
    exact ⟨d, hd⟩
  · intro hown
    rcases hc : feed o env doTrace ss with f | c
    · obtain ⟨pid, hpid, hf⟩ := feed_error ha hss hc
      obtain ⟨d, hd⟩ := hown pid hpid
      cases hf.symm.trans hd
    · exact ⟨c, rfl⟩
  · intro c hc pid hpid d hd
    obtain ⟨d', hd', hcd⟩ := feed_beside ha hss hpid hc
    cases hd.symm.trans hd'
    exact hcd.record

end Streams

end Mtrace.Client
