import Mtrace.Client.Steps
import Mtrace.Client.Wait
import Mtrace.Walk

/-!
# Terminating the client

`client_iterate_processes(scan_process)`: a walk through the table of processes in which every
callback waits for the answer to a scan, and handles every message that arrives before.  Such a
message may take any process out of the table, or add one.

* `iterate_safe`: what holds of every walk whose callbacks all keep it.
* `iterate_dangles`: a walk that goes on from a process that was taken out.
-/

namespace Mtrace.Client

open RbTree

/-- The table of processes as `rb_iterate` sees it. -/
def State.pidTree (c : State) : RbRoot UInt32 := c.pidTable.map (·.pid)

/-- The loop of `client_wait_op(MT_SCAN)`, and the processes that are taken out meanwhile.  It also
ends when `ioevent_wait_input` fails. -/
def waitOp (o : Options) (env : Env) :
    Session → List Input → Except Fault (Session × List UInt32)
  | s, [] => .ok (s, [])
  | s, i :: is =>
    if s.waits.isNone then .ok (s, [])
    else do
      let s' ← s.step o env i
      let (s'', gone) ← waitOp o env s' is
      return (s'',
        s.client.pidTree.toList.filter (fun pid => pid ∉ s'.client.pidTree.toList) ++ gone)

/-- `client_iterate_process` with `scan_process`. -/
def iterateProcess (o : Options) (env : Env) (s : Session) (pid : UInt32) (out : Outcome)
    (is : List Input) : Except Fault (Session × List UInt32) :=
  match s.client.findProcess pid with
  | none => .error .dangling
  | some p => do
    let s ← s.scanProcess o env p out
    let (s, gone) ← waitOp o env s is
    return ({ s with waits := none }, gone)

/-- A session inside of `rb_iterate`. -/
structure Iteration where
  session : Session
  walk : Walk UInt32

/-- A turn of the outer loop, or a callback with all that arrives in it. -/
inductive Turn where
  | move
  | visit (out : Outcome) (is : List Input) (reused : Bool)

namespace Iteration

def start (s : Session) : Iteration := ⟨s, .start s.client.pidTree⟩

def step (o : Options) (env : Env) (s : Iteration) : Turn → Except Fault Iteration
  | .move => .ok { s with walk := s.walk.move }
  | .visit out is reused =>
    match s.walk.cursor with
    | .call x => do
      let (session, gone) ← iterateProcess o env s.session x.val out is
      return ⟨session, s.walk.visit ⟨session.client.pidTree, gone, reused⟩⟩
    | _ => .ok s

/-- The callback leaves the parent of the process in the table, and what is behind the process as it
was. -/
def Keeps (o : Options) (env : Env) (s : Iteration) : Turn → Prop
  | .move => True
  | .visit out is reused => ∀ x session gone, s.walk.cursor = .call x →
      iterateProcess o env s.session x.val out is = .ok (session, gone) →
      (Callback.mk session.client.pidTree gone reused).Keeps s.walk.kept x

/-- The walk stands in the table, and the processes that stay are visited once. -/
structure Safe (s : Iteration) : Prop where
  intact : s.walk.cursor.Intact ∧ s.walk.cursor.In s.session.client.pidTree
  once : ∀ pid ∈ s.walk.kept, s.walk.visited.count pid ≤ 1 ∧
    (s.walk.cursor = .done → s.walk.visited.count pid = 1)

end Iteration

section Iterate

variable {o : Options} {env : Env} {doTrace : Bool} {c : State}

theorem toList_pidTree (c : State) : c.pidTree.toList = c.processes.map (·.pid) := toList_map _ _

theorem pidTree_nodup (h : Accounted c) : c.pidTree.toList.Nodup := by
  rw [toList_pidTree]
  exact (sorted_iff.mp h.sorted).imp fun hlt heq => absurd (heq ▸ hlt) (by simp)

/-- The cursor of a walk, after a callback that keeps it, stands in the new table. -/
theorem Iteration.step_safe {s s' : Iteration} {t : Turn}
    (h : s.walk.Sound ∧ s.walk.cursor.In s.session.client.pidTree) (hok : s.Keeps o env t)
    (hs : s.step o env t = .ok s') :
    s'.walk.Sound ∧ s'.walk.cursor.In s'.session.client.pidTree := by
  cases t with
  | move =>
    cases hs
    exact ⟨h.1.move, (move_pending s.walk).2.2.2.2 h.2⟩
  | visit out is reused =>
    unfold Iteration.step at hs
    cases hc : s.walk.cursor with
    | call x =>
      simp only [hc] at hs
      obtain ⟨⟨session, gone⟩, hcallback, hs⟩ := Machine.bind_eq_ok.mp hs
      cases hs
      have hkeeps := hok x session gone hc hcallback
      refine ⟨h.1.visit hc hkeeps, ?_⟩
      show (Walk.visit _ _).cursor.In _
      unfold Walk.visit
      simp only [hc]
      exact resume_in _ x x.parent
    | outer x =>
      simp only [hc] at hs
      cases hs
      exact h
    | done =>
      simp only [hc] at hs
      cases hs
      exact h
    | dangling =>
      simp only [hc] at hs
      cases hs
      exact h

/-- In a walk whose callbacks all keep it, no process is used that was taken out of the table, and
every process that stays is visited once. -/
theorem iterate_safe (h : Reachable o env doTrace c) {connected : Bool} {requests : List UInt32}
    {s : Iteration} (hs : Machine.Reach (Iteration.step o env) (Iteration.Keeps o env)
      (.start ⟨c, connected, requests, none⟩) s) : s.Safe := by
  obtain ⟨hsound, hin⟩ := hs.invariant
    (P := fun s => s.walk.Sound ∧ s.walk.cursor.In s.session.client.pidTree)
    ⟨Walk.sound_start (pidTree_nodup (Reach.accounted h)), (start_pending c.pidTree).2⟩
    (fun _ _ _ hP hok hstep => Iteration.step_safe hP hok hstep)
  refine ⟨⟨hsound.intact, hin⟩, fun pid hpid => ?_⟩
  have honce := hsound.once pid hpid
  refine ⟨by omega, fun hdone => ?_⟩
  rw [hdone, Cursor.pending, List.count_nil] at honce
  exact honce

/-- Whether a callback keeps the walk. -/
def Iteration.keepsTest (o : Options) (env : Env) (s : Iteration) : Turn → Bool
  | .move => true
  | .visit out is reused =>
    match s.walk.cursor with
    | .call x =>
      match iterateProcess o env s.session x.val out is with
      | .ok (session, gone) =>
        (Callback.mk session.client.pidTree gone reused).keepsTest s.walk.kept x
      | .error _ => true
    | _ => true

theorem Iteration.keeps_of_test {s : Iteration} {t : Turn} (h : s.keepsTest o env t = true) :
    s.Keeps o env t := by
  cases t with
  | move => trivial
  | visit out is reused =>
    intro x session gone hx hcallback
    unfold Iteration.keepsTest at h
    simp only [hx, hcallback] at h
    exact keeps_of_keepsTest h

end Iterate

/-! ## Three processes -/

/-- The options of a client that is not interactive and scans on its own. -/
def scanningOptions : Options := ⟨false, false, true⟩

/-- Three processes, of which the second one stands above the others. -/
def threeAttached : List Event :=
  [.msg 2 false (.attach true false), .msg 1 false (.attach true false),
    .msg 3 false (.attach true false)]

def threeProcesses : State :=
  match Machine.run (State.step scanningOptions plainEnv) (.init true) threeAttached with
  | .ok c => c
  | .error _ => .init true

theorem reachable_threeProcesses : Reachable scanningOptions plainEnv true threeProcesses :=
  Machine.reach_run threeAttached _ _ (fun _ _ _ => trivial) .init rfl

/-- In the callback of process 1 the first message of process 4 arrives, process 1 says that it is
not followed, and the scan is answered; in its own callback process 4 says the same. -/
def walkedTurns : List Turn :=
  [.move,
    .visit .sent [.event (.msg 4 false (.attach true false)) .sent,
      .event (.msg 1 false .nofollow) .sent, .event (.msg 1 false (.scan [])) .sent] false,
    .move, .visit .sent [] false,
    .move, .move, .visit .sent [.event (.msg 4 false .nofollow) .sent] false,
    .move, .visit .sent [] false]

/-- The walk through the three processes while the turns keep it. -/
def iterated (ts : List Turn) : Option Iteration :=
  Machine.runTested (Iteration.step scanningOptions plainEnv)
    (Iteration.keepsTest scanningOptions plainEnv) (.start ⟨threeProcesses, true, [], none⟩) ts

theorem iterate_safe_walked : ∃ s, iterated walkedTurns = some s ∧ s.walk.cursor = .done ∧
    s.walk.visited = [1, 2, 4, 3] ∧ s.walk.kept = [2, 3] ∧ s.Safe := by
  obtain ⟨s, hs, hdone, hvisited, hkept⟩ : ∃ s, iterated walkedTurns = some s ∧
      s.walk.cursor = .done ∧ s.walk.visited = [1, 2, 4, 3] ∧ s.walk.kept = [2, 3] :=
    ⟨_, rfl, rfl, rfl, rfl⟩
  have hreach : Machine.Reach (Iteration.step scanningOptions plainEnv)
      (Iteration.Keeps scanningOptions plainEnv) (.start ⟨threeProcesses, true, [], none⟩) s :=
    Machine.reach_runTested (fun _ _ _ => Iteration.keeps_of_test) walkedTurns _ s .init hs
  exact ⟨s, hs, hdone, hvisited, hkept, iterate_safe reachable_threeProcesses hreach⟩

def iterationAfter (ts : List Turn) : Iteration :=
  match Machine.run (Iteration.step scanningOptions plainEnv)
      (.start ⟨threeProcesses, true, [], none⟩) ts with
  | .ok s => s
  | .error _ => .start ⟨threeProcesses, true, [], none⟩

/-- While the client waits for the scan of process 1, process 2 says that it is not followed. -/
def parentLeaves : List Turn :=
  [.move, .visit .sent [.event (.msg 2 false .nofollow) .sent] false]

theorem iterate_dangles : Machine.Reach (Iteration.step scanningOptions plainEnv) (fun _ _ => True)
      (.start ⟨threeProcesses, true, [], none⟩) (iterationAfter parentLeaves) ∧
    ¬ (iterationAfter parentLeaves).Safe := by
  refine ⟨Machine.reach_run parentLeaves _ _ (fun _ _ _ => trivial) .init rfl, fun h => ?_⟩
  exact h.intact.1

end Mtrace.Client
