import Mtrace.Machine
import Mtrace.Server.Hits

/-!
# Returns and their calls

A thread calls functions in each other, and the server sees the entries of the traced ones and the
returns to where it has put a breakpoint.  It remembers one call, the outermost traced one, by its
return address; calls made in it are ignored.  The hit that ends the call is the next one on a
return breakpoint, whichever that is. -/

namespace Mtrace.Server

/-- The calls of a thread one after the other: the function, the return address, and the calls it
makes before it returns. -/
inductive Calls where
  | nil
  | call (entry ret : UInt64) (inner rest : Calls)

/-- An address the thread gets to. -/
inductive CallEvent where
  /-- Being called from in front of `ret`. -/
  | enter (entry ret : UInt64)
  | leave (ret : UInt64)

/-- The dictionary and the thread. -/
abbrev CallState := BpDict × HitTask

/-- The functions whose `report_out` is called, if there is one. -/
def reportOuts (invocations : List Invocation) : List Symbol :=
  invocations.filterMap fun
    | .reportOut sym => some sym
    | .reportIn _ => none

/-- The thread executes the instruction at an address; a breakpoint in the scratch slot is only hit
while it is there. -/
def arrive (opts : HitOptions) (s : CallState) (addr ra : UInt64) :
    Except String (CallState × List Symbol) :=
  match s.1 addr with
  | none => .ok (s, [])
  | some bp =>
    if bp.type = .hwScratch ∧ s.2.scratch ≠ some addr then .ok (s, [])
    else do
      let (bps, t, invocations) ← handleBreakpoint opts s.1 s.2 bp ra
      return ((bps, t), reportOuts invocations)

def callStep (opts : HitOptions) (s : CallState) : CallEvent →
    Except String (CallState × List Symbol)
  | .enter entry ret => arrive opts s entry ret
  | .leave ret => arrive opts s ret 0

/-- The reports at each of the events. -/
def callRun (opts : HitOptions) :
    CallState → List CallEvent → Except String (CallState × List (List Symbol))
  | s, [] => .ok (s, [])
  | s, e :: es => do
    let (s, out) ← callStep opts s e
    let (s, outs) ← callRun opts s es
    return (s, out :: outs)

namespace Calls

def events : Calls → List CallEvent
  | nil => []
  | call entry ret inner rest => .enter entry ret :: (inner.events ++ .leave ret :: rest.events)

def rets : Calls → List UInt64
  | nil => []
  | call _ ret inner rest => ret :: (inner.rets ++ rest.rets)

def entries : Calls → List UInt64
  | nil => []
  | call entry _ inner rest => entry :: (inner.entries ++ rest.entries)

/-- The reports there are to be: one at the return of each outermost traced call. -/
def outermost (syms : UInt64 → Option Symbol) : Calls → List (List Symbol)
  | nil => []
  | call entry _ inner rest =>
    match syms entry with
    | some sym => [] :: (inner.events.map (fun _ => []) ++ [sym] :: rest.outermost syms)
    | none => [] :: (inner.outermost syms ++ [] :: rest.outermost syms)

/-- The return addresses of the outermost traced calls, besides those given. -/
def plant (syms : UInt64 → Option Symbol) (planted : List UInt64) : Calls → List UInt64
  | nil => planted
  | call entry ret inner rest =>
    match syms entry with
    | some _ => rest.plant syms (ret :: planted)
    | none => rest.plant syms (inner.plant syms planted)

end Calls

/-- The return addresses whose breakpoints are hit while the call that returns to `ret` is pending:
in hardware only its own. -/
def endsCall (opts : HitOptions) (planted : List UInt64) (ret addr : UInt64) : Prop :=
  if opts.nohwbp then addr ∈ planted else addr = ret

/-- No call made in an outermost traced one returns to where that one is expected, given the return
addresses that have breakpoints already. -/
def Calls.Unambiguous (opts : HitOptions) (syms : UInt64 → Option Symbol) :
    List UInt64 → Calls → Prop
  | _, nil => True
  | planted, call entry ret inner rest =>
    match syms entry with
    | some _ => (∀ addr ∈ inner.rets, ¬ endsCall opts (ret :: planted) ret addr) ∧
        rest.Unambiguous opts syms (ret :: planted)
    | none => inner.Unambiguous opts syms planted ∧
        rest.Unambiguous opts syms (inner.plant syms planted)

/-- A return address is behind a call, and not where a function begins. -/
def Calls.WellPlaced (syms : UInt64 → Option Symbol) (calls : Calls) : Prop :=
  ∀ ret ∈ calls.rets, ret ≠ 0 ∧ ret ∉ calls.entries ∧ syms ret = none

/-- The breakpoint at the entry of a function. -/
def entryBp (opts : HitOptions) (addr : UInt64) (sym : Symbol) : HitBp :=
  ⟨addr, if opts.nohwbp then .sw else .auto, false, some sym, false⟩

/-- The server before the thread runs: breakpoints on the traced functions only. -/
def CallState.start (opts : HitOptions) (syms : UInt64 → Option Symbol) : CallState :=
  (fun addr => (syms addr).map (entryBp opts addr), ⟨none, none, none⟩)

/-! ## Arriving at an address -/

/-- A return breakpoint. -/
def returnBp (opts : HitOptions) (addr : UInt64) : HitBp :=
  ⟨addr, if opts.nohwbp then .sw else .hwScratch, false, none, true⟩

def HitTask.idle : HitTask := ⟨none, none, none⟩

def HitTask.pending (opts : HitOptions) (ret : UInt64) (sym : Symbol) : HitTask :=
  ⟨some ret, some sym, if opts.nohwbp then none else some ret⟩

/-- The breakpoints are on the traced functions and on the addresses `planted`. -/
def Planted (opts : HitOptions) (syms : UInt64 → Option Symbol) (planted : List UInt64)
    (bps : BpDict) : Prop :=
  ∀ addr, bps addr =
    if addr ∈ planted then some (returnBp opts addr) else (syms addr).map (entryBp opts addr)

section Arrive

variable {opts : HitOptions} {syms : UInt64 → Option Symbol} {planted : List UInt64} {bps : BpDict}
  {addr ret : UInt64} {sym : Symbol}

theorem entryBp_not_scratch : (entryBp opts addr sym).type ≠ .hwScratch := by
  show (if opts.nohwbp then BpType.sw else .auto) ≠ .hwScratch
  split <;> exact fun h => by cases h

theorem arrive_elsewhere {t : HitTask} {ra : UInt64} (h : bps addr = none) :
    arrive opts (bps, t) addr ra = .ok ((bps, t), []) := by
  unfold arrive
  dsimp only
  rw [h]

/-- The return breakpoint of a call, new or from before. -/
theorem insertReturnBp_callAfter (hp : Planted opts syms planted bps) (hret : ret ≠ 0)
    (hplace : syms ret = none) :
    ∃ bp, insertReturnBp opts bps ret = some bp ∧
      ({ bp with callAfter := true } : HitBp) = returnBp opts ret := by
  unfold insertReturnBp
  rw [if_neg hret, hp, hplace]
  by_cases h : ret ∈ planted
  · rw [if_pos h]
    exact ⟨_, rfl, rfl⟩
  · rw [if_neg h]
    exact ⟨_, rfl, rfl⟩

theorem handleEntry_idle (hcpp : opts.nocpp = false) (hp : Planted opts syms planted bps)
    (hret : ret ≠ 0) (hplace : syms ret = none) (sym : Symbol) :
    handleEntry opts bps .idle sym ret =
      (Function.update bps ret (some (returnBp opts ret)), .pending opts ret sym) := by
  obtain ⟨bp, hins, hbp⟩ := insertReturnBp_callAfter hp hret hplace
  unfold handleEntry
  rw [hcpp, Bool.not_false, Bool.or_true, if_pos rfl, hins]
  dsimp only
  rw [hbp]
  unfold enableScratchHwBp returnBp HitTask.pending HitTask.idle
  cases opts.nohwbp <;> rfl

theorem Planted.entry (hp : Planted opts syms planted bps) (hsym : syms addr = some sym)
    (haddr : addr ∉ planted) : bps addr = some (entryBp opts addr sym) := by
  rw [hp, if_neg haddr, hsym]
  rfl

theorem arrive_entry {t : HitTask} {ra : UInt64} (h : bps addr = some (entryBp opts addr sym)) :
    arrive opts (bps, t) addr ra =
      handleBreakpoint opts bps t (entryBp opts addr sym) ra >>= fun r =>
        .ok ((r.1, r.2.1), reportOuts r.2.2) := by
  unfold arrive
  dsimp only
  rw [h]
  dsimp only
  rw [if_neg fun h => entryBp_not_scratch h.1]
  rfl

/-- A call of a traced function while none is pending. -/
theorem arrive_entry_idle (hcpp : opts.nocpp = false) (hp : Planted opts syms planted bps)
    (hsym : syms addr = some sym) (haddr : addr ∉ planted) (hret : ret ≠ 0)
    (hplace : syms ret = none) :
    ∃ bps', arrive opts (bps, .idle) addr ret = .ok ((bps', .pending opts ret sym), []) ∧
      Planted opts syms (ret :: planted) bps' := by
  refine ⟨Function.update bps ret (some (returnBp opts ret)), ?_, ?_⟩
  · have hhit : handleBreakpoint opts bps .idle (entryBp opts addr sym) ret =
        .ok ((handleEntry opts bps .idle sym ret).1, (handleEntry opts bps .idle sym ret).2,
          [.reportIn sym]) := rfl
    rw [arrive_entry (hp.entry hsym haddr), hhit, handleEntry_idle hcpp hp hret hplace]
    rfl
  · intro a
    by_cases ha : a = ret
    · rw [ha, Function.update_self, if_pos List.mem_cons_self]
    · rw [Function.update_of_ne ha, hp]
      simp only [List.mem_cons, ha, false_or]

/-- A call of a traced function in a pending one is ignored. -/
theorem arrive_entry_pending {ra p : UInt64} {sym' : Symbol} (hp : Planted opts syms planted bps)
    (hsym : syms addr = some sym) (haddr : addr ∉ planted) :
    arrive opts (bps, .pending opts p sym') addr ra = .ok ((bps, .pending opts p sym'), []) := by
  rw [arrive_entry (hp.entry hsym haddr)]
  rfl

theorem Planted.elsewhere (hp : Planted opts syms planted bps) (hplace : syms addr = none)
    (haddr : addr ∉ planted) : bps addr = none := by
  rw [hp, if_neg haddr, hplace]
  rfl

theorem Planted.return (hp : Planted opts syms planted bps) (haddr : addr ∈ planted) :
    bps addr = some (returnBp opts addr) := by
  rw [hp, if_pos haddr]

/-- No call is pending: nothing ends. -/
theorem arrive_return_idle {ra : UInt64} (hp : Planted opts syms planted bps)
    (hplace : syms addr = none) :
    arrive opts (bps, .idle) addr ra = .ok ((bps, .idle), []) := by
  by_cases haddr : addr ∈ planted
  · unfold arrive
    dsimp only
    rw [hp.return haddr]
    dsimp only
    split <;> rfl
  · exact arrive_elsewhere (hp.elsewhere hplace haddr)

/-- The breakpoint of a return that ends the pending call. -/
theorem arrive_return_ends {ra p : UInt64} (hp : Planted opts syms planted bps)
    (hmem : p ∈ planted) (hends : endsCall opts planted p addr) :
    arrive opts (bps, .pending opts p sym) addr ra = .ok ((bps, .idle), [sym]) := by
  unfold endsCall at hends
  unfold arrive HitTask.pending
  dsimp only
  cases hno : opts.nohwbp with
  | true =>
    rw [hno, if_pos rfl] at hends
    rw [hp.return hends]
    unfold returnBp
    rw [hno]
    rfl
  | false =>
    rw [hno] at hends
    obtain rfl : addr = p := hends
    rw [hp.return hmem]
    unfold returnBp
    rw [hno]
    dsimp only
    rw [if_neg fun h => h.2 rfl]
    -- the scratch slot holds this breakpoint
    have hscratch : disableScratchHwBp ⟨some addr, some sym, some addr⟩
        ⟨addr, .hwScratch, false, none, true⟩ = .ok ⟨some addr, some sym, none⟩ := by
      unfold disableScratchHwBp
      dsimp only
      rw [beq_self_eq_true]
      rfl
    unfold handleBreakpoint handleCallAfter
    simp only [Bool.false_eq_true, if_false, if_true]
    rw [hscratch]
    rfl

theorem arrive_return_other {ra p : UInt64} (hp : Planted opts syms planted bps)
    (hplace : syms addr = none) (hends : ¬ endsCall opts planted p addr) :
    arrive opts (bps, .pending opts p sym) addr ra =
      .ok ((bps, .pending opts p sym), []) := by
  by_cases haddr : addr ∈ planted
  · unfold endsCall at hends
    cases hno : opts.nohwbp with
    | true =>
      rw [hno, if_pos rfl] at hends
      exact absurd haddr hends
    | false =>
      rw [hno] at hends
      have hne : addr ≠ p := hends
      unfold arrive HitTask.pending
      dsimp only
      rw [hp.return haddr]
      unfold returnBp
      rw [hno]
      dsimp only
      rw [if_pos ⟨rfl, fun h => hne (Option.some.inj h).symm⟩]
  · exact arrive_elsewhere (hp.elsewhere hplace haddr)

end Arrive

/-! ## Runs -/

section Run

variable {opts : HitOptions}

theorem callRun_cons_eq_ok {s s' : CallState} {e : CallEvent} {es : List CallEvent}
    {outs : List (List Symbol)} : callRun opts s (e :: es) = .ok (s', outs) ↔
      ∃ s1 out rest, callStep opts s e = .ok (s1, out) ∧ callRun opts s1 es = .ok (s', rest) ∧
        outs = out :: rest := by
  rw [callRun, Machine.bind_eq_ok]
  constructor
  · rintro ⟨⟨s1, out⟩, h1, h⟩
    obtain ⟨⟨s2, rest⟩, h2, h⟩ := Machine.bind_eq_ok.mp h
    cases h
    exact ⟨s1, out, rest, h1, h2, rfl⟩
  · rintro ⟨s1, out, rest, h1, h2, rfl⟩
    exact ⟨(s1, out), h1, Machine.bind_eq_ok.mpr ⟨(s', rest), h2, rfl⟩⟩

theorem callRun_append_eq_ok {s s' : CallState} {es es' : List CallEvent}
    {outs : List (List Symbol)} : callRun opts s (es ++ es') = .ok (s', outs) ↔
      ∃ s1 outs1 outs2, callRun opts s es = .ok (s1, outs1) ∧
        callRun opts s1 es' = .ok (s', outs2) ∧ outs = outs1 ++ outs2 := by
  induction es generalizing s outs with
  | nil =>
    constructor
    · exact fun h => ⟨s, [], outs, rfl, h, rfl⟩
    · rintro ⟨s1, outs1, outs2, h1, h2, rfl⟩
      cases h1
      exact h2
  | cons e es ih =>
    rw [List.cons_append, callRun_cons_eq_ok]
    constructor
    · rintro ⟨s1, out, rest, h1, h2, rfl⟩
      obtain ⟨s2, outs1, outs2, h3, h4, rfl⟩ := ih.mp h2
      exact ⟨s2, out :: outs1, outs2, callRun_cons_eq_ok.mpr ⟨s1, out, outs1, h1, h3, rfl⟩, h4, rfl⟩
    · rintro ⟨s2, outs1, outs2, h1, h2, rfl⟩
      obtain ⟨s1, out, rest, h3, h4, rfl⟩ := callRun_cons_eq_ok.mp h1
      exact ⟨s1, out, rest ++ outs2, h3, ih.mpr ⟨s2, rest, outs2, h4, h2, rfl⟩, rfl⟩

theorem callRun_length {s s' : CallState} {es : List CallEvent} {outs : List (List Symbol)}
    (h : callRun opts s es = .ok (s', outs)) : outs.length = es.length := by
  induction es generalizing s outs with
  | nil =>
    cases h
    rfl
  | cons e es ih =>
    obtain ⟨s1, out, rest, -, h2, rfl⟩ := callRun_cons_eq_ok.mp h
    rw [List.length_cons, List.length_cons, ih h2]

namespace Calls

theorem length_outermost (syms : UInt64 → Option Symbol) (calls : Calls) :
    (calls.outermost syms).length = calls.events.length := by
  induction calls with
  | nil => rfl
  | call entry ret inner rest ihi ihr =>
    rw [events, outermost]
    cases syms entry with
    | some sym =>
      simp only [List.length_cons, List.length_append, List.length_map, ihr]
    | none => simp only [List.length_cons, List.length_append, ihi, ihr]

theorem leave_mem_events {calls : Calls} {ret : UInt64} :
    CallEvent.leave ret ∈ calls.events ↔ ret ∈ calls.rets := by
  induction calls with
  | nil => exact ⟨fun h => (by cases h), fun h => (by cases h)⟩
  | call entry r inner rest ihi ihr =>
    simp only [events, rets, List.mem_cons, List.mem_append, reduceCtorEq, false_or, ihi, ihr,
      CallEvent.leave.injEq]
    tauto

theorem mem_entries {calls : Calls} {entry ret : UInt64}
    (h : CallEvent.enter entry ret ∈ calls.events) : entry ∈ calls.entries := by
  induction calls with
  | nil => cases h
  | call e r inner rest ihi ihr =>
    simp only [events, List.mem_cons, List.mem_append, reduceCtorEq, false_or,
      CallEvent.enter.injEq] at h
    unfold entries
    rw [List.mem_cons, List.mem_append]
    rcases h with ⟨rfl, -⟩ | h | h
    · exact .inl rfl
    · exact .inr (.inl (ihi h))
    · exact .inr (.inr (ihr h))

end Calls

end Run

/-- Where the code of the program returns to (`R`) and where its functions begin (`E`). -/
structure Apart (syms : UInt64 → Option Symbol) (R E : UInt64 → Prop) : Prop where
  ne_zero : ∀ ret, R ret → ret ≠ 0
  apart : ∀ ret, R ret → ¬ E ret
  untraced : ∀ ret, R ret → syms ret = none

section Pending

variable {opts : HitOptions} {syms : UInt64 → Option Symbol} {planted : List UInt64} {bps : BpDict}
  {p : UInt64} {R E : UInt64 → Prop}

/-- One step of a thread in a pending call. -/
theorem callStep_pending (sym : Symbol) (ha : Apart syms R E) (hp : Planted opts syms planted bps)
    (hmem : p ∈ planted) (hR : ∀ addr ∈ planted, R addr) :
    (∀ entry ret, E entry → callStep opts (bps, .pending opts p sym) (.enter entry ret) =
      .ok ((bps, .pending opts p sym), [])) ∧
    (∀ ret, R ret → ¬ endsCall opts planted p ret →
      callStep opts (bps, .pending opts p sym) (.leave ret) =
        .ok ((bps, .pending opts p sym), [])) ∧
    ∀ ret, endsCall opts planted p ret →
      callStep opts (bps, .pending opts p sym) (.leave ret) = .ok ((bps, .idle), [sym]) := by
  refine ⟨fun entry ret hentry => ?_, fun ret hret hends => ?_, fun ret hends => ?_⟩
  · have hnot : entry ∉ planted := fun h => ha.apart entry (hR entry h) hentry
    cases hsym : syms entry with
    | none => exact arrive_elsewhere (hp.elsewhere hsym hnot)
    | some sym' => exact arrive_entry_pending hp hsym hnot
  · exact arrive_return_other hp (ha.untraced ret hret) hends
  · exact arrive_return_ends hp hmem hends

/-- In a pending call nothing is reported as long as no return ends it. -/
theorem callRun_pending (sym : Symbol) (ha : Apart syms R E) (hp : Planted opts syms planted bps)
    (hmem : p ∈ planted) (hR : ∀ addr ∈ planted, R addr) (es : List CallEvent)
    (hE : ∀ entry ret, .enter entry ret ∈ es → E entry) (hleave : ∀ ret, .leave ret ∈ es → R ret)
    (hends : ∀ ret, .leave ret ∈ es → ¬ endsCall opts planted p ret) :
    callRun opts (bps, .pending opts p sym) es =
      .ok ((bps, .pending opts p sym), es.map fun _ => []) := by
  obtain ⟨henter, hother, -⟩ := callStep_pending sym ha hp hmem hR
  induction es with
  | nil => rfl
  | cons e es ih =>
    refine callRun_cons_eq_ok.mpr ⟨(bps, .pending opts p sym), [], es.map fun _ => [], ?_, ?_, rfl⟩
    · cases e with
      | enter entry ret => exact henter entry ret (hE entry ret List.mem_cons_self)
      | leave ret => exact hother ret (hleave ret List.mem_cons_self) (hends ret List.mem_cons_self)
    · exact ih (fun entry ret h => hE entry ret (List.mem_cons_of_mem e h))
        (fun ret h => hleave ret (List.mem_cons_of_mem e h))
        (fun ret h => hends ret (List.mem_cons_of_mem e h))

/-- A return that ends the pending call is reported. -/
theorem callRun_pending_reports {sym : Symbol} (ha : Apart syms R E)
    (hp : Planted opts syms planted bps)
    (hmem : p ∈ planted) (hR : ∀ addr ∈ planted, R addr) (es : List CallEvent)
    (hE : ∀ entry ret, .enter entry ret ∈ es → E entry) (hleave : ∀ ret, .leave ret ∈ es → R ret)
    {s' : CallState}
    (h : callRun opts (bps, .pending opts p sym) es = .ok (s', es.map fun _ => [])) :
    ∀ ret, .leave ret ∈ es → ¬ endsCall opts planted p ret := by
  obtain ⟨henter, hother, hreport⟩ := callStep_pending sym ha hp hmem hR
  induction es with
  | nil => exact fun ret h => (by cases h)
  | cons e es ih =>
    obtain ⟨s1, out, rest, h1, h2, heq⟩ := callRun_cons_eq_ok.mp h
    obtain ⟨rfl, rfl⟩ := List.cons.inj heq
    have hnext : callRun opts (bps, .pending opts p sym) es = .ok (s', es.map fun _ => []) →
        ∀ ret, .leave ret ∈ es → ¬ endsCall opts planted p ret :=
      ih (fun entry ret h => hE entry ret (List.mem_cons_of_mem e h))
        (fun ret h => hleave ret (List.mem_cons_of_mem e h))
    cases e with
    | enter entry ret =>
      rw [henter entry ret (hE entry ret List.mem_cons_self)] at h1
      cases h1
      intro r hr
      rcases List.mem_cons.mp hr with hr | hr
      · cases hr
      · exact hnext h2 r hr
    | leave ret =>
      by_cases hends : endsCall opts planted p ret
      · rw [hreport ret hends] at h1
        cases h1
      · rw [hother ret (hleave ret List.mem_cons_self) hends] at h1
        cases h1
        intro r hr
        rcases List.mem_cons.mp hr with hr | hr
        · cases hr
          exact hends
        · exact hnext h2 r hr

end Pending

/-! ## The result -/

section Result

variable {opts : HitOptions} {syms : UInt64 → Option Symbol} {planted : List UInt64} {bps : BpDict}
  {R E : UInt64 → Prop}

/-- The addresses of some calls are those of the program. -/
structure Calls.Within (R E : UInt64 → Prop) (calls : Calls) : Prop where
  rets : ∀ ret ∈ calls.rets, R ret
  entries : ∀ entry ∈ calls.entries, E entry

theorem Calls.Within.head {entry ret : UInt64} {inner rest : Calls}
    (h : (call entry ret inner rest).Within R E) : R ret ∧ E entry :=
  ⟨h.rets ret List.mem_cons_self, h.entries entry List.mem_cons_self⟩

theorem Calls.Within.inner {entry ret : UInt64} {inner rest : Calls}
    (h : (call entry ret inner rest).Within R E) : inner.Within R E where
  rets := fun r hr => h.rets r (List.mem_cons_of_mem ret (List.mem_append_left _ hr))
  entries := fun e he => h.entries e (List.mem_cons_of_mem entry (List.mem_append_left _ he))

theorem Calls.Within.rest {entry ret : UInt64} {inner rest : Calls}
    (h : (call entry ret inner rest).Within R E) : rest.Within R E where
  rets := fun r hr => h.rets r (List.mem_cons_of_mem ret (List.mem_append_right _ hr))
  entries := fun e he => h.entries e (List.mem_cons_of_mem entry (List.mem_append_right _ he))

theorem Calls.Within.leave {calls : Calls} (h : calls.Within R E) (ret : UInt64)
    (hmem : .leave ret ∈ calls.events) : R ret := h.rets ret (leave_mem_events.mp hmem)

theorem Calls.Within.enter {calls : Calls} (h : calls.Within R E) (entry ret : UInt64)
    (hmem : .enter entry ret ∈ calls.events) : E entry := h.entries entry (mem_entries hmem)

theorem Calls.Within.plant {calls : Calls} (h : calls.Within R E) (syms : UInt64 → Option Symbol)
    (hR : ∀ addr ∈ planted, R addr) :
    ∀ addr ∈ calls.plant syms planted, R addr := by
  induction calls generalizing planted with
  | nil => exact hR
  | call entry ret inner rest ihi ihr =>
    rw [Calls.plant]
    cases syms entry with
    | some sym => exact ihr h.rest (List.forall_mem_cons.mpr ⟨h.head.1, hR⟩)
    | none => exact ihr h.rest (ihi h.inner hR)

theorem endsCall_self {ret : UInt64} : endsCall opts (ret :: planted) ret ret := by
  unfold endsCall
  split
  · exact List.mem_cons_self
  · rfl

/-- A call of a function that is not traced, or a return to a thread without a pending call. -/
theorem callStep_idle (ha : Apart syms R E) (hp : Planted opts syms planted bps)
    (hR : ∀ addr ∈ planted, R addr) :
    (∀ entry ret, E entry → syms entry = none →
      callStep opts (bps, .idle) (.enter entry ret) = .ok ((bps, .idle), [])) ∧
    ∀ ret, R ret → callStep opts (bps, .idle) (.leave ret) = .ok ((bps, .idle), []) := by
  refine ⟨fun entry ret hentry hsym => ?_, fun ret hret => ?_⟩
  · exact arrive_elsewhere
      (hp.elsewhere hsym fun h => ha.apart entry (hR entry h) hentry)
  · exact arrive_return_idle hp (ha.untraced ret hret)

/-- Calls that are unambiguous are reported as they are to be. -/
theorem callRun_of_unambiguous (hcpp : opts.nocpp = false) (ha : Apart syms R E) (calls : Calls)
    (hw : calls.Within R E) (hp : Planted opts syms planted bps) (hR : ∀ addr ∈ planted, R addr)
    (hu : calls.Unambiguous opts syms planted) :
    ∃ bps', callRun opts (bps, .idle) calls.events =
        .ok ((bps', .idle), calls.outermost syms) ∧
      Planted opts syms (calls.plant syms planted) bps' := by
  induction calls generalizing planted bps with
  | nil => exact ⟨bps, rfl, hp⟩
  | call entry ret inner rest ihi ihr =>
    obtain ⟨hret, hentry⟩ := hw.head
    rw [Calls.Unambiguous] at hu
    rw [Calls.events, Calls.outermost, Calls.plant]
    cases hsym : syms entry with
    | some sym =>
      rw [hsym] at hu
      obtain ⟨hends, hu⟩ := hu
      obtain ⟨bps1, henter, hp1⟩ := arrive_entry_idle hcpp hp hsym
        (fun h => ha.apart entry (hR entry h) hentry) (ha.ne_zero ret hret) (ha.untraced ret hret)
      have hR1 := List.forall_mem_cons.mpr ⟨hret, hR⟩
      have hinner := callRun_pending sym ha hp1 List.mem_cons_self hR1 inner.events
        hw.inner.enter hw.inner.leave
        fun r hr => hends r (Calls.leave_mem_events.mp hr)
      obtain ⟨-, -, hleave⟩ := callStep_pending sym ha hp1 List.mem_cons_self hR1
      obtain ⟨bps2, hrest, hp2⟩ := ihr hw.rest hp1 hR1 hu
      refine ⟨bps2, callRun_cons_eq_ok.mpr ⟨_, _, _, henter, ?_, rfl⟩, hp2⟩
      refine callRun_append_eq_ok.mpr ⟨_, _, _, hinner, ?_, rfl⟩
      exact callRun_cons_eq_ok.mpr ⟨_, _, _, hleave ret endsCall_self, hrest, rfl⟩
    | none =>
      rw [hsym] at hu
      obtain ⟨hui, hur⟩ := hu
      obtain ⟨hskip, -⟩ := callStep_idle ha hp hR
      obtain ⟨bps1, hinner, hp1⟩ := ihi hw.inner hp hR hui
      have hR1 := hw.inner.plant syms hR
      obtain ⟨-, hback⟩ := callStep_idle ha hp1 hR1
      obtain ⟨bps2, hrest, hp2⟩ := ihr hw.rest hp1 hR1 hur
      refine ⟨bps2, callRun_cons_eq_ok.mpr ⟨_, _, _, hskip entry ret hentry hsym, ?_, rfl⟩, hp2⟩
      refine callRun_append_eq_ok.mpr ⟨_, _, _, hinner, ?_, rfl⟩
      exact callRun_cons_eq_ok.mpr ⟨_, _, _, hback ret hret, hrest, rfl⟩

/-- Calls that are reported as they are to be are unambiguous. -/
theorem unambiguous_of_callRun (hcpp : opts.nocpp = false) (ha : Apart syms R E) (calls : Calls)
    (hw : calls.Within R E) (hp : Planted opts syms planted bps) (hR : ∀ addr ∈ planted, R addr)
    {s' : CallState}
    (h : callRun opts (bps, .idle) calls.events = .ok (s', calls.outermost syms)) :
    calls.Unambiguous opts syms planted := by
  induction calls generalizing planted bps s' with
  | nil => exact trivial
  | call entry ret inner rest ihi ihr =>
    obtain ⟨hret, hentry⟩ := hw.head
    rw [Calls.events, Calls.outermost] at h
    rw [Calls.Unambiguous]
    cases hsym : syms entry with
    | some sym =>
      rw [hsym] at h
      obtain ⟨bps1, henter, hp1⟩ := arrive_entry_idle hcpp hp hsym
        (fun h => ha.apart entry (hR entry h) hentry) (ha.ne_zero ret hret) (ha.untraced ret hret)
      have hR1 := List.forall_mem_cons.mpr ⟨hret, hR⟩
      obtain ⟨s1, out, outs, h1, h2, heq⟩ := callRun_cons_eq_ok.mp h
      cases henter.symm.trans h1
      obtain ⟨-, rfl⟩ := List.cons.inj heq
      obtain ⟨s2, outs1, outs2, h3, h4, heq⟩ := callRun_append_eq_ok.mp h2
      obtain ⟨rfl, rfl⟩ := List.append_inj heq
        (by rw [callRun_length h3, List.length_map])
      have hends := callRun_pending_reports ha hp1 List.mem_cons_self hR1 inner.events
        hw.inner.enter hw.inner.leave h3
      refine ⟨fun r hr => hends r (Calls.leave_mem_events.mpr hr), ?_⟩
      have hinner := callRun_pending sym ha hp1 List.mem_cons_self hR1 inner.events
        hw.inner.enter hw.inner.leave hends
      cases hinner.symm.trans h3
      obtain ⟨s3, out, rest', h5, h6, heq⟩ := callRun_cons_eq_ok.mp h4
      obtain ⟨rfl, rfl⟩ := List.cons.inj heq
      obtain ⟨-, -, hleave⟩ := callStep_pending sym ha hp1 List.mem_cons_self hR1
      cases (hleave ret endsCall_self).symm.trans h5
      exact ihr hw.rest hp1 hR1 h6
    | none =>
      rw [hsym] at h
      obtain ⟨hskip, -⟩ := callStep_idle ha hp hR
      obtain ⟨s1, out, outs, h1, h2, heq⟩ := callRun_cons_eq_ok.mp h
      cases (hskip entry ret hentry hsym).symm.trans h1
      obtain ⟨-, rfl⟩ := List.cons.inj heq
      obtain ⟨s2, outs1, outs2, h3, h4, heq⟩ := callRun_append_eq_ok.mp h2
      obtain ⟨rfl, rfl⟩ := List.append_inj heq
        (by rw [callRun_length h3, Calls.length_outermost])
      have hui := ihi hw.inner hp hR h3
      refine ⟨hui, ?_⟩
      obtain ⟨bps1, hinner, hp1⟩ := callRun_of_unambiguous hcpp ha inner hw.inner hp hR hui
      cases hinner.symm.trans h3
      have hR1 := hw.inner.plant syms hR
      obtain ⟨-, hback⟩ := callStep_idle ha hp1 hR1
      obtain ⟨s3, out, rest', h5, h6, heq⟩ := callRun_cons_eq_ok.mp h4
      obtain ⟨rfl, rfl⟩ := List.cons.inj heq
      cases (hback ret hret).symm.trans h5
      exact ihr hw.rest hp1 hR1 h6

end Result

/-- With C++ tracing on, `report_out` is called for the outermost traced calls, each at its own
return, exactly when no call made in one of them returns to the address it is to return to, or, with
breakpoints in the text only, to one of an earlier outermost traced call. -/
theorem reports_iff_unambiguous (opts : HitOptions) (hcpp : opts.nocpp = false)
    (syms : UInt64 → Option Symbol) (calls : Calls) (hw : calls.WellPlaced syms) :
    (∃ s', callRun opts (.start opts syms) calls.events = .ok (s', calls.outermost syms)) ↔
      calls.Unambiguous opts syms [] := by
  have ha : Apart syms (· ∈ calls.rets) (· ∈ calls.entries) :=
    ⟨fun ret h => (hw ret h).1, fun ret h => (hw ret h).2.1, fun ret h => (hw ret h).2.2⟩
  have hwithin : calls.Within (· ∈ calls.rets) (· ∈ calls.entries) :=
    ⟨fun _ h => h, fun _ h => h⟩
  have hp : Planted opts syms [] (CallState.start opts syms).1 :=
    fun addr => (if_neg List.not_mem_nil).symm
  have hR : ∀ addr ∈ ([] : List UInt64), addr ∈ calls.rets := fun addr h => (by cases h)
  constructor
  · rintro ⟨s', h⟩
    exact unambiguous_of_callRun hcpp ha calls hwithin hp hR h
  · intro hu
    obtain ⟨bps', h, -⟩ := callRun_of_unambiguous hcpp ha calls hwithin hp hR hu
    exact ⟨_, h⟩

/-- `malloc` at one address. -/
def mallocOnly (addr : UInt64) : Option Symbol :=
  if addr = 0x1000 then some ⟨⟨0x1000⟩, ⟨"malloc", none, reportMallocOut⟩⟩ else none

/-- A call of `malloc` from `0x2000`, in which another function calls `malloc` from `ret`. -/
def mallocInMalloc (ret : UInt64) : Calls :=
  .call 0x1000 0x2000 (.call 0x3000 0x1500 (.call 0x1000 ret .nil .nil) .nil) .nil

theorem reports_iff_unambiguous_malloc :
    ∃ s', callRun ⟨false, false⟩ (.start ⟨false, false⟩ mallocOnly) (mallocInMalloc 0x4000).events =
      .ok (s', (mallocInMalloc 0x4000).outermost mallocOnly) := by
  refine (reports_iff_unambiguous ⟨false, false⟩ rfl mallocOnly (mallocInMalloc 0x4000) ?_).mpr ?_
  · have hrets : (mallocInMalloc 0x4000).rets = [0x2000, 0x1500, 0x4000] := rfl
    have hentries : (mallocInMalloc 0x4000).entries = [0x1000, 0x3000, 0x1000] := rfl
    unfold Calls.WellPlaced
    rw [hrets, hentries]
    simp [mallocOnly]
  · simp [mallocInMalloc, mallocOnly, Calls.Unambiguous, Calls.rets, endsCall]

/-- The call site that the outer call came from is used again in it: the report comes at the return
of the inner call. -/
theorem shared_call_site_reported_early :
    (∃ s', callRun ⟨false, false⟩ (.start ⟨false, false⟩ mallocOnly)
        (mallocInMalloc 0x2000).events =
      .ok (s', [[], [], [], [⟨⟨0x1000⟩, ⟨"malloc", none, reportMallocOut⟩⟩], [], []])) ∧
    (mallocInMalloc 0x2000).outermost mallocOnly =
      [[], [], [], [], [], [⟨⟨0x1000⟩, ⟨"malloc", none, reportMallocOut⟩⟩]] :=
  ⟨⟨_, rfl⟩, rfl⟩

end Mtrace.Server
