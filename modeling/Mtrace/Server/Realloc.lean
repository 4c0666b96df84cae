import Mtrace.Server.Hits

/-!
# The realloc state of a task

A call of `realloc` is reported twice, when it is entered and when it is done, and `in_realloc` of
the task says that it is in between.  The pending call is also in the return breakpoint of the task,
which `stop_trace` resets: when a client stops a process, and for all processes when it goes.
-/

namespace Mtrace.Server

/-- A task with its leader; `call` numbers its last call. -/
structure Thread where
  leader : ℕ
  hit : HitTask
  report : Task
  call : ℕ

/-- The server: the dictionary of each leader and the tasks.  The calls are numbered from `next` on;
`log` is what was sent, in order, with the call it was about. -/
structure Session where
  bps : ℕ → BpDict
  thread : ℕ → Thread
  connected : Bool
  next : ℕ
  log : List (ℕ × Message)

/-- What the server gets to handle.  A hit comes with the return address, the arguments and the rest
of the state of the task. -/
inductive SessionEvent where
  | hit (i : ℕ) (addr ra : UInt64) (args : Context) (now : Return)
  /-- `MT_STOP`. -/
  | stop (leader : ℕ)
  /-- `MT_START`. -/
  | start (leader : ℕ)
  | disconnect
  | connect

/-- `task_reset_bp`, after `breakpoint_disable_all_nonlocked` has emptied the scratch slot. -/
def Thread.resetBp (bps : BpDict) (t : Thread) : Thread :=
  { t with hit := { t.hit with
      breakpoint := none
      scratch := t.hit.scratch.filter fun addr =>
        !(bps addr).any fun bp => bp.type = .hwScratch } }

namespace Session

def stopTrace (s : Session) (leader : ℕ) : Session :=
  { s with thread := fun i =>
      if (s.thread i).leader = leader then (s.thread i).resetBp (s.bps leader) else s.thread i }

/-- `server_close`, which stops each process. -/
def serverClose (s : Session) : Session :=
  if s.connected then
    { s with
      connected := false
      thread := fun i => (s.thread i).resetBp (s.bps (s.thread i).leader) }
  else s

def setThread (s : Session) (i : ℕ) (t : Thread) : Session :=
  { s with thread := Function.update s.thread i t }

/-- `server_send_msg`: without a client nothing is sent. -/
def send (s : Session) (call : ℕ) (ms : List Message) : Session :=
  if s.connected then { s with log := s.log ++ ms.map fun m => (call, m) } else s

/-- A reporter of the task is called; `save_param_context` has saved the context of a call that is
entered. -/
def invoke (cfg : Config) (i : ℕ) (args : Context) (s : Session) :
    Invocation → Except String Session
  | .reportOut sym => do
    let t := s.thread i
    let (report, ms) ← reportBy sym.func.reportOut cfg sym.libsym t.report
    return (s.setThread i { t with report }).send t.call ms
  | .reportIn sym => do
    let t := s.thread i
    let (report, ms) ← reportBy sym.func.reportIn cfg sym.libsym { t.report with saved := args }
    return ({ s with next := s.next + 1 }.setThread i
      { t with report, call := s.next }).send s.next ms

/-- What `handle_breakpoint` makes of the dictionary and the task. -/
def setHit (s : Session) (i : ℕ) (bps : BpDict) (hit : HitTask) (now : Return) : Session :=
  let t := s.thread i
  { s with bps := Function.update s.bps t.leader bps }.setThread i
    { t with hit, report := t.report.returns now }

/-- `handle_breakpoint` for the breakpoint at an address. -/
def hit (opts : HitOptions) (cfg : Config) (s : Session) (i : ℕ) (addr ra : UInt64)
    (args : Context) (now : Return) : Except String Session :=
  let t := s.thread i
  match s.bps t.leader addr with
  | none => .ok s
  | some bp => do
    let (bps, hit, invocations) ← handleBreakpoint opts (s.bps t.leader) t.hit bp ra
    invocations.foldlM (invoke cfg i args) (s.setHit i bps hit now)

def step (opts : HitOptions) (cfg : Config) (s : Session) : SessionEvent → Except String Session
  | .hit i addr ra args now => s.hit opts cfg i addr ra args now
  | .stop leader => .ok (s.stopTrace leader)
  | .start _ => .ok s
  | .disconnect => .ok s.serverClose
  | .connect => .ok { s with connected := true }

/-- The server when it has started to trace: breakpoints on functions of the table, and no calls. -/
structure Fresh (s : Session) : Prop where
  funcs : ∀ leader addr bp sym, s.bps leader addr = some bp → bp.libsym = some sym →
    sym.func ∈ flist
  idle : ∀ i, (s.thread i).hit.breakpoint = none
  inRealloc : ∀ i, (s.thread i).report.inRealloc = false
  log : s.log = []

/-- The task gets to a call of `realloc` when none is pending, or when the pending one ends
there. -/
def EntersRealloc (s : Session) (i : ℕ) (addr : UInt64) : Prop :=
  ∃ bp sym, s.bps (s.thread i).leader addr = some bp ∧ bp.libsym = some sym ∧
    sym.func.name = "realloc" ∧ ((s.thread i).hit.breakpoint = none ∨ bp.callAfter = true)

/-- The first argument of a call, as the reporter at the entry reads it. -/
def firstArg (s : Session) (i : ℕ) (args : Context) (now : Return) : UInt64 :=
  ({ (s.thread i).report.returns now with saved := args } : Task).param 0

/-- No call of `realloc` is lost sight of: tracing is stopped, and a client gets a connection, only
while no task is in one, and a call that is given memory can be seen to return. -/
def Undisturbed (s : Session) : SessionEvent → Prop
  | .hit i addr ra args now => s.EntersRealloc i addr → s.firstArg i args now ≠ 0 → ra ≠ 0
  | .stop leader => ∀ i, (s.thread i).leader = leader → (s.thread i).report.inRealloc = false
  | .start _ => True
  | .disconnect => s.connected = true → ∀ i, (s.thread i).report.inRealloc = false
  | .connect => s.connected = false → ∀ i, (s.thread i).report.inRealloc = false

end Session

/-! ## What the reporters send -/

/-- A reporter that leaves the task alone and sends nothing about a `realloc` in progress. -/
def Reporter.Plain (g : Reporter) : Prop :=
  ∀ cfg libsym t, ∃ ms, g cfg libsym t = .ok (t, ms) ∧
    ∀ m ∈ ms, m.1 ≠ .reallocEnter ∧ m.1 ≠ .reallocDone

section Reporters

variable {cfg : Config} {libsym : LibrarySymbol} {t : Task} {f : Function}

theorem reportAlloc_op {op : MtOperation} {ptr size : UInt64} {depth : ℕ} {m : Message}
    (h : m ∈ reportAlloc cfg t op ptr size depth libsym) : m.1 = op := by
  unfold reportAlloc reportAllocSized at h
  split at h
  · cases h
  · rw [List.mem_singleton.mp h]

theorem plain_reportAlloc (op : Config → MtOperation)
    (hop : ∀ cfg, op cfg ≠ .reallocEnter ∧ op cfg ≠ .reallocDone)
    (ptr size : Config → Task → UInt64) (depth : Config → ℕ) :
    Reporter.Plain fun cfg libsym t =>
      .ok (t, reportAlloc cfg t (op cfg) (ptr cfg t) (size cfg t) (depth cfg) libsym) :=
  fun cfg _ _ => ⟨_, rfl, fun _ hm => reportAlloc_op hm ▸ hop cfg⟩

/-- A call that failed is not reported. -/
theorem Reporter.Plain.unless {g : Reporter} (hg : g.Plain) (p : Config → Task → Prop)
    [∀ cfg t, Decidable (p cfg t)] :
    Reporter.Plain fun cfg libsym t => if p cfg t then .ok (t, []) else g cfg libsym t := by
  intro cfg libsym t
  by_cases h : p cfg t
  · exact ⟨[], if_pos h, fun m hm => (by cases hm)⟩
  · obtain ⟨ms, hms, hops⟩ := hg cfg libsym t
    exact ⟨ms, (if_neg h).trans hms, hops⟩

/-- The function is `realloc`, or its reporters are plain. -/
def Function.Regular (f : Function) : Prop :=
  f.name = "realloc" ∧ f.reportIn = some reportRealloc ∧ f.reportOut = some reportReallocOut ∨
    f.name ≠ "realloc" ∧ (∀ g, f.reportIn = some g → g.Plain) ∧ ∀ g, f.reportOut = some g → g.Plain

theorem regular_out {name : String} {g : Reporter} (hname : name ≠ "realloc") (hg : g.Plain) :
    Function.Regular ⟨name, none, some g⟩ :=
  .inr ⟨hname, fun _ h => (by cases h), fun _ h => Option.some.inj h ▸ hg⟩

theorem regular_in {name : String} {g : Reporter} (hname : name ≠ "realloc") (hg : g.Plain) :
    Function.Regular ⟨name, some g, none⟩ :=
  .inr ⟨hname, fun _ h => Option.some.inj h ▸ hg, fun _ h => (by cases h)⟩

theorem regular_of_mem (hf : f ∈ flist) : f.Regular := by
  have hop : ∀ op : MtOperation, op ≠ .reallocEnter → op ≠ .reallocDone →
      (reportAllocOp op).Plain :=
    fun op h h' => plain_reportAlloc (fun _ => op) (fun _ => ⟨h, h'⟩) (fun _ t => t.retval)
      (fun _ t => t.param 0) fun cfg => cfg.btDepth
  have hnew : reportNewOut.Plain :=
    plain_reportAlloc (fun cfg => if cfg.sanity then .new else .malloc)
    (fun cfg => by cases cfg.sanity <;> decide) (fun _ t => t.retval)
      (fun _ t => t.param 0) fun cfg =>
      cfg.btDepth
  have hnewArray : reportNewArrayOut.Plain :=
    plain_reportAlloc (fun cfg => if cfg.sanity then .newArray else .malloc)
      (fun cfg => by cases cfg.sanity <;> decide) (fun _ t => t.retval)
        (fun _ t => t.param 0) fun cfg =>
        cfg.btDepth
  have hfreeOp : ∀ op : Config → MtOperation,
      (∀ cfg, op cfg ≠ .reallocEnter ∧ op cfg ≠ .reallocDone) →
      Reporter.Plain fun cfg => reportFreeOp (op cfg) cfg := fun op hop =>
    plain_reportAlloc op hop (fun _ t => t.param 0) (fun _ _ => 0) fun cfg =>
      if cfg.sanity then cfg.btDepth else 0
  have hfree : reportFree.Plain := hfreeOp (fun _ => .free) fun _ => by decide
  have hdelete : reportDelete.Plain :=
    hfreeOp (fun cfg => if cfg.sanity then .delete else .free) fun cfg => by
      cases cfg.sanity <;> decide
  have hdeleteArray : reportDeleteArray.Plain :=
    hfreeOp (fun cfg => if cfg.sanity then .deleteArray else .free) fun cfg => by
      cases cfg.sanity <;> decide
  have hout : ∀ (op : MtOperation), op ≠ .reallocEnter → op ≠ .reallocDone →
      ∀ size : Config → Task → UInt64, Reporter.Plain fun cfg libsym t =>
        .ok (t, reportAlloc cfg t op t.retval (size cfg t) cfg.btDepth libsym) :=
    fun op h h' size => plain_reportAlloc (fun _ => op) (fun _ => ⟨h, h'⟩)
      (fun _ t => t.retval) size
      fun cfg => cfg.btDepth
  have hunmap : reportMunmap.Plain := plain_reportAlloc (fun _ => .munmap) (fun _ => by decide)
    (fun _ t => t.param 0) (fun _ t => t.param 1) fun _ => 0
  have hposix : reportPosixMemalignOut.Plain :=
    (plain_reportAlloc (fun _ => .posixMemalign) (fun _ => by decide)
      (fun _ t => t.peek (t.param 0)) (fun _ t => t.param 2) fun cfg => cfg.btDepth).unless
      fun _ t => t.retval ≠ 0
  have hmmap : reportMmapOut.Plain :=
    (hout .mmap (by decide) (by decide) fun _ t => t.param 1).unless fun cfg t =>
      t.retval = cfg.mapFailed
  have hmmap64 : reportMmap64Out.Plain :=
    (hout .mmap64 (by decide) (by decide) fun cfg t => cfg.ulong
      (mmap64Size cfg t)).unless fun cfg t =>
      t.retval = cfg.mapFailed
  revert f
  simp only [flist, List.forall_mem_cons]
  refine ⟨regular_out (by decide) (hop .malloc (by decide) (by decide)),
    regular_in (by decide) hfree,
    .inl ⟨rfl, rfl, rfl⟩,
    regular_out (by decide) (hout .malloc (by decide) (by decide) fun cfg t =>
      cfg.ulong (t.param 0 * t.param 1)),
    regular_out (by decide) hposix, regular_out (by decide) hmmap, regular_out (by decide) hmmap64,
    regular_in (by decide) hunmap,
    regular_out (by decide) (hout .memalign (by decide) (by decide) fun _ t => t.param 1),
    regular_out (by decide) (hout .alignedAlloc (by decide) (by decide) fun _ t => t.param 1),
    regular_out (by decide) (hop .valloc (by decide) (by decide)),
    regular_out (by decide) (hop .pvalloc (by decide) (by decide)),
    .inr ⟨by decide, fun _ h => Option.some.inj h ▸ hunmap, fun _ h => Option.some.inj h ▸
      hout .mmap (by decide) (by decide) fun _ t => t.param 2⟩,
    regular_in (by decide) hfree,
    regular_out (by decide) (hout .malloc (by decide) (by decide) fun cfg t =>
      cfg.ulong (t.param 1 * t.param 2)), ?_⟩
  iterate 8 refine ⟨regular_out (by decide) hnew, regular_out (by decide) hnewArray, ?_⟩
  iterate 8 refine ⟨regular_in (by decide) hdelete, regular_in (by decide) hdeleteArray, ?_⟩
  exact fun f hf => absurd hf List.not_mem_nil

/-- What is sent when a call returns; the task is in no `realloc` afterwards. -/
theorem reportOut_spec (cfg : Config) (libsym : LibrarySymbol) (hf : f ∈ flist)
    (hre : t.inRealloc = true → f.name = "realloc") :
    ∃ ms, reportBy f.reportOut cfg libsym t = .ok ({ t with inRealloc := false }, ms) ∧
      ∀ m ∈ ms, m.1 = .reallocDone → t.inRealloc = true := by
  have hself : t.inRealloc = false → { t with inRealloc := false } = t := fun h => by rw [← h]
  rcases regular_of_mem hf with ⟨-, -, hout⟩ | ⟨hname, -, hout⟩
  · rw [hout]
    show ∃ ms, reportReallocOut cfg libsym t = .ok ({ t with inRealloc := false }, ms) ∧ _
    unfold reportReallocOut
    cases hin : t.inRealloc with
    | true => exact ⟨_, rfl, fun _ _ _ => rfl⟩
    | false =>
      rw [hself hin]
      refine ⟨_, rfl, fun m hm hop => ?_⟩
      split at hm
      · rw [reportAlloc_op hm] at hop
        cases hop
      · cases hm
  · have hin : t.inRealloc = false := Bool.eq_false_iff.mpr fun h => hname (hre h)
    rw [hself hin]
    cases hg : f.reportOut with
    | none => exact ⟨[], rfl, fun m hm => (by cases hm)⟩
    | some g =>
      obtain ⟨ms, hms, hops⟩ := hout g hg cfg libsym t
      exact ⟨ms, hms, fun m hm hop => absurd hop (hops m hm).2⟩

/-- What is sent when a function is entered by a task that is in no `realloc`. -/
theorem reportIn_spec (cfg : Config) (libsym : LibrarySymbol) (hf : f ∈ flist)
    (hre : t.inRealloc = false) :
    ∃ t' ms, reportBy f.reportIn cfg libsym t = .ok (t', ms) ∧ (∀ m ∈ ms, m.1 ≠ .reallocDone) ∧
      (t'.inRealloc = true → f.name = "realloc" ∧ t.param 0 ≠ 0 ∧ ∃ m ∈ ms,
        m.1 = .reallocEnter) := by
  rcases regular_of_mem hf with ⟨hname, hin, -⟩ | ⟨-, hin, -⟩
  · rw [hin]
    show ∃ t' ms, reportRealloc cfg libsym t = .ok (t', ms) ∧ _
    unfold reportRealloc
    rw [hre, if_neg Bool.false_ne_true]
    by_cases hp : t.param 0 = 0
    · rw [if_neg fun h => h hp]
      exact ⟨t, [], rfl, fun m hm => (by cases hm), fun h => absurd (hre.symm.trans h) (by decide)⟩
    · rw [if_pos hp]
      refine ⟨_, _, rfl, fun m hm => reportAlloc_op hm ▸ by decide, fun _ => ⟨hname, hp, ?_⟩⟩
      unfold reportAlloc reportAllocSized
      rw [if_neg hp]
      exact ⟨_, List.mem_singleton_self _, rfl⟩
  · cases hg : f.reportIn with
    | none =>
      exact ⟨t, [], rfl, fun m hm => (by cases hm), fun h => absurd (hre.symm.trans h) (by decide)⟩
    | some g =>
      obtain ⟨ms, hms, hops⟩ := hin g hg cfg libsym t
      exact ⟨t, ms, hms, fun m hm => (hops m hm).2, fun h => absurd (hre.symm.trans h) (by decide)⟩

end Reporters

/-! ## Handling a breakpoint -/

section Breakpoints

variable {opts : HitOptions} {bps bps' : BpDict} {t t' : HitTask} {bp : HitBp} {ra : UInt64}
  {sym : Symbol} {invocations : List Invocation}

/-- The breakpoints are on functions of the table. -/
def BpDict.Intercepts (bps : BpDict) : Prop :=
  ∀ addr bp sym, bps addr = some bp → bp.libsym = some sym → sym.func ∈ flist

theorem insertReturnBp_libsym {bp : HitBp} (h : insertReturnBp opts bps ra = some bp) :
    bp.libsym = none ∨ bps ra = some bp := by
  unfold insertReturnBp at h
  split at h
  · cases h
  · split at h
    next bp' hbp =>
      cases h
      exact .inr hbp
    next =>
      cases h
      exact .inl rfl

theorem handleEntry_intercepts (opts : HitOptions) (t : HitTask) (sym : Symbol) (ra : UInt64)
    (hb : bps.Intercepts) :
    (handleEntry opts bps t sym ra).1.Intercepts := by
  unfold handleEntry
  split
  · split
    next => exact hb
    next bp hins =>
      intro addr bp' sym' haddr hsym
      dsimp only at haddr
      by_cases ha : addr = ra
      · rw [ha, Function.update_self] at haddr
        cases haddr
        rcases insertReturnBp_libsym hins with hnone | hold
        · exact absurd (hnone.symm.trans hsym) (by rintro ⟨⟩)
        · exact hb ra bp sym' hold hsym
      · rw [Function.update_of_ne ha] at haddr
        exact hb addr bp' sym' haddr hsym
  · exact hb

theorem enableScratchHwBp_breakpoint : (enableScratchHwBp t bp).breakpoint = t.breakpoint ∧
    (enableScratchHwBp t bp).libsym = t.libsym := by
  unfold enableScratchHwBp
  split
  · exact ⟨rfl, rfl⟩
  · split <;> exact ⟨rfl, rfl⟩

/-- The call that is entered becomes the pending one, or the task stays as it is; the latter happens
to a function that is reported at its return only if it returns to nowhere. -/
theorem handleEntry_pending (opts : HitOptions) (bps : BpDict) (t : HitTask) (sym : Symbol)
    (ra : UInt64) :
    (handleEntry opts bps t sym ra).2.breakpoint = some ra ∧
        (handleEntry opts bps t sym ra).2.libsym = some sym ∨
      (handleEntry opts bps t sym ra).2 = t ∧ (sym.func.reportOut.isSome = true → ra = 0) := by
  unfold handleEntry
  by_cases hout : (sym.func.reportOut.isSome || !opts.nocpp) = true
  · rw [if_pos hout]
    cases hins : insertReturnBp opts bps ra with
    | none =>
      refine .inr ⟨rfl, fun _ => ?_⟩
      unfold insertReturnBp at hins
      by_contra hra
      rw [if_neg hra] at hins
      split at hins <;> cases hins
    | some bp => exact .inl ⟨enableScratchHwBp_breakpoint.1, enableScratchHwBp_breakpoint.2⟩
  · rw [if_neg hout]
    refine .inr ⟨rfl, fun h => absurd ?_ hout⟩
    rw [h, Bool.true_or]

/-- The first half of `handle_breakpoint` leaves the task alone or ends the pending call. -/
def EndsPending (bp : HitBp) (t t1 : HitTask) (outs : List Invocation) : Prop :=
  t1 = t ∧ outs = [] ∨
    ∃ ra sym, t.breakpoint = some ra ∧ t.libsym = some sym ∧ bp.callAfter = true ∧
      t1.breakpoint = none ∧ outs = [.reportOut sym]

theorem handleCallAfter_cases {t1 : HitTask} {outs : List Invocation} (hafter : bp.callAfter = true)
    (h : handleCallAfter t bp = .ok (t1, outs)) : EndsPending bp t t1 outs := by
  unfold handleCallAfter at h
  split at h
  next =>
    cases h
    exact .inl ⟨rfl, rfl⟩
  next => cases h
  next ra sym hbp hsym =>
    obtain ⟨t2, -, h⟩ := Machine.bind_eq_ok.mp h
    cases h
    exact .inr ⟨ra, sym, hbp, hsym, hafter, rfl, rfl⟩

theorem handleBreakpoint_eq (hdel : bp.deleted = false) : handleBreakpoint opts bps t bp ra =
    (if bp.callAfter then handleCallAfter t bp else .ok (t, [])) >>= fun r =>
      match bp.libsym, r.1.breakpoint with
      | some sym, none => .ok ((handleEntry opts bps r.1 sym ra).1,
          (handleEntry opts bps r.1 sym ra).2, r.2 ++ [.reportIn sym])
      | _, _ => .ok (bps, r.1, r.2) := by
  unfold handleBreakpoint
  rw [hdel]
  cases bp.callAfter <;> rfl

/-- The second half does nothing more or enters a function. -/
theorem handleBreakpoint_cases
    (h : handleBreakpoint opts bps t bp ra = .ok (bps', t', invocations)) :
    ∃ t1 outs, EndsPending bp t t1 outs ∧
      (bps' = bps ∧ t' = t1 ∧ invocations = outs ∨
        ∃ sym, bp.libsym = some sym ∧ t1.breakpoint = none ∧
          handleEntry opts bps t1 sym ra = (bps', t') ∧ invocations = outs ++ [.reportIn sym]) := by
  cases hdel : bp.deleted with
  | true =>
    unfold handleBreakpoint at h
    rw [if_pos hdel] at h
    cases h
    exact ⟨t, [], .inl ⟨rfl, rfl⟩, .inl ⟨rfl, rfl, rfl⟩⟩
  | false =>
    rw [handleBreakpoint_eq hdel] at h
    obtain ⟨⟨t1, outs⟩, h1, h⟩ := Machine.bind_eq_ok.mp h
    refine ⟨t1, outs, ?_, ?_⟩
    · split at h1
      next hafter => exact handleCallAfter_cases hafter h1
      next =>
        cases h1
        exact .inl ⟨rfl, rfl⟩
    · dsimp only at h
      split at h
      next sym hsym hbp =>
        cases h
        exact .inr ⟨sym, hsym, hbp, rfl, rfl⟩
      next =>
        cases h
        exact .inl ⟨rfl, rfl, rfl⟩

end Breakpoints

/-! ## What a session keeps -/

/-- The `MT_REALLOC_ENTER` of a call was sent. -/
def Entered (call : ℕ) (log : List (ℕ × Message)) : Prop :=
  ∃ m, (call, m) ∈ log ∧ m.1 = .reallocEnter

/-- Each `MT_REALLOC_DONE` is about a call whose `MT_REALLOC_ENTER` was sent before. -/
def Matched (log : List (ℕ × Message)) : Prop :=
  ∀ before call m after, log = before ++ (call, m) :: after → m.1 = .reallocDone →
    Entered call before

theorem Entered.append {call : ℕ} {log : List (ℕ × Message)} (h : Entered call log)
    (more : List (ℕ × Message)) : Entered call (log ++ more) :=
  h.imp fun _ h => ⟨List.mem_append_left more h.1, h.2⟩

theorem Matched.append {log : List (ℕ × Message)} {call : ℕ} {ms : List Message} (h : Matched log)
    (hms : ∀ m ∈ ms, m.1 = .reallocDone → Entered call log) :
    Matched (log ++ ms.map fun m => (call, m)) := by
  intro before c m after heq hop
  have hnew : (c, m) ∈ ms.map (fun m => (call, m)) → Entered c log := by
    intro hmem
    obtain ⟨m', hm', heq'⟩ := List.mem_map.mp hmem
    obtain ⟨rfl, rfl⟩ := Prod.mk.inj heq'
    exact hms m' hm' hop
  rcases List.append_eq_append_iff.mp heq with ⟨more, rfl, hmore⟩ | ⟨more, hlog, hmore⟩
  · exact (hnew (hmore ▸ List.mem_append_right more List.mem_cons_self)).append more
  · cases more with
    | nil =>
      rw [List.nil_append] at hmore
      rw [List.append_nil] at hlog
      exact hlog ▸ hnew (hmore ▸ List.mem_cons_self)
    | cons x more =>
      obtain ⟨rfl, -⟩ := List.cons.inj hmore
      exact h before c m more hlog hop

/-- A task that is in a `realloc` has it as its pending call, and the client knows of it. -/
structure Thread.Follows (connected : Bool) (log : List (ℕ × Message)) (t : Thread) : Prop where
  idle : t.hit.breakpoint = none → t.report.inRealloc = false
  func : ∀ ra sym, t.hit.breakpoint = some ra → t.hit.libsym = some sym →
    sym.func ∈ flist ∧ (t.report.inRealloc = true → sym.func.name = "realloc")
  entered : connected = true → t.report.inRealloc = true → Entered t.call log

theorem Thread.Follows.append {connected : Bool} {log : List (ℕ × Message)} {t : Thread}
    (h : t.Follows connected log) (more : List (ℕ × Message)) : t.Follows connected (log ++ more) :=
  ⟨h.idle, h.func, fun hc hin => (h.entered hc hin).append more⟩

/-- A task in no `realloc`. -/
theorem Thread.Follows.of_not_inRealloc {connected : Bool} {log : List (ℕ × Message)} {t : Thread}
    (hin : t.report.inRealloc = false)
    (hfunc : ∀ ra sym, t.hit.breakpoint = some ra → t.hit.libsym = some sym → sym.func ∈ flist) :
    t.Follows connected log where
  idle := fun _ => hin
  func := fun ra sym hra hsym => ⟨hfunc ra sym hra hsym,
    fun h => absurd (hin.symm.trans h) (by decide)⟩
  entered := fun _ h => absurd (hin.symm.trans h) (by decide)

/-- Resetting the breakpoints of a task that is in no `realloc`. -/
theorem Thread.Follows.resetBp {t : Thread} {connected : Bool}
    {log : List (ℕ × Message)} {bps : BpDict} (hin : t.report.inRealloc = false) :
    (t.resetBp bps).Follows connected log :=
  .of_not_inRealloc hin fun _ _ hra => (by cases hra)

namespace Session

/-- What holds of a session besides the task `i`. -/
structure Others (i : ℕ) (s : Session) : Prop where
  funcs : ∀ leader, (s.bps leader).Intercepts
  matched : Matched s.log
  follows : ∀ j, j ≠ i → (s.thread j).Follows s.connected s.log

structure Sound (s : Session) : Prop where
  funcs : ∀ leader, (s.bps leader).Intercepts
  matched : Matched s.log
  follows : ∀ i, (s.thread i).Follows s.connected s.log

section Hit

variable {opts : HitOptions} {cfg : Config} {s : Session} {i : ℕ} {call : ℕ} {ms : List Message}
  {t : Thread}

theorem Sound.others (h : s.Sound) (i : ℕ) : s.Others i :=
  ⟨h.funcs, h.matched, fun j _ => h.follows j⟩

theorem Others.sound (h : s.Others i) (ht : (s.thread i).Follows s.connected s.log) : s.Sound where
  funcs := h.funcs
  matched := h.matched
  follows := fun j => by
    by_cases hj : j = i
    · exact hj ▸ ht
    · exact h.follows j hj

@[simp] theorem setThread_thread_self : (s.setThread i t).thread i = t := by
  unfold setThread
  exact Function.update_self ..

theorem Others.setThread (h : s.Others i) : (s.setThread i t).Others i where
  funcs := h.funcs
  matched := h.matched
  follows := fun j hj => by
    have hthread : (s.setThread i t).thread j = s.thread j := by
      unfold Session.setThread
      exact Function.update_of_ne hj ..
    rw [hthread]
    exact h.follows j hj

@[simp] theorem send_thread : (s.send call ms).thread = s.thread := by
  unfold send
  split <;> rfl

@[simp] theorem send_connected : (s.send call ms).connected = s.connected := by
  unfold send
  split <;> rfl

theorem Others.send (h : s.Others i)
    (hms : s.connected = true → ∀ m ∈ ms, m.1 = .reallocDone → Entered call s.log) :
    (s.send call ms).Others i := by
  unfold Session.send
  split
  next hc =>
    exact ⟨h.funcs, h.matched.append (hms hc), fun j hj => (h.follows j hj).append _⟩
  next => exact h

/-- What was sent is in the log if there is a client. -/
theorem entered_send (hc : s.connected = true) (hm : ∃ m ∈ ms, m.1 = .reallocEnter) :
    Entered call (s.send call ms).log := by
  unfold Session.send
  rw [if_pos hc]
  obtain ⟨m, hm, hop⟩ := hm
  exact ⟨m, List.mem_append_right _ (List.mem_map_of_mem hm), hop⟩

/-- The pending call of the task ends. -/
theorem invoke_out (cfg : Config) (args : Context) {sym : Symbol} (h : s.Others i)
    (hfunc : sym.func ∈ flist)
    (hre : (s.thread i).report.inRealloc = true → sym.func.name = "realloc")
    (hentered : s.connected = true → (s.thread i).report.inRealloc = true →
      Entered (s.thread i).call s.log) :
    ∃ s', invoke cfg i args s (.reportOut sym) = .ok s' ∧ s'.Others i ∧
      (s'.thread i).hit = (s.thread i).hit ∧
      (s'.thread i).report = { (s.thread i).report with inRealloc := false } := by
  obtain ⟨ms, hout, hdone⟩ := reportOut_spec cfg sym.libsym hfunc hre
  let t : Thread :=
    { s.thread i with report := { (s.thread i).report with inRealloc := false } }
  refine ⟨(s.setThread i t).send (s.thread i).call ms, ?_, ?_, ?_, ?_⟩
  · unfold invoke
    dsimp only
    rw [hout]
    rfl
  · exact h.setThread.send fun hc m hm hop => hentered hc (hdone m hm hop)
  · rw [send_thread, setThread_thread_self]
  · rw [send_thread, setThread_thread_self]

/-- The task enters a function; the pending call is this one, or the function has no reporter for
its return. -/
theorem invoke_in {args : Context} {sym : Symbol} (h : s.Others i) (hfunc : sym.func ∈ flist)
    (hin : (s.thread i).report.inRealloc = false)
    (hpending : (∃ ra, (s.thread i).hit.breakpoint = some ra ∧ (s.thread i).hit.libsym = some sym) ∨
      (s.thread i).hit.breakpoint = none ∧
        (sym.func.name = "realloc" → { (s.thread i).report with saved := args }.param 0 = 0)) :
    ∃ s', invoke cfg i args s (.reportIn sym) = .ok s' ∧ s'.Sound := by
  obtain ⟨t', ms, hrep, hdone, henter⟩ := reportIn_spec cfg sym.libsym
    (t := { (s.thread i).report with saved := args }) hfunc hin
  refine ⟨({ s with next := s.next + 1 }.setThread i
    { s.thread i with report := t', call := s.next }).send s.next ms, ?_, ?_⟩
  · unfold invoke
    dsimp only
    rw [hrep]
    rfl
  · have hothers : ({ s with next := s.next + 1 } : Session).Others i :=
      ⟨h.funcs, h.matched, h.follows⟩
    refine (hothers.setThread.send fun _ m hm hop => absurd hop (hdone m hm)).sound ?_
    rw [send_thread, setThread_thread_self, send_connected]
    rcases hpending with ⟨ra, hra, hsym⟩ | ⟨hnone, hargs⟩
    · refine ⟨fun hnone => absurd (hra.symm.trans hnone) (by rintro ⟨⟩),
        fun _ sym' _ hsym' => ?_, ?_⟩
      · cases hsym.symm.trans hsym'
        exact ⟨hfunc, fun h => (henter h).1⟩
      · exact fun hc hin' => entered_send hc (henter hin').2.2
    · refine Thread.Follows.of_not_inRealloc ?_ fun ra _ hra =>
        absurd (hnone.symm.trans hra) (by rintro ⟨⟩)
      exact Bool.eq_false_iff.mpr fun h => (henter h).2.1 (hargs (henter h).1)

/-- The same, from what `handle_breakpoint` has made of the task. -/
theorem invoke_in_entry (cfg : Config) {args : Context} {sym : Symbol} {bps bps' : BpDict}
    {t1 : HitTask} {ra : UInt64} (h : s.Others i) (hfunc : sym.func ∈ flist)
    (hin : (s.thread i).report.inRealloc = false) (ht1 : t1.breakpoint = none)
    (hentry : handleEntry opts bps t1 sym ra = (bps', (s.thread i).hit))
    (hra : sym.func.name = "realloc" →
      { (s.thread i).report with saved := args }.param 0 ≠ 0 → ra ≠ 0) :
    ∃ s', invoke cfg i args s (.reportIn sym) = .ok s' ∧ s'.Sound := by
  refine invoke_in h hfunc hin ?_
  have hpending := handleEntry_pending opts bps t1 sym ra
  rw [hentry] at hpending
  rcases hpending with ⟨hbp, hsym⟩ | ⟨heq, hnowhere⟩
  · exact .inl ⟨ra, hbp, hsym⟩
  · refine .inr ⟨(congrArg HitTask.breakpoint heq).trans ht1, fun hname => ?_⟩
    by_contra hargs
    refine hra hname hargs (hnowhere ?_)
    rcases regular_of_mem hfunc with ⟨-, -, hout⟩ | ⟨hname', -⟩
    · rw [hout]
      rfl
    · exact absurd hname hname'

theorem setHit_thread (s : Session) (i : ℕ) (bps : BpDict) (hit : HitTask) (now : Return) :
    (s.setHit i bps hit now).thread i =
      { s.thread i with hit, report := (s.thread i).report.returns now } := setThread_thread_self

theorem Sound.setHit {bps : BpDict} {hit : HitTask} {now : Return} (h : s.Sound)
    (hbps : bps.Intercepts) : (s.setHit i bps hit now).Others i := by
  refine Others.setThread ⟨fun leader => ?_, h.matched, fun j _ => h.follows j⟩
  dsimp only
  by_cases hl : leader = (s.thread i).leader
  · rw [hl, Function.update_self]
    exact hbps
  · rw [Function.update_of_ne hl]
    exact h.funcs leader

/-- A hit that meets the condition keeps the session sound. -/
theorem hit_sound (cfg : Config) (now : Return) {addr ra : UInt64} {args : Context} (h : s.Sound)
    (hok : s.EntersRealloc i addr → s.firstArg i args now ≠ 0 → ra ≠ 0) {bp : HitBp} {bps' : BpDict}
    {t' : HitTask}
    {invocations : List Invocation} (hbp : s.bps (s.thread i).leader addr = some bp)
    (hh : handleBreakpoint opts (s.bps (s.thread i).leader) (s.thread i).hit bp ra =
      .ok (bps', t', invocations)) :
    ∃ s', invocations.foldlM (invoke cfg i args) (s.setHit i bps' t' now) = .ok s' ∧ s'.Sound := by
  obtain ⟨t1, outs, hends, hsecond⟩ := handleBreakpoint_cases hh
  have hfuncs : bps'.Intercepts := by
    rcases hsecond with ⟨rfl, -⟩ | ⟨sym, -, -, hentry, -⟩
    · exact h.funcs _
    · have hkeep := handleEntry_intercepts opts t1 sym ra
        (h.funcs (s.thread i).leader)
      rw [hentry] at hkeep
      exact hkeep
  -- the state the reporters are called in
  have hothers : (s.setHit i bps' t' now).Others i := h.setHit hfuncs
  have hthread := setHit_thread s i bps' t' now
  generalize hs1 : s.setHit i bps' t' now = s1 at hothers hthread ⊢
  have hlog : s1.connected = s.connected ∧ s1.log = s.log := by
    rw [← hs1]
    exact ⟨rfl, rfl⟩
  have hhit : (s1.thread i).hit = t' := by rw [hthread]
  have hin : (s1.thread i).report.inRealloc = (s.thread i).report.inRealloc := by
    rw [hthread]
    rfl
  have henters : ∀ sym, bp.libsym = some sym →
      ((s.thread i).hit.breakpoint = none ∨ bp.callAfter = true) →
      sym.func.name = "realloc" → s.firstArg i args now ≠ 0 → ra ≠ 0 :=
    fun sym hsym hnone hname => hok ⟨bp, sym, hbp, hsym, hname, hnone⟩
  have hfirst : ({ (s1.thread i).report with saved := args } : Task).param 0 =
      s.firstArg i args now := by
    rw [hthread]
    rfl
  rcases hends with ⟨rfl, rfl⟩ | ⟨r, sym0, hr, hsym0, hafter, ht1, rfl⟩
  · rcases hsecond with ⟨-, rfl, rfl⟩ | ⟨sym, hsym, hnone, hentry, rfl⟩
    · refine ⟨s1, rfl, hothers.sound ?_⟩
      rw [hthread, hlog.1, hlog.2]
      exact ⟨(h.follows i).idle, (h.follows i).func, (h.follows i).entered⟩
    · obtain ⟨s', hs', hsound⟩ := invoke_in_entry cfg hothers (h.funcs _ addr bp sym hbp hsym)
        (hin.trans ((h.follows i).idle hnone)) hnone (hhit ▸ hentry)
        (hfirst ▸ henters sym hsym (.inl hnone))
      exact ⟨s', by rw [List.nil_append, List.foldlM_cons, hs']; rfl, hsound⟩
  · obtain ⟨hfunc0, hname0⟩ := (h.follows i).func r sym0 hr hsym0
    obtain ⟨s2, hs2, hothers2, hhit2, hrep2⟩ := invoke_out cfg args hothers hfunc0
      (fun hre => hname0 (hin ▸ hre)) fun hc hre => by
        rw [hlog.2, hthread]
        exact (h.follows i).entered (hlog.1 ▸ hc) (hin ▸ hre)
    rw [hhit] at hhit2
    have hin2 : (s2.thread i).report.inRealloc = false := by rw [hrep2]
    have hfirst2 : ({ (s2.thread i).report with saved := args } : Task).param 0 =
        s.firstArg i args now := by
      rw [hrep2, ← hfirst]
      rfl
    rcases hsecond with ⟨-, rfl, rfl⟩ | ⟨sym, hsym, hnone, hentry, rfl⟩
    · refine ⟨s2, by rw [List.foldlM_cons, hs2]; rfl, hothers2.sound ?_⟩
      refine Thread.Follows.of_not_inRealloc hin2 fun ra' _ hra' => ?_
      rw [hhit2, ht1] at hra'
      cases hra'
    · obtain ⟨s', hs', hsound⟩ := invoke_in_entry cfg hothers2
        (h.funcs _ addr bp sym hbp hsym) hin2 hnone (hhit2 ▸ hentry)
        (hfirst2 ▸ henters sym hsym (.inr hafter))
      refine ⟨s', ?_, hsound⟩
      rw [List.singleton_append, List.foldlM_cons, hs2]
      show List.foldlM (invoke cfg i args) s2 [.reportIn sym] = _
      rw [List.foldlM_cons, hs']
      rfl

end Hit

/-! ## The result -/

section Result

variable {opts : HitOptions} {cfg : Config} {s : Session}

theorem disableScratchHwBp_fault {t : HitTask} {bp : HitBp} {e : String}
    (h : disableScratchHwBp t bp = .error e) : e = "task->hw_bp[slot] == bp" := by
  unfold disableScratchHwBp check at h
  split at h
  · cases h
  · split at h
    · cases h
    · split at h
      · cases h
      · split at h <;> cases h
        rfl

theorem handleBreakpoint_fault {bps : BpDict} {t : HitTask} {bp : HitBp} {ra : UInt64} {e : String}
    (h : handleBreakpoint opts bps t bp ra = .error e) : e ≠ "!task->in_realloc" := by
  cases hdel : bp.deleted with
  | true =>
    unfold handleBreakpoint at h
    rw [if_pos hdel] at h
    cases h
  | false =>
    rw [handleBreakpoint_eq hdel] at h
    rcases Machine.bind_eq_error.mp h with h | ⟨r, -, h⟩
    · split at h
      · unfold handleCallAfter at h
        split at h
        · cases h
        · cases h
          decide
        · rcases Machine.bind_eq_error.mp h with h | ⟨t2, -, h⟩
          · rw [disableScratchHwBp_fault h]
            decide
          · cases h
      · cases h
    · split at h <;> cases h

theorem stopTrace_sound (h : s.Sound) {leader : ℕ}
    (hok : ∀ i, (s.thread i).leader = leader → (s.thread i).report.inRealloc = false) :
    (s.stopTrace leader).Sound where
  funcs := h.funcs
  matched := h.matched
  follows := fun i => by
    unfold stopTrace
    dsimp only
    split
    next hl => exact .resetBp (hok i hl)
    next => exact h.follows i

theorem serverClose_sound (h : s.Sound)
    (hok : s.connected = true → ∀ i, (s.thread i).report.inRealloc = false) :
    s.serverClose.Sound := by
  unfold serverClose
  split
  next hc => exact ⟨h.funcs, h.matched, fun i => .resetBp (hok hc i)⟩
  next => exact h

theorem connect_sound (h : s.Sound)
    (hok : s.connected = false → ∀ i, (s.thread i).report.inRealloc = false) :
    ({ s with connected := true } : Session).Sound where
  funcs := h.funcs
  matched := h.matched
  follows := fun i => by
    refine ⟨(h.follows i).idle, (h.follows i).func, fun _ hin => ?_⟩
    cases hc : s.connected with
    | true => exact (h.follows i).entered hc hin
    | false => exact absurd ((hok hc i).symm.trans hin) (by decide)

/-- One step. -/
theorem step_sound {e : SessionEvent} (h : s.Sound) (hok : s.Undisturbed e) :
    Machine.Ends (· ≠ "!task->in_realloc") Sound (s.step opts cfg e) := by
  cases e with
  | hit i addr ra args now =>
    show Machine.Ends _ _ (s.hit opts cfg i addr ra args now)
    unfold hit
    dsimp only
    cases hbp : s.bps (s.thread i).leader addr with
    | none => exact h
    | some bp =>
      dsimp only
      cases hh : handleBreakpoint opts (s.bps (s.thread i).leader) (s.thread i).hit bp ra with
      | error e => exact handleBreakpoint_fault hh
      | ok r =>
        obtain ⟨bps', t', invocations⟩ := r
        obtain ⟨s', hs', hsound⟩ := hit_sound cfg now h hok hbp hh
        show Machine.Ends _ _ (invocations.foldlM (invoke cfg i args) (s.setHit i bps' t' now))
        rw [hs']
        exact hsound
  | stop leader => exact stopTrace_sound h hok
  | start leader => exact h
  | disconnect => exact serverClose_sound h hok
  | connect => exact connect_sound h hok

theorem Fresh.sound (h : s.Fresh) : s.Sound where
  funcs := h.funcs
  matched := by
    intro before call m after heq
    rw [h.log] at heq
    exact absurd heq (by simp)
  follows := fun i => .of_not_inRealloc (h.inRealloc i) fun _ _ hra =>
    absurd ((h.idle i).symm.trans hra) (by rintro ⟨⟩)

end Result

end Session

/-- As long as tracing is not stopped, and no client comes, in the middle of a `realloc`, a task is
in a `realloc` only with a pending call; what is said to be done was said to be entered, and the
assertion of `report_realloc` does not fail. -/
theorem realloc_follows_call (opts : HitOptions) (cfg : Config) (start s : Session)
    (h0 : start.Fresh)
    (hr : Machine.Reach (Session.step opts cfg) Session.Undisturbed start s) :
    (∀ i, (s.thread i).report.inRealloc = true → (s.thread i).hit.breakpoint ≠ none) ∧
      Matched s.log ∧
      ∀ e, s.Undisturbed e → Session.step opts cfg s e ≠ .error "!task->in_realloc" := by
  have hsound : s.Sound := hr.invariant h0.sound fun _ _ _ hs hok hstep =>
    (Session.step_sound hs hok).ok hstep
  refine ⟨fun i hin hnone => ?_, hsound.matched, fun e hok herr => ?_⟩
  · exact absurd (((hsound.follows i).idle hnone).symm.trans hin) (by decide)
  · exact (Session.step_sound hsound hok).error herr rfl

/-- A process of one thread with `realloc` at one address, and a client. -/
def reallocOnly : Session where
  bps := fun _ addr =>
    if addr = 0x1000 then
      some ⟨0x1000, .auto,
        false, some ⟨⟨0x1000⟩, ⟨"realloc", reportRealloc, reportReallocOut⟩⟩, false⟩
    else none
  thread := fun _ => ⟨0, ⟨none, none, none⟩,
    ⟨1, true, false, inRegs fun _ => 0, 0, noWords, []⟩, 0⟩
  connected := true
  next := 0
  log := []

/-- The thread calls `realloc` for the memory at `0x5000`. -/
def entersRealloc : SessionEvent :=
  .hit 0 0x1000 0x2000 (inRegs fun _ => 0x5000) ⟨0, noWords, []⟩

/-- A call and its return. -/
theorem realloc_follows_call_returns : ∃ s : Session,
    Machine.run (Session.step ⟨false, false⟩ ⟨false, 0, true, false⟩) reallocOnly
        [entersRealloc, .hit 0 0x2000 0 (inRegs fun _ => 0) ⟨0x6000, noWords, []⟩] = .ok s ∧
      s.log.map (fun m => (m.1, m.2.1)) = [(0, .reallocEnter), (0, .realloc), (0, .reallocDone)] ∧
      Matched s.log := by
  have hfresh : reallocOnly.Fresh := by
    refine ⟨fun leader addr bp sym hbp hsym => ?_, fun _ => rfl, fun _ => rfl, rfl⟩
    unfold reallocOnly at hbp
    dsimp only at hbp
    split at hbp <;> cases hbp
    cases hsym
    exact .tail _ (.tail _ (.head _))
  have henter : reallocOnly.Undisturbed entersRealloc :=
    fun _ _ => show (0x2000 : UInt64) ≠ 0 by decide
  have hreturn : ∀ s : Session,
      s.Undisturbed (.hit 0 0x2000 0 (inRegs fun _ => 0) ⟨0x6000, noWords, []⟩) :=
    fun _ _ h => absurd rfl h
  refine ⟨_, rfl, rfl, ?_⟩
  refine (realloc_follows_call ⟨false, false⟩ ⟨false, 0, true, false⟩ reallocOnly _ hfresh ?_).2.1
  exact .step (.step .init henter rfl) (hreturn _) rfl

/-- A process is stopped in the middle of a `realloc`, started again, and calls `realloc` again. -/
theorem stopped_in_realloc :
    Machine.run (Session.step ⟨false, false⟩ ⟨false, 0, true, false⟩) reallocOnly
      [entersRealloc, .stop 0, .start 0, entersRealloc] = .error "!task->in_realloc" := rfl

end Mtrace.Server
