import Mtrace.Client.Isolation
import Mtrace.Client.Payload
import Mtrace.Client.Symbols

/-!
# The files of the client

`client/binfile.c` keeps one `struct bin_file` for a path, whoever maps the file, with one tree of
the symbols that are in use.  So the processes of a client are not quite side by side: what name an
address gets in a backtrace may have been found for another process, and the name decides whether
the backtrace is to be ignored.

`isolated_iff`: the records are kept apart exactly if the pids are told apart and no file has an
address that the patterns match under one bias and not under another.
-/

namespace Mtrace.Client

open RbTree Machine

/-! ## Open files -/

/-- The host of the client, whose files stay as they are while it runs. -/
structure Host where
  bigEndian : Bool
  /-- `regex_ignore_list`. -/
  regexIgnoreList : List (String → Bool)
  /-- The path `open_map` finds for the name of a mapping. -/
  openMap : String → Option String
  /-- The file `bin_file_open` opens at a path. -/
  binFileOpen : String → Bfd

/-- `list_of_binfiles`, and the symbols each `struct stack` holds in `syms`.  A file that is not in
the list is one without symbols: `bin_file_put` closes no other. -/
structure Opened where
  files : String → BinFile
  syms : StackId → List (String × UInt64)

def Host.unopened (h : Host) : Opened := ⟨fun path => ⟨h.binFileOpen path, .nil⟩, fun _ => []⟩

/-- What the client knows of symbols with these files. -/
def Host.env (h : Host) (files : String → BinFile) : Env where
  bigEndian := h.bigEndian
  binFileLookup m addr := (h.openMap m.filename).map fun path =>
    ((files path).lookup addr m.bias).1.sym
  regexIgnoreList := h.regexIgnoreList

namespace Opened

/-- `bin_file_lookup` for an address of a stack. -/
def lookup (f : Opened) (i : StackId) (path : String) (addr off : UInt64) : Opened where
  files := Function.update f.files path ((f.files path).lookup addr off).2
  syms := Function.update f.syms i (f.syms i ++ [(path, addr)])

/-- `resolv_address` for an address of a stack of the process `p`. -/
def resolvAddress (h : Host) (p : Process) (i : StackId) (f : Opened) (addr : UInt64) : Opened :=
  match locateMap p addr with
  | none => f
  | some m =>
    match h.openMap m.filename with
    | none => f
    | some path => f.lookup i path addr m.bias

/-- The loop of `stack_resolv`. -/
def stackResolv (h : Host) (p : Process) (i : StackId) (f : Opened) (addrs : List UInt64) :
    Opened :=
  addrs.foldl (resolvAddress h p i) f

/-- `bin_file_sym_put`. -/
def symPut (files : String → BinFile) (s : String × UInt64) : String → BinFile :=
  Function.update files s.1 (((files s.1).symPut s.2).getD (files s.1))

/-- The loop of `stack_put` over the symbols of a stack without references. -/
def stackPut (f : Opened) (i : StackId) : Opened where
  files := (f.syms i).foldl symPut f.files
  syms := Function.update f.syms i []

/-- The stacks whose last reference is gone. -/
def stacksPut (k : Stacks) (f : Opened) : Opened :=
  (List.range k.next).foldl (fun f i => if k.refcnt i = 0 then f.stackPut i else f) f

/-- A message for the record `p` has turned the heap `k` into `k'`.  A `struct stack` it has made
has the addresses `addrs`; it makes one at most, and none when it drops the last reference of
another one. -/
def follow (h : Host) (p : Process) (addrs : List UInt64) (k k' : Stacks) (f : Opened) : Opened :=
  stacksPut k' (if k'.next = k.next then f else f.stackResolv h p k.next addrs)

end Opened

/-- The backtrace of a message. -/
def MtMsg.data : MtMsg → List UInt8
  | .alloc _ _ m => m.data
  | .free _ _ m => m.data
  | _ => []

/-- The client and its files. -/
structure Running where
  state : State
  opened : Opened

namespace Running

def init (h : Host) (doTrace : Bool) : Running := ⟨.init doTrace, h.unopened⟩

/-- `client_func`. -/
def clientFunc (o : Options) (h : Host) (r : Running) (pid : UInt16) (swapEndian : Bool)
    (m : MtMsg) : Except Fault Running := do
  let env := h.env r.opened.files
  let state ← r.state.clientFunc o env pid swapEndian m
  let p := (r.state.enter pid.toUInt32 swapEndian).2
  return ⟨state, r.opened.follow h p (stackEntries env p m.data) r.state.heap state.heap⟩

end Running

/-- The client on the messages of a stream. -/
def serve (o : Options) (h : Host) (doTrace : Bool) (ss : List Sent) : Except Fault Running :=
  Machine.run (fun r s => r.clientFunc o h s.wirePid s.swapEndian s.msg) (.init h doTrace) ss

/-- Messages the processes `pids` send of themselves, with the mappings they report in `maps`. -/
def Sent.From (pids : Set UInt32) (maps : Set MtMapPayload) (s : Sent) : Prop :=
  s.pid ∈ pids ∧ (∀ pid, s.msg ≠ .fork pid) ∧ ∀ m, s.msg = .addMap m → m ∈ maps

/-- However the streams of the processes are interleaved, the client gets through all of it when it
gets through the stream of each of them, and keeps for each the record its own stream leads to. -/
def Isolated (o : Options) (h : Host) (doTrace : Bool) (pids : Set UInt32)
    (maps : Set MtMapPayload) : Prop :=
  ∀ ss : List Sent, (∀ s ∈ ss, s.From pids maps) →
    ((∃ r, serve o h doTrace ss = .ok r) ↔
      ∀ pid ∈ pids, ∃ r, serve o h doTrace (ownOf pid ss) = .ok r) ∧
    ∀ r, serve o h doTrace ss = .ok r → ∀ pid ∈ pids, ∀ r',
      serve o h doTrace (ownOf pid ss) = .ok r' → r.state.recordOf pid = r'.state.recordOf pid

/-! ## What the patterns see -/

/-- The address lies in the mapping. -/
def Map.Covers (m : Map) (addr : UInt64) : Prop := m.addr ≤ addr ∧ addr < m.addr + m.size

/-- A backtrace with this symbol is to be ignored. -/
def ignored (regexIgnoreList : List (String → Bool)) (sym : Option String) : Bool :=
  sym.any fun s => regexIgnoreList.any fun re => re s

/-- The symbol of an address of a file that is mapped with a bias. -/
def Host.sym (h : Host) (path : String) (addr bias : UInt64) : Option String :=
  ((h.binFileOpen path).symBuf ((h.binFileOpen path).pc addr bias)).1

/-- Mappings of one file that share an address agree on whether it is to be ignored. -/
def Host.Steady (h : Host) (maps : Set MtMapPayload) : Prop :=
  ∀ m ∈ maps, ∀ m' ∈ maps, ∀ path, h.openMap m.filename = some path →
    h.openMap m'.filename = some path → ∀ addr, (mapOf m).Covers addr → (mapOf m').Covers addr →
      ignored h.regexIgnoreList (h.sym path addr m.bias) =
        ignored h.regexIgnoreList (h.sym path addr m'.bias)

/-- In these maps both resolve every address to symbols of which the patterns match both or
neither. -/
structure Env.Agrees (env env' : Env) (maps : List Map) : Prop where
  bigEndian : env.bigEndian = env'.bigEndian
  ignored : ∀ m ∈ maps, ∀ addr, m.Covers addr →
    ignored env.regexIgnoreList ((env.binFileLookup m addr).getD (some m.filename)) =
      ignored env'.regexIgnoreList ((env'.binFileLookup m addr).getD (some m.filename))

section Agrees

variable {o : Options} {env env' : Env} {k : Stacks} {p q : Process} {c : State}

theorem Env.Agrees.mono {maps maps' : List Map} (h : env.Agrees env' maps)
    (hsub : ∀ m ∈ maps', m ∈ maps) : env.Agrees env' maps' :=
  ⟨h.bigEndian, fun m hm => h.ignored m (hsub m hm)⟩

theorem resolvAddress_agree (h : env.Agrees env' p.mapList) (addr : UInt64) :
    Agree (fun s s' => ignored env.regexIgnoreList s = ignored env'.regexIgnoreList s')
      (resolvAddress env p addr) (resolvAddress env' p addr) := by
  unfold resolvAddress
  cases hm : locateMap p addr with
  | none => rfl
  | some m =>
    have hcovers := List.find?_some hm
    rw [Bool.and_eq_true, decide_eq_true_eq, decide_eq_true_eq] at hcovers
    exact h.ignored m (List.mem_of_find?_eq_some hm) addr hcovers

theorem stackResolv_congr (h : env.Agrees env' p.mapList) (addrs : List UInt8) :
    stackResolv env p addrs = stackResolv env' p addrs := by
  have hentries : stackEntries env p addrs = stackEntries env' p addrs := by
    unfold stackEntries Process.getUlong
    rw [h.bigEndian]
  have hloop : ∀ xs : List UInt64, Agree (fun ss ss' => ss.any (ignored env.regexIgnoreList) =
      ss'.any (ignored env'.regexIgnoreList)) (xs.mapM (resolvAddress env p))
      (xs.mapM (resolvAddress env' p)) := by
    intro xs
    induction xs with
    | nil => rfl
    | cons x xs ih =>
      rw [List.mapM_cons, List.mapM_cons]
      refine (resolvAddress_agree h x).bind fun s s' hs => ih.bind fun ss ss' hss => ?_
      show List.any (s :: ss) _ = List.any (s' :: ss') _
      rw [List.any_cons, List.any_cons, hs, hss]
  unfold stackResolv
  rw [hentries]
  have hall := hloop (stackEntries env' p addrs)
  generalize (stackEntries env' p addrs).mapM (Client.resolvAddress env p) = x at hall
  generalize (stackEntries env' p addrs).mapM (Client.resolvAddress env' p) = y at hall
  rcases x with e | ss <;> rcases y with e' | ss'
  · exact congrArg _ hall
  · exact hall.elim
  · exact hall.elim
  · exact congrArg Except.ok hall

theorem stackAdd_congr (h : env.Agrees env' p.mapList) (k : Stacks) (addrs : List UInt8)
    (op : MtOperation) : stackAdd env k p addrs op = stackAdd env' k p addrs op := by
  unfold stackAdd
  rw [stackResolv_congr h]

theorem processAlloc_congr (h : p.tracing = true → env.Agrees env' p.mapList) (op : MtOperation)
    (m : MtAllocPayload) : processAlloc o env k p op m = processAlloc o env' k p op m := by
  unfold processAlloc
  by_cases ht : p.tracing = true
  · rw [ht]
    rcases hr : evictLoop o m.ptr m.size p.blockTable.size k p with f | r
    · rfl
    · have hret : Retains .exit p r.2 :=
        (evictLoop_chain (C := fun _ => True) (fun _ _ _ => trivial) hr).retains
      have hsub : ∀ x ∈ r.2.mapList, x ∈ p.mapList := fun x hx =>
        (hret.mapList x hx).resolve_right fun ⟨_, hadd, _⟩ => by cases hadd
      show (stackAdd env r.1 r.2 m.data op >>= _) = (stackAdd env' r.1 r.2 m.data op >>= _)
      rw [stackAdd_congr ((h ht).mono hsub)]
  · rw [Bool.not_eq_true] at ht
    rw [ht]
    rfl

theorem noteStack_congr (h : env.Agrees env' p.mapList) (data : List UInt8) (op : MtOperation)
    (f : RbStack → RbStack) : noteStack env k p data op f = noteStack env' k p data op f := by
  unfold noteStack
  rw [stackAdd_congr h]

theorem processFree_congr (h : p.tracing = true → env.Agrees env' p.mapList) (op : MtOperation)
    (m : MtAllocPayload) : processFree o env k p op m = processFree o env' k p op m := by
  unfold processFree
  by_cases ht : p.tracing = true
  · have hmis : ∀ alloc, noteMismatch env k p m.data alloc op =
        noteMismatch env' k p m.data alloc op := by
      intro alloc
      unfold noteMismatch
      rw [noteStack_congr (h ht)]
    have hbad : noteBadfree o env k p m.data op = noteBadfree o env' k p m.data op := by
      unfold noteBadfree
      rw [noteStack_congr (h ht)]
    simp only [hmis, hbad]
  · rw [Bool.not_eq_true] at ht
    rw [ht]
    rfl

theorem dispatch_congr (h : p.tracing = true → env.Agrees env' p.mapList) (m : MtMsg) :
    c.dispatch o env p m = c.dispatch o env' p m := by
  cases m with
  | alloc op hop m =>
    rw [State.dispatch, State.dispatch, processAlloc_congr h]
  | free op hop m =>
    rw [State.dispatch, State.dispatch, processFree_congr h]
  | _ => rfl

theorem clientFunc_congr {pid : UInt16} {sw : Bool}
    (h : (c.enter pid.toUInt32 sw).2.tracing = true →
      env.Agrees env' (c.enter pid.toUInt32 sw).2.mapList) (m : MtMsg) :
    c.clientFunc o env pid sw m = c.clientFunc o env' pid sw m := by
  unfold State.clientFunc
  dsimp only
  rw [dispatch_congr h]

end Agrees

/-! ## Symbols in use -/

/-- Every symbol in use was found through one of the maps. -/
def Opened.Sourced (h : Host) (maps : Set MtMapPayload) (f : Opened) : Prop :=
  ∀ path, (f.files path).abfd = h.binFileOpen path ∧ ∃ u : Users, (f.files path).Holds u ∧
    ∀ addr off n, u addr = some (off, n) → ∃ m ∈ maps, h.openMap m.filename = some path ∧
      (mapOf m).Covers addr ∧ m.bias = off

namespace Opened.Sourced

variable {h : Host} {maps : Set MtMapPayload} {f : Opened} {p : Process}

theorem unopened (h : Host) (maps : Set MtMapPayload) : h.unopened.Sourced h maps := fun path =>
  ⟨rfl, fun _ => none, ⟨sorted_nil, fun _ => rfl⟩, fun _ _ _ hu => by cases hu⟩

/-- The symbol that is found is that of some map. -/
theorem lookup_sym (hf : f.Sourced h maps) {path : String} {m : MtMapPayload} (hm : m ∈ maps)
    (hopen : h.openMap m.filename = some path) {addr : UInt64} (hc : (mapOf m).Covers addr) :
    ∃ m' ∈ maps, h.openMap m'.filename = some path ∧ (mapOf m').Covers addr ∧
      ((f.files path).lookup addr m.bias).1.sym = h.sym path addr m'.bias := by
  obtain ⟨habfd, u, hu, hsrc⟩ := hf path
  unfold Host.sym
  rw [← habfd]
  cases hua : u addr with
  | none =>
    have hshown := (lookup_of_none m.bias hu hua).1
    exact ⟨m, hm, hopen, hc, congrArg (fun s => s.2.1) hshown⟩
  | some r =>
    obtain ⟨m', hm', hopen', hc', hoff⟩ := hsrc addr r.1 r.2 hua
    have hshown := (lookup_of_some m.bias hu hua).1
    exact ⟨m', hm', hopen', hc', hoff ▸ congrArg (fun s => s.2.1) hshown⟩

theorem lookup (hf : f.Sourced h maps) (i : StackId) {path : String} {m : MtMapPayload}
    (hm : m ∈ maps) (hopen : h.openMap m.filename = some path) {addr : UInt64}
    (hc : (mapOf m).Covers addr) : (f.lookup i path addr m.bias).Sourced h maps := by
  intro path'
  unfold Opened.lookup
  dsimp only
  by_cases hp : path' = path
  · subst hp
    rw [Function.update_self]
    obtain ⟨habfd, u, hu, hsrc⟩ := hf path'
    have hnext : ((f.files path').lookup addr m.bias).2.abfd = (f.files path').abfd ∧
        ((f.files path').lookup addr m.bias).2.Holds (u.lookup addr m.bias) := by
      cases hua : u addr with
      | none => exact (lookup_of_none m.bias hu hua).2
      | some r => exact (lookup_of_some m.bias hu hua).2
    refine ⟨hnext.1.trans habfd, _, hnext.2, fun addr' off n h' => ?_⟩
    unfold Users.lookup at h'
    by_cases ha : addr' = addr
    · subst ha
      rw [Function.update_self] at h'
      cases hua : u addr' with
      | none =>
        rw [hua] at h'
        cases h'
        exact ⟨m, hm, hopen, hc, rfl⟩
      | some r =>
        rw [hua] at h'
        cases h'
        exact hsrc addr' r.1 r.2 hua
    · rw [Function.update_of_ne ha] at h'
      exact hsrc addr' off n h'
  · rw [Function.update_of_ne hp]
    exact hf path'

theorem stackResolv (hp : ∀ x ∈ p.mapList, ∃ m ∈ maps, x = mapOf m) (i : StackId)
    (addrs : List UInt64) (hf : f.Sourced h maps) :
    (f.stackResolv h p i addrs).Sourced h maps := by
  induction addrs generalizing f with
  | nil => exact hf
  | cons addr addrs ih =>
    refine ih ?_
    unfold Opened.resolvAddress
    cases hm : locateMap p addr with
    | none => exact hf
    | some x =>
      obtain ⟨m, hmem, rfl⟩ := hp x (List.mem_of_find?_eq_some hm)
      have hcovers := List.find?_some hm
      rw [Bool.and_eq_true, decide_eq_true_eq, decide_eq_true_eq] at hcovers
      dsimp only
      cases hopen : h.openMap (mapOf m).filename with
      | none => exact hf
      | some path => exact hf.lookup i hmem hopen hcovers

theorem symPut (hf : f.Sourced h maps) (s : String × UInt64) (syms : StackId → _) :
    Opened.Sourced h maps ⟨Opened.symPut f.files s, syms⟩ := by
  intro path
  unfold Opened.symPut
  dsimp only
  by_cases hp : path = s.1
  · subst hp
    rw [Function.update_self]
    obtain ⟨habfd, u, hu, hsrc⟩ := hf s.1
    rcases symPut_holds s.2 hu with ⟨hnone, -⟩ | ⟨f', u', hput, hput', habfd', hu'⟩
    · rw [hnone]
      exact ⟨habfd, u, hu, hsrc⟩
    · rw [hput]
      refine ⟨habfd'.trans habfd, u', hu', fun addr off n h' => ?_⟩
      obtain ⟨r, hr, rfl⟩ := Option.map_eq_some_iff.mp hput'
      by_cases ha : addr = s.2
      · subst ha
        rw [Function.update_self] at h'
        split at h'
        · cases h'
        · cases h'
          exact hsrc s.2 r.1 r.2 hr
      · rw [Function.update_of_ne ha] at h'
        exact hsrc addr off n h'
  · rw [Function.update_of_ne hp]
    exact hf path

theorem stackPut (hf : f.Sourced h maps) (i : StackId) : (f.stackPut i).Sourced h maps := by
  have hloop : ∀ ss : List (String × UInt64), ∀ files : String → BinFile, ∀ syms : StackId → _,
      Opened.Sourced h maps ⟨files, f.syms⟩ →
        Opened.Sourced h maps ⟨ss.foldl Opened.symPut files, syms⟩ := by
    intro ss
    induction ss with
    | nil => exact fun _ _ hf => hf
    | cons s ss ih => exact fun files syms hf => ih _ syms (hf.symPut s f.syms)
  exact hloop _ _ _ hf

theorem stacksPut (k : Stacks) (hf : f.Sourced h maps) :
    (Opened.stacksPut k f).Sourced h maps := by
  have hloop : ∀ is : List StackId, ∀ f : Opened, f.Sourced h maps →
      (is.foldl (fun f i => if k.refcnt i = 0 then f.stackPut i else f) f).Sourced h maps := by
    intro is
    induction is with
    | nil => exact fun _ hf => hf
    | cons i is ih =>
      intro f hf
      refine ih _ ?_
      dsimp only
      split
      · exact hf.stackPut i
      · exact hf
  exact hloop _ _ hf

theorem follow (hp : ∀ x ∈ p.mapList, ∃ m ∈ maps, x = mapOf m) (addrs : List UInt64)
    (k k' : Stacks) (hf : f.Sourced h maps) : (f.follow h p addrs k k').Sourced h maps := by
  refine stacksPut k' ?_
  split
  · exact hf
  · exact stackResolv hp k.next addrs hf

/-- Where the files are steady, the symbols in use are as good as new ones. -/
theorem agrees (hs : h.Steady maps) (hf : f.Sourced h maps)
    (hp : ∀ x ∈ p.mapList, ∃ m ∈ maps, x = mapOf m) :
    (h.env f.files).Agrees (h.env h.unopened.files) p.mapList := by
  refine ⟨rfl, fun x hx addr hc => ?_⟩
  obtain ⟨m, hm, rfl⟩ := hp x hx
  unfold Host.env
  dsimp only
  cases hopen : h.openMap (mapOf m).filename with
  | none => rfl
  | some path =>
    obtain ⟨m', hm', hopen', hc', hsym⟩ := hf.lookup_sym hm hopen hc
    show ignored _ ((f.files path).lookup addr m.bias).1.sym = ignored _ (h.sym path addr m.bias)
    rw [hsym]
    exact hs m' hm' m hm path hopen' hopen addr hc' hc

end Opened.Sourced

/-! ## The client with its files and the client without -/

section Streams

variable {o : Options} {h : Host} {doTrace : Bool} {pids : Set UInt32} {maps : Set MtMapPayload}
  {ss : List Sent} {r r' : Running}

theorem Running.clientFunc_eq_ok {pid : UInt16} {sw : Bool} {m : MtMsg} :
    r.clientFunc o h pid sw m = .ok r' ↔
      r.state.clientFunc o (h.env r.opened.files) pid sw m = .ok r'.state ∧
      r'.opened = r.opened.follow h (r.state.enter pid.toUInt32 sw).2
        (stackEntries (h.env r.opened.files) (r.state.enter pid.toUInt32 sw).2 m.data)
        r.state.heap r'.state.heap := by
  unfold Running.clientFunc
  dsimp only
  rw [bind_eq_ok]
  constructor
  · rintro ⟨c, hc, hr⟩
    cases hr
    exact ⟨hc, rfl⟩
  · rintro ⟨hc, hop⟩
    refine ⟨_, hc, ?_⟩
    rw [← hop]
    rfl

/-- A state of the client that makes its records with tracing `doTrace` and whose records have
the property `P`. -/
structure Recorded (P : Process → Prop) (doTrace : Bool) (c : State) : Prop where
  accounted : Accounted c
  doTrace : c.doTrace = doTrace
  records : ∀ a q, c.findProcess a = some q → P q

theorem Recorded.entered {P : Process → Prop} {c : State} (hc : Recorded P doTrace c)
    (hnew : ∀ pid sw, P (processNew pid sw doTrace)) (pid : UInt32) (sw : Bool) :
    P (c.enter pid sw).2 := by
  rw [(enter_spec hc.accounted pid sw).2.2.1, hc.doTrace]
  cases hf : c.findProcess pid with
  | none => exact hnew _ _
  | some q => exact hc.records _ q hf

/-- A property that new records have and that the handlers leave alone. -/
theorem Recorded.step {P : Process → Prop} {c c' : State} {env : Env} (hc : Recorded P doTrace c)
    (hnew : ∀ pid sw, P (processNew pid sw doTrace)) {m : MtMsg}
    (hret : ∀ p q, P p → Retains m p q → P q) (hm : ∀ pid, m ≠ .fork pid) {pid : UInt16} {sw : Bool}
    (hstep : c.clientFunc o env pid sw m = .ok c') : Recorded P doTrace c' := by
  obtain ⟨ht, hrec⟩ := clientFunc_records hc.accounted hm hstep
  refine ⟨((clientFunc_ends hc.accounted _ _ _).ok hstep).2.1, ht.trans hc.doTrace,
    fun a q hq => ?_⟩
  rcases hrec a q hq with hq | hq
  · exact hc.records a q hq
  · exact hret _ q (hc.entered hnew _ _) hq

theorem recorded_init (P : Process → Prop) (doTrace : Bool) : Recorded P doTrace (.init doTrace) :=
  ⟨accounted_init doTrace, rfl, fun _ _ hq => by cases hq⟩

/-- While `I` holds, the files make no difference to a step of the client. -/
theorem serve_agree {I : Running → Prop} (h0 : I (.init h doTrace))
    (hstep : ∀ s ∈ ss, ∀ r, I r →
      (r.state.clientFunc o (h.env r.opened.files) s.wirePid s.swapEndian s.msg =
        r.state.clientFunc o (h.env h.unopened.files) s.wirePid s.swapEndian s.msg) ∧
      ∀ r', r.clientFunc o h s.wirePid s.swapEndian s.msg = .ok r' → I r') :
    Agree (fun r c => r.state = c) (serve o h doTrace ss)
      (feed o (h.env h.unopened.files) doTrace ss) := by
  refine (run_agree (R := fun r c => I r ∧ r.state = c) ?_ ⟨h0, rfl⟩).mono
    fun _ _ _ _ hrc => hrc.2
  rintro s hs r _ ⟨hI, rfl⟩
  obtain ⟨heq, hnext⟩ := hstep s hs r hI
  show Agree _ _ (r.state.clientFunc o _ s.wirePid s.swapEndian s.msg)
  rw [← heq]
  cases hc : r.clientFunc o h s.wirePid s.swapEndian s.msg with
  | error f =>
    unfold Running.clientFunc at hc
    dsimp only at hc
    rcases bind_eq_error.mp hc with hc | ⟨_, _, hc⟩
    · rw [hc]
      rfl
    · cases hc
  | ok r' =>
    rw [(Running.clientFunc_eq_ok.mp hc).1]
    exact ⟨hnext r' hc, rfl⟩

/-- The maps of a record are among those that are reported. -/
def MapsFrom (maps : Set MtMapPayload) (p : Process) : Prop :=
  ∀ x ∈ p.mapList, ∃ m ∈ maps, x = mapOf m

theorem serve_steady (hs : h.Steady maps) (hss : ∀ s ∈ ss, s.From pids maps) :
    Agree (fun r c => r.state = c) (serve o h doTrace ss)
      (feed o (h.env h.unopened.files) doTrace ss) := by
  refine serve_agree (I := fun r => Recorded (MapsFrom maps) doTrace r.state ∧
    r.opened.Sourced h maps) ⟨recorded_init _ _, .unopened h maps⟩ ?_
  rintro s hmem r ⟨hrec, hsrc⟩
  obtain ⟨-, hfork, hmaps⟩ := hss s hmem
  have hnew : ∀ pid sw, MapsFrom maps (processNew pid sw doTrace) := fun _ _ _ hx => by cases hx
  have hent := hrec.entered hnew s.wirePid.toUInt32 s.swapEndian
  refine ⟨clientFunc_congr (fun _ => hsrc.agrees hs hent) _, fun r' hr' => ?_⟩
  obtain ⟨hc, hop⟩ := Running.clientFunc_eq_ok.mp hr'
  refine ⟨hrec.step hnew (fun p q hp hret x hx => ?_) hfork hc, ?_⟩
  · rcases hret.mapList x hx with hx | ⟨m, hm, rfl⟩
    · exact hp x hx
    · exact ⟨m, hmaps m hm, rfl⟩
  · rw [hop]
    exact hsrc.follow hent _ _ _

theorem serve_untraced (hss : ∀ s ∈ ss, s.From pids maps) :
    Agree (fun r c => r.state = c) (serve o h false ss)
      (feed o (h.env h.unopened.files) false ss) := by
  refine serve_agree (I := fun r => Recorded (fun p => p.tracing = false) false r.state)
    (recorded_init _ _) fun s hmem r hrec => ?_
  have hnew : ∀ pid sw, (processNew pid sw false).tracing = false := fun _ _ => rfl
  refine ⟨clientFunc_congr (fun ht => ?_) _, fun r' hr' => ?_⟩
  · rw [hrec.entered hnew] at ht
    cases ht
  · exact hrec.step hnew (fun p q hp hret => hret.tracing.trans hp) (hss s hmem).2.1
      (Running.clientFunc_eq_ok.mp hr').1

/-- What holds of the client without its files holds of the client with them. -/
theorem isolated_of_agree (ha : ToldApart pids)
    (hag : ∀ ss : List Sent, (∀ s ∈ ss, s.From pids maps) →
      Agree (fun r c => r.state = c) (serve o h doTrace ss)
        (feed o (h.env h.unopened.files) doTrace ss)) : Isolated o h doTrace pids maps := by
  intro ss hss
  have hown : ∀ pid, ∀ s ∈ ownOf pid ss, s.From pids maps := fun pid s hs =>
    hss s (List.mem_of_mem_filter hs)
  have hiff : ∀ ss, (∀ s ∈ ss, s.From pids maps) → ((∃ r, serve o h doTrace ss = .ok r) ↔
      ∃ c, feed o (h.env h.unopened.files) doTrace ss = .ok c) := by
    intro ss hss
    have hss' := hag ss hss
    constructor
    · rintro ⟨r, hr⟩
      obtain ⟨c, hc, -⟩ := hss'.ok hr
      exact ⟨c, hc⟩
    · rintro ⟨c, hc⟩
      cases hr : serve o h doTrace ss with
      | error f => cases (hss'.error hr).symm.trans hc
      | ok r => exact ⟨r, rfl⟩
  obtain ⟨hends, hrec⟩ : ((∃ c, feed o (h.env h.unopened.files) doTrace ss = .ok c) ↔ _) ∧ _ :=
    feed_apart ha fun s hs => ⟨(hss s hs).1, (hss s hs).2.1⟩
  constructor
  · rw [hiff ss hss, hends]
    exact forall₂_congr fun pid _ => (hiff _ (hown pid)).symm
  · intro r hr pid hpid r' hr'
    obtain ⟨c, hc, rfl⟩ := (hag ss hss).ok hr
    obtain ⟨d, hd, rfl⟩ := (hag _ (hown pid)).ok hr'
    exact hrec _ hc pid hpid _ hd

/-! ## One process alone -/

/-- The processes of which the client keeps no record. -/
theorem serve_findProcess_zero (hss : ∀ s ∈ ss, s.From pids maps)
    (hr : serve o h doTrace ss = .ok r) : r.state.findProcess 0 = none := by
  have hreach : Machine.Reach _ (fun _ s => Sent.From pids maps s) _ r :=
    reach_run ss _ r (fun s hs _ => hss s hs) .init hr
  refine (hreach.invariant (P := fun r => Accounted r.state ∧ r.state.findProcess 0 = none)
    ⟨accounted_init doTrace, rfl⟩ ?_).2
  rintro r s r' ⟨ha, hnone⟩ ⟨-, hfork, -⟩ hstep
  have hc := (Running.clientFunc_eq_ok.mp hstep).1
  refine ⟨((clientFunc_ends ha _ _ _).ok hc).2.1, ?_⟩
  have hz : s.wirePid.toUInt32 ≠ 0 := by
    intro hz
    rw [State.clientFunc, if_pos (UInt16.toUInt32_inj.mp hz)] at hc
    cases hc
  rw [(clientFunc_other ha hz hfork hc).2]
  exact hnone

theorem serve_wirePid_zero {s : Sent} (hs : s ∈ ss) (hz : s.wirePid = 0) :
    ¬ ∃ r, serve o h doTrace ss = .ok r := by
  rintro ⟨r, hr⟩
  obtain ⟨before, after, rfl⟩ := List.append_of_mem hs
  unfold serve at hr
  rw [run_append] at hr
  obtain ⟨r₁, -, hr⟩ := bind_eq_ok.mp hr
  obtain ⟨r₂, h₂, -⟩ := bind_eq_ok.mp hr
  have hc := (Running.clientFunc_eq_ok.mp h₂).1
  rw [State.clientFunc, if_pos hz] at hc
  cases hc

theorem isolated_of_lone (hl : ∀ p ∈ pids, ∀ q ∈ pids, p ≠ q → p.toUInt16 = 0 ∨ q.toUInt16 = 0) :
    Isolated o h doTrace pids maps := by
  intro ss hss
  by_cases hz : ∃ s ∈ ss, s.wirePid = 0
  · obtain ⟨s, hs, hz⟩ := hz
    have hfail : ¬ ∃ r, serve o h doTrace ss = .ok r := serve_wirePid_zero hs hz
    refine ⟨iff_of_false hfail fun hown => ?_, fun r hr => absurd ⟨r, hr⟩ hfail⟩
    have hmem : s ∈ ownOf s.pid ss := List.mem_filter.mpr ⟨hs, decide_eq_true rfl⟩
    exact serve_wirePid_zero hmem hz (hown s.pid (hss s hs).1)
  · have hnz : ∀ s ∈ ss, s.pid.toUInt16 ≠ 0 := fun s hs h0 => hz ⟨s, hs, h0⟩
    have hcases : ∀ pid ∈ pids, ownOf pid ss = ss ∨ pid.toUInt16 = 0 ∧ ownOf pid ss = [] := by
      intro pid hpid
      by_cases hall : ∀ s ∈ ss, s.pid = pid
      · exact .inl (List.filter_eq_self.mpr fun s hs => decide_eq_true (hall s hs))
      · push Not at hall
        obtain ⟨s, hs, hne⟩ := hall
        have h0 := (hl s.pid (hss s hs).1 pid hpid hne).resolve_left (hnz s hs)
        refine .inr ⟨h0, List.filter_eq_nil_iff.mpr fun s' hs' => ?_⟩
        rw [decide_eq_true_eq]
        rintro rfl
        exact hnz s' hs' h0
    refine ⟨⟨?_, ?_⟩, ?_⟩
    · rintro ⟨r, hr⟩ pid hpid
      rcases hcases pid hpid with hown | ⟨-, hown⟩
      · exact ⟨r, hown.symm ▸ hr⟩
      · exact ⟨.init h doTrace, by rw [hown]; rfl⟩
    · intro hown
      rcases ss with _ | ⟨s, ss⟩
      · exact ⟨_, rfl⟩
      · have hs := List.mem_cons_self (a := s) (l := ss)
        have hself : ownOf s.pid (s :: ss) = s :: ss :=
          (hcases s.pid (hss s hs).1).resolve_right fun h0 => hnz s hs h0.1
        exact hself ▸ hown s.pid (hss s hs).1
    · intro r hr pid hpid r' hr'
      rcases hcases pid hpid with hown | ⟨h0, hown⟩
      · rw [hown] at hr'
        cases hr.symm.trans hr'
        rfl
      · rw [hown] at hr'
        cases hr'
        unfold State.recordOf
        rw [h0]
        exact congrArg (Option.map Process.bare) (serve_findProcess_zero hss hr)

/-! ## Two processes -/

theorem stacksPut_of_live {k : Stacks} (hk : ∀ i < k.next, k.refcnt i ≠ 0) (f : Opened) :
    f.stacksPut k = f := by
  have hloop : ∀ is : List StackId, (∀ i ∈ is, i < k.next) →
      is.foldl (fun f i => if k.refcnt i = 0 then f.stackPut i else f) f = f := by
    intro is
    induction is with
    | nil => exact fun _ => rfl
    | cons i is ih =>
      intro his
      rw [List.foldl_cons, if_neg (hk i (his i List.mem_cons_self))]
      exact ih fun j hj => his j (List.mem_cons_of_mem i hj)
  exact hloop _ fun i hi => List.mem_range.mp hi

/-- A message after which no `struct stack` is new or without references. -/
theorem Running.clientFunc_still {pid : UInt16} {m : MtMsg} {c : State}
    (hc : r.state.clientFunc o (h.env r.opened.files) pid false m = .ok c)
    (hheap : c.heap = r.state.heap) (hlive : ∀ i < c.heap.next, c.heap.refcnt i ≠ 0) :
    r.clientFunc o h pid false m = .ok ⟨c, r.opened⟩ := by
  refine Running.clientFunc_eq_ok.mpr ⟨hc, ?_⟩
  unfold Opened.follow
  rw [stacksPut_of_live hlive, if_pos (congrArg Stacks.next hheap)]

/-- A message whose handler makes the record `q` of the record `p`. -/
theorem clientFunc_handled (env : Env) {c : State} (ha : Accounted c) {pid : UInt16} (hz : pid ≠ 0)
    {p : Process}
    (hp : (c.findProcess pid.toUInt32).getD (processNew pid.toUInt32 false c.doTrace) = p)
    (hsw : p.swapEndian = false) (hst : p.status = .running) {m : MtMsg} {k : Stacks} {q : Process}
    (hq : q.pid = pid.toUInt32)
    (hr : ∀ parent, handleRecord o env parent c.heap p m = .ok (k, q, false)) :
    ∃ c', c.clientFunc o env pid false m = .ok c' ∧ Accounted c' ∧ c'.doTrace = c.doTrace ∧
      c'.heap = k ∧ ∀ a, c'.findProcess a =
        if pid.toUInt32 = a then some q else c.findProcess a := by
  obtain ⟨hac, htc, hent, hf⟩ := enter_spec ha pid.toUInt32 false
  have hheap : (c.enter pid.toUInt32 false).1.heap = c.heap := by
    unfold State.enter
    split <;> rfl
  have hfind := (hf pid.toUInt32).trans (if_pos rfl)
  have hrun : c.clientFunc o env pid false m =
      .ok ((c.enter pid.toUInt32 false).1.store k q) := by
    unfold State.clientFunc
    dsimp only
    rw [if_neg hz, hent, hp, if_neg (by rw [hsw, hst]; decide),
      dispatch_eq hac.sorted (hp ▸ hent ▸ (findProcess_eq_some hfind).1), hheap, hr]
    rfl
  refine ⟨_, hrun, ((clientFunc_ends ha pid false m).ok hrun).2.1, htc, rfl, fun a => ?_⟩
  split
  next h => exact h ▸ findProcess_store_self hfind hq
  next h =>
    rw [findProcess_store_other (fun he => h (hq.symm.trans he)), hf, if_neg h]

/-- A process that has attached. -/
def attachedRecord (pid : UInt32) (doTrace : Bool) : Process :=
  { processNew pid false doTrace with is64bit := true }

theorem handleRecord_attach {env : Env} (parent : UInt32 → Option Process) (k : Stacks)
    (pid : UInt32) :
    handleRecord o env parent k (processNew pid false doTrace) (.attach true false) =
      .ok (k, attachedRecord pid doTrace, false) := rfl

theorem map_ignore_modifyNode (p : Process) (i : NodeId) {f : RbStack → RbStack}
    (hf : ∀ n, (f n).stack = n.stack) : (p.modifyNode i f).nodes.map (fun n => n.stack.ignore) =
      p.nodes.map fun n => n.stack.ignore := by
  rw [Process.nodes_modifyNode, List.map_map]
  refine List.map_congr_left fun n _ => ?_
  show (if n.id = i then f n else n).stack.ignore = n.stack.ignore
  split
  · rw [hf]
  · rfl

theorem map_ignore_stampNode (p : Process) (i : NodeId) {f : RbStack → RbStack}
    (hf : ∀ n, (f n).stack = n.stack) : (p.stampNode i f).nodes.map (fun n => n.stack.ignore) =
      p.nodes.map fun n => n.stack.ignore :=
  map_ignore_modifyNode p i (f := fun n => { f n with tsc := p.tsc }) hf

/-- The only `malloc` of a process. -/
theorem processAlloc_first {env : Env} {k : Stacks} {p : Process} {data : List UInt8} {b : Bool}
    (ht : p.tracing = true) (hblocks : p.blockTable = .nil) (hstacks : p.stackTable = .nil)
    (hb : stackResolv env p data = .ok b) : ∃ k' q,
      processAlloc o env k p .malloc ⟨0x1000, 16, data⟩ = .ok (k', q) ∧ q.pid = p.pid ∧
      q.nodes.map (fun n => n.stack.ignore) = [b] ∧ k'.next = k.next + 1 ∧
      (∀ i < k.next, k'.refcnt i = k.refcnt i) ∧ k'.refcnt k.next ≠ 0 := by
  have hadd : stackAdd env k p data .malloc = .ok (k.new.get k.next,
      p.linkNode (.fresh k p data .malloc b), p.nextNode) := by
    unfold stackAdd
    rw [hstacks, hb]
    rfl
  have hnodes : (p.linkNode (.fresh k p data .malloc b)).nodes = [.fresh k p data .malloc b] := by
    unfold Process.nodes Process.linkNode
    rw [hstacks]
    rfl
  have hderef : (p.linkNode (.fresh k p data .malloc b)).deref p.nextNode =
      .ok (.fresh k p data .malloc b) := by
    refine Process.deref_eq_ok.mpr ⟨?_, Nat.one_ne_zero⟩
    unfold Process.node?
    rw [hnodes]
    exact List.find?_cons_of_pos (decide_eq_true rfl)
  have hinsert : processRbInsertBlock o (k.new.get k.next)
      (p.linkNode (.fresh k p data .malloc b)) 0x1000 16 p.nextNode 0 =
        .ok ((k.new.get k.next).get k.next,
          (p.linkNode (.fresh k p data .malloc b)).addBlock ⟨0, 0x1000, 16, p.nextNode⟩) := by
    refine processRbInsertBlock_eq_ok.mpr ⟨?_, _, hderef, rfl⟩
    have htable : (p.linkNode (.fresh k p data .malloc b)).blockTable = .nil := hblocks
    rw [htable]
    exact Bool.and_false _
  unfold processAlloc
  rw [ht, hblocks]
  show ∃ k' q, (stackAdd env k p data .malloc >>= _) = _ ∧ _
  rw [hadd]
  show ∃ k' q, (processRbInsertBlock o (k.new.get k.next) _ 0x1000 16 p.nextNode 0 >>= _) = _ ∧ _
  rw [hinsert]
  refine ⟨_, _, rfl, rfl, ?_, rfl, fun i hi => ?_, ?_⟩
  · refine (map_ignore_stampNode _ p.nextNode fun _ => rfl).trans ?_
    refine (map_ignore_modifyNode (p.linkNode _) p.nextNode (f := (·.add 16)) fun _ => rfl).trans ?_
    rw [hnodes]
    rfl
  · show ((k.new.get k.next).get k.next).refcnt i = k.refcnt i
    rw [Stacks.refcnt_get, Stacks.refcnt_get, if_neg (Nat.ne_of_gt hi)]
    exact Function.update_of_ne (Nat.ne_of_lt hi) _ _
  · show ((k.new.get k.next).get k.next).refcnt k.next ≠ 0
    rw [Stacks.refcnt_get, if_pos rfl]
    exact Nat.succ_ne_zero _

/-- Every `struct stack` has a reference. -/
def Running.Live (r : Running) : Prop := ∀ i < r.state.heap.next, r.state.heap.refcnt i ≠ 0

/-- A process attaches, reports one mapping and calls `malloc` from an address in it. -/
def oneCall (h : Host) (pid : UInt32) (m : MtMapPayload) (addr : UInt64) : List Sent :=
  [⟨pid, false, .attach true false⟩, ⟨pid, false, .addMap m⟩,
    ⟨pid, false, .alloc .malloc isAllocOp_malloc
      ⟨0x1000, 16, (h.env h.unopened.files).byteOrder.array 8 [addr.toNat]⟩⟩]

/-- The record of the process before its call. -/
def mappedRecord (pid : UInt32) (m : MtMapPayload) : Process :=
  processAddMap (attachedRecord pid true) (mapOf m)

section Call

variable {pid : UInt32} {m : MtMapPayload} {addr : UInt64} {path : String}

theorem locateMap_mappedRecord (hc : (mapOf m).Covers addr) :
    locateMap (mappedRecord pid m) addr = some (mapOf m) := by
  refine List.find?_cons_of_pos ?_
  rw [Bool.and_eq_true, decide_eq_true_eq, decide_eq_true_eq]
  exact hc

theorem stackEntries_mappedRecord (files : String → BinFile) :
    stackEntries (h.env files) (mappedRecord pid m)
      ((h.env h.unopened.files).byteOrder.array 8 [addr.toNat]) = [addr] :=
  have hsw : (mappedRecord pid m).swapEndian =
      decide ((h.env files).byteOrder ≠ (h.env files).byteOrder) :=
    (decide_eq_false fun hne => hne rfl).symm
  (stackEntries_array hsw fun x _ => x.toNat_lt : stackEntries _ _
    ((h.env files).byteOrder.array _ ([addr].map UInt64.toNat)) = [addr])

theorem stackResolv_mappedRecord (hopen : h.openMap m.filename = some path)
    (hc : (mapOf m).Covers addr) (files : String → BinFile) :
    stackResolv (h.env files) (mappedRecord pid m)
      ((h.env h.unopened.files).byteOrder.array 8 [addr.toNat]) =
        .ok (ignored h.regexIgnoreList ((files path).lookup addr m.bias).1.sym) := by
  have hresolv : resolvAddress (h.env files) (mappedRecord pid m) addr =
      .ok ((files path).lookup addr m.bias).1.sym := by
    unfold resolvAddress Host.env
    rw [locateMap_mappedRecord hc]
    dsimp only
    show Except.ok (((h.openMap m.filename).map _).getD _) = _
    rw [hopen]
    rfl
  unfold stackResolv
  rw [stackEntries_mappedRecord, List.mapM_cons, hresolv]
  exact congrArg Except.ok (Bool.or_false _)

theorem follow_mappedRecord (hopen : h.openMap m.filename = some path)
    (hc : (mapOf m).Covers addr) {k k' : Stacks} (hnext : k'.next = k.next + 1)
    (hlive : ∀ i < k'.next, k'.refcnt i ≠ 0) (f : Opened) :
    (f.follow h (mappedRecord pid m) [addr] k k').files path =
      ((f.files path).lookup addr m.bias).2 := by
  unfold Opened.follow
  rw [stacksPut_of_live hlive, if_neg (hnext ▸ Nat.succ_ne_self _)]
  unfold Opened.stackResolv
  rw [List.foldl_cons, List.foldl_nil]
  unfold Opened.resolvAddress
  rw [locateMap_mappedRecord hc]
  show Opened.files (match h.openMap m.filename with | none => f | some path => _) path = _
  rw [hopen]
  exact Function.update_self _ _ _

/-- The backtrace is ignored or not as the symbol says that the file has in use or makes. -/
theorem run_oneCall (ha : Accounted r.state) (hlive : r.Live) (ht : r.state.doTrace = true)
    (hz : pid.toUInt16 ≠ 0) (hnew : r.state.findProcess pid.toUInt16.toUInt32 = none)
    (hopen : h.openMap m.filename = some path) (hc : (mapOf m).Covers addr) : ∃ r' q,
      Machine.run (fun r s => r.clientFunc o h s.wirePid s.swapEndian s.msg) r
        (oneCall h pid m addr) = .ok r' ∧
      Accounted r'.state ∧ r'.Live ∧ r'.state.doTrace = true ∧
      (∀ a, r'.state.findProcess a =
        if pid.toUInt16.toUInt32 = a then some q else r.state.findProcess a) ∧
      q.nodes.map (fun n => n.stack.ignore) =
        [ignored h.regexIgnoreList ((r.opened.files path).lookup addr m.bias).1.sym] ∧
      r'.opened.files path = ((r.opened.files path).lookup addr m.bias).2 := by
  obtain ⟨c₁, h₁, ha₁, ht₁, hk₁, hf₁⟩ := clientFunc_handled (o := o)
    (h.env r.opened.files) (q := attachedRecord pid.toUInt16.toUInt32 true)
    (m := .attach true false) ha hz (by rw [hnew, ht, Option.getD_none]) rfl rfl rfl
    fun parent => handleRecord_attach parent _ _
  have hr₁ := Running.clientFunc_still h₁ hk₁ (hk₁ ▸ hlive)
  obtain ⟨c₂, h₂, ha₂, ht₂, hk₂, hf₂⟩ := clientFunc_handled (o := o)
    (h.env r.opened.files) (m := .addMap m) (k := c₁.heap)
    (q := mappedRecord pid.toUInt16.toUInt32 m) ha₁ hz
    (by rw [hf₁, if_pos rfl, Option.getD_some]) rfl rfl rfl fun parent => rfl
  have hr₂ := Running.clientFunc_still (r := ⟨c₁, r.opened⟩) h₂ hk₂ (hk₂ ▸ hk₁ ▸ hlive)
  obtain ⟨k', q, halloc, hqpid, hq, hnext, hold, hlast⟩ := processAlloc_first (o := o)
    (k := c₂.heap) (p := mappedRecord pid.toUInt16.toUInt32 m) rfl rfl rfl
    (stackResolv_mappedRecord hopen hc r.opened.files)
  obtain ⟨c₃, h₃, ha₃, ht₃, hk₃, hf₃⟩ := clientFunc_handled (o := o)
    (h.env r.opened.files) (q := q) (k := k') (m := .alloc .malloc isAllocOp_malloc
      ⟨0x1000, 16, (h.env h.unopened.files).byteOrder.array 8 [addr.toNat]⟩) ha₂ hz
    (by rw [hf₂, if_pos rfl, Option.getD_some]) rfl rfl (hqpid.trans rfl)
    fun parent => by
      show (processAlloc o _ c₂.heap (mappedRecord _ m) .malloc _ >>= _) = _
      rw [halloc]
      rfl
  have hlive₂ : ∀ i < c₂.heap.next, c₂.heap.refcnt i ≠ 0 := hk₂ ▸ hk₁ ▸ hlive
  have hlive₃ : ∀ i < c₃.heap.next, c₃.heap.refcnt i ≠ 0 := by
    intro i hi
    rw [hk₃, hnext] at hi
    rw [hk₃]
    rcases Nat.lt_succ_iff_lt_or_eq.mp hi with hi | rfl
    · rw [hold i hi]
      exact hlive₂ i hi
    · exact hlast
  have hent : (c₂.enter pid.toUInt16.toUInt32 false).2 =
      mappedRecord pid.toUInt16.toUInt32 m := by
    rw [(enter_spec ha₂ _ false).2.2.1, hf₂, if_pos rfl, Option.getD_some]
  have hr₃ : Running.clientFunc o h ⟨c₂, r.opened⟩ pid.toUInt16 false (.alloc .malloc
      isAllocOp_malloc ⟨0x1000, 16, (h.env h.unopened.files).byteOrder.array 8 [addr.toNat]⟩) =
        .ok ⟨c₃, r.opened.follow h (mappedRecord pid.toUInt16.toUInt32 m) [addr] c₂.heap
          c₃.heap⟩ := by
    refine Running.clientFunc_eq_ok.mpr ⟨h₃, ?_⟩
    show _ = r.opened.follow h (c₂.enter pid.toUInt16.toUInt32 false).2
      (stackEntries (h.env r.opened.files) (c₂.enter pid.toUInt16.toUInt32 false).2 _) c₂.heap _
    rw [hent]
    exact congrArg (fun xs => r.opened.follow h _ xs c₂.heap c₃.heap)
      (stackEntries_mappedRecord r.opened.files).symm
  refine ⟨_, q, bind_eq_ok.mpr ⟨_, hr₁, bind_eq_ok.mpr ⟨_, hr₂, bind_eq_ok.mpr ⟨_, hr₃, rfl⟩⟩⟩,
    ha₃, hlive₃, ht₃.trans (ht₂.trans (ht₁.trans ht)), fun a => ?_, hq,
    follow_mappedRecord hopen hc (hk₃ ▸ hnext) hlive₃ _⟩
  rw [hf₃, hf₂, hf₁]
  split <;> rfl

/-- The symbol that is made for one bias is found for another one. -/
theorem lookup_lookup_unopened (h : Host) (path : String) (addr bias bias' : UInt64) :
    (((h.unopened.files path).lookup addr bias).2.lookup addr bias').1.sym =
        h.sym path addr bias ∧
      ((h.unopened.files path).lookup addr bias).1.sym = h.sym path addr bias := by
  have hnil : (h.unopened.files path).Holds fun _ => none := ⟨sorted_nil, fun _ => rfl⟩
  have hnone : (fun _ => none : Users) addr = none := rfl
  obtain ⟨hshown, habfd, hholds⟩ := lookup_of_none bias hnil hnone
  have huser : Users.lookup (fun _ => none) addr bias addr = some (bias, 1) :=
    Function.update_self _ _ _
  have hshown' := (lookup_of_some bias' hholds huser).1
  refine ⟨(congrArg (fun s => s.2.1) hshown').trans ?_, congrArg (fun s => s.2.1) hshown⟩
  rw [habfd]
  rfl

theorem from_oneCall (hpid : pid ∈ pids) (hm : m ∈ maps) {s : Sent}
    (hs : s ∈ oneCall h pid m addr) : s.From pids maps := by
  unfold oneCall at hs
  simp only [List.mem_cons, List.not_mem_nil, or_false] at hs
  rcases hs with rfl | rfl | rfl
  · exact ⟨hpid, (by intro _ he; cases he), (by intro _ he; cases he)⟩
  · exact ⟨hpid, (by intro _ he; cases he), (by intro _ he; cases he; exact hm)⟩
  · exact ⟨hpid, (by intro _ he; cases he), (by intro _ he; cases he)⟩

theorem map_ignore_of_bare {p q : Process} (hb : p.bare = q.bare) :
    p.nodes.map (fun n => n.stack.ignore) = q.nodes.map fun n => n.stack.ignore := by
  have hbare : ∀ p : Process, p.bare.nodes.map (fun n => n.stack.ignore) =
      p.nodes.map fun n => n.stack.ignore := by
    intro p
    unfold Process.nodes Process.bare
    rw [toList_map, List.map_map]
    rfl
  rw [← hbare p, hb, hbare q]

end Call

theorem toldApart_of_isolated (hi : Isolated o h doTrace pids maps) : ToldApart pids := by
  intro p hp q hq hne he
  by_contra hz
  have ha := accounted_init doTrace
  obtain ⟨c, hc, -, -, hk, hf⟩ := clientFunc_handled (o := o) (h.env h.unopened.files)
    (q := attachedRecord p.toUInt16.toUInt32 doTrace) (m := .attach true false) ha hz rfl rfl rfl
    rfl fun parent => handleRecord_attach parent _ _
  have hlive : ∀ i < c.heap.next, c.heap.refcnt i ≠ 0 := by
    rw [hk]
    exact fun i hi => absurd hi (Nat.not_lt_zero i)
  have hr := Running.clientFunc_still (r := .init h doTrace) hc hk hlive
  rw [he] at hr
  have hown : ownOf p [⟨q, false, .attach true false⟩] = [] := by
    unfold ownOf
    rw [List.filter_cons_of_neg (by rw [decide_eq_true_eq]; exact Ne.symm hne), List.filter_nil]
  have hrec := (hi [⟨q, false, .attach true false⟩] fun s hs => ?_).2 _
    (bind_eq_ok.mpr ⟨_, hr, rfl⟩) p hp (.init h doTrace) (by rw [hown]; rfl)
  · unfold State.recordOf at hrec
    rw [hf, if_pos rfl] at hrec
    cases hrec
  · rw [List.mem_singleton.mp hs]
    exact ⟨hq, (by intro _ hm; cases hm), (by intro _ hm; cases hm)⟩

/-- Of two processes one can find the symbol in use that the other has looked up. -/
theorem steady_of_isolated (hi : Isolated o h true pids maps) {p q : UInt32} (hp : p ∈ pids)
    (hq : q ∈ pids) (hne : p ≠ q) (hpz : p.toUInt16 ≠ 0) (hqz : q.toUInt16 ≠ 0) :
    h.Steady maps := by
  intro m hm m' hm' path hopen hopen' addr hc hc'
  have hpq : q.toUInt16.toUInt32 ≠ p.toUInt16.toUInt32 := fun he =>
    hpz (toldApart_of_isolated hi p hp q hq hne (UInt16.toUInt32_inj.mp he).symm)
  have hlive : (Running.init h true).Live := fun i hi => absurd hi (Nat.not_lt_zero i)
  have ha := accounted_init true
  -- `p` alone
  obtain ⟨r₁, a₁, hrun₁, -, -, -, hf₁, hign₁, -⟩ := run_oneCall (o := o) (r := .init h true) ha
    hlive rfl hpz rfl hopen hc
  -- `q`, and `p` behind it
  obtain ⟨r₂, a₂, hrun₂, ha₂, hlive₂, ht₂, hf₂, -, hfiles⟩ := run_oneCall (o := o)
    (r := .init h true) ha hlive rfl hqz rfl hopen' hc'
  obtain ⟨r₃, a₃, hrun₃, -, -, -, hf₃, hign₃, -⟩ := run_oneCall (o := o) (r := r₂) ha₂ hlive₂ ht₂
    hpz ((hf₂ _).trans (if_neg hpq)) hopen hc
  have hown : ownOf p (oneCall h q m' addr ++ oneCall h p m addr) = oneCall h p m addr := by
    simp [ownOf, oneCall, Ne.symm hne]
  have hrun : serve o h true (oneCall h q m' addr ++ oneCall h p m addr) = .ok r₃ :=
    (run_append ..).trans (bind_eq_ok.mpr ⟨r₂, hrun₂, hrun₃⟩)
  have hrec := (hi _ fun s hs => ?_).2 r₃ hrun p hp r₁ (by rw [hown]; exact hrun₁)
  · unfold State.recordOf at hrec
    rw [hf₃, hf₁, if_pos rfl, if_pos rfl] at hrec
    have hsame := map_ignore_of_bare (Option.some.inj hrec)
    rw [hign₃, hign₁, hfiles] at hsame
    have hsym := (List.cons.inj hsame).1
    have hcached := (lookup_lookup_unopened h path addr m'.bias m.bias).1
    have hfresh := (lookup_lookup_unopened h path addr m.bias m.bias).2
    exact ((congrArg _ hfresh).symm.trans hsym.symm).trans (congrArg _ hcached)
  · rcases List.mem_append.mp hs with hs | hs
    · exact from_oneCall hq hm' hs
    · exact from_oneCall hp hm hs

/-- The records of the traced processes are kept apart exactly when their pids are by the 16 bits
of the header and, if there are two of them that the client traces, the files are steady.  Processes
whose 16 bits are zero do not count: their first message ends the client, alone or among others. -/
theorem isolated_iff (o : Options) (h : Host) (doTrace : Bool) (pids : Set UInt32)
    (maps : Set MtMapPayload) : Isolated o h doTrace pids maps ↔
      (∀ p ∈ pids, ∀ q ∈ pids, p ≠ q → p.toUInt16 = q.toUInt16 → p.toUInt16 = 0) ∧
      (doTrace = true → (∃ p ∈ pids, ∃ q ∈ pids, p ≠ q ∧ p.toUInt16 ≠ 0 ∧ q.toUInt16 ≠ 0) →
        h.Steady maps) := by
  constructor
  · refine fun hi => ⟨toldApart_of_isolated hi, ?_⟩
    rintro rfl ⟨p, hp, q, hq, hne, hpz, hqz⟩
    exact steady_of_isolated hi hp hq hne hpz hqz
  · rintro ⟨ha, hs⟩
    by_cases htwo : ∃ p ∈ pids, ∃ q ∈ pids, p ≠ q ∧ p.toUInt16 ≠ 0 ∧ q.toUInt16 ≠ 0
    · rcases doTrace with _ | _
      · exact isolated_of_agree ha fun ss hss => serve_untraced hss
      · exact isolated_of_agree ha fun ss hss => serve_steady (hs rfl htwo) hss
    · refine isolated_of_lone fun p hp q hq hne => ?_
      by_contra hnz
      exact htwo ⟨p, hp, q, hq, hne, fun h0 => hnz (.inl h0), fun h0 => hnz (.inr h0)⟩

end Streams

/-- Files are steady when there are no patterns, and when no bias counts. -/
theorem Host.steady_of_execP {h : Host}
    (hh : h.regexIgnoreList = [] ∨ ∀ path, (h.binFileOpen path).execP = true)
    (maps : Set MtMapPayload) : h.Steady maps := by
  intro m _ m' _ path _ _ addr _ _
  rcases hh with hnil | hexec
  · have hnone : ∀ sym, ignored h.regexIgnoreList sym = false := by
      intro sym
      rw [hnil]
      cases sym <;> rfl
    rw [hnone, hnone]
  · unfold Host.sym Bfd.pc
    rw [if_pos (hexec path), if_pos (hexec path)]

/-- A client that is to ignore the backtraces through `first`. -/
def libraryHost : Host where
  bigEndian := false
  regexIgnoreList := [fun s => s == "first"]
  openMap := some
  binFileOpen _ := twoFunctions

/-- The library at two addresses a page apart. -/
def libraryMaps : Set MtMapPayload :=
  {⟨0x10000, 0, 0x2000, 0x10000, "lib.so"⟩, ⟨0x11000, 0, 0x2000, 0x11000, "lib.so"⟩}

/-- Two legal pids with one record; and two processes with one symbol. -/
theorem not_isolated_sharing : ¬ Isolated plainOptions libraryHost true {1, 65537} Set.univ ∧
    ¬ Isolated plainOptions libraryHost true {1, 2} libraryMaps := by
  constructor
  · intro h
    have hz := toldApart_of_isolated h 1 (.inl rfl) 65537 (.inr rfl) (by decide) (by decide)
    revert hz
    decide
  · intro h
    have hs := steady_of_isolated h (.inl rfl) (.inr rfl) (by decide) (by decide) (by decide)
    have hsym := hs _ (.inl rfl) _ (.inr rfl) "lib.so" rfl rfl 0x11000 ⟨by decide, by decide⟩
      ⟨by decide, by decide⟩
    revert hsym
    decide

end Mtrace.Client
