import Mtrace.Client.Told

/-!
# Messages over the wire

The client on the bytes of a session: `client_func` reads a message off the descriptor, finds out
what its payload says by the record of the process, and hands it to a handler.  In whatever pieces
the stream arrives, and wherever it breaks off, the client makes of it what the messages make of it
that arrived as a whole, as long as the server tells the width of a task before it uses it.
-/

namespace Mtrace.Client

open RbTree Machine Wire

/-! ## The server -/

/-- A message about a task, as the server sends it. -/
@[ext]
structure TaskReport where
  pid : UInt32
  is64bit : Bool
  msg : MtMsg
  fits : msg.Fits is64bit
  short : (msg.payload .little is64bit).length < 2 ^ 31

/-- A message of a session. -/
inductive ServerReport where
  /-- `report_info`: the bytes of `struct memtrace_info`. -/
  | info (payload : List UInt8) (hlen : payload.length = 136)
  | task (r : TaskReport)

namespace ServerReport

variable {so so' : ByteOrder} {logfile : Bool} {serverFd : ℤ}

def operation : ServerReport → MtOperation
  | .info _ _ => .info
  | .task r => r.msg.operation

def pid : ServerReport → UInt32
  | .info _ _ => 0
  | .task r => r.pid

def payload (so : ByteOrder) : ServerReport → List UInt8
  | .info payload _ => payload
  | .task r => r.msg.payload so r.is64bit

/-- The call of `server_send_msg`. -/
def send (so : ByteOrder) (logfile : Bool) (serverFd : ℤ) (r : ServerReport) :
    Option (List UInt8) :=
  serverSendMsg so logfile serverFd r.operation.code r.pid (r.payload so)
    (.ofNat (r.payload so).length)

def header (so : ByteOrder) (r : ServerReport) : Wire.MtMsg :=
  ⟨r.operation.code.toUInt16, r.pid.toUInt16, .ofNat (r.payload so).length⟩

/-- The bytes of a message. -/
def frame (so : ByteOrder) (r : ServerReport) : List UInt8 :=
  (r.header so).toBytes so ++ r.payload so

/-- What happens to a client that sees the byte orders differ, or does not. -/
def event (sw : Bool) : ServerReport → Event
  | .info payload _ => .info (payload.getD 2 0 != 0)
  | .task r => .msg r.pid.toUInt16 sw r.msg

theorem length_payload_lt (so : ByteOrder) (r : ServerReport) : (r.payload so).length < 2 ^ 31 := by
  cases r with
  | info payload hlen =>
    rw [ServerReport.payload, hlen]
    decide
  | task r =>
    rw [ServerReport.payload, length_payload so .little]
    exact r.short

theorem toNat_payloadLen (r : ServerReport) :
    (UInt32.ofNat (r.payload so).length).toNat = (r.payload so).length := by
  have h := r.length_payload_lt so
  rw [UInt32.toNat_ofNat']
  omega

theorem send_eq (hfd : serverFd ≠ -1) (r : ServerReport) :
    r.send so logfile serverFd = some (r.frame so) := by
  unfold send
  rw [serverSendMsg_eq so r.operation r.pid _ _ hfd, toNat_payloadLen, List.take_length]
  rfl

theorem length_frame (so : ByteOrder) (r : ServerReport) :
    (r.frame so).length = 8 + (r.payload so).length := by
  unfold frame
  rw [List.length_append, MtMsg.length_toBytes]

theorem frame_take (r : ServerReport) (rest : List UInt8) :
    (r.frame so ++ rest).take 8 = (r.header so).toBytes so := by
  unfold frame
  rw [List.append_assoc, take_toBytes_append]

/-- The header arrives, and the client sees whether the byte orders differ. -/
theorem readHeader_header (r : ServerReport) (h : r.operation = .info → so = so') :
    readHeader so' ((r.header so).toBytes so) = (r.header so, decide (so ≠ so')) := by
  unfold header
  by_cases ho : so = so'
  · subst ho
    rw [readHeader_same]
    simp
  · rw [readHeader_other ho, if_neg fun hinfo => ho (h hinfo), decide_eq_true ho]

end ServerReport

/-- The bytes of a session, as `server_send_msg` writes them. -/
def serverStream (so : ByteOrder) (logfile : Bool) (serverFd : ℤ) (rs : List ServerReport) :
    Option (List UInt8) :=
  (rs.mapM (ServerReport.send so logfile serverFd)).map List.flatten

/-- The server tells a client that keeps its widths in `w` the width of a task before it sends words
of it, and `MT_INFO` only to a host of its own byte order. -/
def Announced (o : Options) (same : Prop) : Widths → List ServerReport → Prop
  | _, [] => True
  | w, .info _ _ :: rs => same ∧ Announced o same w rs
  | w, .task r :: rs => (r.msg.hasWords = true → w r.pid.toUInt16.toUInt32 = some r.is64bit) ∧
    Announced o same (w.tell o r.pid.toUInt16.toUInt32 r.msg) rs

/-- The messages that are whole among the first `j` bytes of the stream. -/
def arrived (so : ByteOrder) : ℕ → List ServerReport → List ServerReport
  | _, [] => []
  | j, r :: rs =>
    if j < (r.frame so).length then [] else r :: arrived so (j - (r.frame so).length) rs

/-! ## The client -/

/-- A handler on the payload of a message. -/
def State.handle (o : Options) (env : Env) (c : State) (p : Process) (op : MtOperation)
    (payload : List UInt8) : Except ReceiveFault State := do
  let m ← decode env p op payload
  (c.dispatch o env p m).mapError .handler

/-- `client_func` on a message; the second part says whether the connection is still open. -/
def State.receive (o : Options) (env : Env) (c : State) (r : Received) :
    Except ReceiveFault (State × Bool) :=
  if r.msg.pid = 0 then
    match MtOperation.ofCode r.msg.operation with
    | some .disconnect => .ok (c, false)
    | some .info =>
      if r.payload.length < 136 then .error .payload
      else .ok ({ c with doTrace := r.payload.getD 2 0 != 0 }, true)
    | _ => .error (.handler (.fatal "protocol violation"))
  else
    let (c, p) := c.enter r.msg.pid.toUInt32 r.swapEndian
    if p.swapEndian ≠ r.swapEndian ∨ p.status = .ignore then .ok (c, true)
    else
      match MtOperation.ofCode r.msg.operation with
      | none => .error (.handler (.fatal "protocol violation"))
      | some op => (c.handle o env p op r.payload).map fun c => (c, true)

/-- `k` passes of the loop `while (client_fd != -1) client_func()`. -/
def clientLoop (o : Options) (env : Env) : ℕ → Fd → State → Except ReceiveFault State
  | 0, _, c => .ok c
  | k + 1, fd, c => do
    match ← (socketReadMsg env.byteOrder fd).mapError .read with
    | (none, _) => return c
    | (some r, fd) =>
      let (c, more) ← c.receive o env r
      if more then clientLoop o env k fd c else return c

section Receive

variable {o : Options} {env : Env} {so : ByteOrder} {w : Widths} {trace : Bool} {c : State}

/-- A message about a task. -/
theorem Told.receive (h : Told w (decide (so ≠ env.byteOrder)) trace c) (r : TaskReport)
    (hw : r.msg.hasWords = true → w r.pid.toUInt16.toUInt32 = some r.is64bit) :
    c.receive o env ⟨(ServerReport.task r).header so, decide (so ≠ env.byteOrder),
        (ServerReport.task r).payload so⟩ =
      ((c.step o env ((ServerReport.task r).event (decide (so ≠ env.byteOrder)))).mapError
        .handler).map fun c => (c, true) := by
  have hop : MtOperation.ofCode ((ServerReport.task r).header so).operation =
      some r.msg.operation := MtOperation.ofCode_code _
  have hpid : ((ServerReport.task r).header so).pid = r.pid.toUInt16 := rfl
  show State.receive o env c _ = ((c.clientFunc o env r.pid.toUInt16 _ r.msg).mapError _).map _
  unfold State.receive State.clientFunc
  rw [hop, hpid]
  by_cases hz : r.pid.toUInt16 = 0
  · rw [if_pos hz, if_pos hz]
    have hinfo := r.msg.operation_ne_info
    have hdis : r.msg.operation ≠ .disconnect := by
      cases r.msg with
      | alloc op hop m => rintro rfl; cases hop
      | free op hop m => rintro rfl; cases hop
      | attach is64bit attached => cases is64bit <;> (intro heq; cases heq)
      | _ => intro heq; cases heq
    split
    next heq => exact absurd (Option.some.inj heq) hdis
    next heq => exact absurd (Option.some.inj heq) hinfo
    next => rfl
  · rw [if_neg hz, if_neg hz]
    obtain ⟨ht, hp⟩ := h.enter r.pid.toUInt16.toUInt32
    have hspoken := ht.record _ _ hp
    dsimp only
    split
    · rfl
    · have hdec := decode_payload hspoken.swapEndian
        (fun hwords => hspoken.width _ (hw hwords)) r.fits
      rw [State.handle, ServerReport.payload, hdec]
      rfl

/-- `MT_INFO` between hosts of one byte order. -/
theorem receive_info (o : Options) (env : Env) (c : State) {payload : List UInt8}
    (hlen : payload.length = 136) (sw : Bool) :
    c.receive o env ⟨(ServerReport.info payload hlen).header so, sw, payload⟩ =
      .ok ({ c with doTrace := payload.getD 2 0 != 0 }, true) := by
  refine (if_pos rfl).trans ?_
  show (if _ then _ else _) = _
  rw [if_neg hlen.not_lt]

end Receive

/-! ## The loop -/

section Loop

variable {o : Options} {env : Env} {so : ByteOrder} {w : Widths} {c : State} {fd fd' : Fd} {k j : ℕ}
  {r : ServerReport} {rs : List ServerReport}

theorem clientLoop_end (h : socketReadMsg env.byteOrder fd = .ok (none, fd')) :
    clientLoop o env (k + 1) fd c = .ok c := by
  rw [clientLoop, h]
  rfl

theorem clientLoop_read {m : Received} (h : socketReadMsg env.byteOrder fd = .ok (some m, fd')) :
    clientLoop o env (k + 1) fd c = c.receive o env m >>= fun x =>
      if x.2 then clientLoop o env k fd' x.1 else .ok x.1 := by
  rw [clientLoop, h]
  rfl

/-- The header of the first message, if there are enough bytes for it. -/
theorem take_header (r : ServerReport) (rest : List UInt8) (hj : 8 ≤ j) :
    ((r.frame so ++ rest).take j).take 8 = (r.header so).toBytes so := by
  rw [List.take_take, Nat.min_eq_left hj, r.frame_take]

/-- A message that is not whole is not delivered. -/
theorem socketReadMsg_partial (hinfo : r.operation = .info → so = env.byteOrder)
    {rest : List UInt8} (hin : fd.input = (r.frame so ++ rest).take j)
    (hj : j < (r.frame so).length) :
    ∃ fd', socketReadMsg env.byteOrder fd = .ok (none, fd') := by
  have hlen : fd.input.length ≤ j := by
    rw [hin, List.length_take]
    exact min_le_left _ _
  have hhead (h8 : 8 ≤ fd.input.length) :
      (readHeader env.byteOrder (fd.input.take 8)).1 = r.header so := by
    rw [hin, take_header r rest (h8.trans hlen), r.readHeader_header hinfo]
  have hplen : (r.header so).payloadLen.toNat = (r.payload so).length := r.toNat_payloadLen
  obtain ⟨fd', hread, -⟩ := socketReadMsg_eq env.byteOrder fd fun h8 => by
    rw [hhead h8, hplen]
    exact r.length_payload_lt so
  refine ⟨fd', hread.trans ?_⟩
  rw [if_pos]
  rw [r.length_frame so] at hj
  by_cases h8 : 8 ≤ fd.input.length
  · rw [hhead h8, hplen]
    omega
  · omega

/-- A whole message is delivered, and the next one is read behind it. -/
theorem socketReadMsg_whole (hinfo : r.operation = .info → so = env.byteOrder)
    {rest : List UInt8} (hin : fd.input = (r.frame so ++ rest).take j)
    (hj : (r.frame so).length ≤ j) :
    ∃ fd', fd'.input = rest.take (j - (r.frame so).length) ∧ socketReadMsg env.byteOrder fd =
      .ok (some ⟨r.header so, decide (so ≠ env.byteOrder), r.payload so⟩, fd') := by
  have hlen := r.length_frame so
  have hinput : fd.input = r.frame so ++ rest.take (j - (r.frame so).length) := by
    rw [hin, List.take_append, List.take_of_length_le hj]
  have hhead : readHeader env.byteOrder (fd.input.take 8) =
      (r.header so, decide (so ≠ env.byteOrder)) := by
    rw [hinput, r.frame_take, r.readHeader_header hinfo]
  have hplen : (r.header so).payloadLen.toNat = (r.payload so).length := r.toNat_payloadLen
  obtain ⟨fd', hread, hrest⟩ := socketReadMsg_eq env.byteOrder fd fun _ => by
    rw [hhead, hplen]
    exact r.length_payload_lt so
  have hpayload : (fd.input.drop 8).take (r.payload so).length = r.payload so := by
    rw [hinput, ServerReport.frame, List.append_assoc,
      List.drop_left' (MtMsg.length_toBytes so _), List.take_left' rfl]
  rw [hhead, hplen] at hread hrest
  refine ⟨fd', ?_, ?_⟩
  · rw [hrest, hinput, ← hlen, List.drop_left' rfl]
  · rw [hread, if_neg, hpayload]
    rw [hinput, List.length_append]
    omega

/-- The loop on the rest of a session. -/
theorem Told.clientLoop (h : Told w (decide (so ≠ env.byteOrder)) false c)
    (hann : Announced o (so = env.byteOrder) w rs)
    (hin : fd.input = (rs.flatMap (ServerReport.frame so)).take j) :
    clientLoop o env k fd c = (run (State.step o env) c (((arrived so j rs).take k).map
      (ServerReport.event (decide (so ≠ env.byteOrder))))).mapError .handler := by
  induction k generalizing fd c w rs j with
  | zero => rfl
  | succ k ih =>
    cases rs with
    | nil =>
      have hnil : fd.input.length = 0 := by
        rw [hin, List.flatMap_nil, List.take_nil]
        rfl
      obtain ⟨fd', hread, -⟩ := socketReadMsg_eq env.byteOrder fd fun h8 => by omega
      rw [if_pos (by omega)] at hread
      exact clientLoop_end hread
    | cons r rs =>
      rw [List.flatMap_cons] at hin
      have hinfo (hop : r.operation = .info) : so = env.byteOrder := by
        cases r with
        | info payload hlen => exact hann.1
        | task r => exact absurd hop r.msg.operation_ne_info
      rw [arrived]
      by_cases hj : j < (r.frame so).length
      · obtain ⟨fd', hread⟩ := socketReadMsg_partial hinfo hin hj
        rw [if_pos hj, clientLoop_end hread]
        rfl
      obtain ⟨fd', hin', hread⟩ := socketReadMsg_whole hinfo hin (not_lt.mp hj)
      rw [if_neg hj, clientLoop_read hread, List.take_succ_cons, List.map_cons, run]
      cases r with
      | info payload hlen =>
        rw [ServerReport.payload, receive_info o env c hlen]
        exact ih (h.info fun ht => absurd ht Bool.false_ne_true) hann.2 hin'
      | task r =>
        rw [h.receive r hann.1]
        rcases hstep : c.step o env
          ((ServerReport.task r).event (decide (so ≠ env.byteOrder))) with f | c'
        · rfl
        · exact ih (h.clientFunc hstep).1 hann.2 hin'

theorem serverStream_eq {logfile : Bool} {serverFd : ℤ} (hfd : serverFd ≠ -1)
    (rs : List ServerReport) :
    serverStream so logfile serverFd rs = some (rs.flatMap (ServerReport.frame so)) := by
  have hmap : rs.mapM (ServerReport.send so logfile serverFd) =
      some (rs.map (ServerReport.frame so)) := by
    induction rs with
    | nil => rfl
    | cons r rs ih =>
      rw [List.mapM_cons, ServerReport.send_eq hfd, ih]
      rfl
  unfold serverStream
  rw [hmap, Option.map_some, List.flatMap_def]

/-- The client on the bytes of a session, in whatever pieces they arrive and wherever they break
off, is the client on the messages that arrived as a whole. -/
theorem clientLoop_eq_run (o : Options) (env : Env) (so : ByteOrder) (logfile : Bool)
    {serverFd : ℤ} (hfd : serverFd ≠ -1) (doTrace : Bool)
    (hann : Announced o (so = env.byteOrder) (fun _ => none) rs) :
    ∃ bs, serverStream so logfile serverFd rs = some bs ∧ ∀ j amounts k,
      clientLoop o env k ⟨bs.take j, amounts⟩ (.init doTrace) =
        (run (State.step o env) (.init doTrace) (((arrived so j rs).take k).map
          (ServerReport.event (decide (so ≠ env.byteOrder))))).mapError .handler := by
  have h0 : Told (fun _ => none) (decide (so ≠ env.byteOrder)) false (.init doTrace) :=
    told_init fun ht => absurd ht Bool.false_ne_true
  exact ⟨_, serverStream_eq hfd rs, fun _ _ _ => h0.clientLoop hann rfl⟩

theorem fits_attach {is64bit attached : Bool} : (MtMsg.attach is64bit attached).Fits is64bit := rfl

theorem short_attach {is64bit attached : Bool} :
    ((MtMsg.attach is64bit attached).payload .little is64bit).length < 2 ^ 31 :=
  show 1 < 2 ^ 31 by decide

theorem fits_sampleMap : (MtMsg.addMap ⟨0x10000, 0, 0x1000, 0, "a.out"⟩).Fits false :=
  show IsCString "a.out" by decide

theorem short_sampleMap :
    ((MtMsg.addMap ⟨0x10000, 0, 0x1000, 0, "a.out"⟩).payload .little false).length < 2 ^ 31 := by
  decide

theorem fits_sampleMalloc :
    (MtMsg.alloc .malloc isAllocOp_malloc ⟨0x20010, 24, [0, 1, 0, 0x40]⟩).Fits false :=
  ⟨by decide, by decide⟩

theorem short_sampleMalloc :
    ((MtMsg.alloc .malloc isAllocOp_malloc ⟨0x20010, 24, [0, 1, 0, 0x40]⟩).payload .little
      false).length < 2 ^ 31 := by
  decide

/-- A 32-bit task of a big-endian server, read on a little-endian host. -/
def sampleReports : List ServerReport :=
  [.task ⟨700, false, .attach false false, fits_attach, short_attach⟩,
    .task ⟨700, false, .addMap ⟨0x10000, 0, 0x1000, 0, "a.out"⟩, fits_sampleMap, short_sampleMap⟩,
    .task ⟨700, false, .alloc .malloc isAllocOp_malloc ⟨0x20010, 24, [0, 1, 0, 0x40]⟩,
      fits_sampleMalloc, short_sampleMalloc⟩]

theorem clientLoop_eq_run_sample :
    ∃ bs, serverStream .big false 3 sampleReports = some bs ∧ ∀ j amounts k,
      clientLoop plainOptions plainEnv k ⟨bs.take j, amounts⟩ (.init true) =
        (run (State.step plainOptions plainEnv) (.init true)
          (((arrived .big j sampleReports).take k).map (ServerReport.event true))).mapError
            .handler :=
  clientLoop_eq_run plainOptions plainEnv .big false (by decide) true
    ⟨fun h => (by cases h), fun h => (by cases h), fun _ => rfl, trivial⟩

end Loop

end Mtrace.Client
