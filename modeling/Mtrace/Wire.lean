import Mtrace.ByteOrder
import Mtrace.Client.Process

/-!
# Messages on the wire

The header `struct mt_msg` in the memory of a host and on the wire: what `sock_send_msg` writes for
the server and for the client, and what the other side makes of it on a host of either byte order.
-/

namespace Mtrace

/-- The numbers of `enum mt_operation`. -/
def MtOperation.code : MtOperation → UInt32
  | .info => 0
  | .disconnect => 1
  | .addMap => 2
  | .delMap => 3
  | .attach => 4
  | .attach64 => 5
  | .fork => 6
  | .aboutExit => 7
  | .exit => 8
  | .nofollow => 9
  | .malloc => 10
  | .reallocEnter => 11
  | .reallocDone => 12
  | .realloc => 13
  | .free => 14
  | .mmap => 15
  | .mmap64 => 16
  | .munmap => 17
  | .memalign => 18
  | .posixMemalign => 19
  | .alignedAlloc => 20
  | .valloc => 21
  | .pvalloc => 22
  | .scan => 23
  | .stop => 24
  | .start => 25
  | .detach => 26
  | .new => 27
  | .newArray => 28
  | .delete => 29
  | .deleteArray => 30
  | .depth => 31

theorem MtOperation.code_lt (op : MtOperation) : op.code.toNat < 32 := by
  cases op <;> decide

theorem MtOperation.code_eq_zero_iff (op : MtOperation) : op.code.toNat = 0 ↔ op = .info := by
  cases op <;> decide

namespace Wire

/-- `bswap_16`. -/
def bswap16 (x : UInt16) : UInt16 := .ofNat (ByteOrder.bswap 2 x.toNat)

/-- `bswap_32`. -/
def bswap32 (x : UInt32) : UInt32 := .ofNat (ByteOrder.bswap 4 x.toNat)

/-- `struct mt_msg`. -/
structure MtMsg where
  operation : UInt16
  pid : UInt16
  payloadLen : UInt32
  deriving DecidableEq, Repr

namespace MtMsg

/-- The header in the memory of a host. -/
def toBytes (o : ByteOrder) (m : MtMsg) : List UInt8 :=
  o.bytes 2 m.operation.toNat ++ (o.bytes 2 m.pid.toNat ++ o.bytes 4 m.payloadLen.toNat)

/-- The header a host finds in its memory. -/
def ofBytes (o : ByteOrder) (bs : List UInt8) : MtMsg where
  operation := .ofNat (o.value (bs.take 2))
  pid := .ofNat (o.value ((bs.drop 2).take 2))
  payloadLen := .ofNat (o.value ((bs.drop 4).take 4))

end MtMsg

/-! ## Sending -/

/-- The header `sock_send_msg` fills in. -/
def sockMsg (op pid payloadLen : UInt32) : MtMsg :=
  if 0xff < op then ⟨op.toUInt16, (bswap32 pid).toUInt16, bswap32 payloadLen⟩
  else ⟨op.toUInt16, pid.toUInt16, payloadLen⟩

/-- `sock_send_msg` on a host of byte order `o`: the bytes it hands to `sendmsg`. -/
def sockSendMsg (o : ByteOrder) (fd : ℤ) (op pid : UInt32) (payload : List UInt8)
    (payloadLen : UInt32) : Option (List UInt8) :=
  if fd = -1 then none
  else some ((sockMsg op pid payloadLen).toBytes o ++ payload.take payloadLen.toNat)

/-- `server_send_msg`; with a log file the header is not touched. -/
def serverSendMsg (o : ByteOrder) (logfile : Bool) (serverFd : ℤ) (op pid : UInt32)
    (payload : List UInt8) (payloadLen : UInt32) : Option (List UInt8) :=
  if logfile then
    some (MtMsg.toBytes o ⟨op.toUInt16, pid.toUInt16, payloadLen⟩ ++
      payload.take payloadLen.toNat)
  else sockSendMsg o serverFd op pid payload payloadLen

/-- `process->val16`. -/
def val16 (p : Client.Process) (v : UInt16) : UInt16 := if p.swapEndian then bswap16 v else v

/-- `client_send_msg`. -/
def clientSendMsg (o : ByteOrder) (logfile : Bool) (clientFd : ℤ) (p : Client.Process)
    (op : MtOperation) (payload : List UInt8) (payloadLen : UInt32) : Option (List UInt8) :=
  if logfile then none
  else sockSendMsg o clientFd (val16 p op.code.toUInt16).toUInt32 p.pid payload payloadLen

/-! ## Reading a header -/

def swapMsg (m : MtMsg) : MtMsg := ⟨bswap16 m.operation, bswap16 m.pid, bswap32 m.payloadLen⟩

/-- What `socket_read_msg` makes of the eight bytes of a header: the header, and `swap_endian`. -/
def readHeader (o : ByteOrder) (hdr : List UInt8) : MtMsg × Bool :=
  let m := MtMsg.ofBytes o hdr
  let swapEndian := decide (0xff < m.operation)
  (if swapEndian then swapMsg m else m, swapEndian)

/-- What `server_handle_command` makes of them. -/
def readCommand (o : ByteOrder) (hdr : List UInt8) : MtMsg := MtMsg.ofBytes o hdr

theorem MtMsg.length_toBytes (o : ByteOrder) (m : MtMsg) : (m.toBytes o).length = 8 := by
  unfold toBytes
  rw [List.length_append, List.length_append, ByteOrder.length_bytes, ByteOrder.length_bytes,
    ByteOrder.length_bytes]

theorem take_toBytes_append (o : ByteOrder) (m : MtMsg) (bs : List UInt8) :
    (m.toBytes o ++ bs).take 8 = m.toBytes o :=
  List.take_left' (m.length_toBytes o)

/-- A header read on a host of the other byte order has all its fields swapped. -/
theorem ofBytes_toBytes (o o' : ByteOrder) (m : MtMsg) :
    MtMsg.ofBytes o' (m.toBytes o) = if o = o' then m else swapMsg m := by
  have hop : (m.toBytes o).take 2 = o.bytes 2 m.operation.toNat :=
    List.take_left' (ByteOrder.length_bytes _ _ _)
  have hpid : ((m.toBytes o).drop 2).take 2 = o.bytes 2 m.pid.toNat := by
    unfold MtMsg.toBytes
    rw [List.drop_left' (ByteOrder.length_bytes _ _ _)]
    exact List.take_left' (ByteOrder.length_bytes _ _ _)
  have hlen : ((m.toBytes o).drop 4).take 4 = o.bytes 4 m.payloadLen.toNat := by
    unfold MtMsg.toBytes
    rw [← List.append_assoc, List.drop_left' (by simp [ByteOrder.length_bytes])]
    exact List.take_of_length_le (ByteOrder.length_bytes _ _ _).le
  have h16 (x : UInt16) : x.toNat < 256 ^ 2 := x.toNat_lt
  have h32 (x : UInt32) : x.toNat < 256 ^ 4 := x.toNat_lt
  unfold MtMsg.ofBytes
  rw [hop, hpid, hlen, ByteOrder.value_bytes o o' (h16 _), ByteOrder.value_bytes o o' (h16 _),
    ByteOrder.value_bytes o o' (h32 _)]
  by_cases ho : o = o'
  · simp only [if_pos ho, UInt16.ofNat_toNat, UInt32.ofNat_toNat]
  · simp only [if_neg ho]
    rfl

theorem toNat_bswap16 (x : UInt16) : (bswap16 x).toNat = x.toNat % 256 * 256 + x.toNat / 256 := by
  have hx : x.toNat < 65536 := x.toNat_lt
  rw [bswap16, UInt16.toNat_ofNat_of_lt' (ByteOrder.bswap_lt 2 x.toNat), ByteOrder.bswap_two]
  omega

theorem bswap16_bswap16 (x : UInt16) : bswap16 (bswap16 x) = x := by
  have hx : x.toNat < 65536 := x.toNat_lt
  rw [← UInt16.toNat_inj, toNat_bswap16, toNat_bswap16]
  omega

theorem bswap32_bswap32 (x : UInt32) : bswap32 (bswap32 x) = x := by
  have hx : x.toNat < 256 ^ 4 := x.toNat_lt
  have hs : (bswap32 x).toNat = ByteOrder.bswap 4 x.toNat :=
    UInt32.toNat_ofNat_of_lt' (ByteOrder.bswap_lt 4 x.toNat)
  rw [bswap32, hs, ByteOrder.bswap_bswap hx, UInt32.ofNat_toNat]

theorem swapMsg_swapMsg (m : MtMsg) : swapMsg (swapMsg m) = m := by
  unfold swapMsg
  rw [bswap16_bswap16, bswap16_bswap16, bswap32_bswap32]

/-- The low half of a swapped pid: nothing is left of a pid that fits into 16 bits. -/
theorem toUInt16_bswap32 {pid : UInt32} (hpid : pid.toNat < 65536) :
    (bswap32 pid).toUInt16 = 0 := by
  have hs : (bswap32 pid).toNat = ByteOrder.bswap 4 pid.toNat :=
    UInt32.toNat_ofNat_of_lt' (ByteOrder.bswap_lt 4 pid.toNat)
  have hhigh : pid.toNat / 256 / 256 = 0 := by omega
  rw [← UInt16.toNat_inj, UInt32.toNat_toUInt16, hs, ByteOrder.bswap_four, hhigh,
    UInt16.toNat_zero]
  omega

/-! ## From the server to the client -/

/-- Without a swapped operation a header is sent as it is. -/
theorem sockMsg_code (op : MtOperation) (pid payloadLen : UInt32) :
    sockMsg op.code pid payloadLen = ⟨op.code.toUInt16, pid.toUInt16, payloadLen⟩ := by
  have hop : ¬ 0xff < op.code := by
    have h := op.code_lt
    rw [UInt32.lt_iff_toNat_lt]
    show ¬ 255 < op.code.toNat
    omega
  exact if_neg hop

theorem serverSendMsg_eq (o : ByteOrder) {logfile : Bool} {serverFd : ℤ} (op : MtOperation)
    (pid : UInt32) (payload : List UInt8) (payloadLen : UInt32) (hfd : serverFd ≠ -1) :
    serverSendMsg o logfile serverFd op.code pid payload payloadLen =
      some (MtMsg.toBytes o ⟨op.code.toUInt16, pid.toUInt16, payloadLen⟩ ++
        payload.take payloadLen.toNat) := by
  unfold serverSendMsg sockSendMsg
  rw [if_neg hfd, sockMsg_code, ite_self]

/-- The client sees that an operation other than `MT_INFO` was swapped, and only then. -/
theorem swapped_iff (op : MtOperation) : 0xff < bswap16 op.code.toUInt16 ↔ op ≠ .info := by
  have hlt := op.code_lt
  have h16 : op.code.toUInt16.toNat = op.code.toNat := by
    rw [UInt32.toNat_toUInt16]
    omega
  rw [← not_iff_not, not_not, ← op.code_eq_zero_iff, UInt16.lt_iff_toNat_lt, toNat_bswap16, h16]
  show ¬ 255 < _ ↔ _
  omega

theorem not_swapped (op : MtOperation) : ¬ 0xff < op.code.toUInt16 := by
  have hlt := op.code_lt
  rw [UInt16.lt_iff_toNat_lt, UInt32.toNat_toUInt16]
  show ¬ 255 < _
  omega

/-- Between hosts of one byte order every header arrives as it was sent. -/
theorem readHeader_same (o : ByteOrder) (op : MtOperation) (pid : UInt16) (payloadLen : UInt32) :
    readHeader o (MtMsg.toBytes o ⟨op.code.toUInt16, pid, payloadLen⟩) =
      (⟨op.code.toUInt16, pid, payloadLen⟩, false) := by
  unfold readHeader
  rw [ofBytes_toBytes, if_pos rfl]
  simp only [decide_eq_false (not_swapped op)]
  rfl

/-- Between hosts of different byte orders the operation tells whether a header is put right. -/
theorem readHeader_other {o o' : ByteOrder} (ho : o ≠ o') (op : MtOperation) (pid : UInt16)
    (payloadLen : UInt32) :
    readHeader o' (MtMsg.toBytes o ⟨op.code.toUInt16, pid, payloadLen⟩) =
      if op = .info then (⟨0, bswap16 pid, bswap32 payloadLen⟩, false)
      else (⟨op.code.toUInt16, pid, payloadLen⟩, true) := by
  unfold readHeader
  rw [ofBytes_toBytes, if_neg ho]
  by_cases hop : op = .info
  · have hs : decide (0xff < (swapMsg ⟨op.code.toUInt16, pid, payloadLen⟩).operation) = false :=
      decide_eq_false fun h => (swapped_iff op).mp h hop
    have hzero : bswap16 MtOperation.info.code.toUInt16 = 0 := by decide +kernel
    subst hop
    simp only [hs, if_neg Bool.false_ne_true, if_pos]
    rw [swapMsg, hzero]
  · have hs : decide (0xff < (swapMsg ⟨op.code.toUInt16, pid, payloadLen⟩).operation) = true :=
      decide_eq_true ((swapped_iff op).mpr hop)
    simp only [hs, if_neg hop, if_true, swapMsg_swapMsg]

/-- A header arrives as the server sent it, and `swap_endian` says whether the byte orders differ,
for every operation but `MT_INFO`, whose number is its own swapped form. -/
theorem header_survives_iff (o o' : ByteOrder) (logfile : Bool) (serverFd : ℤ) (op : MtOperation)
    (pid : UInt16) (payload : List UInt8) (payloadLen : UInt32) (hfd : serverFd ≠ -1) :
    (serverSendMsg o logfile serverFd op.code pid.toUInt32 payload payloadLen).map
        (fun bs => readHeader o' (bs.take 8)) =
      some (⟨op.code.toUInt16, pid, payloadLen⟩, decide (o ≠ o')) ↔ op ≠ .info ∨ o = o' := by
  have hpid : pid.toUInt32.toUInt16 = pid := by simp
  rw [serverSendMsg_eq o op pid.toUInt32 payload payloadLen hfd, Option.map_some,
    take_toBytes_append, hpid, Option.some_inj]
  by_cases ho : o = o'
  · subst ho
    rw [readHeader_same]
    simp
  · rw [readHeader_other ho]
    by_cases hop : op = .info
    · subst hop
      simp [ho]
    · simp [hop, ho]

theorem header_survives_iff_malloc :
    (3 : ℤ) ≠ -1 ∧
      (serverSendMsg .big false 3 MtOperation.malloc.code 700 [] 136).map
        (fun bs => readHeader .little (bs.take 8)) = some (⟨10, 700, 136⟩, true) :=
  ⟨by decide, (header_survives_iff .big .little false 3 .malloc 700 [] 136 (by decide)).mpr
    (.inl (by decide))⟩

/-- The first message of a session, from a big-endian server to a little-endian client. -/
theorem info_loses_length :
    (serverSendMsg .big false 3 MtOperation.info.code 0 [] 136).map
        (fun bs => readHeader .little (bs.take 8)) = some (⟨0, 0, 136 * 2 ^ 24⟩, false) ∧
      (serverSendMsg .big false 3 MtOperation.info.code 0 [] 136).map
        (fun bs => readHeader .little (bs.take 8)) ≠ some (⟨0, 0, 136⟩, true) := by
  decide +kernel

/-! ## From the client to the server -/

/-- The operations of the commands the client sends to a process. -/
def isCommand : MtOperation → Bool
  | .scan | .start | .stop | .detach | .aboutExit => true
  | _ => false

/-- A command to a server of the other byte order: the operation and the length are swapped, and
the pid is lost when its swapped form is cut to 16 bits. -/
theorem sockMsg_swapped {op : MtOperation} (hop : op ≠ .info) {pid : UInt32}
    (hpid : pid.toNat < 65536) (payloadLen : UInt32) :
    sockMsg (bswap16 op.code.toUInt16).toUInt32 pid payloadLen =
      ⟨bswap16 op.code.toUInt16, 0, bswap32 payloadLen⟩ := by
  have hlt : (0xff : UInt32) < (bswap16 op.code.toUInt16).toUInt32 := by
    have h := (swapped_iff op).mpr hop
    rw [UInt16.lt_iff_toNat_lt] at h
    rw [UInt32.lt_iff_toNat_lt, UInt16.toNat_toUInt32]
    exact h
  unfold sockMsg
  rw [if_pos hlt, toUInt16_bswap32 hpid, UInt16.toUInt16_toUInt32]

/-- No command reaches its process on a server of the other byte order: the server finds the pid
zero in every one. -/
theorem command_loses_pid (o o' : ByteOrder) (ho : o ≠ o') (clientFd : ℤ) (hfd : clientFd ≠ -1)
    (p : Client.Process) (hswap : p.swapEndian = true) (hpid0 : p.pid ≠ 0)
    (hpid : p.pid.toNat < 65536) (op : MtOperation) (hop : isCommand op = true)
    (payload : List UInt8) (payloadLen : UInt32) :
    (clientSendMsg o false clientFd p op payload payloadLen).map
        (fun bs => readCommand o' (bs.take 8)) = some ⟨op.code.toUInt16, 0, payloadLen⟩ ∧
      (clientSendMsg o false clientFd p op payload payloadLen).map
        (fun bs => readCommand o' (bs.take 8)) ≠
          some ⟨op.code.toUInt16, p.pid.toUInt16, payloadLen⟩ := by
  have hinfo : op ≠ .info := by
    rintro rfl
    cases hop
  have hzero : bswap16 0 = 0 := by decide +kernel
  have hread : (clientSendMsg o false clientFd p op payload payloadLen).map
      (fun bs => readCommand o' (bs.take 8)) = some ⟨op.code.toUInt16, 0, payloadLen⟩ := by
    unfold clientSendMsg sockSendMsg val16 readCommand
    rw [if_neg Bool.false_ne_true, if_neg hfd, if_pos hswap, sockMsg_swapped hinfo hpid,
      Option.map_some, take_toBytes_append, ofBytes_toBytes, if_neg ho, swapMsg, bswap16_bswap16,
      bswap32_bswap32, hzero]
  refine ⟨hread, fun h => ?_⟩
  rw [hread, Option.some_inj, MtMsg.mk.injEq] at h
  have h0 : p.pid.toNat % 2 ^ 16 = 0 := by
    rw [← UInt32.toNat_toUInt16, ← h.2.1, UInt16.toNat_zero]
  apply hpid0
  rw [← UInt32.toNat_inj, UInt32.toNat_zero]
  omega

/-- Process 1000 of a server of the other byte order. -/
def swappedProcess : Client.Process := Client.processNew 1000 true true

theorem command_loses_pid_scan :
    (clientSendMsg .little false 3 swappedProcess .scan [] 16).map
        (fun bs => readCommand .big (bs.take 8)) = some ⟨23, 0, 16⟩ ∧
      (clientSendMsg .little false 3 swappedProcess .scan [] 16).map
        (fun bs => readCommand .big (bs.take 8)) ≠ some ⟨23, 1000, 16⟩ :=
  command_loses_pid .little .big (by decide) 3 (by decide) swappedProcess rfl (by decide)
    (by decide) .scan rfl [] 16

theorem scan_command_not_delivered :
    (clientSendMsg .little false 3 swappedProcess .scan [] 16).map
        (fun bs => readCommand .big (bs.take 8)) ≠ some ⟨23, 1000, 16⟩ := by
  decide +kernel

end Wire

end Mtrace
