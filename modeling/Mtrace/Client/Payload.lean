import Mtrace.Client.Isolation
import Mtrace.Framing

/-!
# Payloads

What the reports of the server put behind the header of a message, and what the handlers of the
client find there: words of the traced task in the byte order of the server, read with the width and
the order that the record of the process stands for.
-/

namespace Mtrace

/-- The operation with a given number. -/
def MtOperation.ofCode (code : UInt16) : Option MtOperation :=
  [info, disconnect, addMap, delMap, attach, attach64, fork, aboutExit, exit, nofollow, malloc,
    reallocEnter, reallocDone, realloc, free, mmap, mmap64, munmap, memalign, posixMemalign,
    alignedAlloc, valloc, pvalloc, scan, stop, start, detach, new, newArray, delete, deleteArray,
    depth][code.toNat]?

theorem MtOperation.ofCode_code (op : MtOperation) : ofCode op.code.toUInt16 = some op := by
  cases op <;> rfl

/-! ## Strings -/

/-- A string as C keeps it: its bytes, and a zero. -/
def cBytes (s : String) : List UInt8 := s.toList.map (fun c => UInt8.ofNat c.toNat) ++ [0]

/-- The string that starts in front of some bytes. -/
def cString (bs : List UInt8) : String :=
  String.ofList ((bs.takeWhile fun b => b != 0).map fun b => Char.ofNat b.toNat)

/-- Every character is a byte, and none of them is the end. -/
def IsCString (s : String) : Prop := ∀ c ∈ s.toList, 0 < c.toNat ∧ c.toNat < 256

instance (s : String) : Decidable (IsCString s) :=
  List.decidableBAll (fun c : Char => 0 < c.toNat ∧ c.toNat < 256) s.toList

theorem toNat_byte {c : Char} (h : c.toNat < 256) : (UInt8.ofNat c.toNat).toNat = c.toNat := by
  rw [UInt8.toNat_ofNat']
  omega

theorem cString_cBytes {s : String} (hs : IsCString s) (rest : List UInt8) :
    cString (cBytes s ++ rest) = s := by
  have hne : ∀ b ∈ s.toList.map (fun c => UInt8.ofNat c.toNat), (b != 0) = true := by
    intro b hb
    obtain ⟨c, hc, rfl⟩ := List.mem_map.mp hb
    rw [bne_iff_ne, ne_eq, ← UInt8.toNat_inj, toNat_byte (hs c hc).2]
    exact (hs c hc).1.ne'
  have hback : (s.toList.map fun c => UInt8.ofNat c.toNat).map (fun b => Char.ofNat b.toNat) =
      s.toList := by
    refine (List.map_map ..).trans ((List.map_congr_left fun c hc => ?_).trans (List.map_id' _))
    rw [Function.comp_apply, toNat_byte (hs c hc).2, Char.ofNat_toNat]
  unfold cString cBytes
  rw [List.append_assoc, List.takeWhile_append_of_pos hne, List.cons_append,
    List.takeWhile_cons_of_neg (by simp), List.append_nil, hback, String.ofList_toList]

/-! ## Structures of the wire -/

/-- The bytes of a word of a traced task. -/
def wordSize (is64bit : Bool) : ℕ := if is64bit then 8 else 4

/-- The bytes of `struct mt_map_payload`, with the filename behind it. -/
def MtMapPayload.toBytes (so : ByteOrder) (m : MtMapPayload) : List UInt8 :=
  so.bytes 8 m.addr.toNat ++ (so.bytes 8 m.offset.toNat ++ (so.bytes 8 m.size.toNat ++
    (so.bytes 8 m.bias.toNat ++ cBytes m.filename)))

/-- The bytes of `struct mt_alloc_payload_64` or `struct mt_alloc_payload_32`; the backtrace is kept
as it stands in memory. -/
def MtAllocPayload.toBytes (so : ByteOrder) (is64bit : Bool) (m : MtAllocPayload) : List UInt8 :=
  so.bytes (wordSize is64bit) m.ptr.toNat ++
    (so.bytes (wordSize is64bit) m.size.toNat ++ m.data)

namespace Client

open Machine

/-! ## Words of a task -/

/-- The byte order of the client's host. -/
def Env.byteOrder (env : Env) : ByteOrder := if env.bigEndian then .big else .little

section Words

variable {env : Env} {p : Process} {so : ByteOrder}

theorem foldr_bytes (bs : List UInt8) :
    bs.foldr (fun b v => b.toUInt64 + 256 * v) 0 = UInt64.ofNat (ByteOrder.leValue bs) := by
  induction bs with
  | nil => rfl
  | cons b bs ih =>
    rw [List.foldr_cons, ih, ByteOrder.leValue_cons, UInt64.ofNat_add, UInt64.ofNat_mul]
    congr 1
    rw [← UInt64.toNat_inj]
    simp

/-- A word of the task in the payload, wherever the server runs. -/
theorem getUlong_bytes (hsw : p.swapEndian = decide (so ≠ env.byteOrder)) {n : UInt64}
    (hn : n.toNat < 256 ^ p.ptrSize) (rest : List UInt8) :
    p.getUlong env (so.bytes p.ptrSize n.toNat ++ rest) = n := by
  have hord : (env.bigEndian != p.swapEndian) = decide (so = .big) := by
    rw [hsw]
    unfold Env.byteOrder
    cases env.bigEndian <;> cases so <;> rfl
  have hle : (if decide (so = .big) = true then (so.bytes p.ptrSize n.toNat).reverse
      else so.bytes p.ptrSize n.toNat) = ByteOrder.leBytes p.ptrSize n.toNat := by
    cases so with
    | little => rfl
    | big => exact List.reverse_reverse _
  unfold Process.getUlong
  rw [List.take_left' (so.length_bytes _ _), hord]
  dsimp only
  rw [hle, foldr_bytes, ByteOrder.leValue_leBytes, Nat.mod_eq_of_lt hn, UInt64.ofNat_toNat]

/-- The words of a task one after another. -/
theorem stackEntries_array (hsw : p.swapEndian = decide (so ≠ env.byteOrder)) {xs : List UInt64}
    (hxs : ∀ x ∈ xs, x.toNat < 256 ^ p.ptrSize) :
    stackEntries env p (so.array p.ptrSize (xs.map UInt64.toNat)) = xs := by
  have hpos : 0 < p.ptrSize := by
    unfold Process.ptrSize
    split <;> decide
  have hlen : (so.array p.ptrSize (xs.map UInt64.toNat)).length / p.ptrSize = xs.length := by
    rw [ByteOrder.length_array, List.length_map, Nat.mul_div_cancel _ hpos]
  unfold stackEntries
  rw [hlen]
  apply List.ext_getElem
  · rw [List.length_map, List.length_range]
  · intro i hi hi'
    have hdrop := (so.array_take_drop p.ptrSize (xs.map UInt64.toNat) []
      (show i ≤ (xs.map UInt64.toNat).length by rw [List.length_map]; exact hi'.le)).2
    rw [List.append_nil, List.append_nil, ← List.map_drop, List.drop_eq_getElem_cons hi'] at hdrop
    rw [List.getElem_map, List.getElem_range, hdrop]
    exact getUlong_bytes hsw (hxs _ (List.getElem_mem hi')) _

/-- `process->val64` of a field that starts in front of some bytes. -/
def Process.val64 (env : Env) (p : Process) (bs : List UInt8) : UInt64 :=
  let v := env.byteOrder.value (bs.take 8)
  .ofNat (if p.swapEndian then ByteOrder.bswap 8 v else v)

/-- `process->val32`. -/
def Process.val32 (env : Env) (p : Process) (bs : List UInt8) : UInt32 :=
  let v := env.byteOrder.value (bs.take 4)
  .ofNat (if p.swapEndian then ByteOrder.bswap 4 v else v)

/-- A number read and swapped if the hosts differ. -/
theorem unswap_bytes (hsw : p.swapEndian = decide (so ≠ env.byteOrder)) {w n : ℕ}
    (hn : n < 256 ^ w) :
    (if p.swapEndian then ByteOrder.bswap w (env.byteOrder.value (so.bytes w n))
      else env.byteOrder.value (so.bytes w n)) = n := by
  rw [ByteOrder.value_bytes so env.byteOrder hn, hsw]
  by_cases ho : so = env.byteOrder
  · simp [ho]
  · simp [ho, ByteOrder.bswap_bswap hn]

theorem val64_bytes (hsw : p.swapEndian = decide (so ≠ env.byteOrder)) (n : UInt64)
    (rest : List UInt8) : p.val64 env (so.bytes 8 n.toNat ++ rest) = n := by
  have hn : n.toNat < 256 ^ 8 := n.toNat_lt
  unfold Process.val64
  rw [List.take_left' (so.length_bytes _ _)]
  simp only [unswap_bytes hsw hn, UInt64.ofNat_toNat]

theorem val32_bytes (hsw : p.swapEndian = decide (so ≠ env.byteOrder)) (n : UInt32)
    (rest : List UInt8) : p.val32 env (so.bytes 4 n.toNat ++ rest) = n := by
  have hn : n.toNat < 256 ^ 4 := n.toNat_lt
  unfold Process.val32
  rw [List.take_left' (so.length_bytes _ _)]
  simp only [unswap_bytes hsw hn, UInt32.ofNat_toNat]

end Words

/-! ## Payloads -/

/-- What a server of byte order `so` sends behind the header for a task of the given width. -/
def MtMsg.payload (so : ByteOrder) (is64bit : Bool) : MtMsg → List UInt8
  | .alloc _ _ m | .free _ _ m | .reallocDone m | .munmap m => m.toBytes so is64bit
  | .fork pid => so.bytes 4 pid.toNat
  | .attach _ attached => [if attached then 1 else 0]
  | .scan leaks => so.array (wordSize is64bit) (leaks.map UInt64.toNat)
  | .addMap m | .delMap m => m.toBytes so
  | .aboutExit | .exit | .nofollow | .detach => []

/-- How the client ends on a stream before its end. -/
inductive ReceiveFault where
  /-- A read goes astray. -/
  | read (f : Wire.ReadFault)
  /-- A handler fails. -/
  | handler (f : Fault)
  /-- A handler reads behind the end of a payload. -/
  | payload
  deriving DecidableEq, Repr

/-- The fields of an allocation as the handlers read them. -/
def Process.allocPayload (env : Env) (p : Process) (payload : List UInt8) : MtAllocPayload where
  ptr := p.getUlong env payload
  size := p.getUlong env (payload.drop p.ptrSize)
  data := payload.drop (2 * p.ptrSize)

/-- The fields of a map as `process_add_map` and `process_del_map` read them. -/
def Process.mapPayload (env : Env) (p : Process) (payload : List UInt8) : MtMapPayload where
  addr := p.val64 env payload
  offset := p.val64 env (payload.drop 8)
  size := p.val64 env (payload.drop 16)
  bias := p.val64 env (payload.drop 24)
  filename := cString (payload.drop 32)

/-- A message for which `n` bytes of its payload are read. -/
def reading (n : ℕ) (payload : List UInt8) (m : MtMsg) : Except ReceiveFault MtMsg :=
  if payload.length < n then .error .payload else .ok m

/-- The bytes the handlers of the allocations read in front of the backtrace; without tracing they
return before. -/
def Process.allocSize (p : Process) : ℕ := if p.tracing then 2 * p.ptrSize else 0

/-- What the handlers chosen by `client_func` find in a payload. -/
def decode (env : Env) (p : Process) (op : MtOperation) (payload : List UInt8) :
    Except ReceiveFault MtMsg :=
  if hop : isAllocOp op = true then
    reading p.allocSize payload (.alloc op hop (p.allocPayload env payload))
  else if hop : isFreeOp op = true then
    reading p.allocSize payload (.free op hop (p.allocPayload env payload))
  else match op with
    | .reallocDone => reading p.allocSize payload (.reallocDone (p.allocPayload env payload))
    | .munmap => reading p.allocSize payload (.munmap (p.allocPayload env payload))
    | .fork => reading 4 payload (.fork (p.val32 env payload))
    | .attach => reading 1 payload (.attach false (payload.headD 0 != 0))
    | .attach64 => reading 1 payload (.attach true (payload.headD 0 != 0))
    | .aboutExit => .ok .aboutExit
    | .exit => .ok .exit
    | .nofollow => .ok .nofollow
    | .scan => .ok (.scan (stackEntries env p payload))
    | .addMap => reading 32 payload (.addMap (p.mapPayload env payload))
    | .delMap => reading 32 payload (.delMap (p.mapPayload env payload))
    | .detach => .ok .detach
    | _ => .error (.handler (.fatal "protocol violation"))

/-- The words of a message are words of the task, and its strings are strings of C. -/
def MtMsg.Fits (is64bit : Bool) : MtMsg → Prop
  | .alloc _ _ m | .free _ _ m | .reallocDone m | .munmap m =>
    m.ptr.toNat < 256 ^ wordSize is64bit ∧ m.size.toNat < 256 ^ wordSize is64bit
  | .attach b _ => b = is64bit
  | .scan leaks => ∀ a ∈ leaks, a.toNat < 256 ^ wordSize is64bit
  | .addMap m | .delMap m => IsCString m.filename
  | _ => True

/-- The messages whose payload depends on the width of the task. -/
def MtMsg.hasWords : MtMsg → Bool
  | .alloc .. | .free .. | .reallocDone _ | .munmap _ | .scan _ => true
  | _ => false

section RoundTrip

variable {env : Env} {p : Process} {so : ByteOrder} {is64bit : Bool}

theorem ptrSize_eq (p : Process) : p.ptrSize = wordSize p.is64bit := rfl

theorem length_alloc_toBytes (so : ByteOrder) (b : Bool) (m : MtAllocPayload) :
    (m.toBytes so b).length = 2 * wordSize b + m.data.length := by
  unfold MtAllocPayload.toBytes
  rw [List.length_append, List.length_append, ByteOrder.length_bytes, ByteOrder.length_bytes]
  omega

theorem length_map_toBytes (so : ByteOrder) (m : MtMapPayload) :
    (m.toBytes so).length = 32 + (cBytes m.filename).length := by
  unfold MtMapPayload.toBytes
  simp only [List.length_append, ByteOrder.length_bytes]
  omega

/-- The length of a payload does not depend on the byte order of the server. -/
theorem length_payload (so so' : ByteOrder) (is64bit : Bool) (m : MtMsg) :
    (m.payload so is64bit).length = (m.payload so' is64bit).length := by
  cases m <;> simp [MtMsg.payload, length_alloc_toBytes, length_map_toBytes,
    ByteOrder.length_bytes, ByteOrder.length_array]

theorem allocPayload_toBytes (hsw : p.swapEndian = decide (so ≠ env.byteOrder))
    {m : MtAllocPayload} (hptr : m.ptr.toNat < 256 ^ wordSize p.is64bit)
    (hsize : m.size.toNat < 256 ^ wordSize p.is64bit) :
    p.allocPayload env (m.toBytes so p.is64bit) = m := by
  have hdrop : (m.toBytes so p.is64bit).drop p.ptrSize =
      so.bytes p.ptrSize m.size.toNat ++ m.data := List.drop_left' (so.length_bytes _ _)
  have hdrop2 : (m.toBytes so p.is64bit).drop (2 * p.ptrSize) = m.data := by
    rw [Nat.two_mul, ← List.drop_drop, hdrop, List.drop_left' (so.length_bytes _ _)]
  unfold Process.allocPayload
  rw [hdrop, hdrop2, getUlong_bytes hsw hsize]
  unfold MtAllocPayload.toBytes
  rw [← ptrSize_eq, getUlong_bytes hsw hptr]

theorem mapPayload_toBytes (hsw : p.swapEndian = decide (so ≠ env.byteOrder)) {m : MtMapPayload}
    (hname : IsCString m.filename) : p.mapPayload env (m.toBytes so) = m := by
  have hdrop (n : UInt64) (rest : List UInt8) : (so.bytes 8 n.toNat ++ rest).drop 8 = rest :=
    List.drop_left' (so.length_bytes _ _)
  have h8 : (m.toBytes so).drop 8 = so.bytes 8 m.offset.toNat ++ (so.bytes 8 m.size.toNat ++
      (so.bytes 8 m.bias.toNat ++ cBytes m.filename)) := hdrop _ _
  have h16 : (m.toBytes so).drop 16 = so.bytes 8 m.size.toNat ++
      (so.bytes 8 m.bias.toNat ++ cBytes m.filename) := by
    rw [show 16 = 8 + 8 from rfl, ← List.drop_drop, h8, hdrop]
  have h24 : (m.toBytes so).drop 24 = so.bytes 8 m.bias.toNat ++ cBytes m.filename := by
    rw [show 24 = 16 + 8 from rfl, ← List.drop_drop, h16, hdrop]
  have h32 : (m.toBytes so).drop 32 = cBytes m.filename := by
    rw [show 32 = 24 + 8 from rfl, ← List.drop_drop, h24, hdrop]
  have hstr := cString_cBytes hname []
  rw [List.append_nil] at hstr
  unfold Process.mapPayload
  rw [h8, h16, h24, h32, val64_bytes hsw, val64_bytes hsw, val64_bytes hsw, hstr]
  unfold MtMapPayload.toBytes
  rw [val64_bytes hsw]

theorem reading_eq {n : ℕ} {payload : List UInt8} (h : n ≤ payload.length) (m : MtMsg) :
    reading n payload m = .ok m := if_neg (Nat.not_lt.mpr h)

theorem reading_alloc (so : ByteOrder) (p : Process) (m : MtAllocPayload) (x : MtMsg) :
    reading p.allocSize (m.toBytes so p.is64bit) x = .ok x := by
  refine reading_eq ?_ x
  rw [length_alloc_toBytes, ← ptrSize_eq]
  unfold Process.allocSize
  split <;> omega

theorem isAllocOp_ne {op : MtOperation} (h : isFreeOp op = true) : ¬ isAllocOp op = true := by
  cases op <;> simp_all [isFreeOp, isAllocOp]

/-- A handler finds in the payload what the server put there if its record of the process has the
width of the task. -/
theorem decode_payload (hsw : p.swapEndian = decide (so ≠ env.byteOrder)) {m : MtMsg}
    (hw : m.hasWords = true → p.is64bit = is64bit) (hfits : m.Fits is64bit) :
    decode env p m.operation (m.payload so is64bit) = .ok m := by
  cases m with
  | alloc op hop m =>
    obtain rfl := hw rfl
    refine (dif_pos hop).trans ?_
    rw [MtMsg.payload, allocPayload_toBytes hsw hfits.1 hfits.2, reading_alloc]
    exact rfl
  | free op hop m =>
    obtain rfl := hw rfl
    refine ((dif_neg (isAllocOp_ne hop)).trans (dif_pos hop)).trans ?_
    rw [MtMsg.payload, allocPayload_toBytes hsw hfits.1 hfits.2, reading_alloc]
    exact rfl
  | reallocDone m =>
    obtain rfl := hw rfl
    show reading _ _ (.reallocDone _) = _
    rw [MtMsg.payload, allocPayload_toBytes hsw hfits.1 hfits.2, reading_alloc]
  | munmap m =>
    obtain rfl := hw rfl
    show reading _ _ (.munmap _) = _
    rw [MtMsg.payload, allocPayload_toBytes hsw hfits.1 hfits.2, reading_alloc]
  | fork pid =>
    show reading 4 _ (.fork _) = _
    have hval := val32_bytes hsw pid []
    rw [List.append_nil] at hval
    rw [MtMsg.payload, hval, reading_eq (so.length_bytes _ _).ge]
  | attach b attached =>
    obtain rfl : b = is64bit := hfits
    cases b <;> cases attached <;> rfl
  | scan leaks =>
    obtain rfl := hw rfl
    exact congrArg (fun xs => Except.ok (MtMsg.scan xs)) (stackEntries_array hsw hfits)
  | addMap m =>
    show reading 32 _ (.addMap _) = _
    rw [MtMsg.payload, mapPayload_toBytes hsw hfits, reading_eq]
    rw [length_map_toBytes]
    omega
  | delMap m =>
    show reading 32 _ (.delMap _) = _
    rw [MtMsg.payload, mapPayload_toBytes hsw hfits, reading_eq]
    rw [length_map_toBytes]
    omega
  | aboutExit => rfl
  | exit => rfl
  | nofollow => rfl
  | detach => rfl

end RoundTrip

end Client

end Mtrace
