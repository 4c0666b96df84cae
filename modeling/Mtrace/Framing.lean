import Mtrace.Wire
import Mathlib.Data.Stream.Init

/-!
# The messages of a stream

`safe_read` and `socket_read_msg` over a descriptor whose bytes arrive in pieces the kernel chooses.
However it chooses, the messages delivered are those of the stream cut by its headers.
-/

namespace Mtrace.Wire

/-- A descriptor: the bytes before the end of the file, and how much the kernel is willing to hand
out at each of the next reads. -/
structure Fd where
  input : List UInt8
  amounts : Stream' ℕ

/-- `read`: at least one byte and at most `n`, or nothing at the end of the file. -/
def Fd.read (fd : Fd) (n : ℕ) : List UInt8 × Fd :=
  let k := min (max 1 fd.amounts.head) n
  (fd.input.take k, ⟨fd.input.drop k, fd.amounts.tail⟩)

/-- The offset of `safe_read` is an `int`; behind its range the next read goes astray. -/
inductive ReadFault where
  | offsetOverflow
  deriving DecidableEq, Repr

/-- The loop of `safe_read`; `dest` holds the bytes up to `off`. -/
def safeReadLoop (fd : Fd) (off n : ℕ) (dest : List UInt8) :
    Except ReadFault (ℕ × List UInt8 × Fd) :=
  let ret := (fd.read n).1.length
  if ret = 0 then .ok (0, dest, (fd.read n).2)
  else if n ≤ ret then .ok (off + n, dest ++ (fd.read n).1, (fd.read n).2)
  else if 2 ^ 31 ≤ off + ret then .error .offsetOverflow
  else safeReadLoop (fd.read n).2 (off + ret) (n - ret) (dest ++ (fd.read n).1)
termination_by n

/-- `safe_read`: its result, the bytes at `dest` and what is left of the stream. -/
def safeRead (fd : Fd) (n : ℕ) : Except ReadFault (ℕ × List UInt8 × Fd) :=
  safeReadLoop fd 0 n []

/-- What `socket_read_msg` delivers. -/
structure Received where
  msg : MtMsg
  swapEndian : Bool
  payload : List UInt8
  deriving DecidableEq, Repr

/-- `socket_read_msg` behind its header. -/
def socketReadPayload (fd : Fd) (m : MtMsg) (swapEndian : Bool) :
    Except ReadFault (Option Received × Fd) :=
  if m.payloadLen = 0 then .ok (some ⟨m, swapEndian, []⟩, fd)
  else do
    let (ret, payload, fd) ← safeRead fd m.payloadLen.toNat
    if ret = 0 then return (none, fd)
    else return (some ⟨m, swapEndian, payload⟩, fd)

/-- `socket_read_msg` on a host of byte order `o`; `none` is its `FALSE`. -/
def socketReadMsg (o : ByteOrder) (fd : Fd) : Except ReadFault (Option Received × Fd) := do
  let (ret, hdr, fd) ← safeRead fd 8
  if ret = 0 then return (none, fd)
  else socketReadPayload fd (readHeader o hdr).1 (readHeader o hdr).2

/-- The messages that `k` calls of `socket_read_msg` deliver; after `FALSE` the client is done. -/
def readMsgs (o : ByteOrder) : ℕ → Fd → Except ReadFault (List Received)
  | 0, _ => .ok []
  | k + 1, fd => do
    match ← socketReadMsg o fd with
    | (none, _) => return []
    | (some m, fd) =>
      let ms ← readMsgs o k fd
      return m :: ms

/-- The stream cut into its messages: eight bytes and as many as they announce, again and again. -/
def cut (o : ByteOrder) (bs : List UInt8) : List Received :=
  if bs.length < 8 + (readHeader o (bs.take 8)).1.payloadLen.toNat then []
  else
    let m := readHeader o (bs.take 8)
    ⟨m.1, m.2, (bs.drop 8).take m.1.payloadLen.toNat⟩ ::
      cut o (bs.drop (8 + m.1.payloadLen.toNat))
termination_by bs.length

/-- The headers of the stream, with that of an incomplete last message. -/
def headers (o : ByteOrder) (bs : List UInt8) : List MtMsg :=
  if bs.length < 8 then []
  else
    let m := (readHeader o (bs.take 8)).1
    m :: headers o (bs.drop (8 + m.payloadLen.toNat))
termination_by bs.length

theorem Fd.read_spec (fd : Fd) {n : ℕ} (hn : 0 < n) :
    ∃ k, 1 ≤ k ∧ k ≤ n ∧ (fd.read n).1 = fd.input.take k ∧ (fd.read n).2.input = fd.input.drop k :=
  ⟨min (max 1 fd.amounts.head) n, by omega, by omega, rfl, rfl⟩

/-- The loop from any offset on: it returns nothing, or the number of bytes asked for from the
start on, with the bytes in their order. -/
theorem safeReadLoop_eq (n : ℕ) : ∀ (fd : Fd) (off : ℕ) (dest : List UInt8), 0 < n →
    off + n ≤ 2 ^ 31 ∨ off + fd.input.length < 2 ^ 31 → ∃ fd',
    fd'.input = fd.input.drop n ∧ safeReadLoop fd off n dest =
      .ok (if n ≤ fd.input.length then (off + n, dest ++ fd.input.take n, fd')
        else (0, dest ++ fd.input, fd')) := by
  induction n using Nat.strong_induction_on with
  | _ n ih =>
    intro fd off dest hn hoff
    obtain ⟨k, hk1, hkn, hgot, hleft⟩ := fd.read_spec hn
    have hret : (fd.read n).1.length = min k fd.input.length := by rw [hgot, List.length_take]
    rw [safeReadLoop]
    simp only [hret]
    by_cases h0 : min k fd.input.length = 0
    · -- the end of the file
      have hnil : fd.input = [] := List.length_eq_zero_iff.mp (by omega)
      refine ⟨(fd.read n).2, ?_, ?_⟩
      · rw [hleft, hnil, List.drop_nil, List.drop_nil]
      · rw [if_pos h0, if_neg (by rw [hnil, List.length_nil]; omega), hnil, List.append_nil]
    · rw [if_neg h0]
      by_cases hfull : n ≤ min k fd.input.length
      · -- the read is complete
        have hkeq : k = n := by omega
        refine ⟨(fd.read n).2, ?_, ?_⟩
        · rw [hleft, hkeq]
        · rw [if_pos hfull, if_pos (by omega), hgot, hkeq]
      · rw [if_neg hfull, if_neg (by omega)]
        obtain ⟨fd', hinput, hloop⟩ := ih (n - min k fd.input.length) (by omega) (fd.read n).2
          (off + min k fd.input.length) (dest ++ (fd.read n).1) (by omega)
          (by rw [hleft, List.length_drop]; omega)
        by_cases hshort : fd.input.length ≤ k
        · -- the last bytes of the stream, and more were asked for
          have hall : fd.input.drop k = [] := List.drop_eq_nil_of_le hshort
          have hdrop : fd.input.drop n = [] := List.drop_eq_nil_of_le (by omega)
          refine ⟨fd', ?_, ?_⟩
          · rw [hinput, hleft, hall, hdrop, List.drop_nil]
          · rw [hloop, hleft, hall, if_neg (by rw [List.length_nil]; omega), if_neg (by omega),
              hgot, List.take_of_length_le hshort, List.append_nil]
        · have hmin : min k fd.input.length = k := by omega
          rw [hmin] at hinput hloop ⊢
          refine ⟨fd', ?_, ?_⟩
          · rw [hinput, hleft, List.drop_drop, Nat.add_sub_cancel' hkn]
          · rw [hloop, hleft, hgot]
            have htake : fd.input.take k ++ (fd.input.drop k).take (n - k) = fd.input.take n := by
              rw [← List.take_add, Nat.add_sub_cancel' hkn]
            by_cases hlen : n ≤ fd.input.length
            · rw [if_pos (by rw [List.length_drop]; omega), if_pos hlen, List.append_assoc, htake,
                Nat.add_assoc, Nat.add_sub_cancel' hkn]
            · rw [if_neg (by rw [List.length_drop]; omega), if_neg hlen, List.append_assoc,
                List.take_append_drop]

/-- Whether the stream holds as much as is asked for, unless the offset cannot count it. -/
theorem safeRead_eq (fd : Fd) {n : ℕ} (hn : 0 < n) (hlt : n ≤ 2 ^ 31 ∨ fd.input.length < 2 ^ 31) :
    ∃ fd', fd'.input = fd.input.drop n ∧ safeRead fd n =
      .ok (if n ≤ fd.input.length then (n, fd.input.take n, fd') else (0, fd.input, fd')) := by
  obtain ⟨fd', hinput, h⟩ := safeReadLoop_eq n fd 0 [] hn (by omega)
  refine ⟨fd', hinput, ?_⟩
  rw [safeRead, h, Nat.zero_add, List.nil_append, List.nil_append]

/-- A read that the kernel does not cut. -/
theorem safeRead_whole {fd : Fd} {n : ℕ} (hn : 0 < n) (hamount : n ≤ fd.amounts.head)
    (hlen : n ≤ fd.input.length) :
    safeRead fd n = .ok (n, fd.input.take n, ⟨fd.input.drop n, fd.amounts.tail⟩) := by
  have hread : fd.read n = (fd.input.take n, ⟨fd.input.drop n, fd.amounts.tail⟩) := by
    unfold Fd.read
    simp only [show min (max 1 fd.amounts.head) n = n by omega]
  have htake : (fd.input.take n).length = n := by
    rw [List.length_take]
    omega
  unfold safeRead
  rw [safeReadLoop, hread, htake, if_neg (by omega), if_pos le_rfl, Nat.zero_add, List.nil_append]

/-- Pieces of a gigabyte each: the second one leads the offset out of its range. -/
theorem safeRead_overflow {input : List UInt8} {n : ℕ} (hn : 2 ^ 31 < n)
    (hinput : 2 ^ 31 ≤ input.length) :
    safeRead ⟨input, .const (2 ^ 30)⟩ n = .error .offsetOverflow := by
  have hamount {m : ℕ} (hm : 2 ^ 30 ≤ m) : min (max 1 (2 ^ 30)) m = 2 ^ 30 := by omega
  have hhead : (Stream'.const (2 ^ 30)).head = 2 ^ 30 := rfl
  have hfirst : (Fd.mk input (.const (2 ^ 30))).read n =
      (input.take (2 ^ 30), ⟨input.drop (2 ^ 30), .const (2 ^ 30)⟩) := by
    unfold Fd.read
    simp only [hhead, Stream'.tail_const, hamount (show 2 ^ 30 ≤ n by omega)]
  have hsecond : ((Fd.mk (input.drop (2 ^ 30)) (.const (2 ^ 30))).read (n - 2 ^ 30)).1 =
      (input.drop (2 ^ 30)).take (2 ^ 30) := by
    unfold Fd.read
    simp only [hhead, hamount (show 2 ^ 30 ≤ n - 2 ^ 30 by omega)]
  have hlen : (input.take (2 ^ 30)).length = 2 ^ 30 := by
    rw [List.length_take]
    omega
  have hlen' : ((input.drop (2 ^ 30)).take (2 ^ 30)).length = 2 ^ 30 := by
    rw [List.length_take, List.length_drop]
    omega
  unfold safeRead
  rw [safeReadLoop, hfirst, hlen, if_neg (by omega), if_neg (by omega), if_neg (by omega),
    safeReadLoop]
  dsimp only
  rw [hsecond, hlen', if_neg (by omega), if_neg (by omega), if_pos (by omega)]

/-- The payload is delivered if the stream holds all of it. -/
theorem socketReadPayload_eq (fd : Fd) (m : MtMsg) (swapEndian : Bool)
    (hlt : m.payloadLen.toNat < 2 ^ 31) :
    ∃ fd', socketReadPayload fd m swapEndian = .ok
        (if fd.input.length < m.payloadLen.toNat then (none, fd')
        else (some ⟨m, swapEndian, fd.input.take m.payloadLen.toNat⟩, fd')) ∧
      fd'.input = fd.input.drop m.payloadLen.toNat := by
  unfold socketReadPayload
  by_cases hzero : m.payloadLen = 0
  · have hlen : m.payloadLen.toNat = 0 := by rw [hzero]; rfl
    refine ⟨fd, ?_, ?_⟩
    · rw [if_pos hzero, hlen, if_neg (by omega), List.take_zero]
    · rw [hlen, List.drop_zero]
  · have hpos : 0 < m.payloadLen.toNat := by
      have h : m.payloadLen.toNat ≠ 0 := fun h => hzero (UInt32.toNat_inj.mp h)
      omega
    obtain ⟨fd', hin, hpay⟩ := safeRead_eq fd hpos (.inl hlt.le)
    refine ⟨fd', ?_, hin⟩
    rw [if_neg hzero, hpay]
    by_cases hall : fd.input.length < m.payloadLen.toNat
    · rw [if_neg (by omega), if_pos hall]
      rfl
    · rw [if_pos (by omega), if_neg hall]
      exact if_neg (by omega)

/-- One call delivers the first message of the stream if the stream holds all of it. -/
theorem socketReadMsg_eq (o : ByteOrder) (fd : Fd)
    (hlt : 8 ≤ fd.input.length →
      (readHeader o (fd.input.take 8)).1.payloadLen.toNat < 2 ^ 31) :
    ∃ fd', socketReadMsg o fd = .ok
        (if fd.input.length < 8 + (readHeader o (fd.input.take 8)).1.payloadLen.toNat then
          (none, fd')
        else (some ⟨(readHeader o (fd.input.take 8)).1, (readHeader o (fd.input.take 8)).2,
          (fd.input.drop 8).take (readHeader o (fd.input.take 8)).1.payloadLen.toNat⟩, fd')) ∧
      fd'.input = fd.input.drop (8 + (readHeader o (fd.input.take 8)).1.payloadLen.toNat) := by
  obtain ⟨fd1, hin, hhdr⟩ := safeRead_eq fd (show 0 < 8 by omega) (.inl (by omega))
  unfold socketReadMsg
  rw [hhdr]
  by_cases h8 : 8 ≤ fd.input.length
  · rw [if_pos h8]
    obtain ⟨fd2, hpay, hin2⟩ := socketReadPayload_eq fd1 (readHeader o (fd.input.take 8)).1
      (readHeader o (fd.input.take 8)).2 (hlt h8)
    rw [hin] at hpay hin2
    refine ⟨fd2, ?_, ?_⟩
    · refine hpay.trans ?_
      rw [List.length_drop]
      by_cases hall : fd.input.length < 8 + (readHeader o (fd.input.take 8)).1.payloadLen.toNat
      · rw [if_pos (by omega), if_pos hall]
      · rw [if_neg (by omega), if_neg hall]
    · rw [hin2, List.drop_drop]
  · rw [if_neg h8]
    refine ⟨fd1, ?_, ?_⟩
    · rw [if_pos (by omega)]
      rfl
    · rw [hin, List.drop_eq_nil_of_le (by omega), List.drop_eq_nil_of_le (by omega)]

/-- The headers behind a message are headers of the stream. -/
theorem headers_eq (o : ByteOrder) {bs : List UInt8} (h : 8 ≤ bs.length) :
    headers o bs = (readHeader o (bs.take 8)).1 ::
      headers o (bs.drop (8 + (readHeader o (bs.take 8)).1.payloadLen.toNat)) := by
  rw [headers, if_neg (by omega)]

/-- The messages delivered are those of the stream cut by its headers, in whatever pieces the
stream arrives: `k` calls deliver the first `k` of them, and an incomplete one is not among them. -/
theorem readMsgs_eq_cut (o : ByteOrder) (k : ℕ) (fd : Fd)
    (hlt : ∀ m ∈ headers o fd.input, m.payloadLen.toNat < 2 ^ 31) :
    readMsgs o k fd = .ok ((cut o fd.input).take k) := by
  induction k generalizing fd with
  | zero => rfl
  | succ k ih =>
    have hfirst : 8 ≤ fd.input.length →
        (readHeader o (fd.input.take 8)).1.payloadLen.toNat < 2 ^ 31 := by
      intro h8
      apply hlt
      rw [headers_eq o h8]
      exact List.mem_cons_self
    obtain ⟨fd', hread, hinput⟩ := socketReadMsg_eq o fd hfirst
    rw [readMsgs, cut, hread]
    by_cases hall : fd.input.length < 8 + (readHeader o (fd.input.take 8)).1.payloadLen.toNat
    · rw [if_pos hall, if_pos hall]
      rfl
    · rw [if_neg hall, if_neg hall]
      have hrest : readMsgs o k fd' = .ok ((cut o fd'.input).take k) := by
        apply ih
        intro m hm
        apply hlt
        rw [headers_eq o (by omega), ← hinput]
        exact List.mem_cons_of_mem _ hm
      show (readMsgs o k fd' >>= fun ms => _) = _
      rw [hrest, hinput, List.take_succ_cons]
      rfl

/-- Two messages of a little-endian server and the start of a third, byte by byte. -/
theorem readMsgs_eq_cut_bytewise :
    readMsgs .little 3 ⟨[8, 0, 7, 0, 0, 0, 0, 0, 4, 0, 7, 0, 1, 0, 0, 0, 1, 8, 0], .const 1⟩ =
      .ok [⟨⟨8, 7, 0⟩, false, []⟩, ⟨⟨4, 7, 1⟩, false, [1]⟩] := by
  rw [readMsgs_eq_cut .little 3 _ (by decide +kernel)]
  decide +kernel

end Mtrace.Wire
