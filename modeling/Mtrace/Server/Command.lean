import Mtrace.Framing
import Mtrace.Server.Scan

/-!
# Commands of a client

`server_handle_command` of `server.c` over a stream with any bytes, and `mem_scan` once more, with a
check at every access: a byte outside of a buffer or behind a null pointer, a division by zero, an
`int` that leaves its range, a `fatal` and a failed `assert` are faults.  What a command does to the
traced processes is the list of functions that are called for it.  The allocation of the payload may
fail, that of a page may not.

* `memScanChecked_eq`: with a pointer size of 4 or 8 no check fails, and the scan is `memScan`.
* `serverHandleCommand_survives_iff`: which streams the server survives.
-/

namespace Mtrace.Server

open ByteOrder Wire

inductive CommandFault where
  | outOfBounds
  | divideByZero
  | offsetOverflow
  /-- `fatal` of `open_mem`. -/
  | fatal
  /-- `assert(task->stopped)` of `continue_task`. -/
  | notStopped
  deriving DecidableEq, Repr

/-! ## The scan with its accesses -/

/-- `get_val32` and `get_val64` of a buffer. -/
def getChecked (o : ByteOrder) (w : ℕ) (data : List UInt8) (index : ℕ) : Except CommandFault ℕ :=
  if (index + 1) * w ≤ data.length then .ok (o.word w data index) else .error .outOfBounds

/-- The loop of `find_block`. -/
def searchChecked (get : ℕ → Except CommandFault ℕ) (addr : ℕ) :
    ℕ → ℕ → ℕ → Except CommandFault (Option ℕ)
  | 0, _, _ => .ok none
  | fuel + 1, first, last =>
    if first < last then
      get ((first + last) / 2) >>= fun val =>
        if addr < val then searchChecked get addr fuel first ((first + last) / 2)
        else if val < addr then searchChecked get addr fuel ((first + last) / 2 + 1) last
        else .ok (some ((first + last) / 2))
    else .ok none

def findBlockChecked (get : ℕ → Except CommandFault ℕ) (n addr : ℕ) : Except CommandFault ℕ :=
  get 0 >>= fun low =>
    if addr < low then .ok n
    else get (n - 1) >>= fun high =>
      if high < addr then .ok n
      else searchChecked get addr n 0 n >>= fun found => .ok (found.getD n)

/-- What stays fixed during a scan; `width` is the width of `get_val`. -/
structure CheckedScan where
  order : ByteOrder
  ptrSize : ℕ
  width : ℕ
  mask : ℕ

namespace CheckedScan

def scanWord (c : CheckedScan) (s : Blocks) (addr : ℕ) : Except CommandFault Blocks :=
  if addr &&& c.mask ≠ 0 then .ok s
  else findBlockChecked (getChecked c.order c.width s.blocks) s.n addr >>= fun found =>
    if found ≠ s.n then
      let n := s.n - 1
      if n = 0 then .ok ⟨n, s.blocks⟩
      else if found ≠ n then
        if (found + 1) * c.ptrSize + (n - found) * c.ptrSize ≤ s.blocks.length then
          .ok ⟨n, memmove s.blocks (found * c.ptrSize) ((found + 1) * c.ptrSize)
            ((n - found) * c.ptrSize)⟩
        else .error .outOfBounds
      else .ok ⟨n, s.blocks⟩
    else .ok s

/-- The loop over the words of a page. -/
def scanWords (c : CheckedScan) (page : Page) : Blocks → List ℕ → Except CommandFault Blocks
  | s, [] => .ok s
  | s, i :: is =>
    getChecked c.order c.width page.bytes i >>= fun addr =>
      c.scanWord s addr >>= fun s =>
        if s.n = 0 then .ok s else c.scanWords page s is

def scanMap (c : CheckedScan) (mem : Memory) : ℕ → Bool → ℕ → Blocks → Except CommandFault Blocks
  | 0, _, _, s => .ok s
  | pages + 1, doPeek, start, s =>
    match mem.readPage doPeek start with
    | (none, _) => .ok s
    | (some page, doPeek) =>
      c.scanWords page s (List.range (pageSize / c.ptrSize)) >>= fun s =>
        if s.n = 0 then .ok s else c.scanMap mem pages doPeek (start + pageSize) s

def scanMaps (c : CheckedScan) (mem : Memory) :
    List (ℕ × ℕ) → Blocks → Except CommandFault Blocks
  | [], s => .ok s
  | (start, stop) :: maps, s =>
    if start = 0 ∨ stop = 0 then .ok s
    else c.scanMap mem (Memory.pageCount start stop) false start s >>= fun s =>
      if s.n = 0 then .ok s else c.scanMaps mem maps s

end CheckedScan

/-- `ptr_size` of a request. -/
def ptrSizeOf (o : ByteOrder) (payload : List UInt8) : ℕ := o.value (payload.take 4)

/-- `mem_scan` with its accesses. -/
def memScanChecked (o : ByteOrder) (openMem : Option Memory) (payload : List UInt8) :
    Except CommandFault (List UInt8) :=
  if payload.length < 16 then .error .outOfBounds
  else if ptrSizeOf o payload = 0 then .error .divideByZero
  else
    let ptrSize := ptrSizeOf o payload
    let mask := o.value ((payload.drop 8).take 8)
    let blocks := payload.drop 16
    let n := (payload.length - 16) / ptrSize
    if n = 0 then .ok []
    else match openMem with
      | none => .error .fatal
      | some mem =>
        (CheckedScan.mk o ptrSize (if ptrSize = 4 then 4 else 8) mask).scanMaps mem mem.maps
          ⟨n, blocks⟩ >>= fun s => .ok (s.blocks.take (s.n * ptrSize))

section Checked

variable {o : ByteOrder} {w : ℕ} (mask : ℕ) {s : Blocks}

theorem searchChecked_eq {get : ℕ → Except CommandFault ℕ} {f : ℕ → ℕ} {n : ℕ} (addr : ℕ)
    (hget : ∀ i < n, get i = .ok (f i)) (fuel first last : ℕ) (hlast : last ≤ n) :
    searchChecked get addr fuel first last = .ok (Bisect.search f addr fuel first last) := by
  induction fuel generalizing first last with
  | zero => rfl
  | succ fuel ih =>
    rw [searchChecked, Bisect.search]
    by_cases hlt : first < last
    · rw [if_pos hlt, if_pos hlt, hget _ (by omega)]
      dsimp only [bind, Except.bind]
      split
      · exact ih _ _ (by omega)
      · split
        · exact ih _ _ hlast
        · rfl
    · rw [if_neg hlt, if_neg hlt]

theorem findBlockChecked_eq {data : List UInt8} {n : ℕ} (addr : ℕ) (hn : 0 < n)
    (hlen : n * w ≤ data.length) :
    findBlockChecked (getChecked o w data) n addr = .ok (findBlock (o.word w) data n addr) := by
  have hget : ∀ i < n, getChecked o w data i = .ok (o.word w data i) := by
    intro i hi
    exact if_pos ((Nat.mul_le_mul_right w hi).trans hlen)
  unfold findBlockChecked findBlock
  rw [hget 0 hn, hget (n - 1) (by omega), searchChecked_eq addr hget n 0 n le_rfl]
  dsimp only [bind, Except.bind]
  split
  · rfl
  · split <;> rfl

theorem findBlock_le (getVal : List UInt8 → ℕ → ℕ) (data : List UInt8) (n addr : ℕ) :
    findBlock getVal data n addr ≤ n := by
  unfold findBlock
  split
  · exact le_rfl
  · split
    · exact le_rfl
    · cases hs : Bisect.search (getVal data) addr n 0 n with
      | none => exact le_rfl
      | some i => exact (Bisect.search_sound hs).1.le

/-- The array lies in the buffer. -/
def Blocks.Fits (w : ℕ) (s : Blocks) : Prop := s.n * w ≤ s.blocks.length

theorem length_memmove {bs : List UInt8} {dst src len : ℕ} (hdst : dst ≤ src)
    (hsrc : src + len ≤ bs.length) : (memmove bs dst src len).length = bs.length := by
  unfold memmove
  simp only [List.length_append, List.length_take, List.length_drop]
  omega

/-- A word of the memory: the accesses are inside the array, which goes on to lie in the buffer. -/
theorem scanWord_checked (hs : s.Fits w) (hn : 0 < s.n) (addr : ℕ) :
    (CheckedScan.mk o w w mask).scanWord s addr = .ok
    ((Scan.mk w mask (o.word w)).scanWord s addr) ∧
      ((Scan.mk w mask (o.word w)).scanWord s addr).Fits w := by
  unfold CheckedScan.scanWord Scan.scanWord
  by_cases hmask : addr &&& mask ≠ 0
  · rw [if_pos hmask, if_pos hmask]
    exact ⟨rfl, hs⟩
  rw [if_neg hmask, if_neg hmask]
  dsimp only
  rw [findBlockChecked_eq addr hn hs]
  dsimp only [bind, Except.bind]
  have hless : (s.n - 1) * w ≤ s.blocks.length := (Nat.mul_le_mul_right w (by omega)).trans hs
  have hle := findBlock_le (o.word w) s.blocks s.n addr
  generalize findBlock (o.word w) s.blocks s.n addr = found at hle ⊢
  by_cases hfound : found ≠ s.n
  · rw [if_pos hfound, if_pos hfound]
    by_cases hlast : s.n - 1 = 0
    · rw [if_pos hlast, if_pos hlast]
      exact ⟨rfl, hless⟩
    rw [if_neg hlast, if_neg hlast]
    by_cases hend : found ≠ s.n - 1
    · rw [if_pos hend, if_pos hend]
      -- the words behind the one that is struck move one place down
      have hmove : (found + 1) * w + (s.n - 1 - found) * w = s.n * w := by
        rw [← Nat.add_mul]
        congr 1
        omega
      rw [if_pos (hmove.trans_le hs)]
      refine ⟨rfl, ?_⟩
      show (s.n - 1) * w ≤ _
      rw [length_memmove (Nat.mul_le_mul_right w (Nat.le_succ found)) (hmove.trans_le hs)]
      exact hless
    · rw [if_neg hend, if_neg hend]
      exact ⟨rfl, hless⟩
  · rw [if_neg hfound, if_neg hfound]
    exact ⟨rfl, hs⟩

theorem scanWords_checked (page : Page) (is : List ℕ) (his : ∀ i ∈ is, (i + 1) * w ≤ pageSize)
    (hs : s.Fits w) (hn : 0 < s.n) :
    (CheckedScan.mk o w w mask).scanWords page s is =
        .ok ((Scan.mk w mask (o.word w)).scanWords s (is.map (o.word w page.bytes))) ∧
      ((Scan.mk w mask (o.word w)).scanWords s (is.map (o.word w page.bytes))).Fits w := by
  induction is generalizing s with
  | nil => exact ⟨rfl, hs⟩
  | cons i is ih =>
    obtain ⟨hi, his⟩ := List.forall_mem_cons.mp his
    have hget : getChecked o w page.bytes i = .ok (o.word w page.bytes i) :=
      if_pos (by rw [page.length_eq]; exact hi)
    obtain ⟨hword, hfits⟩ := scanWord_checked (o := o) mask hs hn (o.word w page.bytes i)
    rw [CheckedScan.scanWords, List.map_cons, Scan.scanWords]
    dsimp only
    rw [hget]
    dsimp only [bind, Except.bind]
    rw [hword]
    dsimp only
    by_cases hzero : ((Scan.mk w mask (o.word w)).scanWord s (o.word w page.bytes i)).n = 0
    · rw [if_pos hzero, if_pos hzero]
      exact ⟨rfl, hfits⟩
    · rw [if_neg hzero, if_neg hzero]
      exact ih his hfits (Nat.pos_of_ne_zero hzero)

theorem scanMap_checked (mem : Memory) (pages : ℕ) (doPeek : Bool) (start : ℕ) (hs : s.Fits w)
    (hn : 0 < s.n) :
    (CheckedScan.mk o w w mask).scanMap mem pages doPeek start s =
        .ok ((Scan.mk w mask (o.word w)).scanMap mem pages doPeek start s) ∧
      ((Scan.mk w mask (o.word w)).scanMap mem pages doPeek start s).Fits w := by
  induction pages generalizing doPeek start s with
  | zero => exact ⟨rfl, hs⟩
  | succ pages ih =>
    rw [CheckedScan.scanMap, Scan.scanMap]
    rcases mem.readPage doPeek start with ⟨page | page, doPeek'⟩
    · exact ⟨rfl, hs⟩
    · have his : ∀ i ∈ List.range (pageSize / w), (i + 1) * w ≤ pageSize := fun i hi =>
        (Nat.mul_le_mul_right w (List.mem_range.mp hi)).trans (Nat.div_mul_le_self pageSize w)
      obtain ⟨hwords, hfits⟩ := scanWords_checked (o := o) mask page _ his hs hn
      have hpage : (Scan.mk w mask (o.word w)).pageWords page =
          (List.range (pageSize / w)).map (o.word w page.bytes) := rfl
      dsimp only
      rw [hwords, hpage]
      dsimp only [bind, Except.bind]
      split
      · exact ⟨rfl, hfits⟩
      · exact ih _ _ hfits (Nat.pos_of_ne_zero ‹_›)

theorem scanMaps_checked (mem : Memory) (maps : List (ℕ × ℕ)) (hs : s.Fits w) (hn : 0 < s.n) :
    (CheckedScan.mk o w w mask).scanMaps mem maps s =
      .ok ((Scan.mk w mask (o.word w)).scanMaps mem maps s) := by
  induction maps generalizing s with
  | nil => rfl
  | cons m maps ih =>
    rw [CheckedScan.scanMaps, Scan.scanMaps]
    by_cases hend : m.1 = 0 ∨ m.2 = 0
    · rw [if_pos hend, if_pos hend]
    · obtain ⟨hmap, hfits⟩ := scanMap_checked (o := o) mask mem
        (Memory.pageCount m.1 m.2) false m.1 hs hn
      rw [if_neg hend, if_neg hend, hmap]
      dsimp only [bind, Except.bind]
      split
      · rfl
      · exact ih hfits (Nat.pos_of_ne_zero ‹_›)

end Checked

/-- With a pointer size that there is, no access of a scan is outside of the request. -/
theorem memScanChecked_eq (o : ByteOrder) {openMem : Option Memory} {payload : List UInt8}
    (hlen : 16 ≤ payload.length) (hptr : ptrSizeOf o payload = 4 ∨ ptrSizeOf o payload = 8)
    (hopen : 16 + ptrSizeOf o payload ≤ payload.length → openMem.isSome = true) :
    memScanChecked o openMem payload = .ok (memScan o openMem payload) := by
  unfold memScanChecked memScan
  have hwidth : (if ptrSizeOf o payload = 4 then 4 else 8) = ptrSizeOf o payload := by
    rcases hptr with h | h <;> rw [h] <;> rfl
  have hval : (if ptrSizeOf o payload = 4 then getVal32 o else getVal64 o) =
      o.word (ptrSizeOf o payload) := by
    rcases hptr with h | h <;> rw [h] <;> rfl
  have hfold : o.value (payload.take 4) = ptrSizeOf o payload := rfl
  rw [if_neg (by omega), if_neg (by omega)]
  dsimp only
  rw [hwidth, hfold, hval]
  generalize ptrSizeOf o payload = w at *
  by_cases hzero : (payload.length - 16) / w = 0
  · rw [if_pos hzero, if_pos hzero]
  · rw [if_neg hzero, if_neg hzero]
    cases openMem with
    | none =>
      have hfull : 16 + w ≤ payload.length := by
        rcases hptr with rfl | rfl <;> omega
      cases hopen hfull
    | some mem =>
      dsimp only
      have hfits : Blocks.Fits w ⟨(payload.length - 16) / w, payload.drop 16⟩ := by
        show (payload.length - 16) / w * w ≤ (payload.drop 16).length
        rw [List.length_drop]
        exact Nat.div_mul_le_self _ w
      rw [scanMaps_checked _ mem mem.maps hfits (Nat.pos_of_ne_zero hzero)]
      rfl

/-! ## Handling a command -/

/-- `server_mode`. -/
inductive Mode where
  | none
  | command
  | accepted
  | disconnect
  deriving DecidableEq, Repr

/-- What is called for a command. -/
inductive Effect where
  | reportInfo
  | reportProcesses
  | startTraces
  | startTrace (pid : UInt16)
  | stopTrace (pid : UInt16)
  | stopThreads (pid : UInt16)
  | reportScan (pid : UInt16) (data : List UInt8)
  | detachProc (pid : UInt16)
  | continueTask (pid : UInt16)
  | close
  deriving DecidableEq, Repr

/-- What `server_handle_command` changes: `server_mode`, whether there is a `server_fd`,
`options.bt_depth`, and the stream. -/
structure Conn where
  mode : Mode
  connected : Bool
  btDepth : ℕ
  fd : Fd

/-- What it finds: the byte order of the host, two options, whether a payload can be allocated,
which pids are those of leaders, which of these are stopped, and their memory, if it can be
opened. -/
structure Host where
  order : ByteOrder
  logfile : Bool
  trace : Bool
  malloc : ℕ → Bool
  leader : UInt16 → Bool
  stopped : UInt16 → Bool
  openMem : UInt16 → Option Memory

/-- The header has the number of the operation. -/
def Asks (cmd : MtMsg) (op : MtOperation) : Prop := cmd.operation = op.code.toUInt16

instance (cmd : MtMsg) (op : MtOperation) : Decidable (Asks cmd op) :=
  inferInstanceAs (Decidable (cmd.operation = op.code.toUInt16))

/-- `server_close`. -/
def Conn.close (c : Conn) : Conn × List Effect :=
  if c.connected then ({ c with connected := false }, [.close]) else (c, [])

/-- The operations without a pid; `struct memtrace_depth` is a single byte. -/
def handleServer (c : Conn) (cmd : MtMsg) (payload : List UInt8) :
    Except CommandFault (Conn × List Effect) :=
  if Asks cmd .info then .ok (c, [.reportInfo])
  else if Asks cmd .depth then
    match payload with
    | [] => .error .outOfBounds
    | depth :: _ => .ok (if depth ≠ 0 then { c with btDepth := depth.toNat } else c, [])
  else .ok c.close

/-- The operations on the leader of a process. -/
def handleLeader (e : Host) (c : Conn) (cmd : MtMsg) (payload : List UInt8) :
    Except CommandFault (Conn × List Effect) :=
  if Asks cmd .scan then
    memScanChecked e.order (e.openMem cmd.pid) payload >>= fun data =>
      .ok (c, [.stopThreads cmd.pid, .reportScan cmd.pid data])
  else if Asks cmd .start then .ok (c, [.startTrace cmd.pid])
  else if Asks cmd .stop then .ok (c, [.stopTrace cmd.pid])
  else if Asks cmd .detach then .ok (c, [.detachProc cmd.pid])
  else if Asks cmd .aboutExit then
    if e.stopped cmd.pid then .ok (c, [.continueTask cmd.pid]) else .error .notStopped
  else .ok (c, [])

/-- The part of `server_handle_command` behind the payload. -/
def handlePayload (e : Host) (c : Conn) (cmd : MtMsg) (payload : List UInt8) :
    Except CommandFault (Conn × List Effect) :=
  if cmd.pid = 0 then handleServer c cmd payload
  else if e.leader cmd.pid then handleLeader e c cmd payload
  else .ok (c, [])

/-- The part behind the header.  Without a buffer the read fails, and takes nothing. -/
def handleHeader (e : Host) (c : Conn) (cmd : MtMsg) : Except CommandFault (Conn × List Effect) :=
  if cmd.payloadLen = 0 then handlePayload e c cmd []
  else if e.malloc cmd.payloadLen.toNat then
    match safeRead c.fd cmd.payloadLen.toNat with
    | .error .offsetOverflow => .error .offsetOverflow
    | .ok (ret, payload, fd) =>
      if ret ≠ cmd.payloadLen.toNat then .ok ({ c with fd := fd }, [])
      else handlePayload e { c with fd := fd } cmd payload
  else .ok (c, [])

/-- The part behind the look at the mode. -/
def handleInput (e : Host) (c : Conn) : Except CommandFault ((Conn × List Effect) × ℤ) :=
  match safeRead c.fd 8 with
  | .error .offsetOverflow => .error .offsetOverflow
  | .ok (ret, hdr, fd) =>
    if ret ≠ 8 then .ok (Conn.close { c with fd := fd }, if e.trace then 0 else -1)
    else
      handleHeader e { c with fd := fd } (readCommand e.order hdr) >>= fun r =>
        .ok (r, ((readCommand e.order hdr).operation.toNat : ℤ))

def serverHandleCommand (e : Host) (c : Conn) : Except CommandFault ((Conn × List Effect) × ℤ) :=
  if e.logfile then .ok ((c, []), -1)
  else
    match c.mode with
    | .accepted =>
      .ok (({ c with mode := .none }, [.reportInfo, .reportProcesses, .startTraces]), 0)
    | .disconnect => .ok (Conn.close { c with mode := .none }, -1)
    | _ =>
      if c.connected then handleInput e { c with mode := .none }
      else .ok (({ c with mode := .none }, []), -1)

/-! ## The streams that are survived -/

/-- The header of a stream. -/
def headerOf (e : Host) (bs : List UInt8) : MtMsg := readCommand e.order (bs.take 8)

/-- The payload that has arrived behind the header. -/
def payloadOf (e : Host) (bs : List UInt8) : List UInt8 :=
  (bs.drop 8).take (headerOf e bs).payloadLen.toNat

/-- There is less behind the header than it announces. -/
def Incomplete (e : Host) (bs : List UInt8) : Prop :=
  bs.length < 8 + (headerOf e bs).payloadLen.toNat

/-- A depth that is not there. -/
def BadDepth (e : Host) (bs : List UInt8) : Prop :=
  (headerOf e bs).pid = 0 ∧ Asks (headerOf e bs) .depth ∧ payloadOf e bs = []

/-- A scan with a payload that is short, or with a pointer size that no process has. -/
def BadScan (e : Host) (bs : List UInt8) : Prop :=
  (headerOf e bs).pid ≠ 0 ∧ Asks (headerOf e bs) .scan ∧
    ((payloadOf e bs).length < 16 ∨
      ¬ (ptrSizeOf e.order (payloadOf e bs) = 4 ∨ ptrSizeOf e.order (payloadOf e bs) = 8))

/-- A scan of a process whose memory cannot be opened. -/
def LostScan (e : Host) (bs : List UInt8) : Prop :=
  (headerOf e bs).pid ≠ 0 ∧ Asks (headerOf e bs) .scan ∧
    16 + ptrSizeOf e.order (payloadOf e bs) ≤ (payloadOf e bs).length ∧
      (e.openMem (headerOf e bs).pid).isSome = false

/-- An answer to the end of a process that is not stopped. -/
def StrayAboutExit (e : Host) (bs : List UInt8) : Prop :=
  (headerOf e bs).pid ≠ 0 ∧ Asks (headerOf e bs) .aboutExit ∧ e.stopped (headerOf e bs).pid = false

/-- The server comes to read a header. -/
def Reads (e : Host) (c : Conn) : Prop :=
  e.logfile = false ∧ c.connected = true ∧ (c.mode = .none ∨ c.mode = .command)

/-- No access goes astray; a header that is read is followed by the end of its payload, or by
nothing; and a request that is not proper is not acted upon. -/
def SurvivesRun (e : Host) (c : Conn) : Prop :=
  ∃ c' effects ret, serverHandleCommand e c = .ok ((c', effects), ret) ∧
    (Reads e c → 8 ≤ c.fd.input.length →
      (c'.connected = true → c'.fd.input =
        c.fd.input.drop (8 + (headerOf e c.fd.input).payloadLen.toNat)) ∧
      (Incomplete e c.fd.input ∨ BadDepth e c.fd.input ∨ BadScan e c.fd.input →
        c'.btDepth = c.btDepth ∧ effects = []))

/-- In whatever pieces the stream arrives. -/
def Survives (e : Host) (c : Conn) (input : List UInt8) : Prop :=
  ∀ amounts, SurvivesRun e { c with fd := ⟨input, amounts⟩ }

/-- The payload can be allocated and counted, and the request is proper or not carried out; the
memory of a process that is scanned can be opened, and one that is continued is stopped. -/
structure Benign (e : Host) (bs : List UInt8) : Prop where
  allocated : (headerOf e bs).payloadLen = 0 ∨ bs.length = 8 ∨
    e.malloc (headerOf e bs).payloadLen.toNat = true
  counted : (headerOf e bs).payloadLen.toNat ≤ 2 ^ 31 ∨ bs.length < 8 + 2 ^ 31
  proper : Incomplete e bs ∨
    ¬ BadDepth e bs ∧ ¬ (e.leader (headerOf e bs).pid = true ∧
      (BadScan e bs ∨ LostScan e bs ∨ StrayAboutExit e bs))

section Handling

variable {e : Host} {c : Conn} {cmd : MtMsg} {payload : List UInt8}

@[simp] theorem Conn.close_fd (c : Conn) : c.close.1.fd = c.fd := by
  unfold Conn.close
  split <;> rfl

theorem handleServer_ok (h : Asks cmd .depth → payload ≠ []) :
    ∃ c' effects, handleServer c cmd payload = .ok (c', effects) ∧ c'.fd = c.fd := by
  unfold handleServer
  by_cases hinfo : Asks cmd .info
  · exact ⟨c, _, if_pos hinfo, rfl⟩
  rw [if_neg hinfo]
  by_cases hdepth : Asks cmd .depth
  · rw [if_pos hdepth]
    cases payload with
    | nil => exact absurd rfl (h hdepth)
    | cons depth _ =>
      refine ⟨_, _, rfl, ?_⟩
      split <;> rfl
  · rw [if_neg hdepth]
    exact ⟨_, _, rfl, c.close_fd⟩

/-- The operation on a leader can be carried out. -/
def Fitting (e : Host) (cmd : MtMsg) (payload : List UInt8) : Prop :=
  (Asks cmd .scan → 16 ≤ payload.length ∧
    (ptrSizeOf e.order payload = 4 ∨ ptrSizeOf e.order payload = 8) ∧
    (16 + ptrSizeOf e.order payload ≤ payload.length → (e.openMem cmd.pid).isSome = true)) ∧
  (Asks cmd .aboutExit → e.stopped cmd.pid = true)

theorem handleLeader_ok (h : Fitting e cmd payload) :
    ∃ effects, handleLeader e c cmd payload = .ok (c, effects) := by
  unfold handleLeader
  by_cases hscan : Asks cmd .scan
  · obtain ⟨hlen, hptr, hopen⟩ := h.1 hscan
    rw [if_pos hscan, memScanChecked_eq e.order hlen hptr hopen]
    exact ⟨_, rfl⟩
  rw [if_neg hscan]
  iterate 3
    split
    · exact ⟨_, rfl⟩
  by_cases hexit : Asks cmd .aboutExit
  · rw [if_pos hexit, if_pos (h.2 hexit)]
    exact ⟨_, rfl⟩
  · exact ⟨_, if_neg hexit⟩

/-- A proper request is handled, and nothing more is read. -/
theorem handlePayload_ok (hdepth : ¬ (cmd.pid = 0 ∧ Asks cmd .depth ∧ payload = []))
    (hfitting : cmd.pid ≠ 0 → e.leader cmd.pid = true → Fitting e cmd payload) :
    ∃ c' effects, handlePayload e c cmd payload = .ok (c', effects) ∧ c'.fd = c.fd := by
  unfold handlePayload
  by_cases hpid : cmd.pid = 0
  · rw [if_pos hpid]
    exact handleServer_ok fun hd hnil => hdepth ⟨hpid, hd, hnil⟩
  rw [if_neg hpid]
  by_cases hleader : e.leader cmd.pid = true
  · rw [if_pos hleader]
    obtain ⟨effects, h⟩ := handleLeader_ok (c := c) (hfitting hpid hleader)
    exact ⟨c, effects, h, rfl⟩
  · rw [if_neg hleader]
    exact ⟨c, [], rfl, rfl⟩

/-- A depth that is not there is read through a null pointer. -/
theorem handlePayload_depth (hpid : cmd.pid = 0) (hdepth : Asks cmd .depth) :
    handlePayload e c cmd [] = .error .outOfBounds := by
  have hinfo : ¬ Asks cmd .info := by
    intro h
    have hcode : MtOperation.depth.code.toUInt16 = MtOperation.info.code.toUInt16 :=
      hdepth.symm.trans h
    exact absurd hcode (by decide)
  unfold handlePayload handleServer
  rw [if_pos hpid, if_neg hinfo, if_pos hdepth]

/-- The threads of a leader are stopped before anything is known about the request. -/
theorem handlePayload_scan (hpid : cmd.pid ≠ 0) (hleader : e.leader cmd.pid = true)
    (hscan : Asks cmd .scan) {c' : Conn} {effects : List Effect}
    (h : handlePayload e c cmd payload = .ok (c', effects)) : effects ≠ [] := by
  unfold handlePayload handleLeader at h
  rw [if_neg hpid, if_pos hleader, if_pos hscan] at h
  cases hdata : memScanChecked e.order (e.openMem cmd.pid) payload with
  | error fault =>
    rw [hdata] at h
    cases h
  | ok data =>
    rw [hdata] at h
    cases h
    exact List.cons_ne_nil _ _

/-- A leader that runs is not continued. -/
theorem handlePayload_aboutExit (hpid : cmd.pid ≠ 0) (hleader : e.leader cmd.pid = true)
    (hexit : Asks cmd .aboutExit) (hstopped : e.stopped cmd.pid = false) :
    handlePayload e c cmd payload = .error .notStopped := by
  have hother (op : MtOperation) (hop : op.code.toUInt16 ≠ MtOperation.aboutExit.code.toUInt16) :
      ¬ Asks cmd op := fun h => hop (h.symm.trans hexit)
  unfold handlePayload handleLeader
  rw [if_neg hpid, if_pos hleader, if_neg (hother .scan (by decide)),
    if_neg (hother .start (by decide)), if_neg (hother .stop (by decide)),
    if_neg (hother .detach (by decide)), if_pos hexit, if_neg (by rw [hstopped]; exact nofun)]

/-- A scan with a proper pointer size needs the memory of the process. -/
theorem handlePayload_lost (hpid : cmd.pid ≠ 0) (hleader : e.leader cmd.pid = true)
    (hscan : Asks cmd .scan) (hptr : ptrSizeOf e.order payload = 4 ∨ ptrSizeOf e.order payload = 8)
    (hlen : 16 + ptrSizeOf e.order payload ≤ payload.length)
    (hopen : (e.openMem cmd.pid).isSome = false) :
    handlePayload e c cmd payload = .error .fatal := by
  have hnone : e.openMem cmd.pid = none :=
    Option.not_isSome_iff_eq_none.mp (by rw [hopen]; exact nofun)
  have hn : (payload.length - 16) / ptrSizeOf e.order payload ≠ 0 := by
    rcases hptr with h | h <;> rw [h] at hlen ⊢ <;> omega
  unfold handlePayload handleLeader memScanChecked
  rw [if_neg hpid, if_pos hleader, if_pos hscan, if_neg (by omega), if_neg (by omega)]
  dsimp only
  rw [if_neg hn, hnone]
  rfl

/-- A payload that is there is read, and handled. -/
theorem handleHeader_complete
    (halloc : cmd.payloadLen = 0 ∨ c.fd.input.length = 0 ∨ e.malloc cmd.payloadLen.toNat = true)
    (hcount : cmd.payloadLen.toNat ≤ 2 ^ 31 ∨ c.fd.input.length < 2 ^ 31)
    (hall : cmd.payloadLen.toNat ≤ c.fd.input.length) :
    ∃ fd, fd.input = c.fd.input.drop cmd.payloadLen.toNat ∧ handleHeader e c cmd =
      handlePayload e { c with fd := fd } cmd (c.fd.input.take cmd.payloadLen.toNat) := by
  unfold handleHeader
  by_cases hzero : cmd.payloadLen = 0
  · have hlen : cmd.payloadLen.toNat = 0 := by rw [hzero]; rfl
    refine ⟨c.fd, ?_, ?_⟩
    · rw [hlen, List.drop_zero]
    · rw [if_pos hzero, hlen, List.take_zero]
  have hpos : 0 < cmd.payloadLen.toNat :=
    Nat.pos_of_ne_zero fun h => hzero (UInt32.toNat_inj.mp h)
  have hmalloc : e.malloc cmd.payloadLen.toNat = true := by
    rcases halloc with h | h | h
    · exact absurd h hzero
    · omega
    · exact h
  obtain ⟨fd, hinput, hread⟩ := safeRead_eq c.fd hpos hcount
  refine ⟨fd, hinput, ?_⟩
  rw [if_neg hzero, if_pos hmalloc, hread, if_pos hall]
  exact if_neg (not_not_intro rfl)

/-- Behind a payload that is not there nothing is left, and nothing was done. -/
theorem handleHeader_incomplete
    (halloc : cmd.payloadLen = 0 ∨ c.fd.input.length = 0 ∨ e.malloc cmd.payloadLen.toNat = true)
    (hcount : cmd.payloadLen.toNat ≤ 2 ^ 31 ∨ c.fd.input.length < 2 ^ 31)
    (hshort : c.fd.input.length < cmd.payloadLen.toNat) :
    ∃ fd, fd.input = c.fd.input.drop cmd.payloadLen.toNat ∧
      handleHeader e c cmd = .ok ({ c with fd := fd }, []) := by
  have hzero : cmd.payloadLen ≠ 0 := by
    intro h0
    have h0' : cmd.payloadLen.toNat = 0 := by rw [h0]; rfl
    omega
  unfold handleHeader
  rw [if_neg hzero]
  by_cases hmalloc : e.malloc cmd.payloadLen.toNat = true
  · obtain ⟨fd, hinput, hread⟩ := safeRead_eq c.fd (by omega) hcount
    refine ⟨fd, hinput, ?_⟩
    rw [if_pos hmalloc, hread, if_neg (by omega)]
    exact if_pos (by omega)
  · have hnil : c.fd.input = [] := by
      rcases halloc with h | h | h
      · exact absurd h hzero
      · exact List.length_eq_zero_iff.mp h
      · exact absurd h hmalloc
    refine ⟨c.fd, ?_, if_neg hmalloc⟩
    rw [hnil, List.drop_nil]

/-- The header is the first eight bytes. -/
theorem handleInput_header (h : 8 ≤ c.fd.input.length) :
    ∃ fd, fd.input = c.fd.input.drop 8 ∧ handleInput e c =
      (handleHeader e { c with fd := fd } (headerOf e c.fd.input) >>= fun r =>
        .ok (r, ((headerOf e c.fd.input).operation.toNat : ℤ))) := by
  obtain ⟨fd, hinput, hread⟩ := safeRead_eq c.fd (show 0 < 8 by omega) (.inl (by omega))
  refine ⟨fd, hinput, ?_⟩
  unfold handleInput
  rw [hread, if_pos h]
  exact if_neg (not_not_intro rfl)

theorem handleInput_short (h : ¬ 8 ≤ c.fd.input.length) :
    ∃ r ret, handleInput e c = .ok (r, ret) := by
  obtain ⟨fd, -, hread⟩ := safeRead_eq c.fd (show 0 < 8 by omega) (.inl (by omega))
  unfold handleInput
  rw [hread, if_neg h]
  exact ⟨_, _, if_pos (show (0 : ℕ) ≠ 8 by omega)⟩

theorem serverHandleCommand_reads (h : Reads e c) :
    serverHandleCommand e c = handleInput e { c with mode := .none } := by
  obtain ⟨hlog, hconn, hmode⟩ := h
  unfold serverHandleCommand
  rw [if_neg (by rw [hlog]; exact Bool.false_ne_true)]
  rcases hmode with hmode | hmode <;>
  · rw [hmode]
    exact if_pos hconn

/-- Without a look at the stream nothing can go astray. -/
theorem serverHandleCommand_idle (h : ¬ Reads e c) :
    ∃ r ret, serverHandleCommand e c = .ok (r, ret) := by
  unfold serverHandleCommand
  by_cases hlog : e.logfile = true
  · exact ⟨_, _, if_pos hlog⟩
  rw [if_neg hlog]
  cases hmode : c.mode with
  | accepted => exact ⟨_, _, rfl⟩
  | disconnect => exact ⟨_, _, rfl⟩
  | none => exact ⟨_, _, if_neg fun hc => h ⟨Bool.eq_false_iff.mpr hlog, hc, .inl hmode⟩⟩
  | command => exact ⟨_, _, if_neg fun hc => h ⟨Bool.eq_false_iff.mpr hlog, hc, .inr hmode⟩⟩

/-- A command with its payload is handled. -/
theorem serverHandleCommand_complete (hreads : Reads e c) (h8 : 8 ≤ c.fd.input.length)
    (halloc : (headerOf e c.fd.input).payloadLen = 0 ∨ c.fd.input.length = 8 ∨
      e.malloc (headerOf e c.fd.input).payloadLen.toNat = true)
    (hcount : (headerOf e c.fd.input).payloadLen.toNat ≤ 2 ^ 31 ∨ c.fd.input.length < 8 + 2 ^ 31)
    (hall : ¬ Incomplete e c.fd.input) :
    ∃ fd, fd.input = c.fd.input.drop (8 + (headerOf e c.fd.input).payloadLen.toNat) ∧
      serverHandleCommand e c =
        (handlePayload e { c with mode := .none, fd := fd } (headerOf e c.fd.input)
            (payloadOf e c.fd.input) >>= fun r =>
          .ok (r, ((headerOf e c.fd.input).operation.toNat : ℤ))) := by
  unfold Incomplete at hall
  obtain ⟨fd, hinput, hheader⟩ := handleInput_header (e := e) (c := { c with mode := .none }) h8
  have hlen : fd.input.length = c.fd.input.length - 8 := by rw [hinput, List.length_drop]
  obtain ⟨fd', hinput', hpayload⟩ := @handleHeader_complete e { c with mode := .none, fd := fd }
    (headerOf e c.fd.input)
    (halloc.imp_right (Or.imp_left fun h => by dsimp only; omega)) (by dsimp only; omega)
    (by dsimp only; omega)
  refine ⟨fd', ?_, ?_⟩
  · rw [hinput', hinput, List.drop_drop]
  · rw [serverHandleCommand_reads hreads, hheader, hpayload, hinput]
    rfl

/-- A command without the end of its payload is dropped, and nothing is left of the stream. -/
theorem serverHandleCommand_incomplete (hreads : Reads e c) (h8 : 8 ≤ c.fd.input.length)
    (halloc : (headerOf e c.fd.input).payloadLen = 0 ∨ c.fd.input.length = 8 ∨
      e.malloc (headerOf e c.fd.input).payloadLen.toNat = true)
    (hcount : (headerOf e c.fd.input).payloadLen.toNat ≤ 2 ^ 31 ∨ c.fd.input.length < 8 + 2 ^ 31)
    (hshort : Incomplete e c.fd.input) :
    ∃ fd, fd.input = c.fd.input.drop (8 + (headerOf e c.fd.input).payloadLen.toNat) ∧
      serverHandleCommand e c = .ok (({ c with mode := .none, fd := fd }, []),
        ((headerOf e c.fd.input).operation.toNat : ℤ)) := by
  unfold Incomplete at hshort
  obtain ⟨fd, hinput, hheader⟩ := handleInput_header (e := e) (c := { c with mode := .none }) h8
  have hlen : fd.input.length = c.fd.input.length - 8 := by rw [hinput, List.length_drop]
  obtain ⟨fd', hinput', hpayload⟩ := @handleHeader_incomplete e { c with mode := .none, fd := fd }
    (headerOf e c.fd.input)
    (halloc.imp_right (Or.imp_left fun h => by dsimp only; omega)) (by dsimp only; omega)
    (by dsimp only; omega)
  refine ⟨fd', ?_, ?_⟩
  · rw [hinput', hinput, List.drop_drop]
  · rw [serverHandleCommand_reads hreads, hheader, hpayload]
    rfl

/-- The leader can carry out a request that is benign and complete. -/
theorem Benign.fitting {bs : List UInt8} (h : Benign e bs) (hall : ¬ Incomplete e bs)
    (hbad : ¬ BadScan e bs) (hpid : (headerOf e bs).pid ≠ 0)
    (hleader : e.leader (headerOf e bs).pid = true) :
    Fitting e (headerOf e bs) (payloadOf e bs) := by
  have hproper := (h.proper.resolve_left hall).2
  refine ⟨fun hscan => ?_, fun hexit => ?_⟩
  · have hsizes : 16 ≤ (payloadOf e bs).length ∧
        (ptrSizeOf e.order (payloadOf e bs) = 4 ∨ ptrSizeOf e.order (payloadOf e bs) = 8) := by
      by_contra hptr
      exact hbad ⟨hpid, hscan, by omega⟩
    refine ⟨hsizes.1, hsizes.2, fun hlen => ?_⟩
    by_contra hopen
    exact hproper ⟨hleader, .inr (.inl ⟨hpid, hscan, hlen, Bool.eq_false_iff.mpr hopen⟩)⟩
  · by_contra hstopped
    exact hproper ⟨hleader, .inr (.inr ⟨hpid, hexit, Bool.eq_false_iff.mpr hstopped⟩)⟩

theorem survivesRun_of_benign (hreads : Reads e c) (h8 : 8 ≤ c.fd.input.length)
    (h : Benign e c.fd.input) : SurvivesRun e c := by
  by_cases hshort : Incomplete e c.fd.input
  · obtain ⟨fd, hinput, hrun⟩ :=
      serverHandleCommand_incomplete hreads h8 h.allocated h.counted hshort
    exact ⟨_, _, _, hrun, fun _ _ => ⟨fun _ => hinput, fun _ => ⟨rfl, rfl⟩⟩⟩
  obtain ⟨hdepth, hleader⟩ := h.proper.resolve_left hshort
  obtain ⟨fd, hinput, hrun⟩ :=
    serverHandleCommand_complete hreads h8 h.allocated h.counted hshort
  by_cases hbad : BadScan e c.fd.input
  · -- there is no process to scan
    have hignored : handlePayload e { c with mode := .none, fd := fd } (headerOf e c.fd.input)
        (payloadOf e c.fd.input) = .ok ({ c with mode := .none, fd := fd }, []) := by
      unfold handlePayload
      rw [if_neg hbad.1, if_neg fun h => hleader ⟨h, .inl hbad⟩]
    rw [hignored] at hrun
    exact ⟨_, _, _, hrun, fun _ _ => ⟨fun _ => hinput, fun _ => ⟨rfl, rfl⟩⟩⟩
  · obtain ⟨c', effects, hpayload, hfd⟩ := handlePayload_ok (e := e)
      (c := { c with mode := .none, fd := fd }) hdepth (h.fitting hshort hbad)
    rw [hpayload] at hrun
    refine ⟨c', effects, _, hrun, fun _ _ => ⟨fun _ => by rw [hfd, hinput], ?_⟩⟩
    rintro (hinc | hd | hs)
    · exact absurd hinc hshort
    · exact absurd hd hdepth
    · exact absurd hs hbad

/-- Without a buffer for the payload the payload is taken for commands. -/
theorem allocated_of_survives (hreads : Reads e c) (h8 : 8 ≤ c.fd.input.length)
    (h : SurvivesRun e c) :
    (headerOf e c.fd.input).payloadLen = 0 ∨ c.fd.input.length = 8 ∨
      e.malloc (headerOf e c.fd.input).payloadLen.toNat = true := by
  by_contra hnot
  rw [not_or, not_or] at hnot
  obtain ⟨hzero, hbehind, hmalloc⟩ := hnot
  have hpos : 0 < (headerOf e c.fd.input).payloadLen.toNat :=
    Nat.pos_of_ne_zero fun h => hzero (UInt32.toNat_inj.mp h)
  obtain ⟨fd, hinput, hheader⟩ := handleInput_header (e := e) (c := { c with mode := .none }) h8
  have hrun : serverHandleCommand e c = .ok (({ c with mode := .none, fd := fd }, []),
      ((headerOf e c.fd.input).operation.toNat : ℤ)) := by
    rw [serverHandleCommand_reads hreads, hheader]
    unfold handleHeader
    rw [if_neg hzero, if_neg hmalloc]
    rfl
  obtain ⟨c', effects, ret, hrun', hkept⟩ := h
  rw [hrun] at hrun'
  cases hrun'
  have hrest := congrArg List.length ((hkept hreads h8).1 hreads.2.1)
  dsimp only at hrest
  rw [hinput, List.length_drop, List.length_drop] at hrest
  dsimp only at hrest
  omega

theorem proper_of_survives (hreads : Reads e c) (h8 : 8 ≤ c.fd.input.length)
    (halloc : (headerOf e c.fd.input).payloadLen = 0 ∨ c.fd.input.length = 8 ∨
      e.malloc (headerOf e c.fd.input).payloadLen.toNat = true)
    (hcount : (headerOf e c.fd.input).payloadLen.toNat ≤ 2 ^ 31 ∨ c.fd.input.length < 8 + 2 ^ 31)
    (h : SurvivesRun e c) :
    Incomplete e c.fd.input ∨ ¬ BadDepth e c.fd.input ∧
      ¬ (e.leader (headerOf e c.fd.input).pid = true ∧ (BadScan e c.fd.input ∨
        LostScan e c.fd.input ∨ StrayAboutExit e c.fd.input)) := by
  by_cases hshort : Incomplete e c.fd.input
  · exact .inl hshort
  obtain ⟨fd, hinput, hrun⟩ := serverHandleCommand_complete hreads h8 halloc hcount hshort
  obtain ⟨c', effects, ret, hok, hkept⟩ := h
  have hscan : e.leader (headerOf e c.fd.input).pid = true → ¬ BadScan e c.fd.input := by
    intro hleader hbad
    have hnothing := ((hkept hreads h8).2 (.inr (.inr hbad))).2
    rw [hrun] at hok
    cases hpayload : handlePayload e { c with mode := .none, fd := fd }
        (headerOf e c.fd.input) (payloadOf e c.fd.input) with
    | error fault =>
      rw [hpayload] at hok
      cases hok
    | ok r =>
      rw [hpayload] at hok
      cases hok
      exact handlePayload_scan hbad.1 hleader hbad.2.1 hpayload hnothing
  refine .inr ⟨?_, ?_⟩
  · rintro ⟨hpid, hasks, hnil⟩
    rw [hrun, hnil, handlePayload_depth hpid hasks] at hok
    cases hok
  · rintro ⟨hleader, hbad | ⟨hpid, hasks, hlen, hopen⟩ | ⟨hpid, hexit, hstopped⟩⟩
    · exact hscan hleader hbad
    · have hptr : ptrSizeOf e.order (payloadOf e c.fd.input) = 4 ∨
          ptrSizeOf e.order (payloadOf e c.fd.input) = 8 :=
        by_contra fun hptr => hscan hleader ⟨hpid, hasks, .inr hptr⟩
      rw [hrun, handlePayload_lost hpid hleader hasks hptr hlen hopen] at hok
      cases hok
    · rw [hrun, handlePayload_aboutExit hpid hleader hexit hstopped] at hok
      cases hok

end Handling

/-- A payload of more than two gigabytes leads the offset of `safe_read` astray. -/
theorem counted_of_survives {e : Host} {c : Conn} {input : List UInt8} (hreads : Reads e c)
    (h8 : 8 ≤ input.length)
    (halloc : (headerOf e input).payloadLen = 0 ∨ input.length = 8 ∨
      e.malloc (headerOf e input).payloadLen.toNat = true)
    (h : Survives e c input) :
    (headerOf e input).payloadLen.toNat ≤ 2 ^ 31 ∨ input.length < 8 + 2 ^ 31 := by
  by_contra hnot
  rw [not_or, not_le, not_lt] at hnot
  obtain ⟨hlen, hinput⟩ := hnot
  have hzero : (headerOf e input).payloadLen ≠ 0 := by
    intro h0
    have h0' : (headerOf e input).payloadLen.toNat = 0 := by rw [h0]; rfl
    omega
  have hmalloc := (halloc.resolve_left hzero).resolve_left (by omega)
  have hamount : 8 ≤ (Stream'.const (2 ^ 30)).head := by
    have hhead : (Stream'.const (2 ^ 30)).head = 2 ^ 30 := rfl
    rw [hhead]
    omega
  have hheader : safeRead ⟨input, .const (2 ^ 30)⟩ 8 =
      .ok (8, input.take 8, ⟨input.drop 8, .const (2 ^ 30)⟩) := by
    rw [safeRead_whole (by omega) hamount h8, Stream'.tail_const]
  have hpayload := @safeRead_overflow (input.drop 8) _ hlen
    (by rw [List.length_drop]; omega)
  have hrun : serverHandleCommand e { c with fd := ⟨input, .const (2 ^ 30)⟩ } =
      .error .offsetOverflow := by
    rw [serverHandleCommand_reads (c := { c with fd := ⟨input, .const (2 ^ 30)⟩ }) hreads]
    unfold handleInput handleHeader
    dsimp only
    rw [hheader]
    dsimp only
    rw [if_neg (not_not_intro rfl)]
    show (if (headerOf e input).payloadLen = 0 then _ else _) >>= _ = _
    rw [if_neg hzero]
    show (if e.malloc (headerOf e input).payloadLen.toNat then _ else _) >>= _ = _
    rw [if_pos hmalloc]
    show (match safeRead _ (headerOf e input).payloadLen.toNat with
      | .error .offsetOverflow => _
      | .ok (ret, payload, fd) => _) >>= _ = _
    rw [hpayload]
    rfl
  obtain ⟨c', effects, ret, hok, -⟩ := h (.const (2 ^ 30))
  rw [hrun] at hok
  cases hok

/-- The server survives a stream, in whatever pieces it arrives, unless the payload cannot be
allocated, is longer than an `int` counts, or is that of a depth or a scan that lacks what is read
from it, or of a scan or an answer that the process is not fit for. -/
theorem serverHandleCommand_survives_iff (e : Host) (c : Conn) (input : List UInt8) :
    Survives e c input ↔ (Reads e c → 8 ≤ input.length → Benign e input) := by
  constructor
  · intro h hreads h8
    have hfirst := h (.const 1)
    have halloc := allocated_of_survives (c := { c with fd := ⟨input, .const 1⟩ }) hreads h8 hfirst
    have hcount := counted_of_survives hreads h8 halloc h
    exact ⟨halloc, hcount, proper_of_survives (c := { c with fd := ⟨input, .const 1⟩ }) hreads h8
      halloc hcount hfirst⟩
  · intro h amounts
    by_cases hreads : Reads e c
    · by_cases h8 : 8 ≤ input.length
      · exact survivesRun_of_benign (c := { c with fd := ⟨input, amounts⟩ }) hreads h8
          (h hreads h8)
      · obtain ⟨r, ret, hrun⟩ := handleInput_short (e := e)
          (c := { c with mode := .none, fd := ⟨input, amounts⟩ }) h8
        refine ⟨r.1, r.2, ret, ?_, fun _ hlen => absurd hlen h8⟩
        rw [serverHandleCommand_reads (c := { c with fd := ⟨input, amounts⟩ }) hreads]
        exact hrun
    · obtain ⟨r, ret, hrun⟩ := serverHandleCommand_idle
        (c := { c with fd := ⟨input, amounts⟩ }) hreads
      exact ⟨r.1, r.2, ret, hrun, fun hr => absurd hr hreads⟩

/-- `MT_DEPTH` without its byte. -/
theorem serverHandleCommand_crashes :
    ∃ (e : Host) (c : Conn), Reads e c ∧ c.fd.input = [31, 0, 0, 0, 0, 0, 0, 0] ∧
      serverHandleCommand e c = .error .outOfBounds ∧ ¬ Survives e c c.fd.input := by
  let e : Host :=
    ⟨.little, false, false, fun _ => true, fun _ => true, fun _ => true, fun _ => none⟩
  let c : Conn := ⟨.command, true, 5, ⟨[31, 0, 0, 0, 0, 0, 0, 0], .const 8⟩⟩
  have hreads : Reads e c := ⟨rfl, rfl, .inr rfl⟩
  have hheader : headerOf e c.fd.input = ⟨31, 0, 0⟩ := by decide +kernel
  have hall : ¬ Incomplete e c.fd.input := by
    unfold Incomplete
    rw [hheader]
    decide
  have hrun : serverHandleCommand e c = .error .outOfBounds := by
    obtain ⟨fd, -, hrun⟩ := serverHandleCommand_complete hreads (by decide)
      (.inr (.inl rfl)) (.inr (by decide)) hall
    have hnil : payloadOf e c.fd.input = [] := rfl
    rw [hrun, hnil, handlePayload_depth (by rw [hheader]) (by rw [hheader]; decide)]
    rfl
  refine ⟨e, c, hreads, rfl, hrun, fun h => ?_⟩
  obtain ⟨c', effects, ret, hok, -⟩ := h (.const 8)
  have hcrash : Except.ok ((c', effects), ret) = Except.error CommandFault.outOfBounds :=
    hok.symm.trans hrun
  cases hcrash

end Mtrace.Server
