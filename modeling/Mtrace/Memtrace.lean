import Mathlib.Data.List.Basic

/-!
# The wire vocabulary

The operations of `memtrace.h` and the payloads the client's handlers read, decoded: an address or
a size is the value `get_ulong` returns, the backtrace is the tail of the payload as it came.
-/

namespace Mtrace

/-- `enum mt_operation`. -/
inductive MtOperation where
  | info
  | disconnect
  | addMap
  | delMap
  | attach
  | attach64
  | fork
  | aboutExit
  | exit
  | nofollow
  | malloc
  | reallocEnter
  | reallocDone
  | realloc
  | free
  | mmap
  | mmap64
  | munmap
  | memalign
  | posixMemalign
  | alignedAlloc
  | valloc
  | pvalloc
  | scan
  | stop
  | start
  | detach
  | new
  | newArray
  | delete
  | deleteArray
  | depth
  deriving DecidableEq, Repr

/-- `struct mt_alloc_payload_64` and `struct mt_alloc_payload_32`; `size` carries the thread of a
`realloc` in the messages that have no size. -/
structure MtAllocPayload where
  ptr : UInt64
  size : UInt64
  data : List UInt8
  deriving DecidableEq, Repr

/-- `struct mt_map_payload`. -/
structure MtMapPayload where
  addr : UInt64
  offset : UInt64
  size : UInt64
  bias : UInt64
  filename : String
  deriving DecidableEq, Repr

end Mtrace
