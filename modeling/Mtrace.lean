import Mtrace.Client.References
import Mtrace.Client.Fork
import Mtrace.Client.Backtraces
import Mtrace.Client.Ledger
import Mtrace.Calls
import Mtrace.Framing
import Mtrace.Operations
import Mtrace.LeakScan
import Mtrace.Server.Clone
import Mtrace.Client.Wait
import Mtrace.Client.Files
import Mtrace.Server.Group
import Mtrace.Dwarf.StartIp
import Mtrace.Server.Returns
import Mtrace.Server.Realloc
import Mtrace.Server.Linkmap
import Mtrace.Tracer.Counters
import Mtrace.Tracer.Places
import Mtrace.Tracer.References
import Mtrace.Client.Munmap
import Mtrace.Client.Evict
import Mtrace.Client.Undo
import Mtrace.Server.Hottest
import Mtrace.Server.Inherit
import Mtrace.Server.Unread
import Mtrace.Server.Command
import Mtrace.Client.Iterate
import Mtrace.Dwarf.Rules
import Mtrace.Dwarf.Agrees
import Mtrace.Dwarf.CfiLoop
import Mtrace.Dwarf.FrameRow
import Mtrace.Dwarf.Augment
import Mtrace.Dwarf.Guess
import Mtrace.Client.Keywords
import Mtrace.Client.Config
import Mtrace.Server.Memory
import Mtrace.Dwarf.Locate
import Mtrace.Dwarf.Frames
import Mtrace.Dwarf.Backtrace
import Mtrace.Dwarf.ExprStack
import Mtrace.Dwarf.Flow
import Mtrace.Dwarf.Nesting
import Mtrace.Callbacks
import Mtrace.Client.Symbols
import Mtrace.Arm.Covers
import Mtrace.Dwarf.Encoded
import Mtrace.Dwarf.LastEntry
import Mtrace.Server.Patch
import Mtrace.Server.DebugRegs
import Mtrace.Server.Dict
import Mtrace.Client.StackTable
import Mtrace.Rb.Walks
import Mtrace.Rb.Reap
import Mtrace.Client.PidTable
import Mtrace.Client.Program
import Mtrace.Server.Symtab
import Mtrace.Client.Dump
import Mtrace.Tracer.Attach
import Mtrace.Tracer.PidHash
