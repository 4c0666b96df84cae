import Mathlib.Logic.Function.Basic
import Mtrace.Server.Breakpoint
import Mtrace.Server.Report

/-!
# Breakpoint hits

`handle_breakpoint` and `handle_call_after` of `event.c`, as to the calls of a task: at the entry of
a function a breakpoint is put on its return address, and the next return breakpoint the task hits
ends the call.  Stepping over the breakpoint and moving it between text and hardware are not part of
this model; on x86 the scratch slot of a task holds a return breakpoint in hardware.
-/

namespace Mtrace.Server

/-- `struct library_symbol` with its `func`. -/
structure Symbol where
  libsym : LibrarySymbol
  func : Function

/-- What `handle_breakpoint` reads of a breakpoint; of the functions in `on_hit` only
`handle_call_after` is here. -/
structure HitBp where
  addr : UInt64
  type : BpType
  deleted : Bool
  libsym : Option Symbol
  callAfter : Bool

/-- The dictionary of a leader, by address. -/
abbrev BpDict := UInt64 → Option HitBp

/-- The fields of a task about its call: the return breakpoint, by address, the function and what
the scratch slot holds. -/
structure HitTask where
  breakpoint : Option UInt64
  libsym : Option Symbol
  scratch : Option UInt64

/-- What is called while a hit is handled: `report_in` and `report_out` of a function, if it has
them. -/
inductive Invocation where
  | reportIn (sym : Symbol)
  | reportOut (sym : Symbol)

/-- The options of the server that matter here. -/
structure HitOptions where
  nohwbp : Bool
  nocpp : Bool

/-- `breakpoint_insert` of a return breakpoint. -/
def insertReturnBp (opts : HitOptions) (bps : BpDict) (addr : UInt64) : Option HitBp :=
  if addr = 0 then none
  else match bps addr with
    | some bp => some bp
    | none => some ⟨addr, if opts.nohwbp then .sw else .hwScratch, false, none, false⟩

/-- `enable_scratch_hw_bp`. -/
def enableScratchHwBp (t : HitTask) (bp : HitBp) : HitTask :=
  if bp.deleted then t
  else if bp.type = .hwScratch then { t with scratch := some bp.addr } else t

/-- `disable_scratch_hw_bp`. -/
def disableScratchHwBp (t : HitTask) (bp : HitBp) : Except String HitTask :=
  if bp.deleted then .ok t
  else if bp.type ≠ .hwScratch then .ok t
  else match t.scratch with
    | none => .ok t
    | some addr => do
      check (addr == bp.addr) "task->hw_bp[slot] == bp"
      return { t with scratch := none }

def handleCallAfter (t : HitTask) (bp : HitBp) : Except String (HitTask × List Invocation) :=
  match t.breakpoint, t.libsym with
  | none, _ => .ok (t, [])
  | some _, none => .error "task->libsym is NULL"
  | some _, some sym => do
    let t ← disableScratchHwBp t bp
    return ({ t with breakpoint := none, libsym := none }, [.reportOut sym])

/-- The entry of a function. -/
def handleEntry (opts : HitOptions) (bps : BpDict) (t : HitTask) (sym : Symbol) (ra : UInt64) :
    BpDict × HitTask :=
  if sym.func.reportOut.isSome || !opts.nocpp then
    match insertReturnBp opts bps ra with
    | none => (bps, t)
    | some bp =>
      let bp := { bp with callAfter := true }
      (Function.update bps ra (some bp),
        enableScratchHwBp { t with breakpoint := some ra, libsym := some sym } bp)
  else (bps, t)

/-- `handle_breakpoint`; `ra` is the return address of the task, if it has just been called. -/
def handleBreakpoint (opts : HitOptions) (bps : BpDict) (t : HitTask) (bp : HitBp) (ra : UInt64) :
    Except String (BpDict × HitTask × List Invocation) :=
  if bp.deleted then .ok (bps, t, [])
  else do
    let (t, outs) ← if bp.callAfter then handleCallAfter t bp else .ok (t, [])
    match bp.libsym, t.breakpoint with
    | some sym, none =>
      let (bps, t) := handleEntry opts bps t sym ra
      return (bps, t, outs ++ [.reportIn sym])
    | _, _ => return (bps, t, outs)

end Mtrace.Server
