import Mtrace.Client.Payload
import Mtrace.Server.Api

/-!
# The words of the reports

Whatever a traced task holds in its registers and its memory, the reporters send words of its width
and backtraces that are no longer than the options allow.
-/

namespace Mtrace.Server

open Client

/-- The words of a payload are words of the task, and the backtrace has at most `bt_depth` of them
behind the symbol. -/
structure Message.Narrow (cfg : Config) (is64bit : Bool) (m : Message) : Prop where
  ptr : m.2.ptr.toNat < 256 ^ wordSize is64bit
  size : m.2.size.toNat < 256 ^ wordSize is64bit
  data : m.2.data.length ≤ 8 * (cfg.btDepth + 1)

/-- A reporter that sends such messages. -/
def Reporter.Narrow (g : Reporter) : Prop :=
  ∀ cfg libsym t t' ms, g cfg libsym t = .ok (t', ms) → ∀ m ∈ ms, Message.Narrow cfg t.is64bit m

section Narrow

variable {cfg : Config} {libsym : LibrarySymbol} {t : Task} {f : Function}

theorem narrow_lt (t : Task) (n : UInt64) : (t.narrow n).toNat < 256 ^ wordSize t.is64bit := by
  unfold Task.narrow wordSize
  cases t.is64bit with
  | true => exact n.toNat_lt
  | false =>
    rw [if_neg Bool.false_ne_true, UInt32.toNat_toUInt64]
    exact n.toUInt32.toNat_lt

theorem length_backtrace (t : Task) (depth : ℕ) (fs : List Frame) (data : List UInt64) :
    (backtrace t depth data fs).length ≤ max depth data.length := by
  induction fs generalizing data with
  | nil => exact le_max_right ..
  | cons f fs ih =>
    rw [backtrace]
    split_ifs with hdepth
    · exact le_max_right ..
    · exact ih data
    · exact ih data
    · exact le_max_right ..
    · refine (ih _).trans ?_
      rw [List.length_append, List.length_singleton]
      omega

theorem length_bytes_le (n : UInt64) : (cfg.bytes t n).length ≤ 8 := by
  unfold Config.bytes
  cases t.is64bit <;> cases cfg.bigEndian <;> simp

theorem length_flatMap_bytes (data : List UInt64) :
    (data.flatMap (cfg.bytes t)).length ≤ 8 * data.length := by
  induction data with
  | nil => exact le_rfl
  | cons n data ih =>
    have hn := @length_bytes_le cfg t n
    rw [List.flatMap_cons, List.length_append, List.length_cons]
    omega

theorem narrow_reportAlloc {op : MtOperation} {ptr size : UInt64} {depth : ℕ}
    (hdepth : depth ≤ cfg.btDepth) :
    ∀ m ∈ reportAlloc cfg t op ptr size depth libsym, Message.Narrow cfg t.is64bit m := by
  intro m hm
  unfold reportAlloc reportAllocSized at hm
  split at hm
  · cases hm
  · rw [List.mem_singleton.mp hm]
    refine ⟨narrow_lt t ptr, narrow_lt t size, (length_flatMap_bytes _).trans ?_⟩
    split
    · exact Nat.zero_le _
    · have hlen := length_backtrace t depth t.frames [t.narrow libsym.addr]
      rw [List.length_singleton] at hlen
      omega

theorem narrow_alloc (op : Config → MtOperation) (ptr size : Config → Task → UInt64)
    (depth : Config → ℕ) (hdepth : ∀ cfg, depth cfg ≤ cfg.btDepth) :
    Reporter.Narrow fun cfg libsym t =>
      .ok (t, reportAlloc cfg t (op cfg) (ptr cfg t) (size cfg t) (depth cfg) libsym) := by
  intro cfg libsym t t' ms h
  cases h
  exact narrow_reportAlloc (hdepth cfg)

theorem Reporter.Narrow.unless {g : Reporter} (hg : g.Narrow) (p : Config → Task → Prop)
    [∀ cfg t, Decidable (p cfg t)] :
    Reporter.Narrow fun cfg libsym t => if p cfg t then .ok (t, []) else g cfg libsym t := by
  intro cfg libsym t t' ms h
  dsimp only at h
  split at h
  · cases h
    exact fun m hm => absurd hm List.not_mem_nil
  · exact hg _ _ _ _ _ h

theorem depth_le (cfg : Config) : (if cfg.sanity then cfg.btDepth else 0) ≤ cfg.btDepth := by
  split <;> omega

theorem narrow_reportRealloc : reportRealloc.Narrow := by
  intro cfg libsym t t' ms h
  unfold reportRealloc at h
  split at h
  · cases h
  · split at h
    · cases h
      exact narrow_reportAlloc (depth_le cfg)
    · cases h
      exact fun m hm => absurd hm List.not_mem_nil

theorem narrow_reportReallocOut : reportReallocOut.Narrow := by
  intro cfg libsym t t' ms h
  unfold reportReallocOut at h
  rw [reportAlloc_of_ne] at h
  have hdone : ∀ m ∈ reportAlloc cfg t .realloc t.retval (t.param 1) cfg.btDepth libsym,
      Message.Narrow cfg t.is64bit m := narrow_reportAlloc le_rfl
  split at h
  · cases h
    exact hdone
  · cases h
    intro m hm
    rcases List.mem_append.mp hm with hm | hm
    · exact hdone m hm
    · rw [List.mem_singleton.mp hm]
      exact ⟨narrow_lt t _, narrow_lt t _, Nat.zero_le _⟩

/-- All the reporters of a function. -/
def Function.Narrow (f : Function) : Prop :=
  (∀ g, f.reportIn = some g → g.Narrow) ∧ ∀ g, f.reportOut = some g → g.Narrow

theorem narrow_out (name : String) {g : Reporter} (hg : g.Narrow) :
    Function.Narrow ⟨name, none, some g⟩ :=
  ⟨fun _ h => (by cases h), fun _ h => Option.some.inj h ▸ hg⟩

theorem narrow_in (name : String) {g : Reporter} (hg : g.Narrow) :
    Function.Narrow ⟨name, some g, none⟩ :=
  ⟨fun _ h => Option.some.inj h ▸ hg, fun _ h => (by cases h)⟩

theorem narrow_both (name : String) {g g' : Reporter} (hg : g.Narrow) (hg' : g'.Narrow) :
    Function.Narrow ⟨name, some g, some g'⟩ :=
  ⟨fun _ h => Option.some.inj h ▸ hg, fun _ h => Option.some.inj h ▸ hg'⟩

theorem narrow_of_mem (hf : f ∈ flist) : f.Narrow := by
  have hout (op : Config → MtOperation) (size : Config → Task → UInt64) :
      Reporter.Narrow fun cfg libsym t =>
        .ok (t, reportAlloc cfg t (op cfg) t.retval (size cfg t) cfg.btDepth libsym) :=
    narrow_alloc op (fun _ t => t.retval) size (fun cfg => cfg.btDepth) fun _ => le_rfl
  have hfree (op : Config → MtOperation) : Reporter.Narrow fun cfg => reportFreeOp (op cfg) cfg :=
    narrow_alloc op (fun _ t => t.param 0) (fun _ _ => 0) _ depth_le
  have hunmap : reportMunmap.Narrow := narrow_alloc (fun _ => .munmap) (fun _ t => t.param 0)
    (fun _ t => t.param 1) (fun _ => 0) fun _ => Nat.zero_le _
  have hposix : reportPosixMemalignOut.Narrow :=
    (narrow_alloc (fun _ => .posixMemalign) (fun _ t => t.peek (t.param 0))
      (fun _ t => t.param 2) (fun cfg => cfg.btDepth) fun _ => le_rfl).unless
      fun _ t => t.retval ≠ 0
  have hmap (op : MtOperation) (size : Config → Task → UInt64) :=
    (hout (fun _ => op) size).unless fun cfg t => t.retval = cfg.mapFailed
  have hfirst := fun name op => narrow_out name (hout op fun _ t => t.param 0)
  have hsecond := fun name op => narrow_out name (hout op fun _ t => t.param 1)
  revert f
  simp only [flist, List.forall_mem_cons]
  refine ⟨hfirst _ fun _ => .malloc, narrow_in _ (hfree fun _ => .free),
    narrow_both _ narrow_reportRealloc narrow_reportReallocOut,
    narrow_out _ (hout (fun _ => .malloc) fun cfg t => cfg.ulong (t.param 0 * t.param 1)),
    narrow_out _ hposix, narrow_out _ (hmap .mmap fun _ t => t.param 1),
    narrow_out _ (hmap .mmap64 fun cfg t => cfg.ulong (mmap64Size cfg t)), narrow_in _ hunmap,
    hsecond _ fun _ => .memalign, hsecond _ fun _ => .alignedAlloc, hfirst _ fun _ => .valloc,
    hfirst _ fun _ => .pvalloc, narrow_both _ hunmap (hout (fun _ => .mmap) fun _ t => t.param 2),
    narrow_in _ (hfree fun _ => .free),
    narrow_out _ (hout (fun _ => .malloc) fun cfg t => cfg.ulong (t.param 1 * t.param 2)), ?_⟩
  iterate 8 refine ⟨hfirst _ fun cfg => if cfg.sanity then .new else .malloc,
    hfirst _ fun cfg => if cfg.sanity then .newArray else .malloc, ?_⟩
  iterate 8 refine ⟨narrow_in _ (hfree fun cfg => if cfg.sanity then .delete else .free),
    narrow_in _ (hfree fun cfg => if cfg.sanity then .deleteArray else .free), ?_⟩
  exact fun f hf => absurd hf List.not_mem_nil

theorem narrow_reportBy {g : Option Reporter} (hg : ∀ r, g = some r → r.Narrow) {t' : Task}
    {ms : List Message} (h : reportBy g cfg libsym t = .ok (t', ms)) :
    ∀ m ∈ ms, Message.Narrow cfg t.is64bit m := by
  cases g with
  | none =>
    cases h
    exact fun m hm => absurd hm List.not_mem_nil
  | some r => exact hg r rfl _ _ _ _ _ h

end Narrow

end Mtrace.Server
