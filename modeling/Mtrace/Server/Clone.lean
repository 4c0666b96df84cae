import Mtrace.Server.Reorder

/-!
# Breakpoints across `fork` and `vfork`

`do_clone` of `event.c` for a new process: the child gets a copy of every breakpoint of the parent,
and a child that is not followed has all of them disabled before it is let go.  After a `fork` the
child has a copy of the text, after a `vfork` it shares the text with its parent.  Memory is never
exhausted, so `task_fork` only fails where it follows a null pointer.

A breakpoint of the child has the handle of the one it is a copy of; `visit` is the order in which
`dict_apply_to_all` goes through a dictionary, and `garbage` what `malloc` leaves in a structure.
-/

namespace Mtrace.Server

/-- `EVENT_FORK` and `EVENT_VFORK`. -/
inductive CloneKind where
  | fork
  | vfork
  deriving DecidableEq, Repr

/-- What `task_fork` reads of the task that forks. -/
structure ForkingTask where
  breakpoint : Option Handle
  skipBp : Option Handle
  deriving DecidableEq, Repr

/-- The structure `clone_single_cb` fills in. -/
def Breakpoint.clone (bp garbage : Breakpoint) : Breakpoint :=
  let b : Breakpoint :=
    { bp with
      hwcnt := 0
      deleted := false
      wasHw := garbage.wasHw
      breakInsn := garbage.breakInsn
      shared := garbage.shared }
  if bp.hw then { b with shared := bp.shared }
  else if bp.sw then b.setOrigValue bp.origValue
  else b

/-- `clone_single_cb`. -/
def cloneSingle (garbage : Handle → Breakpoint) (parent child : Traced) (h : Handle) :
    Except String Traced :=
  let bp := parent.bp h
  if bp.deleted then .ok child
  else do
    if bp.type = .hwScratch then
      check (bp.hwBpSlot == hwBpScratchSlot) "bp->hw_bp_slot == HW_BP_SCRATCH_SLOT"
    if bp.type = .hwScratch ∧ bp.hw = true then return child
    if bp.hw then
      check (bp.hwBpSlot != hwBpScratchSlot) "new_bp->hw_bp_slot != HW_BP_SCRATCH_SLOT"
    return { child with
      bp := Function.update child.bp h (bp.clone (garbage h))
      breakpoints := child.breakpoints ++ [h]
      hwBpList := if bp.type.geHw then child.hwBpList ++ [h] else child.hwBpList
      hwBpNum := if bp.type.geHw then child.hwBpNum + 1 else child.hwBpNum
      hwBp := if bp.hw then Function.update child.hwBp bp.hwBpSlot (some h) else child.hwBp }

/-- A new process: it has the text of its parent and no breakpoints. -/
def newChild (parent : Traced) : Traced :=
  { Traced.start parent.text 0 with next := parent.next }

/-- `breakpoint_clone_all`. -/
def breakpointCloneAll (visit : List Handle → List Handle) (garbage : Handle → Breakpoint)
    (parent child : Traced) : Except String Traced :=
  (visit parent.breakpoints).foldlM (cloneSingle garbage parent) child

/-- `task_fork`.  The new task is all zero: its `breakpoint` and its `skip_bp` are followed before
they are set. -/
def taskFork (visit : List Handle → List Handle) (garbage : Handle → Breakpoint)
    (task : ForkingTask) (parent : Traced) : Except String Traced := do
  let child ← breakpointCloneAll visit garbage parent (newChild parent)
  check task.breakpoint.isNone "newtask->breakpoint != NULL"
  check (task.skipBp.all fun h => (parent.bp h).deleted) "newtask->skip_bp != NULL"
  return child

/-- The end of `task_destroy`: the slots are cleared and all breakpoints deleted, those of the
libraries first. -/
def taskDestroy (visit : List Handle → List Handle) (t : Traced) : Except String Traced :=
  (visit t.breakpoints).foldlM Traced.breakpointDelete { t with hwBp := fun _ => none }

def removeProc (visit : List Handle → List Handle) (t : Traced) : Except String Traced := do
  let t ← t.breakpointDisableAll (visit t.breakpoints)
  taskDestroy visit t

/-- The parent after its child has worked on the text. -/
def Traced.beside (parent : Traced) (kind : CloneKind) (child : Traced) : Traced :=
  match kind with
  | .fork => parent
  | .vfork => { parent with text := child.text }

/-- `do_clone` for a new process: the parent and the child afterwards. -/
def doClone (visit : List Handle → List Handle) (garbage : Handle → Breakpoint) (follow : Bool)
    (kind : CloneKind) (task : ForkingTask) (parent : Traced) :
    Except String (Traced × Traced) := do
  let child ← taskFork visit garbage task parent
  if !follow then
    let child ← removeProc visit child
    return (parent.beside kind child, child)
  return (parent.beside kind child, child)

/-! ## The copies -/

theorem Breakpoint.clone_origValue (bp garbage : Breakpoint) (hsw : bp.sw = true)
    (hhw : bp.hw = false) : (bp.clone garbage).origValue = bp.origValue := by
  unfold Breakpoint.clone
  rw [hhw, hsw]
  exact Breakpoint.origValue_setOrigValue _ _

theorem Breakpoint.clone_hwBpSlot (bp garbage : Breakpoint) (hhw : bp.hw = true) :
    (bp.clone garbage).hwBpSlot = bp.hwBpSlot := by
  unfold Breakpoint.clone
  rw [hhw]
  rfl

/-- A copy differs only in fields that no operation reads. -/
theorem Breakpoint.clone_fields (bp garbage : Breakpoint) :
    (bp.clone garbage).addr = bp.addr ∧ (bp.clone garbage).type = bp.type ∧
      (bp.clone garbage).enabled = bp.enabled ∧ (bp.clone garbage).sw = bp.sw ∧
      (bp.clone garbage).hw = bp.hw ∧ (bp.clone garbage).deleted = false := by
  unfold Breakpoint.clone
  cases bp.hw <;> cases bp.sw <;> exact ⟨rfl, rfl, rfl, rfl, rfl, rfl⟩

/-- The child when the breakpoints in `done` have been visited. -/
structure Cloning (garbage : Handle → Breakpoint) (parent : Traced) (done : List Handle)
    (child : Traced) : Prop where
  text : child.text = parent.text
  next : child.next = parent.next
  threads : child.threads = []
  breakpoints : child.breakpoints = done.filter fun h => decide ((parent.bp h).type ≠ .hwScratch)
  copies : ∀ h ∈ child.breakpoints, child.bp h = (parent.bp h).clone (garbage h)
  others : ∀ h ∉ child.breakpoints, child.bp h = .none
  list : child.hwBpList = done.filter fun h => (parent.bp h).type.geHw
  num : child.hwBpNum = child.hwBpList.length
  slots : ∀ i h, 0 < i → (child.hwBp i = some h ↔ h ∈ child.breakpoints ∧
    (parent.bp h).hw = true ∧ (parent.bp h).hwBpSlot = i)

section Copies

variable {orig : UInt64 → UInt8} {garbage : Handle → Breakpoint} {parent child : Traced}

theorem cloning_newChild (garbage : Handle → Breakpoint) (parent : Traced) :
    Cloning garbage parent [] (newChild parent) where
  text := rfl
  next := rfl
  threads := rfl
  breakpoints := rfl
  copies := fun _ h => (by cases h)
  others := fun _ _ => rfl
  list := rfl
  num := rfl
  slots := fun _ _ _ => ⟨fun h => (by cases h), fun h => (by cases h.1)⟩

theorem Cloning.mem {done : List Handle} (hc : Cloning garbage parent done child) {h : Handle} :
    h ∈ child.breakpoints ↔ h ∈ done ∧ (parent.bp h).type ≠ .hwScratch := by
  rw [hc.breakpoints, List.mem_filter, decide_eq_true_eq]

/-- A scratch breakpoint is not copied. -/
theorem cloneSingle_scratch {done : List Handle} (ht : Transparent orig parent)
    (hc : Cloning garbage parent done child) {h : Handle} (hh : h ∈ parent.breakpoints)
    (htype : (parent.bp h).type = .hwScratch) :
    cloneSingle garbage parent child h = .ok child ∧
      Cloning garbage parent (done ++ [h]) child := by
  have hdel := (ht.live h).mp hh
  constructor
  · obtain ⟨-, hhw, hslot⟩ := (ht.placed h hh).scratch_of_type htype
    have hcheck : ((parent.bp h).hwBpSlot == hwBpScratchSlot) = true := by
      rw [beq_iff_eq]
      exact hslot
    unfold cloneSingle
    dsimp only
    rw [hdel, if_neg (by decide), if_pos htype, hcheck, if_pos ⟨htype, hhw⟩]
    rfl
  · refine ⟨hc.text, hc.next, hc.threads, ?_, hc.copies, hc.others, ?_, hc.num, hc.slots⟩
    · rw [List.filter_append, ← hc.breakpoints]
      simp [htype]
    · rw [List.filter_append, ← hc.list]
      simp [htype, BpType.geHw]

/-- Every other breakpoint is. -/
theorem cloneSingle_copy {done : List Handle} (ht : Transparent orig parent)
    (hc : Cloning garbage parent done child) {h : Handle} (hh : h ∈ parent.breakpoints)
    (hdone : ∀ g ∈ done, g ∈ parent.breakpoints) (hnew : h ∉ done)
    (htype : (parent.bp h).type ≠ .hwScratch) :
    ∃ child', cloneSingle garbage parent child h = .ok child' ∧
      Cloning garbage parent (done ++ [h]) child' := by
  have hdel := (ht.live h).mp hh
  have hnot : h ∉ child.breakpoints := fun hmem => hnew (hc.mem.mp hmem).1
  have heq : cloneSingle garbage parent child h = .ok { child with
      bp := Function.update child.bp h ((parent.bp h).clone (garbage h))
      breakpoints := child.breakpoints ++ [h]
      hwBpList := if (parent.bp h).type.geHw then child.hwBpList ++ [h] else child.hwBpList
      hwBpNum := if (parent.bp h).type.geHw then child.hwBpNum + 1 else child.hwBpNum
      hwBp := if (parent.bp h).hw then
          Function.update child.hwBp (parent.bp h).hwBpSlot (some h)
        else child.hwBp } := by
    unfold cloneSingle
    dsimp only
    rw [hdel, if_neg (by decide), if_neg htype, if_neg fun h' => htype h'.1]
    by_cases hhw : (parent.bp h).hw = true
    · obtain ⟨-, -, -, hlo, -, -⟩ := (ht.placed h hh).hard_of_hw hhw htype
      have hcheck : ((parent.bp h).hwBpSlot != hwBpScratchSlot) = true := by
        rw [bne_iff_ne]
        exact hlo.ne'
      rw [if_pos hhw, hcheck]
      rfl
    · rw [if_neg hhw]
      rfl
  have hmem {g : Handle} : g ∈ child.breakpoints ++ [h] ↔ g ∈ child.breakpoints ∨ g = h := by
    rw [List.mem_append, List.mem_singleton]
  refine ⟨_, heq, hc.text, hc.next, hc.threads, ?_, ?_, ?_, ?_, ?_, ?_⟩
  all_goals dsimp only
  · rw [List.filter_append, ← hc.breakpoints]
    simp [htype]
  · intro g hg
    by_cases hgh : g = h
    · rw [hgh, Function.update_self]
    · rw [Function.update_of_ne hgh]
      exact hc.copies g ((hmem.mp hg).resolve_right hgh)
  · intro g hg
    rw [hmem, not_or] at hg
    rw [Function.update_of_ne hg.2]
    exact hc.others g hg.1
  · rw [List.filter_append, ← hc.list]
    by_cases hge : (parent.bp h).type.geHw = true
    · simp [hge]
    · simp [hge]
  · split
    · rw [List.length_append, hc.num]
      rfl
    · exact hc.num
  · intro i g hlo
    rw [hmem]
    by_cases hhw : (parent.bp h).hw = true
    · rw [if_pos hhw]
      obtain ⟨hge, -, -, -, -, -⟩ := (ht.placed h hh).hard_of_hw hhw htype
      by_cases hi : i = (parent.bp h).hwBpSlot
      · rw [hi, Function.update_self, Option.some_inj]
        constructor
        · rintro rfl
          exact ⟨.inr rfl, hhw, rfl⟩
        · rintro ⟨hg | rfl, ghw, hslot⟩
          · -- two breakpoints of the parent would share a slot
            have hg' := hc.mem.mp hg
            obtain ⟨gge, -⟩ := (ht.placed g (hdone g hg'.1)).hard_of_hw ghw hg'.2
            exact slot_injective ht hh (hdone g hg'.1) hhw ghw hge gge hslot.symm
          · rfl
      · rw [Function.update_of_ne hi, hc.slots i g hlo]
        constructor
        · rintro ⟨hg, hrest⟩
          exact ⟨.inl hg, hrest⟩
        · rintro ⟨hg | rfl, ghw, hslot⟩
          · exact ⟨hg, ghw, hslot⟩
          · exact absurd hslot.symm hi
    · rw [if_neg hhw, hc.slots i g hlo]
      constructor
      · rintro ⟨hg, hrest⟩
        exact ⟨.inl hg, hrest⟩
      · rintro ⟨hg | rfl, ghw, hslot⟩
        · exact ⟨hg, ghw, hslot⟩
        · exact absurd ghw hhw

theorem foldlM_cloneSingle (ht : Transparent orig parent) (todo done : List Handle)
    (hc : Cloning garbage parent done child) (hdone : ∀ g ∈ done ++ todo, g ∈ parent.breakpoints)
    (hnodup : (done ++ todo).Nodup) :
    ∃ child', todo.foldlM (cloneSingle garbage parent) child = .ok child' ∧
      Cloning garbage parent (done ++ todo) child' := by
  induction todo generalizing done child with
  | nil =>
    rw [List.append_nil]
    exact ⟨child, rfl, hc⟩
  | cons h todo ih =>
    have hsplit : done ++ h :: todo = (done ++ [h]) ++ todo := by simp
    have hh : h ∈ parent.breakpoints := hdone h (by simp)
    have hnew : h ∉ done := by
      intro hmem
      have hdisj := (List.nodup_append.mp hnodup).2.2 h hmem h List.mem_cons_self
      exact hdisj rfl
    obtain ⟨child1, heq1, hc1⟩ : ∃ child', cloneSingle garbage parent child h = .ok child' ∧
        Cloning garbage parent (done ++ [h]) child' := by
      by_cases htype : (parent.bp h).type = .hwScratch
      · exact ⟨child, cloneSingle_scratch ht hc hh htype⟩
      · exact cloneSingle_copy ht hc hh (fun g hg => hdone g (List.mem_append_left _ hg)) hnew htype
    rw [hsplit] at hdone hnodup ⊢
    obtain ⟨child2, heq2, hc2⟩ := ih (done ++ [h]) hc1 hdone hnodup
    refine ⟨child2, ?_, hc2⟩
    rw [List.foldlM_cons, heq1]
    exact heq2

/-- The copies do to the text of the child what the breakpoints of the parent do to that of the
parent. -/
theorem Cloning.transparent {order : List Handle} (ht : Transparent orig parent)
    (hc : Cloning garbage parent order child) (hperm : order.Perm parent.breakpoints) :
    Transparent orig child := by
  have hmem {h : Handle} : h ∈ child.breakpoints ↔
      h ∈ parent.breakpoints ∧ (parent.bp h).type ≠ .hwScratch := by
    rw [hc.mem, hperm.mem_iff]
  have hnodup : order.Nodup := hperm.nodup_iff.mpr ht.nodup
  have hfields {h : Handle} (hh : h ∈ child.breakpoints) :=
    hc.copies h hh ▸ (parent.bp h).clone_fields (garbage h)
  refine ⟨?_, ?_, ?_, ?_, ?_, ?_, ?_, ?_, ?_, ?_, ?_, ?_, ?_, hc.num⟩
  · intro h hh
    rw [hc.next]
    exact ht.fresh h (hmem.mp hh).1
  · rw [hc.breakpoints]
    exact hnodup.filter _
  · intro h
    by_cases hh : h ∈ child.breakpoints
    · exact ⟨fun _ => (hfields hh).2.2.2.2.2, fun _ => hh⟩
    · rw [hc.others h hh]
      exact ⟨fun h' => absurd h' hh, fun h' => (by cases h')⟩
  · intro h hh g hg heq
    rw [(hfields hh).1, (hfields hg).1] at heq
    exact ht.distinct h (hmem.mp hh).1 g (hmem.mp hg).1 heq
  · intro h hh
    obtain ⟨-, ftype, fen, fsw, fhw, -⟩ := hfields hh
    have hp := ht.placed h (hmem.mp hh).1
    refine hp.congr ftype fen fsw fhw (fun htype hhw => ⟨?_, ?_⟩) fun h1 => ?_
    · rw [hc.copies h hh]
      exact Breakpoint.clone_hwBpSlot _ _ hhw
    · intro _
      obtain ⟨-, -, -, hlo, -⟩ := hp.hard_of_hw hhw htype
      exact (hc.slots _ h hlo).mpr ⟨hh, hhw, rfl⟩
    · exact absurd h1 (hmem.mp hh).2
  · intro h hh
    rw [hc.others h hh]
    rfl
  · intro h hh
    obtain ⟨faddr, -, -, fsw, -, -⟩ := hfields hh
    have hover : (child.bp h).over = (parent.bp h).over := by
      unfold Breakpoint.over
      rw [fsw]
    rw [hover, faddr, hc.text]
    exact ht.patched h (hmem.mp hh).1
  · intro h hh hsw
    obtain ⟨faddr, -, -, fsw, -, -⟩ := hfields hh
    rw [fsw] at hsw
    have hparent := (hmem.mp hh).1
    rw [faddr, hc.copies h hh,
      Breakpoint.clone_origValue _ _ hsw ((ht.placed h hparent).not_both hsw)]
    exact ht.saved h hparent hsw
  · intro a ha
    rw [hc.text]
    by_cases hex : ∃ h ∈ parent.breakpoints, (parent.bp h).addr = a
    · -- only a scratch breakpoint was left out, and it is not in the text
      obtain ⟨h, hh, rfl⟩ := hex
      have hscratch : (parent.bp h).type = .hwScratch := by
        by_contra hne
        exact ha h (hmem.mpr ⟨hh, hne⟩) (hfields (hmem.mpr ⟨hh, hne⟩)).1
      exact ht.text_of_not_sw hh ((ht.placed h hh).scratch_of_type hscratch).1
    · exact ht.elsewhere a fun h hh heq => hex ⟨h, hh, heq⟩
  · intro i h hlo _ hi
    obtain ⟨hh, hhw, hslot⟩ := (hc.slots i h hlo).mp hi
    obtain ⟨-, ftype, -, -, fhw, -⟩ := hfields hh
    obtain ⟨hge, -⟩ := (ht.placed h (hmem.mp hh).1).hard_of_hw hhw (hmem.mp hh).2
    refine ⟨hh, by rw [ftype]; exact hge, by rw [fhw]; exact hhw, ?_⟩
    rw [hc.copies h hh, Breakpoint.clone_hwBpSlot _ _ hhw]
    exact hslot
  · intro s hs
    rw [hc.threads] at hs
    cases hs
  · intro h
    rw [hc.list, List.mem_filter, hperm.mem_iff]
    constructor
    · rintro ⟨hh, hge⟩
      have hmem' := hmem.mpr ⟨hh, ne_scratch_of_geHw hge⟩
      exact ⟨hmem', by rw [(hfields hmem').2.1]; exact hge⟩
    · rintro ⟨hh, hge⟩
      rw [(hfields hh).2.1] at hge
      exact ⟨(hmem.mp hh).1, hge⟩
  · rw [hc.list]
    exact hnodup.filter _

end Copies

/-! ## Letting a child go -/

/-- Deleting a breakpoint that is disabled does not touch the text. -/
theorem breakpointDelete_of_disabled {t : Traced} {h : Handle} (hen : (t.bp h).enabled = false) :
    ∃ t', t.breakpointDelete h = .ok t' ∧ t'.text = t.text ∧
      ∀ g, (t'.bp g).enabled = (t.bp g).enabled := by
  unfold Traced.breakpointDelete
  by_cases hdel : (t.bp h).deleted = true
  · rw [if_pos hdel]
    exact ⟨t, rfl, rfl, fun _ => rfl⟩
  · have hdisable : t.breakpointDisable h = .ok t := by
      unfold Traced.breakpointDisable
      rw [hen, Bool.not_false, Bool.or_true, if_pos rfl]
    have hbp (f : Breakpoint → Breakpoint) (hf : (f (t.bp h)).enabled = (t.bp h).enabled)
        (g : Handle) : (Function.update t.bp h (f (t.bp h)) g).enabled = (t.bp g).enabled := by
      by_cases hg : g = h
      · rw [hg, Function.update_self, hf]
      · rw [Function.update_of_ne hg]
    rw [if_neg hdel, hdisable]
    by_cases hge : (t.bp h).type.geHw = true
    · refine ⟨_, rfl, ?_, ?_⟩
      · rw [if_pos hge]
        rfl
      · rw [if_pos hge]
        exact hbp (fun bp => { bp with deleted := true }) rfl
    · refine ⟨_, rfl, ?_, ?_⟩
      · rw [if_neg hge]
        rfl
      · rw [if_neg hge]
        exact hbp (fun bp => { bp with deleted := true }) rfl

theorem foldlM_breakpointDelete (order : List Handle) (t : Traced)
    (hen : ∀ h ∈ order, (t.bp h).enabled = false) :
    ∃ t', order.foldlM Traced.breakpointDelete t = .ok t' ∧ t'.text = t.text := by
  induction order generalizing t with
  | nil => exact ⟨t, rfl, rfl⟩
  | cons h order ih =>
    obtain ⟨t1, heq1, htext1, hen1⟩ := breakpointDelete_of_disabled (hen h List.mem_cons_self)
    obtain ⟨t2, heq2, htext2⟩ := ih t1 (fun g hg => by
      rw [hen1 g]
      exact hen g (List.mem_cons_of_mem h hg))
    refine ⟨t2, ?_, htext2.trans htext1⟩
    rw [List.foldlM_cons, heq1]
    exact heq2

section Child

variable {orig : UInt64 → UInt8} {visit : List Handle → List Handle}

/-- A process that is let go has its text back. -/
theorem removeProc_spec (hv : ∀ hs, (visit hs).Perm hs) {t : Traced} (ht : Transparent orig t) :
    ∃ t', removeProc visit t = .ok t' ∧ t'.text = orig := by
  obtain ⟨t1, heq1, ht1, hbps, -, hall⟩ := breakpointDisableAll_spec (visit t.breakpoints) ht
  have hoff : ∀ g ∈ t1.breakpoints, (t1.bp g).enabled = false := by
    intro g hg
    rw [hbps] at hg
    exact hall g hg (.inl ((hv _).mem_iff.mpr hg))
  obtain ⟨t2, heq2, htext⟩ := foldlM_breakpointDelete (visit t1.breakpoints)
    { t1 with hwBp := fun _ => none } (fun g hg => hoff g ((hv _).mem_iff.mp hg))
  have hback : t1.text = orig := text_eq_of_disabled ht1 hoff
  refine ⟨t2, ?_, htext.trans hback⟩
  unfold removeProc
  rw [heq1]
  exact heq2

/-- `task_fork` fails exactly when it follows a null pointer. -/
theorem taskFork_spec (hv : ∀ hs, (visit hs).Perm hs) (garbage : Handle → Breakpoint)
    (task : ForkingTask) {parent : Traced} (ht : Transparent orig parent) :
    ∃ child, Transparent orig child ∧ child.text = parent.text ∧
      ((∃ e, taskFork visit garbage task parent = .error e) ↔
        task.breakpoint ≠ none ∨ ∃ h, task.skipBp = some h ∧ (parent.bp h).deleted = false) ∧
      ∀ child', taskFork visit garbage task parent = .ok child' → child' = child := by
  have hperm := hv parent.breakpoints
  obtain ⟨child, heq, hc⟩ := foldlM_cloneSingle ht (visit parent.breakpoints) []
    (cloning_newChild garbage parent) (fun g hg => hperm.mem_iff.mp hg)
    (hperm.nodup_iff.mpr ht.nodup)
  have hrun : taskFork visit garbage task parent = do
      check task.breakpoint.isNone "newtask->breakpoint != NULL"
      check (task.skipBp.all fun h => (parent.bp h).deleted) "newtask->skip_bp != NULL"
      return child := by
    unfold taskFork breakpointCloneAll
    rw [heq]
    rfl
  have hbad : (task.breakpoint ≠ none ∨ ∃ h, task.skipBp = some h ∧ (parent.bp h).deleted = false) ↔
      ¬(task.breakpoint.isNone = true ∧
        (task.skipBp.all fun h => (parent.bp h).deleted) = true) := by
    rcases task.breakpoint with _ | b <;> rcases task.skipBp with _ | s <;> simp
  refine ⟨child, hc.transparent ht hperm, hc.text, ?_⟩
  rw [hrun, hbad]
  by_cases hgood : task.breakpoint.isNone = true ∧
      (task.skipBp.all fun h => (parent.bp h).deleted) = true
  · rw [hgood.1, hgood.2]
    refine ⟨⟨?_, fun h => absurd ⟨rfl, rfl⟩ h⟩, ?_⟩
    · rintro ⟨e, he⟩
      cases he
    · intro child' h
      cases h
      rfl
  · have herr : ∃ e, (do
        check task.breakpoint.isNone "newtask->breakpoint != NULL"
        check (task.skipBp.all fun h => (parent.bp h).deleted) "newtask->skip_bp != NULL"
        return child : Except String Traced) = .error e := by
      rcases hb : task.breakpoint.isNone with _ | _
      · exact ⟨_, rfl⟩
      · rcases hs : (task.skipBp.all fun h => (parent.bp h).deleted) with _ | _
        · exact ⟨_, rfl⟩
        · exact absurd ⟨hb, hs⟩ hgood
    refine ⟨⟨fun _ => hgood, fun _ => herr⟩, ?_⟩
    intro child' h
    obtain ⟨e, he⟩ := herr
    cases he.symm.trans h

end Child

/-! ## The parent -/

/-- Every breakpoint in the text is there. -/
def Traced.Instrumented (t : Traced) : Prop :=
  ∀ h, (t.bp h).sw = true → (t.bp h).enabled = true → t.text (t.bp h).addr = breakInsnValue

section Parent

variable {orig : UInt64 → UInt8} {parent : Traced}

/-- A breakpoint in the text belongs to the process and is enabled. -/
theorem soft_of_sw (ht : Transparent orig parent) {h : Handle} (hsw : (parent.bp h).sw = true) :
    h ∈ parent.breakpoints ∧ (parent.bp h).enabled = true := by
  have hh : h ∈ parent.breakpoints := by
    by_contra hnot
    rw [ht.dead h hnot] at hsw
    cases hsw
  exact ⟨hh, (ht.placed h hh).enabled_of_sw hsw⟩

theorem Transparent.instrumented (ht : Transparent orig parent) : parent.Instrumented := by
  intro h hsw _
  rw [ht.patched h (soft_of_sw ht hsw).1]
  exact Breakpoint.over_of_sw hsw _

/-- With the original text the parent keeps a breakpoint only where it makes no difference. -/
theorem instrumented_orig_iff (ht : Transparent orig parent) :
    { parent with text := orig }.Instrumented ↔
      ∀ h, (parent.bp h).sw = true → (parent.bp h).origValue = breakInsnValue := by
  constructor
  · intro hin h hsw
    obtain ⟨hh, hen⟩ := soft_of_sw ht hsw
    rw [ht.saved h hh hsw]
    exact hin h hsw hen
  · intro hall h hsw _
    have hh := (soft_of_sw ht hsw).1
    exact (ht.saved h hh hsw).symm.trans (hall h hsw)

end Parent

/-- A child that is let go takes the breakpoints out of the text it shares: after a `vfork` that is
not followed the parent keeps only those over a byte that is the break instruction anyway.  In every
other case the parent keeps them all, and a child with a text of its own has none left. -/
theorem doClone_instrumented_iff (qsort : (Handle → Handle → ℤ) → List Handle → List Handle)
    (hq : ∀ cmp hs, (qsort cmp hs).Perm hs) (visit : List Handle → List Handle)
    (hv : ∀ hs, (visit hs).Perm hs) (nohwbp : Bool) (orig : UInt64 → UInt8) (threads : ℕ)
    (parent : Traced)
    (hr : Machine.Reach (Traced.step qsort nohwbp) (fun _ _ => True)
      (Traced.start orig threads) parent)
    (garbage : Handle → Breakpoint) (follow : Bool) (kind : CloneKind) (task : ForkingTask) :
    ((∃ e, doClone visit garbage follow kind task parent = .error e) ↔
        task.breakpoint ≠ none ∨ ∃ h, task.skipBp = some h ∧ (parent.bp h).deleted = false) ∧
      ∀ parent' child, doClone visit garbage follow kind task parent = .ok (parent', child) →
        ((parent'.Instrumented ∧ (kind = .fork → follow = false → child.text = orig)) ↔
          (kind = .vfork → follow = false →
            ∀ h, (parent.bp h).sw = true → (parent.bp h).origValue = breakInsnValue)) := by
  have ht := transparent_of_reach hq hr
  obtain ⟨child, hchild, htext, herr, hok⟩ := taskFork_spec hv garbage task ht
  obtain ⟨gone, hgone, horig⟩ := removeProc_spec hv hchild
  rcases hfork : taskFork visit garbage task parent with e | child'
  · -- the server follows a null pointer
    have hfail : doClone visit garbage follow kind task parent = .error e := by
      unfold doClone
      rw [hfork]
      rfl
    rw [hfail]
    exact ⟨⟨fun _ => herr.mp ⟨e, hfork⟩, fun _ => ⟨e, rfl⟩⟩, fun _ _ h => (by cases h)⟩
  · obtain rfl := hok child' hfork
    have hfollow : doClone visit garbage true kind task parent =
        .ok (parent.beside kind child', child') := by
      unfold doClone
      rw [hfork]
      rfl
    have hleave : doClone visit garbage false kind task parent =
        .ok (parent.beside kind gone, gone) := by
      unfold doClone
      rw [hfork]
      show (removeProc visit child' >>= fun c => pure (parent.beside kind c, c)) = _
      rw [hgone]
      rfl
    have hnull : ¬(task.breakpoint ≠ none ∨
        ∃ h, task.skipBp = some h ∧ (parent.bp h).deleted = false) := by
      intro h
      obtain ⟨e, he⟩ := herr.mpr h
      rw [hfork] at he
      cases he
    cases follow with
    | true =>
      rw [hfollow]
      refine ⟨⟨?_, fun h => absurd h hnull⟩, ?_⟩
      · rintro ⟨e, he⟩
        cases he
      · intro parent' c hpair
        cases hpair
        have hsame : parent.beside kind child' = parent := by
          cases kind with
          | fork => rfl
          | vfork =>
            unfold Traced.beside
            dsimp only
            rw [htext]
        rw [hsame]
        exact ⟨fun _ _ h => (by cases h), fun _ => ⟨ht.instrumented, fun _ h => (by cases h)⟩⟩
    | false =>
      rw [hleave]
      refine ⟨⟨?_, fun h => absurd h hnull⟩, ?_⟩
      · rintro ⟨e, he⟩
        cases he
      · intro parent' c hpair
        cases hpair
        cases kind with
        | fork =>
          exact ⟨fun _ h => (by cases h), fun _ => ⟨ht.instrumented, fun _ _ => horig⟩⟩
        | vfork =>
          have hshared : parent.beside .vfork gone = { parent with text := orig } := by
            unfold Traced.beside
            dsimp only
            rw [horig]
          rw [hshared, instrumented_orig_iff ht]
          exact ⟨fun h _ _ => h.1, fun h => ⟨h rfl rfl, fun h' => (by cases h')⟩⟩

/-- A process with a breakpoint in its text calls `vfork`, and its children are not followed. -/
theorem doClone_vfork_loses : ¬ ∀ (visit : List Handle → List Handle)
    (_ : ∀ hs, (visit hs).Perm hs) (parent : Traced)
    (_ : Machine.Reach (Traced.step stableSort false) (fun _ _ => True)
      (Traced.start (fun _ => 0x55) 1) parent)
    (garbage : Handle → Breakpoint) (follow : Bool) (kind : CloneKind) (task : ForkingTask)
    (parent' child : Traced),
    doClone visit garbage follow kind task parent = .ok (parent', child) →
      parent'.Instrumented ∧ (kind = .fork → follow = false → child.text = fun _ => 0x55) := by
  intro hall
  have hin := (hall id (fun hs => .refl hs) twoBreakpoints reach_twoBreakpoints (fun _ => .none)
    false .vfork ⟨none, none⟩ _ _ rfl).1 1 rfl rfl
  revert hin
  decide +kernel

theorem doClone_instrumented_fork :
    ∃ parent' child, doClone id (fun _ => .none) false .fork ⟨none, none⟩ twoBreakpoints =
        .ok (parent', child) ∧
      parent'.Instrumented ∧ child.text = fun _ => 0x55 := by
  have h := (doClone_instrumented_iff stableSort (fun _ hs => hs.mergeSort_perm _) id
    (fun hs => .refl hs) false _ 1 _ reach_twoBreakpoints (fun _ => .none) false .fork
    ⟨none, none⟩).2 _ _ rfl
  obtain ⟨hin, hclean⟩ := h.mpr (fun hk => (by cases hk))
  exact ⟨_, _, rfl, hin, hclean rfl rfl⟩

end Mtrace.Server
