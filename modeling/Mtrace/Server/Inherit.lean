import Mtrace.Layout
import Mtrace.Server.Clone

/-!
# What a forked child inherits

`clone_single_cb` and `task_fork` on the whole of `struct breakpoint`, as it lies in memory on a
64 bit host: every assignment, the bytes that `malloc` left and are not written, and the last
`memcpy`, which is to copy the payload behind the structure.  Memory is never exhausted, and
`ptrace` succeeds.  A write behind the end of a block counts as an error, and so does following a
null pointer.  The links of a list are not in the blocks; the lists are lists of handles.

`cloneSingle_view`: on the members they have in common this is the model of `Clone`.
-/

namespace Mtrace.Server

open Layout

/-! ## `struct breakpoint` -/

namespace Bp

def hwcnt : Field := .bytes 0 4
def refcnt : Field := .bytes 4 4
def count : Field := .bytes 8 4
def ext : Field := .bytes 12 1
def type : Field := ⟨8 * 13, 2⟩
def enabled : Field := ⟨8 * 13 + 2, 1⟩
def locked : Field := ⟨8 * 13 + 3, 1⟩
def deleted : Field := ⟨8 * 13 + 4, 1⟩
def sw : Field := ⟨8 * 13 + 5, 1⟩
def hw : Field := ⟨8 * 13 + 6, 1⟩
def wasHw : Field := ⟨8 * 13 + 7, 1⟩
def breakInsn : Field := ⟨8 * 14, 1⟩
/-- `orig_value` and `hw_bp_slot` are in one union. -/
def origValue : Field := .bytes 16 1
def hwBpSlot : Field := .bytes 16 4
def onHit : Field := .bytes 24 8
def addr : Field := .bytes 32 8
def libsym : Field := .bytes 40 8

/-- `sizeof(struct breakpoint)`, with `link_list` at its end. -/
def size : ℕ := 64

/-- A byte of the payload. -/
def payload (i : ℕ) : Field := .bytes (size + i) 1

end Bp

/-- `BP_SW`, `BP_HW_SCRATCH`, `BP_HW` and `BP_AUTO` as numbers. -/
def BpType.ofCode : ℕ → BpType
  | 0 => .sw
  | 1 => .hwScratch
  | 2 => .hw
  | _ => .auto

/-- A breakpoint in memory: the structure and the payload behind it. -/
abbrev Block := Bits

namespace Block

def flag (b : Block) (f : Field) : Bool := b.read f != 0

def type (b : Block) : BpType := .ofCode (b.read Bp.type)

/-- The members that `clone_single_cb` copies from any breakpoint. -/
def copied : List Field :=
  [Bp.libsym, Bp.addr, Bp.onHit, Bp.enabled, Bp.locked, Bp.hw, Bp.sw, Bp.type, Bp.ext]

/-- The assignments of `clone_single_cb` before the union. -/
def cloneFields (bp garbage : Block) : Block :=
  let new := garbage.copies bp copied
  new.writes [(Bp.refcnt, 1), (Bp.deleted, 0), (Bp.count, 0), (Bp.hwcnt, 0)]

/-- The union: the slot, or the saved byte, or neither. -/
def cloneUnion (bp new : Block) : Block :=
  if bp.flag Bp.hw then new.copy bp Bp.hwBpSlot
  else if bp.flag Bp.sw then new.copy bp Bp.origValue
  else new

/-- `memcpy((void *)new_bp + ext, (void *)bp + ext, ext)`. -/
def cloneExt (bp new : Block) : Block := new.copy bp (.bytes (bp.read Bp.ext) (bp.read Bp.ext))

/-- The block `clone_single_cb` fills in. -/
def clone (bp garbage : Block) : Block := cloneExt bp (cloneUnion bp (cloneFields bp garbage))

end Block

/-- The breakpoints of a leader. -/
structure Leader where
  block : Handle → Block
  /-- The dictionary `breakpoints`. -/
  breakpoints : List Handle
  hwBpList : List Handle
  hwBpNum : ℕ
  hwBp : Slots

namespace Leader

/-- A leader without breakpoints. -/
def empty : Leader := ⟨fun _ _ => false, [], [], 0, fun _ => none⟩

/-- `breakpoint_find`. -/
def breakpointFind (l : Leader) (addr : ℕ) : Option Handle :=
  l.breakpoints.find? fun h => decide ((l.block h).read Bp.addr = addr)

/-- The breakpoint goes into the list, the slot and the dictionary. -/
def enter (l : Leader) (h : Handle) (new : Block) (bp : Block) : Leader where
  block := Function.update l.block h new
  breakpoints := l.breakpoints ++ [h]
  hwBpList := if bp.type.geHw then l.hwBpList ++ [h] else l.hwBpList
  hwBpNum := if bp.type.geHw then l.hwBpNum + 1 else l.hwBpNum
  hwBp := if bp.flag Bp.hw then Function.update l.hwBp (bp.read Bp.hwBpSlot) (some h) else l.hwBp

/-- `clone_single_cb`. -/
def cloneSingle (garbage : Handle → Block) (parent child : Leader) (h : Handle) :
    Except String Leader :=
  let bp := parent.block h
  if bp.flag Bp.deleted then .ok child
  else do
    check (bp.type != .hwScratch || bp.read Bp.hwBpSlot == hwBpScratchSlot)
      "bp->hw_bp_slot == HW_BP_SCRATCH_SLOT"
    if bp.type = .hwScratch ∧ bp.flag Bp.hw = true then return child
    check (!bp.flag Bp.hw || bp.read Bp.hwBpSlot != hwBpScratchSlot)
      "new_bp->hw_bp_slot != HW_BP_SCRATCH_SLOT"
    check (bp.read Bp.ext ≤ Bp.size) "2 * ext <= sizeof(*new_bp) + ext"
    check (child.breakpointFind (bp.read Bp.addr)).isNone
      "couldn't enter breakpoint to dictionary"
    return child.enter h (bp.clone (garbage h)) bp

/-- `breakpoint_clone_all`. -/
def breakpointCloneAll (visit : List Handle → List Handle) (garbage : Handle → Block)
    (parent child : Leader) : Except String Leader :=
  (visit parent.breakpoints).foldlM (cloneSingle garbage parent) child

/-- `breakpoint_find(newtask, p->addr)`. -/
def findAt (l : Leader) (p : Option Handle) (expr : String) : Except String (Option Handle) :=
  match p with
  | none => .error expr
  | some h => .ok (l.breakpointFind ((l.block h).read Bp.addr))

/-- `task_fork`: the breakpoints of the child, and the two of its task.  The new task is all zero
before. -/
def taskFork (visit : List Handle → List Handle) (garbage : Handle → Block) (task : ForkingTask)
    (parent : Leader) : Except String (Leader × ForkingTask) := do
  let child ← breakpointCloneAll visit garbage parent empty
  let newtask : ForkingTask := ⟨none, none⟩
  let breakpoint ← (match task.breakpoint with
    | some _ => child.findAt newtask.breakpoint "newtask->breakpoint != NULL"
    | none => .ok none)
  let skipBp ← (match task.skipBp with
    | some h =>
      if (parent.block h).flag Bp.deleted then .ok none
      else child.findAt newtask.skipBp "newtask->skip_bp != NULL"
    | none => .ok none)
  return (child, ⟨breakpoint, skipBp⟩)

end Leader

/-! ## Copies -/

/-- A breakpoint of the child is what a breakpoint of the parent is. -/
structure Faithful (bp new : Block) : Prop where
  addr : new.read Bp.addr = bp.read Bp.addr
  type : new.read Bp.type = bp.read Bp.type
  enabled : new.read Bp.enabled = bp.read Bp.enabled
  locked : new.read Bp.locked = bp.read Bp.locked
  sw : new.read Bp.sw = bp.read Bp.sw
  hw : new.read Bp.hw = bp.read Bp.hw
  wasHw : new.read Bp.wasHw = bp.read Bp.wasHw
  breakInsn : new.read Bp.breakInsn = bp.read Bp.breakInsn
  onHit : new.read Bp.onHit = bp.read Bp.onHit
  libsym : new.read Bp.libsym = bp.read Bp.libsym
  slot : bp.flag Bp.hw = true → new.read Bp.hwBpSlot = bp.read Bp.hwBpSlot
  origValue : bp.flag Bp.hw = false → new.read Bp.origValue = bp.read Bp.origValue
  payload : ∀ i < bp.read Bp.ext, new.read (Bp.payload i) = bp.read (Bp.payload i)

/-- A byte is one of those that the `memcpy` for the payload copies. -/
def Block.Overlaid (bp : Block) (off : ℕ) : Prop :=
  bp.read Bp.ext ≤ off ∧ off < 2 * bp.read Bp.ext

instance (bp : Block) (off : ℕ) : Decidable (bp.Overlaid off) := inferInstanceAs (Decidable (_ ∧ _))

/-- What is not written has by chance the right value. -/
structure Spared (bp garbage : Block) : Prop where
  wasHw : bp.Overlaid 13 ∨ garbage.read Bp.wasHw = bp.read Bp.wasHw
  breakInsn : bp.Overlaid 14 ∨ garbage.read Bp.breakInsn = bp.read Bp.breakInsn
  origValue : bp.flag Bp.hw = false → bp.flag Bp.sw = false →
    bp.Overlaid 16 ∨ garbage.read Bp.origValue = bp.read Bp.origValue
  payload : ∀ i < bp.read Bp.ext,
    bp.Overlaid (Bp.size + i) ∨ garbage.read (Bp.payload i) = bp.read (Bp.payload i)

namespace Block

variable {bp garbage new : Block} {f : Field} {off : ℕ}

theorem has_bytes {o n i : ℕ} : (Field.bytes o n).Has i ↔ 8 * o ≤ i ∧ i < 8 * o + 8 * n := Iff.rfl

/-- A member in one byte is read from the parent if the `memcpy` covers it, and else as before. -/
theorem read_cloneExt (hlo : 8 * off ≤ f.lo) (hhi : f.lo + f.width ≤ 8 * off + 8) :
    (cloneExt bp new).read f = if bp.Overlaid off then bp.read f else new.read f := by
  unfold cloneExt
  split
  case isTrue hov =>
    obtain ⟨hle, hlt⟩ := hov
    refine Bits.read_eq_iff.mpr fun i ⟨ilo, ihi⟩ => Bits.copy_of_has ?_
    rw [has_bytes]
    omega
  case isFalse hnot =>
    unfold Overlaid at hnot
    refine Bits.read_eq_iff.mpr fun i ⟨ilo, ihi⟩ => Bits.copy_of_not_has ?_
    rw [has_bytes]
    omega

theorem read_cloneFields (hf : f ∈ copied) : (cloneFields bp garbage).read f = bp.read f := by
  have hd : ∀ f ∈ copied, ∀ g ∈ [(Bp.refcnt, 1), (Bp.deleted, 0), (Bp.count, 0), (Bp.hwcnt, 0)],
      f.Disjoint g.1 := by decide
  unfold cloneFields
  rw [Bits.read_writes_of_disjoint (hd f hf)]
  exact Bits.read_eq_iff.mpr (Bits.agree_copies hf)

/-- A member that is neither copied nor set. -/
theorem read_cloneFields_of_disjoint (hf : ∀ g ∈ copied, f.Disjoint g)
    (hw : ∀ g ∈ [Bp.refcnt, Bp.deleted, Bp.count, Bp.hwcnt], f.Disjoint g) :
    (cloneFields bp garbage).read f = garbage.read f := by
  unfold cloneFields
  rw [Bits.read_writes_of_disjoint, Bits.read_copies_of_disjoint hf]
  intro g hg
  exact hw g.1 (List.mem_map_of_mem (f := Prod.fst) hg)

theorem read_cloneUnion_of_disjoint (hf : f.Disjoint Bp.hwBpSlot) :
    (cloneUnion bp new).read f = new.read f := by
  have hsub : f.Disjoint Bp.origValue := by
    simp only [Field.Disjoint, Bp.origValue, Bp.hwBpSlot, Field.bytes] at hf ⊢
    omega
  unfold cloneUnion
  split
  · exact Bits.read_copy_of_disjoint hf
  · split
    · exact Bits.read_copy_of_disjoint hsub
    · rfl

theorem read_clone (hf : f ∈ copied) : (clone bp garbage).read f = bp.read f := by
  have hd : ∀ f ∈ copied, f.Disjoint Bp.hwBpSlot := by decide
  refine Bits.read_eq_iff.mpr (Bits.Agree.copy (Bits.read_eq_iff.mp ?_))
  rw [read_cloneUnion_of_disjoint (hd f hf), read_cloneFields hf]

/-- A member in a byte that is not written before the `memcpy`. -/
theorem read_clone_of_disjoint (hf : ∀ g ∈ copied, f.Disjoint g)
    (hw : ∀ g ∈ [Bp.refcnt, Bp.deleted, Bp.count, Bp.hwcnt, Bp.hwBpSlot], f.Disjoint g)
    (hlo : 8 * off ≤ f.lo) (hhi : f.lo + f.width ≤ 8 * off + 8) :
    (clone bp garbage).read f = if bp.Overlaid off then bp.read f else garbage.read f := by
  have hunion : f.Disjoint Bp.hwBpSlot := hw _ (by simp)
  unfold clone
  rw [read_cloneExt hlo hhi, read_cloneUnion_of_disjoint hunion, read_cloneFields_of_disjoint hf]
  intro g hg
  refine hw g ?_
  simp only [List.mem_cons, List.not_mem_nil, or_false] at hg ⊢
  rcases hg with rfl | rfl | rfl | rfl <;> simp

/-- The union: the slot of a breakpoint in hardware and the byte of one in the text are copied. -/
theorem read_clone_slot (hhw : bp.flag Bp.hw = true) :
    (clone bp garbage).read Bp.hwBpSlot = bp.read Bp.hwBpSlot := by
  refine Bits.read_eq_iff.mpr (Bits.Agree.copy ?_)
  unfold cloneUnion
  rw [if_pos hhw]
  exact Bits.agree_copy_self

theorem read_clone_origValue (hhw : bp.flag Bp.hw = false) :
    (clone bp garbage).read Bp.origValue =
      if bp.flag Bp.sw = true ∨ bp.Overlaid 16 then bp.read Bp.origValue
      else garbage.read Bp.origValue := by
  have hfields : (cloneFields bp garbage).read Bp.origValue = garbage.read Bp.origValue :=
    read_cloneFields_of_disjoint (by decide) (by decide)
  by_cases hsw : bp.flag Bp.sw = true
  · rw [if_pos (.inl hsw)]
    refine Bits.read_eq_iff.mpr (Bits.Agree.copy ?_)
    unfold cloneUnion
    rw [if_neg (by rw [hhw]; decide), if_pos hsw]
    exact Bits.agree_copy_self
  · have hunion : cloneUnion bp (cloneFields bp garbage) = cloneFields bp garbage := by
      unfold cloneUnion
      rw [if_neg (by rw [hhw]; decide), if_neg hsw]
    unfold clone
    rw [hunion, @read_cloneExt _ _ Bp.origValue 16 (by decide) (by decide), hfields]
    congr 1
    rw [eq_iff_iff]
    exact (or_iff_right hsw).symm

/-- The copy of a breakpoint is a faithful one exactly when what is not written is right by
chance. -/
theorem faithful_clone_iff : Faithful bp (clone bp garbage) ↔ Spared bp garbage := by
  have hwas : (clone bp garbage).read Bp.wasHw =
      if bp.Overlaid 13 then bp.read Bp.wasHw else garbage.read Bp.wasHw :=
    read_clone_of_disjoint (by decide) (by decide) (by decide) (by decide)
  have hinsn : (clone bp garbage).read Bp.breakInsn =
      if bp.Overlaid 14 then bp.read Bp.breakInsn else garbage.read Bp.breakInsn :=
    read_clone_of_disjoint (by decide) (by decide) (by decide) (by decide)
  have hpay (i : ℕ) : (clone bp garbage).read (Bp.payload i) =
      if bp.Overlaid (Bp.size + i) then bp.read (Bp.payload i)
      else garbage.read (Bp.payload i) := by
    refine read_clone_of_disjoint ?_ ?_ le_rfl le_rfl
    all_goals
      intro g hg
      refine .inr (le_trans (b := 8 * 64) ?_ (Nat.mul_le_mul_left 8 (Nat.le_add_right 64 i)))
      revert g
      decide
  -- a member that is written or not has the right value if it is, or by chance
  have hchance {P : Prop} [Decidable P] {a b : ℕ} : (if P then a else b) = a ↔ P ∨ b = a := by
    by_cases hp : P <;> simp [hp]
  constructor
  · intro h
    refine ⟨?_, ?_, ?_, ?_⟩
    · exact hchance.mp (hwas ▸ h.wasHw)
    · exact hchance.mp (hinsn ▸ h.breakInsn)
    · intro hhw hsw
      have horig := h.origValue hhw
      rw [read_clone_origValue hhw, hchance, hsw] at horig
      exact horig.imp_left fun h' => h'.resolve_left (by decide)
    · intro i hi
      exact hchance.mp (hpay i ▸ h.payload i hi)
  · intro h
    refine ⟨read_clone (by decide), read_clone (by decide), read_clone (by decide),
      read_clone (by decide), read_clone (by decide), read_clone (by decide), ?_, ?_,
      read_clone (by decide), read_clone (by decide), read_clone_slot, ?_, ?_⟩
    · rw [hwas]
      exact hchance.mpr h.wasHw
    · rw [hinsn]
      exact hchance.mpr h.breakInsn
    · intro hhw
      rw [read_clone_origValue hhw, hchance]
      cases hsw : bp.flag Bp.sw with
      | true => exact .inl (.inl rfl)
      | false => exact (h.origValue hhw hsw).imp_left .inr
    · intro i hi
      rw [hpay i]
      exact hchance.mpr (h.payload i hi)

end Block

/-! ## All breakpoints -/

namespace Leader

variable {garbage : Handle → Block} {parent child child' : Leader} {h g : Handle}

/-- The breakpoints that `clone_single_cb` copies. -/
def Copied (l : Leader) (h : Handle) : Prop :=
  (l.block h).flag Bp.deleted = false ∧
    ¬((l.block h).type = .hwScratch ∧ (l.block h).flag Bp.hw = true)

/-- A breakpoint that is neither deleted nor the scratch breakpoint of a task. -/
def Lasting (l : Leader) (h : Handle) : Prop :=
  (l.block h).flag Bp.deleted = false ∧ (l.block h).type ≠ .hwScratch

theorem Lasting.copied (hl : parent.Lasting h) : parent.Copied h := ⟨hl.1, fun hs => hl.2 hs.1⟩

theorem check_eq_ok {holds : Bool} {expr : String} {u : Unit} (h : check holds expr = .ok u) :
    holds = true := by
  unfold check at h
  split at h
  · assumption
  · cases h

theorem cloneSingle_ok (hrun : cloneSingle garbage parent child h = .ok child') :
    ¬parent.Copied h ∧ child' = child ∨
      parent.Copied h ∧ child.breakpointFind ((parent.block h).read Bp.addr) = none ∧
        (parent.block h).read Bp.ext ≤ Bp.size ∧
        child' = child.enter h ((parent.block h).clone (garbage h)) (parent.block h) := by
  unfold cloneSingle at hrun
  dsimp only at hrun
  by_cases hdel : (parent.block h).flag Bp.deleted = true
  · rw [if_pos hdel] at hrun
    cases hrun
    refine .inl ⟨fun hc => ?_, rfl⟩
    rw [hc.1] at hdel
    cases hdel
  rw [if_neg hdel] at hrun
  obtain ⟨_, -, hrun⟩ := Machine.bind_eq_ok.mp hrun
  by_cases hscratch : (parent.block h).type = .hwScratch ∧ (parent.block h).flag Bp.hw = true
  · rw [if_pos hscratch] at hrun
    cases hrun
    exact .inl ⟨fun hc => hc.2 hscratch, rfl⟩
  rw [if_neg hscratch] at hrun
  obtain ⟨_, -, hrun⟩ := Machine.bind_eq_ok.mp hrun
  obtain ⟨_, hext, hrun⟩ := Machine.bind_eq_ok.mp hrun
  obtain ⟨_, hfind, hrun⟩ := Machine.bind_eq_ok.mp hrun
  cases hrun
  exact .inr ⟨⟨Bool.not_eq_true _ ▸ hdel, hscratch⟩,
    Option.isNone_iff_eq_none.mp (check_eq_ok hfind),
    of_decide_eq_true (check_eq_ok hext), rfl⟩

/-- The child when the breakpoints in `done` have been visited. -/
structure Inherited (garbage : Handle → Block) (parent : Leader) (done : List Handle)
    (child : Leader) : Prop where
  mem : ∀ h, h ∈ child.breakpoints ↔ h ∈ done ∧ parent.Copied h
  block : ∀ h ∈ child.breakpoints, child.block h = (parent.block h).clone (garbage h)
  distinct : ∀ h ∈ child.breakpoints, ∀ g ∈ child.breakpoints,
    (parent.block h).read Bp.addr = (parent.block g).read Bp.addr → h = g

theorem Inherited.addr {done : List Handle} (hi : Inherited garbage parent done child)
    (hh : h ∈ child.breakpoints) :
    (child.block h).read Bp.addr = (parent.block h).read Bp.addr := by
  rw [hi.block h hh]
  exact Block.read_clone (by decide)

theorem breakpointFind_eq_none {l : Leader} {addr : ℕ} (hf : l.breakpointFind addr = none) :
    ∀ g ∈ l.breakpoints, (l.block g).read Bp.addr ≠ addr := by
  intro g hg heq
  exact List.find?_eq_none.mp hf g hg (decide_eq_true heq)

theorem Inherited.step {done : List Handle} (hi : Inherited garbage parent done child)
    (hrun : cloneSingle garbage parent child h = .ok child') :
    Inherited garbage parent (done ++ [h]) child' := by
  rcases cloneSingle_ok hrun with ⟨hnot, rfl⟩ | ⟨hc, hfind, -, rfl⟩
  · refine ⟨fun g => ?_, hi.block, hi.distinct⟩
    rw [hi.mem, List.mem_append, List.mem_singleton]
    refine ⟨fun hg => ⟨.inl hg.1, hg.2⟩, fun hg => ⟨hg.1.resolve_right ?_, hg.2⟩⟩
    rintro rfl
    exact hnot hg.2
  · have hmem : ∀ g, g ∈ (child.enter h ((parent.block h).clone (garbage h))
        (parent.block h)).breakpoints ↔ g ∈ child.breakpoints ∨ g = h := by
      intro g
      show g ∈ child.breakpoints ++ [h] ↔ _
      rw [List.mem_append, List.mem_singleton]
    -- the dictionary has nothing at the address yet
    have hfresh : ∀ g ∈ child.breakpoints,
        (parent.block g).read Bp.addr ≠ (parent.block h).read Bp.addr := by
      intro g hg
      rw [← hi.addr hg]
      exact breakpointFind_eq_none hfind g hg
    have hne : ∀ g ∈ child.breakpoints, g ≠ h := fun g hg heq => hfresh g hg (heq ▸ rfl)
    refine ⟨fun g => ?_, fun g hg => ?_, fun g hg g' hg' heq => ?_⟩
    · rw [hmem, hi.mem, List.mem_append, List.mem_singleton]
      constructor
      · rintro (hg | rfl)
        · exact ⟨.inl hg.1, hg.2⟩
        · exact ⟨.inr rfl, hc⟩
      · rintro ⟨hg | rfl, hcg⟩
        · exact .inl ⟨hg, hcg⟩
        · exact .inr rfl
    · show Function.update child.block h _ g = _
      rcases (hmem g).mp hg with hg | rfl
      · rw [Function.update_of_ne (hne g hg), hi.block g hg]
      · rw [Function.update_self]
    · rcases (hmem g).mp hg with hg1 | hgh <;> rcases (hmem g').mp hg' with hg1' | hgh'
      · exact hi.distinct g hg1 g' hg1' heq
      · exact absurd (hgh' ▸ heq) (hfresh g hg1)
      · exact absurd (hgh ▸ heq).symm (hfresh g' hg1')
      · exact hgh.trans hgh'.symm

theorem Inherited.run {todo done : List Handle} (hi : Inherited garbage parent done child)
    (hrun : todo.foldlM (cloneSingle garbage parent) child = .ok child') :
    Inherited garbage parent (done ++ todo) child' := by
  induction todo generalizing done child with
  | nil =>
    cases hrun
    rw [List.append_nil]
    exact hi
  | cons h todo ih =>
    rw [List.foldlM_cons] at hrun
    obtain ⟨child1, h1, h2⟩ := Machine.bind_eq_ok.mp hrun
    have hnext := ih (hi.step h1) h2
    rwa [List.append_assoc] at hnext

theorem inherited_empty (garbage : Handle → Block) (parent : Leader) :
    Inherited garbage parent [] empty where
  mem := fun _ => ⟨fun h => (by cases h), fun h => (by cases h.1)⟩
  block := fun _ h => (by cases h)
  distinct := fun _ h => (by cases h)

/-- What `task_fork` did when it succeeds: it had no breakpoint to follow. -/
theorem taskFork_ok {visit : List Handle → List Handle} {task task' : ForkingTask}
    (hrun : taskFork visit garbage task parent = .ok (child, task')) :
    Inherited garbage parent (visit parent.breakpoints) child ∧ task' = ⟨none, none⟩ ∧
      task.breakpoint = none ∧
      ∀ h, task.skipBp = some h → (parent.block h).flag Bp.deleted = true := by
  obtain ⟨child1, hclone, hrun⟩ := Machine.bind_eq_ok.mp hrun
  have hi := (inherited_empty garbage parent).run hclone
  rw [List.nil_append] at hi
  dsimp only at hrun
  obtain ⟨breakpoint, hbp, hrun⟩ := Machine.bind_eq_ok.mp hrun
  obtain ⟨skipBp, hskip, hrun⟩ := Machine.bind_eq_ok.mp hrun
  cases hrun
  cases hb : task.breakpoint with
  | some b =>
    rw [hb] at hbp
    cases hbp
  | none =>
    rw [hb] at hbp
    cases hbp
    cases hs : task.skipBp with
    | none =>
      rw [hs] at hskip
      cases hskip
      exact ⟨hi, rfl, rfl, fun h hh => (by cases hh)⟩
    | some s =>
      rw [hs] at hskip
      dsimp only at hskip
      by_cases hdel : (parent.block s).flag Bp.deleted = true
      · rw [if_pos hdel] at hskip
        cases hskip
        exact ⟨hi, rfl, rfl, fun h hh => Option.some.inj hh ▸ hdel⟩
      · rw [if_neg hdel] at hskip
        cases hskip

/-- The child has the breakpoints of its parent, and its task points to its own ones. -/
structure Inherits (parent : Leader) (task : ForkingTask) (child : Leader) (task' : ForkingTask) :
    Prop where
  breakpoints : ∀ h ∈ parent.breakpoints, parent.Lasting h →
    ∃ g ∈ child.breakpoints, Faithful (parent.block h) (child.block g)
  breakpoint : task'.breakpoint =
    task.breakpoint.bind fun h => child.breakpointFind ((parent.block h).read Bp.addr)
  skipBp : task'.skipBp =
    task.skipBp.bind fun h => child.breakpointFind ((parent.block h).read Bp.addr)

theorem Inherited.find_eq_none_iff {done : List Handle} (hi : Inherited garbage parent done child)
    (addr : ℕ) : child.breakpointFind addr = none ↔
      ∀ g ∈ done, parent.Copied g → (parent.block g).read Bp.addr ≠ addr := by
  unfold breakpointFind
  rw [List.find?_eq_none]
  constructor
  · intro h g hg hc heq
    have hmem := (hi.mem g).mpr ⟨hg, hc⟩
    exact h g hmem (decide_eq_true ((hi.addr hmem).trans heq))
  · intro h g hg heq
    obtain ⟨hd, hc⟩ := (hi.mem g).mp hg
    exact h g hd hc ((hi.addr hg).symm.trans (of_decide_eq_true heq))

/-- A fork that succeeds passes the breakpoints on as they are exactly when everything that is not
copied has the right value by chance, and no other breakpoint is where the one was that the task was
about to skip. -/
theorem taskFork_inherits_iff (visit : List Handle → List Handle) (hv : ∀ hs, (visit hs).Perm hs)
    (garbage : Handle → Block) (task : ForkingTask) (parent child : Leader) (task' : ForkingTask)
    (hrun : taskFork visit garbage task parent = .ok (child, task')) :
    Inherits parent task child task' ↔
      (∀ h ∈ parent.breakpoints, parent.Lasting h → Spared (parent.block h) (garbage h)) ∧
        ∀ s, task.skipBp = some s → ∀ g ∈ parent.breakpoints, parent.Copied g →
          (parent.block g).read Bp.addr ≠ (parent.block s).read Bp.addr := by
  obtain ⟨hi, rfl, hbreakpoint, -⟩ := taskFork_ok hrun
  have hvisit : ∀ h, h ∈ visit parent.breakpoints ↔ h ∈ parent.breakpoints :=
    fun h => (hv parent.breakpoints).mem_iff
  have hskip : (none = task.skipBp.bind fun h =>
        child.breakpointFind ((parent.block h).read Bp.addr)) ↔
      ∀ s, task.skipBp = some s → ∀ g ∈ parent.breakpoints, parent.Copied g →
        (parent.block g).read Bp.addr ≠ (parent.block s).read Bp.addr := by
    cases task.skipBp with
    | none => exact ⟨fun _ s hs => (by cases hs), fun _ => rfl⟩
    | some s =>
      rw [Option.bind_some, eq_comm, hi.find_eq_none_iff]
      simp only [hvisit]
      exact ⟨fun h s' hs => Option.some.inj hs ▸ h, fun h => h s rfl⟩
  constructor
  · intro hin
    refine ⟨fun h hh hl => ?_, hskip.mp hin.skipBp⟩
    obtain ⟨g, hg, hf⟩ := hin.breakpoints h hh hl
    -- the breakpoint at the address is the copy
    have hmem := (hi.mem h).mpr ⟨(hvisit h).mpr hh, hl.copied⟩
    have hgh : h = g := hi.distinct h hmem g hg (by rw [← hi.addr hg, hf.addr])
    subst hgh
    rw [hi.block h hg] at hf
    exact Block.faithful_clone_iff.mp hf
  · rintro ⟨hspared, hs⟩
    refine ⟨fun h hh hl => ?_, ?_, hskip.mpr hs⟩
    · have hmem := (hi.mem h).mpr ⟨(hvisit h).mpr hh, hl.copied⟩
      refine ⟨h, hmem, ?_⟩
      rw [hi.block h hmem]
      exact Block.faithful_clone_iff.mpr (hspared h hh hl)
    · rw [hbreakpoint]
      rfl

/-- A process with a breakpoint in the first slot. -/
def oneInSlot : Leader where
  block := fun _ => Bits.writes (fun _ => false) [(Bp.refcnt, 1), (Bp.type, 3), (Bp.enabled, 1),
    (Bp.hw, 1), (Bp.wasHw, 1), (Bp.hwBpSlot, 1), (Bp.addr, 0x401000), (Bp.libsym, 0x5000)]
  breakpoints := [0]
  hwBpList := [0]
  hwBpNum := 1
  hwBp := Function.update (fun _ => none) 1 (some 0)

/-- Where `malloc` gives a block of zeros, the child does not know that the breakpoint is in a
slot. -/
theorem taskFork_forgets : ¬ ∀ (visit : List Handle → List Handle) (_ : ∀ hs, (visit hs).Perm hs)
    (garbage : Handle → Block) (task : ForkingTask) (parent child : Leader) (task' : ForkingTask),
    taskFork visit garbage task parent = .ok (child, task') →
      Inherits parent task child task' := by
  intro hall
  obtain ⟨g, hg, hf⟩ := (hall id (fun hs => .refl hs) (fun _ _ => false) ⟨none, none⟩ oneInSlot _ _
    rfl).breakpoints 0 (by decide) ⟨by decide +kernel, by decide +kernel⟩
  obtain rfl : g = 0 := List.mem_singleton.mp hg
  exact absurd hf.wasHw (by decide +kernel)

theorem taskFork_inherits_same :
    ∃ child task', taskFork id oneInSlot.block ⟨none, none⟩ oneInSlot = .ok (child, task') ∧
      Inherits oneInSlot ⟨none, none⟩ child task' := by
  refine ⟨_, _, rfl, (taskFork_inherits_iff id (fun hs => .refl hs) oneInSlot.block ⟨none, none⟩
    oneInSlot _ _ rfl).mpr ⟨?_, fun s hs => (by cases hs)⟩⟩
  intro h _ _
  have hext : (oneInSlot.block h).read Bp.ext = 0 := by
    show (oneInSlot.block 0).read Bp.ext = 0
    decide +kernel
  refine ⟨.inr rfl, .inr rfl, fun _ _ => .inr rfl, fun i hi => ?_⟩
  rw [hext] at hi
  exact absurd hi (Nat.not_lt_zero i)

end Leader

/-! ## The model without the payload -/

section View

variable {garbage : Handle → Block} {parent child child' : Leader} {bp new : Block} {f : Field}
  {h : Handle}

/-- The members that `Breakpoint` has. -/
def Block.view (b : Block) : Breakpoint where
  addr := .ofNat (b.read Bp.addr)
  type := b.type
  hwcnt := .ofNat (b.read Bp.hwcnt)
  enabled := b.flag Bp.enabled
  deleted := b.flag Bp.deleted
  sw := b.flag Bp.sw
  hw := b.flag Bp.hw
  wasHw := b.flag Bp.wasHw
  breakInsn := b.flag Bp.breakInsn
  shared := .ofNat (b.read Bp.hwBpSlot)

/-- A leader without other tasks, as it is traced. -/
def Leader.view (l : Leader) (text : UInt64 → UInt8) (next : Handle) : Traced where
  text := text
  bp := fun h => (l.block h).view
  next := next
  breakpoints := l.breakpoints
  hwBpList := l.hwBpList
  hwBpNum := l.hwBpNum
  hwBp := l.hwBp
  threads := []

theorem Block.view_hwBpSlot (b : Block) : b.view.hwBpSlot = b.read Bp.hwBpSlot := by
  show (UInt32.ofNat _).toNat = _
  rw [UInt32.toNat_ofNat']
  exact Nat.mod_eq_of_lt (Bits.read_lt b Bp.hwBpSlot)

theorem Block.view_origValue (b : Block) : b.view.origValue = .ofNat (b.read Bp.origValue) := by
  have hlow : b.read Bp.hwBpSlot % 2 ^ 8 = b.read Bp.origValue := by
    refine Nat.eq_of_testBit_eq fun i => ?_
    rw [Nat.testBit_mod_two_pow]
    by_cases hi : i < 8
    · rw [Bits.testBit_read b Bp.hwBpSlot (hi.trans (by decide)),
        Bits.testBit_read b Bp.origValue hi, decide_eq_true hi]
      rfl
    · rw [decide_eq_false hi, Nat.testBit_lt_two_pow ((Bits.read_lt b Bp.origValue).trans_le
        (Nat.pow_le_pow_right Nat.two_pos (not_lt.mp hi)))]
      rfl
  unfold Breakpoint.origValue
  rw [← UInt8.toNat_inj, UInt32.toNat_toUInt8]
  show b.view.hwBpSlot % 2 ^ 8 = _
  rw [Block.view_hwBpSlot, hlow, UInt8.toNat_ofNat']
  exact (Nat.mod_eq_of_lt (Bits.read_lt b Bp.origValue)).symm

/-- Writing the saved byte that is there changes nothing. -/
theorem Breakpoint.setOrigValue_self (b : Breakpoint) : b.setOrigValue b.origValue = b := by
  have hor : b.shared &&& 0xffffff00 ||| b.shared.toUInt8.toUInt32 = b.shared := by
    have hmask : (0xffffff00 : UInt32).toNat = (2 ^ 24 - 1) <<< 8 := by decide
    rw [UInt32.toUInt32_toUInt8, ← UInt32.toNat_inj, UInt32.toNat_or, UInt32.toNat_and, hmask,
      UInt32.toNat_mod]
    refine Nat.eq_of_testBit_eq fun i => ?_
    show (b.shared.toNat &&& _ ||| b.shared.toNat % 2 ^ 8).testBit i = _
    rw [Nat.testBit_or, Nat.testBit_and, Nat.testBit_mod_two_pow, Nat.testBit_shiftLeft,
      Nat.testBit_two_pow_sub_one]
    cases hi : b.shared.toNat.testBit i with
    | false => simp
    | true =>
      have hlt : i < 32 := by
        by_contra hge
        have hsmall := b.shared.toNat_lt.trans_le
          (Nat.pow_le_pow_right Nat.two_pos (not_lt.mp hge))
        rw [Nat.testBit_lt_two_pow hsmall] at hi
        cases hi
      by_cases h8 : i < 8
      · simp [h8]
      · have h24 : i - 8 < 24 := by omega
        simp [not_lt.mp h8, h24]
  unfold setOrigValue origValue
  rw [hor]

/-- A member before the payload that the `memcpy` does not reach. -/
theorem Block.read_cloneExt_of_disjoint (hf : f.lo + f.width ≤ 8 * bp.read Bp.ext ∨
    bp.read Bp.ext = 0) : (cloneExt bp new).read f = new.read f := by
  refine Bits.read_copy_of_disjoint ?_
  simp only [Field.Disjoint, Field.bytes]
  omega

theorem Block.view_clone (hdel : bp.flag Bp.deleted = false)
    (hext : bp.read Bp.ext = 0 ∨ 4 ≤ bp.read Bp.ext) (garbage : Block) :
    (clone bp garbage).view = bp.view.clone (clone bp garbage).view := by
  have hflag : ∀ f ∈ copied, (clone bp garbage).flag f = bp.flag f := by
    intro f hf
    unfold flag
    rw [read_clone hf]
  have hhwcnt : (clone bp garbage).view.hwcnt = 0 := by
    have hread : (clone bp garbage).read Bp.hwcnt = 0 := by
      unfold clone
      rw [read_cloneExt_of_disjoint (by simp only [Bp.hwcnt, Field.bytes]; omega),
        read_cloneUnion_of_disjoint (by decide)]
      exact Bits.read_write_self (by decide)
    show UInt32.ofNat _ = 0
    rw [hread]
    rfl
  have hdeleted : (clone bp garbage).view.deleted = false := by
    have hread : (clone bp garbage).read Bp.deleted = 0 := by
      have hparent : bp.read Bp.deleted = 0 := by
        unfold flag at hdel
        simpa using hdel
      unfold clone
      rw [@read_cloneExt _ _ _ 13 (by decide) (by decide),
        read_cloneUnion_of_disjoint (by decide)]
      split
      · exact hparent
      · show (Bits.write _ _ _).read _ = 0
        rw [Bits.read_write_of_disjoint (by decide), Bits.read_write_of_disjoint (by decide)]
        exact Bits.read_write_self (by decide)
    show ((clone bp garbage).read Bp.deleted != 0) = false
    rw [hread]
    rfl
  have haddr : (clone bp garbage).view.addr = bp.view.addr :=
    congrArg UInt64.ofNat (read_clone (by decide))
  have htype : (clone bp garbage).view.type = bp.view.type :=
    congrArg BpType.ofCode (read_clone (by decide))
  have henabled : (clone bp garbage).view.enabled = bp.view.enabled := hflag _ (by decide)
  have hsw : (clone bp garbage).view.sw = bp.view.sw := hflag _ (by decide)
  have hhw : (clone bp garbage).view.hw = bp.view.hw := hflag _ (by decide)
  have hshared : bp.view.hw = true → (clone bp garbage).view.shared = bp.view.shared :=
    fun h => congrArg UInt32.ofNat (read_clone_slot h)
  have horig : bp.view.hw = false → bp.view.sw = true →
      (clone bp garbage).view.origValue = bp.view.origValue := by
    intro hno hyes
    rw [view_origValue, view_origValue, read_clone_origValue hno, if_pos (.inl hyes)]
  have hdel' : bp.view.deleted = false := hdel
  generalize (clone bp garbage).view = c at *
  generalize bp.view = b at *
  have hself : ({ b with
      hwcnt := 0
      deleted := false
      wasHw := c.wasHw
      breakInsn := c.breakInsn
      shared := c.shared } : Breakpoint) = c := by
    rw [← haddr, ← htype, ← hhwcnt, ← henabled, ← hdeleted, ← hsw, ← hhw]
  unfold Breakpoint.clone
  dsimp only
  rw [hself]
  cases hb : b.hw with
  | true =>
    rw [if_pos rfl, ← hshared hb]
    rw [hb] at hself
    exact hself.symm
  | false =>
    rw [if_neg (by decide)]
    cases hs : b.sw with
    | true =>
      rw [if_pos rfl, ← horig hb hs, Breakpoint.setOrigValue_self]
    | false => exact (if_neg (by decide)).symm

/-- On the members that `Breakpoint` has, `clone_single_cb` is as it is without the payload; the
blocks of the child are the garbage of the model there. -/
theorem cloneSingle_view (text : UInt64 → UInt8) (next : Handle)
    (hrun : parent.cloneSingle garbage child h = .ok child')
    (hext : (parent.block h).read Bp.ext = 0 ∨ 4 ≤ (parent.block h).read Bp.ext) :
    cloneSingle (fun h => (child'.block h).view) (parent.view text next) (child.view text next) h =
      .ok (child'.view text next) := by
  have hslot : (parent.block h).view.hwBpSlot = (parent.block h).read Bp.hwBpSlot :=
    Block.view_hwBpSlot _
  unfold Leader.cloneSingle at hrun
  unfold cloneSingle
  have hbp : (parent.view text next).bp h = (parent.block h).view := rfl
  dsimp only at hrun ⊢
  rw [hbp, hslot]
  show (if (parent.block h).flag Bp.deleted = true then _ else _) = _
  by_cases hdel : (parent.block h).flag Bp.deleted = true
  · rw [if_pos hdel] at hrun ⊢
    cases hrun
    rfl
  rw [if_neg hdel] at hrun ⊢
  obtain ⟨_, hcheck, hrun⟩ := Machine.bind_eq_ok.mp hrun
  replace hcheck := Leader.check_eq_ok hcheck
  -- the rest, for a breakpoint that passes the check of the scratch slot
  suffices hrest :
      (if (parent.block h).view.type = .hwScratch ∧ (parent.block h).view.hw = true then
        pure (child.view text next)
      else do
        if (parent.block h).view.hw then
          check ((parent.block h).read Bp.hwBpSlot != hwBpScratchSlot)
            "new_bp->hw_bp_slot != HW_BP_SCRATCH_SLOT"
        return { child.view text next with
          bp := Function.update (child.view text next).bp h
            ((parent.block h).view.clone (child'.block h).view)
          breakpoints := child.breakpoints ++ [h]
          hwBpList := if (parent.block h).type.geHw then child.hwBpList ++ [h] else child.hwBpList
          hwBpNum := if (parent.block h).type.geHw then child.hwBpNum + 1 else child.hwBpNum
          hwBp := if (parent.block h).flag Bp.hw then
              Function.update child.hwBp ((parent.block h).read Bp.hwBpSlot) (some h)
            else child.hwBp } : Except String Traced) = .ok (child'.view text next) by
    by_cases hscratch : (parent.block h).view.type = .hwScratch
    · have hpass : ((parent.block h).read Bp.hwBpSlot == hwBpScratchSlot) = true := by
        rw [show (parent.block h).type = .hwScratch from hscratch] at hcheck
        exact hcheck
      rw [if_pos hscratch, hpass]
      exact hrest
    · rw [if_neg hscratch]
      exact hrest
  by_cases hskip : (parent.block h).type = .hwScratch ∧ (parent.block h).flag Bp.hw = true
  · rw [if_pos hskip] at hrun
    cases hrun
    exact if_pos hskip
  rw [if_neg hskip] at hrun
  refine (if_neg hskip).trans ?_
  obtain ⟨_, hcheck', hrun⟩ := Machine.bind_eq_ok.mp hrun
  obtain ⟨_, -, hrun⟩ := Machine.bind_eq_ok.mp hrun
  obtain ⟨_, -, hrun⟩ := Machine.bind_eq_ok.mp hrun
  cases hrun
  have hclone : (Function.update child.block h ((parent.block h).clone (garbage h)) h).view =
      (parent.block h).view.clone
        (Function.update child.block h ((parent.block h).clone (garbage h)) h).view := by
    rw [Function.update_self]
    exact Block.view_clone (Bool.not_eq_true _ ▸ hdel) hext (garbage h)
  have hblocks : Function.update (child.view text next).bp h
      ((parent.block h).view.clone
        (Function.update child.block h ((parent.block h).clone (garbage h)) h).view) =
      fun g => (Function.update child.block h ((parent.block h).clone (garbage h)) g).view := by
    rw [← hclone]
    funext g
    by_cases hg : g = h
    · rw [hg, Function.update_self]
    · rw [Function.update_of_ne hg, Function.update_of_ne hg]
      rfl
  have hend : ({ child.view text next with
      bp := Function.update (child.view text next).bp h ((parent.block h).view.clone
        (Function.update child.block h ((parent.block h).clone (garbage h)) h).view)
      breakpoints := child.breakpoints ++ [h]
      hwBpList := if (parent.block h).type.geHw then child.hwBpList ++ [h] else child.hwBpList
      hwBpNum := if (parent.block h).type.geHw then child.hwBpNum + 1 else child.hwBpNum
      hwBp := if (parent.block h).flag Bp.hw then
          Function.update child.hwBp ((parent.block h).read Bp.hwBpSlot) (some h)
        else child.hwBp } : Traced) =
      (child.enter h ((parent.block h).clone (garbage h)) (parent.block h)).view text next := by
    rw [hblocks]
    rfl
  by_cases hhw : (parent.block h).flag Bp.hw = true
  · have hpass : ((parent.block h).read Bp.hwBpSlot != hwBpScratchSlot) = true := by
      have hor := Leader.check_eq_ok hcheck'
      rw [hhw] at hor
      exact hor
    refine (if_pos hhw).trans ?_
    rw [hpass]
    exact congrArg Except.ok hend
  · exact (if_neg hhw).trans (congrArg Except.ok hend)

end View

end Mtrace.Server
