import Mtrace.Server.Reorder

/-!
# The hottest breakpoints

After `reorder_hw_bp` the slots of every thread hold the breakpoints that come first when they are
sorted by kind and by how often they were hit, and all others are in the text.

1. `Consistent`: the enabled breakpoints of the leader's list have one form each, and the slots hold
   nothing else.
2. `Round`: what one pass of the last loop does; it keeps `Consistent` and takes the slot away from
   none of the breakpoints that are to have one.
3. `reorderHwBp_hottest`: as many breakpoints as there are slots have one, so they fill them all.
-/

namespace Mtrace.Server

/-- The slots of all tasks. -/
def Traced.slots (t : Traced) : List Slots := t.threads ++ [t.hwBp]

/-- The form of an enabled breakpoint: in the text, or in one slot of every task. -/
inductive Armed (t : Traced) (h : Handle) : Prop where
  | soft (hsw : (t.bp h).sw = true) (hhw : (t.bp h).hw = false)
  | hard (hsw : (t.bp h).sw = false) (hhw : (t.bp h).hw = true) (hlo : 0 < (t.bp h).hwBpSlot)
      (hhi : (t.bp h).hwBpSlot < hwBreakpoints)
      (hslot : ∀ s ∈ t.slots, s (t.bp h).hwBpSlot = some h)

/-- The breakpoints in the list of the leader and the slots of its tasks agree. -/
structure Consistent (t : Traced) : Prop where
  nodup : t.hwBpList.Nodup
  num : t.hwBpNum = t.hwBpList.length
  type : ∀ h ∈ t.hwBpList, (t.bp h).type.geHw = true
  armed : ∀ h ∈ t.hwBpList, (t.bp h).enabled = true → Armed t h
  own : ∀ s ∈ t.slots, ∀ i h, 0 < i → i < hwBreakpoints → s i = some h →
    h ∈ t.hwBpList ∧ (t.bp h).enabled = true ∧ (t.bp h).hw = true ∧ (t.bp h).hwBpSlot = i

/-- The consistent states include all that the breakpoint operations reach. -/
theorem Transparent.consistent {orig : UInt64 → UInt8} {t : Traced} (ht : Transparent orig t) :
    Consistent t where
  nodup := ht.listNodup
  num := ht.num
  type := fun h hh => ((ht.list h).mp hh).2
  armed := by
    intro h hh hen
    obtain ⟨hlive, htype⟩ := (ht.list h).mp hh
    cases ht.placed h hlive with
    | scratch h' => exact absurd h' (ne_scratch_of_geHw htype)
    | off _ h' => rw [hen] at h'; cases h'
    | soft _ _ hsw hhw => exact .soft hsw hhw
    | hard _ _ hsw hhw hlo hhi hslot =>
      refine .hard hsw hhw hlo hhi fun s hs => ?_
      rcases List.mem_append.mp hs with hs | hs
      · rw [ht.threads s hs _ hlo, hslot]
      · rw [List.mem_singleton.mp hs, hslot]
  own := by
    intro s hs i h hlo hhi hi
    have hleader : t.hwBp i = some h := by
      rcases List.mem_append.mp hs with hs | hs
      · rw [← ht.threads s hs i hlo, hi]
      · rw [← List.mem_singleton.mp hs, hi]
    obtain ⟨hlive, htype, hhw, hslot⟩ := ht.slots i h hlo hhi hleader
    exact ⟨(ht.list h).mpr ⟨hlive, htype⟩,
      ((ht.placed h hlive).hard_of_hw hhw (ne_scratch_of_geHw htype)).2.1, hhw, hslot⟩

section Round

variable {t t' : Traced} {h g : Handle} {j : ℕ}

theorem hwBp_mem_slots (t : Traced) : t.hwBp ∈ t.slots :=
  List.mem_append_right _ (List.mem_singleton_self _)

/-- One pass of the last loop: `h` goes from the text into the slot `j`, and what was there into the
text. -/
structure Round (t t' : Traced) (h : Handle) (j : ℕ) : Prop where
  list : t'.hwBpList = t.hwBpList
  num : t'.hwBpNum = t.hwBpNum
  slots : t'.slots = t.slots.map fun s => Function.update s j (some h)
  self : (t'.bp h).enabled = true ∧ (t'.bp h).sw = false ∧ (t'.bp h).hw = true ∧
    (t'.bp h).hwBpSlot = j
  evicted : ∀ g, t.hwBp j = some g →
    (t'.bp g).enabled = true ∧ (t'.bp g).sw = true ∧ (t'.bp g).hw = false
  others : ∀ g, g ≠ h → t.hwBp j ≠ some g → t'.bp g = t.bp g
  kept : ∀ g, (t'.bp g).type = (t.bp g).type ∧ (t'.bp g).hwcnt = (t.bp g).hwcnt

/-- `disable_sw_breakpoint` of a breakpoint in the text. -/
theorem disableSwBreakpoint_eq (hsw : (t.bp h).sw = true) (hhw : (t.bp h).hw = false) :
    ∃ text, t.disableSwBreakpoint h = .ok ({ t with text := text }.setBp h fun bp =>
      { bp with sw := false, enabled := false }) := by
  refine ⟨Function.update t.text (t.bp h).addr (t.bp h).origValue, ?_⟩
  unfold Traced.disableSwBreakpoint
  dsimp only
  rw [hsw, hhw]
  rfl

theorem enableSwBreakpoint_eq (hsw : (t.bp h).sw = false) (hhw : (t.bp h).hw = false) :
    ∃ text value, t.enableSwBreakpoint h = .ok ({ t with text := text }.setBp h fun bp =>
      { bp.setOrigValue value with
        breakInsn := breakInsnValue == value
        wasHw := false
        sw := true
        enabled := true }) := by
  refine ⟨Function.update t.text (t.bp h).addr breakInsnValue, t.text (t.bp h).addr, ?_⟩
  unfold Traced.enableSwBreakpoint
  dsimp only
  rw [hsw, hhw]
  rfl

/-- A task that holds the breakpoint lets it go. -/
theorem disableHwBp_eq {b : Breakpoint} {s : Slots} (hsw : b.sw = false)
    (hs : s b.hwBpSlot = some h) :
    Traced.disableHwBp b h s = .ok (Function.update s b.hwBpSlot none) := by
  unfold Traced.disableHwBp
  dsimp only
  rw [hsw, hs]
  show (check (h == h) _ >>= _) = _
  rw [beq_self_eq_true]
  rfl

theorem enableHwBp_eq {b : Breakpoint} {s : Slots} (htype : b.type.geHw = true) (hsw : b.sw = false)
    (hs : s b.hwBpSlot = none) :
    Traced.enableHwBp b h s = .ok (Function.update s b.hwBpSlot (some h)) := by
  have hne : (b.type != .sw) = true := by
    cases hb : b.type with
    | sw => rw [hb] at htype; cases htype
    | _ => rfl
  unfold Traced.enableHwBp
  dsimp only
  rw [hne, hsw, hs, htype]
  rfl

/-- A slot that the leader has free is free in every task. -/
theorem Consistent.free (ht : Consistent t) (hlo : 0 < j) (hhi : j < hwBreakpoints)
    (hj : t.hwBp j = none) : ∀ s ∈ t.slots, s j = none := by
  intro s hs
  cases hsj : s j with
  | none => rfl
  | some g =>
    obtain ⟨hg, hen, hhw, hslot⟩ := ht.own s hs j g hlo hhi hsj
    cases ht.armed g hg hen with
    | soft _ hno => rw [hhw] at hno; cases hno
    | hard _ _ _ _ hall =>
      have hleader := hall t.hwBp (hwBp_mem_slots t)
      rw [hslot, hj] at hleader
      cases hleader

/-- What the leader has in a slot, every task has there. -/
theorem Consistent.held (ht : Consistent t) (hlo : 0 < j) (hhi : j < hwBreakpoints)
    (hj : t.hwBp j = some g) : g ∈ t.hwBpList ∧ (t.bp g).enabled = true ∧ (t.bp g).sw = false ∧
      (t.bp g).hw = true ∧ (t.bp g).hwBpSlot = j ∧ ∀ s ∈ t.slots, s j = some g := by
  obtain ⟨hg, hen, hhw, hslot⟩ := ht.own t.hwBp (hwBp_mem_slots t) j g hlo hhi hj
  cases ht.armed g hg hen with
  | soft _ hno => rw [hhw] at hno; cases hno
  | hard hsw _ _ _ hall => exact ⟨hg, hen, hsw, hhw, hslot, fun s hs => hslot ▸ hall s hs⟩

theorem Consistent.text (ht : Consistent t) (hh : h ∈ t.hwBpList)
    (hen : (t.bp h).enabled = true) (hhw : (t.bp h).hw = false) : (t.bp h).sw = true := by
  cases ht.armed h hh hen with
  | soft hsw _ => exact hsw
  | hard _ hno => rw [hhw] at hno; cases hno

theorem slots_map (t : Traced) (f : Slots → Slots) :
    { t with threads := t.threads.map f, hwBp := f t.hwBp }.slots = t.slots.map f := by
  show t.threads.map f ++ [f t.hwBp] = _
  unfold Traced.slots
  rw [List.map_append]
  rfl

/-- A breakpoint other than `h` goes into the text and leaves its slot free in every task. -/
theorem evict_eq (hlo : 0 < j) (hhi : j < hwBreakpoints) (ht : Consistent t)
    (hbp : ∀ g, t.hwBp j = some g → t'.bp g = t.bp g) (hslots : t'.slots = t.slots)
    (hleader : t'.hwBp = t.hwBp) :
    ∃ t2, t'.evict j = .ok t2 ∧ t2.hwBpList = t'.hwBpList ∧ t2.hwBpNum = t'.hwBpNum ∧
      t2.slots = t'.slots.map (fun s => Function.update s j none) ∧
      (∀ g, t.hwBp j = some g → (t2.bp g).enabled = true ∧ (t2.bp g).sw = true ∧
        (t2.bp g).hw = false) ∧
      (∀ g, t.hwBp j ≠ some g → t2.bp g = t'.bp g) ∧
      ∀ g, (t2.bp g).type = (t'.bp g).type ∧ (t2.bp g).hwcnt = (t'.bp g).hwcnt := by
  unfold Traced.evict
  rw [hleader]
  cases hj : t.hwBp j with
  | none =>
    refine ⟨t', rfl, rfl, rfl, ?_, fun g hg => (by cases hg), fun g _ => rfl, fun g => ⟨rfl, rfl⟩⟩
    have hsame : t.slots.map (fun s => Function.update s j none) = t.slots.map id := by
      refine List.map_congr_left fun s hs => ?_
      exact Function.update_eq_self_iff.mpr (ht.free hlo hhi hj s hs).symm
    rw [hslots, hsame, List.map_id]
  | some g =>
    obtain ⟨-, -, hsw, -, hslot, hall⟩ := ht.held hlo hhi hj
    have hg := hbp g hj
    have hone : ∀ s ∈ t'.slots,
        Traced.disableHwBp (t'.bp g) g s = .ok (Function.update s j none) := by
      intro s hs
      rw [hg, ← hslot]
      refine disableHwBp_eq hsw ?_
      rw [hslot]
      exact hall s (hslots ▸ hs)
    dsimp only
    unfold Traced.hw2swBp
    rw [eachTask_eq (hone _ (hwBp_mem_slots t')) fun s hs => hone s (List.mem_append_left _ hs)]
    dsimp only [bind, Except.bind]
    obtain ⟨text, value, heq⟩ := enableSwBreakpoint_eq (h := g)
      (t := { t' with
        threads := t'.threads.map fun s => Function.update s j none
        hwBp := Function.update t'.hwBp j none }.setBp g fun bp => { bp with hw := false })
      (by
        show (Function.update t'.bp g _ g).sw = false
        rw [Function.update_self, hg]
        exact hsw)
      (by
        show (Function.update t'.bp g _ g).hw = false
        rw [Function.update_self])
    refine ⟨_, heq, rfl, rfl, slots_map t' _, ?_, ?_, ?_⟩
    · rintro g' ⟨⟩
      refine ⟨?_, ?_, ?_⟩
      all_goals
        simp only [Traced.setBp, Function.update_self]
      rfl
    · intro g' hg'
      have hne : g' ≠ g := fun heq => hg' (heq ▸ rfl)
      simp only [Traced.setBp, Function.update_of_ne hne]
    · intro g'
      by_cases hne : g' = g
      · subst hne
        simp only [Traced.setBp, Function.update_self]
        exact ⟨rfl, rfl⟩
      · simp only [Traced.setBp, Function.update_of_ne hne, and_self]

theorem round_spec (ht : Consistent t) (hh : h ∈ t.hwBpList) (hen : (t.bp h).enabled = true)
    (hhw : (t.bp h).hw = false) (hlo : 0 < j) (hhi : j < hwBreakpoints) :
    ∃ t1 t2 t3, t.disableSwBreakpoint h = .ok t1 ∧ t1.evict j = .ok t2 ∧
      t2.takeSlot h j = .ok t3 ∧ Round t t3 h j := by
  have hsw := ht.text hh hen hhw
  have hnot : t.hwBp j ≠ some h := by
    intro hj
    obtain ⟨-, -, -, hyes, -⟩ := ht.held hlo hhi hj
    rw [hhw] at hyes
    cases hyes
  obtain ⟨t1, heq1, hlist1, hnum1, hslots1, hleader1, hself1, hother1⟩ :
      ∃ t1, t.disableSwBreakpoint h = .ok t1 ∧ t1.hwBpList = t.hwBpList ∧
        t1.hwBpNum = t.hwBpNum ∧ t1.slots = t.slots ∧ t1.hwBp = t.hwBp ∧
        t1.bp h = { t.bp h with sw := false, enabled := false } ∧ ∀ g,
          g ≠ h → t1.bp g = t.bp g := by
    obtain ⟨text, heq⟩ := disableSwBreakpoint_eq (t := t) (h := h) hsw hhw
    refine ⟨_, heq, rfl, rfl, rfl, rfl, ?_, fun g hg => ?_⟩
    · exact Function.update_self _ _ _
    · exact Function.update_of_ne hg _ _
  obtain ⟨t2, heq2, hlist2, hnum2, hslots2, hevicted2, hsame2, hkept2⟩ :=
    evict_eq (t := t) hlo hhi ht
      (fun g hg => hother1 g fun heq => hnot (heq ▸ hg)) hslots1 hleader1
  have hself2 : t2.bp h = { t.bp h with sw := false, enabled := false } := by
    rw [hsame2 h hnot, hself1]
  -- the structure that is put into the slots
  let b : Breakpoint := { (t2.bp h).setHwBpSlot j with enabled := true, hw := true, wasHw := true }
  have hb : ((t2.setBp h fun bp =>
      { bp.setHwBpSlot j with enabled := true, hw := true, wasHw := true }).bp h) = b :=
    Function.update_self _ _ _
  have hbslot : b.hwBpSlot = j := Breakpoint.hwBpSlot_setHwBpSlot (t2.bp h) hhi
  have hbsw : b.sw = false := by
    show (t2.bp h).sw = false
    rw [hself2]
  have hbtype : b.type.geHw = true := by
    show (t2.bp h).type.geHw = true
    rw [hself2]
    exact ht.type h hh
  have hone : ∀ s ∈ t2.slots,
      Traced.enableHwBp b h s = .ok (Function.update s j (some h)) := by
    intro s hs
    rw [hslots2] at hs
    obtain ⟨s0, -, rfl⟩ := List.mem_map.mp hs
    rw [enableHwBp_eq hbtype hbsw (by rw [hbslot, Function.update_self]), hbslot]
  have heq3 : t2.takeSlot h j = .ok { (t2.setBp h fun bp =>
      { bp.setHwBpSlot j with enabled := true, hw := true, wasHw := true }) with
        threads := t2.threads.map fun s => Function.update s j (some h)
        hwBp := Function.update t2.hwBp j (some h) } := by
    unfold Traced.takeSlot
    dsimp only
    rw [hb]
    exact eachTask_eq (t := t2.setBp h fun bp =>
        { bp.setHwBpSlot j with enabled := true, hw := true, wasHw := true })
      (hone _ (hwBp_mem_slots t2)) fun s hs => hone s (List.mem_append_left _ hs)
  have hother3 : ∀ g, g ≠ h → Function.update t2.bp h b g = t2.bp g :=
    fun g hg => Function.update_of_ne hg _ _
  have hself3 : Function.update t2.bp h b h = b := Function.update_self _ _ _
  refine ⟨t1, t2, _, heq1, heq2, heq3, hlist2.trans hlist1, hnum2.trans hnum1, ?_, ?_, ?_, ?_, ?_⟩
  · have hslots3 := slots_map (t2.setBp h fun bp =>
      { bp.setHwBpSlot j with enabled := true, hw := true, wasHw := true })
        fun s => Function.update s j (some h)
    refine hslots3.trans ?_
    show t2.slots.map _ = _
    rw [hslots2, hslots1, List.map_map]
    refine List.map_congr_left fun s _ => ?_
    exact Function.update_idem _ _ _
  · show (Function.update t2.bp h b h).enabled = true ∧ (Function.update t2.bp h b h).sw = false ∧
      (Function.update t2.bp h b h).hw = true ∧ (Function.update t2.bp h b h).hwBpSlot = j
    rw [hself3]
    exact ⟨rfl, hbsw, rfl, hbslot⟩
  · intro g hg
    have hne : g ≠ h := fun heq => hnot (heq ▸ hg)
    show (Function.update t2.bp h b g).enabled = true ∧ (Function.update t2.bp h b g).sw = true ∧
      (Function.update t2.bp h b g).hw = false
    rw [hother3 g hne]
    exact hevicted2 g hg
  · intro g hne hg
    show Function.update t2.bp h b g = t.bp g
    rw [hother3 g hne, hsame2 g hg, hother1 g hne]
  · intro g
    show (Function.update t2.bp h b g).type = _ ∧ (Function.update t2.bp h b g).hwcnt = _
    by_cases hne : g = h
    · rw [hne, hself3]
      show (t2.bp h).type = _ ∧ (t2.bp h).hwcnt = _
      rw [hself2]
      exact ⟨rfl, rfl⟩
    · rw [hother3 g hne, (hkept2 g).1, (hkept2 g).2, hother1 g hne]
      exact ⟨rfl, rfl⟩

/-- A breakpoint keeps being enabled through a round. -/
theorem Round.enabled (hr : Round t t' h j) (hen : (t.bp g).enabled = true) :
    (t'.bp g).enabled = true := by
  by_cases hg : g = h
  · rw [hg]
    exact hr.self.1
  · by_cases hj : t.hwBp j = some g
    · exact (hr.evicted g hj).1
    · rw [hr.others g hg hj]
      exact hen

theorem Round.consistent (hr : Round t t' h j) (ht : Consistent t) (hh : h ∈ t.hwBpList)
    (hen : (t.bp h).enabled = true) (hhw : (t.bp h).hw = false) (hlo : 0 < j)
    (hhi : j < hwBreakpoints) : Consistent t' where
  nodup := hr.list ▸ ht.nodup
  num := by rw [hr.num, hr.list, ht.num]
  type := by
    intro g hg
    rw [(hr.kept g).1]
    exact ht.type g (hr.list ▸ hg)
  armed := by
    intro g hg hgen
    obtain ⟨hen', hsw', hhw', hslot'⟩ := hr.self
    by_cases hgh : g = h
    · subst hgh
      refine .hard hsw' hhw' (hslot' ▸ hlo) (hslot' ▸ hhi) fun s hs => ?_
      rw [hr.slots] at hs
      obtain ⟨s0, -, rfl⟩ := List.mem_map.mp hs
      rw [hslot', Function.update_self]
    · by_cases hj : t.hwBp j = some g
      · exact .soft (hr.evicted g hj).2.1 (hr.evicted g hj).2.2
      · have hsame := hr.others g hgh hj
        rw [hsame] at hgen
        cases ht.armed g (hr.list ▸ hg) hgen with
        | soft hsw hno => exact .soft (hsame ▸ hsw) (hsame ▸ hno)
        | hard hsw hyes hglo hghi hall =>
          refine .hard (hsame ▸ hsw) (hsame ▸ hyes) (hsame ▸ hglo) (hsame ▸ hghi) fun s hs => ?_
          rw [hr.slots] at hs
          obtain ⟨s0, hs0, rfl⟩ := List.mem_map.mp hs
          have hne : (t.bp g).hwBpSlot ≠ j := by
            intro heq
            exact hj (heq ▸ hall t.hwBp (hwBp_mem_slots t))
          rw [hsame, Function.update_of_ne hne]
          exact hall s0 hs0
  own := by
    intro s hs i g hilo hihi hi
    rw [hr.slots] at hs
    obtain ⟨s0, hs0, rfl⟩ := List.mem_map.mp hs
    rw [hr.list]
    by_cases hij : i = j
    · subst hij
      rw [Function.update_self] at hi
      cases hi
      exact ⟨hh, hr.self.1, hr.self.2.2.1, hr.self.2.2.2⟩
    · rw [Function.update_of_ne hij] at hi
      obtain ⟨hg, hgen, hghw, hgslot⟩ := ht.own s0 hs0 i g hilo hihi hi
      have hgh : g ≠ h := by
        rintro rfl
        rw [hhw] at hghw
        cases hghw
      have hgj : t.hwBp j ≠ some g := by
        intro heq
        exact hij (hgslot.symm.trans (ht.held hlo hhi heq).2.2.2.2.1)
      rw [hr.others g hgh hgj]
      exact ⟨hg, hgen, hghw, hgslot⟩

end Round

/-! ## The last loop -/

theorem moveToHw_hw (hs : List Handle) (hwBpSet : ℕ) (t : Traced) (i : ℕ) (ht : Consistent t)
    (hmem : ∀ h ∈ hs, h ∈ t.hwBpList ∧ (t.bp h).enabled = true ∧ (t.bp h).hw = false)
    (hnodup : hs.Nodup) (hlo : 0 < i) (hfree : hs.length ≤ freeSlots hwBpSet i) :
    ∃ t', Traced.moveToHw hwBpSet t i hs = .ok t' ∧ Consistent t' ∧ t'.hwBpList = t.hwBpList ∧
      (∀ g, (t'.bp g).hwcnt = (t.bp g).hwcnt) ∧
      (∀ g, (t.bp g).enabled = true → (t'.bp g).enabled = true) ∧
      (∀ h ∈ hs, (t'.bp h).hw = true) ∧
      ∀ g, (t.bp g).hw = true →
        hwBpSet.testBit (t.bp g).hwBpSlot = true ∨ (t.bp g).hwBpSlot < i → (t'.bp g).hw = true := by
  induction hs generalizing t i with
  | nil =>
    exact ⟨t, rfl, ht, rfl, fun _ => rfl, fun _ h => h, fun _ h => (by cases h), fun _ h _ => h⟩
  | cons h hs ih =>
    rw [List.length_cons] at hfree
    obtain ⟨hle, hhi, hcount⟩ := nextSlot_spec hwBpSet hwBreakpoints i (by omega) (by omega)
    have hbit := testBit_nextSlot hwBpSet hwBreakpoints i (by omega) (by omega)
    rw [Traced.moveToHw]
    generalize Traced.nextSlot hwBpSet hwBreakpoints i = j at *
    obtain ⟨hh, hen, hhw⟩ := hmem h List.mem_cons_self
    obtain ⟨hnew, hnodup⟩ := List.nodup_cons.mp hnodup
    have hjlo : 0 < j := by omega
    obtain ⟨t1, t2, t3, heq1, heq2, heq3, hround⟩ := round_spec ht hh hen hhw hjlo hhi
    have ht3 := hround.consistent ht hh hen hhw hjlo hhi
    -- what has a slot other than the one that is taken keeps it
    have hkeep : ∀ g, g ≠ h → ((t.bp g).hw = true → (t.bp g).hwBpSlot ≠ j) →
        t3.bp g = t.bp g := by
      intro g hg hne
      refine hround.others g hg fun hj => ?_
      obtain ⟨-, -, -, ghw, gslot, -⟩ := ht.held hjlo hhi hj
      exact hne ghw gslot
    have hmem3 : ∀ g ∈ hs, g ∈ t3.hwBpList ∧ (t3.bp g).enabled = true ∧ (t3.bp g).hw = false := by
      intro g hg
      obtain ⟨hgl, hgen, hghw⟩ := hmem g (List.mem_cons_of_mem h hg)
      have hgh : g ≠ h := fun heq => hnew (heq ▸ hg)
      rw [hround.list, hkeep g hgh fun hyes => by rw [hghw] at hyes; cases hyes]
      exact ⟨hgl, hgen, hghw⟩
    obtain ⟨t4, heq4, ht4, hlist, hcnt, henabled, hall, hstay⟩ :=
      ih t3 (j + 1) ht3 hmem3 hnodup (Nat.succ_pos j) (by omega)
    refine ⟨t4, ?_, ht4, hlist.trans hround.list, ?_, ?_, ?_, ?_⟩
    · rw [heq1]
      dsimp only [bind, Except.bind]
      rw [heq2]
      dsimp only
      rw [heq3]
      exact heq4
    · intro g
      rw [hcnt, (hround.kept g).2]
    · exact fun g hg => henabled g (hround.enabled hg)
    · intro g hg
      rcases List.mem_cons.mp hg with rfl | hg
      · refine hstay g hround.self.2.2.1 (.inr ?_)
        rw [hround.self.2.2.2]
        exact Nat.lt_succ_self j
      · exact hall g hg
    · intro g ghw hor
      have hgh : g ≠ h := by
        rintro rfl
        rw [hhw] at ghw
        cases ghw
      have hne : (t.bp g).hwBpSlot ≠ j := by
        rintro heq
        rw [heq, hbit] at hor
        rcases hor with hor | hor
        · cases hor
        · omega
      have hsame := hkeep g hgh fun _ => hne
      refine hstay g (hsame ▸ ghw) ?_
      rw [hsame]
      exact hor.imp_right fun hlt => by omega

/-! ## The order -/

/-- The comparison of `hw_bp_sort` as it is meant: `BP_HW` comes first, then the counters decide. -/
def Hotter (t : Traced) (a b : Handle) : Prop :=
  (t.bp a).type = .hw ∧ (t.bp b).type = .auto ∨
    (t.bp a).type = (t.bp b).type ∧ (t.bp b).hwcnt.toNat ≤ (t.bp a).hwcnt.toNat

/-- A comparison is an order on the members of a list. -/
structure Orders (cmp : Handle → Handle → ℤ) (hs : List Handle) : Prop where
  sign : ∀ a ∈ hs, ∀ b ∈ hs, (cmp a b).sign = -(cmp b a).sign
  trans : ∀ a ∈ hs, ∀ b ∈ hs, ∀ c ∈ hs, cmp a b ≤ 0 → cmp b c ≤ 0 → cmp a c ≤ 0

/-- What `qsort` is to do. -/
structure Sorting (qsort : (Handle → Handle → ℤ) → List Handle → List Handle) : Prop where
  perm : ∀ cmp hs, (qsort cmp hs).Perm hs
  sorted : ∀ cmp hs, Orders cmp hs → (qsort cmp hs).Pairwise fun a b => cmp a b ≤ 0

/-- The difference of two counters is right as an `int` as long as both are below half of the
range. -/
theorem toInt_sub {a b : UInt32} (ha : a.toNat < 2 ^ 31) (hb : b.toNat < 2 ^ 31) :
    (a - b).toInt32.toInt = (a.toNat : ℤ) - b.toNat := by
  have hsub : (a - b).toBitVec.toInt = (a.toNat : ℤ) - b.toNat := by
    rw [BitVec.toInt_eq_toNat_cond]
    have hnat : (a - b).toBitVec.toNat = (2 ^ 32 - b.toNat + a.toNat) % 2 ^ 32 :=
      UInt32.toNat_sub a b
    rw [hnat]
    split <;> omega
  exact hsub

theorem BpType.hw_or_auto {type : BpType} (h : type.geHw = true) : type = .hw ∨ type = .auto := by
  cases type with
  | hw => exact .inl rfl
  | auto => exact .inr rfl
  | _ => cases h

section Order

variable {t : Traced} {a b c : Handle} {hs : List Handle}

theorem hwBpSort_le_iff (ha : (t.bp a).type.geHw = true) (hb : (t.bp b).type.geHw = true)
    (hca : (t.bp a).hwcnt.toNat < 2 ^ 31) (hcb : (t.bp b).hwcnt.toNat < 2 ^ 31) :
    Traced.hwBpSort t.bp a b ≤ 0 ↔ Hotter t a b := by
  unfold Traced.hwBpSort Hotter
  rw [toInt_sub hcb hca]
  rcases BpType.hw_or_auto ha with hta | hta <;> rcases BpType.hw_or_auto hb with htb | htb <;>
    simp [hta, htb]

theorem orders_hwBpSort (htype : ∀ h ∈ hs, (t.bp h).type.geHw = true)
    (hcnt : ∀ h ∈ hs, (t.bp h).hwcnt.toNat < 2 ^ 31) : Orders (Traced.hwBpSort t.bp) hs where
  sign := by
    intro a ha b hb
    unfold Traced.hwBpSort
    rw [toInt_sub (hcnt a ha) (hcnt b hb), toInt_sub (hcnt b hb) (hcnt a ha)]
    rcases BpType.hw_or_auto (htype a ha) with hta | hta <;>
      rcases BpType.hw_or_auto (htype b hb) with htb | htb <;> simp [hta, htb, ← Int.sign_neg]
  trans := by
    intro a ha b hb c hc
    rw [hwBpSort_le_iff (htype a ha) (htype b hb) (hcnt a ha) (hcnt b hb),
      hwBpSort_le_iff (htype b hb) (htype c hc) (hcnt b hb) (hcnt c hc),
      hwBpSort_le_iff (htype a ha) (htype c hc) (hcnt a ha) (hcnt c hc)]
    rintro (⟨hab, hb'⟩ | ⟨hab, hab'⟩) (⟨hbc, hc'⟩ | ⟨hbc, hbc'⟩)
    · exact .inl ⟨hab, hc'⟩
    · exact .inl ⟨hab, hbc ▸ hb'⟩
    · exact .inl ⟨hab.trans hbc, hc'⟩
    · exact .inr ⟨hab.trans hbc, hbc'.trans hab'⟩

end Order

/-! ## The slots -/

theorem Consistent.clearHwcnt {t : Traced} (ht : Consistent t) (hs : List Handle) :
    Consistent (t.clearHwcnt hs) where
  nodup := ht.nodup
  num := ht.num
  type := by
    intro h hh
    obtain ⟨c, hc⟩ := clearHwcnt_bp t hs h
    rw [hc]
    exact ht.type h hh
  armed := by
    intro h hh
    obtain ⟨c, hc⟩ := clearHwcnt_bp t hs h
    rw [hc]
    intro hen
    cases ht.armed h hh hen with
    | soft hsw hhw => exact .soft (hc ▸ hsw) (hc ▸ hhw)
    | hard hsw hhw hlo hhi hslot =>
      exact .hard (hc ▸ hsw) (hc ▸ hhw) (hc ▸ hlo) (hc ▸ hhi) (hc ▸ hslot)
  own := by
    intro s hs' i h hlo hhi hi
    obtain ⟨c, hc⟩ := clearHwcnt_bp t hs h
    rw [hc]
    exact ht.own s hs' i h hlo hhi hi

/-- Two breakpoints of a consistent state do not share a slot. -/
theorem Consistent.slot_injective {t : Traced} (ht : Consistent t) {h g : Handle}
    (hh : h ∈ t.hwBpList) (hg : g ∈ t.hwBpList) (hen : (t.bp h).enabled = true)
    (gen : (t.bp g).enabled = true) (hhw : (t.bp h).hw = true) (ghw : (t.bp g).hw = true)
    (heq : (t.bp h).hwBpSlot = (t.bp g).hwBpSlot) : h = g := by
  cases ht.armed h hh hen with
  | soft _ hno => rw [hhw] at hno; cases hno
  | hard _ _ hlo hhi hslot =>
    cases ht.armed g hg gen with
    | soft _ hno => rw [ghw] at hno; cases hno
    | hard _ _ _ _ gslot =>
      have h1 := hslot t.hwBp (hwBp_mem_slots t)
      rw [heq, gslot t.hwBp (hwBp_mem_slots t)] at h1
      exact (Option.some.inj h1).symm

theorem Consistent.hard {t : Traced} (ht : Consistent t) {h : Handle} (hh : h ∈ t.hwBpList)
    (hen : (t.bp h).enabled = true) (hhw : (t.bp h).hw = true) :
    0 < (t.bp h).hwBpSlot ∧ (t.bp h).hwBpSlot < hwBreakpoints ∧
      ∀ s ∈ t.slots, s (t.bp h).hwBpSlot = some h := by
  cases ht.armed h hh hen with
  | soft _ hno => rw [hhw] at hno; cases hno
  | hard _ _ hlo hhi hslot => exact ⟨hlo, hhi, hslot⟩

/-- As many breakpoints as there are slots, each with a slot: they have them all. -/
theorem Consistent.fill {t : Traced} (ht : Consistent t) {top : List Handle} (hnodup : top.Nodup)
    (hlen : top.length = hwBreakpoints - 1)
    (htop : ∀ h ∈ top, h ∈ t.hwBpList ∧ (t.bp h).enabled = true ∧ (t.bp h).hw = true) :
    (top.map fun h => (t.bp h).hwBpSlot).Perm (List.range' 1 (hwBreakpoints - 1)) ∧
      ∀ s ∈ t.slots, ((List.range' 1 (hwBreakpoints - 1)).map s).Perm (top.map some) := by
  have hslots : (top.map fun h => (t.bp h).hwBpSlot).Perm (List.range' 1 (hwBreakpoints - 1)) := by
    have hsub : (top.map fun h => (t.bp h).hwBpSlot) ⊆ List.range' 1 (hwBreakpoints - 1) := by
      intro j hj
      obtain ⟨h, hh, rfl⟩ := List.mem_map.mp hj
      obtain ⟨hl, hen, hhw⟩ := htop h hh
      obtain ⟨hlo, hhi, -⟩ := ht.hard hl hen hhw
      rw [List.mem_range'_1]
      unfold hwBreakpoints at hhi ⊢
      omega
    have hnodup' : (top.map fun h => (t.bp h).hwBpSlot).Nodup := by
      refine hnodup.map_on fun h hh g hg heq => ?_
      obtain ⟨hl, hen, hhw⟩ := htop h hh
      obtain ⟨gl, gen, ghw⟩ := htop g hg
      exact ht.slot_injective hl gl hen gen hhw ghw heq
    refine (List.subperm_of_subset hnodup' hsub).perm_of_length_le ?_
    rw [List.length_map, hlen, List.length_range']
  refine ⟨hslots, fun s hs => ?_⟩
  refine (hslots.symm.map s).trans ?_
  rw [List.map_map]
  refine List.Perm.of_eq (List.map_congr_left fun h hh => ?_)
  obtain ⟨hl, hen, hhw⟩ := htop h hh
  exact (ht.hard hl hen hhw).2.2 s hs

/-- When at least as many breakpoints are enabled as there are slots, every task has in its slots
the first ones of an order by kind and counter, and the others are in the text. -/
theorem reorderHwBp_hottest (qsort : (Handle → Handle → ℤ) → List Handle → List Handle)
    (hq : Sorting qsort) (t : Traced) (ht : Consistent t)
    (hcnt : ∀ h ∈ t.hwBpList, (t.bp h).enabled = true → (t.bp h).hwcnt.toNat < 2 ^ 31)
    (hmany : hwBreakpoints - 1 ≤ (t.hwBpList.filter fun h => (t.bp h).enabled).length) :
    ∃ t', t.reorderHwBp qsort = .ok t' ∧
      ∃ order : List Handle, order.Perm (t.hwBpList.filter fun h => (t.bp h).enabled) ∧
        order.Nodup ∧ order.Pairwise (Hotter t) ∧
        (∀ s ∈ t'.slots, ((List.range' 1 (hwBreakpoints - 1)).map s).Perm
          ((order.take (hwBreakpoints - 1)).map some)) ∧
        (∀ h ∈ order.drop (hwBreakpoints - 1), (t'.bp h).sw = true ∧ (t'.bp h).hw = false) ∧
        ∀ h ∈ order, (t'.bp h).enabled = true ∧ (t'.bp h).hwcnt = 0 := by
  have hlisted : ∀ h ∈ t.hwBpList.filter (fun h => (t.bp h).enabled),
      h ∈ t.hwBpList ∧ (t.bp h).enabled = true := fun h hh => List.mem_filter.mp hh
  have hnodup : (t.hwBpList.filter fun h => (t.bp h).enabled).Nodup := ht.nodup.filter _
  have hlen : (t.hwBpList.filter fun h => (t.bp h).enabled).length ≤ t.hwBpNum := by
    rw [ht.num]
    exact List.length_filter_le _ _
  unfold Traced.reorderHwBp
  have hnum : t.hwBpNum ≠ 0 := by
    intro hzero
    rw [hzero] at hlen
    exact absurd (hmany.trans hlen) (by decide)
  rw [if_neg hnum]
  dsimp only
  generalize (t.hwBpList.filter fun h => (t.bp h).enabled) = hs at *
  rw [decide_eq_true hlen, if_neg (not_lt.mpr hmany)]
  have htype : ∀ h ∈ hs, (t.bp h).type.geHw = true := fun h hh => ht.type h (hlisted h hh).1
  have hcnt' : ∀ h ∈ hs, (t.bp h).hwcnt.toNat < 2 ^ 31 :=
    fun h hh => hcnt h (hlisted h hh).1 (hlisted h hh).2
  have hperm := hq.perm (Traced.hwBpSort t.bp) hs
  have hsorted := hq.sorted _ hs (orders_hwBpSort htype hcnt')
  generalize qsort (Traced.hwBpSort t.bp) hs = order at *
  have hhot : order.Pairwise (Hotter t) := by
    refine hsorted.imp_of_mem fun {a b} ha hb hab => ?_
    rw [hperm.mem_iff] at ha hb
    exact (hwBpSort_le_iff (htype a ha) (htype b hb) (hcnt' a ha) (hcnt' b hb)).mp hab
  have honodup : order.Nodup := hperm.nodup_iff.mpr hnodup
  have ht0 := ht.clearHwcnt order
  have hzero : ∀ h ∈ order, ((t.clearHwcnt order).bp h).hwcnt = 0 := by
    intro h hh
    show (if h ∈ order then (t.bp h).setHwcnt 0 else t.bp h).hwcnt = 0
    rw [if_pos hh]
    rfl
  have hlive : ∀ h ∈ order, h ∈ (t.clearHwcnt order).hwBpList ∧
      ((t.clearHwcnt order).bp h).enabled = true := by
    intro h hh
    obtain ⟨hl, hen⟩ := hlisted h (hperm.mem_iff.mp hh)
    obtain ⟨c, hc⟩ := clearHwcnt_bp t order h
    rw [hc]
    exact ⟨hl, hen⟩
  generalize t.clearHwcnt order = t0 at *
  have htoplen : (order.take (hwBreakpoints - 1)).length = hwBreakpoints - 1 := by
    rw [List.length_take, hperm.length_eq]
    exact Nat.min_eq_left hmany
  have htopnodup : (order.take (hwBreakpoints - 1)).Nodup := honodup.sublist (List.take_sublist _ _)
  have htopmem : ∀ h ∈ order.take (hwBreakpoints - 1), h ∈ order :=
    fun h hh => List.mem_of_mem_take hh
  have hdisjoint : ∀ h ∈ order.drop (hwBreakpoints - 1), h ∉ order.take (hwBreakpoints - 1) := by
    intro h hd htk
    rw [← List.take_append_drop (hwBreakpoints - 1) order] at honodup
    exact (List.nodup_append.mp honodup).2.2 h htk h hd rfl
  obtain ⟨set', heq, -, hmarked, hcount⟩ := @splitHw_eq t0.bp
    (order.take (hwBreakpoints - 1)) 0
    (fun h hh hhw => by
      obtain ⟨hl, hen⟩ := hlive h (htopmem h hh)
      exact ⟨(ht0.hard hl hen hhw).1, (ht0.hard hl hen hhw).2.1⟩)
    (htopnodup.imp_of_mem fun {h g} hh hg hne hhw ghw hsame => hne
      (ht0.slot_injective (hlive h (htopmem h hh)).1 (hlive g (htopmem g hg)).1
        (hlive h (htopmem h hh)).2 (hlive g (htopmem g hg)).2 hhw ghw hsame))
    (fun h _ _ => Nat.zero_testBit _)
  have hfree : ((order.take (hwBreakpoints - 1)).filter fun h => !(t0.bp h).hw).length ≤
      freeSlots set' (hwBpScratchSlot + 1) := by
    rw [htoplen] at hcount
    have hthree : freeSlots 0 1 = hwBreakpoints - 1 := by decide
    rw [show hwBpScratchSlot + 1 = 1 from rfl]
    omega
  obtain ⟨t', heq', ht', hlist', hcnt'', henabled, hmoved, hstay⟩ :=
    moveToHw_hw _ set' t0 (hwBpScratchSlot + 1) ht0
      (fun h hh => by
        obtain ⟨hh, hno⟩ := List.mem_filter.mp hh
        obtain ⟨hl, hen⟩ := hlive h (htopmem h hh)
        exact ⟨hl, hen, by simpa using hno⟩)
      (htopnodup.filter _) (by decide) hfree
  have hlive' : ∀ h ∈ order, h ∈ t'.hwBpList ∧ (t'.bp h).enabled = true := by
    intro h hh
    obtain ⟨hl, hen⟩ := hlive h hh
    exact ⟨hlist' ▸ hl, henabled h hen⟩
  have htop : ∀ h ∈ order.take (hwBreakpoints - 1),
      h ∈ t'.hwBpList ∧ (t'.bp h).enabled = true ∧ (t'.bp h).hw = true := by
    intro h hh
    obtain ⟨hl, hen⟩ := hlive' h (htopmem h hh)
    refine ⟨hl, hen, ?_⟩
    cases hhw : (t0.bp h).hw with
    | true => exact hstay h hhw (.inl (hmarked h hh hhw))
    | false => exact hmoved h (List.mem_filter.mpr ⟨hh, by rw [hhw]; rfl⟩)
  obtain ⟨hslots, hfill⟩ := ht'.fill htopnodup htoplen htop
  refine ⟨t', ?_, order, hperm, honodup, hhot, hfill, ?_, ?_⟩
  · show (Traced.splitHw t0.bp 0 _ >>= _) = _
    rw [heq]
    exact heq'
  · intro h hh
    obtain ⟨hl, hen⟩ := hlive' h (List.mem_of_mem_drop hh)
    cases ht'.armed h hl hen with
    | soft hsw hhw => exact ⟨hsw, hhw⟩
    | hard _ hhw hlo hhi hslot =>
      -- its slot is the slot of one of the first
      have hin : (t'.bp h).hwBpSlot ∈ List.range' 1 (hwBreakpoints - 1) := by
        rw [List.mem_range'_1]
        unfold hwBreakpoints at hhi ⊢
        omega
      obtain ⟨g, hg, hsame⟩ := List.mem_map.mp (hslots.mem_iff.mpr hin)
      obtain ⟨gl, gen, ghw⟩ := htop g hg
      have hgh := ht'.slot_injective gl hl gen hen ghw hhw hsame
      exact absurd (hgh ▸ hg) (hdisjoint h hh)
  · intro h hh
    exact ⟨(hlive' h hh).2, (hcnt'' h).trans (hzero h hh)⟩

theorem sorting_stableSort : Sorting stableSort where
  perm := fun _ hs => hs.mergeSort_perm _
  sorted := by
    intro cmp hs ho
    let le : {h // h ∈ hs} → {h // h ∈ hs} → Bool := fun a b => decide (cmp a.1 b.1 ≤ 0)
    have hle : ((hs.attach.mergeSort le).map Subtype.val) = stableSort cmp hs := by
      rw [List.map_mergeSort (s := fun a b => decide (cmp a b ≤ 0)) fun a _ b _ => rfl,
        List.attach_map_subtype_val]
      rfl
    rw [← hle, List.pairwise_map]
    refine (List.pairwise_mergeSort (fun a b c hab hbc => ?_) (fun a b => ?_) _).imp
      fun h => of_decide_eq_true h
    · exact decide_eq_true (ho.trans a a.2 b b.2 c c.2 (of_decide_eq_true hab)
        (of_decide_eq_true hbc))
    · have hsign := ho.sign a a.2 b b.2
      rw [Bool.or_eq_true]
      rcases le_total (cmp a b) 0 with hab | hab
      · exact .inl (decide_eq_true hab)
      · refine .inr (decide_eq_true ?_)
        have hge := Int.sign_nonneg_iff.mpr hab
        rw [hsign] at hge
        exact Int.sign_nonpos_iff.mp (by omega)

/-- Four breakpoints of a process of two threads; the last one has no slot and was hit. -/
def hitInText : Traced :=
  match Machine.run (Traced.step stableSort false) (.start (fun _ => 0x55) 1)
      [.insert 0x1000 .auto 0, .insert 0x2000 .auto 0, .insert 0x3000 .auto 0,
        .insert 0x4000 .auto 0, .hit 3, .hit 0, .hit 2] with
  | .ok t => t
  | .error _ => .start (fun _ => 0x55) 1

theorem reach_hitInText : Machine.Reach (Traced.step stableSort false) (fun _ _ => True)
    (.start (fun _ => 0x55) 1) hitInText :=
  Machine.reach_run [.insert 0x1000 .auto 0, .insert 0x2000 .auto 0, .insert 0x3000 .auto 0,
    .insert 0x4000 .auto 0, .hit 3, .hit 0, .hit 2] _ _ (fun _ _ _ => trivial) .init rfl

theorem reorderHwBp_hottest_four : ∃ t', hitInText.reorderHwBp stableSort = .ok t' ∧
    ∃ order : List Handle, order.Perm [0, 1, 2, 3] ∧ order.Pairwise (Hotter hitInText) ∧
      ∀ h ∈ order.drop 3, (t'.bp h).sw = true := by
  obtain ⟨t', heq, order, hperm, -, hhot, -, hsoft, -⟩ :=
    reorderHwBp_hottest stableSort sorting_stableSort hitInText
      (transparent_of_reach sorting_stableSort.perm reach_hitInText).consistent
      (by decide) (by decide)
  exact ⟨t', heq, order, hperm, hhot, fun h hh => (hsoft h hh).1⟩

end Mtrace.Server
