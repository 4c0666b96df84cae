import Mtrace.Server.Breakpoint

/-!
# Breakpoints leave the text as it was

`Transparent orig t`: the text of the process is `orig` except where a breakpoint has its software
form, which keeps the byte it replaced; every breakpoint has one form, and the slots of all tasks
name exactly the breakpoints in hardware.  All operations keep it, and none runs into an assertion.
-/

namespace Mtrace.Server

/-- The form of a breakpoint, given the slots of the leader. -/
inductive Placed (slots : Slots) (h : Handle) (b : Breakpoint) : Prop where
  | scratch (htype : b.type = .hwScratch) (hsw : b.sw = false) (hhw : b.hw = true)
      (hslot : b.hwBpSlot = hwBpScratchSlot)
  | off (htype : b.type ≠ .hwScratch) (hen : b.enabled = false) (hsw : b.sw = false)
      (hhw : b.hw = false)
  | soft (htype : b.type ≠ .hwScratch) (hen : b.enabled = true) (hsw : b.sw = true)
      (hhw : b.hw = false)
  | hard (htype : b.type.geHw = true) (hen : b.enabled = true) (hsw : b.sw = false)
      (hhw : b.hw = true) (hlo : 0 < b.hwBpSlot) (hhi : b.hwBpSlot < hwBreakpoints)
      (hslot : slots b.hwBpSlot = some h)

/-- The byte at the address of a breakpoint, given the original one. -/
def Breakpoint.over (b : Breakpoint) (byte : UInt8) : UInt8 := if b.sw then breakInsnValue else byte

structure Transparent (orig : UInt64 → UInt8) (t : Traced) : Prop where
  fresh : ∀ h ∈ t.breakpoints, h < t.next
  nodup : t.breakpoints.Nodup
  live : ∀ h, h ∈ t.breakpoints ↔ (t.bp h).deleted = false
  distinct : ∀ h ∈ t.breakpoints, ∀ g ∈ t.breakpoints, (t.bp h).addr = (t.bp g).addr → h = g
  placed : ∀ h ∈ t.breakpoints, Placed t.hwBp h (t.bp h)
  dead : ∀ h ∉ t.breakpoints, (t.bp h).sw = false
  patched : ∀ h ∈ t.breakpoints, t.text (t.bp h).addr = (t.bp h).over (orig (t.bp h).addr)
  saved : ∀ h ∈ t.breakpoints, (t.bp h).sw = true → (t.bp h).origValue = orig (t.bp h).addr
  elsewhere : ∀ a, (∀ h ∈ t.breakpoints, (t.bp h).addr ≠ a) → t.text a = orig a
  slots : ∀ i h, 0 < i → i < hwBreakpoints → t.hwBp i = some h → h ∈ t.breakpoints ∧
    (t.bp h).type.geHw = true ∧ (t.bp h).hw = true ∧ (t.bp h).hwBpSlot = i
  threads : ∀ s ∈ t.threads, ∀ i, 0 < i → s i = t.hwBp i
  list : ∀ h, h ∈ t.hwBpList ↔ h ∈ t.breakpoints ∧ (t.bp h).type.geHw = true
  listNodup : t.hwBpList.Nodup
  num : t.hwBpNum = t.hwBpList.length

/-- A breakpoint without a form: not enabled, in no slot and not in the text. -/
structure Off (b : Breakpoint) : Prop where
  enabled : b.enabled = false
  sw : b.sw = false
  hw : b.hw = false

section Forms

variable {orig : UInt64 → UInt8} {t : Traced} {h : Handle}

theorem Placed.type_ne_of_not_hw {slots : Slots} {b : Breakpoint} (hp : Placed slots h b)
    (hhw : b.hw = false) : b.type ≠ .hwScratch := by
  cases hp with
  | scratch _ _ h' _ => rw [hhw] at h'; cases h'
  | off htype => exact htype
  | soft htype => exact htype
  | hard _ _ _ h' => rw [hhw] at h'; cases h'

theorem Placed.not_both {slots : Slots} {b : Breakpoint} (hp : Placed slots h b)
    (hsw : b.sw = true) : b.hw = false := by
  cases hp with
  | scratch _ h' => rw [hsw] at h'; cases h'
  | off _ _ h' => rw [hsw] at h'; cases h'
  | soft _ _ _ hhw => exact hhw
  | hard _ _ h' => rw [hsw] at h'; cases h'

/-- What a breakpoint in hardware says about itself. -/
theorem Placed.hard_of_hw {slots : Slots} {b : Breakpoint} (hp : Placed slots h b)
    (hhw : b.hw = true) (htype : b.type ≠ .hwScratch) :
    b.type.geHw = true ∧ b.enabled = true ∧ b.sw = false ∧ 0 < b.hwBpSlot ∧
      b.hwBpSlot < hwBreakpoints ∧ slots b.hwBpSlot = some h := by
  cases hp with
  | scratch h' => exact absurd h' htype
  | off _ _ _ h' => rw [hhw] at h'; cases h'
  | soft _ _ _ h' => rw [hhw] at h'; cases h'
  | hard hge hen hsw _ hlo hhi hslot => exact ⟨hge, hen, hsw, hlo, hhi, hslot⟩

theorem ne_scratch_of_geHw {type : BpType} (hge : type.geHw = true) : type ≠ .hwScratch := by
  rintro rfl
  cases hge

theorem Placed.scratch_of_type {slots : Slots} {b : Breakpoint} (hp : Placed slots h b)
    (htype : b.type = .hwScratch) : b.sw = false ∧ b.hw = true ∧ b.hwBpSlot = hwBpScratchSlot := by
  cases hp with
  | scratch _ hsw hhw hslot => exact ⟨hsw, hhw, hslot⟩
  | off h' => exact absurd htype h'
  | soft h' => exact absurd htype h'
  | hard h' => exact absurd htype (ne_scratch_of_geHw h')

theorem Placed.sw_of_enabled {slots : Slots} {b : Breakpoint} (hp : Placed slots h b)
    (hen : b.enabled = true) (hhw : b.hw = false) : b.sw = true := by
  cases hp with
  | scratch _ _ h' => rw [hhw] at h'; cases h'
  | off _ h' => rw [hen] at h'; cases h'
  | soft _ _ hsw => exact hsw
  | hard _ _ _ h' => rw [hhw] at h'; cases h'

theorem Placed.enabled_of_sw {slots : Slots} {b : Breakpoint} (hp : Placed slots h b)
    (hsw : b.sw = true) : b.enabled = true := by
  cases hp with
  | scratch _ h' => rw [hsw] at h'; cases h'
  | off _ _ h' => rw [hsw] at h'; cases h'
  | soft _ hen => exact hen
  | hard _ hen => exact hen

theorem Placed.not_sw_of_disabled {slots : Slots} {b : Breakpoint} (hp : Placed slots h b)
    (hen : b.enabled = false) : b.sw = false := by
  rw [← Bool.not_eq_true]
  intro hsw
  cases hen.symm.trans (hp.enabled_of_sw hsw)

/-- The form depends on a few fields only, and on the slot the breakpoint is in. -/
theorem Placed.congr {slots slots' : Slots} {b b' : Breakpoint} (hp : Placed slots h b)
    (htype : b'.type = b.type) (hen : b'.enabled = b.enabled) (hsw : b'.sw = b.sw)
    (hhw : b'.hw = b.hw) (hslot : b.type ≠ .hwScratch → b.hw = true →
      b'.hwBpSlot = b.hwBpSlot ∧ (slots b.hwBpSlot = some h → slots' b.hwBpSlot = some h))
    (hscratch : b.type = .hwScratch → b'.hwBpSlot = b.hwBpSlot) : Placed slots' h b' := by
  cases hp with
  | scratch h1 h2 h3 h4 =>
    exact .scratch (htype.trans h1) (hsw.trans h2) (hhw.trans h3) ((hscratch h1).trans h4)
  | off h1 h2 h3 h4 =>
    exact .off (htype ▸ h1) (hen.trans h2) (hsw.trans h3) (hhw.trans h4)
  | soft h1 h2 h3 h4 =>
    exact .soft (htype ▸ h1) (hen.trans h2) (hsw.trans h3) (hhw.trans h4)
  | hard h1 h2 h3 h4 hlo hhi hs =>
    obtain ⟨he, hkeep⟩ := hslot (ne_scratch_of_geHw h1) h4
    refine .hard (htype ▸ h1) (hen.trans h2) (hsw.trans h3) (hhw.trans h4) ?_ ?_ ?_
    · rw [he]; exact hlo
    · rw [he]; exact hhi
    · rw [he]; exact hkeep hs

theorem Breakpoint.over_of_sw {b : Breakpoint} (hsw : b.sw = true) (byte : UInt8) :
    b.over byte = breakInsnValue := if_pos hsw

theorem Breakpoint.over_of_not_sw {b : Breakpoint} (hsw : b.sw = false) (byte : UInt8) :
    b.over byte = byte := by
  unfold Breakpoint.over
  rw [hsw]
  rfl

/-- A breakpoint that is not in the text hides nothing. -/
theorem Transparent.text_of_not_sw (ht : Transparent orig t) (hh : h ∈ t.breakpoints)
    (hsw : (t.bp h).sw = false) : t.text (t.bp h).addr = orig (t.bp h).addr := by
  rw [ht.patched h hh, Breakpoint.over_of_not_sw hsw]

/-- A breakpoint takes another form: its own byte, its own slot and nothing else changes. -/
theorem Transparent.switch (ht : Transparent orig t) (hh : h ∈ t.breakpoints) {b : Breakpoint}
    {text : UInt64 → UInt8} {slots : Slots} {threads : List Slots}
    (haddr : b.addr = (t.bp h).addr) (htype : b.type = (t.bp h).type) (hdel : b.deleted = false)
    (htext : ∀ a, a ≠ (t.bp h).addr → text a = t.text a)
    (hat : text (t.bp h).addr = b.over (orig (t.bp h).addr))
    (hsaved : b.sw = true → b.origValue = orig (t.bp h).addr)
    (hplaced : Placed slots h b)
    (hkeep : ∀ i g, 0 < i → g ≠ h → (slots i = some g ↔ t.hwBp i = some g))
    (hown : ∀ i, 0 < i → i < hwBreakpoints → slots i = some h →
      b.type.geHw = true ∧ b.hw = true ∧ b.hwBpSlot = i)
    (hthreads : ∀ s ∈ threads, ∀ i, 0 < i → s i = slots i) :
    Transparent orig
      { t with
        text := text, bp := Function.update t.bp h b, hwBp := slots, threads := threads } := by
  have hself : Function.update t.bp h b h = b := Function.update_self h b t.bp
  have hother {g : Handle} (hg : g ≠ h) : Function.update t.bp h b g = t.bp g :=
    Function.update_of_ne hg b t.bp
  -- the address of a breakpoint does not change
  have haddrs (g : Handle) : (Function.update t.bp h b g).addr = (t.bp g).addr := by
    by_cases hg : g = h
    · rw [hg, hself, haddr]
    · rw [hother hg]
  have htypes (g : Handle) : (Function.update t.bp h b g).type = (t.bp g).type := by
    by_cases hg : g = h
    · rw [hg, hself, htype]
    · rw [hother hg]
  refine ⟨ht.fresh, ht.nodup, ?_, ?_, ?_, ?_, ?_, ?_, ?_, ?_, hthreads, ?_, ht.listNodup, ht.num⟩
  · intro g
    dsimp only
    by_cases hg : g = h
    · rw [hg, hself, hdel]
      exact ⟨fun _ => rfl, fun _ => hh⟩
    · rw [hother hg]
      exact ht.live g
  · intro g hg g' hg' heq
    dsimp only at heq
    rw [haddrs, haddrs] at heq
    exact ht.distinct g hg g' hg' heq
  · intro g hg
    dsimp only
    by_cases hgh : g = h
    · rw [hgh, hself]
      exact hplaced
    · rw [hother hgh]
      refine (ht.placed g hg).congr rfl rfl rfl rfl (fun htype hhw => ⟨rfl, ?_⟩) fun _ => rfl
      obtain ⟨-, -, -, hlo, -⟩ := (ht.placed g hg).hard_of_hw hhw htype
      exact (hkeep _ g hlo hgh).mpr
  · intro g hg
    dsimp only
    have hgh : g ≠ h := fun heq => hg (heq ▸ hh)
    rw [hother hgh]
    exact ht.dead g hg
  · intro g hg
    dsimp only
    rw [haddrs]
    by_cases hgh : g = h
    · rw [hgh, hself]
      exact hat
    · rw [hother hgh, htext]
      · exact ht.patched g hg
      · exact fun heq => hgh (ht.distinct g hg h hh heq)
  · intro g hg
    dsimp only
    rw [haddrs]
    by_cases hgh : g = h
    · rw [hgh, hself]
      exact hsaved
    · rw [hother hgh]
      exact ht.saved g hg
  · intro a ha
    have ha' : ∀ g ∈ t.breakpoints, (t.bp g).addr ≠ a := by
      intro g hg heq
      exact ha g hg ((haddrs g).trans heq)
    dsimp only
    rw [htext a (ha' h hh).symm]
    exact ht.elsewhere a ha'
  · intro i g hlo hhi hslot
    dsimp only at hslot ⊢
    by_cases hgh : g = h
    · subst hgh
      rw [hself]
      exact ⟨hh, hown i hlo hhi hslot⟩
    · rw [hother hgh]
      exact ht.slots i g hlo hhi ((hkeep i g hlo hgh).mp hslot)
  · intro g
    dsimp only
    rw [htypes]
    exact ht.list g

/-- The counters of the hits do not matter. -/
theorem Transparent.hwcnt (ht : Transparent orig t) {bp : Handle → Breakpoint}
    (hbp : ∀ h, ∃ c, bp h = (t.bp h).setHwcnt c) : Transparent orig { t with bp := bp } := by
  refine ⟨ht.fresh, ht.nodup, ?_, ?_, ?_, ?_, ?_, ?_, ?_, ?_, ht.threads, ?_, ht.listNodup,
    ht.num⟩
  · intro g
    obtain ⟨c, hc⟩ := hbp g
    dsimp only
    rw [hc]
    exact ht.live g
  · intro g hg g' hg' heq
    obtain ⟨c, hc⟩ := hbp g
    obtain ⟨c', hc'⟩ := hbp g'
    dsimp only at heq
    rw [hc, hc'] at heq
    exact ht.distinct g hg g' hg' heq
  · intro g hg
    obtain ⟨c, hc⟩ := hbp g
    dsimp only
    rw [hc]
    exact (ht.placed g hg).congr rfl rfl rfl rfl (fun _ _ => ⟨rfl, id⟩) fun _ => rfl
  · intro g hg
    obtain ⟨c, hc⟩ := hbp g
    dsimp only
    rw [hc]
    exact ht.dead g hg
  · intro g hg
    obtain ⟨c, hc⟩ := hbp g
    dsimp only
    rw [hc]
    exact ht.patched g hg
  · intro g hg
    obtain ⟨c, hc⟩ := hbp g
    dsimp only
    rw [hc]
    exact ht.saved g hg
  · intro a ha
    refine ht.elsewhere a fun g hg => ?_
    obtain ⟨c, hc⟩ := hbp g
    have hne := ha g hg
    dsimp only at hne
    rw [hc] at hne
    exact hne
  · intro i g hlo hhi hslot
    obtain ⟨c, hc⟩ := hbp g
    dsimp only
    rw [hc]
    exact ht.slots i g hlo hhi hslot
  · intro g
    obtain ⟨c, hc⟩ := hbp g
    dsimp only
    rw [hc]
    exact ht.list g

end Forms

/-! ## The parts of the operations -/

/-- Only the breakpoint `h` has changed, and not in its type. -/
structure OnlyBp (t t' : Traced) (h : Handle) : Prop where
  breakpoints : t'.breakpoints = t.breakpoints
  others : ∀ g, g ≠ h → t'.bp g = t.bp g
  type : (t'.bp h).type = (t.bp h).type

theorem OnlyBp.of_update {t t' : Traced} {h : Handle} {b : Breakpoint}
    (hbps : t'.breakpoints = t.breakpoints) (hbp : t'.bp = Function.update t.bp h b)
    (htype : b.type = (t.bp h).type) : OnlyBp t t' h := by
  refine ⟨hbps, fun g hg => ?_, ?_⟩
  · rw [hbp, Function.update_of_ne hg]
  · rw [hbp, Function.update_self]
    exact htype

theorem eachTask_eq {t : Traced} {f : Slots → Except String Slots} {g : Slots → Slots}
    (hleader : f t.hwBp = .ok (g t.hwBp)) (hthreads : ∀ s ∈ t.threads, f s = .ok (g s)) :
    t.eachTask f = .ok { t with threads := t.threads.map g, hwBp := g t.hwBp } := by
  unfold Traced.eachTask
  rw [Machine.mapM_eq_ok t.threads hthreads, hleader]
  rfl

section Parts

variable {orig : UInt64 → UInt8} {t : Traced} {h : Handle}

theorem Off.ne_scratch (ho : Off (t.bp h)) (ht : Transparent orig t) (hh : h ∈ t.breakpoints) :
    (t.bp h).type ≠ .hwScratch := (ht.placed h hh).type_ne_of_not_hw ho.hw

/-- A breakpoint that is off is in no slot. -/
theorem Off.not_in_slot (ho : Off (t.bp h)) (ht : Transparent orig t) {i : ℕ} (hlo : 0 < i)
    (hhi : i < hwBreakpoints) : t.hwBp i ≠ some h := by
  intro hi
  have hhw := (ht.slots i h hlo hhi hi).2.2.1
  rw [ho.hw] at hhw
  cases hhw

theorem disableSwBreakpoint_spec (ht : Transparent orig t) (hh : h ∈ t.breakpoints)
    (hsw : (t.bp h).sw = true) :
    ∃ t', t.disableSwBreakpoint h = .ok t' ∧ Transparent orig t' ∧ OnlyBp t t' h ∧
      Off (t'.bp h) := by
  have hhw := (ht.placed h hh).not_both hsw
  have hne := (ht.placed h hh).type_ne_of_not_hw hhw
  let b : Breakpoint := { t.bp h with sw := false, enabled := false }
  have heq : t.disableSwBreakpoint h = .ok { t with
      text := Function.update t.text (t.bp h).addr (t.bp h).origValue
      bp := Function.update t.bp h b } := by
    unfold Traced.disableSwBreakpoint
    dsimp only
    rw [hsw, hhw]
    rfl
  refine ⟨_, heq, ?_, ?_, ?_⟩
  · refine ht.switch hh rfl rfl ((ht.live h).mp hh) ?_ ?_ ?_ ?_ ?_ ?_ ht.threads
    · intro a ha
      exact Function.update_of_ne ha _ _
    · rw [Function.update_self]
      exact ht.saved h hh hsw
    · intro hsw'
      cases hsw'
    · exact .off hne rfl rfl hhw
    · intro i g _ _
      exact Iff.rfl
    · intro i hlo hhi hi
      have hhw' := (ht.slots i h hlo hhi hi).2.2.1
      rw [hhw] at hhw'
      cases hhw'
  · exact .of_update (b := b) rfl rfl rfl
  · show Off (Function.update t.bp h b h)
    rw [Function.update_self]
    exact ⟨rfl, rfl, hhw⟩

/-- A breakpoint that has left its slot goes into the text. -/
theorem arm_spec (ht : Transparent orig t) (hh : h ∈ t.breakpoints) (hsw : (t.bp h).sw = false)
    (hne : (t.bp h).type ≠ .hwScratch) {slots : Slots} {threads : List Slots}
    (hkeep : ∀ i g, 0 < i → g ≠ h → (slots i = some g ↔ t.hwBp i = some g))
    (hgone : ∀ i, 0 < i → i < hwBreakpoints → slots i ≠ some h)
    (hthreads : ∀ s ∈ threads, ∀ i, 0 < i → s i = slots i) :
    ∃ t', ({ t with threads := threads, hwBp := slots }.setBp h
        fun bp => { bp with hw := false }).enableSwBreakpoint h = .ok t' ∧
      Transparent orig t' ∧ OnlyBp t t' h ∧ t'.hwBp = slots := by
  have hbyte : t.text (t.bp h).addr = orig (t.bp h).addr := ht.text_of_not_sw hh hsw
  let b : Breakpoint := { (t.bp h).setOrigValue (t.text (t.bp h).addr) with
    hw := false
    breakInsn := breakInsnValue == t.text (t.bp h).addr
    wasHw := false
    sw := true
    enabled := true }
  have heq : ({ t with threads := threads, hwBp := slots }.setBp h
      fun bp => { bp with hw := false }).enableSwBreakpoint h =
      .ok { t with
        text := Function.update t.text (t.bp h).addr breakInsnValue
        bp := Function.update t.bp h b
        hwBp := slots
        threads := threads } := by
    unfold Traced.enableSwBreakpoint Traced.setBp
    dsimp only
    rw [Function.update_self]
    dsimp only
    rw [hsw, Function.update_idem]
    rfl
  refine ⟨_, heq, ?_, ?_, rfl⟩
  · refine ht.switch hh rfl rfl ((ht.live h).mp hh) ?_ ?_ ?_ ?_ hkeep ?_ hthreads
    · intro a ha
      exact Function.update_of_ne ha _ _
    · rw [Function.update_self]
      rfl
    · intro _
      rw [← hbyte]
      exact Breakpoint.origValue_setOrigValue _ _
    · exact .soft hne rfl rfl rfl
    · intro i hlo hhi hi
      exact absurd hi (hgone i hlo hhi)
  · exact .of_update (b := b) rfl rfl rfl

theorem enableSwBreakpoint_spec (ht : Transparent orig t) (hh : h ∈ t.breakpoints)
    (ho : Off (t.bp h)) :
    ∃ t', (t.setBp h fun bp => { bp with hw := false }).enableSwBreakpoint h = .ok t' ∧
      Transparent orig t' ∧ OnlyBp t t' h ∧ t'.hwBp = t.hwBp :=
  arm_spec ht hh ho.sw (ho.ne_scratch ht hh) (fun _ _ _ _ => Iff.rfl)
    (fun _ hlo hhi => ho.not_in_slot ht hlo hhi) ht.threads

/-- All tasks give up the slot of a breakpoint. -/
theorem eachTask_disableHwBp (ht : Transparent orig t) (hh : h ∈ t.breakpoints)
    (hhw : (t.bp h).hw = true) (hne : (t.bp h).type ≠ .hwScratch) :
    t.eachTask (Traced.disableHwBp (t.bp h) h) = .ok { t with
      threads := t.threads.map fun s => Function.update s (t.bp h).hwBpSlot none
      hwBp := Function.update t.hwBp (t.bp h).hwBpSlot none } := by
  obtain ⟨-, -, hsw, hlo, -, hslot⟩ := (ht.placed h hh).hard_of_hw hhw hne
  have hone (s : Slots) (hs : s (t.bp h).hwBpSlot = some h) :
      Traced.disableHwBp (t.bp h) h s = .ok (Function.update s (t.bp h).hwBpSlot none) := by
    unfold Traced.disableHwBp
    dsimp only
    rw [hsw, hs]
    dsimp only
    rw [beq_self_eq_true]
    rfl
  refine eachTask_eq (hone _ hslot) fun s hs => hone s ?_
  rw [ht.threads s hs _ hlo, hslot]

theorem update_slot_iff {slots : Slots} {i j : ℕ} {g : Handle} (hi : slots i = some h)
    (hg : g ≠ h) : Function.update slots i none j = some g ↔ slots j = some g := by
  by_cases hj : j = i
  · rw [hj, Function.update_self, hi]
    constructor
    · intro hnone
      cases hnone
    · intro heq
      exact absurd (Option.some.inj heq).symm hg
  · rw [Function.update_of_ne hj]

/-- Without its slot a breakpoint is in none. -/
theorem slot_gone (ht : Transparent orig t) {i : ℕ} (hlo : 0 < i) (hhi : i < hwBreakpoints) :
    Function.update t.hwBp (t.bp h).hwBpSlot none i ≠ some h := by
  intro hi
  by_cases heq : i = (t.bp h).hwBpSlot
  · rw [heq, Function.update_self] at hi
    cases hi
  · rw [Function.update_of_ne heq] at hi
    exact heq (ht.slots i h hlo hhi hi).2.2.2.symm

theorem threads_update {s : Slots} {slots : Slots} {threads : List Slots} {i : ℕ}
    {v : Option Handle} (hth : ∀ s ∈ threads, ∀ j, 0 < j → s j = slots j)
    (hs : s ∈ threads.map fun s => Function.update s i v) (j : ℕ) (hj : 0 < j) :
    s j = Function.update slots i v j := by
  obtain ⟨s0, hs0, rfl⟩ := List.mem_map.mp hs
  by_cases heq : j = i
  · rw [heq, Function.update_self, Function.update_self]
  · rw [Function.update_of_ne heq, Function.update_of_ne heq, hth s0 hs0 j hj]

theorem hw2swBp_spec (ht : Transparent orig t) (hh : h ∈ t.breakpoints)
    (hhw : (t.bp h).hw = true) (hne : (t.bp h).type ≠ .hwScratch) :
    ∃ t', t.hw2swBp h = .ok t' ∧ Transparent orig t' ∧ OnlyBp t t' h ∧
      t'.hwBp = Function.update t.hwBp (t.bp h).hwBpSlot none := by
  obtain ⟨-, -, hsw, -, -, hslot⟩ := (ht.placed h hh).hard_of_hw hhw hne
  unfold Traced.hw2swBp
  rw [eachTask_disableHwBp ht hh hhw hne]
  exact arm_spec ht hh hsw hne (fun _ _ _ hg => update_slot_iff hslot hg)
    (fun _ hlo hhi => slot_gone ht hlo hhi) (fun _ hs => threads_update ht.threads hs)

theorem takeSlot_spec (ht : Transparent orig t) (hh : h ∈ t.breakpoints) (ho : Off (t.bp h))
    (hge : (t.bp h).type.geHw = true) {i : ℕ} (hlo : 0 < i) (hhi : i < hwBreakpoints)
    (hfree : t.hwBp i = none) :
    ∃ t', t.takeSlot h i = .ok t' ∧ Transparent orig t' ∧ OnlyBp t t' h := by
  let b : Breakpoint :=
    { (t.bp h).setHwBpSlot i with enabled := true, hw := true, wasHw := true }
  have hslot : b.hwBpSlot = i := Breakpoint.hwBpSlot_setHwBpSlot (t.bp h) hhi
  have hbp : (t.setBp h fun bp =>
      { bp.setHwBpSlot i with enabled := true, hw := true, wasHw := true }).bp h = b :=
    Function.update_self _ _ _
  have hone (s : Slots) (hs : s i = none) :
      Traced.enableHwBp b h s = .ok (Function.update s i (some h)) := by
    have htype : (b.type != .sw) = true := by
      show ((t.bp h).type != .sw) = true
      rw [bne_iff_ne]
      rintro heq
      rw [heq] at hge
      cases hge
    have hsw : b.sw = false := ho.sw
    have hnone : (s i == none) = true := by rw [hs]; rfl
    unfold Traced.enableHwBp
    dsimp only
    rw [hslot, htype, hsw, hnone, Bool.or_true]
    rfl
  have heq : t.takeSlot h i = .ok { t with
      bp := Function.update t.bp h b
      threads := t.threads.map fun s => Function.update s i (some h)
      hwBp := Function.update t.hwBp i (some h) } := by
    unfold Traced.takeSlot
    dsimp only
    rw [hbp]
    refine eachTask_eq (hone _ hfree) fun s hs => hone s ?_
    exact (ht.threads s hs i hlo).trans hfree
  refine ⟨_, heq, ?_, ?_⟩
  · refine ht.switch hh rfl rfl ((ht.live h).mp hh) (fun _ _ => rfl) ?_ ?_ ?_ ?_ ?_ ?_
    · rw [ht.text_of_not_sw hh ho.sw]
      exact (Breakpoint.over_of_not_sw ho.sw _).symm
    · intro hsw
      exact absurd (ho.sw.symm.trans hsw) (by decide)
    · refine .hard hge rfl ho.sw rfl (by rw [hslot]; exact hlo) (by rw [hslot]; exact hhi) ?_
      rw [hslot, Function.update_self]
    · intro j g _ hg
      by_cases hj : j = i
      · rw [hj, Function.update_self, hfree]
        constructor
        · intro heq
          exact absurd (Option.some.inj heq).symm hg
        · intro hnone
          cases hnone
      · rw [Function.update_of_ne hj]
    · intro j hjlo hjhi hj
      by_cases hji : j = i
      · exact ⟨hge, rfl, hslot.trans hji.symm⟩
      · rw [Function.update_of_ne hji] at hj
        exact absurd hj (ho.not_in_slot ht hjlo hjhi)
    · exact fun _ hs => threads_update ht.threads hs
  · exact .of_update (b := b) rfl rfl rfl

end Parts

/-! ## The slots -/

section Slots

variable {orig : UInt64 → UInt8} {t : Traced} {h : Handle}

theorem evict_spec (ht : Transparent orig t) {i : ℕ} (hlo : 0 < i) (hhi : i < hwBreakpoints) :
    ∃ t', t.evict i = .ok t' ∧ Transparent orig t' ∧ t'.breakpoints = t.breakpoints ∧
      t'.hwBp i = none ∧ ∀ g, (t.bp g).hw = false → t'.bp g = t.bp g := by
  unfold Traced.evict
  rcases hslot : t.hwBp i with _ | g
  · exact ⟨t, rfl, ht, rfl, hslot, fun _ _ => rfl⟩
  · obtain ⟨hg, hge, hhw, hi⟩ := ht.slots i g hlo hhi hslot
    obtain ⟨t', heq, ht', honly, hslots⟩ := hw2swBp_spec ht hg hhw (ne_scratch_of_geHw hge)
    refine ⟨t', heq, ht', honly.breakpoints, ?_, ?_⟩
    · rw [hslots, hi, Function.update_self]
    · intro g' hg'
      refine honly.others g' ?_
      rintro rfl
      rw [hhw] at hg'
      cases hg'

/-- The slot that `insert_hw_bp_slot` finds is free. -/
theorem findSlot_spec (ht : Transparent orig t) (ho : Off (t.bp h)) (fuel i : ℕ) (hlo : 0 < i)
    (hfuel : i + fuel ≤ hwBreakpoints) :
    ∃ r, Traced.findSlot h fuel i t = .ok r ∧ ∀ t' j, r = some (t', j) →
      Transparent orig t' ∧ t'.breakpoints = t.breakpoints ∧ t'.bp h = t.bp h ∧ 0 < j ∧
        j < hwBreakpoints ∧ t'.hwBp j = none := by
  induction fuel generalizing i with
  | zero => exact ⟨none, rfl, fun t' j hr => (by cases hr)⟩
  | succ fuel ih =>
    have hhi : i < hwBreakpoints := by omega
    rw [Traced.findSlot]
    rcases hslot : t.hwBp i with _ | g
    · refine ⟨_, rfl, ?_⟩
      intro t' j hr
      cases hr
      exact ⟨ht, rfl, rfl, hlo, hhi, hslot⟩
    · dsimp only
      by_cases htype : (t.bp h).type = .hw ∧ (t.bp g).type = .auto
      · rw [if_pos htype]
        obtain ⟨t1, heq, ht1, hbps, hfree, hkeep⟩ := evict_spec ht hlo hhi
        unfold Traced.evict at heq
        rw [hslot] at heq
        dsimp only at heq
        rw [heq]
        refine ⟨_, rfl, ?_⟩
        intro t' j hr
        cases hr
        exact ⟨ht1, hbps, hkeep h ho.hw, hlo, hhi, hfree⟩
      · rw [if_neg htype]
        exact ih (i + 1) (by omega) (by omega)

theorem Off.of_eq {b b' : Breakpoint} (h : b' = b) (ho : Off b) : Off b' := h ▸ ho

theorem setHwcnt_spec (ht : Transparent orig t) (f : Breakpoint → UInt32) :
    Transparent orig (t.setBp h fun bp => bp.setHwcnt (f bp)) := by
  refine ht.hwcnt ?_
  intro g
  by_cases hg : g = h
  · rw [hg, Function.update_self]
    exact ⟨_, rfl⟩
  · rw [Function.update_of_ne hg]
    exact ⟨(t.bp g).hwcnt, rfl⟩

theorem insertHwBpSlot_spec (ht : Transparent orig t) (hh : h ∈ t.breakpoints)
    (ho : Off (t.bp h)) (hge : (t.bp h).type.geHw = true) :
    ∃ r, t.insertHwBpSlot h = .ok r ∧ ∀ t', r = some t' → Transparent orig t' := by
  obtain ⟨r, heq, hr⟩ := findSlot_spec ht ho (hwBreakpoints - 1) (hwBpScratchSlot + 1)
    (by decide) (by decide)
  unfold Traced.insertHwBpSlot
  rw [heq]
  rcases r with _ | ⟨t1, i⟩
  · exact ⟨none, rfl, fun t' h' => (by cases h')⟩
  · obtain ⟨ht1, hbps, hbp, hlo, hhi, hfree⟩ := hr t1 i rfl
    have hself : (t1.setBp h (·.setHwcnt 0)).bp h = (t.bp h).setHwcnt 0 := by
      show Function.update t1.bp h _ h = _
      rw [Function.update_self, hbp]
    have ho2 : Off ((t1.setBp h (·.setHwcnt 0)).bp h) := by
      rw [hself]
      exact ⟨ho.enabled, ho.sw, ho.hw⟩
    obtain ⟨t2, heq2, ht2, -⟩ := takeSlot_spec (setHwcnt_spec ht1 fun _ => 0) (hbps ▸ hh) ho2
      (by rw [hself]; exact hge) hlo hhi hfree
    refine ⟨some t2, ?_, ?_⟩
    · dsimp only [bind, Except.bind]
      rw [heq2]
      rfl
    · intro t' h'
      cases h'
      exact ht2

end Slots

/-! ## The operations -/

section Operations

variable {orig : UInt64 → UInt8} {t : Traced} {h : Handle}

theorem Transparent.off_of_disabled (ht : Transparent orig t) (hh : h ∈ t.breakpoints)
    (hscratch : (t.bp h).type ≠ .hwScratch) (hen : (t.bp h).enabled = false) : Off (t.bp h) := by
  cases ht.placed h hh with
  | scratch htype => exact absurd htype hscratch
  | off _ h1 h2 h3 => exact ⟨h1, h2, h3⟩
  | soft _ h1 => rw [hen] at h1; cases h1
  | hard _ h1 => rw [hen] at h1; cases h1

theorem breakpointEnable_spec (ht : Transparent orig t) (h : Handle) :
    ∃ t', t.breakpointEnable h = .ok t' ∧ Transparent orig t' := by
  unfold Traced.breakpointEnable
  by_cases hskip : ((t.bp h).deleted || (t.bp h).enabled) = true
  · rw [if_pos hskip]
    exact ⟨t, rfl, ht⟩
  · rw [if_neg hskip]
    simp only [Bool.or_eq_true, not_or, Bool.not_eq_true] at hskip
    obtain ⟨hdel, hen⟩ := hskip
    have hh : h ∈ t.breakpoints := (ht.live h).mpr hdel
    by_cases hscratch : (t.bp h).type = .hwScratch
    · rw [if_pos hscratch]
      refine ⟨_, rfl, ?_⟩
      obtain ⟨hsw, hhw, hslot⟩ := (ht.placed h hh).scratch_of_type hscratch
      refine ht.switch hh rfl rfl hdel (fun _ _ => rfl) (ht.patched h hh) ?_
        (.scratch hscratch hsw hhw hslot) (fun _ _ _ _ => Iff.rfl) ?_ ht.threads
      · exact ht.saved h hh
      · intro i hlo hhi hi
        exact (ht.slots i h hlo hhi hi).2
    · rw [if_neg hscratch]
      have ho : Off (t.bp h) := ht.off_of_disabled hh hscratch hen
      obtain ⟨t', heq, ht', -⟩ := enableSwBreakpoint_spec ht hh ho
      by_cases hge : (t.bp h).type.geHw = true
      · rw [if_pos hge]
        obtain ⟨r, hr, hspec⟩ := insertHwBpSlot_spec ht hh ho hge
        rw [hr]
        rcases r with _ | t1
        · exact ⟨t', heq, ht'⟩
        · exact ⟨t1, rfl, hspec t1 rfl⟩
      · rw [if_neg hge]
        exact ⟨t', heq, ht'⟩

theorem removeHwScratchBp_eq {b : Breakpoint} (hsw : b.sw = false)
    (hslot : b.hwBpSlot = hwBpScratchSlot) (h : Handle) (s : Slots) :
    Traced.removeHwScratchBp b h s =
      .ok (if s hwBpScratchSlot = some h then Function.update s hwBpScratchSlot none else s) := by
  unfold Traced.removeHwScratchBp Traced.disableHwBp
  dsimp only
  by_cases hs : s hwBpScratchSlot = some h
  · rw [if_pos hs, if_pos hs, hslot, hsw, hs]
    dsimp only
    rw [beq_self_eq_true, beq_self_eq_true]
    rfl
  · rw [if_neg hs, if_neg hs]

/-- All tasks give up a scratch breakpoint; the other slots stay. -/
theorem eachTask_removeHwScratchBp (hsw : (t.bp h).sw = false)
    (hslot : (t.bp h).hwBpSlot = hwBpScratchSlot) :
    ∃ slots threads, t.eachTask (Traced.removeHwScratchBp (t.bp h) h) =
        .ok { t with threads := threads, hwBp := slots } ∧
      (∀ i, 0 < i → slots i = t.hwBp i) ∧
      ∀ s ∈ threads, ∃ s0 ∈ t.threads, ∀ i, 0 < i → s i = s0 i := by
  let f : Slots → Slots := fun s =>
    if s hwBpScratchSlot = some h then Function.update s hwBpScratchSlot none else s
  have hone (s : Slots) : Traced.removeHwScratchBp (t.bp h) h s = .ok (f s) :=
    removeHwScratchBp_eq hsw hslot h s
  have hkeep (s : Slots) (i : ℕ) (hi : 0 < i) : f s i = s i := by
    dsimp only [f]
    split
    · exact Function.update_of_ne hi.ne' _ _
    · rfl
  refine ⟨f t.hwBp, t.threads.map f, eachTask_eq (hone _) (fun s _ => hone s), hkeep t.hwBp, ?_⟩
  intro s hs
  obtain ⟨s0, hs0, rfl⟩ := List.mem_map.mp hs
  exact ⟨s0, hs0, hkeep s0⟩

theorem breakpointDisable_spec (ht : Transparent orig t) (h : Handle) :
    ∃ t', t.breakpointDisable h = .ok t' ∧ Transparent orig t' ∧ OnlyBp t t' h ∧
      (h ∈ t.breakpoints → (t'.bp h).enabled = false) := by
  unfold Traced.breakpointDisable
  by_cases hskip : ((t.bp h).deleted || !(t.bp h).enabled) = true
  · rw [if_pos hskip]
    refine ⟨t, rfl, ht, ⟨rfl, fun _ _ => rfl, rfl⟩, ?_⟩
    intro hh
    rw [(ht.live h).mp hh, Bool.false_or, Bool.not_eq_true'] at hskip
    exact hskip
  · rw [if_neg hskip]
    simp only [Bool.or_eq_true, not_or, Bool.not_eq_true, Bool.not_eq_false'] at hskip
    obtain ⟨hdel, hen⟩ := hskip
    have hh : h ∈ t.breakpoints := (ht.live h).mpr hdel
    by_cases hhw : (t.bp h).hw = true
    · rw [if_pos hhw]
      by_cases hne : (t.bp h).type ≠ .hwScratch
      · rw [if_pos hne]
        obtain ⟨hge, -, hsw, hlo, -, hslot⟩ := (ht.placed h hh).hard_of_hw hhw hne
        have hcheck : ((t.bp h).hwBpSlot != hwBpScratchSlot) = true := by
          rw [bne_iff_ne]
          exact hlo.ne'
        rw [hcheck, eachTask_disableHwBp ht hh hhw hne]
        refine ⟨_, rfl, ?_, .of_update rfl rfl rfl, fun _ => ?_⟩
        · refine ht.switch hh rfl rfl hdel (fun _ _ => rfl) (ht.patched h hh) (ht.saved h hh)
            (.off hne rfl hsw rfl) (fun _ _ _ hg => update_slot_iff hslot hg) ?_
            (fun _ hs => threads_update ht.threads hs)
          intro i hlo hhi hi
          exact absurd hi (slot_gone ht hlo hhi)
        · show (Function.update t.bp h _ h).enabled = _
          rw [Function.update_self]
      · rw [if_neg hne]
        rw [not_not] at hne
        obtain ⟨hsw, -, hslot⟩ := (ht.placed h hh).scratch_of_type hne
        obtain ⟨slots, threads, heq, hslots, hthreads⟩ := eachTask_removeHwScratchBp hsw hslot
        have hcheck : ((t.bp h).hwBpSlot == hwBpScratchSlot) = true := by
          rw [beq_iff_eq]
          exact hslot
        rw [hcheck, heq]
        refine ⟨_, rfl, ?_, .of_update rfl rfl rfl, fun _ => ?_⟩
        · refine ht.switch hh rfl rfl hdel (fun _ _ => rfl) (ht.patched h hh) (ht.saved h hh)
            (.scratch hne hsw hhw hslot) ?_ ?_ ?_
          · intro i g hlo _
            dsimp only
            rw [hslots i hlo]
          · intro i hlo hhi hi
            exact (ht.slots i h hlo hhi ((hslots i hlo).symm.trans hi)).2
          · intro s hs i hlo
            obtain ⟨s0, hs0, hsame⟩ := hthreads s hs
            dsimp only
            rw [hsame i hlo, ht.threads s0 hs0 i hlo, hslots i hlo]
        · show (Function.update t.bp h _ h).enabled = _
          rw [Function.update_self]
    · rw [if_neg hhw]
      rw [Bool.not_eq_true] at hhw
      have hsw : (t.bp h).sw = true := (ht.placed h hh).sw_of_enabled hen hhw
      obtain ⟨t', heq, ht', honly, hoff⟩ := disableSwBreakpoint_spec ht hh hsw
      exact ⟨t', heq, ht', honly, fun _ => hoff.enabled⟩

theorem breakpointFind_eq_none {addr : UInt64} (h : t.breakpointFind addr = none) :
    ∀ g ∈ t.breakpoints, (t.bp g).addr ≠ addr := by
  intro g hg heq
  have hnot := List.find?_eq_none.mp h g hg
  rw [heq, decide_eq_true rfl] at hnot
  exact hnot rfl

/-- The structure of a new breakpoint has a form in any slots. -/
theorem newBreakpoint_placed (nohwbp : Bool) (addr : UInt64) (type : BpType) (garbage : UInt32)
    (slots : Slots) (h : Handle) :
    Placed slots h (Traced.newBreakpoint nohwbp addr type garbage) ∧
      (Traced.newBreakpoint nohwbp addr type garbage).addr = addr ∧
      (Traced.newBreakpoint nohwbp addr type garbage).deleted = false ∧
      (Traced.newBreakpoint nohwbp addr type garbage).sw = false := by
  unfold Traced.newBreakpoint
  by_cases hs : (if nohwbp then BpType.sw else type) = .hwScratch
  · dsimp only
    rw [if_pos hs]
    exact ⟨.scratch hs rfl rfl rfl, rfl, rfl, rfl⟩
  · dsimp only
    rw [if_neg hs]
    exact ⟨.off hs rfl rfl rfl, rfl, rfl, rfl⟩

theorem breakpointNew_spec (ht : Transparent orig t) (nohwbp : Bool) {addr : UInt64}
    (type : BpType) (garbage : UInt32) (hfree : ∀ g ∈ t.breakpoints, (t.bp g).addr ≠ addr) :
    Transparent orig (t.breakpointNew nohwbp addr type garbage) := by
  obtain ⟨hplaced, haddr, hdel, hsw⟩ :=
    newBreakpoint_placed nohwbp addr type garbage t.hwBp t.next
  unfold Traced.breakpointNew
  generalize Traced.newBreakpoint nohwbp addr type garbage = b at *
  dsimp only
  have hself : Function.update t.bp t.next b t.next = b := Function.update_self _ _ _
  have hother {g : Handle} (hg : g ∈ t.breakpoints) : Function.update t.bp t.next b g = t.bp g :=
    Function.update_of_ne (ht.fresh g hg).ne b t.bp
  have hnew : t.next ∉ t.breakpoints := fun h => (ht.fresh _ h).false
  have hmem {g : Handle} : g ∈ t.breakpoints ++ [t.next] ↔ g ∈ t.breakpoints ∨ g = t.next := by
    rw [List.mem_append, List.mem_singleton]
  have hnext : t.next ∉ t.hwBpList := fun h => hnew ((ht.list _).mp h).1
  refine ⟨?_, ?_, ?_, ?_, ?_, ?_, ?_, ?_, ?_, ?_, ht.threads, ?_, ?_, ?_⟩
  all_goals dsimp only
  · intro g hg
    rcases hmem.mp hg with hg | rfl
    · exact (ht.fresh g hg).trans (Nat.lt_succ_self _)
    · exact Nat.lt_succ_self _
  · rw [← List.concat_eq_append]
    exact ht.nodup.concat hnew
  · intro g
    rw [hmem]
    by_cases hg : g = t.next
    · rw [hg, hself, hdel]
      exact ⟨fun _ => rfl, fun _ => .inr rfl⟩
    · rw [Function.update_of_ne hg, ← ht.live g]
      exact or_iff_left hg
  · intro g hg g' hg' heq
    rcases hmem.mp hg with hg | rfl <;> rcases hmem.mp hg' with hg' | rfl
    · rw [hother hg, hother hg'] at heq
      exact ht.distinct g hg g' hg' heq
    · rw [hother hg, hself, haddr] at heq
      exact absurd heq (hfree g hg)
    · rw [hother hg', hself, haddr] at heq
      exact absurd heq.symm (hfree g' hg')
    · rfl
  · intro g hg
    rcases hmem.mp hg with hg | rfl
    · rw [hother hg]
      exact ht.placed g hg
    · rw [hself]
      exact hplaced
  · intro g hg
    rw [hmem, not_or] at hg
    rw [Function.update_of_ne hg.2]
    exact ht.dead g hg.1
  · intro g hg
    rcases hmem.mp hg with hg | rfl
    · rw [hother hg]
      exact ht.patched g hg
    · rw [hself, haddr, ht.elsewhere addr hfree, Breakpoint.over_of_not_sw hsw]
  · intro g hg
    rcases hmem.mp hg with hg | rfl
    · rw [hother hg]
      exact ht.saved g hg
    · rw [hself, hsw]
      intro h
      cases h
  · intro a ha
    refine ht.elsewhere a fun g hg => ?_
    have hne := ha g (hmem.mpr (.inl hg))
    rw [hother hg] at hne
    exact hne
  · intro i g hlo hhi hi
    have hg := ht.slots i g hlo hhi hi
    rw [hother hg.1]
    exact ⟨hmem.mpr (.inl hg.1), hg.2⟩
  · intro g
    rw [hmem]
    by_cases hg : g = t.next
    · rw [hg, hself]
      by_cases hge : b.type.geHw = true
      · simp [hge]
      · simp [hge, hnext]
    · have hlist : g ∈ (if b.type.geHw then t.hwBpList ++ [t.next] else t.hwBpList) ↔
          g ∈ t.hwBpList := by
        split
        · simp [hg]
        · exact Iff.rfl
      rw [hlist, Function.update_of_ne hg, or_iff_left hg]
      exact ht.list g
  · split
    · rw [← List.concat_eq_append]
      exact ht.listNodup.concat hnext
    · exact ht.listNodup
  · split
    · rw [List.length_append, ht.num]
      rfl
    · exact ht.num

theorem breakpointInsert_spec (ht : Transparent orig t) (nohwbp : Bool) (addr : UInt64)
    (type : BpType) (garbage : UInt32) :
    ∃ t', t.breakpointInsert nohwbp addr type garbage = .ok t' ∧ Transparent orig t' := by
  unfold Traced.breakpointInsert
  split
  · exact ⟨t, rfl, ht⟩
  · rcases hfind : t.breakpointFind addr with _ | g
    · exact breakpointEnable_spec
        (breakpointNew_spec ht nohwbp type garbage (breakpointFind_eq_none hfind)) t.next
    · exact breakpointEnable_spec ht g

/-- A breakpoint that is disabled can be taken out. -/
theorem Transparent.remove (ht : Transparent orig t) (hh : h ∈ t.breakpoints)
    (hen : (t.bp h).enabled = false) {list : List Handle} {num : ℕ}
    (hlist : ∀ g, g ∈ list ↔ g ∈ t.hwBpList ∧ g ≠ h) (hnodup : list.Nodup)
    (hnum : num = list.length) :
    Transparent orig ({ t with
        breakpoints := t.breakpoints.erase h
        hwBpList := list
        hwBpNum := num }.setBp h fun bp => { bp with deleted := true }) := by
  have hsw : (t.bp h).sw = false := (ht.placed h hh).not_sw_of_disabled hen
  have hmem {g : Handle} : g ∈ t.breakpoints.erase h ↔ g ∈ t.breakpoints ∧ g ≠ h := by
    rw [ht.nodup.mem_erase_iff, and_comm]
  unfold Traced.setBp
  dsimp only
  have hother {g : Handle} (hg : g ≠ h) (b : Breakpoint) : Function.update t.bp h b g = t.bp g :=
    Function.update_of_ne hg b t.bp
  refine ⟨?_, ht.nodup.erase h, ?_, ?_, ?_, ?_, ?_, ?_, ?_, ?_, ht.threads, ?_, hnodup, hnum⟩
  all_goals dsimp only
  · intro g hg
    exact ht.fresh g (hmem.mp hg).1
  · intro g
    rw [hmem]
    by_cases hg : g = h
    · rw [hg, Function.update_self]
      simp
    · rw [hother hg, and_iff_left hg]
      exact ht.live g
  · intro g hg g' hg' heq
    rw [hother (hmem.mp hg).2, hother (hmem.mp hg').2] at heq
    exact ht.distinct g (hmem.mp hg).1 g' (hmem.mp hg').1 heq
  · intro g hg
    rw [hother (hmem.mp hg).2]
    exact ht.placed g (hmem.mp hg).1
  · intro g hg
    by_cases hgh : g = h
    · rw [hgh, Function.update_self]
      exact hsw
    · rw [hother hgh]
      exact ht.dead g fun hg' => hg (hmem.mpr ⟨hg', hgh⟩)
  · intro g hg
    rw [hother (hmem.mp hg).2]
    exact ht.patched g (hmem.mp hg).1
  · intro g hg
    rw [hother (hmem.mp hg).2]
    exact ht.saved g (hmem.mp hg).1
  · intro a ha
    by_cases hah : (t.bp h).addr = a
    · -- the address of the breakpoint itself has its byte back
      rw [← hah]
      exact ht.text_of_not_sw hh hsw
    · refine ht.elsewhere a fun g hg => ?_
      by_cases hgh : g = h
      · rw [hgh]
        exact hah
      · have hne := ha g (hmem.mpr ⟨hg, hgh⟩)
        rw [hother hgh] at hne
        exact hne
  · intro i g hlo hhi hi
    obtain ⟨hg, hge, hhw, hslot⟩ := ht.slots i g hlo hhi hi
    have hgh : g ≠ h := by
      rintro rfl
      have hgen := ((ht.placed g hh).hard_of_hw hhw (ne_scratch_of_geHw hge)).2.1
      rw [hen] at hgen
      cases hgen
    rw [hother hgh]
    exact ⟨hmem.mpr ⟨hg, hgh⟩, hge, hhw, hslot⟩
  · intro g
    rw [hlist, hmem, ht.list]
    by_cases hg : g = h
    · simp [hg]
    · rw [hother hg]
      simp [hg]

theorem breakpointDelete_spec (ht : Transparent orig t) (h : Handle) :
    ∃ t', t.breakpointDelete h = .ok t' ∧ Transparent orig t' := by
  unfold Traced.breakpointDelete
  by_cases hdel : (t.bp h).deleted = true
  · rw [if_pos hdel]
    exact ⟨t, rfl, ht⟩
  · rw [if_neg hdel]
    rw [Bool.not_eq_true] at hdel
    have hh : h ∈ t.breakpoints := (ht.live h).mpr hdel
    obtain ⟨t1, heq, ht1, honly, hoff⟩ := breakpointDisable_spec ht h
    have hh1 : h ∈ t1.breakpoints := honly.breakpoints ▸ hh
    rw [heq]
    refine ⟨_, rfl, ?_⟩
    by_cases hge : (t1.bp h).type.geHw = true
    · rw [if_pos hge]
      refine ht1.remove hh1 (hoff hh) ?_ (ht1.listNodup.erase h) ?_
      · intro g
        rw [ht1.listNodup.mem_erase_iff, and_comm]
      · rw [List.length_erase_of_mem ((ht1.list h).mpr ⟨hh1, hge⟩), ht1.num]
    · rw [if_neg hge]
      refine ht1.remove hh1 (hoff hh) ?_ ht1.listNodup ht1.num
      intro g
      refine ⟨fun hg => ⟨hg, ?_⟩, fun hg => hg.1⟩
      rintro rfl
      exact hge ((ht1.list g).mp hg).2

theorem skipBreakpoint_spec (ht : Transparent orig t) (h : Handle) :
    ∃ t', t.skipBreakpoint h = .ok t' ∧ Transparent orig t' := by
  unfold Traced.skipBreakpoint
  split
  · obtain ⟨t1, heq, ht1, -⟩ := breakpointDisable_spec ht h
    rw [heq]
    exact breakpointEnable_spec ht1 h
  · exact ⟨t, rfl, ht⟩

/-- Disabling every breakpoint, in any order, leaves the text as it was. -/
theorem breakpointDisableAll_spec (order : List Handle) (ht : Transparent orig t) :
    ∃ t', t.breakpointDisableAll order = .ok t' ∧ Transparent orig t' ∧
      t'.breakpoints = t.breakpoints ∧
      (∀ g ∉ order, t'.bp g = t.bp g) ∧
      ∀ g ∈ t.breakpoints, g ∈ order ∨ (t.bp g).enabled = false → (t'.bp g).enabled = false := by
  induction order generalizing t with
  | nil => exact ⟨t, rfl, ht, rfl, fun _ _ => rfl, fun g _ hg => hg.resolve_left List.not_mem_nil⟩
  | cons h order ih =>
    obtain ⟨t1, heq1, ht1, honly, hoff⟩ := breakpointDisable_spec ht h
    obtain ⟨t2, heq2, ht2, hbps, hkeep, hall⟩ := ih ht1
    refine ⟨t2, ?_, ht2, hbps.trans honly.breakpoints, ?_, ?_⟩
    · unfold Traced.breakpointDisableAll at heq2 ⊢
      rw [List.foldlM_cons, heq1]
      exact heq2
    · intro g hg
      rw [List.mem_cons, not_or] at hg
      rw [hkeep g hg.2, honly.others g hg.1]
    · intro g hg hor
      have hg1 : g ∈ t1.breakpoints := honly.breakpoints ▸ hg
      by_cases hgh : g = h
      · subst hgh
        exact hall g hg1 (.inr (hoff hg))
      · refine hall g hg1 ?_
        rw [honly.others g hgh]
        rcases hor with hor | hor
        · exact .inl ((List.mem_cons.mp hor).resolve_left hgh)
        · exact .inr hor

theorem text_eq_of_disabled (ht : Transparent orig t)
    (hoff : ∀ g ∈ t.breakpoints, (t.bp g).enabled = false) : t.text = orig := by
  funext a
  by_cases ha : ∃ g ∈ t.breakpoints, (t.bp g).addr = a
  · obtain ⟨g, hg, rfl⟩ := ha
    exact ht.text_of_not_sw hg ((ht.placed g hg).not_sw_of_disabled (hoff g hg))
  · exact ht.elsewhere a fun g hg heq => ha ⟨g, hg, heq⟩

end Operations

end Mtrace.Server
