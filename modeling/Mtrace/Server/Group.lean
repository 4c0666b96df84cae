import Mtrace.Server.Reorder

/-!
# Hardware slots of a thread group

A thread is in the list of its leader as soon as `task_new` returns, with empty slots, and gets the
breakpoints of the leader when its clone event is handled, by `breakpoint_hw_clone`.  Until then all
that is done to the slots of the group is done to its slots too.

The leader alone does what `Transparent` says of it; the threads follow (`Tracks`), a new one with
slots that are empty or those of the leader.
-/

namespace Mtrace.Server

/-- A process whose threads join while it is traced; `isNew` says of each thread in turn whether its
clone event is still to be handled. -/
structure Group where
  traced : Traced
  isNew : List Bool

/-- A round of the loop of `breakpoint_hw_clone`. -/
def hwCloneSlot (leader : Traced) (slots : Slots) (i : ℕ) : Except String Slots :=
  match leader.hwBp i with
  | none => do
    check (slots i == none) "task->hw_bp[i] == NULL"
    return slots
  | some h => do
    check (leader.bp h).enabled "leader->hw_bp[i]->enabled"
    check ((leader.bp h).hwBpSlot == i) "leader->hw_bp[i]->hw_bp_slot == i"
    Traced.enableHwBp (leader.bp h) h slots

/-- `breakpoint_hw_clone` for a thread that is not the leader. -/
def breakpointHwClone (leader : Traced) (slots : Slots) : Except String Slots :=
  (List.range' (hwBpScratchSlot + 1) (hwBreakpoints - 1)).foldlM (hwCloneSlot leader) slots

/-- What happens to the slots of a group, in any order. -/
inductive GroupOp where
  /-- `task_new` for another thread of the group. -/
  | join
  /-- An operation on the breakpoints of the group. -/
  | op (op : BpOp)
  /-- `do_clone` for the thread of this number, if it is new. -/
  | clone (i : ℕ)

namespace Group

def start (text : UInt64 → UInt8) (threads : ℕ) : Group :=
  ⟨.start text threads, List.replicate threads false⟩

def step (qsort : (Handle → Handle → ℤ) → List Handle → List Handle) (nohwbp : Bool) (g : Group) :
    GroupOp → Except String Group
  | .join =>
    .ok ⟨{ g.traced with threads := g.traced.threads ++ [fun _ => none] }, g.isNew ++ [true]⟩
  | .op op => do
    let traced ← g.traced.step qsort nohwbp op
    return { g with traced }
  | .clone i =>
    match g.traced.threads[i]?, g.isNew[i]? with
    | some slots, some true => do
      let slots ← breakpointHwClone g.traced slots
      return ⟨{ g.traced with threads := g.traced.threads.set i slots }, g.isNew.set i false⟩
    | _, _ => .ok g

/-- Every thread whose clone event was handled holds the breakpoints of the leader. -/
def Consistent (g : Group) : Prop :=
  ∀ (i : ℕ) (slots : Slots), g.traced.threads[i]? = some slots → g.isNew[i]? = some false →
    ∀ j, 0 < j → j < hwBreakpoints → slots j = g.traced.hwBp j

/-- A new thread is cloned with its slots as it joined, or emptied again since. -/
def Unfilled (g : Group) : GroupOp → Prop
  | .clone i => ∀ slots : Slots, g.traced.threads[i]? = some slots → g.isNew[i]? = some true →
      ∀ j, 0 < j → j < hwBreakpoints → slots j = none
  | _ => True

end Group

theorem check_bind_eq_ok {α : Type} {holds : Bool} {expr : String} {f : Unit → Except String α}
    {a : α} : (check holds expr >>= f) = .ok a ↔ holds = true ∧ f () = .ok a := by
  unfold check
  cases holds with
  | false => exact ⟨fun h => (by cases h), fun h => (by cases h.1)⟩
  | true => exact ⟨fun h => ⟨rfl, h⟩, fun h => h.2⟩

/-! ## Threads behind their leader -/

/-- The slots of a thread beside those of its leader. -/
def Follows (leader slots : Slots) (isNew : Bool) : Prop :=
  ∀ i, 0 < i → slots i = leader i ∨ (slots i = none ∧ (isNew = true ∨ hwBreakpoints ≤ i))

/-- The group `t` beside its leader alone. -/
structure Tracks (isNew : List Bool) (lead t : Traced) : Prop where
  alone : lead.threads = []
  eq : t = { lead with threads := t.threads }
  follows : List.Forall₂ (Follows lead.hwBp) t.threads isNew

/-- When the first computation returns, so does the second, with a related value. -/
def Keeps {α : Type} (R : α → α → Prop) (x y : Except String α) : Prop :=
  ∀ a, x = .ok a → ∃ b, y = .ok b ∧ R a b

section Keeps

variable {α β : Type} {R : α → α → Prop} {S : β → β → Prop}

theorem Keeps.ok {a b : α} (h : R a b) : Keeps R (.ok a) (.ok b) := by
  intro a' heq
  cases heq
  exact ⟨b, rfl, h⟩

theorem Keeps.bind {x y : Except String α} {f g : α → Except String β} (h : Keeps R x y)
    (hf : ∀ a b, x = .ok a → R a b → Keeps S (f a) (g b)) : Keeps S (x >>= f) (y >>= g) := by
  intro c heq
  obtain ⟨a, hx, ha⟩ := Machine.bind_eq_ok.mp heq
  obtain ⟨b, hy, hR⟩ := h a hx
  obtain ⟨d, hg, hS⟩ := hf a b hx hR c ha
  exact ⟨d, Machine.bind_eq_ok.mpr ⟨b, hy, hg⟩, hS⟩

/-- The same assertion before both. -/
theorem Keeps.check {holds : Bool} {expr : String} {x y : Except String α}
    (h : holds = true → Keeps R x y) :
    Keeps R (Server.check holds expr >>= fun _ => x)
      (Server.check holds expr >>= fun _ => y) := by
  intro a heq
  obtain ⟨hholds, hx⟩ := check_bind_eq_ok.mp heq
  obtain ⟨b, hy, hR⟩ := h hholds a hx
  exact ⟨b, check_bind_eq_ok.mpr ⟨hholds, hy⟩, hR⟩

end Keeps

section Tracks

variable {isNew : List Bool} {lead t : Traced}

theorem Tracks.bp (h : Tracks isNew lead t) : t.bp = lead.bp := by rw [h.eq]

theorem Tracks.hwBp (h : Tracks isNew lead t) : t.hwBp = lead.hwBp := by rw [h.eq]

/-- Everything but the slots of the threads is changed for both alike. -/
theorem Tracks.map (h : Tracks isNew lead t) (f : Traced → Traced)
    (hthreads : ∀ t, (f t).threads = t.threads) (hhwBp : ∀ t, (f t).hwBp = t.hwBp)
    (hf : ∀ threads, f { lead with threads } = { f lead with threads }) :
    Tracks isNew (f lead) (f t) := by
  refine ⟨(hthreads lead).trans h.alone, ?_, ?_⟩
  · rw [hthreads t]
    conv_lhs => rw [h.eq]
    exact hf t.threads
  · rw [hthreads t, hhwBp lead]
    exact h.follows

theorem Tracks.setBp (h : Tracks isNew lead t) (g : Handle) (f : Breakpoint → Breakpoint) :
    Tracks isNew (lead.setBp g f) (t.setBp g f) :=
  h.map (fun t => t.setBp g f) (fun _ => rfl) (fun _ => rfl) fun _ => rfl

theorem Tracks.enableSwBreakpoint (h : Tracks isNew lead t) (g : Handle) :
    Keeps (Tracks isNew) (lead.enableSwBreakpoint g) (t.enableSwBreakpoint g) := by
  unfold Traced.enableSwBreakpoint
  rw [h.eq]
  refine .check fun _ => .check fun _ => .ok ?_
  exact ⟨h.alone, rfl, h.follows⟩

theorem Tracks.disableSwBreakpoint (h : Tracks isNew lead t) (g : Handle) :
    Keeps (Tracks isNew) (lead.disableSwBreakpoint g) (t.disableSwBreakpoint g) := by
  unfold Traced.disableSwBreakpoint
  rw [h.eq]
  refine .check fun _ => .check fun _ => .ok ?_
  exact ⟨h.alone, rfl, h.follows⟩

theorem forall₂_set {α β : Type} {R : α → β → Prop} {as : List α} {bs : List β}
    (h : List.Forall₂ R as bs) (i : ℕ) {a : α} {b : β} (hab : R a b) :
    List.Forall₂ R (as.set i a) (bs.set i b) := by
  induction h generalizing i with
  | nil => exact .nil
  | cons ha h ih =>
    cases i with
    | zero => exact .cons hab h
    | succ i => exact .cons ha (ih i)

/-- `f` can be done to every thread when it can be done to the leader. -/
theorem mapM_follows {leader leader' : Slots} {f : Slots → Except String Slots}
    (hf : ∀ slots new, Follows leader slots new →
      ∃ slots', f slots = .ok slots' ∧ Follows leader' slots' new)
    {threads : List Slots} (h : List.Forall₂ (Follows leader) threads isNew) :
    ∃ threads', threads.mapM f = .ok threads' ∧
      List.Forall₂ (Follows leader') threads' isNew := by
  induction h with
  | nil => exact ⟨[], rfl, .nil⟩
  | @cons slots new threads isNew hslots _ ih =>
    obtain ⟨slots', hslots', hnew⟩ := hf slots new hslots
    obtain ⟨threads', hthreads', hall⟩ := ih
    refine ⟨slots' :: threads', ?_, .cons hnew hall⟩
    rw [List.mapM_cons, hslots', hthreads']
    rfl

/-- What the leader can do to its slots, every thread that follows it can do. -/
theorem Tracks.eachTask (h : Tracks isNew lead t) {f : Slots → Except String Slots}
    (hf : ∀ leader', f lead.hwBp = .ok leader' → ∀ slots new, Follows lead.hwBp slots new →
      ∃ slots', f slots = .ok slots' ∧ Follows leader' slots' new) :
    Keeps (Tracks isNew) (lead.eachTask f) (t.eachTask f) := by
  intro lead' heq
  unfold Traced.eachTask at heq ⊢
  rw [h.alone] at heq
  obtain ⟨leader', hleader, hlead'⟩ := Machine.bind_eq_ok.mp
    (show (f lead.hwBp >>= fun hwBp => .ok { lead with threads := [], hwBp }) = .ok lead' from heq)
  cases hlead'
  obtain ⟨threads', hthreads', hall⟩ := mapM_follows (hf leader' hleader) h.follows
  refine ⟨{ t with threads := threads', hwBp := leader' }, ?_, rfl, ?_, hall⟩
  · rw [hthreads', h.hwBp, hleader]
    rfl
  · rw [h.eq]

/-- A slot is filled: it was empty in the leader, so it is in the thread. -/
theorem Follows.enableHwBp {leader slots leader' : Slots} {new : Bool} {b : Breakpoint} {g : Handle}
    (hf : Follows leader slots new) (hslot : 0 < b.hwBpSlot)
    (h : Traced.enableHwBp b g leader = .ok leader') :
    ∃ slots', Traced.enableHwBp b g slots = .ok slots' ∧ Follows leader' slots' new := by
  unfold Traced.enableHwBp at h ⊢
  obtain ⟨htype, h⟩ := check_bind_eq_ok.mp h
  obtain ⟨hfree, h⟩ := check_bind_eq_ok.mp h
  obtain ⟨hsw, h⟩ := check_bind_eq_ok.mp h
  cases h
  have hfree' : (!b.type.geHw || slots b.hwBpSlot == none) = true := by
    rw [Bool.or_eq_true, beq_iff_eq] at hfree ⊢
    refine hfree.imp id fun hnone => ?_
    rcases hf _ hslot with heq | heq
    · exact heq.trans hnone
    · exact heq.1
  refine ⟨Function.update slots b.hwBpSlot (some g), ?_, ?_⟩
  · exact check_bind_eq_ok.mpr ⟨htype, check_bind_eq_ok.mpr ⟨hfree',
      check_bind_eq_ok.mpr ⟨hsw, rfl⟩⟩⟩
  · intro i hi
    by_cases his : i = b.hwBpSlot
    · rw [his, Function.update_self, Function.update_self]
      exact .inl rfl
    · rw [Function.update_of_ne his, Function.update_of_ne his]
      exact hf i hi

/-- Emptying a slot of both, or of the leader when the thread has nothing there. -/
theorem Follows.clear {leader slots slots' : Slots} {new : Bool} {slot : ℕ}
    (hf : Follows leader slots new)
    (hslots : slots' = Function.update slots slot none ∨ (slots' = slots ∧ slots slot = none)) :
    Follows (Function.update leader slot none) slots' new := by
  intro i hi
  by_cases his : i = slot
  · subst his
    rw [Function.update_self]
    rcases hslots with rfl | ⟨rfl, hnone⟩
    · rw [Function.update_self]
      exact .inl rfl
    · exact .inl hnone
  · rw [Function.update_of_ne his]
    rcases hslots with rfl | ⟨rfl, -⟩
    · rw [Function.update_of_ne his]
      exact hf i hi
    · exact hf i hi

/-- A slot is emptied: the thread has the breakpoint in it too, or nothing. -/
theorem Follows.disableHwBp {leader slots leader' : Slots} {new : Bool} {b : Breakpoint}
    {g : Handle} (hf : Follows leader slots new) (hslot : 0 < b.hwBpSlot)
    (h : Traced.disableHwBp b g leader = .ok leader') :
    ∃ slots', Traced.disableHwBp b g slots = .ok slots' ∧ Follows leader' slots' new := by
  unfold Traced.disableHwBp at h ⊢
  obtain ⟨hsw, h⟩ := check_bind_eq_ok.mp h
  rcases hlead : leader b.hwBpSlot with _ | g'
  · rw [hlead] at h
    cases h
    have hnone : slots b.hwBpSlot = none := by
      rcases hf _ hslot with heq | heq
      · exact heq.trans hlead
      · exact heq.1
    refine ⟨slots, check_bind_eq_ok.mpr ⟨hsw, ?_⟩, hf⟩
    rw [hnone]
    rfl
  · rw [hlead] at h
    obtain ⟨hg, h⟩ := check_bind_eq_ok.mp h
    cases h
    rcases hf _ hslot with heq | heq
    · refine ⟨Function.update slots b.hwBpSlot none, check_bind_eq_ok.mpr ⟨hsw, ?_⟩,
        hf.clear (.inl rfl)⟩
      rw [heq, hlead]
      exact check_bind_eq_ok.mpr ⟨hg, rfl⟩
    · refine ⟨slots, check_bind_eq_ok.mpr ⟨hsw, ?_⟩, hf.clear (.inr ⟨rfl, heq.1⟩)⟩
      rw [heq.1]
      rfl

theorem Follows.removeHwScratchBp {leader slots leader' : Slots} {new : Bool} {b : Breakpoint}
    {g : Handle} (hf : Follows leader slots new) (hsw : b.sw = false)
    (hslot : b.hwBpSlot = hwBpScratchSlot)
    (h : Traced.removeHwScratchBp b g leader = .ok leader') :
    ∃ slots', Traced.removeHwScratchBp b g slots = .ok slots' ∧ Follows leader' slots' new := by
  have hkeep (s : Slots) (i : ℕ) (hi : 0 < i) :
      (if s hwBpScratchSlot = some g then Function.update s hwBpScratchSlot none else s) i =
        s i := by
    split
    · exact Function.update_of_ne hi.ne' _ _
    · rfl
  rw [removeHwScratchBp_eq hsw hslot] at h ⊢
  cases h
  refine ⟨_, rfl, fun i hi => ?_⟩
  rw [hkeep slots i hi, hkeep leader i hi]
  exact hf i hi

theorem Tracks.hw2swBp (h : Tracks isNew lead t) (g : Handle) (hslot : 0 < (lead.bp g).hwBpSlot) :
    Keeps (Tracks isNew) (lead.hw2swBp g) (t.hw2swBp g) := by
  unfold Traced.hw2swBp
  rw [h.bp]
  refine (h.eachTask fun leader' hl slots new hf => hf.disableHwBp hslot hl).bind ?_
  intro lead1 t1 _ h1
  exact (h1.setBp g _).enableSwBreakpoint g

theorem Tracks.takeSlot (h : Tracks isNew lead t) (g : Handle) {i : ℕ} (hlo : 0 < i)
    (hhi : i < hwBreakpoints) : Keeps (Tracks isNew) (lead.takeSlot g i) (t.takeSlot g i) := by
  unfold Traced.takeSlot
  have h1 := h.setBp g fun bp =>
    { bp.setHwBpSlot i with enabled := true, hw := true, wasHw := true }
  have hslot : ((lead.setBp g fun bp =>
      { bp.setHwBpSlot i with enabled := true, hw := true, wasHw := true }).bp g).hwBpSlot = i := by
    show (Function.update lead.bp g _ g).hwBpSlot = i
    rw [Function.update_self]
    exact Breakpoint.hwBpSlot_setHwBpSlot (lead.bp g) hhi
  dsimp only
  rw [h1.bp]
  refine h1.eachTask fun leader' hl slots new hf => hf.enableHwBp ?_ hl
  rw [hslot]
  exact hlo

theorem Tracks.evict {orig : UInt64 → UInt8} (h : Tracks isNew lead t)
    (ht : Transparent orig lead) {i : ℕ} (hlo : 0 < i) (hhi : i < hwBreakpoints) :
    Keeps (Tracks isNew) (lead.evict i) (t.evict i) := by
  unfold Traced.evict
  rw [h.hwBp]
  rcases hslot : lead.hwBp i with _ | g
  · exact .ok h
  · refine h.hw2swBp g ?_
    rw [(ht.slots i g hlo hhi hslot).2.2.2]
    exact hlo

theorem Tracks.findSlot {orig : UInt64 → UInt8} (h : Tracks isNew lead t)
    (ht : Transparent orig lead) (g : Handle) (fuel i : ℕ) (hlo : 0 < i)
    (hfuel : i + fuel ≤ hwBreakpoints) :
    Keeps (Option.Rel fun p q => Tracks isNew p.1 q.1 ∧ p.2 = q.2)
      (Traced.findSlot g fuel i lead) (Traced.findSlot g fuel i t) := by
  induction fuel generalizing i with
  | zero => exact .ok .none
  | succ fuel ih =>
    have hhi : i < hwBreakpoints := by omega
    rw [Traced.findSlot, Traced.findSlot, h.hwBp, h.bp]
    rcases hslot : lead.hwBp i with _ | g'
    · exact .ok (.some ⟨h, rfl⟩)
    · dsimp only
      split
      · have hpos : 0 < (lead.bp g').hwBpSlot := by
          rw [(ht.slots i g' hlo hhi hslot).2.2.2]
          exact hlo
        refine (h.hw2swBp g' hpos).bind ?_
        intro lead1 t1 _ h1
        exact .ok (.some ⟨h1, rfl⟩)
      · exact ih (i + 1) (by omega) (by omega)

theorem Tracks.insertHwBpSlot {orig : UInt64 → UInt8} (h : Tracks isNew lead t)
    (ht : Transparent orig lead) {g : Handle} (ho : Off (lead.bp g)) :
    Keeps (Option.Rel (Tracks isNew)) (lead.insertHwBpSlot g) (t.insertHwBpSlot g) := by
  unfold Traced.insertHwBpSlot
  refine (h.findSlot ht g (hwBreakpoints - 1) (hwBpScratchSlot + 1) (by decide)
    (by decide)).bind ?_
  intro r r' hr hrel
  cases hrel with
  | none => exact .ok .none
  | @some p q hpq =>
    obtain ⟨lead1, i⟩ := p
    obtain ⟨t1, j⟩ := q
    obtain ⟨h1, rfl⟩ := hpq
    obtain ⟨_, hfind, hspec⟩ := findSlot_spec ht ho (hwBreakpoints - 1) (hwBpScratchSlot + 1)
      (by decide) (by decide)
    cases hr.symm.trans hfind
    obtain ⟨-, -, -, hlo, hhi, -⟩ := hspec lead1 i rfl
    refine ((h1.setBp g (·.setHwcnt 0)).takeSlot g hlo hhi).bind ?_
    intro lead2 t2 _ h2
    exact .ok (.some h2)

/-! ## The operations -/

theorem Tracks.breakpointEnable {orig : UInt64 → UInt8} (h : Tracks isNew lead t)
    (ht : Transparent orig lead) (g : Handle) :
    Keeps (Tracks isNew) (lead.breakpointEnable g) (t.breakpointEnable g) := by
  unfold Traced.breakpointEnable
  rw [h.bp]
  split
  · exact .ok h
  · split
    · exact .ok (h.setBp g _)
    · rename_i hskip hscratch
      simp only [Bool.or_eq_true, not_or, Bool.not_eq_true] at hskip
      have ho : Off (lead.bp g) := ht.off_of_disabled ((ht.live g).mpr hskip.1) hscratch hskip.2
      have hsw := (h.setBp g fun bp => { bp with hw := false }).enableSwBreakpoint g
      dsimp only
      split
      · refine (h.insertHwBpSlot ht ho).bind ?_
        intro r r' _ hrel
        cases hrel with
        | none => exact hsw
        | some h1 => exact .ok h1
      · exact hsw

theorem Tracks.breakpointDisable {orig : UInt64 → UInt8} (h : Tracks isNew lead t)
    (ht : Transparent orig lead) (g : Handle) :
    Keeps (Tracks isNew) (lead.breakpointDisable g) (t.breakpointDisable g) := by
  unfold Traced.breakpointDisable
  rw [h.bp]
  split
  · exact .ok h
  · rename_i hskip
    simp only [Bool.or_eq_true, not_or, Bool.not_eq_true, Bool.not_eq_false'] at hskip
    have hg : g ∈ lead.breakpoints := (ht.live g).mpr hskip.1
    split
    · split
      · refine .check fun hne => ?_
        have hpos : 0 < (lead.bp g).hwBpSlot := Nat.pos_of_ne_zero (bne_iff_ne.mp hne)
        refine (h.eachTask fun leader' hl slots new hf => hf.disableHwBp hpos hl).bind ?_
        intro lead1 t1 _ h1
        exact .ok (h1.setBp g _)
      · rename_i htype
        rw [not_not] at htype
        obtain ⟨hsw, -, hslot⟩ := (ht.placed g hg).scratch_of_type htype
        refine .check fun _ => ?_
        refine (h.eachTask fun leader' hl slots new hf => hf.removeHwScratchBp hsw hslot hl).bind ?_
        intro lead1 t1 _ h1
        exact .ok (h1.setBp g _)
    · exact h.disableSwBreakpoint g

theorem Tracks.breakpointInsert {orig : UInt64 → UInt8} (h : Tracks isNew lead t)
    (ht : Transparent orig lead) (nohwbp : Bool) (addr : UInt64) (type : BpType)
    (garbage : UInt32) : Keeps (Tracks isNew) (lead.breakpointInsert nohwbp addr type garbage)
      (t.breakpointInsert nohwbp addr type garbage) := by
  have hfind : t.breakpointFind addr = lead.breakpointFind addr := by
    rw [h.eq]
    rfl
  have hnext : t.next = lead.next := by rw [h.eq]
  unfold Traced.breakpointInsert
  rw [hfind, hnext]
  split
  · exact .ok h
  · rcases hlead : lead.breakpointFind addr with _ | g
    · have hnew := h.map (fun t => t.breakpointNew nohwbp addr type garbage) (fun _ => rfl)
        (fun _ => rfl) fun _ => rfl
      exact hnew.breakpointEnable
        (breakpointNew_spec ht nohwbp type garbage (breakpointFind_eq_none hlead)) _
    · exact h.breakpointEnable ht g

theorem Tracks.breakpointDelete {orig : UInt64 → UInt8} (h : Tracks isNew lead t)
    (ht : Transparent orig lead) (g : Handle) :
    Keeps (Tracks isNew) (lead.breakpointDelete g) (t.breakpointDelete g) := by
  unfold Traced.breakpointDelete
  rw [h.bp]
  split
  · exact .ok h
  · refine (h.breakpointDisable ht g).bind ?_
    intro lead1 t1 _ h1
    have htype : (t1.bp g).type = (lead1.bp g).type := by rw [h1.bp]
    have hlist : Tracks isNew
        (if (lead1.bp g).type.geHw = true then
          { lead1 with hwBpList := lead1.hwBpList.erase g, hwBpNum := lead1.hwBpNum - 1 }
        else lead1)
        (if (t1.bp g).type.geHw = true then
          { t1 with hwBpList := t1.hwBpList.erase g, hwBpNum := t1.hwBpNum - 1 }
        else t1) := by
      rw [htype]
      split
      · exact h1.map (fun t => { t with
          hwBpList := t.hwBpList.erase g, hwBpNum := t.hwBpNum - 1 }) (fun _ => rfl)
          (fun _ => rfl) fun _ => rfl
      · exact h1
    exact .ok ((hlist.map (fun t => { t with breakpoints := t.breakpoints.erase g })
      (fun _ => rfl) (fun _ => rfl) fun _ => rfl).setBp g _)

theorem Tracks.skipBreakpoint {orig : UInt64 → UInt8} (h : Tracks isNew lead t)
    (ht : Transparent orig lead) (g : Handle) :
    Keeps (Tracks isNew) (lead.skipBreakpoint g) (t.skipBreakpoint g) := by
  unfold Traced.skipBreakpoint
  rw [h.bp]
  split
  · refine (h.breakpointDisable ht g).bind ?_
    intro lead1 t1 hlead h1
    obtain ⟨_, heq, ht1, -⟩ := breakpointDisable_spec ht g
    cases hlead.symm.trans heq
    exact h1.breakpointEnable ht1 g
  · exact .ok h

theorem Tracks.moveToHw {orig : UInt64 → UInt8} (hs : List Handle) (hwBpSet : ℕ) (i : ℕ)
    (h : Tracks isNew lead t) (ht : Transparent orig lead) (hr : Ranked lead hs)
    (hsoft : ∀ g ∈ hs, (lead.bp g).hw = false) (hlo : 0 < i)
    (hfree : hs.length ≤ freeSlots hwBpSet i) :
    Keeps (Tracks isNew) (Traced.moveToHw hwBpSet lead i hs)
      (Traced.moveToHw hwBpSet t i hs) := by
  induction hs generalizing lead t i with
  | nil => exact .ok h
  | cons g hs ih =>
    rw [List.length_cons] at hfree
    obtain ⟨hle, hhi, hcount⟩ := nextSlot_spec hwBpSet hwBreakpoints i (by omega) (by omega)
    rw [Traced.moveToHw, Traced.moveToHw]
    generalize Traced.nextSlot hwBpSet hwBreakpoints i = j at *
    obtain ⟨lead1, lead2, lead3, heq1, ht1, heq2, heq3, ht3, hr3, hsoft3⟩ :=
      moveRound_spec ht hr hsoft (by omega) hhi
    refine (h.disableSwBreakpoint g).bind ?_
    intro _ t1 hx1 h1
    cases hx1.symm.trans heq1
    refine (h1.evict ht1 (by omega) hhi).bind ?_
    intro _ t2 hx2 h2
    cases hx2.symm.trans heq2
    refine (h2.takeSlot g (by omega) hhi).bind ?_
    intro _ t3 hx3 h3
    cases hx3.symm.trans heq3
    exact ih (j + 1) h3 ht3 hr3 hsoft3 (by omega) (by omega)

theorem Tracks.clearHwcnt (h : Tracks isNew lead t) (hs : List Handle) :
    Tracks isNew (lead.clearHwcnt hs) (t.clearHwcnt hs) :=
  h.map (fun t => t.clearHwcnt hs) (fun _ => rfl) (fun _ => rfl) fun _ => rfl

theorem Tracks.reorderHwBp {orig : UInt64 → UInt8}
    {qsort : (Handle → Handle → ℤ) → List Handle → List Handle}
    (hq : ∀ cmp hs, (qsort cmp hs).Perm hs) (h : Tracks isNew lead t)
    (ht : Transparent orig lead) :
    Keeps (Tracks isNew) (lead.reorderHwBp qsort) (t.reorderHwBp qsort) := by
  have hnum : t.hwBpNum = lead.hwBpNum := by rw [h.eq]
  have hlist : t.hwBpList = lead.hwBpList := by rw [h.eq]
  unfold Traced.reorderHwBp
  rw [hnum, hlist, h.bp]
  split
  · exact .ok h
  · obtain ⟨hranked, -⟩ := ranked_hwBpList ht
    dsimp only
    generalize (lead.hwBpList.filter fun h => (lead.bp h).enabled) = hs at *
    refine .check fun _ => ?_
    split
    · exact .ok (h.clearHwcnt hs)
    · obtain ⟨hclear, set', moved, heq, hr, hoff, hfree⟩ := moved_spec hq ht hranked
      generalize qsort (Traced.hwBpSort lead.bp) hs = sorted at *
      have hsplit := (h.clearHwcnt sorted).bp
      rw [hsplit, heq]
      exact (h.clearHwcnt sorted).moveToHw moved set' _ hclear hr hoff (by decide) hfree

/-- One operation: the threads follow their leader. -/
theorem Tracks.step {orig : UInt64 → UInt8}
    {qsort : (Handle → Handle → ℤ) → List Handle → List Handle}
    (hq : ∀ cmp hs, (qsort cmp hs).Perm hs) (nohwbp : Bool) (h : Tracks isNew lead t)
    (ht : Transparent orig lead) (op : BpOp) :
    Keeps (Tracks isNew) (lead.step qsort nohwbp op) (t.step qsort nohwbp op) := by
  cases op with
  | insert addr type garbage => exact h.breakpointInsert ht nohwbp addr type garbage
  | enable g => exact h.breakpointEnable ht g
  | disable g => exact h.breakpointDisable ht g
  | delete g => exact h.breakpointDelete ht g
  | reorder => exact h.reorderHwBp hq ht
  | skip g => exact h.skipBreakpoint ht g
  | hit g =>
    rw [Traced.step, Traced.step, h.bp]
    split
    · exact .ok (h.setBp g _)
    · exact .ok h

end Tracks

/-! ## Cloning the slots -/

section Clone

variable {orig : UInt64 → UInt8} {leader : Traced}

/-- A round gets through when the slot is empty, and copies that of the leader. -/
theorem hwCloneSlot_eq_ok (ht : Transparent orig leader) {slots slots' : Slots} {i : ℕ}
    (hlo : 0 < i) (hhi : i < hwBreakpoints) : hwCloneSlot leader slots i = .ok slots' ↔
      slots i = none ∧ slots' = Function.update slots i (leader.hwBp i) := by
  unfold hwCloneSlot
  rcases hslot : leader.hwBp i with _ | g
  · dsimp only
    rw [check_bind_eq_ok, beq_iff_eq]
    refine and_congr_right fun hnone => ?_
    rw [Function.update_eq_self_iff.mpr hnone.symm]
    exact ⟨fun h => (by cases h; rfl), fun h => (by rw [h]; rfl)⟩
  · obtain ⟨hg, hge, hhw, hi⟩ := ht.slots i g hlo hhi hslot
    obtain ⟨-, hen, hsw, -⟩ := (ht.placed g hg).hard_of_hw hhw (ne_scratch_of_geHw hge)
    have htype : ((leader.bp g).type != .sw) = true := by
      rw [bne_iff_ne]
      intro heq
      rw [heq] at hge
      cases hge
    unfold Traced.enableHwBp
    dsimp only
    rw [hen, hi, hge, hsw, htype]
    simp only [check_bind_eq_ok, beq_iff_eq, Bool.not_true, Bool.false_or, Bool.not_false,
      true_and]
    refine and_congr_right fun _ => ?_
    exact ⟨fun h => (by cases h; rfl), fun h => (by rw [h]; rfl)⟩

theorem foldlM_hwCloneSlot (ht : Transparent orig leader) {is : List ℕ} (hnodup : is.Nodup)
    (his : ∀ i ∈ is, 0 < i ∧ i < hwBreakpoints) {slots slots' : Slots} :
    is.foldlM (hwCloneSlot leader) slots = .ok slots' ↔ (∀ i ∈ is, slots i = none) ∧
      slots' = fun i => if i ∈ is then leader.hwBp i else slots i := by
  induction is generalizing slots with
  | nil =>
    refine ⟨fun h => ⟨fun i hi => (by cases hi), ?_⟩, fun h => ?_⟩
    · cases h
      exact funext fun i => (if_neg List.not_mem_nil).symm
    · rw [h.2]
      exact congrArg Except.ok (funext fun i => (if_neg List.not_mem_nil).symm)
  | cons i is ih =>
    obtain ⟨hi, hnodup⟩ := List.nodup_cons.mp hnodup
    obtain ⟨hlo, hhi⟩ := his i List.mem_cons_self
    -- the later rounds do not see the slot of this one
    have hothers (v : Option Handle) :
        (∀ j ∈ is, Function.update slots i v j = none) ↔ ∀ j ∈ is, slots j = none := by
      refine forall₂_congr fun j hj => ?_
      have hji : j ≠ i := fun heq => hi (heq ▸ hj)
      rw [Function.update_of_ne hji]
    have hall (v : Option Handle) (hv : v = leader.hwBp i) :
        (fun j => if j ∈ is then leader.hwBp j else Function.update slots i v j) =
          fun j => if j ∈ i :: is then leader.hwBp j else slots j := by
      funext j
      by_cases hji : j = i
      · subst hji
        rw [if_neg hi, Function.update_self, if_pos List.mem_cons_self, hv]
      · simp only [List.mem_cons, hji, false_or, Function.update_of_ne hji]
    rw [List.foldlM_cons, Machine.bind_eq_ok, List.forall_mem_cons]
    constructor
    · rintro ⟨slots1, h1, h2⟩
      obtain ⟨hnone, rfl⟩ := (hwCloneSlot_eq_ok ht hlo hhi).mp h1
      obtain ⟨hrest, rfl⟩ :=
        (ih hnodup fun j hj => his j (List.mem_cons_of_mem i hj)).mp h2
      exact ⟨⟨hnone, (hothers _).mp hrest⟩, hall _ rfl⟩
    · rintro ⟨⟨hnone, hrest⟩, rfl⟩
      refine ⟨_, (hwCloneSlot_eq_ok ht hlo hhi).mpr ⟨hnone, rfl⟩, ?_⟩
      exact (ih hnodup fun j hj => his j (List.mem_cons_of_mem i hj)).mpr
        ⟨(hothers _).mpr hrest, (hall _ rfl).symm⟩

theorem breakpointHwClone_eq_ok (ht : Transparent orig leader) {slots slots' : Slots} :
    breakpointHwClone leader slots = .ok slots' ↔
      (∀ i, 0 < i → i < hwBreakpoints → slots i = none) ∧
      slots' = fun i => if 0 < i ∧ i < hwBreakpoints then leader.hwBp i else slots i := by
  have hmem (i : ℕ) : i ∈ List.range' (hwBpScratchSlot + 1) (hwBreakpoints - 1) ↔
      0 < i ∧ i < hwBreakpoints := by
    rw [List.mem_range'_1]
    unfold hwBpScratchSlot hwBreakpoints
    omega
  unfold breakpointHwClone
  rw [foldlM_hwCloneSlot ht List.nodup_range' fun i hi => (hmem i).mp hi]
  simp only [hmem, and_imp]

end Clone

/-! ## Whole runs -/

namespace Group

/-- The leader without its threads. -/
def alone (g : Group) : Traced := { g.traced with threads := [] }

structure Sound (orig : UInt64 → UInt8) (g : Group) : Prop where
  transparent : Transparent orig g.alone
  tracks : Tracks g.isNew g.alone g.traced

variable {orig : UInt64 → UInt8} {g : Group}
  {qsort : (Handle → Handle → ℤ) → List Handle → List Handle} {nohwbp : Bool}

theorem sound_of_tracks {lead : Traced} (ht : Transparent orig lead)
    (h : Tracks g.isNew lead g.traced) : g.Sound orig := by
  have heq : g.alone = lead := by
    unfold alone
    rw [h.eq, ← h.alone]
  exact ⟨heq ▸ ht, heq ▸ h⟩

theorem sound_start (orig : UInt64 → UInt8) (threads : ℕ) : (start orig threads).Sound orig := by
  refine ⟨transparent_start orig 0, rfl, rfl, ?_⟩
  show List.Forall₂ (Follows fun _ => none) (List.replicate threads fun _ => none)
    (List.replicate threads false)
  induction threads with
  | zero => exact .nil
  | succ n ih => exact .cons (fun _ _ => .inl rfl) ih

theorem Sound.length (h : g.Sound orig) : g.traced.threads.length = g.isNew.length :=
  h.tracks.follows.length_eq

theorem Sound.follows (h : g.Sound orig) {i : ℕ} {slots : Slots} {new : Bool}
    (hslots : g.traced.threads[i]? = some slots) (hnew : g.isNew[i]? = some new) :
    Follows g.traced.hwBp slots new := by
  obtain ⟨hi, rfl⟩ := List.getElem?_eq_some_iff.mp hslots
  obtain ⟨hi', rfl⟩ := List.getElem?_eq_some_iff.mp hnew
  exact List.forall₂_iff_get.mp h.tracks.follows |>.2 i hi hi'

theorem Sound.consistent (h : g.Sound orig) : g.Consistent := by
  intro i slots hslots hnew j hlo hhi
  rcases h.follows hslots hnew j hlo with heq | ⟨-, hnew | hge⟩
  · exact heq
  · cases hnew
  · exact absurd hhi (not_lt.mpr hge)

/-- One step: it returns exactly when no slot is filled twice, and all stays as it is to be. -/
theorem Sound.step (hq : ∀ cmp hs, (qsort cmp hs).Perm hs) (nohwbp : Bool) (h : g.Sound orig)
    (op : GroupOp) :
    ((∃ g', step qsort nohwbp g op = .ok g') ↔ g.Unfilled op) ∧
      ∀ g', step qsort nohwbp g op = .ok g' → g'.Sound orig := by
  cases op with
  | join =>
    refine ⟨⟨fun _ => trivial, fun _ => ⟨_, rfl⟩⟩, ?_⟩
    intro g' heq
    cases heq
    refine ⟨h.transparent, rfl, rfl, ?_⟩
    exact List.rel_append h.tracks.follows (.cons (fun i _ => .inr ⟨rfl, .inl rfl⟩) .nil)
  | op op =>
    obtain ⟨lead', hlead, ht'⟩ := transparent_step hq nohwbp h.transparent op
    obtain ⟨t', heq, htracks⟩ := h.tracks.step hq nohwbp h.transparent op lead' hlead
    have hstep : Group.step qsort nohwbp g (.op op) = .ok { g with traced := t' } := by
      show (g.traced.step qsort nohwbp op >>= _) = _
      rw [heq]
      rfl
    refine ⟨⟨fun _ => trivial, fun _ => ⟨_, hstep⟩⟩, ?_⟩
    intro g' heq'
    cases hstep.symm.trans heq'
    exact sound_of_tracks ht' htracks
  | clone i =>
    rw [Group.step]
    unfold Unfilled
    rcases hslots : g.traced.threads[i]? with _ | slots
    · refine ⟨⟨fun _ slots hs => (by cases hslots.symm.trans hs), fun _ => ⟨g, rfl⟩⟩, ?_⟩
      intro g' heq
      cases heq
      exact h
    · obtain ⟨hi, -⟩ := List.getElem?_eq_some_iff.mp hslots
      have hi' : i < g.isNew.length := h.length ▸ hi
      obtain ⟨new, hnew⟩ : ∃ new, g.isNew[i]? = some new := ⟨_, List.getElem?_eq_getElem hi'⟩
      rw [hnew]
      cases new with
      | false =>
        refine ⟨⟨fun _ slots _ hs => (by cases hnew.symm.trans hs), fun _ => ⟨g, rfl⟩⟩, ?_⟩
        intro g' heq
        cases heq
        exact h
      | true =>
        have hclone := @breakpointHwClone_eq_ok orig g.alone h.transparent slots
        refine ⟨⟨?_, fun hun => ?_⟩, ?_⟩
        · rintro ⟨g', heq⟩ slots' hs _
          cases hslots.symm.trans hs
          obtain ⟨slots1, hslots1, -⟩ := Machine.bind_eq_ok.mp heq
          exact (hclone.mp hslots1).1
        · exact ⟨_, Machine.bind_eq_ok.mpr ⟨_, hclone.mpr ⟨hun slots hslots hnew, rfl⟩, rfl⟩⟩
        · intro g' heq
          obtain ⟨slots1, hslots1, heq'⟩ := Machine.bind_eq_ok.mp heq
          cases heq'
          obtain ⟨hnone, rfl⟩ := hclone.mp hslots1
          refine ⟨h.transparent, rfl, rfl, forall₂_set h.tracks.follows i fun j hj => ?_⟩
          by_cases hhi : j < hwBreakpoints
          · exact .inl (if_pos ⟨hj, hhi⟩)
          · rw [if_neg fun h => hhi h.2]
            refine (h.follows hslots hnew j hj).imp id ?_
            exact fun heq => ⟨heq.1, .inr (not_lt.mp hhi)⟩

theorem sound_of_reach (hq : ∀ cmp hs, (qsort cmp hs).Perm hs) {threads : ℕ}
    (hr : Machine.Reach (step qsort nohwbp) (fun _ _ => True) (start orig threads) g) :
    g.Sound orig :=
  hr.invariant (sound_start orig threads) fun _ op _ hs _ hstep => (hs.step hq nohwbp op).2 _ hstep

end Group

/-- In any order of joining, of operations on the breakpoints and of cloning, a thread whose clone
event was handled has the breakpoints of the leader, and the next step runs into an assertion
exactly when it clones to a thread that has got a breakpoint since it joined. -/
theorem group_slots (qsort : (Handle → Handle → ℤ) → List Handle → List Handle)
    (hq : ∀ cmp hs, (qsort cmp hs).Perm hs) (nohwbp : Bool) (orig : UInt64 → UInt8) (threads : ℕ)
    (g : Group) (hr : Machine.Reach (Group.step qsort nohwbp) (fun _ _ => True)
      (Group.start orig threads) g) :
    g.Consistent ∧
      ∀ op, (∃ g', Group.step qsort nohwbp g op = .ok g' ∧ g'.Consistent) ↔ g.Unfilled op := by
  have hs := Group.sound_of_reach hq hr
  refine ⟨hs.consistent, fun op => ?_⟩
  obtain ⟨hiff, hnext⟩ := hs.step hq nohwbp op
  rw [← hiff]
  exact exists_congr fun g' => and_iff_left_of_imp fun h => (hnext g' h).consistent

/-- A thread that joins a process with one breakpoint in hardware, and is cloned then. -/
def joined : Group :=
  match Machine.run (Group.step stableSort false) (.start (fun _ => 0x55) 0)
      [.op (.insert 0x1000 .auto 0), .join] with
  | .ok g => g
  | .error _ => .start (fun _ => 0x55) 0

theorem group_slots_joined : ∃ g', Group.step stableSort false joined (.clone 0) = .ok g' ∧
    g'.Consistent := by
  refine ((group_slots stableSort (fun _ hs => hs.mergeSort_perm _) false (fun _ => 0x55) 0 joined
    ?_).2 (.clone 0)).mpr ?_
  · exact Machine.reach_run [.op (.insert 0x1000 .auto 0), .join] _ _ (fun _ _ _ => trivial)
      .init rfl
  · intro slots hslots _ j _ _
    cases hslots
    rfl

/-- A breakpoint that is inserted between the two is in the slots of the new thread already. -/
theorem clone_filled_slot :
    Machine.run (Group.step stableSort false) (.start (fun _ => 0x55) 0)
      [.join, .op (.insert 0x1000 .auto 0), .clone 0] =
        .error "bp->type < BP_HW || task->hw_bp[slot] == NULL" := rfl

end Mtrace.Server
