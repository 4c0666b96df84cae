import Mtrace.Dwarf.Step
import Mtrace.Server.Lookup

/-!
# The library of a frame

A cursor keeps the library of its frame, and `dwarf_locate_map` asks it before it searches the tree
of the leader.  As long as no library comes or goes, this finds what the search would. -/

namespace Mtrace.Dwarf

open Server RbTree

/-- The cursors of an unwind: one library after the other is located, and nothing else sets it. -/
inductive Unwound (s : Space) : Cursor → Prop where
  | init : Unwound s s.archInitUnwind
  | locate {c : Cursor} (ip : UInt64) (h : Unwound s c) : Unwound s (s.locateMap c ip).2
  | other {c c' : Cursor} (h : Unwound s c) (hlibref : c'.libref = c.libref) : Unwound s c'

/-- The address that is looked up. -/
def Cursor.lookedUp (c : Cursor) (ip : UInt64) : UInt64 := if c.usePrevInstr then ip - 1 else ip

/-! ## The cache -/

section Cache

variable {s : Space} {c : Cursor}

theorem locateMap_eq (s : Space) (c : Cursor) (ip : UInt64) : s.locateMap c ip =
    if c.libref.any (·.inText (c.lookedUp ip)) then (true, c)
    else ((addr2libref s.libs (c.lookedUp ip)).isSome,
      { c with libref := addr2libref s.libs (c.lookedUp ip) }) := rfl

/-- The library of a cursor is one of the leader. -/
theorem Unwound.cached (h : Unwound s c) {l : Libref} (hl : c.libref = some l) :
    ∃ lib ∈ s.libs.toList, lib.libref = l := by
  induction h generalizing l with
  | init => cases hl
  | @locate c ip _ ih =>
    rw [locateMap_eq] at hl
    split at hl
    · exact ih hl
    · obtain ⟨x, hfind, hval⟩ := Option.map_eq_some_iff.mp hl
      exact ⟨x.val, mem_of_find hfind, hval⟩
  | other _ hlibref ih => exact ih (hlibref.symm.trans hl)

/-- The cached library is the one that a search finds. -/
theorem locateMap_uncached {st : LoadState} {ops : List LibOp} (hst : st.Follows ops)
    (hlibs : s.libs = (st.libs 0).tree) (h : Unwound s c) (ip : UInt64) :
    s.locateMap c ip = ((addr2libref s.libs (c.lookedUp ip)).isSome,
      { c with libref := addr2libref s.libs (c.lookedUp ip) }) := by
  have hperm := hst.sorted.shaped.tree
  rw [locateMap_eq]
  split
  next hcached =>
    obtain ⟨l, hl, hin⟩ := (Option.any_eq_true _ _).mp hcached
    obtain ⟨lib, hlib, rfl⟩ := h.cached hl
    rw [hlibs] at hlib
    have hmem := hperm.mem_iff.mp hlib
    have htext := (inText_iff (hst.sorted.apart.nowrap lib hmem)).mp hin
    have hfind : addr2libref s.libs (c.lookedUp ip) = some lib.libref := by
      rw [hlibs]
      exact (hst.addr2libref_iff _ _).mpr ⟨lib, hst.list ▸ hmem, rfl, htext⟩
    rw [hfind]
    cases c
    cases hl
    rfl
  next => rfl

end Cache

/-! ## The steps -/

/-- What leaves the cursor of an unwind. -/
def Unwinder.Keeps {α : Type} (s : Space) (m : Unwinder α) : Prop :=
  ∀ c, Unwound s c → Unwound s (cursorOf (m c))

section Steps

variable {α β : Type} {s : Space}

theorem keeps_bind {m : Unwinder α} {f : α → Unwinder β} (hm : m.Keeps s)
    (hf : ∀ a, (f a).Keeps s) : (m >>= f).Keeps s := by
  intro c hc
  have hfirst := hm c hc
  show Unwound s (cursorOf (EStateM.bind m f c))
  unfold EStateM.bind
  cases heq : m c with
  | ok a d =>
    rw [heq] at hfirst
    exact hf a d hfirst
  | error e d =>
    rw [heq] at hfirst
    exact hfirst

theorem keeps_pure (a : α) : (pure a : Unwinder α).Keeps s := fun _ hc => hc

theorem keeps_throw (h : Halt) : (throw h : Unwinder α).Keeps s := fun _ hc => hc

theorem keeps_get : (get : Unwinder Cursor).Keeps s := fun _ hc => hc

theorem keeps_ofExcept (r : Except Halt α) : (Unwinder.ofExcept r).Keeps s := by
  cases r with
  | ok a => exact keeps_pure a
  | error h => exact keeps_throw h

theorem keeps_locate (ip : UInt64) : (s.locate ip).Keeps s := by
  intro c hc
  have hnext : Unwound s (s.locateMap c ip).2 := hc.locate ip
  unfold Space.locate
  cases heq : s.locateMap c ip with
  | mk found d =>
    rw [heq] at hnext
    cases found <;> exact hnext

theorem keeps_fetchProcInfo (ip : UInt64) : (s.fetchProcInfo ip).Keeps s := by
  intro c hc
  unfold Space.fetchProcInfo
  cases hl : c.libref with
  | none => exact hc
  | some libref =>
    dsimp only
    split <;> exact hc.other hl.symm

theorem keeps_applyRules (rs : RegState) (cfa : UInt64) (is : List ℕ) :
    (s.applyRules rs cfa is).Keeps s := by
  induction is with
  | nil => exact keeps_pure ()
  | cons i is ih =>
    rw [Space.applyRules]
    apply keeps_bind keeps_get
    intro c
    apply keeps_bind (keeps_ofExcept _)
    intro loc
    exact keeps_bind (fun _ hc => hc.other rfl) fun _ => ih

theorem keeps_applyRegState (rs : RegState) : (s.applyRegState rs).Keeps s := by
  apply keeps_bind keeps_get
  intro c
  apply keeps_bind (keeps_ofExcept _)
  intro cfa
  apply keeps_bind (keeps_applyRules rs cfa _)
  intro _ d hd
  rw [finishFrame_eq]
  cases s.callerIp { d with cfa } with
  | ok ip =>
    dsimp only
    split <;> exact hd.other rfl
  | error h => exact hd.other rfl

theorem keeps_parseFde (gp ip : UInt64) : (s.parseFde gp ip).Keeps s := by
  apply keeps_bind keeps_get
  intro c
  dsimp only
  split
  · exact keeps_throw _
  · exact keeps_bind (fun _ hc => hc.other rfl) fun _ => keeps_ofExcept _

theorem keeps_tableStep (ip : UInt64) : (s.tableStep ip).Keeps s := by
  apply keeps_bind (keeps_fetchProcInfo ip)
  intro gp
  apply keeps_bind (keeps_parseFde gp ip)
  intro rs
  apply keeps_bind (keeps_applyRegState rs)
  intro _
  exact keeps_bind keeps_get fun c => keeps_locate c.ip

theorem keeps_chainStep (rbp : UInt64) : (s.chainStep rbp).Keeps s := by
  intro c hc
  unfold Space.chainStep
  dsimp only
  split
  · split <;> exact hc.other rfl
  · exact hc

theorem keeps_archStep : s.archStep.Keeps s := by
  intro c hc
  have hclear : Unwound s (s.clearLoc c) := hc.other rfl
  unfold Space.archStep
  split
  · exact hc
  split
  · exact hc.other rfl
  split
  · exact hclear
  · exact keeps_chainStep _ _ hclear

theorem keeps_unwindStep : s.unwindStep.Keeps s := by
  intro c hc
  have htable := keeps_tableStep (s := s) (if c.usePrevInstr then c.ip - 1 else c.ip) c hc
  unfold Space.unwindStep
  dsimp only
  split
  next d heq =>
    rw [heq] at htable
    have hchain : (do s.archStep; s.locate (← get).ip : Unwinder Unit).Keeps s :=
      keeps_bind keeps_archStep fun _ => keeps_bind keeps_get fun d => keeps_locate d.ip
    exact hchain _ (htable.other rfl)
  next d _ heq =>
    rw [heq] at htable
    exact htable.other rfl
  next => exact htable

/-! ## The guess -/

variable {copies : ℕ → UInt64 → Copy} {cfa : UInt64}

/-- A pass of the loops, and what is behind them. -/
theorem unwound_guessStep {st : GuessState} (h : Unwound s st.cursor) :
    (∀ st', s.guessStep copies cfa st = .inl st' → Unwound s st'.cursor) ∧
      ∀ b d, s.guessStep copies cfa st = .inr (.ok (b, d)) → Unwound s d := by
  have hguess : Unwound s (s.isGuess st.cursor (s.getval st.buf st.i)).2 :=
    h.locate (s.getval st.buf st.i)
  unfold Space.guessStep
  dsimp only
  split
  · split
    · constructor
      · intro st' heq
        cases heq
      · intro b d heq
        cases heq
    · cases heq : s.isGuess st.cursor (s.getval st.buf st.i) with
      | mk found e =>
        rw [heq] at hguess
        cases found with
        | true =>
          refine ⟨fun _ heq => (by cases heq), fun b d heq => ?_⟩
          cases heq
          exact hguess.other rfl
        | false =>
          refine ⟨fun st' heq => ?_, fun _ _ heq => (by cases heq)⟩
          cases heq
          exact hguess
  · split
    · refine ⟨fun _ heq => (by cases heq), fun b d heq => ?_⟩
      cases heq
      exact h
    split
    · refine ⟨fun st' heq => ?_, fun _ _ heq => (by cases heq)⟩
      cases heq
      exact h
    · refine ⟨fun _ heq => (by cases heq), fun b d heq => ?_⟩
      cases heq
      exact h

theorem unwound_guessCaller {buf : List UInt8} {d d' : Cursor} {found : Bool} (hd : Unwound s d)
    (h : s.guessCaller copies cfa buf d = .ok (found, d')) : Unwound s d' := by
  unfold Space.guessCaller at h
  cases hrun : Orbit.run (s.guessStep copies cfa) (9 * 129)
    (Space.guessChunk copies cfa 0 buf d) with
  | inl st =>
    rw [hrun] at h
    cases h
  | inr r =>
    rw [hrun] at h
    obtain ⟨st, hreach, hlast⟩ := Orbit.exists_last hrun
    have hst : Unwound s st.cursor := by
      refine Orbit.Reaches.invariant (P := fun st : GuessState => Unwound s st.cursor) ?_ hd hreach
      exact fun _ _ hx heq => (unwound_guessStep hx).1 _ heq
    have hr : r = .ok (found, d') := h
    rw [hr] at hlast
    exact (unwound_guessStep hst).2 found d' hlast

theorem keeps_dwarfStep (buf : List UInt8) : (s.dwarfStep copies buf).Keeps s := by
  intro c hc
  have hunwind := keeps_unwindStep c hc
  unfold Space.dwarfStep
  split
  · exact hc
  split
  next heq =>
    rw [heq] at hunwind
    split
    next hguess => exact unwound_guessCaller hunwind hguess
    next hguess => exact (unwound_guessCaller hunwind hguess).other rfl
    next => exact hunwind
  next => exact hunwind

end Steps

/-! ## Lookups -/

/-- However libraries came and went, the tree finds the one whose text has the address, if there is
one, and so does each lookup of an unwind, whose cursors `dwarf_step` leaves. -/
theorem locate_finds_library {ops : List LibOp} (hops : Orderly ops) :
    ∃ st, Machine.run LoadState.libOp .empty ops = .ok st ∧ ∀ addr : UInt64,
      (∀ l, addr2libref (st.libs 0).tree addr = some l ↔
        ∃ lib ∈ present ops, lib.libref = l ∧ addr.toNat ∈ l.text) ∧
      (addr2libref (st.libs 0).tree addr = none ↔
        ∀ lib ∈ present ops, addr.toNat ∉ lib.libref.text) ∧
      ∀ (s : Space) (c : Cursor), s.libs = (st.libs 0).tree → Unwound s c →
        (∀ ip : UInt64, s.locateMap c ip = ((addr2libref s.libs (c.lookedUp ip)).isSome,
          { c with libref := addr2libref s.libs (c.lookedUp ip) })) ∧
        ∀ copies buf, Unwound s (cursorOf (s.dwarfStep copies buf c)) := by
  obtain ⟨st, hrun, hst⟩ := LoadState.run_libOp hops
  refine ⟨st, hrun, fun addr => ?_⟩
  have hsome := hst.addr2libref_iff addr
  refine ⟨hsome, ?_, fun s c hlibs hc => ⟨locateMap_uncached hst hlibs hc,
    fun _ buf => keeps_dwarfStep buf c hc⟩⟩
  constructor
  · intro hnone lib hlib htext
    have hfound := (hsome lib.libref).mpr ⟨lib, hlib, rfl, htext⟩
    cases hnone.symm.trans hfound
  · intro hout
    cases hfind : addr2libref (st.libs 0).tree addr with
    | none => rfl
    | some l =>
      obtain ⟨lib, hlib, rfl, htext⟩ := (hsome l).mp hfind
      exact absurd htext (hout lib hlib)

/-- A library with a page of text. -/
def pageLib (addr : UInt64) : Libref := { Libref.new .lib with txtVaddr := addr, txtSize := 0x1000 }

/-- Three libraries are added, the second one is deleted, and another one takes its place. -/
def reloading : List LibOp :=
  [.add (pageLib 0x400000), .add (pageLib 0x500000), .add (pageLib 0x300000), .delete 1,
    .add (pageLib 0x500800)]

theorem textsApart_of_distant {libs : List Library}
    (h : libs.Pairwise fun x y => x.libref.txtVaddr.toNat + 0x1000 ≤ y.libref.txtVaddr.toNat ∨
      y.libref.txtVaddr.toNat + 0x1000 ≤ x.libref.txtVaddr.toNat)
    (hpage : ∀ lib ∈ libs, lib.libref.txtSize = 0x1000 ∧ lib.libref.txtVaddr.toNat < 2 ^ 63) :
    TextsApart libs where
  nonempty lib hlib := by
    rw [(hpage lib hlib).1]
    decide
  nowrap lib hlib := by
    have hsize : (0x1000 : UInt64).toNat = 0x1000 := rfl
    rw [(hpage lib hlib).1, hsize]
    have := (hpage lib hlib).2
    omega
  disjoint := by
    refine h.imp_of_mem fun {x y} hx hy hxy => ?_
    have hsize : (0x1000 : UInt64).toNat = 0x1000 := rfl
    unfold Libref.text
    rw [(hpage x hx).1, (hpage y hy).1, hsize, Set.Ico_disjoint_Ico]
    omega

theorem orderly_reloading : Orderly reloading := by
  have h₁ : Orderly (reloading.take 1) :=
    .snoc .nil (textsApart_of_distant (by decide) (by decide)) fun _ => LibOp.noConfusion
  have h₂ : Orderly (reloading.take 2) :=
    .snoc h₁ (textsApart_of_distant (by decide) (by decide)) fun _ => LibOp.noConfusion
  have h₃ : Orderly (reloading.take 3) :=
    .snoc h₂ (textsApart_of_distant (by decide) (by decide)) fun _ => LibOp.noConfusion
  have h₄ : Orderly (reloading.take 4) :=
    .snoc h₃ (textsApart_of_distant (by decide) (by decide)) fun _ hnode => by
      cases hnode
      exact ⟨⟨1, pageLib 0x500000⟩, by decide, rfl⟩
  exact .snoc h₄ (textsApart_of_distant (by decide) (by decide)) fun _ => LibOp.noConfusion

/-- A task that stopped in the text that took the place. -/
def reloadedSpace (tree : RbRoot Library) : Space where
  is64bit := true
  image _ := 0
  proc _ := none
  vm _ _ := .error .enosys
  errno _ := .eio
  nosys := false
  regs i := if i = 16 then 0x500810 else 0
  libs := tree
  passes := 0

theorem locate_finds_reloaded : ∃ st, Machine.run LoadState.libOp .empty reloading = .ok st ∧
    addr2libref (st.libs 0).tree 0x500810 = some (pageLib 0x500800) ∧
    addr2libref (st.libs 0).tree 0x500010 = none ∧
    addr2libref (st.libs 0).tree 0x300000 = some (pageLib 0x300000) ∧
    ((reloadedSpace (st.libs 0).tree).locateMap
      (reloadedSpace (st.libs 0).tree).archInitUnwind 0x500810).1 = true := by
  obtain ⟨st, hrun, hfinds⟩ := locate_finds_library orderly_reloading
  have htext (l : Libref) (a : ℕ) : a ∈ l.text ↔ l.txtVaddr.toNat ≤ a ∧
      a < l.txtVaddr.toNat + l.txtSize.toNat := Set.mem_Ico
  have hplace : addr2libref (st.libs 0).tree 0x500810 = some (pageLib 0x500800) :=
    ((hfinds 0x500810).1 _).mpr ⟨⟨3, pageLib 0x500800⟩, by decide, rfl, (htext _ _).mpr (by decide)⟩
  refine ⟨st, hrun, hplace, ?_, ?_, ?_⟩
  · refine (hfinds 0x500010).2.1.mpr fun lib hlib => ?_
    rw [htext]
    revert lib
    decide
  · exact ((hfinds 0x300000).1 _).mpr
      ⟨⟨2, pageLib 0x300000⟩, by decide, rfl, (htext _ _).mpr (by decide)⟩
  · rw [((hfinds 0x500810).2.2 _ _ rfl .init).1 0x500810]
    exact congrArg Option.isSome hplace

end Mtrace.Dwarf
