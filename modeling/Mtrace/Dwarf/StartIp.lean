import Mathlib.Tactic.Ring
import Mtrace.Dwarf.Elf

/-!
# The start of a function at run time

An FDE gives the start of its function relative to its own place, which the server sees in its own
mapping of the file.  `dwarf_search_unwind_table` takes the address of the mapping away and adds
that of the text, which is right when the text is where the mapping begins. -/

namespace Mtrace.Dwarf

open Server

namespace Space

/-- Where the initial location of an FDE is: behind the length and the distance to the CIE. -/
def initialLocation (s : Space) (fde : UInt64) : UInt64 :=
  if s.word fde 4 = 0xffffffff then fde + 20 else fde + 8

/-- The FDE at `fde` is read into `dci` and gives its start as the distance `raw` from the place of
this number; a distance of 0 stands for no address. -/
structure PcRelative (s : Space) (gp fde : UInt64) (dci0 dci : CieInfo) (raw : UInt64) : Prop where
  extract : ∃ addr, s.extractCfiFromFde gp ⟨fde, dci0⟩ = .ok () ⟨addr, dci⟩
  cie : ∃ fdeEnd cieAddr next, s.fdeHeader fde = .ok (fdeEnd, some cieAddr) next
  encoding : dci.fdeEncoding &&& 0xf0 = 0x10
  value : ∃ next, s.readFormat (dci.fdeEncoding &&& 0x0f) true (s.initialLocation fde) =
    .ok raw next
  nonzero : raw ≠ 0

end Space

/-- The link-time address of a place in the mapping, in the segment of the unwind tables. -/
def MtElf.linkAddr (mte : MtElf) (mmapAddr place : UInt64) : UInt64 :=
  place - mmapAddr + mte.loadbase + (mte.ehHdr.vaddr - mte.ehHdr.offset)

/-! ## Reading an FDE -/

section Read

variable {s : Space}

theorem read_eq_ok {size : ℕ} {addr addr' val : UInt64} (h : s.read size addr = .ok val addr') :
    val = s.word addr size ∧ addr' = addr + .ofNat size := by
  unfold Space.read at h
  obtain ⟨addr1, _, hget, h⟩ := bind_eq_ok.mp h
  cases hget
  by_cases h0 : addr = 0
  · rw [if_pos h0] at h
    cases h
  · rw [if_neg h0] at h
    obtain ⟨_, _, hset, h⟩ := bind_eq_ok.mp h
    cases hset
    cases h
    exact ⟨rfl, rfl⟩

theorem fdeHeader_addr {fde fdeEnd next : UInt64} {cie : Option UInt64}
    (h : s.fdeHeader fde = .ok (fdeEnd, cie) next) : next = s.initialLocation fde := by
  unfold Space.fdeHeader at h
  unfold Space.initialLocation
  obtain ⟨u32val, addr1, h1, h⟩ := bind_eq_ok.mp h
  obtain ⟨rfl, rfl⟩ := read_eq_ok h1
  by_cases hfull : s.word fde 4 = 0xffffffff
  · rw [if_neg (not_not.mpr hfull)] at h
    rw [if_pos hfull]
    obtain ⟨u64val, addr2, h2, h⟩ := bind_eq_ok.mp h
    obtain ⟨rfl, rfl⟩ := read_eq_ok h2
    obtain ⟨_, _, hget, h⟩ := bind_eq_ok.mp h
    cases hget
    obtain ⟨cieOffset, addr3, h3, h⟩ := bind_eq_ok.mp h
    obtain ⟨rfl, rfl⟩ := read_eq_ok h3
    obtain ⟨-, rfl⟩ := pure_eq_ok.mp h
    rw [add_assoc, add_assoc]
    rfl
  · rw [if_pos hfull] at h
    rw [if_neg hfull]
    by_cases hzero : s.word fde 4 = 0
    · rw [if_pos hzero] at h
      cases h
    · rw [if_neg hzero] at h
      obtain ⟨_, _, hget, h⟩ := bind_eq_ok.mp h
      cases hget
      obtain ⟨cieOffset, addr2, h2, h⟩ := bind_eq_ok.mp h
      obtain ⟨rfl, rfl⟩ := read_eq_ok h2
      obtain ⟨-, rfl⟩ := pure_eq_ok.mp h
      rw [add_assoc]
      rfl

/-- A distance that is not 0 is taken from the place of the number. -/
theorem readEncodedPointer_pcrel {gp addr raw next : UInt64} {enc : UInt8}
    (henc : enc &&& 0xf0 = 0x10) (hval : s.readFormat (enc &&& 0x0f) true addr = .ok raw next)
    (hraw : raw ≠ 0) (startIp : UInt64) :
    s.readEncodedPointer gp enc true startIp addr = .ok (s.trim (raw + addr)) next := by
  have homit : enc ≠ 0xff := by
    rintro rfl
    exact absurd henc (by decide)
  have haligned : enc ≠ 0x50 := by
    rintro rfl
    exact absurd henc (by decide)
  have happl : enc &&& 0x70 = 0x10 := by
    calc enc &&& 0x70 = enc &&& (0xf0 &&& 0x70) := rfl
      _ = enc &&& 0xf0 &&& 0x70 := (UInt8.and_assoc ..).symm
      _ = 0x10 := by rw [henc]; rfl
  have hindirect : enc &&& 0x80 = 0 := by
    calc enc &&& 0x80 = enc &&& (0xf0 &&& 0x80) := rfl
      _ = enc &&& 0xf0 &&& 0x80 := (UInt8.and_assoc ..).symm
      _ = 0 := by rw [henc]; rfl
  have happly : s.applyEncoding gp enc true addr startIp raw next =
      .ok (s.trim (raw + addr)) next := by
    unfold Space.applyEncoding
    rw [if_neg hraw, happl]
    dsimp only
    rw [hindirect]
    rfl
  unfold Space.readEncodedPointer
  refine bind_eq_ok.mpr ⟨addr, addr, rfl, ?_⟩
  rw [if_neg homit, if_neg haligned]
  exact bind_eq_ok.mpr ⟨raw, next, hval, happly⟩

theorem lift_eq_ok {α : Type} {r : Reader α} {p p' : Parse} {a : α} :
    Parser.lift r p = .ok a p' ↔ r p.addr = .ok a p'.addr ∧ p'.dci = p.dci := by
  unfold Parser.lift
  cases r p.addr with
  | ok b addr =>
    constructor
    · intro h
      cases h
      exact ⟨rfl, rfl⟩
    · rintro ⟨h, hdci⟩
      cases h
      rw [← hdci]
  | error e addr => exact ⟨fun h => (by cases h), fun h => (by cases h.1)⟩

/-- The start and the encoding of an entry stay as they are. -/
def Settled {α : Type} (r : Parser α) : Prop :=
  ∀ p a p', r p = .ok a p' →
    p'.dci.startIp = p.dci.startIp ∧ p'.dci.fdeEncoding = p.dci.fdeEncoding

theorem Settled.bind {α β : Type} {x : Parser α} {f : α → Parser β} (hx : Settled x)
    (hf : ∀ a, Settled (f a)) : Settled (x >>= f) := by
  intro p b p' h
  obtain ⟨a, p1, h1, h2⟩ := bind_eq_ok.mp h
  obtain ⟨hs1, he1⟩ := hx p a p1 h1
  obtain ⟨hs2, he2⟩ := hf a p1 b p' h2
  exact ⟨hs2.trans hs1, he2.trans he1⟩

theorem Settled.pure {α : Type} (a : α) : Settled (pure a) := by
  intro p a' p' h
  obtain ⟨-, rfl⟩ := pure_eq_ok.mp h
  exact ⟨rfl, rfl⟩

theorem Settled.lift {α : Type} (r : Reader α) : Settled (Parser.lift r) := by
  intro p a p' h
  rw [(lift_eq_ok.mp h).2]
  exact ⟨rfl, rfl⟩

theorem Settled.getAddr : Settled Parser.getAddr := by
  intro p a p' h
  cases h
  exact ⟨rfl, rfl⟩

theorem Settled.getDci : Settled Parser.getDci := by
  intro p a p' h
  cases h
  exact ⟨rfl, rfl⟩

theorem Settled.setDci {f : CieInfo → CieInfo}
    (hf : ∀ dci, (f dci).startIp = dci.startIp ∧ (f dci).fdeEncoding = dci.fdeEncoding) :
    Settled (Parser.setDci f) := by
  intro p a p' h
  cases h
  exact hf p.dci

theorem settled_fdeAugSize : Settled s.fdeAugSize := by
  refine .bind .getDci fun dci => ?_
  split
  · exact .lift _
  · exact .pure 0

theorem settled_fdeAbi : Settled s.fdeAbi := by
  refine .bind .getDci fun dci => ?_
  split
  · refine .bind (.lift _) fun abi => .bind (.setDci fun _ => ⟨rfl, rfl⟩) fun _ => ?_
    exact .bind (.lift _) fun tag => .setDci fun _ => ⟨rfl, rfl⟩
  · exact .pure ()

theorem settled_fdeRest (gp fdeEnd startIp : UInt64) : Settled (s.fdeRest gp fdeEnd startIp) := by
  refine .bind .getDci fun dci => .bind (.lift _) fun ipRange => ?_
  refine .bind (.setDci fun _ => ⟨rfl, rfl⟩) fun _ => .bind settled_fdeAugSize fun augSize => ?_
  refine .bind .getAddr fun addr => .bind (.setDci fun _ => ⟨rfl, rfl⟩) fun _ => ?_
  exact .bind (.lift _) fun _ => settled_fdeAbi

/-- The start in the entry is the encoded pointer behind the header of the FDE. -/
theorem extractCfiFromFde_startIp {gp fde fdeEnd cieAddr next : UInt64} {dci0 : CieInfo}
    {p : Parse} (hcie : s.fdeHeader fde = .ok (fdeEnd, some cieAddr) next)
    (h : s.extractCfiFromFde gp ⟨fde, dci0⟩ = .ok () p) :
    ∃ next', s.readEncodedPointer gp p.dci.fdeEncoding true 0 (s.initialLocation fde) =
      .ok p.dci.startIp next' := by
  rw [← fdeHeader_addr hcie]
  unfold Space.extractCfiFromFde at h
  obtain ⟨header, p1, h1, h⟩ := bind_eq_ok.mp h
  obtain ⟨h1, -⟩ := lift_eq_ok.mp h1
  obtain ⟨rfl, haddr⟩ := EStateM.Result.ok.inj (h1.symm.trans hcie)
  obtain ⟨_, p2, h2, h⟩ := bind_eq_ok.mp h
  cases h2
  obtain ⟨_, p3, h3, h⟩ := bind_eq_ok.mp h
  have haddr3 : p3.addr = next := by
    unfold Parser.at' at h3
    revert h3
    cases s.parseCie gp _ with
    | ok _ p' =>
      intro h3
      cases h3
      exact haddr
    | error e p' =>
      intro h3
      cases h3
  obtain ⟨_, p4, h4, h⟩ := bind_eq_ok.mp h
  cases h4
  obtain ⟨startIp, p5, h5, h⟩ := bind_eq_ok.mp h
  obtain ⟨h5, hdci5⟩ := lift_eq_ok.mp h5
  obtain ⟨_, p6, h6, h⟩ := bind_eq_ok.mp h
  cases h6
  obtain ⟨hstart, henc⟩ := settled_fdeRest gp _ _ _ _ _ h
  rw [hstart, henc]
  dsimp only
  rw [hdci5, ← haddr3]
  exact ⟨p5.addr, h5⟩

end Read

/-! ## Addresses -/

section Addresses

open scoped UInt64.CommRing

variable {s : Space}

theorem trim_trim_add (a b : UInt64) : s.trim (s.trim a + b) = s.trim (a + b) := by
  unfold Space.trim
  split
  · rfl
  · rw [UInt64.toUInt32_add, UInt64.toUInt32_add, UInt32.toUInt32_toUInt64]

theorem toNat_trim (h : s.is64bit = false) (a : UInt64) : (s.trim a).toNat = a.toNat % 2 ^ 32 := by
  unfold Space.trim
  rw [h]
  rfl

/-- Adding the same to two addresses. -/
theorem trim_add_inj {a b c : UInt64} : s.trim (c + a) = s.trim (c + b) ↔ s.trim a = s.trim b := by
  unfold Space.trim
  split
  · exact UInt64.add_right_inj c
  · have hinj (x y : UInt32) : x.toUInt64 = y.toUInt64 ↔ x = y :=
      ⟨fun h => (by rw [← UInt32.toUInt32_toUInt64 x, h, UInt32.toUInt32_toUInt64]),
        fun h => h ▸ rfl⟩
    rw [hinj, hinj, UInt64.toUInt32_add, UInt64.toUInt32_add]
    exact UInt32.add_right_inj _

/-- The start that is computed and the one that the FDE stands for. -/
theorem startIp_eq_iff {mte : MtElf} {mmapAddr place raw bias : UInt64}
    (hseg : mte.txtHdr.vaddr - mte.txtHdr.offset = mte.ehHdr.vaddr - mte.ehHdr.offset) :
    s.trim (s.trim (raw + place) - mmapAddr + (mte.txtHdr.vaddr - 0 + bias)) =
        s.trim (mte.linkAddr mmapAddr place + raw + bias) ↔
      s.trim mte.txtHdr.offset = s.trim mte.loadbase := by
  have hcommon : mte.linkAddr mmapAddr place + raw + bias =
      (raw + place - mmapAddr + (mte.txtHdr.vaddr - mte.txtHdr.offset) + bias) +
        mte.loadbase := by
    unfold MtElf.linkAddr
    rw [hseg]
    ring
  have hcomputed : raw + place + (mte.txtHdr.vaddr - 0 + bias - mmapAddr) =
      (raw + place - mmapAddr + (mte.txtHdr.vaddr - mte.txtHdr.offset) + bias) +
        mte.txtHdr.offset := by ring
  have hassoc : s.trim (raw + place) - mmapAddr + (mte.txtHdr.vaddr - 0 + bias) =
      s.trim (raw + place) + (mte.txtHdr.vaddr - 0 + bias - mmapAddr) := by ring
  rw [hassoc, trim_trim_add, hcomputed, hcommon]
  exact trim_add_inj

end Addresses

/-! ## The program headers -/

theorem readPhdr_vstart {mte : MtElf} (h : mte.vstart = 0) (phdr : Phdr) :
    (mte.readPhdr phdr).vstart = 0 := by
  unfold MtElf.readPhdr
  cases phdr.type with
  | load =>
    dsimp only
    rw [h, if_neg (UInt64.not_lt_zero)]
  | _ => exact h

/-- The page-aligned addresses are never less than where the search for the least one starts. -/
theorem foldl_readPhdr_vstart (phdrs : List Phdr) {mte : MtElf} (h : mte.vstart = 0) :
    (phdrs.foldl MtElf.readPhdr mte).vstart = 0 := by
  induction phdrs generalizing mte with
  | nil => exact h
  | cons phdr phdrs ih => exact ih (readPhdr_vstart h phdr)

theorem readPhdr_loadbase_le (mte : MtElf) (phdr : Phdr) :
    (mte.readPhdr phdr).loadbase ≤ mte.loadbase ∧
      (phdr.type = .load → (mte.readPhdr phdr).loadbase ≤ phdr.offset) := by
  unfold MtElf.readPhdr
  cases phdr.type with
  | load =>
    dsimp only
    split
    · rename_i h
      exact ⟨UInt64.le_of_lt h, fun _ => UInt64.le_refl _⟩
    · rename_i h
      exact ⟨UInt64.le_refl _, fun _ => UInt64.not_lt.mp h⟩
  | _ => exact ⟨UInt64.le_refl _, fun h => (by cases h)⟩

theorem foldl_readPhdr_loadbase_le (phdrs : List Phdr) (mte : MtElf) :
    (phdrs.foldl MtElf.readPhdr mte).loadbase ≤ mte.loadbase ∧
      ∀ phdr ∈ phdrs, phdr.type = .load →
        (phdrs.foldl MtElf.readPhdr mte).loadbase ≤ phdr.offset := by
  induction phdrs generalizing mte with
  | nil => exact ⟨UInt64.le_refl _, fun phdr h => (by cases h)⟩
  | cons phdr phdrs ih =>
    obtain ⟨hle, hall⟩ := ih (mte.readPhdr phdr)
    obtain ⟨hle', hthis⟩ := readPhdr_loadbase_le mte phdr
    refine ⟨UInt64.le_trans hle hle', fun p hp htype => ?_⟩
    rcases List.mem_cons.mp hp with rfl | hp
    · exact UInt64.le_trans hle (hthis htype)
    · exact hall p hp htype

/-- The text is one of the program headers, if there is one. -/
theorem foldl_readPhdr_txtHdr (phdrs : List Phdr) (mte : MtElf) :
    (phdrs.foldl MtElf.readPhdr mte).txtHdr = mte.txtHdr ∨
      (phdrs.foldl MtElf.readPhdr mte).txtHdr ∈ phdrs := by
  induction phdrs generalizing mte with
  | nil => exact .inl rfl
  | cons phdr phdrs ih =>
    rcases ih (mte.readPhdr phdr) with h | h
    · have hone : (mte.readPhdr phdr).txtHdr = mte.txtHdr ∨
          (mte.readPhdr phdr).txtHdr = phdr := by
        unfold MtElf.readPhdr
        cases phdr.type with
        | load =>
          dsimp only
          split
          · exact .inr rfl
          · exact .inl rfl
        | _ => exact .inl rfl
      rcases hone with hone | hone
      · exact .inl (h.trans hone)
      · exact .inr (List.mem_cons.mpr (.inl (h.trans hone)))
    · exact .inr (List.mem_cons_of_mem phdr h)

theorem elfRead_vstart {phdrs : List Phdr} {pltgot : UInt64} {mte : MtElf}
    (hread : elfRead phdrs pltgot = some mte) : mte.vstart = 0 := by
  unfold elfRead at hread
  split at hread
  · cases hread
    exact foldl_readPhdr_vstart phdrs rfl
  · cases hread

/-- In a file of 32 bits the offsets have 32 bits. -/
theorem elfRead_offsets {phdrs : List Phdr} {pltgot : UInt64} {mte : MtElf}
    (hread : elfRead phdrs pltgot = some mte) (hphdrs : ∀ phdr ∈ phdrs,
    phdr.offset.toNat < 2 ^ 32) :
    mte.txtHdr.offset.toNat < 2 ^ 32 ∧ mte.loadbase.toNat < 2 ^ 32 := by
  unfold elfRead at hread
  split at hread
  · rename_i hload
    cases hread
    obtain ⟨phdr, hmem, htype⟩ := List.any_eq_true.mp hload
    obtain ⟨-, hle⟩ := foldl_readPhdr_loadbase_le phdrs .new
    constructor
    · rcases foldl_readPhdr_txtHdr phdrs .new with h | h
      · dsimp only
        rw [h]
        decide
      · exact hphdrs _ h
    · dsimp only
      rw [UInt64.toNat_and]
      refine Nat.lt_of_le_of_lt Nat.and_le_left ?_
      exact Nat.lt_of_le_of_lt (UInt64.le_iff_toNat_le.mp
        (hle phdr hmem (of_decide_eq_true htype))) (hphdrs phdr hmem)
  · cases hread

theorem elfReadLibrary_fields {s : Space} {phdrs : List Phdr}
    {pltgot eEntry bias mmapAddr : UInt64} {filename : String} {mte : MtElf} {libref : Libref}
    (hread : elfRead phdrs pltgot = some mte)
    (hlib : s.elfReadLibrary phdrs pltgot eEntry bias mmapAddr filename = some (.ok libref)) :
    libref.mmapAddr = mmapAddr ∧ libref.txtVaddr = mte.txtHdr.vaddr - 0 + bias := by
  have hinit : s.elfLibInit { mte with bias, entryAddr := eEntry - mte.vstart + bias } mmapAddr
      { Libref.new .lib with filename } = .ok libref := by
    unfold Space.elfReadLibrary at hlib
    rw [hread] at hlib
    exact Option.some.inj hlib
  rw [← elfRead_vstart hread]
  unfold Space.elfLibInit at hinit
  dsimp only at hinit
  split at hinit
  · unfold Space.getUnwindTable at hinit
    dsimp only at hinit
    split at hinit
    · cases hinit
      exact ⟨rfl, rfl⟩
    · cases hinit
  · cases hinit
    exact ⟨rfl, rfl⟩

/-! ## The result -/

theorem inRange_iff (dci : CieInfo) (ip : UInt64)
    (hend : dci.startIp.toNat + dci.ipRange.toNat < 2 ^ 64) :
    dci.inRange ip = true ↔
      dci.startIp.toNat ≤ ip.toNat ∧ ip.toNat < dci.startIp.toNat + dci.ipRange.toNat := by
  unfold CieInfo.inRange
  rw [Bool.not_eq_true', Bool.or_eq_false_iff, decide_eq_false_iff_not, decide_eq_false_iff_not,
    ge_iff_le, UInt64.not_lt, UInt64.not_le, UInt64.le_iff_toNat_le, UInt64.lt_iff_toNat_lt,
    UInt64.toNat_add, Nat.mod_eq_of_lt hend]

/-- Where the search finds an FDE with a relative start, the run-time address it computes is the one
of the FDE, and the range check accepts what the FDE covers, exactly when the text of the file
begins where its mapping does. -/
theorem search_startIp_iff (s : Space) (phdrs : List Phdr)
    (pltgot eEntry bias mmapAddr : UInt64) (filename : String) (mte : MtElf) (libref : Libref)
    (ip e raw : UInt64) (dci0 dci : CieInfo)
    (hread : elfRead phdrs pltgot = some mte)
    (helf32 : s.is64bit = false → ∀ phdr ∈ phdrs, phdr.offset.toNat < 2 ^ 32)
    (hlib : s.elfReadLibrary phdrs pltgot eEntry bias mmapAddr filename = some (.ok libref))
    (hseg : mte.txtHdr.vaddr - mte.txtHdr.offset = mte.ehHdr.vaddr - mte.ehHdr.offset)
    (hlookup : s.lookup libref.fdeTab libref.fdeCount
      (ip - libref.ehHdrVaddr).toUInt32.toInt32 = .ok (some e))
    (hfde : s.PcRelative libref.pltgot
      (libref.mmapAddr + s.tableFde libref.fdeTab e + libref.ehHdrOffset) dci0 dci raw)
    (start : UInt64) (hstart : start = s.trim (mte.linkAddr mmapAddr (s.initialLocation
      (libref.mmapAddr + s.tableFde libref.fdeTab e + libref.ehHdrOffset)) + raw + bias))
    (hend : start.toNat + dci.ipRange.toNat < 2 ^ 64) :
    ((s.searchUnwindTable libref ip dci0).2.startIp = start ∧
      ((s.searchUnwindTable libref ip dci0).1 = .ok () ↔
        start.toNat ≤ ip.toNat ∧ ip.toNat < start.toNat + dci.ipRange.toNat)) ↔
      mte.txtHdr.offset = mte.loadbase := by
  obtain ⟨hmmap, htxt⟩ := elfReadLibrary_fields hread hlib
  obtain ⟨addr, hextract⟩ := hfde.extract
  obtain ⟨fdeEnd, cieAddr, next, hcie⟩ := hfde.cie
  obtain ⟨next', hvalue⟩ := hfde.value
  obtain ⟨_, hpointer⟩ := extractCfiFromFde_startIp hcie hextract
  -- the encoded pointer is the distance, taken from its place
  have hraw := (EStateM.Result.ok.inj (hpointer.symm.trans
    (readEncodedPointer_pcrel hfde.encoding hvalue hfde.nonzero 0))).1
  have hsearch : s.searchUnwindTable libref ip dci0 =
      let dci := { dci with startIp := s.trim (dci.startIp - libref.mmapAddr + libref.txtVaddr) }
      if dci.inRange ip then (.ok (), dci) else (.error (.error .noInfo), dci) := by
    unfold Space.searchUnwindTable
    rw [hlookup]
    dsimp only
    rw [hextract]
  have hdci : (s.searchUnwindTable libref ip dci0).2 =
      { dci with startIp := s.trim (dci.startIp - libref.mmapAddr + libref.txtVaddr) } := by
    rw [hsearch]
    dsimp only
    split <;> rfl
  have hok : (s.searchUnwindTable libref ip dci0).1 = .ok () ↔
      (s.searchUnwindTable libref ip dci0).2.inRange ip = true := by
    rw [hdci, hsearch]
    dsimp only
    split
    · rename_i h
      exact ⟨fun _ => h, fun _ => rfl⟩
    · rename_i h
      exact ⟨fun h' => (by cases h'), fun h' => absurd h' h⟩
  have hcompare : (s.searchUnwindTable libref ip dci0).2.startIp = start ↔
      mte.txtHdr.offset = mte.loadbase := by
    rw [hdci, hstart]
    dsimp only
    rw [hmmap, htxt, hraw, hmmap, startIp_eq_iff hseg]
    cases hbits : s.is64bit with
    | true =>
      unfold Space.trim
      rw [hbits]
      exact Iff.rfl
    | false =>
      obtain ⟨h1, h2⟩ := elfRead_offsets hread (helf32 hbits)
      rw [← UInt64.toNat_inj, toNat_trim hbits, toNat_trim hbits, Nat.mod_eq_of_lt h1,
        Nat.mod_eq_of_lt h2, UInt64.toNat_inj]
  rw [← hcompare]
  refine and_iff_left_of_imp fun heq => ?_
  have hrange : (s.searchUnwindTable libref ip dci0).2.ipRange = dci.ipRange := by rw [hdci]
  have hiff := inRange_iff (s.searchUnwindTable libref ip dci0).2 ip
    (by rw [heq, hrange]; exact hend)
  rw [hok, hiff, heq, hrange]

/-! ## Two files -/

/-- `.eh_frame_hdr` and `.eh_frame` with the FDE of one function of 16 bytes, which is 4096 bytes in
front of them. -/
def unwindTables : List UInt8 :=
  [0x01, 0x1b, 0x03, 0x3b, 0x1c, 0x00, 0x00, 0x00, 0x01, 0x00, 0x00, 0x00,
    0x00, 0xf0, 0xff, 0xff, 0x38, 0x00, 0x00, 0x00,
    0x00, 0x00, 0x00, 0x00, 0x00, 0x00, 0x00, 0x00, 0x00, 0x00, 0x00, 0x00,
    0x14, 0x00, 0x00, 0x00, 0x00, 0x00, 0x00, 0x00, 0x01, 0x7a, 0x52, 0x00, 0x01, 0x78, 0x10, 0x01,
    0x1b, 0x0c, 0x07, 0x08, 0x90, 0x01, 0x00, 0x00,
    0x10, 0x00, 0x00, 0x00, 0x1c, 0x00, 0x00, 0x00, 0xc0, 0xef, 0xff, 0xff, 0x10, 0x00, 0x00, 0x00,
    0x00, 0x00, 0x00, 0x00]

/-- A file mapped at `0x7f0000000000` with the unwind tables at an offset. -/
def mapped (offset : UInt64) : Space where
  is64bit := true
  image := fun a => unwindTables.getD (a - (0x7f0000000000 + offset)).toNat 0
  proc := fun _ => none
  vm _ _ := .error .enosys
  errno _ := .eio
  nosys := false
  regs := fun _ => 0
  libs := .nil
  passes := 8

/-- All in one segment. -/
def oneSegment : List Phdr :=
  [⟨.load, 5, 0, 0, 0x1100, 0x1000⟩, ⟨.dynamic, 6, 0x20, 0x20, 0x20, 8⟩,
    ⟨.gnuEhFrame, 4, 0x1040, 0x1040, 0x14, 4⟩]

/-- The text in a segment of its own behind the headers. -/
def separateText : List Phdr :=
  [⟨.load, 4, 0, 0, 0x100, 0x1000⟩, ⟨.load, 5, 0x1000, 0x1000, 0x1100, 0x1000⟩,
    ⟨.dynamic, 6, 0x20, 0x20, 0x20, 8⟩, ⟨.gnuEhFrame, 4, 0x2040, 0x2040, 0x14, 4⟩]

def mteOf (phdrs : List Phdr) : MtElf := (elfRead phdrs 0).getD .new

def librefOf (offset : UInt64) (phdrs : List Phdr) : Libref :=
  match (mapped offset).elfReadLibrary phdrs 0 0 0x400000 0x7f0000000000 "lib" with
  | some (.ok libref) => libref
  | _ => .new .lib

/-- The entry of the function as its FDE gives it. -/
def entryOf (offset : UInt64) : CieInfo :=
  match (mapped offset).extractCfiFromFde 0 ⟨0x7f0000000038 + offset, .zero⟩ with
  | .ok _ p => p.dci
  | .error _ p => p.dci

/-- Results are equal when their parts are. -/
instance decidableEqResult {ε σ α : Type} [DecidableEq ε] [DecidableEq σ] [DecidableEq α] :
    DecidableEq (EStateM.Result ε σ α)
  | .ok a s, .ok b t => decidable_of_iff (a = b ∧ s = t) (by simp)
  | .error e s, .error e' t => decidable_of_iff (e = e' ∧ s = t) (by simp)
  | .ok _ _, .error _ _ => isFalse (by simp)
  | .error _ _, .ok _ _ => isFalse (by simp)

theorem search_startIp_iff_oneSegment :
    ((mapped 0x1040).searchUnwindTable (librefOf 0x1040 oneSegment) 0x400044 .zero).2.startIp =
        0x400040 ∧
      (((mapped 0x1040).searchUnwindTable (librefOf 0x1040 oneSegment) 0x400044 .zero).1 = .ok () ↔
        (0x400040 : UInt64).toNat ≤ (0x400044 : UInt64).toNat ∧
          (0x400044 : UInt64).toNat < (0x400040 :
            UInt64).toNat + (entryOf 0x1040).ipRange.toNat) := by
  refine (search_startIp_iff (mapped 0x1040) oneSegment 0 0 0x400000 0x7f0000000000 "lib"
    (mteOf oneSegment) (librefOf 0x1040 oneSegment) 0x400044 0 0xffffffffffffefc0 .zero
    (entryOf 0x1040) ?_ ?_ ?_ ?_ ?_ ⟨⟨0x7f0000001089, ?_⟩, ⟨0x7f000000108c, 0x7f0000001060,
      0x7f0000001080, ?_⟩, ?_, ⟨0x7f0000001084, ?_⟩, ?_⟩ 0x400040 ?_ ?_).mpr ?_
  · decide +kernel
  · intro h
    cases h
  all_goals decide +kernel

/-- With the text behind the first page of the file, the start is a page too high, and the address
of the function is refused. -/
theorem separateText_refused :
    (mteOf separateText).txtHdr.vaddr - (mteOf separateText).txtHdr.offset =
        (mteOf separateText).ehHdr.vaddr - (mteOf separateText).ehHdr.offset ∧
      (mteOf separateText).linkAddr 0x7f0000000000
          ((mapped 0x2040).initialLocation 0x7f0000002078) + 0xffffffffffffefc0 + 0x400000 =
        0x401040 ∧
      (entryOf 0x2040).ipRange = 16 ∧
      ((mapped 0x2040).searchUnwindTable (librefOf 0x2040 separateText) 0x401044 .zero).1 =
        .error (.error .noInfo) ∧
      ((mapped 0x2040).searchUnwindTable (librefOf 0x2040 separateText)
        0x401044 .zero).2.startIp = 0x402040 := by
  refine ⟨?_, ?_, ?_, ?_, ?_⟩
  all_goals decide +kernel

end Mtrace.Dwarf
