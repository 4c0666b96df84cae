import Mtrace.Dwarf.ExprLoop
import Mtrace.Dwarf.Letters

/-!
# Reading the headers

What `parse_cie` and `dwarf_extract_cfi_from_fde` take from a well-formed CIE and FDE.  The
instructions of the CIE begin where the last letter has been read, whatever the size of the
augmentation data.
-/

namespace Mtrace.Dwarf

open Standard

/-! ## The CIE -/

/-- What `parse_cie` takes from a CIE that ends at `cieEnd`, by its first letters; `rest` is the
data behind their fields. -/
structure TakenFrom (s : Space) (cieEnd : UInt64) (cie : Cie)
    (aug : Augmentation) (rest : List UInt8)
    (dci : CieInfo) : Prop where
  sizedAugmentation : dci.sizedAugmentation = cie.sized
  signalFrame : dci.signalFrame = aug.taken
  haveAbiMarker : dci.haveAbiMarker = aug.taken
  lsdaEncoding : dci.lsdaEncoding = aug.lsda
  fdeEncoding : dci.fdeEncoding = aug.fde
  cieInstrStart : At s (cieEnd - .ofNat cie.instrs.length) dci.cieInstrStart rest
  cieInstrEnd : dci.cieInstrEnd = cieEnd

section Cie

variable {s : Space} {cieAddr cieEnd gp : UInt64} {bs body rest : List UInt8} {size : ℕ} {cie : Cie}
  {aug : Augmentation}

/-- Whichever way a value is read, the rest goes on with it. -/
theorem ite_bind_ok {ε σ α β : Type} {c : Prop} [Decidable c] {x y : EStateM ε σ α}
    {f : α → EStateM ε σ β} {p q : σ} {v : α} (h : (if c then x else y) p = .ok v q) :
    (if c then x >>= f else y >>= f) p = f v q := by
  by_cases hc : c
  · rw [if_pos hc] at h ⊢
    exact bind_ok h
  · rw [if_neg hc] at h ⊢
    exact bind_ok h

theorem start_fde : (Augmentation.start s.addrSize).fde = if s.is64bit then 0x04 else 0x03 := by
  unfold Augmentation.start Space.addrSize
  cases s.is64bit with
  | true => rfl
  | false => rfl

/-- The column of the return address is a byte or a number. -/
theorem readColumn_eq {version : UInt8} {a : UInt64} {bs' : List UInt8} (dci : CieInfo)
    (h : At s cieEnd a bs) (hlen : bs.length ≤ s.passes)
    (hdec : skipColumn version bs = some bs') :
    ¬ (version ≠ 3 ∧ version ≠ 1) ∧ ∃ x a', (if version = 1 then (do
        let ch ← Parser.lift s.read8
        return ch.toUInt64)
      else Parser.lift s.readUleb128 : Parser UInt64) ⟨a, dci⟩ = .ok x ⟨a', dci⟩ ∧
        At s cieEnd a' bs' := by
  unfold skipColumn at hdec
  by_cases h1 : version = 1
  · rw [if_pos h1] at hdec ⊢
    obtain ⟨⟨ch, bs1⟩, hnext, heq⟩ := Option.map_eq_some_iff.mp hdec
    cases heq
    obtain ⟨hread, hat⟩ := h.next hnext
    exact ⟨fun hnot => hnot.2 h1, _, _, bind_ok (lift_ok hread), hat⟩
  rw [if_neg h1] at hdec ⊢
  by_cases h3 : version = 3
  · rw [if_pos h3] at hdec
    obtain ⟨⟨m, bs1⟩, hm, heq⟩ := Option.map_eq_some_iff.mp hdec
    cases heq
    obtain ⟨x, a', hread, hat, -⟩ := h.uleb hm hlen
    exact ⟨fun hnot => hnot.1 h3, x, a', lift_ok hread, hat⟩
  · rw [if_neg h3] at hdec
    cases hdec

theorem length_next {b : UInt8} (h : next bs = some (b, rest)) : rest.length + 1 = bs.length := by
  cases bs with
  | nil => cases h
  | cons b' bs =>
    cases h
    rfl

theorem length_skipColumn {version : UInt8} {bs' : List UInt8}
    (h : skipColumn version bs = some bs') : bs'.length ≤ bs.length := by
  unfold skipColumn at h
  split at h
  · obtain ⟨⟨ch, bs1⟩, hnext, heq⟩ := Option.map_eq_some_iff.mp h
    cases heq
    have hlen := length_next hnext
    exact hlen.le.trans' (Nat.le_succ _)
  split at h
  · obtain ⟨⟨m, bs1⟩, hm, heq⟩ := Option.map_eq_some_iff.mp h
    cases heq
    have hlen := Leb128.length_decode hm
    dsimp only
    omega
  · cases h

theorem length_cutString {string : List UInt8} (h : cutString bs = some (string, rest)) :
    rest.length ≤ bs.length := by
  induction bs generalizing string with
  | nil => cases h
  | cons ch bs ih =>
    rw [cutString] at h
    split at h
    · cases h
      exact Nat.le_succ _
    · obtain ⟨⟨string', rest'⟩, hcut, heq⟩ := Option.map_eq_some_iff.mp h
      cases heq
      exact (ih hcut).trans (Nat.le_succ _)

/-- `parse_cie` reads a CIE with the first three letters behind 'z'. -/
theorem parseCie_eq (gp : UInt64) (h : At s cieEnd cieAddr bs)
    (hentry : decodeEntry bs = some (size, 0, body)) (hcie : decodeCie body = some cie)
    (hletters : letters s.addrSize (cieEnd - .ofNat cie.instrs.length) (cie.string.take 3) cie.data
      (.start s.addrSize) = some (aug, rest)) (hlen : bs.length ≤ s.passes) (hp : 10 ≤ s.passes) :
    ∃ dci a', s.parseCie gp ⟨cieAddr, .zero⟩ = .ok () ⟨a', dci⟩ ∧
      TakenFrom s cieEnd cie aug rest dci := by
  obtain ⟨a1, hheader, hat1⟩ := parseCieHeader_eq h hentry hp
  have hlen1 := (length_decodeEntry hentry).1
  obtain ⟨⟨version, bs2⟩, hversion, hcie⟩ := Option.bind_eq_some_iff.mp hcie
  obtain ⟨hread2, hat2⟩ := hat1.next hversion
  obtain ⟨⟨string, bs3⟩, hcut, hcie⟩ := Option.bind_eq_some_iff.mp hcie
  have hlen2 := length_next hversion
  obtain ⟨a3, hread3, hat3⟩ := readAugstr_eq (p := s.passes) [] hat2 hcut (by decide)
    (by omega)
  have hlen3 := length_cutString hcut
  obtain ⟨⟨m4, bs4⟩, hdec4, hcie⟩ := Option.bind_eq_some_iff.mp hcie
  obtain ⟨codeAlign, a4, hread4, hat4, -⟩ := hat3.uleb hdec4 (by omega)
  have hlen4 := Leb128.length_decode hdec4
  obtain ⟨⟨m5, bs5⟩, hdec5, hcie⟩ := Option.bind_eq_some_iff.mp hcie
  obtain ⟨dataAlign, a5, hread5, hat5⟩ := hat4.sleb hdec5 (by omega)
  have hlen5 := Leb128.length_decode hdec5
  obtain ⟨bs6, hdec6, hparts⟩ := Option.bind_eq_some_iff.mp hcie
  have hlen6 := length_skipColumn hdec6
  obtain ⟨hok, column, a6, hread6, hat6⟩ := readColumn_eq { CieInfo.zero with
    lsdaEncoding := 0xff, cieInstrEnd := cieEnd, codeAlign, dataAlign } hat5 (by omega) hdec6
  have hdefault : (if s.is64bit then 0x04 else 0x03) = (Augmentation.start s.addrSize).fde :=
    start_fde.symm
  -- what is known before the letters
  let dci0 : CieInfo := { CieInfo.zero with
    lsdaEncoding := 0xff, cieInstrEnd := cieEnd, codeAlign, dataAlign,
    retAddrColumn := column.toUInt32.toUInt64 }
  unfold Space.parseCie
  rw [hdefault]
  cases string with
  | nil =>
    cases hparts
    cases hletters
    have hnone : At s (cieEnd - .ofNat bs6.length) a6 [] := by
      have hzero : a6 + .ofNat 0 = a6 := UInt64.add_zero a6
      have htake := hat6.take (Nat.zero_le bs6.length)
      rw [hzero] at htake
      rw [hat6.end_sub]
      exact htake
    refine ⟨{ dci0
      with fdeEncoding := (Augmentation.start s.addrSize).fde, cieInstrStart := a6 }, a6,
      ?_, rfl, rfl, rfl, rfl, rfl, hnone, rfl⟩
    apply (bind_ok rfl).trans
    apply (bind_ok (lift_ok hheader)).trans
    apply (bind_ok rfl).trans
    apply (bind_ok (lift_ok hread2)).trans
    apply (congrFun (if_neg hok) _).trans
    apply (bind_ok (lift_ok hread3)).trans
    apply (bind_ok (lift_ok hread4)).trans
    apply (bind_ok rfl).trans
    apply (bind_ok (lift_ok hread5)).trans
    apply (bind_ok rfl).trans
    apply (ite_bind_ok hread6).trans
    rfl
  | cons ch string =>
    rw [decodeParts] at hparts
    split at hparts
    case isFalse => cases hparts
    case isTrue hz =>
      subst hz
      obtain ⟨⟨data, instrs⟩, hblock, heq⟩ := Option.map_eq_some_iff.mp hparts
      cases heq
      obtain ⟨a7, hread7, hat7, -⟩ := hat6.augData hblock (by omega)
      obtain ⟨a8, hread8, hat8⟩ := parseAugstr_eq gp { dci0 with sizedAugmentation := true }
        hat7 hletters rfl hp
      refine ⟨{ CieInfo.say { dci0 with sizedAugmentation := true } aug with
        fdeEncoding := aug.fde, cieInstrStart := a8 }, a8, ?_, rfl, rfl, rfl, rfl, rfl, hat8, rfl⟩
      apply (bind_ok rfl).trans
      apply (bind_ok (lift_ok hheader)).trans
      apply (bind_ok rfl).trans
      apply (bind_ok (lift_ok hread2)).trans
      apply (congrFun (if_neg hok) _).trans
      apply (bind_ok (lift_ok hread3)).trans
      apply (bind_ok (lift_ok hread4)).trans
      apply (bind_ok rfl).trans
      apply (bind_ok (lift_ok hread5)).trans
      apply (bind_ok rfl).trans
      apply (ite_bind_ok hread6).trans
      apply (bind_ok rfl).trans
      apply (congrFun (if_pos rfl) _).trans
      apply (bind_ok rfl).trans
      apply (bind_ok (lift_ok hread7)).trans
      apply (bind_ok hread8).trans
      rfl

end Cie

/-! ## The FDE -/

/-- A well-formed CIE in the image. -/
structure CieAt (s : Space) where
  addr : UInt64
  endAddr : UInt64
  bytes : List UInt8
  idSize : ℕ
  body : List UInt8
  parts : Cie
  aug : Augmentation
  rest : List UInt8
  at_addr : At s endAddr addr bytes
  entry_eq : decodeEntry bytes = some (idSize, 0, body)
  parts_eq : decodeCie body = some parts
  letters_eq : letters s.addrSize (endAddr - .ofNat parts.instrs.length) parts.string parts.data
    (.start s.addrSize) = some (aug, rest)
  passes : bytes.length + 10 ≤ s.passes

/-- A well-formed FDE at an address of the image, behind the distance from its CIE.  Its start can
be found, and its LSDA pointer can be passed over. -/
structure FdeAt (s : Space) (gp addr : UInt64) where
  cie : CieAt s
  endAddr : UInt64
  bytes : List UInt8
  idSize : ℕ
  distance : ℤ
  body : List UInt8
  parts : Fde
  at_addr : At s endAddr addr bytes
  entry_eq : decodeEntry bytes = some (idSize, distance, body)
  distance_ne : distance ≠ 0
  cie_addr : cie.addr = endAddr - .ofNat (body.length + idSize) - .ofInt distance
  parts_eq : decodeFde s.addrSize cie.aug cie.parts.sized endAddr body = some parts
  resolves : Resolves s gp cie.aug.fde (endAddr - .ofNat body.length) parts.start
  passable : Passable cie.aug.lsda parts.lsda
  passes : bytes.length + 10 ≤ s.passes
  low : endAddr.toNat < 2 ^ 63

/-- The entry is what the CIE and the FDE say. -/
structure FdeAt.Faithful {s : Space} {gp addr : UInt64} (fde : FdeAt s gp addr) (dci : CieInfo) :
    Prop where
  signalFrame : dci.signalFrame = fde.cie.aug.signal
  lsdaEncoding : dci.lsdaEncoding = fde.cie.aug.lsda
  fdeEncoding : dci.fdeEncoding = fde.cie.aug.fde
  cieInstrStart : dci.cieInstrStart = fde.cie.endAddr - .ofNat fde.cie.parts.instrs.length
  cieInstrEnd : dci.cieInstrEnd = fde.cie.endAddr
  fdeInstrStart : dci.fdeInstrStart = fde.endAddr - .ofNat fde.parts.instrs.length
  fdeInstrEnd : dci.fdeInstrEnd = fde.endAddr

/-- The fields of the first three letters behind 'z' are all of the augmentation data, and 'S'
stands before the first unknown letter exactly if it, or 'P' with a pointer that can be passed over,
is among the three. -/
def CieAt.Plain {s : Space} (cie : CieAt s) : Prop :=
  ∃ aug, letters s.addrSize (cie.endAddr - .ofNat cie.parts.instrs.length) (cie.parts.string.take 3)
      cie.parts.data (.start s.addrSize) = some (aug, []) ∧
    (cie.aug.signal = true ↔ aug.signal = true ∨ ∃ h ∈ aug.handlers, Passable h.1 h.2)

section Fde

variable {s : Space} {gp addr : UInt64}

theorem taken_iff (aug : Augmentation) :
    aug.taken = true ↔ aug.signal = true ∨ ∃ h ∈ aug.handlers, Passable h.1 h.2 := by
  unfold Augmentation.taken
  rw [Bool.or_eq_true, List.any_eq_true]
  simp only [decide_eq_true_eq]

theorem fdeAugSize_dci {n : UInt64} {p p' : Parse} (h : s.fdeAugSize p = .ok n p') :
    p'.dci = p.dci := by
  obtain ⟨dci, p1, h1, h⟩ := bind_eq_ok.mp h
  cases h1
  split at h
  · exact (lift_eq_ok.mp h).2
  · obtain ⟨-, rfl⟩ := pure_eq_ok.mp h
    rfl

theorem fdeAbi_dci {p p' : Parse} (h : s.fdeAbi p = .ok () p') :
    ∃ abi tag, p'.dci = { p.dci with abi, tag } := by
  obtain ⟨dci, p1, h1, h⟩ := bind_eq_ok.mp h
  cases h1
  split at h
  · obtain ⟨abi, p2, h2, h⟩ := bind_eq_ok.mp h
    obtain ⟨_, p3, h3, h⟩ := bind_eq_ok.mp h
    cases h3
    obtain ⟨tag, p4, h4, h⟩ := bind_eq_ok.mp h
    cases h
    refine ⟨abi.toUInt16, tag.toUInt16, ?_⟩
    dsimp only
    rw [(lift_eq_ok.mp h4).2]
    dsimp only
    rw [(lift_eq_ok.mp h2).2]
  · obtain ⟨-, rfl⟩ := pure_eq_ok.mp h
    exact ⟨_, _, rfl⟩

/-- Behind the initial location, only what the FDE says is put into the entry. -/
theorem fdeRest_dci {fdeEnd startIp : UInt64} {p p' : Parse}
    (h : s.fdeRest gp fdeEnd startIp p = .ok () p') :
    ∃ ipRange fdeInstrStart abi tag, p'.dci =
      { p.dci with ipRange, fdeInstrStart, fdeInstrEnd := fdeEnd, abi, tag } := by
  obtain ⟨dci, p1, h1, h⟩ := bind_eq_ok.mp h
  cases h1
  obtain ⟨ipRange, p2, h2, h⟩ := bind_eq_ok.mp h
  obtain ⟨_, p3, h3, h⟩ := bind_eq_ok.mp h
  cases h3
  obtain ⟨augSize, p4, h4, h⟩ := bind_eq_ok.mp h
  obtain ⟨addr, p5, h5, h⟩ := bind_eq_ok.mp h
  cases h5
  obtain ⟨_, p6, h6, h⟩ := bind_eq_ok.mp h
  cases h6
  obtain ⟨_, p7, h7, h⟩ := bind_eq_ok.mp h
  obtain ⟨abi, tag, hdci⟩ := fdeAbi_dci h
  refine ⟨ipRange, p4.addr + augSize, abi, tag, ?_⟩
  rw [hdci, (lift_eq_ok.mp h7).2]
  dsimp only
  rw [fdeAugSize_dci h4]
  dsimp only
  rw [(lift_eq_ok.mp h2).2]

/-- The format of a pointer alone stands for an address. -/
theorem resolves_format (gp : UInt64) (encoding : UInt8) (place v : UInt64) :
    encoding &&& 0x0f ≠ 0xff ∧ Resolves s gp (encoding &&& 0x0f) place v := by
  have happ : encoding &&& 0x0f &&& 0x70 = 0 := by
    rw [UInt8.and_assoc]
    exact UInt8.and_zero
  have hdirect : encoding &&& 0x0f &&& 0x80 = 0 := by
    rw [UInt8.and_assoc]
    exact UInt8.and_zero
  constructor
  · intro h
    rw [h] at happ
    cases happ
  · refine .inr (.inr ⟨0, ?_, fun h => absurd hdirect h⟩)
    unfold pointerBase
    rw [happ]
    rfl

theorem fdeAbi_ok {a : UInt64} (dci : CieInfo) (ha : a ≠ 0) (hlt : a.toNat + 2 < 2 ^ 64) :
    ∃ p, s.fdeAbi ⟨a, dci⟩ = .ok () p ∧ p.dci.fdeInstrStart = dci.fdeInstrStart := by
  unfold Space.fdeAbi
  by_cases habi : dci.haveAbiMarker = true
  · have hread := read_eq (s := s) 2 ha
    have hread' := read_eq (s := s) 2 (add_ofNat_ne_zero (k := 2) ha hlt)
    refine ⟨⟨a + .ofNat 2 + .ofNat 2, { dci with
      abi := (s.word a 2).toUInt16, tag := (s.word (a + .ofNat 2) 2).toUInt16 }⟩, ?_, rfl⟩
    apply (bind_ok (x := dci) rfl).trans
    apply (congrFun (if_pos habi) _).trans
    apply (bind_ok (lift_ok hread)).trans
    apply (bind_ok rfl).trans
    exact bind_ok (lift_ok hread')
  · refine ⟨⟨a, dci⟩, ?_, rfl⟩
    apply (bind_ok (x := dci) rfl).trans
    exact congrFun (if_neg habi) _

/-- Without a size, there are no letters. -/
theorem CieAt.lsda_of_unsized (cie : CieAt s) (h : cie.parts.sized = false) :
    cie.aug.lsda = 0xff := by
  have hparts := cie.parts_eq
  have hletters := cie.letters_eq
  obtain ⟨_, -, hparts⟩ := Option.bind_eq_some_iff.mp hparts
  obtain ⟨⟨string, _⟩, -, hparts⟩ := Option.bind_eq_some_iff.mp hparts
  obtain ⟨_, -, hparts⟩ := Option.bind_eq_some_iff.mp hparts
  obtain ⟨_, -, hparts⟩ := Option.bind_eq_some_iff.mp hparts
  obtain ⟨bs, -, hparts⟩ := Option.bind_eq_some_iff.mp hparts
  cases string with
  | nil =>
    have hempty := Option.some.inj hparts
    rw [← hempty] at hletters
    have hstart : Augmentation.start s.addrSize = cie.aug :=
      congrArg Prod.fst (Option.some.inj hletters)
    rw [← hstart]
    rfl
  | cons ch string =>
    rw [decodeParts] at hparts
    split at hparts
    case isFalse => cases hparts
    case isTrue =>
      obtain ⟨r, -, heq⟩ := Option.map_eq_some_iff.mp hparts
      rw [← heq] at h
      cases h

/-- Where the CIE was understood, the FDE is read. -/
theorem readFde_ok (fde : FdeAt s gp addr) {dci : CieInfo} {a : UInt64}
    (hat : At s fde.endAddr a fde.body) (hfde : dci.fdeEncoding = fde.cie.aug.fde)
    (hlsda : dci.lsdaEncoding = fde.cie.aug.lsda)
    (hsized : dci.sizedAugmentation = fde.cie.parts.sized) :
    ∃ p, (do
        let startIp ← Parser.lift (s.readEncodedPointer gp dci.fdeEncoding true 0)
        Parser.setDci fun dci => { dci with startIp }
        s.fdeRest gp fde.endAddr startIp : Parser Unit) ⟨a, dci⟩ = .ok () p ∧
      p.dci.fdeInstrStart = fde.endAddr - .ofNat fde.parts.instrs.length := by
  have hp : 10 ≤ s.passes := (Nat.le_add_left 10 _).trans fde.passes
  have hparts := fde.parts_eq
  unfold decodeFde at hparts
  split at hparts
  case isTrue => cases hparts
  case isFalse homit =>
    obtain ⟨⟨start, bs1⟩, hstart, hparts⟩ := Option.bind_eq_some_iff.mp hparts
    obtain ⟨⟨range, bs2⟩, hrange, hparts⟩ := Option.bind_eq_some_iff.mp hparts
    have hlen1 := length_rawPointer hstart
    have hlen2 := length_rawPointer hrange
    have hlen := (length_decodeEntry fde.entry_eq).1
    have hpasses := fde.passes
    have hresolves := fde.resolves
    have hsame : fde.parts.start = start := by
      dsimp only at hparts
      split at hparts
      · obtain ⟨_, -, hparts⟩ := Option.bind_eq_some_iff.mp hparts
        obtain ⟨_, -, hparts⟩ := Option.bind_eq_some_iff.mp hparts
        rw [← Option.some.inj hparts]
      · rw [← Option.some.inj hparts]
    rw [hat.end_sub] at hstart hresolves
    rw [hsame] at hresolves
    obtain ⟨startIp, a1, hread1, hat1⟩ := hat.resolve hstart homit hresolves hp
    rw [hat1.end_sub] at hrange
    obtain ⟨hformat, hrangeResolves⟩ := resolves_format (s := s) gp fde.cie.aug.fde a1 range
    obtain ⟨ipRange, a2, hread2, hat2⟩ := hat1.resolve hrange hformat hrangeResolves hp
    rw [← hfde] at hread1 hread2
    rw [← hlsda] at hparts
    have hpassable := fde.passable
    rw [← hlsda] at hpassable
    have hlow := fde.low
    dsimp only at hparts
    cases hsize : fde.cie.parts.sized with
    | true =>
      rw [hsize, if_pos rfl] at hparts
      rw [hsize] at hsized
      obtain ⟨⟨data, instrs⟩, hblock, hparts⟩ := Option.bind_eq_some_iff.mp hparts
      obtain ⟨⟨lsda, rest⟩, hraw, hparts⟩ := Option.bind_eq_some_iff.mp hparts
      have hfdeParts := (Option.some.inj hparts).symm
      rw [hfdeParts] at hpassable ⊢
      obtain ⟨a3, hread3, hdata, hinstrs⟩ := hat2.augData hblock (by omega)
      rw [hdata.end_sub] at hraw
      obtain ⟨a4, hat4, hpass, -⟩ := hdata.passPointer gp startIp hraw hp
      obtain ⟨x, hread4⟩ := hpass hpassable
      have hend := hinstrs.end_sub
      have hfits4 := hat4.fits
      have hfits := hinstrs.fits
      rw [hend] at hfits4
      obtain ⟨p, habi, hstart'⟩ := fdeAbi_ok { dci with
        startIp, ipRange, fdeInstrStart := a3 + .ofNat data.length, fdeInstrEnd := fde.endAddr }
        hat4.ne_zero (by omega)
      refine ⟨p, ?_, hstart'.trans hend.symm⟩
      apply (bind_ok (lift_ok hread1)).trans
      apply (bind_ok rfl).trans
      unfold Space.fdeRest
      apply (bind_ok (r := Parser.getDci) rfl).trans
      apply (bind_ok (lift_ok hread2)).trans
      apply (bind_ok rfl).trans
      have hsizeRead : s.fdeAugSize ⟨a2, { dci with startIp, ipRange }⟩ =
          .ok (.ofNat data.length) ⟨a3, { dci with startIp, ipRange }⟩ := by
        unfold Space.fdeAugSize
        apply (bind_ok (r := Parser.getDci) rfl).trans
        exact (congrFun (if_pos hsized) _).trans (lift_ok hread3)
      apply (bind_ok hsizeRead).trans
      apply (bind_ok (r := Parser.getAddr) rfl).trans
      apply (bind_ok rfl).trans
      apply (bind_ok (lift_ok hread4)).trans
      exact habi
    | false =>
      rw [hsize, if_neg (by decide)] at hparts
      rw [hsize] at hsized
      have homitted : dci.lsdaEncoding = 0xff := hlsda.trans (fde.cie.lsda_of_unsized hsize)
      rw [← Option.some.inj hparts]
      have hend := hat2.end_sub
      have hfits := hat2.fits
      have hzero : a2 + 0 = a2 := UInt64.add_zero a2
      obtain ⟨p, habi, hstart'⟩ := fdeAbi_ok { dci with
        startIp, ipRange, fdeInstrStart := a2 + 0, fdeInstrEnd := fde.endAddr }
        hat2.ne_zero (by omega)
      refine ⟨p, ?_, hstart'.trans (hzero.trans hend.symm)⟩
      have hread3 : s.readEncodedPointer gp dci.lsdaEncoding false startIp a2 = .ok 0 a2 := by
        rw [homitted]
        unfold Space.readEncodedPointer
        exact bind_ok (x := a2) rfl
      have hsizeRead : s.fdeAugSize ⟨a2, { dci with startIp, ipRange }⟩ =
          .ok 0 ⟨a2, { dci with startIp, ipRange }⟩ := by
        unfold Space.fdeAugSize
        apply (bind_ok (r := Parser.getDci) rfl).trans
        exact congrFun (if_neg (by rw [hsized]; decide)) _
      apply (bind_ok (lift_ok hread1)).trans
      apply (bind_ok rfl).trans
      unfold Space.fdeRest
      apply (bind_ok (r := Parser.getDci) rfl).trans
      apply (bind_ok (lift_ok hread2)).trans
      apply (bind_ok rfl).trans
      apply (bind_ok hsizeRead).trans
      apply (bind_ok (r := Parser.getAddr) rfl).trans
      apply (bind_ok rfl).trans
      apply (bind_ok (lift_ok hread3)).trans
      exact habi

theorem extractCfiFromFde_eq (fde : FdeAt s gp addr) (dci0 : CieInfo) {aug : Augmentation}
    {rest : List UInt8}
    (hletters : letters s.addrSize (fde.cie.endAddr - .ofNat fde.cie.parts.instrs.length)
      (fde.cie.parts.string.take 3) fde.cie.parts.data (.start s.addrSize) = some (aug, rest)) :
    ∃ dci a, TakenFrom s fde.cie.endAddr fde.cie.parts aug rest dci ∧ At s fde.endAddr a fde.body ∧
      s.extractCfiFromFde gp ⟨addr, dci0⟩ = (do
        let startIp ← Parser.lift (s.readEncodedPointer gp aug.fde true 0)
        Parser.setDci fun dci => { dci with startIp }
        s.fdeRest gp fde.endAddr startIp) ⟨a, dci⟩ := by
  obtain ⟨a, hheader, hat⟩ := fdeHeader_eq fde.at_addr fde.entry_eq fde.distance_ne
    ((Nat.le_add_left 10 _).trans fde.passes)
  rw [← fde.cie_addr] at hheader
  obtain ⟨dci, a', hcie, htaken⟩ := parseCie_eq gp fde.cie.at_addr fde.cie.entry_eq
    fde.cie.parts_eq hletters ((Nat.le_add_right _ 10).trans fde.cie.passes)
    ((Nat.le_add_left 10 _).trans fde.cie.passes)
  refine ⟨dci, a, htaken, hat, ?_⟩
  have hat' : Parser.at' fde.cie.addr (s.parseCie gp) ⟨a, .zero⟩ = .ok () ⟨a, dci⟩ := by
    unfold Parser.at'
    dsimp only
    rw [hcie]
  rw [← htaken.fdeEncoding]
  unfold Space.extractCfiFromFde
  apply (bind_ok (lift_ok hheader)).trans
  apply (bind_ok rfl).trans
  apply (bind_ok hat').trans
  exact bind_ok rfl

theorem FdeAt.plain_of_faithful (fde : FdeAt s gp addr) {dci : CieInfo} {p : Parse}
    (hp : s.extractCfiFromFde gp ⟨addr, dci⟩ = .ok () p) (hfaithful : fde.Faithful p.dci) :
    fde.cie.Plain := by
  obtain ⟨aug, rest, hletters, -⟩ := letters_take 3 fde.cie.letters_eq
  obtain ⟨dci', a, htaken, -, hrun⟩ := extractCfiFromFde_eq fde dci hletters
  rw [hrun] at hp
  obtain ⟨startIp, p1, h1, hp⟩ := bind_eq_ok.mp hp
  obtain ⟨_, p2, h2, hp⟩ := bind_eq_ok.mp hp
  cases h2
  obtain ⟨ipRange, fdeInstrStart, abi, tag, hdci⟩ := fdeRest_dci hp
  have hkept := (lift_eq_ok.mp h1).2
  dsimp only at hkept
  have hstart := hfaithful.cieInstrStart
  have hsignal := hfaithful.signalFrame
  rw [hdci] at hstart hsignal
  dsimp only at hstart hsignal
  rw [hkept] at hstart hsignal
  -- no data is left where the instructions begin
  have hfits := htaken.cieInstrStart.fits
  rw [hstart] at hfits
  have hrest : rest = [] := List.eq_nil_of_length_eq_zero (by omega)
  rw [hrest] at hletters
  refine ⟨aug, hletters, ?_⟩
  rw [← hsignal, htaken.signalFrame]
  exact taken_iff aug

theorem FdeAt.faithful_of_plain (fde : FdeAt s gp addr) (dci : CieInfo) (h : fde.cie.Plain) :
    ∃ p, s.extractCfiFromFde gp ⟨addr, dci⟩ = .ok () p ∧ fde.Faithful p.dci := by
  obtain ⟨aug, hletters, hsignal⟩ := h
  obtain ⟨aug', rest, hletters', hall⟩ := letters_take 3 fde.cie.letters_eq
  cases hletters.symm.trans hletters'
  obtain ⟨-, hlsda, hfde⟩ := hall rfl
  obtain ⟨dci', a, htaken, hat, hrun⟩ := extractCfiFromFde_eq fde dci hletters
  obtain ⟨p, hp, hinstrs⟩ := readFde_ok fde hat (htaken.fdeEncoding.trans hfde.symm)
    (htaken.lsdaEncoding.trans hlsda.symm) htaken.sizedAugmentation
  rw [htaken.fdeEncoding] at hp
  refine ⟨p, hrun.trans hp, ?_⟩
  obtain ⟨startIp, p1, h1, hp⟩ := bind_eq_ok.mp hp
  obtain ⟨_, p2, h2, hp⟩ := bind_eq_ok.mp hp
  cases h2
  obtain ⟨ipRange, fdeInstrStart, abi, tag, hdci⟩ := fdeRest_dci hp
  have hkept := (lift_eq_ok.mp h1).2
  dsimp only at hkept hdci
  rw [hkept] at hdci
  have hempty := htaken.cieInstrStart.end_sub
  have hzero (x : UInt64) : x - .ofNat 0 = x := UInt64.sub_zero x
  rw [List.length_nil, hzero] at hempty
  have htrue : aug.taken = fde.cie.aug.signal := by
    rw [Bool.eq_iff_iff, taken_iff, hsignal]
  exact {
    signalFrame := by rw [hdci]; exact htaken.signalFrame.trans htrue
    lsdaEncoding := by rw [hdci]; exact htaken.lsdaEncoding.trans hlsda.symm
    fdeEncoding := by rw [hdci]; exact htaken.fdeEncoding.trans hfde.symm
    cieInstrStart := by rw [hdci]; exact hempty.symm
    cieInstrEnd := by rw [hdci]; exact htaken.cieInstrEnd
    fdeInstrStart := hinstrs
    fdeInstrEnd := by rw [hdci] }

end Fde

/-- `dwarf_extract_cfi_from_fde` takes what a CIE and an FDE say exactly if the fields of the first
three letters behind 'z' are all of the augmentation data, and the frame is one of a signal handler
where the source takes it for one. -/
theorem extractCfiFromFde_faithful_iff (s : Space) (gp addr : UInt64) (fde : FdeAt s gp addr)
    (dci : CieInfo) :
    (∃ p, s.extractCfiFromFde gp ⟨addr, dci⟩ = .ok () p ∧ fde.Faithful p.dci) ↔ fde.cie.Plain :=
  ⟨fun ⟨_, hp, hfaithful⟩ => fde.plain_of_faithful hp hfaithful, fde.faithful_of_plain dci⟩

/-! ## Examples -/

/-- A CIE "zR" with `DW_CFA_def_cfa: r7 +8` and `DW_CFA_offset: r16 at cfa-8`, and an FDE. -/
def plainTable : Space := (imageOf (
  [0x14, 0, 0, 0, 0, 0, 0, 0, 1, 0x7a, 0x52, 0, 1, 0x78, 16, 1, 0x1b, 0x0c, 7, 8, 0x90, 1, 0, 0] ++
  [0x10, 0, 0, 0, 0x1c, 0, 0, 0, 0, 1, 0, 0, 0x20, 0, 0, 0, 0, 0x41, 0x0e, 16])).withPasses 64

def plainCie : CieAt plainTable where
  addr := 0x10000
  endAddr := 0x10018
  bytes :=
    [0x14, 0, 0, 0, 0, 0, 0, 0, 1, 0x7a, 0x52, 0, 1, 0x78, 16, 1, 0x1b, 0x0c, 7, 8, 0x90, 1, 0, 0]
  idSize := 4
  body := [1, 0x7a, 0x52, 0, 1, 0x78, 16, 1, 0x1b, 0x0c, 7, 8, 0x90, 1, 0, 0]
  parts := ⟨true, [0x52], [0x1b], [0x0c, 7, 8, 0x90, 1, 0, 0]⟩
  aug := ⟨false, 0xff, 0x1b, []⟩
  rest := []
  at_addr := ⟨by decide, by decide, by decide⟩
  entry_eq := by decide
  parts_eq := by decide
  letters_eq := by decide
  passes := by decide

def plainFde : FdeAt plainTable 0 0x10018 where
  cie := plainCie
  endAddr := 0x1002c
  bytes := [0x10, 0, 0, 0, 0x1c, 0, 0, 0, 0, 1, 0, 0, 0x20, 0, 0, 0, 0, 0x41, 0x0e, 16]
  idSize := 4
  distance := 0x1c
  body := [0, 1, 0, 0, 0x20, 0, 0, 0, 0, 0x41, 0x0e, 16]
  parts := ⟨0x100, 0, [0x41, 0x0e, 16]⟩
  at_addr := ⟨by decide, by decide, by decide⟩
  entry_eq := by decide
  distance_ne := by decide
  cie_addr := rfl
  parts_eq := by decide +kernel
  resolves := .inr (.inr ⟨0x10020, by decide, fun h => absurd rfl h⟩)
  passable := .inl rfl
  passes := by decide
  low := by decide

theorem extractCfiFromFde_plain :
    ∃ p, plainTable.extractCfiFromFde 0 ⟨0x10018, .zero⟩ = .ok () p ∧ plainFde.Faithful p.dci :=
  (extractCfiFromFde_faithful_iff plainTable 0 0x10018 plainFde .zero).mpr
    ⟨⟨false, 0xff, 0x1b, []⟩, by decide, by decide⟩

/-- A CIE "zPLR" with a personality routine, as C++ code has it, and an FDE. -/
def personalityTable : Space := (imageOf (
  [0x1c, 0, 0, 0, 0, 0, 0, 0, 1, 0x7a, 0x50, 0x4c, 0x52, 0, 1, 0x78, 16, 7, 0x9b, 0, 2, 0, 0, 0x1b,
    0x1b, 0x0c, 7, 8, 0x90, 1, 0, 0] ++
  [0x14, 0, 0, 0, 0x24, 0, 0, 0, 0, 1, 0, 0, 0x20, 0, 0, 0, 4, 0, 3, 0, 0, 0x41, 0x0e,
    16])).withPasses 64

def personalityCie : CieAt personalityTable where
  addr := 0x10000
  endAddr := 0x10020
  bytes :=
    [0x1c, 0, 0, 0, 0, 0, 0, 0, 1, 0x7a, 0x50, 0x4c, 0x52, 0, 1, 0x78, 16, 7, 0x9b, 0, 2, 0, 0,
      0x1b, 0x1b, 0x0c, 7, 8, 0x90, 1, 0, 0]
  idSize := 4
  body :=
    [1, 0x7a, 0x50, 0x4c, 0x52, 0, 1, 0x78, 16, 7, 0x9b, 0, 2, 0, 0, 0x1b, 0x1b, 0x0c, 7, 8,
      0x90, 1,
      0, 0]
  parts := ⟨true, [0x50, 0x4c, 0x52], [0x9b, 0, 2, 0, 0, 0x1b, 0x1b], [0x0c, 7, 8, 0x90, 1, 0, 0]⟩
  aug := ⟨false, 0x1b, 0x1b, [(0x9b, 0x200)]⟩
  rest := []
  at_addr := ⟨by decide, by decide, by decide⟩
  entry_eq := by decide
  parts_eq := by decide
  letters_eq := by decide +kernel
  passes := by decide

def personalityFde : FdeAt personalityTable 0 0x10020 where
  cie := personalityCie
  endAddr := 0x10038
  bytes :=
    [0x14, 0, 0, 0, 0x24, 0, 0, 0, 0, 1, 0, 0, 0x20, 0, 0, 0, 4, 0, 3, 0, 0, 0x41, 0x0e, 16]
  idSize := 4
  distance := 0x24
  body := [0, 1, 0, 0, 0x20, 0, 0, 0, 4, 0, 3, 0, 0, 0x41, 0x0e, 16]
  parts := ⟨0x100, 0x300, [0x41, 0x0e, 16]⟩
  at_addr := ⟨by decide, by decide, by decide⟩
  entry_eq := by decide
  distance_ne := by decide
  cie_addr := rfl
  parts_eq := by decide +kernel
  resolves := .inr (.inr ⟨0x10028, by decide, fun h => absurd rfl h⟩)
  passable := by decide
  passes := by decide
  low := by decide

/-- The `case` of 'P' has no `break` behind its pointer: a function with a personality routine
counts as a signal handler. -/
theorem personality_is_signal :
    ¬ ∃ p, personalityTable.extractCfiFromFde 0 ⟨0x10020, .zero⟩ = .ok () p ∧
      personalityFde.Faithful p.dci := by
  rintro ⟨p, hp, hfaithful⟩
  obtain ⟨aug, hletters, hsignal⟩ := personalityFde.plain_of_faithful hp hfaithful
  have hread : letters 8 0x10019 [0x50, 0x4c, 0x52] [0x9b, 0, 2, 0, 0, 0x1b, 0x1b] (.start 8) =
      some (⟨false, 0x1b, 0x1b, [(0x9b, 0x200)]⟩, []) := by decide +kernel
  cases hread.symm.trans hletters
  have hpassable : Passable 0x9b 0x200 := by decide
  cases hsignal.mpr (.inr ⟨(0x9b, 0x200), List.mem_singleton_self _, hpassable⟩)

end Mtrace.Dwarf
