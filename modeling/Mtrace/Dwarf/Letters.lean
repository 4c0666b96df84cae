import Mtrace.Dwarf.Headers
import Mtrace.Dwarf.StartIp

/-!
# Letters and entries

The augmentation string, of which the source keeps three letters behind 'z', and the lengths and ids
of entries in the two formats.  A 'P' goes on like an 'S'. -/

namespace Mtrace.Dwarf

open Standard

/-! ## The letters -/

namespace Standard

variable {addrSize k : ℕ} {dataEnd : UInt64} {string data rest : List UInt8}
  {aug aug' : Augmentation}

/-- Where there is no data, only 'S' says anything but an omitted pointer. -/
theorem letters_nil (h : letters addrSize dataEnd string [] aug = some (aug', rest)) :
    rest = [] ∧ aug'.lsda = aug.lsda ∧ aug'.fde = aug.fde := by
  induction string generalizing aug with
  | nil =>
    cases h
    exact ⟨rfl, rfl, rfl⟩
  | cons ch string ih =>
    rw [letters] at h
    have hnone {β : Type} {f : UInt8 × List UInt8 → Option β} {b : β}
        (h : next [] >>= f = some b) : False := by cases h
    split at h
    · exact (hnone h).elim
    split at h
    · exact (hnone h).elim
    split at h
    · exact (hnone h).elim
    split at h
    · have hrest := ih h
      exact hrest
    · cases h
      exact ⟨rfl, rfl, rfl⟩

/-- The first letters have their fields at the beginning of the data.  If these are all of it, the
others leave the encodings as they are. -/
theorem letters_take (k : ℕ) (h : letters addrSize dataEnd string data aug = some (aug', rest)) :
    ∃ aug1 rest1, letters addrSize dataEnd (string.take k) data aug = some (aug1, rest1) ∧
      (rest1 = [] → rest = [] ∧ aug'.lsda = aug1.lsda ∧ aug'.fde = aug1.fde) := by
  induction k generalizing string data aug with
  | zero =>
    refine ⟨aug, data, rfl, ?_⟩
    rintro rfl
    exact letters_nil h
  | succ k ih =>
    cases string with
    | nil =>
      cases h
      exact ⟨_, _, rfl, fun hrest => ⟨hrest, rfl, rfl⟩⟩
    | cons ch string =>
      rw [List.take_succ_cons, letters]
      rw [letters] at h
      by_cases hl : ch = 0x4c
      · rw [if_pos hl] at h ⊢
        obtain ⟨⟨enc, data⟩, hnext, h⟩ := Option.bind_eq_some_iff.mp h
        obtain ⟨aug1, rest1, heq, hall⟩ := ih h
        exact ⟨aug1, rest1, Option.bind_eq_some_iff.mpr ⟨_, hnext, heq⟩, hall⟩
      rw [if_neg hl] at h ⊢
      by_cases hr : ch = 0x52
      · rw [if_pos hr] at h ⊢
        obtain ⟨⟨enc, data⟩, hnext, h⟩ := Option.bind_eq_some_iff.mp h
        obtain ⟨aug1, rest1, heq, hall⟩ := ih h
        exact ⟨aug1, rest1, Option.bind_eq_some_iff.mpr ⟨_, hnext, heq⟩, hall⟩
      rw [if_neg hr] at h ⊢
      by_cases hp : ch = 0x50
      · rw [if_pos hp] at h ⊢
        obtain ⟨⟨enc, data⟩, hnext, h⟩ := Option.bind_eq_some_iff.mp h
        obtain ⟨⟨v, data'⟩, hraw, h⟩ := Option.bind_eq_some_iff.mp h
        obtain ⟨aug1, rest1, heq, hall⟩ := ih h
        exact ⟨aug1, rest1, Option.bind_eq_some_iff.mpr
          ⟨_, hnext, Option.bind_eq_some_iff.mpr ⟨_, hraw, heq⟩⟩, hall⟩
      rw [if_neg hp] at h ⊢
      by_cases hs : ch = 0x53
      · rw [if_pos hs] at h ⊢
        exact ih h
      rw [if_neg hs] at h ⊢
      cases h
      exact ⟨_, _, rfl, fun hrest => ⟨hrest, rfl, rfl⟩⟩

end Standard

section Letters

variable {s : Space} {dci : CieInfo} {aug aug' : Augmentation} {a dataEnd endAddr gp : UInt64}
  {string data bs rest : List UInt8}

theorem lift_ok {α : Type} {r : Reader α} {x : α} {a' : UInt64} (h : r a = .ok x a') :
    Parser.lift r ⟨a, dci⟩ = .ok x ⟨a', dci⟩ := lift_eq_ok.mpr ⟨h, rfl⟩

theorem succeeds_of_ok {α : Type} {r : Reader α} {x : α} {a' : UInt64} (h : r a = .ok x a') :
    Parser.succeeds r ⟨a, dci⟩ = .ok true ⟨a', dci⟩ := by
  unfold Parser.succeeds
  dsimp only
  rw [h]

theorem succeeds_of_error {α : Type} {r : Reader α} {e : DwarfError} {a' : UInt64}
    (h : r a = .error (.error e) a') : Parser.succeeds r ⟨a, dci⟩ = .ok false ⟨a', dci⟩ := by
  unfold Parser.succeeds
  dsimp only
  rw [h]

/-- Whether the source takes the frame for one of a signal handler: a personality routine counts
like 'S' where its pointer could be passed over. -/
def Standard.Augmentation.taken (aug : Augmentation) : Bool :=
  aug.signal || aug.handlers.any fun h => decide (Passable h.1 h.2)

/-- What the source keeps of the letters. -/
def CieInfo.say (dci : CieInfo) (aug : Augmentation) : CieInfo :=
  { dci with
    lsdaEncoding := aug.lsda
    signalFrame := aug.taken
    haveAbiMarker := aug.taken }

theorem parseAugstr_eq (gp : UInt64) (dci : CieInfo) (h : At s dataEnd a data)
    (hletters : letters s.addrSize dataEnd string data aug = some (aug', rest))
    (hsized : dci.sizedAugmentation = true) (hp : 10 ≤ s.passes) :
    ∃ a', s.parseAugstr gp string aug.fde ⟨a, dci.say aug⟩ = .ok aug'.fde ⟨a', dci.say aug'⟩ ∧
      At s dataEnd a' rest := by
  induction string generalizing a data aug with
  | nil =>
    cases hletters
    exact ⟨a, rfl, h⟩
  | cons ch string ih =>
    rw [letters] at hletters
    rw [Space.parseAugstr]
    by_cases hl : ch = 0x4c
    · rw [if_pos hl] at hletters ⊢
      obtain ⟨⟨enc, data⟩, hnext, hletters⟩ := Option.bind_eq_some_iff.mp hletters
      obtain ⟨hread, hat⟩ := h.next hnext
      obtain ⟨a', heq, hat'⟩ := ih hat hletters
      refine ⟨a', ?_, hat'⟩
      apply (bind_ok (lift_ok hread)).trans
      exact (bind_ok rfl).trans heq
    rw [if_neg hl] at hletters ⊢
    by_cases hr : ch = 0x52
    · rw [if_pos hr] at hletters ⊢
      obtain ⟨⟨enc, data⟩, hnext, hletters⟩ := Option.bind_eq_some_iff.mp hletters
      obtain ⟨hread, hat⟩ := h.next hnext
      obtain ⟨a', heq, hat'⟩ := ih hat hletters
      exact ⟨a', (bind_ok (lift_ok hread)).trans heq, hat'⟩
    rw [if_neg hr] at hletters ⊢
    by_cases hpers : ch = 0x50
    · rw [if_pos hpers] at hletters ⊢
      obtain ⟨⟨enc, data⟩, hnext, hletters⟩ := Option.bind_eq_some_iff.mp hletters
      obtain ⟨hread, hat⟩ := h.next hnext
      obtain ⟨⟨v, data'⟩, hraw, hletters⟩ := Option.bind_eq_some_iff.mp hletters
      rw [hat.end_sub] at hraw
      obtain ⟨a1, hat1, hpass, hfail⟩ := hat.passPointer gp 0 hraw hp
      obtain ⟨a', heq, hat'⟩ := ih hat1 hletters
      refine ⟨a', ?_, hat'⟩
      apply (bind_ok (lift_ok hread)).trans
      by_cases hpassable : Passable enc v
      · obtain ⟨x, hx⟩ := hpass hpassable
        have hsay : ({ dci.say aug with signalFrame := true, haveAbiMarker := true } : CieInfo) =
            dci.say { aug with handlers := (enc, v) :: aug.handlers } := by
          simp [CieInfo.say, Augmentation.taken, hpassable]
        apply (bind_ok (succeeds_of_ok hx)).trans
        rw [if_pos rfl]
        apply (bind_ok rfl).trans
        dsimp only
        rw [hsay]
        exact heq
      · have hsay : dci.say aug = dci.say { aug with handlers := (enc, v) :: aug.handlers } := by
          simp [CieInfo.say, Augmentation.taken, hpassable]
        apply (bind_ok (succeeds_of_error (hfail hpassable))).trans
        rw [if_neg (by decide), hsay]
        exact heq
    rw [if_neg hpers] at hletters ⊢
    by_cases hs : ch = 0x53
    · rw [if_pos hs] at hletters ⊢
      obtain ⟨a', heq, hat'⟩ := ih h hletters
      exact ⟨a', (bind_ok rfl).trans heq, hat'⟩
    rw [if_neg hs] at hletters ⊢
    cases hletters
    refine ⟨a, ?_, h⟩
    apply (bind_ok rfl).trans
    exact congrFun (if_pos hsized) _

/-- The source keeps four characters of the string. -/
theorem readAugstr_eq {p : ℕ} (kept : List UInt8) (h : At s endAddr a bs)
    (hcut : cutString bs = some (string, rest)) (hkept : kept.length ≤ 4) (hp : bs.length ≤ p) :
    ∃ a', s.readAugstr p kept a = .ok ((kept ++ string).take 4) a' ∧ At s endAddr a' rest := by
  induction bs generalizing a kept p string with
  | nil => cases hcut
  | cons ch bs ih =>
    obtain _ | p := p
    · cases hp
    obtain ⟨hread, hat⟩ := h.read8
    rw [cutString] at hcut
    rw [Space.readAugstr]
    by_cases hzero : ch = 0
    · rw [if_pos hzero] at hcut
      cases hcut
      refine ⟨a + 1, ?_, hat⟩
      apply (bind_ok hread).trans
      rw [if_pos hzero, List.append_nil, List.take_of_length_le hkept]
      rfl
    · rw [if_neg hzero] at hcut
      obtain ⟨⟨string', rest'⟩, hcut', heq⟩ := Option.map_eq_some_iff.mp hcut
      cases heq
      have hp' : bs.length ≤ p := Nat.le_of_succ_le_succ hp
      by_cases hroom : kept.length < 4
      · obtain ⟨a', heq, hat'⟩ := ih (kept ++ [ch]) hat hcut'
          (by rw [List.length_append]; exact hroom) hp'
        refine ⟨a', ?_, hat'⟩
        apply (bind_ok hread).trans
        rw [if_neg hzero, if_pos hroom, heq, List.append_assoc]
        rfl
      · obtain ⟨a', heq, hat'⟩ := ih kept hat hcut' hkept hp'
        refine ⟨a', ?_, hat'⟩
        apply (bind_ok hread).trans
        rw [if_neg hzero, if_neg hroom, heq,
          List.take_append_of_le_length (by omega : 4 ≤ kept.length),
          List.take_append_of_le_length (by omega : 4 ≤ kept.length)]

end Letters

/-! ## Entries -/

section Entries

variable {s : Space} {a endAddr : UInt64} {bs rest body data instrs : List UInt8} {size n : ℕ}
  {id v : ℤ}

theorem At.end_add (h : At s endAddr a bs) : a + .ofNat bs.length = endAddr := by
  rw [← h.end_sub, UInt64.sub_add_cancel]

/-- A number of fixed size with a sign. -/
theorem At.signed (h : At s endAddr a bs) (hdec : (Kind.signed size).decode bs = some (v, rest))
    (hp : 10 ≤ s.passes) :
    ∃ n a', s.read size a = .ok (.ofNat n) a' ∧ n < 256 ^ size ∧ v = (n : ℤ).bmod (256 ^ size) ∧
      At s endAddr a' rest := by
  obtain ⟨u, a', hread, ⟨n, hn, hv, rfl⟩, hat⟩ := h.operand hdec trivial hp
  exact ⟨n, a', hread, hn, hv, hat⟩

/-- The augmentation data, behind its size. -/
theorem At.augData (h : At s endAddr a bs) (hdec : decodeBlock bs = some (data, instrs))
    (hp : bs.length ≤ s.passes) :
    ∃ a', s.readUleb128 a = .ok (.ofNat data.length) a' ∧
      At s (endAddr - .ofNat instrs.length) a' data ∧
      At s endAddr (a' + .ofNat data.length) instrs := by
  obtain ⟨⟨m, bs'⟩, hm, hdec⟩ := Option.bind_eq_some_iff.mp hdec
  dsimp only at hdec
  split at hdec
  case isFalse => cases hdec
  case isTrue hle =>
    cases hdec
    obtain ⟨x, a', hread, hat, hx⟩ := h.uleb hm hp
    have hlt := hat.lt
    have hlen : (bs'.take m.value).length = m.value := by
      rw [List.length_take, Nat.min_eq_left hle]
    have hbehind := hat.skip hle
    rw [hx (by omega)] at hread
    rw [hlen, hbehind.end_sub]
    exact ⟨a', hread, hat.take hle, hbehind⟩

/-- The two formats of an entry. -/
theorem decodeEntry_cases (h : decodeEntry bs = some (size, id, body)) :
    (∃ bs', (Kind.unsigned 4).decode bs = some ((bs'.length : ℤ), bs') ∧
      (bs'.length : ℤ) ≠ 0xffffffff ∧ (Kind.signed 4).decode bs' = some (id, body) ∧ size = 4) ∨
    (∃ bs1 bs', (Kind.unsigned 4).decode bs = some (0xffffffff, bs1) ∧
      (Kind.unsigned 8).decode bs1 = some ((bs'.length : ℤ), bs') ∧
      (Kind.signed 8).decode bs' = some (id, body) ∧ size = 8) := by
  obtain ⟨⟨len, bs1⟩, hlen, h⟩ := Option.bind_eq_some_iff.mp h
  dsimp only at h
  split at h
  case isTrue hwide =>
    subst hwide
    obtain ⟨⟨len, bs'⟩, hlen', h⟩ := Option.bind_eq_some_iff.mp h
    dsimp only at h
    split at h
    case isFalse => cases h
    case isTrue heq =>
      subst heq
      obtain ⟨⟨id', body'⟩, hid, h⟩ := Option.bind_eq_some_iff.mp h
      cases h
      exact .inr ⟨bs1, bs', hlen, hlen', hid, rfl⟩
  case isFalse hwide =>
    split at h
    case isFalse => cases h
    case isTrue heq =>
      subst heq
      obtain ⟨⟨id', body'⟩, hid, h⟩ := Option.bind_eq_some_iff.mp h
      cases h
      exact .inl ⟨bs1, hlen, hwide, hid, rfl⟩

theorem length_kind {kind : Kind} (h : kind.decode bs = some (v, rest)) :
    rest.length ≤ bs.length := by
  cases kind with
  | unsigned size =>
    rw [Kind.decode] at h
    split at h
    case isFalse => cases h
    case isTrue =>
      cases h
      rw [List.length_drop]
      exact Nat.sub_le _ _
  | signed size =>
    rw [Kind.decode] at h
    split at h
    case isFalse => cases h
    case isTrue =>
      cases h
      rw [List.length_drop]
      exact Nat.sub_le _ _
  | uleb128 =>
    obtain ⟨⟨m, rest'⟩, hm, heq⟩ := Option.map_eq_some_iff.mp h
    cases heq
    have hlen := Leb128.length_decode hm
    dsimp only
    omega
  | sleb128 =>
    obtain ⟨⟨m, rest'⟩, hm, heq⟩ := Option.map_eq_some_iff.mp h
    cases heq
    have hlen := Leb128.length_decode hm
    dsimp only
    omega

theorem length_rawPointer {addrSize : ℕ} {encoding : UInt8} {place value : UInt64}
    (h : rawPointer addrSize encoding place bs = some (value, rest)) : rest.length ≤ bs.length := by
  unfold rawPointer at h
  split at h
  · cases h
    exact Nat.le_refl _
  split at h
  · obtain ⟨⟨v, rest'⟩, hdec, heq⟩ := Option.bind_eq_some_iff.mp h
    cases heq
    have hlen := length_kind hdec
    rw [List.length_drop] at hlen
    exact hlen.trans (Nat.sub_le _ _)
  · obtain ⟨kind, -, h⟩ := Option.bind_eq_some_iff.mp h
    obtain ⟨⟨v, rest'⟩, hdec, h⟩ := Option.bind_eq_some_iff.mp h
    dsimp only at h
    split at h
    · cases h
      exact length_kind hdec
    · cases h

theorem length_signed (h : (Kind.signed size).decode bs = some (v, rest)) :
    bs.length = rest.length + size := by
  rw [Kind.decode] at h
  split at h
  case isFalse => cases h
  case isTrue hle =>
    cases h
    rw [List.length_drop]
    omega

theorem length_decodeEntry (h : decodeEntry bs = some (size, id, body)) :
    body.length + size ≤ bs.length ∧ (size = 4 ∨ size = 8) := by
  obtain ⟨bs', hlen, -, hid, rfl⟩ | ⟨bs1, bs', hlen1, hlen, hid, rfl⟩ := decodeEntry_cases h
  · rw [← length_signed hid]
    exact ⟨length_kind hlen, .inl rfl⟩
  · rw [← length_signed hid]
    exact ⟨(length_kind hlen).trans (length_kind hlen1), .inr rfl⟩

theorem bmod_eq_zero (hn : n < 256 ^ size) (h : (n : ℤ).bmod (256 ^ size) = 0) : n = 0 := by
  have hmod := Int.bmod_emod (x := n) (m := 256 ^ size)
  rw [h] at hmod
  have hself : ((n % 256 ^ size : ℕ) : ℤ) = 0 := by
    rw [Int.natCast_mod, ← hmod]
    rfl
  rw [Nat.mod_eq_of_lt hn] at hself
  exact Int.natCast_eq_zero.mp hself

/-- The length of an entry says whether it is in the 64-bit format. -/
theorem ofInt_ne_wide {len : ℕ} (hne : (len : ℤ) ≠ 0xffffffff) (hlt : len < 2 ^ 64) :
    UInt64.ofInt (len : ℤ) ≠ 0xffffffff := by
  intro h
  have hnat := congrArg UInt64.toNat h
  rw [ofInt_natCast, toNat_ofNat_of_lt hlt] at hnat
  exact hne (congrArg Nat.cast hnat)

theorem parseCieHeader_eq (h : At s endAddr a bs) (hentry : decodeEntry bs = some (size, 0, body))
    (hp : 10 ≤ s.passes) :
    ∃ a', s.parseCieHeader a = .ok endAddr a' ∧ At s endAddr a' body := by
  unfold Space.parseCieHeader
  obtain ⟨bs', hlen, hne, hid, -⟩ | ⟨bs1, bs', hlen1, hlen, hid, -⟩ := decodeEntry_cases hentry
  · obtain ⟨u, a1, hread, rfl, hat⟩ := h.unsigned hlen hp
    obtain ⟨n, a2, hread2, hn, hv, hat2⟩ := hat.signed hid hp
    have hzero := bmod_eq_zero hn hv.symm
    subst hzero
    have hlt := hat.lt
    refine ⟨a2, ?_, hat2⟩
    apply (bind_ok hread).trans
    rw [if_pos (ofInt_ne_wide hne (by omega))]
    apply (bind_ok (x := a1) rfl).trans
    apply (bind_ok hread2).trans
    rw [if_neg fun h : UInt64.ofNat 0 ≠ 0 => h rfl, ofInt_natCast, hat.end_add]
    rfl
  · obtain ⟨u, a1, hread, rfl, hat⟩ := h.unsigned hlen1 hp
    obtain ⟨u, a2, hread2, rfl, hat2⟩ := hat.unsigned hlen hp
    obtain ⟨n, a3, hread3, hn, hv, hat3⟩ := hat2.signed hid hp
    have hzero := bmod_eq_zero hn hv.symm
    subst hzero
    refine ⟨a3, ?_, hat3⟩
    apply (bind_ok hread).trans
    rw [if_neg fun h : UInt64.ofInt 0xffffffff ≠ 0xffffffff => h rfl]
    apply (bind_ok hread2).trans
    apply (bind_ok (x := a2) rfl).trans
    apply (bind_ok hread3).trans
    rw [if_neg fun h : UInt64.ofNat 0 ≠ 0 => h rfl, ofInt_natCast, hat2.end_add]
    rfl

/-- A distance to a CIE is not 0 as a word either. -/
theorem ofInt_bmod_ne_zero (hsize : size = 4 ∨ size = 8) (h : (n : ℤ).bmod (256 ^ size) ≠ 0) :
    UInt64.ofInt ((n : ℤ).bmod (256 ^ size)) ≠ 0 := by
  intro hzero
  have hpos : (0 : ℤ) < (256 ^ size : ℕ) := by positivity
  have hlow := Int.le_bmod (x := n) (m := 256 ^ size) (by positivity)
  have hhigh := Int.bmod_lt (x := n) (m := 256 ^ size) (by positivity)
  have hnat := congrArg UInt64.toNat hzero
  rw [toNat_ofInt] at hnat
  generalize (n : ℤ).bmod (256 ^ size) = v at *
  have hnat : (v % 2 ^ 64).toNat = 0 := hnat
  obtain rfl | rfl := hsize
  · norm_num at hlow hhigh
    omega
  · norm_num at hlow hhigh
    omega

theorem fdeHeader_eq (h : At s endAddr a bs) (hentry : decodeEntry bs = some (size, id, body))
    (hid0 : id ≠ 0) (hp : 10 ≤ s.passes) :
    ∃ a', s.fdeHeader a =
        .ok (endAddr, some (endAddr - .ofNat (body.length + size) - .ofInt id)) a' ∧
      At s endAddr a' body := by
  unfold Space.fdeHeader
  obtain ⟨bs', hlen, hne, hid, rfl⟩ | ⟨bs1, bs', hlen1, hlen, hid, rfl⟩ := decodeEntry_cases hentry
  · obtain ⟨u, a1, hread, rfl, hat⟩ := h.unsigned hlen hp
    obtain ⟨n, a2, hread2, hn, hv, hat2⟩ := hat.signed hid hp
    have hlt := hat.lt
    have hlength := length_signed hid
    have hsome : UInt64.ofInt (bs'.length : ℤ) ≠ 0 := by
      intro hzero
      have hnat := congrArg UInt64.toNat hzero
      rw [ofInt_natCast, toNat_ofNat_of_lt (by omega)] at hnat
      have hnat : bs'.length = 0 := hnat
      omega
    have hoffset : Space.sval32 (.ofNat n) = .ofInt id := by
      rw [hv]
      exact sval32_eq hn
    rw [hv] at hid0
    have hne0 : UInt64.ofInt id ≠ 0 := by
      rw [hv]
      exact ofInt_bmod_ne_zero (.inl rfl) hid0
    refine ⟨a2, ?_, hat2⟩
    apply (bind_ok hread).trans
    rw [if_pos (ofInt_ne_wide hne (by omega)), if_neg hsome]
    apply (bind_ok (x := a1) rfl).trans
    apply (bind_ok hread2).trans
    rw [hoffset, if_neg hne0, ofInt_natCast, hat.end_add, ← hlength,
      hat.end_sub]
    rfl
  · obtain ⟨u, a1, hread, rfl, hat⟩ := h.unsigned hlen1 hp
    obtain ⟨u, a2, hread2, rfl, hat2⟩ := hat.unsigned hlen hp
    obtain ⟨n, a3, hread3, hn, hv, hat3⟩ := hat2.signed hid hp
    have hlength := length_signed hid
    rw [hv] at hid0
    have hne0 : UInt64.ofInt id ≠ 0 := by
      rw [hv]
      exact ofInt_bmod_ne_zero (.inr rfl) hid0
    have hoffset : UInt64.ofNat n = .ofInt id := by
      rw [hv]
      apply eq_ofInt
      show (UInt64.ofNat n).toBitVec.toInt = _
      rw [BitVec.toInt_eq_toNat_bmod]
      exact congrArg (fun k : ℕ => (k : ℤ).bmod (2 ^ 64)) (toNat_ofNat_of_lt hn)
    refine ⟨a3, ?_, hat3⟩
    apply (bind_ok hread).trans
    rw [if_neg fun h : UInt64.ofInt 0xffffffff ≠ 0xffffffff => h rfl]
    apply (bind_ok hread2).trans
    apply (bind_ok (x := a2) rfl).trans
    apply (bind_ok hread3).trans
    rw [hoffset, if_neg hne0, ofInt_natCast, hat2.end_add, ← hlength,
      hat2.end_sub]
    rfl

end Entries

end Mtrace.Dwarf
