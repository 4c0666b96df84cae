import Mtrace.Dwarf.Position

/-!
# The headers of the standard

What a CIE and an FDE of `.eh_frame` say besides their instructions.  The augmentation string of a
CIE says which fields its augmentation data has; behind a letter that is not known, the data is
passed over by its size.  The numbers and the pointers of the headers are read where they stand. -/

namespace Mtrace.Dwarf.Standard

/-! ## Headers -/

/-- A pointer as it stands, without what it is relative to, and the bytes behind it.  Its number has
at most ten bytes. -/
def rawPointer (addrSize : ℕ) (encoding : UInt8) (place : UInt64) (bs : List UInt8) :
    Option (UInt64 × List UInt8) :=
  -- `DW_EH_PE_omit`
  if encoding = 0xff then some (0, bs)
  -- `DW_EH_PE_aligned`
  else if encoding = 0x50 then do
    let aligned := (place + .ofNat addrSize - 1) &&& -.ofNat addrSize
    let (v, rest) ← (Kind.unsigned addrSize).decode (bs.drop (aligned - place).toNat)
    return (.ofInt v, rest)
  else do
    let kind ← pointerKind addrSize (encoding &&& 0x0f)
    let (v, rest) ← kind.decode bs
    if bs.length ≤ rest.length + 10 then return (.ofInt v, rest) else none

/-- A byte, and those behind it. -/
def next : List UInt8 → Option (UInt8 × List UInt8)
  | [] => none
  | b :: bs => some (b, bs)

/-- What the letters of an augmentation string say: whether the frame is one of a signal handler,
the encodings of the pointers in the FDEs, and the pointers to personality routines. -/
structure Augmentation where
  signal : Bool
  lsda : UInt8
  fde : UInt8
  handlers : List (UInt8 × UInt64)
  deriving DecidableEq, Repr

/-- Without letters, an FDE has no LSDA and its pointers are addresses. -/
def Augmentation.start (addrSize : ℕ) : Augmentation :=
  ⟨false, 0xff, if addrSize = 8 then 0x04 else 0x03, []⟩

/-- The letters up to the first one that is not known, and the data behind their fields.  `dataEnd`
is the address of the end of the data. -/
def letters (addrSize : ℕ) (dataEnd : UInt64) :
    List UInt8 → List UInt8 → Augmentation → Option (Augmentation × List UInt8)
  | [], data, aug => some (aug, data)
  | ch :: string, data, aug =>
    -- 'L', 'R' and 'P' have an encoding
    if ch = 0x4c then do
      let (enc, data) ← next data
      letters addrSize dataEnd string data { aug with lsda := enc }
    else if ch = 0x52 then do
      let (enc, data) ← next data
      letters addrSize dataEnd string data { aug with fde := enc }
    else if ch = 0x50 then do
      let (enc, data) ← next data
      let (v, data) ← rawPointer addrSize enc (dataEnd - .ofNat data.length) data
      letters addrSize dataEnd string data { aug with handlers := (enc, v) :: aug.handlers }
    -- 'S'
    else if ch = 0x53 then letters addrSize dataEnd string data { aug with signal := true }
    else some (aug, data)

/-- A string up to its 0, and the bytes behind it. -/
def cutString : List UInt8 → Option (List UInt8 × List UInt8)
  | [] => none
  | ch :: bs => if ch = 0 then some ([], bs) else (cutString bs).map fun r => (ch :: r.1, r.2)

/-- The size and the value of the id of an entry, and its body.  The entry is as long as it says. -/
def decodeEntry (bs : List UInt8) : Option (ℕ × ℤ × List UInt8) := do
  let (len, bs) ← (Kind.unsigned 4).decode bs
  if len = 0xffffffff then do
    let (len, bs) ← (Kind.unsigned 8).decode bs
    if len = bs.length then do
      let (id, body) ← (Kind.signed 8).decode bs
      return (8, id, body)
    else none
  else if len = bs.length then do
    let (id, body) ← (Kind.signed 4).decode bs
    return (4, id, body)
  else none

/-- The parts of a CIE: the letters behind 'z', the augmentation data and the instructions. -/
structure Cie where
  sized : Bool
  string : List UInt8
  data : List UInt8
  instrs : List UInt8
  deriving DecidableEq, Repr

/-- The bytes behind the column of the return address. -/
def skipColumn (version : UInt8) (bs : List UInt8) : Option (List UInt8) :=
  if version = 1 then (next bs).map (·.2)
  else if version = 3 then (Leb128.decode bs).map (·.2)
  else none

/-- The augmentation string is empty or begins with 'z', which says that the data has a size. -/
def decodeParts (string bs : List UInt8) : Option Cie :=
  match string with
  | [] => some ⟨false, [], [], bs⟩
  | ch :: string =>
    if ch = 0x7a then (decodeBlock bs).map fun r => ⟨true, string, r.1, r.2⟩ else none

/-- The body of a CIE. -/
def decodeCie (bs : List UInt8) : Option Cie := do
  let (version, bs) ← next bs
  let (string, bs) ← cutString bs
  let (_, bs) ← Leb128.decode bs
  let (_, bs) ← Leb128.decode bs
  let bs ← skipColumn version bs
  decodeParts string bs

/-- The pointer can be passed over: it is not looked at, or its application is known. -/
def Passable (encoding : UInt8) (v : UInt64) : Prop :=
  encoding = 0xff ∨ encoding = 0x50 ∨
    (encoding &&& 0x0f ≠ 0x01 ∧ encoding &&& 0x0f ≠ 0x09) ∨ v = 0 ∨
    (pointerBase 0 0 0 encoding).isSome = true

instance (encoding : UInt8) (v : UInt64) : Decidable (Passable encoding v) := by
  unfold Passable; infer_instance

/-- The address that the pointer stands for can be found. -/
def Resolves (s : Space) (gp : UInt64) (encoding : UInt8) (place v : UInt64) : Prop :=
  encoding = 0x50 ∨ v = 0 ∨ ∃ base, pointerBase place gp 0 encoding = some base ∧
    (encoding &&& 0x80 ≠ 0 → ∃ p, s.access (s.trim (v + base)) s.addrSize = .ok p)

/-- An FDE: its start and its LSDA pointer as they stand, and the instructions. -/
structure Fde where
  start : UInt64
  lsda : UInt64
  instrs : List UInt8
  deriving DecidableEq, Repr

/-- The FDE that ends at `fdeEnd`, behind its distance to a CIE. -/
def decodeFde (addrSize : ℕ) (aug : Augmentation) (sized : Bool) (fdeEnd : UInt64)
    (bs : List UInt8) :
    Option Fde :=
  if aug.fde = 0xff then none
  else do
    let (start, bs) ← rawPointer addrSize aug.fde (fdeEnd - .ofNat bs.length) bs
    let (_, bs) ← rawPointer addrSize (aug.fde &&& 0x0f) (fdeEnd - .ofNat bs.length) bs
    if sized then do
      let (data, instrs) ← decodeBlock bs
      let dataEnd := fdeEnd - .ofNat instrs.length
      let (lsda, _) ← rawPointer addrSize aug.lsda (dataEnd - .ofNat data.length) data
      return ⟨start, lsda, instrs⟩
    else return ⟨start, 0, bs⟩

end Mtrace.Dwarf.Standard

namespace Mtrace.Dwarf

open Standard

/-! ## Positions -/

section Position

variable {s : Space} {endAddr a : UInt64} {bs rest : List UInt8}

theorem At.take (h : At s endAddr a bs) {k : ℕ} (hk : k ≤ bs.length) :
    At s (a + .ofNat k) a (bs.take k) where
  ne_zero := h.ne_zero
  fits := by
    have hlt := h.lt
    rw [List.length_take, Nat.min_eq_left hk, toNat_add_ofNat (by omega)]
  eq := by
    have heq := congrArg (List.take k) h.eq
    rw [take_block hk] at heq
    rw [List.length_take, Nat.min_eq_left hk]
    exact heq

theorem At.read8 {b : UInt8} (h : At s endAddr a (b :: bs)) :
    s.read8 a = .ok b (a + 1) ∧ At s endAddr (a + 1) bs := by
  obtain ⟨himage, hat⟩ := h.cons
  exact ⟨by rw [read8_eq h.ne_zero, himage], hat⟩

theorem At.next {b : UInt8} (h : At s endAddr a bs) (hnext : next bs = some (b, rest)) :
    s.read8 a = .ok b (a + 1) ∧ At s endAddr (a + 1) rest := by
  cases bs with
  | nil => cases hnext
  | cons b' bs =>
    cases hnext
    exact h.read8

/-- A number of fixed size. -/
theorem At.unsigned (h : At s endAddr a bs) {size : ℕ} {v : ℤ}
    (hdec : (Kind.unsigned size).decode bs = some (v, rest)) (hp : 10 ≤ s.passes) :
    ∃ u a', s.read size a = .ok u a' ∧ u = .ofInt v ∧ At s endAddr a' rest := by
  obtain ⟨u, a', hread, ⟨n, -, rfl, rfl⟩, hat⟩ := h.operand hdec trivial hp
  exact ⟨_, a', hread, (ofInt_natCast n).symm, hat⟩

end Position

/-! ## Numbers of any length -/

section Numbers

open Leb128

variable {s : Space} {a endAddr val : UInt64} {k n p : ℕ} {m : Leb} {bs rest : List UInt8}

/-- The loop ends behind the number, however long it is; a number that fits in a word is read
right. -/
theorem leb128_reads (h : decode (s.block a n) = some (m, rest)) (ha : a ≠ 0)
    (hfit : a.toNat + n < 2 ^ 64) (hval : val.toNat < 2 ^ (7 * k)) (hp : m.size ≤ p) :
    ∃ x shift b, s.leb128 p val (.ofNat (7 * k)) a = .ok (x, shift, b) (a + .ofNat m.size) ∧
      (val.toNat + 2 ^ (7 * k) * m.value < 2 ^ 64 →
        x = .ofNat (val.toNat + 2 ^ (7 * k) * m.value)) := by
  induction n generalizing a k val p m with
  | zero => cases h
  | succ n ih =>
    have hsize := size_pos h
    obtain _ | p := p
    · omega
    have hlt := (s.image a).toNat_lt
    have hshift : UInt64.ofNat (7 * k) + 7 = .ofNat (7 * (k + 1)) := (UInt64.ofNat_add ..).symm
    have hpow : 2 ^ (7 * (k + 1)) = 2 ^ (7 * k) * 128 := by
      rw [Nat.mul_succ, Nat.pow_add]
    rw [leb128_succ p val _ ha, hshift]
    -- the value with the next group
    have hnext : ∃ val', val ||| (s.image a &&& 0x7f).toUInt64 <<< UInt64.ofNat (7 * k) = val' ∧
        val'.toNat < 2 ^ (7 * (k + 1)) ∧
        (val.toNat + 2 ^ (7 * k) * ((s.image a).toNat % 128) < 2 ^ 64 →
          val'.toNat = val.toNat + 2 ^ (7 * k) * ((s.image a).toNat % 128)) := by
      refine ⟨_, rfl, ?_⟩
      by_cases hk : k ≤ 9
      · have hor := or_group (g := s.image a &&& 0x7f) hk hval
        rw [group_toNat] at hor
        rw [hor]
        have hgroup : 2 ^ (7 * k) * ((s.image a).toNat % 128 + 1) ≤ 2 ^ (7 * k) * 128 :=
          Nat.mul_le_mul_left _ (by omega)
        rw [Nat.mul_succ] at hgroup
        refine ⟨?_, fun hfits => toNat_ofNat_of_lt hfits⟩
        rw [UInt64.toNat_ofNat', hpow]
        exact (Nat.mod_le _ _).trans_lt (by omega)
      · have hlarge : 2 ^ 64 ≤ 2 ^ (7 * k) := Nat.pow_le_pow_right (by decide) (by omega)
        refine ⟨(UInt64.toNat_lt _).trans_le (by omega), fun hfits => ?_⟩
        have hzero : (s.image a).toNat % 128 = 0 := by
          by_contra hne
          have hle : 2 ^ (7 * k) * 1 ≤ 2 ^ (7 * k) * ((s.image a).toNat % 128) :=
            Nat.mul_le_mul_left _ (by omega)
          omega
        have hgroup : s.image a &&& 0x7f = 0 := UInt8.toNat_inj.mp ((group_toNat _).trans hzero)
        rw [hgroup, hzero, Nat.mul_zero, Nat.add_zero]
        simp
    obtain ⟨val', heq, hbound, hexact⟩ := hnext
    rw [heq]
    rw [Space.block] at h
    by_cases hb : (s.image a).toNat < 128
    · rw [decode_last hb] at h
      cases h
      rw [if_pos ((last_iff _).mpr hb)]
      refine ⟨_, _, _, rfl, fun hfits => ?_⟩
      rw [Nat.mod_eq_of_lt hb] at hexact
      rw [← hexact hfits, UInt64.ofNat_toNat]
    · obtain ⟨m, hm, rfl⟩ := decode_more hb h
      rw [if_neg fun h0 => hb ((last_iff _).mp h0)]
      dsimp only at hp ⊢
      have hone : (a + 1).toNat = a.toNat + 1 := toNat_add_ofNat (k := 1) (by omega)
      obtain ⟨x, shift, b, hloop, hx⟩ := ih (k := k + 1) (p := p) hm
        (add_ofNat_ne_zero (k := 1) ha (by omega)) (by omega) hbound (by omega)
      refine ⟨x, shift, b, ?_, fun hfits => ?_⟩
      · rw [hloop, ← add_ofNat_succ]
      · have hmod : (s.image a).toNat % 128 = (s.image a).toNat - 128 := by omega
        have hsum : val.toNat + 2 ^ (7 * k) * ((s.image a).toNat - 128 + 128 * m.value) =
            val.toNat + 2 ^ (7 * k) * ((s.image a).toNat % 128) + 2 ^ (7 * (k + 1)) * m.value := by
          rw [hmod, hpow]
          ring
        rw [hsum] at hfits ⊢
        rw [hexact (by omega)] at hx
        exact hx hfits

theorem At.uleb (h : At s endAddr a bs) (hdec : decode bs = some (m, rest))
    (hp : bs.length ≤ s.passes) :
    ∃ x a', s.readUleb128 a = .ok x a' ∧ At s endAddr a' rest ∧
      (m.value < 2 ^ 64 → x = .ofNat m.value) := by
  have hlen := length_decode hdec
  have hblock := hdec
  rw [h.eq] at hblock
  obtain ⟨x, shift, b, hloop, hx⟩ := leb128_reads (k := 0) hblock h.ne_zero h.lt
    (show (0 : UInt64).toNat < 2 ^ (7 * 0) from Nat.one_pos) (by omega : m.size ≤ s.passes)
  have hzero : (0 : UInt64).toNat + 2 ^ (7 * 0) * m.value = m.value := by
    show 0 + 2 ^ (7 * 0) * m.value = _
    rw [Nat.mul_zero, Nat.pow_zero, Nat.one_mul, Nat.zero_add]
  rw [hzero] at hx
  refine ⟨x, _, bind_ok hloop, ?_, hx⟩
  rw [drop_decode hdec]
  exact h.skip (by omega)

theorem At.sleb (h : At s endAddr a bs) (hdec : decode bs = some (m, rest))
    (hp : bs.length ≤ s.passes) :
    ∃ x a', s.readSleb128 a = .ok x a' ∧ At s endAddr a' rest := by
  have hlen := length_decode hdec
  have hblock := hdec
  rw [h.eq] at hblock
  obtain ⟨x, shift, b, hloop, -⟩ := leb128_reads (k := 0) hblock h.ne_zero h.lt
    (show (0 : UInt64).toNat < 2 ^ (7 * 0) from Nat.one_pos) (by omega : m.size ≤ s.passes)
  have hat : At s endAddr (a + .ofNat m.size) rest := by
    rw [drop_decode hdec]
    exact h.skip (by omega)
  by_cases hneg : shift < 64 ∧ b &&& 0x40 ≠ 0
  · exact ⟨_, _, (bind_ok hloop).trans (congrFun (if_pos hneg) _), hat⟩
  · exact ⟨_, _, (bind_ok hloop).trans (congrFun (if_neg hneg) _), hat⟩

end Numbers

/-! ## Pointers -/

section Pointers

variable {s : Space} {a a' endAddr gp func v u : UInt64} {encoding : UInt8} {bs rest : List UInt8}

theorem pointerBase_isSome (place : UInt64) :
    (pointerBase place gp func encoding).isSome = true ↔ encoding &&& 0x70 = 0x00 ∨
      encoding &&& 0x70 = 0x10 ∨ encoding &&& 0x70 = 0x30 ∨ encoding &&& 0x70 = 0x40 := by
  unfold pointerBase
  rw [List.lookup_isSome_iff]
  simp

/-- The value of a number of fixed size is not read without a place for it. -/
theorem readFormat_skip {format : UInt8} {kind : Kind} {v : ℤ}
    (hkind : pointerKind s.addrSize format = some kind) (hread : s.readKind kind a = .ok u a')
    (hreads : kind.Reads v u) :
    s.readFormat format false a =
      .ok (if format ≠ 0x01 ∧ format ≠ 0x09 then 0 else .ofInt v) a' := by
  have hfixed {size : ℕ} (h : s.read size a = .ok u a') :
      (do
        let val ← s.read size
        return if false then val else 0 : Reader UInt64) a = .ok 0 a' := bind_ok h
  have hmem := mem_of_lookup hkind
  simp only [List.mem_cons, Prod.mk.injEq, List.not_mem_nil, or_false] at hmem
  rcases hmem with ⟨rfl, rfl⟩ | ⟨rfl, rfl⟩ | ⟨rfl, rfl⟩ | ⟨rfl, rfl⟩ | ⟨rfl, rfl⟩ | ⟨rfl, rfl⟩ |
    ⟨rfl, rfl⟩ | ⟨rfl, rfl⟩ | ⟨rfl, rfl⟩
  · exact hfixed hread
  · rw [if_neg (by decide), ← reads_ofInt (.inl rfl) hreads]
    exact hread
  · exact hfixed hread
  · exact hfixed hread
  · exact hfixed hread
  · rw [if_neg (by decide), ← reads_ofInt (.inr rfl) hreads]
    exact hread
  · exact bind_ok (hfixed hread)
  · exact bind_ok (hfixed hread)
  · exact hfixed hread

/-- Without a place for the value, the application has to be known unless the value is 0. -/
theorem applyEncoding_skip (gp func : UInt64) (encoding : UInt8) (place val : UInt64) :
    (val = 0 ∨ (pointerBase 0 0 0 encoding).isSome = true →
      ∃ x, s.applyEncoding gp encoding false place func val a = .ok x a) ∧
    (¬ (val = 0 ∨ (pointerBase 0 0 0 encoding).isSome = true) →
      s.applyEncoding gp encoding false place func val a = .error (.error .inval) a) := by
  unfold Space.applyEncoding
  by_cases hzero : val = 0
  · rw [if_pos hzero]
    exact ⟨fun _ => ⟨0, rfl⟩, fun hnot => absurd (.inl hzero) hnot⟩
  rw [if_neg hzero, pointerBase_isSome]
  -- the flag of an indirect pointer does not matter without a place for it
  have hdone {x y : Reader UInt64} (hx : ∃ v, x a = .ok v a) (hy : ∃ v, y a = .ok v a) :
      ∃ v, (if encoding &&& 0x80 = 0 then x else y) a = .ok v a := by
    split
    · exact hx
    · exact hy
  by_cases h0 : encoding &&& 0x70 = 0x00
  · rw [if_pos h0]
    exact ⟨fun _ => hdone ⟨_, rfl⟩ ⟨0, rfl⟩, fun hnot => absurd (.inr (.inl h0)) hnot⟩
  by_cases h1 : encoding &&& 0x70 = 0x10
  · rw [if_neg h0, if_pos h1]
    exact ⟨fun _ => hdone ⟨_, rfl⟩ ⟨0, rfl⟩, fun hnot => absurd (.inr (.inr (.inl h1))) hnot⟩
  by_cases h3 : encoding &&& 0x70 = 0x30
  · rw [if_neg h0, if_neg h1, if_pos h3]
    exact ⟨fun _ => hdone ⟨_, rfl⟩ ⟨0, rfl⟩, fun hnot => absurd (.inr (.inr (.inr (.inl h3)))) hnot⟩
  by_cases h4 : encoding &&& 0x70 = 0x40
  · rw [if_neg h0, if_neg h1, if_neg h3, if_pos h4]
    exact ⟨fun _ => hdone ⟨_, rfl⟩ ⟨0, rfl⟩, fun hnot => absurd (.inr (.inr (.inr (.inr h4)))) hnot⟩
  · rw [if_neg h0, if_neg h1, if_neg h3, if_neg h4]
    refine ⟨fun hor => ?_, fun _ => rfl⟩
    obtain h | h | h | h | h := hor <;> contradiction

/-- The number of a pointer is read where it stands. -/
theorem At.format (h : At s endAddr a bs) (want : Bool)
    (hraw : rawPointer s.addrSize encoding a bs = some (v, rest)) (homit : encoding ≠ 0xff)
    (haligned : encoding ≠ 0x50) (hp : 10 ≤ s.passes) :
    ∃ a', s.readFormat (encoding &&& 0x0f) want a = .ok
        (if want = false ∧ encoding &&& 0x0f ≠ 0x01 ∧ encoding &&& 0x0f ≠ 0x09 then 0 else v) a' ∧
      At s endAddr a' rest := by
  unfold rawPointer at hraw
  rw [if_neg homit, if_neg haligned] at hraw
  obtain ⟨kind, hkind, hraw⟩ := Option.bind_eq_some_iff.mp hraw
  obtain ⟨⟨n, rest'⟩, hdec, hraw⟩ := Option.bind_eq_some_iff.mp hraw
  dsimp only at hraw
  split at hraw
  case isFalse => cases hraw
  case isTrue hten =>
    cases hraw
    have hshort : kind.Short bs := by
      cases kind with
      | unsigned => trivial
      | signed => trivial
      | uleb128 =>
        intro m rest' hm
        have hlen := Leb128.length_decode hm
        obtain ⟨r, hr, heq⟩ := Option.map_eq_some_iff.mp hdec
        cases hr.symm.trans hm
        cases heq
        dsimp only at hten
        omega
      | sleb128 =>
        intro m rest' hm
        have hlen := Leb128.length_decode hm
        obtain ⟨r, hr, heq⟩ := Option.map_eq_some_iff.mp hdec
        cases hr.symm.trans hm
        cases heq
        dsimp only at hten
        omega
    obtain ⟨u, a', hread, hreads, hat⟩ := h.operand hdec hshort hp
    refine ⟨a', ?_, hat⟩
    cases want with
    | true => rw [readFormat_eq hkind hread hreads, if_neg fun hnot => absurd hnot.1 (by decide)]
    | false =>
      rw [readFormat_skip hkind hread hreads]
      simp only [true_and]

/-- `DW_EH_PE_aligned`. -/
theorem At.aligned (h : At s endAddr a bs) (want : Bool)
    (hraw : rawPointer s.addrSize 0x50 a bs = some (v, rest)) (hp : 10 ≤ s.passes) :
    ∃ x a', s.readEncodedPointer gp 0x50 want func a = .ok x a' ∧ At s endAddr a' rest := by
  obtain ⟨⟨n, rest'⟩, hdec, heq⟩ := Option.bind_eq_some_iff.mp hraw
  cases heq
  have hpos := addrSize_pos (s := s)
  have hk : (((a + .ofNat s.addrSize - 1) &&& -.ofNat s.addrSize) - a).toNat ≤ bs.length := by
    by_contra hgt
    rw [List.drop_eq_nil_of_le (by omega), Kind.decode,
      if_neg (by rw [List.length_nil]; omega)] at hdec
    cases hdec
  have hskip := h.skip hk
  rw [UInt64.ofNat_toNat, add_sub_cancel] at hskip
  obtain ⟨u, a', hread, hreads, hat⟩ := hskip.operand hdec trivial hp
  refine ⟨if want then u else 0, a', ?_, hat⟩
  unfold Space.readEncodedPointer
  apply (bind_ok (x := a) rfl).trans
  rw [if_neg (by decide), if_pos rfl]
  apply (bind_ok rfl).trans
  exact bind_ok hread

/-- A pointer is passed over. -/
theorem At.passPointer (gp func : UInt64) (h : At s endAddr a bs)
    (hraw : rawPointer s.addrSize encoding a bs = some (v, rest)) (hp : 10 ≤ s.passes) :
    ∃ a', At s endAddr a' rest ∧
      (Passable encoding v → ∃ x, s.readEncodedPointer gp encoding false func a = .ok x a') ∧
      (¬ Passable encoding v →
        s.readEncodedPointer gp encoding false func a = .error (.error .inval) a') := by
  by_cases homit : encoding = 0xff
  · subst homit
    cases hraw
    refine ⟨a, h, fun _ => ⟨0, ?_⟩, fun hnot => absurd (.inl rfl) hnot⟩
    unfold Space.readEncodedPointer
    exact bind_ok (x := a) rfl
  by_cases haligned : encoding = 0x50
  · subst haligned
    obtain ⟨x, a', hread, hat⟩ := h.aligned false hraw hp
    exact ⟨a', hat, fun _ => ⟨x, hread⟩, fun hnot => absurd (.inr (.inl rfl)) hnot⟩
  obtain ⟨a', hread, hat⟩ := h.format false hraw homit haligned hp
  have hmodel : s.readEncodedPointer gp encoding false func a =
      s.applyEncoding gp encoding false a func
        (if encoding &&& 0x0f ≠ 0x01 ∧ encoding &&& 0x0f ≠ 0x09 then 0 else v) a' := by
    unfold Space.readEncodedPointer
    apply (bind_ok (x := a) rfl).trans
    rw [if_neg homit, if_neg haligned]
    apply (bind_ok hread).trans
    simp only [true_and]
  have hpassable : Passable encoding v ↔
      ((if encoding &&& 0x0f ≠ 0x01 ∧ encoding &&& 0x0f ≠ 0x09 then 0 else v) = 0 ∨
        (pointerBase 0 0 0 encoding).isSome = true) := by
    unfold Passable
    split
    case isTrue hfixed => exact iff_of_true (.inr (.inr (.inl hfixed))) (.inl rfl)
    case isFalse hleb => simp only [homit, haligned, hleb, false_or]
  obtain ⟨hok, herror⟩ := applyEncoding_skip (s := s) (a := a') gp func encoding a
    (if encoding &&& 0x0f ≠ 0x01 ∧ encoding &&& 0x0f ≠ 0x09 then 0 else v)
  rw [hmodel, hpassable]
  exact ⟨a', hat, hok, herror⟩

/-- A pointer is read whose address can be found. -/
theorem At.resolve (h : At s endAddr a bs)
    (hraw : rawPointer s.addrSize encoding a bs = some (v, rest)) (homit : encoding ≠ 0xff)
    (hresolves : Resolves s gp encoding a v) (hp : 10 ≤ s.passes) :
    ∃ x a', s.readEncodedPointer gp encoding true 0 a = .ok x a' ∧ At s endAddr a' rest := by
  by_cases haligned : encoding = 0x50
  · subst haligned
    exact h.aligned true hraw hp
  obtain ⟨a', hread, hat⟩ := h.format true hraw homit haligned hp
  rw [if_neg fun hnot => absurd hnot.1 (by decide)] at hread
  have hmodel : s.readEncodedPointer gp encoding true 0 a =
      s.applyEncoding gp encoding true a 0 v a' := by
    unfold Space.readEncodedPointer
    apply (bind_ok (x := a) rfl).trans
    rw [if_neg homit, if_neg haligned]
    exact bind_ok hread
  rw [hmodel]
  by_cases hzero : v = 0
  · refine ⟨0, a', ?_, hat⟩
    unfold Space.applyEncoding
    rw [if_pos hzero]
    rfl
  obtain h50 | hv | ⟨base, hbase, haccess⟩ := hresolves
  · exact absurd h50 haligned
  · exact absurd hv hzero
  by_cases hflag : encoding &&& 0x80 = 0
  · exact ⟨_, a', (applyEncoding_eq (p := 0) hzero hbase).1 hflag, hat⟩
  · obtain ⟨p, hp⟩ := haccess hflag
    exact ⟨p, a', (applyEncoding_eq hzero hbase).2 hflag hp, hat⟩

end Pointers

end Mtrace.Dwarf
