import Mtrace.Dwarf.Agrees
import Mtrace.Dwarf.CallFrame

/-!
# Positions in a program

A position in the image stands for the rest of the program behind it.  Operands, blocks and pointers
are read from it where the standard finds them in the rest.
-/

namespace Mtrace.Dwarf

open Standard

/-! ## Positions -/

/-- A block is at an address, behind its length. -/
def BlockAt (s : Space) (addr : UInt64) (block : List UInt8) : Prop :=
  ∃ a, ExprAt s addr a (.ofNat block.length) ∧ s.block a block.length = block

/-- The rest of a program, up to `endAddr`, is at an address. -/
structure At (s : Space) (endAddr a : UInt64) (bs : List UInt8) : Prop where
  ne_zero : a ≠ 0
  fits : a.toNat + bs.length = endAddr.toNat
  eq : bs = s.block a bs.length

section Position

variable {s : Space} {endAddr a : UInt64} {bs rest : List UInt8} {v : ℤ}

theorem At.lt (h : At s endAddr a bs) : a.toNat + bs.length < 2 ^ 64 := by
  rw [h.fits]
  exact endAddr.toNat_lt

/-- Behind some of the bytes. -/
theorem At.skip (h : At s endAddr a bs) {k : ℕ} (hk : k ≤ bs.length) :
    At s endAddr (a + .ofNat k) (bs.drop k) where
  ne_zero := by
    have hlt := h.lt
    exact add_ofNat_ne_zero h.ne_zero (by omega)
  fits := by
    have hlt := h.lt
    have hfits := h.fits
    rw [toNat_add_ofNat (by omega), List.length_drop]
    omega
  eq := by
    have heq := congrArg (List.drop k) h.eq
    rw [drop_block] at heq
    rw [List.length_drop]
    exact heq

theorem At.cons {b : UInt8} (h : At s endAddr a (b :: bs)) :
    s.image a = b ∧ At s endAddr (a + 1) bs := by
  have heq := h.eq
  rw [List.length_cons, Space.block] at heq
  have hskip : At s endAddr (a + .ofNat 1) ((b :: bs).drop 1) :=
    h.skip (Nat.le_add_left 1 bs.length)
  exact ⟨(List.cons.inj heq).1.symm, hskip⟩

theorem At.lt_end {b : UInt8} (h : At s endAddr a (b :: bs)) : a < endAddr := by
  have hfits := h.fits
  rw [List.length_cons] at hfits
  rw [UInt64.lt_iff_toNat_lt]
  omega

theorem At.not_lt_end (h : At s endAddr a []) : ¬ a < endAddr := by
  have hfits := h.fits
  rw [List.length_nil] at hfits
  rw [UInt64.lt_iff_toNat_lt]
  omega

theorem At.end_sub (h : At s endAddr a bs) : endAddr - .ofNat bs.length = a := by
  have hsum : endAddr = a + .ofNat bs.length := by
    apply UInt64.toNat_inj.mp
    rw [toNat_add_ofNat h.lt, h.fits]
  rw [hsum, UInt64.add_sub_cancel]

/-- An operand is read where the standard finds one. -/
theorem At.operand {kind : Kind} (h : At s endAddr a bs) (hdec : kind.decode bs = some (v, rest))
    (hshort : kind.Short bs) (hp : 10 ≤ s.passes) :
    ∃ u a', s.readKind kind a = .ok u a' ∧ kind.Reads v u ∧ At s endAddr a' rest := by
  have hbs := h.eq
  rw [hbs] at hdec hshort
  obtain ⟨k, u, hk, hrest, hread, hreads⟩ := readKind_eq hdec hshort h.ne_zero h.lt hp
  refine ⟨u, _, hread, hreads, ?_⟩
  rw [hrest, ← drop_block, ← hbs]
  exact h.skip hk

variable {kind kind1 kind2 : Kind} {x y : ℤ}

theorem At.one (h : At s endAddr a bs) (hdec : decodeOperands [kind] bs = some ((x, y), rest))
    (hshort : Kind.AllShort [kind] bs) (hp : 10 ≤ s.passes) :
    ∃ u a', s.readKind kind a = .ok u a' ∧ kind.Reads x u ∧ At s endAddr a' rest := by
  obtain ⟨⟨v, rest'⟩, hv, heq⟩ := Option.bind_eq_some_iff.mp hdec
  cases heq
  exact h.operand hv hshort hp

theorem At.two (h : At s endAddr a bs)
    (hdec : decodeOperands [kind1, kind2] bs = some ((x, y), rest))
    (hshort : Kind.AllShort [kind1, kind2] bs) (hp : 10 ≤ s.passes) :
    ∃ u a1 w a', s.readKind kind1 a = .ok u a1 ∧ s.readKind kind2 a1 = .ok w a' ∧
      kind1.Reads x u ∧ kind2.Reads y w ∧ At s endAddr a' rest := by
  obtain ⟨⟨v1, rest1⟩, h1, hdec⟩ := Option.bind_eq_some_iff.mp hdec
  obtain ⟨⟨v2, rest2⟩, h2, heq⟩ := Option.bind_eq_some_iff.mp hdec
  cases heq
  obtain ⟨u, a1, hread1, hreads1, hat⟩ := h.operand h1 hshort.1 hp
  obtain ⟨w, a', hread2, hreads2, hat'⟩ := hat.operand h2 (hshort.2 _ _ h1) hp
  exact ⟨u, a1, w, a', hread1, hread2, hreads1, hreads2, hat'⟩

/-- A block is passed over where the standard finds one. -/
theorem At.block {block : List UInt8} (h : At s endAddr a bs)
    (hdec : decodeBlock bs = some (block, rest)) (hshort : ShortLeb bs) (hp : 10 ≤ s.passes) :
    ∃ n a', s.readUleb128 a = .ok n a' ∧ BlockAt s a block ∧ At s endAddr (a' + n) rest := by
  obtain ⟨⟨m, bs'⟩, hm, hdec⟩ := Option.bind_eq_some_iff.mp hdec
  have hdec : (if m.value ≤ bs'.length then some (bs'.take m.value, bs'.drop m.value) else none) =
      some (block, rest) := hdec
  split at hdec
  case isFalse => cases hdec
  case isTrue hle =>
    cases hdec
    have hlen := Leb128.length_decode hm
    have hlt := h.lt
    have hbs := h.eq
    have hshort' := hshort m bs' hm
    rw [hbs] at hm
    have hread := readUleb128_eq hm hshort' h.ne_zero h.lt.le hp
    have hread' : (s.withPasses enough).readUleb128 a = .ok (.ofNat m.value) (a + .ofNat m.size) :=
      readUleb128_eq (by rw [block_withPasses]; exact hm) hshort' h.ne_zero h.lt.le
        (by decide : 10 ≤ enough)
    have hbehind : At s endAddr (a + .ofNat m.size) bs' := by
      rw [Leb128.drop_decode hm, ← hbs]
      exact h.skip (by omega)
    have htake : (bs'.take m.value).length = m.value := by
      rw [List.length_take, Nat.min_eq_left hle]
    have hvalue : (UInt64.ofNat m.value).toNat = m.value := toNat_ofNat_of_lt (by omega)
    refine ⟨_, _, hread, ⟨a + .ofNat m.size, ⟨?_, hbehind.ne_zero, ?_⟩, ?_⟩, hbehind.skip hle⟩
    · rw [htake]
      exact hread'
    · have hfits := hbehind.lt
      rw [htake, hvalue]
      omega
    · have heq := congrArg (List.take m.value) hbehind.eq
      rw [take_block hle] at heq
      rw [htake]
      exact heq.symm

end Position

/-! ## Operands -/

section Operand

variable {s : Space} {a u : UInt64} {v : ℤ} {kind : Kind}

/-- A number that is not cut keeps its value as a word. -/
theorem reads_ofInt (hkind : kind = .uleb128 ∨ kind = .sleb128) (h : kind.Reads v u) :
    u = .ofInt v := by
  obtain rfl | rfl := hkind
  · obtain ⟨n, rfl, rfl⟩ := h
    exact (ofInt_natCast n).symm
  · exact h

theorem reads_toNat {size : ℕ} (hsize : size ≤ 8) (h : (Kind.unsigned size).Reads v u) :
    u.toNat = v.toNat := by
  obtain ⟨n, hn, rfl, rfl⟩ := h
  have hle : 256 ^ size ≤ 256 ^ 8 := Nat.pow_le_pow_right (by decide) hsize
  rw [toNat_ofNat_of_lt (hn.trans_le hle), Int.toNat_natCast]

/-- A register of the machine passes the check. -/
theorem checkRegnum_ok (h : v.toNat < s.numRegs) (hreads : Kind.uleb128.Reads v u) :
    s.checkRegnum u a = .ok (.ofNat v.toNat) a ∧ u = .ofNat v.toNat := by
  obtain ⟨n, rfl, rfl⟩ := hreads
  rw [Int.toNat_natCast] at h ⊢
  have hle := numRegs_le (s := s)
  have hsmall : (UInt64.ofNat n).toUInt32.toUInt64 = .ofNat n := by
    apply UInt64.toNat_inj.mp
    rw [UInt32.toNat_toUInt64, UInt64.toNat_toUInt32, toNat_ofNat_of_lt (by omega)]
    omega
  have hin : ¬ UInt64.ofNat s.numRegs ≤ .ofNat n := by
    rw [UInt64.le_iff_toNat_le, toNat_ofNat_of_lt (by omega), toNat_ofNat_of_lt (by omega)]
    omega
  refine ⟨?_, rfl⟩
  unfold Space.checkRegnum
  rw [hsmall]
  show (if UInt64.ofNat s.numRegs ≤ .ofNat n then Reader.fail .badReg else pure (.ofNat n) :
    Reader UInt64) a = _
  rw [if_neg hin]
  rfl

theorem ofInt_factored (v : ℤ) (dataAlign : UInt64) :
    UInt64.ofInt v * dataAlign = .ofInt (v * dataAlign.toInt64.toInt) := by
  have hsame : dataAlign = .ofInt dataAlign.toInt64.toInt := eq_ofInt rfl
  rw [UInt64.ofInt_mul, ← hsame]

end Operand

/-! ## Pointers -/

section Pointers

variable {s : Space} {gp func : UInt64} {encoding : UInt8} {a a' endAddr p u : UInt64}
  {bs rest : List UInt8} {v : ℤ} {kind : Kind}

theorem bind_ok {ε σ α β : Type} {r : EStateM ε σ α} {f : α → EStateM ε σ β} {x : α} {a a' : σ}
    (h : r a = .ok x a') : (r >>= f) a = f x a' := by
  show EStateM.bind r f a = _
  unfold EStateM.bind
  rw [h]

theorem mem_of_lookup {α β : Type} [BEq α] [LawfulBEq α] {k : α} {b : β} {l : List (α × β)}
    (h : l.lookup k = some b) : (k, b) ∈ l := by
  obtain ⟨l1, l2, rfl, -⟩ := List.lookup_eq_some_iff.mp h
  simp

/-- The value of a pointer is read as its format says. -/
theorem readFormat_eq {format : UInt8} (hkind : pointerKind s.addrSize format = some kind)
    (hread : s.readKind kind a = .ok u a') (hreads : kind.Reads v u) :
    s.readFormat format true a = .ok (.ofInt v) a' := by
  have hfixed {size : ℕ} (h : s.read size a = .ok u a') :
      (do
        let val ← s.read size
        return if true then val else 0 : Reader UInt64) a = .ok u a' := bind_ok h
  have hsame {size : ℕ} (h : (Kind.unsigned size).Reads v u) : .ofInt v = u := by
    obtain ⟨n, -, rfl, rfl⟩ := h
    exact ofInt_natCast n
  have hmem := mem_of_lookup hkind
  simp only [List.mem_cons, Prod.mk.injEq, List.not_mem_nil, or_false] at hmem
  rcases hmem with ⟨rfl, rfl⟩ | ⟨rfl, rfl⟩ | ⟨rfl, rfl⟩ | ⟨rfl, rfl⟩ | ⟨rfl, rfl⟩ | ⟨rfl, rfl⟩ |
    ⟨rfl, rfl⟩ | ⟨rfl, rfl⟩ | ⟨rfl, rfl⟩
  · rw [hsame hreads]
    exact hfixed hread
  · rw [← reads_ofInt (.inl rfl) hreads]
    exact hread
  · rw [hsame hreads]
    exact hfixed hread
  · rw [hsame hreads]
    exact hfixed hread
  · rw [hsame hreads]
    exact hfixed hread
  · rw [← reads_ofInt (.inr rfl) hreads]
    exact hread
  · obtain ⟨n, hn, hv, hu⟩ := hreads
    have hval : Space.sval16 u = .ofInt v := by
      rw [hu, hv]
      exact sval16_eq hn
    rw [← hval]
    exact bind_ok (hfixed hread)
  · obtain ⟨n, hn, hv, hu⟩ := hreads
    have hval : Space.sval32 u = .ofInt v := by
      rw [hu, hv]
      exact sval32_eq hn
    rw [← hval]
    exact bind_ok (hfixed hread)
  · obtain ⟨n, hn, hv, hu⟩ := hreads
    have hval : u = .ofInt v := by
      apply eq_ofInt
      show u.toBitVec.toInt = _
      rw [hu, hv, BitVec.toInt_eq_toNat_bmod]
      exact congrArg (fun k : ℕ => (k : ℤ).bmod (2 ^ 64)) (toNat_ofNat_of_lt hn)
    rw [← hval]
    exact hfixed hread

theorem applyEncoding_eq {base val : UInt64} {place : UInt64} (hval : val ≠ 0)
    (hbase : pointerBase place gp func encoding = some base) :
    (encoding &&& 0x80 = 0 →
      s.applyEncoding gp encoding true place func val a = .ok (s.trim (val + base)) a) ∧
    (encoding &&& 0x80 ≠ 0 → s.access (s.trim (val + base)) s.addrSize = .ok p →
      s.applyEncoding gp encoding true place func val a = .ok p a) := by
  have hmem := mem_of_lookup hbase
  simp only [List.mem_cons, Prod.mk.injEq, List.not_mem_nil, or_false] at hmem
  unfold Space.applyEncoding
  rw [if_neg hval]
  rcases hmem with ⟨happ, rfl⟩ | ⟨happ, rfl⟩ | ⟨happ, rfl⟩ | ⟨happ, rfl⟩
  case' inl => rw [if_pos happ, UInt64.add_zero]
  case' inr.inl => rw [if_neg (by rw [happ]; decide), if_pos happ]
  case' inr.inr.inl => rw [if_neg (by rw [happ]; decide), if_neg (by rw [happ]; decide),
    if_pos happ]
  case' inr.inr.inr =>
    rw [if_neg (by rw [happ]; decide), if_neg (by rw [happ]; decide), if_neg (by rw [happ]; decide),
      if_pos happ]
  all_goals
    constructor
    · intro hdirect
      exact (bind_ok rfl).trans (congrFun (if_pos hdirect) a)
    · intro hindirect haccess
      apply (bind_ok rfl).trans
      apply (congrFun (if_neg hindirect) a).trans
      apply (congrFun (if_pos rfl) a).trans
      rw [haccess]
      rfl

/-- The source reads the pointer that the standard finds. -/
theorem At.pointer (h : At s endAddr a bs)
    (hdec : pointer s gp func encoding a bs = some (p, rest))
    (hshort : ∀ kind, pointerKind s.addrSize (encoding &&& 0x0f) = some kind → kind.Short bs)
    (hp : 10 ≤ s.passes) :
    ∃ a', s.readEncodedPointer gp encoding true func a = .ok p a' ∧ At s endAddr a' rest := by
  unfold Standard.pointer at hdec
  by_cases homit : encoding = 0xff
  · rw [if_pos homit] at hdec
    cases hdec
  rw [if_neg homit] at hdec
  by_cases haligned : encoding = 0x50
  · rw [if_pos haligned] at hdec
    obtain ⟨⟨v, rest'⟩, hv, heq⟩ := Option.bind_eq_some_iff.mp hdec
    cases heq
    have hpos := addrSize_pos (s := s)
    have hk : (((a + .ofNat s.addrSize - 1) &&& -.ofNat s.addrSize) - a).toNat ≤ bs.length := by
      by_contra hgt
      rw [List.drop_eq_nil_of_le (by omega), Kind.decode,
        if_neg (by rw [List.length_nil]; omega)] at hv
      cases hv
    have hskip := h.skip hk
    rw [UInt64.ofNat_toNat, add_sub_cancel] at hskip
    obtain ⟨u, a', hread, hreads, hat⟩ := hskip.operand hv trivial hp
    have hval : u = .ofInt v := by
      obtain ⟨n, -, rfl, rfl⟩ := hreads
      exact (ofInt_natCast n).symm
    refine ⟨a', ?_, hat⟩
    unfold Space.readEncodedPointer
    apply (bind_ok (x := a) rfl).trans
    rw [if_neg homit, if_pos haligned, ← hval]
    apply (bind_ok rfl).trans
    exact bind_ok hread
  · rw [if_neg haligned] at hdec
    obtain ⟨kind, hkind, hdec⟩ := Option.bind_eq_some_iff.mp hdec
    obtain ⟨⟨v, rest'⟩, hv, hdec⟩ := Option.bind_eq_some_iff.mp hdec
    dsimp only at hdec
    obtain ⟨u, a', hread, hreads, hat⟩ := h.operand hv (hshort kind hkind) hp
    have hformat := readFormat_eq hkind hread hreads
    have heq : s.readEncodedPointer gp encoding true func a =
        s.applyEncoding gp encoding true a func (.ofInt v) a' := by
      unfold Space.readEncodedPointer
      apply (bind_ok (x := a) rfl).trans
      rw [if_neg homit, if_neg haligned]
      exact bind_ok hformat
    rw [heq]
    by_cases hzero : UInt64.ofInt v = 0
    · rw [if_pos hzero] at hdec
      cases hdec
    rw [if_neg hzero] at hdec
    obtain ⟨base, hbase, hdec⟩ := Option.bind_eq_some_iff.mp hdec
    obtain ⟨hdirect, hindirect⟩ := applyEncoding_eq (s := s) (a := a') (p := p) hzero hbase
    by_cases hflag : encoding &&& 0x80 = 0
    · rw [if_pos hflag] at hdec
      cases hdec
      exact ⟨a', hdirect hflag, hat⟩
    · rw [if_neg hflag] at hdec
      obtain ⟨val, haccess, hdec⟩ := Option.bind_eq_some_iff.mp hdec
      cases hdec
      cases hval : s.access (s.trim (.ofInt v + base)) s.addrSize with
      | error e =>
        rw [hval] at haccess
        cases haccess
      | ok val' =>
        rw [hval] at haccess
        cases haccess
        exact ⟨a', hindirect hflag hval, hat⟩

/-! ### Relocation -/

theorem trim_eq_self {x : UInt64} (h : x.toNat < 256 ^ s.addrSize) : s.trim x = x := by
  unfold Space.trim
  unfold Space.addrSize at h
  cases hwidth : s.is64bit with
  | true => rfl
  | false =>
    rw [hwidth] at h
    apply UInt64.toNat_inj.mp
    show x.toUInt32.toUInt64.toNat = _
    rw [UInt32.toNat_toUInt64, UInt64.toNat_toUInt32]
    exact Nat.mod_eq_of_lt h

theorem trim_trim (x : UInt64) : s.trim (s.trim x) = s.trim x :=
  low_inj.mp (low_trim x)

/-- A pointer is not wider than an address of the task. -/
theorem trim_pointer (h : pointer s gp func encoding a bs = some (p, rest)) : s.trim p = p := by
  unfold Standard.pointer at h
  by_cases homit : encoding = 0xff
  · rw [if_pos homit] at h
    cases h
  rw [if_neg homit] at h
  by_cases haligned : encoding = 0x50
  · rw [if_pos haligned] at h
    obtain ⟨⟨v, rest'⟩, hv, heq⟩ := Option.bind_eq_some_iff.mp h
    cases heq
    rw [Kind.decode] at hv
    split at hv
    case isFalse => cases hv
    case isTrue hle =>
      cases hv
      have hlt := ByteOrder.leValue_lt ((bs.drop
        (((a + .ofNat s.addrSize - 1) &&& -.ofNat s.addrSize) - a).toNat).take s.addrSize)
      rw [List.length_take, Nat.min_eq_left hle] at hlt
      have hpow : 256 ^ s.addrSize ≤ 256 ^ 8 := Nat.pow_le_pow_right (by decide) addrSize_le
      apply trim_eq_self
      rw [ofInt_natCast, toNat_ofNat_of_lt (hlt.trans_le hpow)]
      exact hlt
  rw [if_neg haligned] at h
  obtain ⟨kind, hkind, h⟩ := Option.bind_eq_some_iff.mp h
  obtain ⟨⟨v, rest'⟩, hv, h⟩ := Option.bind_eq_some_iff.mp h
  dsimp only at h
  by_cases hzero : UInt64.ofInt v = 0
  · rw [if_pos hzero] at h
    cases h
  rw [if_neg hzero] at h
  obtain ⟨base, hbase, h⟩ := Option.bind_eq_some_iff.mp h
  by_cases hflag : encoding &&& 0x80 = 0
  · rw [if_pos hflag] at h
    cases h
    exact trim_trim _
  · rw [if_neg hflag] at h
    obtain ⟨val, haccess, h⟩ := Option.bind_eq_some_iff.mp h
    cases h
    cases hval : s.access (s.trim (.ofInt v + base)) s.addrSize with
    | error e =>
      rw [hval] at haccess
      cases haccess
    | ok val' =>
      rw [hval] at haccess
      cases haccess
      obtain ⟨n, hn, rfl⟩ := Space.number_of_access addrSize_pos addrSize_le hval
      have hlt := Space.number_lt hn
      have hpow : 256 ^ s.addrSize ≤ 256 ^ 8 := Nat.pow_le_pow_right (by decide) addrSize_le
      apply trim_eq_self
      rw [toNat_ofNat_of_lt (hlt.trans_le hpow)]
      exact hlt

theorem pointerBase_func (h : encoding &&& 0x70 = 0x40) (place : UInt64) :
    pointerBase place gp func encoding = some func := by
  unfold pointerBase
  rw [h]
  rfl

theorem pointerBase_of_ne (h : encoding &&& 0x70 ≠ 0x40) (place func' : UInt64) :
    pointerBase place gp func encoding = pointerBase place gp func' encoding := by
  have hne : (encoding &&& 0x70 == 0x40) = false := beq_eq_false_iff_ne.mpr h
  unfold pointerBase
  simp only [List.lookup_cons, hne]

/-- A pointer depends on the low bits of the start of the function alone. -/
theorem pointer_congr {func' : UInt64} (h : s.trim func = s.trim func') :
    pointer s gp func encoding a bs = pointer s gp func' encoding a bs := by
  have hsum (x : UInt64) : s.trim (x + func) = s.trim (x + func') := by
    rw [← low_inj, low_add wordBits_le, low_add wordBits_le, low_inj.mpr h]
  unfold Standard.pointer
  by_cases happ : encoding &&& 0x70 = 0x40
  · rw [pointerBase_func happ, pointerBase_func happ]
    simp only [Option.bind_eq_bind, Option.bind_some, hsum]
  · rw [pointerBase_of_ne happ a func']

/-- Where the image is mapped at the address that it has in the task, or the pointer is relative to
the function, the pointer need not be relocated. -/
theorem pointer_relocate {mmapAddr txtVaddr startIp : UInt64}
    (hsame : s.trim mmapAddr = s.trim txtVaddr ∨ encoding &&& 0xf0 = 0x40)
    (h : pointer s gp (startIp - txtVaddr + mmapAddr) encoding a bs = some (p, rest)) :
    pointer s gp startIp encoding a bs = some (s.trim (p - mmapAddr + txtVaddr), rest) := by
  obtain hsame | hfunc := hsame
  · have hlow := low_inj.mpr hsame
    have hfunc : s.trim (startIp - txtVaddr + mmapAddr) = s.trim startIp := by
      rw [← low_inj, low_add wordBits_le, low_sub wordBits_le, hlow, BitVec.sub_add_cancel]
    have hp : s.trim (p - mmapAddr + txtVaddr) = p := by
      apply Eq.trans _ (trim_pointer h)
      rw [← low_inj, low_add wordBits_le, low_sub wordBits_le, hlow, BitVec.sub_add_cancel]
    rw [hp, ← h]
    exact (pointer_congr hfunc).symm
  · have happ : encoding &&& 0x70 = 0x40 := by
      have h70 := congrArg (· &&& (0x70 : UInt8)) hfunc
      rw [UInt8.and_assoc] at h70
      exact h70
    have hflag : encoding &&& 0x80 = 0 := by
      have h80 := congrArg (· &&& (0x80 : UInt8)) hfunc
      rw [UInt8.and_assoc] at h80
      exact h80
    have homit : encoding ≠ 0xff := by
      rintro rfl
      cases hfunc
    have haligned : encoding ≠ 0x50 := by
      rintro rfl
      cases hfunc
    unfold Standard.pointer at h ⊢
    rw [if_neg homit, if_neg haligned] at h ⊢
    obtain ⟨kind, hkind, h⟩ := Option.bind_eq_some_iff.mp h
    obtain ⟨⟨v, rest'⟩, hv, h⟩ := Option.bind_eq_some_iff.mp h
    dsimp only at h
    by_cases hzero : UInt64.ofInt v = 0
    · rw [if_pos hzero] at h
      cases h
    rw [if_neg hzero, pointerBase_func happ] at h
    simp only [Option.bind_eq_bind, Option.bind_some, if_pos hflag] at h
    cases h
    simp only [Option.bind_eq_bind, hkind, Option.bind_some, hv, if_neg hzero,
      pointerBase_func happ, if_pos hflag]
    congr 2
    rw [← low_inj, low_add wordBits_le, low_add wordBits_le, low_sub wordBits_le, low_trim,
      low_add wordBits_le, low_add wordBits_le, low_sub wordBits_le, ← add_assoc,
      add_sub_cancel_right, ← add_sub_assoc, sub_add_cancel]

end Pointers

end Mtrace.Dwarf
