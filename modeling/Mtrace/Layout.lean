import Mathlib.Data.Nat.Bitwise

/-!
# Objects as bits

A structure of C in memory: the bits of its bytes, the lowest bit of the first byte first.  A member
is a range of bits, a bit-field as well as one of whole bytes.  What was not written keeps what was
there before.
-/

namespace Layout

/-- The bits of an object. -/
abbrev Bits := ℕ → Bool

/-- A member of a structure. -/
structure Field where
  lo : ℕ
  width : ℕ
  deriving DecidableEq, Repr

/-- A member of `n` bytes. -/
def Field.bytes (off n : ℕ) : Field := ⟨8 * off, 8 * n⟩

def Field.Has (f : Field) (i : ℕ) : Prop := f.lo ≤ i ∧ i < f.lo + f.width

instance (f : Field) (i : ℕ) : Decidable (f.Has i) := inferInstanceAs (Decidable (_ ∧ _))

/-- Two members have no bit in common. -/
def Field.Disjoint (f g : Field) : Prop := f.lo + f.width ≤ g.lo ∨ g.lo + g.width ≤ f.lo

instance (f g : Field) : Decidable (f.Disjoint g) := inferInstanceAs (Decidable (_ ∨ _))

namespace Bits

variable {b dst src : Bits} {f g : Field} {i v : ℕ}

def read (b : Bits) (f : Field) : ℕ := Nat.ofBits fun i : Fin f.width => b (f.lo + i)

/-- An assignment of a number. -/
def write (b : Bits) (f : Field) (v : ℕ) : Bits := fun i =>
  if f.Has i then v.testBit (i - f.lo) else b i

/-- An assignment of the same member of another object, or `memcpy` between the same places. -/
def copy (dst src : Bits) (f : Field) : Bits := fun i => if f.Has i then src i else dst i

/-- Assignments of members of another object, one after another. -/
def copies (dst src : Bits) (fs : List Field) : Bits := fs.foldl (fun b f => b.copy src f) dst

/-- Assignments of numbers, one after another. -/
def writes (b : Bits) (fs : List (Field × ℕ)) : Bits := fs.foldl (fun b f => b.write f.1 f.2) b

/-- Two objects have the same bits in a member. -/
def Agree (b c : Bits) (f : Field) : Prop := ∀ i, f.Has i → b i = c i

theorem read_eq_iff {b c : Bits} : b.read f = c.read f ↔ b.Agree c f := by
  constructor
  · intro h i hi
    obtain ⟨hlo, hhi⟩ := hi
    have hbit := congrArg (fun n => n.testBit (i - f.lo)) h
    have hlt : i - f.lo < f.width := by omega
    simp only [read, Nat.testBit_ofBits_lt _ _ hlt] at hbit
    rwa [Nat.add_sub_cancel' hlo] at hbit
  · intro h
    unfold read
    congr 1
    funext i
    exact h _ ⟨Nat.le_add_right _ _, Nat.add_lt_add_left i.2 _⟩

theorem read_lt (b : Bits) (f : Field) : b.read f < 2 ^ f.width := Nat.ofBits_lt_two_pow _

theorem testBit_read (b : Bits) (f : Field) (hi : i < f.width) :
    (b.read f).testBit i = b (f.lo + i) := Nat.testBit_ofBits_lt _ _ hi

theorem copy_of_has (h : f.Has i) : (dst.copy src f) i = src i := if_pos h

theorem copy_of_not_has (h : ¬f.Has i) : (dst.copy src f) i = dst i := if_neg h

theorem write_of_not_has (h : ¬f.Has i) : (b.write f v) i = b i := if_neg h

theorem not_has_of_disjoint (hd : f.Disjoint g) (hi : f.Has i) : ¬g.Has i := by
  obtain ⟨hlo, hhi⟩ := hi
  rintro ⟨glo, ghi⟩
  rcases hd with hd | hd <;> omega

theorem agree_copy_self : (dst.copy src f).Agree src f := fun _ hi => copy_of_has hi

/-- What agrees with an object goes on to agree when more is copied from it. -/
theorem Agree.copy (h : dst.Agree src f) : (dst.copy src g).Agree src f := by
  intro i hi
  by_cases hg : g.Has i
  · exact copy_of_has hg
  · exact (copy_of_not_has hg).trans (h i hi)

theorem read_write_self (hv : v < 2 ^ f.width) : (b.write f v).read f = v := by
  refine Nat.eq_of_testBit_eq fun i => ?_
  by_cases hi : i < f.width
  · rw [testBit_read _ _ hi]
    have hhas : f.Has (f.lo + i) := ⟨Nat.le_add_right _ _, Nat.add_lt_add_left hi _⟩
    show (if f.Has (f.lo + i) then v.testBit (f.lo + i - f.lo) else _) = _
    rw [if_pos hhas, Nat.add_sub_cancel_left]
  · rw [not_lt] at hi
    rw [Nat.testBit_lt_two_pow ((read_lt _ f).trans_le (Nat.pow_le_pow_right Nat.two_pos hi)),
      Nat.testBit_lt_two_pow (hv.trans_le (Nat.pow_le_pow_right Nat.two_pos hi))]

theorem read_write_of_disjoint (hd : f.Disjoint g) : (b.write g v).read f = b.read f :=
  read_eq_iff.mpr fun _ hi => write_of_not_has (not_has_of_disjoint hd hi)

theorem read_copy_of_disjoint (hd : f.Disjoint g) : (dst.copy src g).read f = dst.read f :=
  read_eq_iff.mpr fun _ hi => copy_of_not_has (not_has_of_disjoint hd hi)

theorem Agree.copies {fs : List Field} (h : dst.Agree src f) : (dst.copies src fs).Agree src f := by
  induction fs generalizing dst with
  | nil => exact h
  | cons g fs ih => exact ih h.copy

theorem agree_copies {fs : List Field} (hf : f ∈ fs) : (dst.copies src fs).Agree src f := by
  induction fs generalizing dst with
  | nil => cases hf
  | cons g fs ih =>
    rcases List.mem_cons.mp hf with rfl | hf
    · exact agree_copy_self.copies
    · exact ih hf

theorem read_copies_of_disjoint {fs : List Field} (hd : ∀ g ∈ fs, f.Disjoint g) :
    (dst.copies src fs).read f = dst.read f := by
  induction fs generalizing dst with
  | nil => rfl
  | cons g fs ih =>
    exact (ih fun g' hg => hd g' (List.mem_cons_of_mem g hg)).trans
      (read_copy_of_disjoint (hd g List.mem_cons_self))

theorem read_writes_of_disjoint {fs : List (Field × ℕ)} (hd : ∀ g ∈ fs, f.Disjoint g.1) :
    (b.writes fs).read f = b.read f := by
  induction fs generalizing b with
  | nil => rfl
  | cons g fs ih =>
    exact (ih fun g' hg => hd g' (List.mem_cons_of_mem g hg)).trans
      (read_write_of_disjoint (hd g List.mem_cons_self))

end Bits

end Layout
