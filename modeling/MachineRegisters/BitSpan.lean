import MachineRegisters.Bits
import MachineRegisters.Config

/-! # Spans of bits

A span is a run of bits in a byte string: bit `i` of the string is bit `i % 8` of
byte `i / 8`.  `bits` reads a span and `deposit` writes it, leaving every other
bit alone.  A span of whole bytes is read and written in the order of bytes that
the machine is set to; any other span is read and written as it lies. -/
set_option autoImplicit false
namespace MachineRegisters

/-- The bits from `offset` on, `size` of them. -/
structure BitSpan where
  offset : Nat
  size : Nat
  deriving DecidableEq, Repr

namespace BitSpan

/-- The first bit behind the span. -/
def past (s : BitSpan) : Nat := s.offset + s.size

def bytesNeeded (s : BitSpan) : Nat := Bits.bytesFor s.past

def Aligned (s : BitSpan) : Prop := s.offset % 8 = 0 ∧ s.size % 8 = 0

instance (s : BitSpan) : Decidable s.Aligned :=
  inferInstanceAs (Decidable (s.offset % 8 = 0 ∧ s.size % 8 = 0))

def Within (s : BitSpan) (bs : Bytes) : Prop := s.past ≤ 8 * bs.length

instance (s : BitSpan) (bs : Bytes) : Decidable (s.Within bs) :=
  inferInstanceAs (Decidable (s.past ≤ 8 * bs.length))

def Covers (s t : BitSpan) : Prop := s.offset ≤ t.offset ∧ t.past ≤ s.past

instance (s t : BitSpan) : Decidable (s.Covers t) :=
  inferInstanceAs (Decidable (s.offset ≤ t.offset ∧ t.past ≤ s.past))

def Overlaps (s t : BitSpan) : Prop := s.offset < t.past ∧ t.offset < s.past

instance (s t : BitSpan) : Decidable (s.Overlaps t) :=
  inferInstanceAs (Decidable (s.offset < t.past ∧ t.offset < s.past))

def bits (s : BitSpan) (bs : Bytes) : BitVec s.size :=
  BitVec.ofNat s.size (Bytes.toNat bs >>> s.offset)

/-- The byte string with the bits of the span replaced by `v`. -/
def deposit (s : BitSpan) (v : BitVec s.size) (bs : Bytes) : Bytes :=
  let n := Bytes.toNat bs
  Bytes.ofNat bs.length
    (((n >>> s.past) <<< s.size + v.toNat) <<< s.offset + n % 1 <<< s.offset)

/-- Between the bits as they lie and the value they stand for. -/
def arrange (s : BitSpan) (order : ByteOrder) (v : BitVec s.size) : BitVec s.size :=
  match order with
  | .lowFirst => v
  | .highFirst => if s.Aligned then Bits.reversed v else v

def read (s : BitSpan) (order : ByteOrder) (bs : Bytes) : BitVec s.size :=
  s.arrange order (s.bits bs)

def write (s : BitSpan) (order : ByteOrder) (v : BitVec s.size) (bs : Bytes) : Bytes :=
  s.deposit (s.arrange order v) bs

def Differs (s : BitSpan) (before after : Bytes) : Prop := s.bits before ≠ s.bits after

instance (s : BitSpan) (before after : Bytes) : Decidable (s.Differs before after) :=
  inferInstanceAs (Decidable (s.bits before ≠ s.bits after))

@[simp] theorem length_deposit (s : BitSpan) (v : BitVec s.size) (bs : Bytes) :
    (s.deposit v bs).length = bs.length := Bytes.length_ofNat _ _

@[simp] theorem length_write (s : BitSpan) (order : ByteOrder) (v : BitVec s.size) (bs : Bytes) :
    (s.write order v bs).length = bs.length := length_deposit _ _ _

theorem getLsbD_bits (s : BitSpan) (bs : Bytes) (i : Nat) :
    (s.bits bs).getLsbD i = (decide (i < s.size) && (Bytes.toNat bs).testBit (s.offset + i)) := by
  rw [bits, BitVec.getLsbD_ofNat, Nat.testBit_shiftRight]

/-- After a deposit the span holds the deposited bits and the rest is as before. -/
theorem testBit_deposit (s : BitSpan) (v : BitVec s.size) (bs : Bytes) (inside : s.Within bs) (i : Nat) :
    (Bytes.toNat (s.deposit v bs)).testBit i =
      if s.offset ≤ i ∧ i < s.past then v.getLsbD (i - s.offset)
      else (Bytes.toNat bs).testBit i := by
  have low : Bytes.toNat bs % 2 ^ s.offset < 2 ^ s.offset := Nat.mod_lt _ (Nat.two_pow_pos _)
  have bounded : Bytes.toNat bs < 2 ^ (8 * bs.length) := Nat.one_shiftLeft _ ▸ Bytes.toNat_lt bs
  have pastEq : s.past = s.offset + s.size := rfl
  simp only [Within] at inside
  simp only [deposit, Bytes.toNat_ofNat, Nat.shiftLeft_eq, Nat.one_mul, Nat.testBit_mod_two_pow]
  rw [Nat.mul_comm _ (2 ^ s.offset), Nat.testBit_two_pow_mul_add _ low]
  by_cases below : i < s.offset
  · have outside : ¬(s.offset ≤ i ∧ i < s.past) := by omega
    have small : i < 8 * bs.length := by omega
    rw [if_pos below, if_neg outside, Nat.testBit_mod_two_pow]
    simp [below, small]
  · rw [if_neg below, Nat.mul_comm _ (2 ^ s.size), Nat.testBit_two_pow_mul_add _ v.isLt]
    by_cases inSpan : i - s.offset < s.size
    · have within : s.offset ≤ i ∧ i < s.past := by omega
      have small : i < 8 * bs.length := by omega
      rw [if_pos inSpan, if_pos within]
      simp [small, BitVec.getLsbD]
    · have outside : ¬(s.offset ≤ i ∧ i < s.past) := by omega
      have back : s.past + (i - s.offset - s.size) = i := by omega
      rw [if_neg inSpan, if_neg outside, Nat.testBit_shiftRight, back]
      by_cases small : i < 8 * bs.length
      · simp [small]
      · have wide : 2 ^ (8 * bs.length) ≤ 2 ^ i := Nat.pow_le_pow_right (by decide) (by omega)
        have zero : (Bytes.toNat bs).testBit i = false :=
          Nat.testBit_lt_two_pow (Nat.lt_of_lt_of_le bounded wide)
        simp [small, zero]

end BitSpan
end MachineRegisters
