import MachineRegisters.BitSpan

/-! # The bits of byte strings and of spans

Bit `i` of a byte string is bit `i % 8` of byte `i / 8`.  Each bit of the value
of a span has a place in the byte string, `bitAt`, and the places of all its bits
are just the span (`bitAt_mem`, `exists_bitAt`, `bitAt_inj`).  Reading takes each
bit from its place, and writing puts it there and leaves every place outside the
span alone (`getLsbD_read`, `bit_write_bitAt`, `bit_write_of_outside`), in either
order of bytes and for aligned and unaligned spans alike. -/
set_option autoImplicit false
namespace MachineRegisters

namespace Bytes

/-- Bit `i` of a byte string; every bit behind its end is clear. -/
def bit (bs : Bytes) (i : Nat) : Bool := (bs.getD (i / 8) 0).toNat.testBit (i % 8)

theorem testBit_toNat (bs : Bytes) (i : Nat) : (toNat bs).testBit i = bit bs i := by
  induction bs generalizing i with
  | nil => simp [toNat, bit]
  | cons b rest ih =>
      have small : b.toNat < 2 ^ 8 := b.toNat_lt
      have split : toNat (b :: rest) = 2 ^ 8 * toNat rest + b.toNat := by
        rw [toNat]
        omega
      rw [split, Nat.testBit_two_pow_mul_add _ small, ih]
      by_cases first : i < 8
      · have byteZero : i / 8 = 0 := by omega
        have bitSame : i % 8 = i := by omega
        rw [if_pos first, bit, byteZero, bitSame]
        rfl
      · have byteNext : i / 8 = (i - 8) / 8 + 1 := by omega
        have bitSame : i % 8 = (i - 8) % 8 := by omega
        rw [if_neg first, bit, bit, byteNext, bitSame]
        rfl

theorem bit_of_le (bs : Bytes) {i : Nat} (behind : 8 * bs.length ≤ i) : bit bs i = false := by
  have bound : toNat bs < 2 ^ (8 * bs.length) := by
    rw [← Nat.one_shiftLeft]
    exact toNat_lt bs
  have wide : 2 ^ (8 * bs.length) ≤ 2 ^ i := Nat.pow_le_pow_right (by decide) behind
  rw [← testBit_toNat]
  exact Nat.testBit_lt_two_pow (Nat.lt_of_lt_of_le bound wide)

theorem ext_bit {as bs : Bytes} (sameLength : as.length = bs.length)
    (sameBits : ∀ i, bit as i = bit bs i) : as = bs := by
  have sameNumber : toNat as = toNat bs := by
    apply Nat.eq_of_testBit_eq
    intro i
    rw [testBit_toNat, testBit_toNat, sameBits]
  rw [← ofNat_toNat as, ← ofNat_toNat bs, sameLength, sameNumber]

theorem bit_reverse (bs : Bytes) {i : Nat} (inside : i / 8 < bs.length) :
    bit bs.reverse i = bit bs (8 * (bs.length - 1 - i / 8) + i % 8) := by
  have byte : (8 * (bs.length - 1 - i / 8) + i % 8) / 8 = bs.length - 1 - i / 8 := by omega
  have within : (8 * (bs.length - 1 - i / 8) + i % 8) % 8 = i % 8 := by omega
  rw [bit, bit, byte, within, List.getD_eq_getElem?_getD, List.getD_eq_getElem?_getD,
    List.getElem?_reverse inside]

theorem bit_take (bs : Bytes) (n i : Nat) :
    bit (bs.take n) i = (decide (i / 8 < n) && bit bs i) := by
  by_cases inside : i / 8 < n
  · rw [bit, bit, List.getD_eq_getElem?_getD, List.getD_eq_getElem?_getD,
      List.getElem?_take_of_lt inside, decide_eq_true inside, Bool.true_and]
  · have short : 8 * (bs.take n).length ≤ i := by
      rw [List.length_take]
      omega
    rw [bit_of_le _ short, decide_eq_false inside, Bool.false_and]

theorem bit_drop (bs : Bytes) (n i : Nat) : bit (bs.drop n) i = bit bs (8 * n + i) := by
  have byte : (8 * n + i) / 8 = n + i / 8 := by omega
  have within : (8 * n + i) % 8 = i % 8 := by omega
  rw [bit, bit, byte, within, List.getD_eq_getElem?_getD, List.getD_eq_getElem?_getD,
    List.getElem?_drop]

theorem bit_append (as bs : Bytes) (i : Nat) :
    bit (as ++ bs) i = if i < 8 * as.length then bit as i else bit bs (i - 8 * as.length) := by
  split
  · rename_i front
    rw [bit, bit, List.getD_eq_getElem?_getD, List.getD_eq_getElem?_getD,
      List.getElem?_append_left (by omega)]
  · rename_i behind
    have byte : (i - 8 * as.length) / 8 = i / 8 - as.length := by omega
    have within : (i - 8 * as.length) % 8 = i % 8 := by omega
    rw [bit, bit, byte, within, List.getD_eq_getElem?_getD, List.getD_eq_getElem?_getD,
      List.getElem?_append_right (by omega)]

end Bytes

namespace Bits
variable {w : Nat}

theorem getLsbD_ofBytes (bs : Bytes) (i : Nat) :
    (ofBytes w bs).getLsbD i = (decide (i < w) && Bytes.bit bs i) := by
  rw [ofBytes, BitVec.getLsbD_ofNat, Bytes.testBit_toNat]

theorem bit_image (v : BitVec w) (i : Nat) : Bytes.bit (image v) i = v.getLsbD i := by
  rw [← Bytes.testBit_toNat, toNat_image, BitVec.testBit_toNat]

/-- Reading whole bytes backwards keeps the place of a bit in its byte. -/
theorem getLsbD_reversed (v : BitVec w) (whole : w % 8 = 0) {i : Nat} (inside : i < w) :
    (reversed v).getLsbD i = v.getLsbD (w - 8 - 8 * (i / 8) + i % 8) := by
  have count : (image v).length = w / 8 := by
    rw [length_image, bytesFor]
    omega
  have place : 8 * ((image v).length - 1 - i / 8) + i % 8 = w - 8 - 8 * (i / 8) + i % 8 := by
    rw [count]
    omega
  rw [reversed, getLsbD_ofBytes, imageHighFirst, Bytes.bit_reverse _ (by omega), bit_image, place]
  simp [inside]

theorem image_reversed (v : BitVec w) (whole : w % 8 = 0) : image (reversed v) = imageHighFirst v := by
  have count : (imageHighFirst v).length = bytesFor w := by
    rw [imageHighFirst, List.length_reverse, length_image]
  have inBits : 8 * bytesFor w = w := by
    unfold bytesFor
    omega
  apply Bytes.ext_bit
  · rw [length_image, count]
  · intro i
    rw [bit_image, reversed, getLsbD_ofBytes]
    by_cases inside : i < w
    · rw [decide_eq_true inside, Bool.true_and]
    · rw [Bytes.bit_of_le _ (by omega), Bool.and_false]

end Bits

namespace BitSpan
variable (s : BitSpan) (order : ByteOrder)

/-- The place in a byte string of bit `i` of the value of the span. -/
def bitAt (i : Nat) : Nat :=
  if order = .highFirst ∧ s.Aligned then s.offset + (s.size - 8 - 8 * (i / 8) + i % 8)
  else s.offset + i

theorem bitAt_lowFirst (i : Nat) : s.bitAt .lowFirst i = s.offset + i := by
  simp only [bitAt, reduceCtorEq, false_and, if_false]

theorem bitAt_mem {i : Nat} (inside : i < s.size) :
    s.offset ≤ s.bitAt order i ∧ s.bitAt order i < s.past := by
  unfold bitAt past
  split
  · rename_i turned
    have whole : s.size % 8 = 0 := turned.2.2
    omega
  · omega

theorem bitAt_inj {i j : Nat} (insideI : i < s.size) (insideJ : j < s.size)
    (same : s.bitAt order i = s.bitAt order j) : i = j := by
  unfold bitAt at same
  split at same
  · rename_i turned
    have whole : s.size % 8 = 0 := turned.2.2
    omega
  · omega

theorem exists_bitAt {j : Nat} (from_offset : s.offset ≤ j) (before_past : j < s.past) :
    ∃ i, i < s.size ∧ s.bitAt order i = j := by
  unfold past at before_past
  by_cases turned : order = .highFirst ∧ s.Aligned
  · have whole : s.size % 8 = 0 := turned.2.2
    refine ⟨s.size - 8 - 8 * ((j - s.offset) / 8) + (j - s.offset) % 8, by omega, ?_⟩
    rw [bitAt, if_pos turned]
    omega
  · refine ⟨j - s.offset, by omega, ?_⟩
    rw [bitAt, if_neg turned]
    omega

theorem getLsbD_arrange (v : BitVec s.size) {i : Nat} (inside : i < s.size) :
    (s.arrange order v).getLsbD i = v.getLsbD (s.bitAt order i - s.offset) := by
  unfold bitAt
  cases order with
  | lowFirst => simp [arrange]
  | highFirst =>
      by_cases aligned : s.Aligned
      · simp only [arrange, aligned, and_self, if_true]
        rw [Bits.getLsbD_reversed v aligned.2 inside, Nat.add_sub_cancel_left]
      · simp [arrange, aligned]

/-- Arranging twice changes nothing. -/
theorem arrange_arrange (v : BitVec s.size) : s.arrange order (s.arrange order v) = v := by
  cases order with
  | lowFirst => rfl
  | highFirst =>
      by_cases aligned : s.Aligned
      · have whole : s.size % 8 = 0 := aligned.2
        simp only [arrange, if_pos aligned]
        apply BitVec.eq_of_getLsbD_eq
        intro i inside
        rw [Bits.getLsbD_reversed _ whole inside, Bits.getLsbD_reversed _ whole (by omega)]
        congr 1
        omega
      · simp only [arrange, if_neg aligned]

theorem getLsbD_bits_bit (bs : Bytes) (i : Nat) :
    (s.bits bs).getLsbD i = (decide (i < s.size) && bs.bit (s.offset + i)) := by
  rw [getLsbD_bits, Bytes.testBit_toNat]

theorem getLsbD_read (bs : Bytes) {i : Nat} (inside : i < s.size) :
    (s.read order bs).getLsbD i = bs.bit (s.bitAt order i) := by
  obtain ⟨above, below⟩ := s.bitAt_mem order inside
  have relative : s.bitAt order i - s.offset < s.size := by
    unfold past at below
    omega
  rw [read, getLsbD_arrange s order _ inside, getLsbD_bits_bit, decide_eq_true relative,
    Bool.true_and, Nat.add_sub_cancel' above]

variable {s} {bs : Bytes}

theorem bit_write_of_outside (v : BitVec s.size) (fits : s.Within bs) {j : Nat}
    (outside : ¬(s.offset ≤ j ∧ j < s.past)) : (s.write order v bs).bit j = bs.bit j := by
  rw [write, ← Bytes.testBit_toNat, testBit_deposit s _ bs fits, if_neg outside,
    Bytes.testBit_toNat]

theorem bit_write_bitAt (v : BitVec s.size) (fits : s.Within bs) {i : Nat} (inside : i < s.size) :
    (s.write order v bs).bit (s.bitAt order i) = v.getLsbD i := by
  obtain ⟨above, below⟩ := s.bitAt_mem order inside
  have relative : s.bitAt order i - s.offset < s.size := by
    unfold past at below
    omega
  rw [write, ← Bytes.testBit_toNat, testBit_deposit s _ bs fits, if_pos ⟨above, below⟩,
    ← getLsbD_arrange s order _ inside, arrange_arrange]

theorem read_write (v : BitVec s.size) (fits : s.Within bs) :
    s.read order (s.write order v bs) = v := by
  apply BitVec.eq_of_getLsbD_eq
  intro i inside
  rw [getLsbD_read s order _ inside, bit_write_bitAt order v fits inside]

theorem write_read (fits : s.Within bs) : s.write order (s.read order bs) bs = bs := by
  apply Bytes.ext_bit (length_write _ _ _ _)
  intro j
  by_cases inSpan : s.offset ≤ j ∧ j < s.past
  · obtain ⟨i, inside, rfl⟩ := s.exists_bitAt order inSpan.1 inSpan.2
    rw [bit_write_bitAt order _ fits inside, getLsbD_read s order _ inside]
  · rw [bit_write_of_outside order _ fits inSpan]

theorem write_write (v u : BitVec s.size) (fits : s.Within bs) :
    s.write order u (s.write order v bs) = s.write order u bs := by
  have stillFits : s.Within (s.write order v bs) := by
    unfold Within
    rw [length_write]
    exact fits
  apply Bytes.ext_bit (by simp)
  intro j
  by_cases inSpan : s.offset ≤ j ∧ j < s.past
  · obtain ⟨i, inside, rfl⟩ := s.exists_bitAt order inSpan.1 inSpan.2
    rw [bit_write_bitAt order u stillFits inside, bit_write_bitAt order u fits inside]
  · rw [bit_write_of_outside order u stillFits inSpan, bit_write_of_outside order u fits inSpan,
      bit_write_of_outside order v fits inSpan]

/-! ## Spans of whole bytes -/

def chunk (s : BitSpan) (bs : Bytes) : Bytes := (bs.drop (s.offset / 8)).take (s.size / 8)

theorem length_chunk (fits : s.Within bs) : (s.chunk bs).length = s.size / 8 := by
  unfold Within past at fits
  rw [chunk, List.length_take, List.length_drop]
  omega

theorem bit_chunk (aligned : s.Aligned) {i : Nat} (inside : i < s.size) :
    (s.chunk bs).bit i = bs.bit (s.offset + i) := by
  have start : 8 * (s.offset / 8) = s.offset := by
    have whole : s.offset % 8 = 0 := aligned.1
    omega
  have counted : i / 8 < s.size / 8 := by
    have whole : s.size % 8 = 0 := aligned.2
    omega
  rw [chunk, Bytes.bit_take, Bytes.bit_drop, start, decide_eq_true counted, Bool.true_and]

/-- A span of whole bytes is the number that its bytes write, the lowest first. -/
theorem read_lowFirst_of_aligned (aligned : s.Aligned) :
    s.read .lowFirst bs = Bits.ofBytes s.size (s.chunk bs) := by
  apply BitVec.eq_of_getLsbD_eq
  intro i inside
  rw [getLsbD_read s _ _ inside, Bits.getLsbD_ofBytes, bit_chunk aligned inside,
    decide_eq_true inside, Bool.true_and]
  rfl

theorem read_highFirst_of_aligned (aligned : s.Aligned) (fits : s.Within bs) :
    s.read .highFirst bs = Bits.ofBytesHighFirst s.size (s.chunk bs) := by
  apply BitVec.eq_of_getLsbD_eq
  intro i inside
  have whole : s.size % 8 = 0 := aligned.2
  have length : (s.chunk bs).length = s.size / 8 := length_chunk fits
  have mirrored : 8 * ((s.chunk bs).length - 1 - i / 8) + i % 8 = s.size - 8 - 8 * (i / 8) + i % 8 := by
    rw [length]
    omega
  rw [getLsbD_read s _ _ inside, Bits.ofBytesHighFirst, Bits.getLsbD_ofBytes,
    Bytes.bit_reverse _ (by omega), mirrored, bit_chunk aligned (by omega), decide_eq_true inside,
    Bool.true_and, bitAt, if_pos ⟨rfl, aligned⟩]

/-- Writing a span of whole bytes puts in their place the bytes of the value, the lowest first. -/
theorem write_lowFirst_of_aligned (aligned : s.Aligned) (fits : s.Within bs) (v : BitVec s.size) :
    s.write .lowFirst v bs = bs.take (s.offset / 8) ++ Bits.image v ++ bs.drop (s.past / 8) := by
  have wholeOffset : s.offset % 8 = 0 := aligned.1
  have wholeSize : s.size % 8 = 0 := aligned.2
  have pastEq : s.past = s.offset + s.size := rfl
  have room : s.past ≤ 8 * bs.length := fits
  have front : (bs.take (s.offset / 8)).length = s.offset / 8 := by
    rw [List.length_take]
    omega
  have middle : (Bits.image v).length = s.size / 8 := by
    rw [Bits.length_image, Bits.bytesFor]
    omega
  have both : (bs.take (s.offset / 8) ++ Bits.image v).length = s.past / 8 := by
    rw [List.length_append, front, middle]
    omega
  apply Bytes.ext_bit
  · rw [length_write, List.length_append, both, List.length_drop]
    omega
  · intro j
    rw [Bytes.bit_append, Bytes.bit_append, both, front, Bytes.bit_take, Bytes.bit_drop, Bits.bit_image]
    by_cases before : j < s.offset
    · rw [bit_write_of_outside .lowFirst v fits (by omega), if_pos (by omega), if_pos (by omega),
        decide_eq_true (by omega), Bool.true_and]
    · by_cases behind : s.past ≤ j
      · rw [bit_write_of_outside .lowFirst v fits (by omega), if_neg (by omega)]
        congr 1
        omega
      · have place : s.bitAt .lowFirst (j - s.offset) = j := by
          rw [bitAt_lowFirst]
          omega
        have put := bit_write_bitAt .lowFirst v fits (i := j - s.offset) (by omega)
        rw [place] at put
        rw [put, if_pos (by omega), if_neg (by omega)]
        congr 1
        omega

theorem write_highFirst_of_aligned (aligned : s.Aligned) (fits : s.Within bs) (v : BitVec s.size) :
    s.write .highFirst v bs =
      bs.take (s.offset / 8) ++ Bits.imageHighFirst v ++ bs.drop (s.past / 8) := by
  have turned : s.write .highFirst v bs = s.write .lowFirst (Bits.reversed v) bs := by
    simp only [write, arrange, if_pos aligned]
  rw [turned, write_lowFirst_of_aligned aligned fits, Bits.image_reversed v aligned.2]

end BitSpan
end MachineRegisters
