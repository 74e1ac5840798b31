import MachineRegisters.Proofs.Comparing
import MachineRegisters.Proofs.Stepwise.Packed

/-! # Spans, step by step

A span of whole bytes is read as a slice, written by a copy of equal length and compared
slice by slice; every other span is read, written and compared bit by bit, each place
being a sum of 32 bits.  In a byte string that has the span, and no more bits than a sum
of 32 bits can count, none of these steps fails, and they come to what `BitSpan.read`,
`BitSpan.write` and `BitSpan.Differs` say. -/
set_option autoImplicit false
namespace MachineRegisters.Stepwise

/-- The byte string has no more bits than numbers of 32 bits can tell apart. -/
def Counted (bs : Bytes) : Prop := 8 * bs.length ≤ UInt32.size

def chunk (s : BitSpan) (bs : Bytes) : Option Bytes :=
  piece bs (s.offset / 8) (s.offset / 8 + s.size / 8)

/-- A value of `w` bits of which the first `n` are taken from the bits behind `offset`. -/
def gather (bs : Bytes) (offset w : Nat) : Nat → Option Packed
  | 0 => some (Packed.zero w)
  | n + 1 => do
      let soFar ← gather bs offset w n
      let place ← sum offset n
      let on ← readBit bs place
      soFar.withBit n on

def scatter (p : Packed) (offset : Nat) (bs : Bytes) : Nat → Option Bytes
  | 0 => some bs
  | n + 1 => do
      let soFar ← scatter p offset bs n
      let place ← sum offset n
      let on ← p.bit n
      writeBit soFar place on

def readSpan (order : ByteOrder) (s : BitSpan) (bs : Bytes) : Option Packed :=
  if s.Aligned then do
    let bytes ← chunk s bs
    match order with
    | .lowFirst => Packed.ofBytes s.size bytes
    | .highFirst => Packed.ofBytesHighFirst s.size bytes
  else gather bs s.offset s.size s.size

def writeSpan (order : ByteOrder) (s : BitSpan) (p : Packed) (bs : Bytes) : Option Bytes :=
  if s.Aligned then copied (p.bytesIn order) bs (s.offset / 8) (s.offset / 8 + s.size / 8)
  else scatter p s.offset bs s.size

def bitDiffers (first second : Bytes) (i : Nat) : Option Bool := do
  let x ← readBit first i
  let y ← readBit second i
  return x != y

def differs (s : BitSpan) (first second : Bytes) : Option Bool :=
  if s.Aligned then do
    let x ← chunk s first
    let y ← chunk s second
    return x != y
  else do
    let past ← sum s.offset s.size
    (List.range' s.offset (past - s.offset)).anyM (bitDiffers first second)

section
variable {s : BitSpan} {bs : Bytes}

theorem chunk_eq (fits : s.Within bs) : chunk s bs = some (s.chunk bs) := by
  unfold BitSpan.Within BitSpan.past at fits
  have inside : s.offset / 8 + s.size / 8 ≤ bs.length := by omega
  rw [chunk, piece_eq (Nat.le_add_right _ _) inside, Nat.add_sub_cancel_left]
  rfl

theorem gather_eq (counted : Counted bs) {offset : Nat} (w : Nat) :
    ∀ {n : Nat}, offset + n ≤ 8 * bs.length → n ≤ w →
      ∃ v : BitVec w, gather bs offset w n = some (.of v) ∧
        ∀ i, v.getLsbD i = (decide (i < n) && bs.bit (offset + i)) := by
  intro n
  induction n with
  | zero =>
      intro _ _
      refine ⟨0, congrArg some (Packed.zero_eq w), fun i => ?_⟩
      rw [decide_eq_false (Nat.not_lt_zero i), Bool.false_and]
      exact BitVec.getLsbD_zero
  | succ n ih =>
      intro inside narrow
      obtain ⟨v, gathered, bits⟩ := ih (by omega) (by omega)
      have small : offset + n < UInt32.size := Nat.lt_of_lt_of_le (by omega) counted
      refine ⟨Bits.setBit v n (bs.bit (offset + n)), ?_, fun i => ?_⟩
      · simp only [gather, gathered, sum_eq small, readBit_eq (show offset + n < 8 * bs.length by omega),
          Packed.withBit_eq, Option.bind_eq_bind, Option.bind_some]
      · rw [Bits.getLsbD_setBit, bits]
        by_cases last : n = i
        · rw [if_pos ⟨last, by omega⟩, last, decide_eq_true (Nat.lt_succ_self i), Bool.true_and]
        · have before : i < n ↔ i < n + 1 := by omega
          rw [if_neg fun both => last both.1, decide_eq_decide.mpr before]

theorem scatter_eq (counted : Counted bs) {offset w : Nat} (v : BitVec w) :
    ∀ {n : Nat}, offset + n ≤ 8 * bs.length →
      ∃ out, scatter (.of v) offset bs n = some out ∧ out.length = bs.length ∧
        ∀ j, out.bit j = if offset ≤ j ∧ j < offset + n then v.getLsbD (j - offset) else bs.bit j := by
  intro n
  induction n with
  | zero =>
      intro _
      refine ⟨bs, rfl, rfl, fun j => ?_⟩
      rw [if_neg (by omega)]
  | succ n ih =>
      intro inside
      obtain ⟨soFar, scattered, length, bits⟩ := ih (by omega)
      have small : offset + n < UInt32.size := Nat.lt_of_lt_of_le (by omega) counted
      obtain ⟨out, written, sameLength, outBits⟩ :=
        writeBit_eq (show offset + n < 8 * soFar.length by omega) (v.getLsbD n)
      refine ⟨out, ?_, sameLength.trans length, fun j => ?_⟩
      · simp only [scatter, scattered, sum_eq small, Packed.bit_eq, Option.bind_eq_bind, Option.bind_some, written]
      · rw [outBits, bits]
        by_cases last : j = offset + n
        · rw [if_pos last, if_pos (by omega), last, Nat.add_sub_cancel_left]
        · have before : (offset ≤ j ∧ j < offset + n) ↔ (offset ≤ j ∧ j < offset + (n + 1)) := by omega
          rw [if_neg last, if_congr before rfl rfl]

theorem bitAt_of_not_aligned (order : ByteOrder) (ragged : ¬s.Aligned) (i : Nat) :
    s.bitAt order i = s.offset + i := by
  rw [BitSpan.bitAt, if_neg fun turned => ragged turned.2]

theorem readSpan_eq (order : ByteOrder) (counted : Counted bs) (fits : s.Within bs) :
    readSpan order s bs = some (.of (s.read order bs)) := by
  by_cases aligned : s.Aligned
  · simp only [readSpan, if_pos aligned, chunk_eq fits, Option.bind_eq_bind, Option.bind_some]
    cases order with
    | lowFirst => rw [Packed.ofBytes_eq, BitSpan.read_lowFirst_of_aligned aligned]
    | highFirst => rw [Packed.ofBytesHighFirst_eq, BitSpan.read_highFirst_of_aligned aligned fits]
  · obtain ⟨v, gathered, bits⟩ := gather_eq counted s.size fits (Nat.le_refl s.size)
    have value : v = s.read order bs := by
      apply BitVec.eq_of_getLsbD_eq
      intro i inside
      rw [bits, decide_eq_true inside, Bool.true_and, s.getLsbD_read order bs inside,
        bitAt_of_not_aligned order aligned]
    rw [readSpan, if_neg aligned, gathered, value]

/-- A span that the byte string does not have is not read. -/
example : readSpan .lowFirst ⟨3, 6⟩ [0] = none := by decide

theorem writeSpan_eq (order : ByteOrder) (counted : Counted bs) (fits : s.Within bs) (v : BitVec s.size) :
    writeSpan order s (.of v) bs = some (s.write order v bs) := by
  have room : s.offset + s.size ≤ 8 * bs.length := fits
  by_cases aligned : s.Aligned
  · have wholeOffset : s.offset % 8 = 0 := aligned.1
    have wholeSize : s.size % 8 = 0 := aligned.2
    have past : s.past / 8 = s.offset / 8 + s.size / 8 := by
      unfold BitSpan.past
      omega
    have length : (Bits.image v).length = s.size / 8 := by
      rw [Bits.length_image, Bits.bytesFor]
      omega
    rw [writeSpan, if_pos aligned]
    cases order with
    | lowFirst =>
        rw [BitSpan.write_lowFirst_of_aligned aligned fits, past]
        exact copied_eq (by omega) (congrArg _ length)
    | highFirst =>
        rw [BitSpan.write_highFirst_of_aligned aligned fits, past]
        exact copied_eq (by omega) (congrArg _ (List.length_reverse.trans length))
  · obtain ⟨out, scattered, length, bits⟩ := scatter_eq counted v room
    change ∀ j, out.bit j = if s.offset ≤ j ∧ j < s.past then _ else _ at bits
    have bytes : out = s.write order v bs := by
      apply Bytes.ext_bit (length.trans (s.length_write order v bs).symm)
      intro j
      rw [bits]
      by_cases inSpan : s.offset ≤ j ∧ j < s.past
      · have put := BitSpan.bit_write_bitAt order v fits (i := j - s.offset) (by
          unfold BitSpan.past at inSpan
          omega)
        rw [bitAt_of_not_aligned order aligned, Nat.add_sub_cancel' inSpan.1] at put
        rw [put, if_pos inSpan]
      · rw [BitSpan.bit_write_of_outside order v fits inSpan, if_neg inSpan]
    rw [writeSpan, if_neg aligned, scattered, bytes]

theorem differs_eq {first second : Bytes} (small : s.past < UInt32.size) (fitsFirst : s.Within first)
    (fitsSecond : s.Within second) :
    differs s first second = some (decide (s.Differs first second)) := by
  by_cases aligned : s.Aligned
  · have slices : (s.chunk first != s.chunk second) = decide (s.Differs first second) := by
      rw [Bool.eq_iff_iff, bne_iff_ne, decide_eq_true_iff,
        BitSpan.differs_iff_chunk aligned fitsFirst fitsSecond]
    simp only [differs, if_pos aligned, chunk_eq fitsFirst, chunk_eq fitsSecond, Option.bind_eq_bind,
      Option.bind_some, Option.pure_def, slices]
  · have place : ∀ i ∈ List.range' s.offset (s.past - s.offset),
        bitDiffers first second i = some (first.bit i != second.bit i) := by
      intro i ranged
      have inside : i < s.past := by
        rw [List.mem_range'_1] at ranged
        omega
      simp only [bitDiffers, readBit_eq (Nat.lt_of_lt_of_le inside fitsFirst),
        readBit_eq (Nat.lt_of_lt_of_le inside fitsSecond), Option.bind_eq_bind, Option.bind_some, Option.pure_def]
    have bits : ((List.range' s.offset (s.past - s.offset)).any fun i => first.bit i != second.bit i) =
        decide (s.Differs first second) := by
      rw [Bool.eq_iff_iff, List.any_eq_true, decide_eq_true_iff, BitSpan.differs_iff]
      have ordered : s.offset ≤ s.past := Nat.le_add_right _ _
      refine exists_congr fun i => ?_
      rw [List.mem_range'_1, bne_iff_ne, and_assoc, Nat.add_sub_cancel' ordered]
    rw [differs, if_neg aligned, sum_eq small]
    exact (anyM_eq place).trans (congrArg some bits)

end
end MachineRegisters.Stepwise
