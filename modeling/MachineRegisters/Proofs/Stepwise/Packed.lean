import MachineRegisters.Config
import MachineRegisters.Proofs.Stepwise.Steps

/-! # Values kept in bytes

A value of `w` bits kept in as many bytes as it needs, the least first, with the bits
behind the width clear.  Whatever is built from bytes, words or numbers is the packed
form of a value (`ofBytes_eq`), setting a bit leaves it one (`withBit_eq`), and for such a
form every read of a bit or of the whole lies inside its bytes. -/
set_option autoImplicit false
namespace MachineRegisters.Stepwise

structure Packed where
  bytes : Bytes
  width : Nat
  deriving DecidableEq, Repr

namespace Packed
variable {w : Nat}

def of (v : BitVec w) : Packed := ⟨Bits.image v, w⟩

def zero (w : Nat) : Packed := ⟨Bytes.zeros (Bits.bytesFor w), w⟩

/-- Clear the bits of the last byte that lie behind the width. -/
def trimmed (p : Packed) : Option Packed :=
  if p.width % 8 = 0 then some p
  else
    match p.bytes.getLast? with
    | none => some p
    | some last => do
        let mask ← bitMask 8 (p.width % 8)
        let kept ← before mask
        return { p with bytes := p.bytes.set (p.bytes.length - 1) ⟨last.toBitVec &&& kept⟩ }

def ofBytes (w : Nat) (bs : Bytes) : Option Packed := do
  let filled ← sized (Bits.bytesFor w) bs
  trimmed ⟨filled, w⟩

def ofBytesHighFirst (w : Nat) (bs : Bytes) : Option Packed := ofBytes w bs.reverse

def ofWord (w : Nat) (v : Word) : Option Packed := ofBytes w (Bytes.ofNat 8 v.toNat)

def ofNumber (w n : Nat) : Option Packed := ofBytes w (Bytes.ofNat (n.log2 / 8 + 1) n)

def bit (p : Packed) (i : Nat) : Option Bool :=
  if p.width ≤ i then some false else readBit p.bytes i

def withBit (p : Packed) (i : Nat) (on : Bool) : Option Packed :=
  if p.width ≤ i then some p
  else do
    let bytes ← writeBit p.bytes i on
    return { p with bytes := bytes }

def bytesIn (order : ByteOrder) (p : Packed) : Bytes :=
  match order with
  | .lowFirst => p.bytes
  | .highFirst => p.bytes.reverse

def toWord (p : Packed) : Option (Option Word) :=
  if (p.bytes.drop 8).any (· ≠ 0) then some none
  else do
    let filled ← sized 8 p.bytes
    return some (BitVec.ofNat 64 (Bytes.toNat filled))

/-- What can be built from bytes, words and numbers, and by setting bits. -/
inductive Built : Packed → Prop
  | zero (w : Nat) : Built (zero w)
  | ofBytes {w : Nat} {bs : Bytes} {p : Packed} (made : Packed.ofBytes w bs = some p) : Built p
  | ofBytesHighFirst {w : Nat} {bs : Bytes} {p : Packed} (made : Packed.ofBytesHighFirst w bs = some p) : Built p
  | ofWord {w : Nat} {v : Word} {p : Packed} (made : Packed.ofWord w v = some p) : Built p
  | ofNumber {w n : Nat} {p : Packed} (made : Packed.ofNumber w n = some p) : Built p
  | withBit {p q : Packed} {i : Nat} {on : Bool} (built : Built p) (made : p.withBit i on = some q) : Built q

@[simp] theorem width_of (v : BitVec w) : (of v).width = w := rfl

@[simp] theorem bytes_of (v : BitVec w) : (of v).bytes = Bits.image v := rfl

theorem bit_zeros (n i : Nat) : Bytes.bit (Bytes.zeros n) i = false := by
  rw [Bytes.bit, Bytes.zeros, List.getD_eq_getElem?_getD, List.getElem?_replicate]
  split <;> exact Nat.zero_testBit _

theorem bit_resize (n : Nat) (bs : Bytes) (i : Nat) :
    Bytes.bit (Bytes.resize n bs) i = (decide (i / 8 < n) && bs.bit i) := by
  rw [Bytes.resize, Bytes.bit_append, bit_zeros, Bytes.bit_take]
  split
  · rfl
  · rename_i behind
    rw [List.length_take] at behind
    by_cases inside : i / 8 < n
    · rw [Bytes.bit_of_le bs (by omega), Bool.and_false]
    · rw [decide_eq_false inside, Bool.false_and]

theorem eq_of {p : Packed} {v : BitVec w} (width : p.width = w) (length : p.bytes.length = Bits.bytesFor w)
    (bits : ∀ i, p.bytes.bit i = v.getLsbD i) : p = of v := by
  have bytes : p.bytes = Bits.image v := by
    apply Bytes.ext_bit (length.trans (Bits.length_image v).symm)
    intro i
    rw [bits, Bits.bit_image]
  obtain ⟨_, _⟩ := p
  subst width
  exact congrArg (Packed.mk · _) bytes

theorem zero_eq (w : Nat) : zero w = of (0 : BitVec w) := by
  apply eq_of rfl List.length_replicate
  intro i
  exact (bit_zeros _ i).trans BitVec.getLsbD_zero.symm

theorem getLsbD_below_mask {r k : Nat} (mask : r < 8) (inside : k < 8) :
    (BitVec.twoPow 8 r - 1).getLsbD k = decide (k < r) := by
  have all : ∀ r k : Fin 8, (BitVec.twoPow 8 r - 1).getLsbD k = decide (k < r) := by decide
  exact all ⟨r, mask⟩ ⟨k, inside⟩

theorem trimmed_eq {bs : Bytes} (length : bs.length = Bits.bytesFor w) :
    trimmed ⟨bs, w⟩ = some (of (Bits.ofBytes w bs)) := by
  rw [Bits.bytesFor] at length
  by_cases whole : w % 8 = 0
  · rw [trimmed, if_pos whole]
    refine congrArg some (eq_of rfl length fun i => ?_)
    rw [Bits.getLsbD_ofBytes]
    by_cases inside : i < w
    · rw [decide_eq_true inside, Bool.true_and]
    · rw [decide_eq_false inside, Bool.false_and, Bytes.bit_of_le bs (by omega)]
  · have nonempty : bs.length - 1 < bs.length := by omega
    have small : w % 8 < 8 := Nat.mod_lt _ (by decide)
    have last : bs.getLast? = some bs[bs.length - 1] := by
      rw [List.getLast?_eq_getElem?, List.getElem?_eq_getElem nonempty]
    simp only [trimmed, if_neg whole, last, bitMask_eq small, before_eq (twoPow_ne_zero small),
      Option.bind_eq_bind, Option.bind_some, Option.pure_def]
    refine congrArg some (eq_of rfl (List.length_set.trans length) fun i => ?_)
    rw [bit_set nonempty, Bits.getLsbD_ofBytes]
    by_cases inLast : i / 8 = bs.length - 1
    · have width : i % 8 < w % 8 ↔ i < w := by omega
      rw [if_pos inLast, BitVec.getLsbD_and, ← bit_of_byte nonempty inLast, getLsbD_below_mask small (Nat.mod_lt _ (by decide)),
        decide_eq_decide.mpr width, Bool.and_comm]
    · rw [if_neg inLast]
      by_cases inside : i < w
      · rw [decide_eq_true inside, Bool.true_and]
      · rw [decide_eq_false inside, Bool.false_and, Bytes.bit_of_le bs (by omega)]

theorem ofBytes_eq (w : Nat) (bs : Bytes) : ofBytes w bs = some (of (Bits.ofBytes w bs)) := by
  have value : Bits.ofBytes w (Bytes.resize (Bits.bytesFor w) bs) = Bits.ofBytes w bs := by
    apply BitVec.eq_of_getLsbD_eq
    intro i inside
    have bytes : i / 8 < Bits.bytesFor w := by
      rw [Bits.bytesFor]
      omega
    rw [Bits.getLsbD_ofBytes, Bits.getLsbD_ofBytes, bit_resize, decide_eq_true bytes, Bool.true_and]
  simp only [ofBytes, sized_eq, Option.bind_eq_bind, Option.bind_some, trimmed_eq (Bytes.length_resize _ _), value]

theorem ofBytesHighFirst_eq (w : Nat) (bs : Bytes) :
    ofBytesHighFirst w bs = some (of (Bits.ofBytesHighFirst w bs)) :=
  ofBytes_eq w bs.reverse

theorem ofWord_eq (w : Nat) (v : Word) : ofWord w v = some (of (v.setWidth w)) := by
  have value : Bits.ofBytes w (Bytes.ofNat 8 v.toNat) = v.setWidth w := by
    have bound : v.toNat < 1 <<< (8 * 8) := v.isLt
    rw [Bits.ofBytes, Bytes.toNat_ofNat, Nat.mod_eq_of_lt bound, BitVec.ofNat_toNat]
  rw [ofWord, ofBytes_eq, value]

theorem ofNumber_eq (w n : Nat) : ofNumber w n = some (of (BitVec.ofNat w n)) := by
  have bound : n < 1 <<< (8 * (n.log2 / 8 + 1)) := by
    rw [Nat.one_shiftLeft]
    exact Nat.lt_of_lt_of_le Nat.lt_log2_self (Nat.pow_le_pow_right (by decide) (by omega))
  rw [ofNumber, ofBytes_eq, Bits.ofBytes, Bytes.toNat_ofNat, Nat.mod_eq_of_lt bound]

theorem lt_image {i : Nat} (v : BitVec w) (inside : i < w) : i < 8 * (Bits.image v).length := by
  rw [Bits.length_image]
  exact Nat.lt_of_lt_of_le inside (Bits.le_bytesFor w)

theorem bit_eq (v : BitVec w) (i : Nat) : (of v).bit i = some (v.getLsbD i) := by
  by_cases beyond : w ≤ i
  · rw [bit, width_of, if_pos beyond, BitVec.getLsbD_of_ge v i beyond]
  · rw [bit, width_of, if_neg beyond, bytes_of, readBit_eq (lt_image v (Nat.lt_of_not_le beyond)), Bits.bit_image]

theorem withBit_eq (v : BitVec w) (i : Nat) (on : Bool) :
    (of v).withBit i on = some (of (Bits.setBit v i on)) := by
  by_cases beyond : w ≤ i
  · rw [withBit, width_of, if_pos beyond, Bits.setBit, if_pos beyond]
  · obtain ⟨out, written, length, bits⟩ := writeBit_eq (lt_image v (Nat.lt_of_not_le beyond)) on
    simp only [withBit, width_of, if_neg beyond, bytes_of, written, Option.bind_eq_bind, Option.bind_some,
      Option.pure_def]
    refine congrArg some (eq_of rfl (length.trans (Bits.length_image v)) fun j => ?_)
    rw [bits, Bits.bit_image, Bits.getLsbD_setBit]
    by_cases same : j = i
    · rw [if_pos same, if_pos ⟨same.symm, by omega⟩]
    · rw [if_neg same, if_neg fun both => same both.1.symm]

/-- The packed forms of values are just what can be built. -/
theorem built_iff {p : Packed} : p.Built ↔ ∃ (w : Nat) (v : BitVec w), p = of v := by
  constructor
  · intro built
    induction built with
    | zero w => exact ⟨w, 0, zero_eq w⟩
    | ofBytes made => exact ⟨_, _, Option.some.inj (made.symm.trans (ofBytes_eq _ _))⟩
    | ofBytesHighFirst made => exact ⟨_, _, Option.some.inj (made.symm.trans (ofBytesHighFirst_eq _ _))⟩
    | ofWord made => exact ⟨_, _, Option.some.inj (made.symm.trans (ofWord_eq _ _))⟩
    | ofNumber made => exact ⟨_, _, Option.some.inj (made.symm.trans (ofNumber_eq _ _))⟩
    | withBit _ made ih =>
        obtain ⟨w, v, rfl⟩ := ih
        exact ⟨w, _, Option.some.inj (made.symm.trans (withBit_eq v _ _))⟩
  · rintro ⟨w, v, rfl⟩
    exact .ofBytes ((ofBytes_eq w (Bits.image v)).trans (congrArg (some ∘ of) (Bits.ofBytes_image v)))

/-- The bytes from the ninth on are all zero just when the value is a number of 64 bits. -/
theorem any_drop_image (v : BitVec w) :
    ((Bits.image v).drop 8).any (· ≠ 0) = false ↔ v.toNat < UInt64.size := by
  have bits : ∀ i, Bytes.bit ((Bits.image v).drop 8) i = v.toNat.testBit (64 + i) := by
    intro i
    rw [Bytes.bit_drop, Bits.bit_image]
    rfl
  constructor
  · intro clear
    have zeros : (Bits.image v).drop 8 = Bytes.zeros ((Bits.image v).drop 8).length := by
      apply List.eq_replicate_of_mem
      simpa using clear
    have bound : v.toNat < 2 ^ 64 := by
      apply Nat.lt_pow_two_of_testBit
      intro i high
      rw [← Nat.add_sub_cancel' high, ← bits, zeros, bit_zeros]
    exact bound
  · intro small
    have zeros : (Bits.image v).drop 8 = Bytes.zeros ((Bits.image v).drop 8).length := by
      apply Bytes.ext_bit (List.length_replicate).symm
      intro i
      have wide : 2 ^ 64 ≤ 2 ^ (64 + i) := Nat.pow_le_pow_right (by decide) (Nat.le_add_right 64 i)
      have bound : v.toNat < 2 ^ (64 + i) := Nat.lt_of_lt_of_le small wide
      rw [bits, Nat.testBit_lt_two_pow bound]
      exact (bit_zeros _ i).symm
    rw [zeros]
    simp [Bytes.zeros]

theorem toWord_eq (v : BitVec w) : (of v).toWord = some (Bits.toWord? v) := by
  rw [toWord, bytes_of, Bits.toWord?]
  by_cases small : v.toNat < UInt64.size
  · have word : BitVec.ofNat 64 (Bytes.toNat (Bytes.resize 8 (Bits.image v))) = v.setWidth 64 := by
      apply BitVec.eq_of_getLsbD_eq
      intro i inside
      have front : i / 8 < 8 := by omega
      rw [BitVec.getLsbD_ofNat, Bytes.testBit_toNat, bit_resize, Bits.bit_image, BitVec.getLsbD_setWidth,
        decide_eq_true front, Bool.true_and]
    simp only [(any_drop_image v).mpr small, if_pos small, sized_eq, word, Bool.false_eq_true, if_false,
      Option.bind_eq_bind, Option.bind_some, Option.pure_def]
  · have more : ((Bits.image v).drop 8).any (· ≠ 0) = true := by
      rw [← Bool.not_eq_false, any_drop_image]
      exact small
    rw [if_pos more, if_neg small]

end Packed
end MachineRegisters.Stepwise
