import MachineRegisters.Proofs.Stepwise.Packed
import MachineRegisters.Text.Hex
import MachineRegisters.Text.Numeral
import Mathlib.Algebra.BigOperators.Group.Finset.Basic

/-! # Values kept in bytes as numbers

However a packed form comes about, its bytes hold one number below two to its width and nothing
else (`Packed.Holds`): every way to read it gives this number, the number gives it back, and its
text has two digits for each byte that denote the number.  What is built from a number holds its
remainder (`Packed.holds_number`). -/
set_option autoImplicit false
namespace MachineRegisters

/-! ## Numbers in hexadecimal digits -/

namespace Text

theorem digitsFrom?_append (base soFar : Nat) (front behind : List Char) :
    digitsFrom? base soFar (front ++ behind) =
      (digitsFrom? base soFar front).bind fun read => digitsFrom? base read behind := by
  induction front generalizing soFar with
  | nil => rfl
  | cons c rest ih =>
      rw [List.cons_append, digitsFrom?, digitsFrom?]
      cases digitOf? base c with
      | none => rfl
      | some d => exact ih (soFar * base + d)

theorem digitOf?_digitChar : ∀ {d : Nat}, d < 16 → digitOf? 16 (Nat.digitChar d) = some d := by decide

theorem digitChar_mem : ∀ {d : Nat}, d < 16 → Nat.digitChar d ∈ "0123456789abcdef".toList := by decide

theorem lt_of_mem_digitPairs {bs : Bytes} {d : Nat} (member : d ∈ digitPairs bs) : d < 16 := by
  obtain ⟨b, -, digit⟩ := List.mem_flatMap.mp member
  have small : b.toNat < 256 := b.toNat_lt
  rw [List.mem_pair] at digit
  omega

theorem length_hex (bs : Bytes) : (hex bs).length = 2 * bs.length := by
  rw [hex, List.length_map, digitPairs, List.length_flatMap]
  simp [Nat.mul_comm]

theorem mem_hex {bs : Bytes} {c : Char} (member : c ∈ hex bs) : c ∈ "0123456789abcdef".toList := by
  obtain ⟨d, digit, rfl⟩ := List.mem_map.mp member
  exact digitChar_mem (lt_of_mem_digitPairs digit)

theorem digitsFrom?_hex_reverse (bs : Bytes) : digitsFrom? 16 0 (hex bs.reverse) = some (Bytes.toNat bs) := by
  induction bs with
  | nil => rfl
  | cons b rest ih =>
      have small : b.toNat < 256 := b.toNat_lt
      have split : hex (b :: rest).reverse =
          hex rest.reverse ++ [Nat.digitChar (b.toNat / 16), Nat.digitChar (b.toNat % 16)] := by
        simp [hex, digitPairs]
      have high : b.toNat / 16 < 16 := by omega
      have low : b.toNat % 16 < 16 := Nat.mod_lt _ (by decide)
      have value : (Bytes.toNat rest * 16 + b.toNat / 16) * 16 + b.toNat % 16 =
          b.toNat + 256 * Bytes.toNat rest := by
        omega
      rw [split, digitsFrom?_append, ih, Option.bind_some, digitsFrom?, digitOf?_digitChar high, Option.bind_some,
        digitsFrom?, digitOf?_digitChar low, Option.bind_some, digitsFrom?, value, Bytes.toNat]

end Text

/-- The low bits of a number, each counted at its place. -/
theorem sum_testBit (n w : Nat) : (∑ i ∈ Finset.range w, if n.testBit i then 2 ^ i else 0) = n % 2 ^ w := by
  induction w with
  | zero => exact (Nat.mod_one n).symm
  | succ w ih =>
      rw [Finset.sum_range_succ, ih, Nat.pow_succ, Nat.mod_mul, Nat.testBit_eq_decide_div_mod_eq]
      rcases Nat.mod_two_eq_zero_or_one (n / 2 ^ w) with zero | one
      · simp [zero]
      · simp [one]

/-! ## Packed forms and their numbers -/

namespace Stepwise.Packed
variable {w : Nat}

def number (p : Packed) : Nat := Bytes.toNat p.bytes

def print (p : Packed) : List Char := '0' :: 'x' :: if p.bytes = [] then ['0'] else Text.hex p.bytes.reverse

/-- The bytes hold the number `n` in the bits of the width, and nothing behind them. -/
structure Holds (p : Packed) (n : Nat) : Prop where
  length : p.bytes.length = (p.width + 7) / 8
  clear : ∀ i, p.width ≤ i → p.bytes.bit i = false
  readable : ∀ i, ∃ on, p.bit i = some on
  sum_bits : (∑ i ∈ Finset.range p.width, if p.bit i = some true then 2 ^ i else 0) = n
  number_eq : p.number = n
  lt : n < 2 ^ p.width
  word : p.toWord = some (if n < 2 ^ 64 then some (BitVec.ofNat 64 n) else none)
  again : ofBytes p.width (p.bytesIn .lowFirst) = some p
  againHighFirst : ofBytesHighFirst p.width (p.bytesIn .highFirst) = some p
  againNumber : ofNumber p.width n = some p
  printed : 0 < p.width → ∃ digits, p.print = '0' :: 'x' :: digits ∧
    digits.length = 2 * ((p.width + 7) / 8) ∧ (∀ c ∈ digits, c ∈ "0123456789abcdef".toList) ∧
    Text.digits? 16 digits = some n

@[simp] theorem number_of (v : BitVec w) : (of v).number = v.toNat := Bits.toNat_image v

theorem image_eq_nil_iff (v : BitVec w) : Bits.image v = [] ↔ w = 0 := by
  rw [← List.length_eq_zero_iff, Bits.length_image, Bits.bytesFor]
  omega

theorem print_eq (v : BitVec w) : (of v).print = Text.hexValue v := by
  simp only [print, Text.hexValue, bytes_of, image_eq_nil_iff, Bits.imageHighFirst]

theorem printed_of (v : BitVec w) (wide : 0 < w) :
    ∃ digits, (of v).print = '0' :: 'x' :: digits ∧ digits.length = 2 * ((w + 7) / 8) ∧
      (∀ c ∈ digits, c ∈ "0123456789abcdef".toList) ∧ Text.digits? 16 digits = some v.toNat := by
  have some_byte : Bits.image v ≠ [] := by
    rw [Ne, image_eq_nil_iff]
    omega
  have length : (Text.hex (Bits.image v).reverse).length = 2 * ((w + 7) / 8) := by
    rw [Text.length_hex, List.length_reverse, Bits.length_image, Bits.bytesFor]
  have some_digit : Text.hex (Bits.image v).reverse ≠ [] := by
    apply List.ne_nil_of_length_pos
    omega
  refine ⟨Text.hex (Bits.image v).reverse, ?_, length, fun c => Text.mem_hex, ?_⟩
  · rw [print, bytes_of, if_neg some_byte]
  · rw [Text.digits?, if_neg some_digit, Text.digitsFrom?_hex_reverse, Bits.toNat_image]

theorem sum_bits_of (v : BitVec w) :
    (∑ i ∈ Finset.range w, if (of v).bit i = some true then 2 ^ i else 0) = v.toNat := by
  have bits : ∀ i, (of v).bit i = some true ↔ v.toNat.testBit i = true := fun i => by
    rw [bit_eq, BitVec.testBit_toNat, Option.some_inj]
  simp only [bits, sum_testBit, Nat.mod_eq_of_lt v.isLt]

theorem holds_of (v : BitVec w) : (of v).Holds v.toNat where
  length := Bits.length_image v
  clear i beyond := (Bits.bit_image v i).trans (BitVec.getLsbD_of_ge v i beyond)
  readable i := ⟨_, bit_eq v i⟩
  sum_bits := sum_bits_of v
  number_eq := number_of v
  lt := v.isLt
  word := by
    rw [toWord_eq, Bits.toWord?, BitVec.ofNat_toNat]
    rfl
  again := by rw [width_of, bytesIn, bytes_of, ofBytes_eq, Bits.ofBytes_image]
  againHighFirst := by
    rw [width_of, bytesIn, bytes_of, ofBytesHighFirst, List.reverse_reverse, ofBytes_eq, Bits.ofBytes_image]
  againNumber := by rw [width_of, ofNumber_eq, BitVec.ofNat_toNat, BitVec.setWidth_eq]
  printed := printed_of v

theorem eq_iff_of_built {p q : Packed} (built : p.Built) (builtToo : q.Built) :
    p = q ↔ p.width = q.width ∧ p.number = q.number := by
  constructor
  · rintro rfl
    exact ⟨rfl, rfl⟩
  · rintro ⟨widths, numbers⟩
    obtain ⟨w, v, rfl⟩ := built_iff.mp built
    obtain ⟨w', u, rfl⟩ := built_iff.mp builtToo
    cases widths
    rw [number_of, number_of] at numbers
    rw [BitVec.eq_of_toNat_eq numbers]

/-- Values kept in bytes are numbers of a fixed width.  All that is built holds its number, whatever
bits are set on the way; forms are equal just when width and number are; and building, setting,
reading and printing never fail and do what they do to values: from zero, words, bytes in either
order and numbers comes the remainder of what these denote. -/
theorem holds_number :
    (∀ p : Packed, p.Built → p.Holds p.number) ∧
    (∀ p q : Packed, p.Built → q.Built → (p = q ↔ p.width = q.width ∧ p.number = q.number)) ∧
    (∀ w, zero w = of (0 : BitVec w) ∧ (zero w).Holds 0) ∧
    (∀ (w : Nat) (v : Word), ofWord w v = some (of (v.setWidth w)) ∧
      (of (v.setWidth w)).Holds (v.toNat % 2 ^ w)) ∧
    (∀ w bs, ofBytes w bs = some (of (Bits.ofBytes w bs)) ∧
      (of (Bits.ofBytes w bs)).Holds (Bytes.toNat bs % 2 ^ w)) ∧
    (∀ w bs, ofBytesHighFirst w bs = some (of (Bits.ofBytesHighFirst w bs)) ∧
      (of (Bits.ofBytesHighFirst w bs)).Holds (Bytes.toNat bs.reverse % 2 ^ w)) ∧
    (∀ w n, ofNumber w n = some (of (BitVec.ofNat w n)) ∧ (of (BitVec.ofNat w n)).Holds (n % 2 ^ w)) ∧
    (∀ p : Packed, p.Built ↔ ∃ (w : Nat) (v : BitVec w), p = of v) ∧
    ∀ {w : Nat} (v : BitVec w), (of v).bytes = Bits.image v ∧
      (of v).toWord = some (Bits.toWord? v) ∧ (of v).print = Text.hexValue v ∧
      ∀ i on, (of v).bit i = some (v.getLsbD i) ∧ (of v).withBit i on = some (of (Bits.setBit v i on)) := by
  refine ⟨?_, fun _ _ => eq_iff_of_built, ?_, ?_, ?_, ?_, ?_, fun _ => built_iff, ?_⟩
  · intro p built
    obtain ⟨w, v, rfl⟩ := built_iff.mp built
    rw [number_of]
    exact holds_of v
  · intro w
    have holds := holds_of (0 : BitVec w)
    have none : (0 : BitVec w).toNat = 0 := BitVec.toNat_zero
    rw [← zero_eq, none] at holds
    exact ⟨zero_eq w, holds⟩
  · intro w v
    rw [← BitVec.toNat_setWidth]
    exact ⟨ofWord_eq w v, holds_of _⟩
  · intro w bs
    rw [← BitVec.toNat_ofNat]
    exact ⟨ofBytes_eq w bs, holds_of _⟩
  · intro w bs
    rw [← BitVec.toNat_ofNat]
    exact ⟨ofBytesHighFirst_eq w bs, holds_of _⟩
  · intro w n
    rw [← BitVec.toNat_ofNat]
    exact ⟨ofNumber_eq w n, holds_of _⟩
  · intro w v
    exact ⟨rfl, toWord_eq v, print_eq v, fun i on => ⟨bit_eq v i, withBit_eq v i on⟩⟩

/-- Twelve bits of two bytes: the rest of the second byte is cut off, and a bit behind them is not set. -/
theorem holds_number_cut :
    ∃ p : Packed,
      (ofBytes 12 [0xff, 0xff]).bind (fun q => (q.withBit 3 false).bind fun r => r.withBit 12 true) = some p ∧
      p.bytes = [0xf7, 0x0f] ∧ p.Holds 0xff7 ∧ p.print = "0x0ff7".toList := by
  have built : Built ⟨[0xf7, 0x0f], 12⟩ := by
    have first : ofBytes 12 [0xff, 0xff] = some ⟨[0xff, 0x0f], 12⟩ := by decide +kernel
    have second : withBit ⟨[0xff, 0x0f], 12⟩ 3 false = some ⟨[0xf7, 0x0f], 12⟩ := by decide +kernel
    exact .withBit (.ofBytes first) second
  exact ⟨⟨[0xf7, 0x0f], 12⟩, by decide +kernel, rfl, holds_number.1 _ built, by decide +kernel⟩

end Stepwise.Packed
end MachineRegisters
