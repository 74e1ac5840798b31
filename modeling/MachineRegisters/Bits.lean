import MachineRegisters.Bytes

/-! # Register values

A value of `w` bits is a `BitVec w`.  It is built from bytes by dropping or
adding zero bits at the top, and it has an image of as many bytes as its bits
need (`ofBytes_image`).  `reversed` reads the image in the opposite order. -/
set_option autoImplicit false
namespace MachineRegisters

abbrev Word := BitVec 64

namespace Bits

def bytesFor (w : Nat) : Nat := (w + 7) / 8

/-- The low `w` bits of the bytes, the first byte counting least. -/
def ofBytes (w : Nat) (bs : Bytes) : BitVec w := BitVec.ofNat w (Bytes.toNat bs)

def ofBytesHighFirst (w : Nat) (bs : Bytes) : BitVec w := ofBytes w bs.reverse

variable {w : Nat}

/-- The bytes of a value, the least first. -/
def image (v : BitVec w) : Bytes := Bytes.ofNat (bytesFor w) v.toNat

def imageHighFirst (v : BitVec w) : Bytes := (image v).reverse

/-- The value whose image is that of `v` read backwards. -/
def reversed (v : BitVec w) : BitVec w := ofBytes w (imageHighFirst v)

def setBit (v : BitVec w) (i : Nat) (b : Bool) : BitVec w :=
  if w ≤ i then v else if b then v ||| BitVec.twoPow w i else v &&& ~~~BitVec.twoPow w i

def toWord? (v : BitVec w) : Option Word :=
  if v.toNat < UInt64.size then some (v.setWidth 64) else none

theorem le_bytesFor (w : Nat) : w ≤ 8 * bytesFor w := by
  unfold bytesFor
  omega

@[simp] theorem length_image (v : BitVec w) : (image v).length = bytesFor w :=
  Bytes.length_ofNat _ _

theorem toNat_image (v : BitVec w) : Bytes.toNat (image v) = v.toNat := by
  rw [image, Bytes.toNat_ofNat]
  apply Nat.mod_eq_of_lt
  rw [Nat.one_shiftLeft]
  exact Nat.lt_of_lt_of_le v.isLt (Nat.pow_le_pow_right (by decide) (le_bytesFor w))

theorem ofBytes_image (v : BitVec w) : ofBytes w (image v) = v := by
  rw [ofBytes, toNat_image]
  exact BitVec.ofNat_toNat w v |>.trans (BitVec.setWidth_eq v)

theorem ofBytesHighFirst_imageHighFirst (v : BitVec w) :
    ofBytesHighFirst w (imageHighFirst v) = v := by
  rw [ofBytesHighFirst, imageHighFirst, List.reverse_reverse, ofBytes_image]

theorem getLsbD_setBit (v : BitVec w) (i j : Nat) (b : Bool) :
    (setBit v i b).getLsbD j = if i = j ∧ j < w then b else v.getLsbD j := by
  by_cases beyond : w ≤ i
  · rw [setBit, if_pos beyond, if_neg (by omega)]
  · by_cases inside : j < w
    · by_cases here : i = j
      · subst here
        cases b <;> simp [setBit, inside, beyond]
      · cases b <;> simp [setBit, inside, beyond, here, Ne.symm here]
    · rw [if_neg (fun both => inside both.2), BitVec.getLsbD_of_ge _ _ (by omega),
        BitVec.getLsbD_of_ge _ _ (by omega)]

end Bits
end MachineRegisters
