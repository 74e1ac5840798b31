/-! # Byte strings

A byte string is read as a number whose first byte counts least (`toNat`), and
`ofNat n` writes the low `n` bytes of a number.  Within one length the two are
inverse to each other (`toNat_ofNat`, `ofNat_toNat`). -/
set_option autoImplicit false
namespace MachineRegisters

abbrev Bytes := List UInt8

namespace Bytes

/-- The number written by the bytes, the first byte counting least. -/
def toNat : Bytes → Nat
  | [] => 0
  | b :: rest => b.toNat + 256 * toNat rest

def ofNat : Nat → Nat → Bytes
  | 0, _ => []
  | n + 1, x => UInt8.ofNat x :: ofNat n (x / 256)

def zeros (n : Nat) : Bytes := List.replicate n 0

def resize (n : Nat) (bs : Bytes) : Bytes := bs.take n ++ zeros (n - bs.length)

def overlay (front base : Bytes) : Bytes := front ++ base.drop front.length

def fill (b : UInt8) (bs : Bytes) : Bytes := List.replicate bs.length b

@[simp] theorem length_ofNat (n x : Nat) : (ofNat n x).length = n := by
  induction n generalizing x with
  | zero => rfl
  | succ n ih => simp [ofNat, ih]

@[simp] theorem length_resize (n : Nat) (bs : Bytes) : (resize n bs).length = n := by
  simp only [resize, zeros, List.length_append, List.length_take, List.length_replicate]
  omega

theorem length_overlay (front base : Bytes) :
    (overlay front base).length = max front.length base.length := by
  simp only [overlay, List.length_append, List.length_drop]
  omega

@[simp] theorem resize_length (bs : Bytes) : resize bs.length bs = bs := by
  simp [resize, zeros]

theorem one_shiftLeft_bytes (n : Nat) : 1 <<< (8 * (n + 1)) = 256 * 1 <<< (8 * n) := by
  rw [Nat.one_shiftLeft, Nat.one_shiftLeft, Nat.mul_succ, Nat.pow_add, Nat.mul_comm]

theorem toNat_lt (bs : Bytes) : toNat bs < 1 <<< (8 * bs.length) := by
  induction bs with
  | nil => simp [toNat]
  | cons b rest ih =>
      have small : b.toNat < 256 := b.toNat_lt
      rw [toNat, List.length_cons, one_shiftLeft_bytes]
      omega

theorem toNat_ofNat (n x : Nat) : toNat (ofNat n x) = x % 1 <<< (8 * n) := by
  induction n generalizing x with
  | zero => simp [ofNat, toNat, Nat.mod_one]
  | succ n ih => rw [ofNat, toNat, ih, UInt8.toNat_ofNat', one_shiftLeft_bytes, Nat.mod_mul]

theorem ofNat_toNat (bs : Bytes) : ofNat bs.length (toNat bs) = bs := by
  induction bs with
  | nil => rfl
  | cons b rest ih =>
      have small : b.toNat < 256 := b.toNat_lt
      have tail : (b.toNat + 256 * toNat rest) / 256 = toNat rest := by omega
      have head : UInt8.ofNat (b.toNat + 256 * toNat rest) = b := by
        apply UInt8.toNat_inj.mp
        rw [UInt8.toNat_ofNat']
        omega
      simp only [List.length_cons, toNat, ofNat, tail, ih, head]

end Bytes
end MachineRegisters
