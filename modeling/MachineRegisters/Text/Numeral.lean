/-! # Numerals

Natural numbers as digits of a base.  A numeral may be bounded to 32 bits, the
range of all sizes and offsets, and one kind of numeral may open with a plus. -/
set_option autoImplicit false
namespace MachineRegisters.Text

def digitValue? (c : Char) : Option Nat :=
  if '0' ≤ c ∧ c ≤ '9' then some (c.toNat - '0'.toNat)
  else if 'a' ≤ c ∧ c ≤ 'f' then some (c.toNat - 'a'.toNat + 10)
  else if 'A' ≤ c ∧ c ≤ 'F' then some (c.toNat - 'A'.toNat + 10)
  else none

def digitOf? (base : Nat) (c : Char) : Option Nat := (digitValue? c).filter (· < base)

/-- The number that a row of digits denotes, read on from `soFar`. -/
def digitsFrom? (base : Nat) : Nat → List Char → Option Nat
  | soFar, [] => some soFar
  | soFar, c :: rest => (digitOf? base c).bind fun d => digitsFrom? base (soFar * base + d) rest

def digits? (base : Nat) (cs : List Char) : Option Nat :=
  if cs = [] then none else digitsFrom? base 0 cs

/-- Digits after at most one plus. -/
def plusDigits? (base : Nat) : List Char → Option Nat
  | '+' :: cs => digits? base cs
  | cs => digits? base cs

/-- Sizes and offsets are numbers of 32 bits. -/
def fits32 (n : Nat) : Option Nat := if n < UInt32.size then some n else none

def decimal (n : Nat) : List Char := Nat.toDigits 10 n

theorem fits32_eq_some_iff {n m : Nat} : fits32 n = some m ↔ n = m ∧ n < UInt32.size := by
  unfold fits32
  split
  · simp_all
  · simp only [reduceCtorEq, false_iff, not_and]
    intro _
    assumption

end MachineRegisters.Text
