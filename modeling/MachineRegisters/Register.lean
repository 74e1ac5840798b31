import MachineRegisters.BitSpan
import MachineRegisters.RegClass

/-! # Registers

A register is a named span of bits in one bank.  It owns no storage: registers
of one bank may overlap, and a write through one is seen through the others.
`Register.uncovered` drops the registers that lie inside others. -/
set_option autoImplicit false
namespace MachineRegisters

/-- How many lanes of `lane` bits a register of `size` bits is divided into. -/
def laneCount (size lane : Nat) : Nat :=
  if lane = 0 ∨ size ≤ lane then 1 else size / lane

structure Register extends BitSpan where
  name : String
  kind : RegClass
  /-- The bank that holds the bits. -/
  bank : RegClass
  /-- The width of a lane, zero if the register is not divided. -/
  lane : Nat
  /-- One letter per bit, from bit zero on. -/
  flags : Option String
  comment : Option String
  /-- The rank of the register in its profile. -/
  index : Nat
  deriving DecidableEq, Repr

namespace Register

def lanes (r : Register) : Nat := laneCount r.size r.lane

def isFloat (r : Register) : Bool := r.kind == .float

def Covers (r t : Register) : Prop := r.bank = t.bank ∧ r.toBitSpan.Covers t.toBitSpan

instance (r t : Register) : Decidable (r.Covers t) :=
  inferInstanceAs (Decidable (r.bank = t.bank ∧ r.toBitSpan.Covers t.toBitSpan))

/-- The registers share a bit, if each has one. -/
def Overlaps (r t : Register) : Prop := r.bank = t.bank ∧ r.toBitSpan.Overlaps t.toBitSpan

instance (r t : Register) : Decidable (r.Overlaps t) :=
  inferInstanceAs (Decidable (r.bank = t.bank ∧ r.toBitSpan.Overlaps t.toBitSpan))

/-- The register `r` makes `t` redundant: it covers `t` and is larger or comes earlier. -/
def Supersedes (r t : Register) : Prop := r.Covers t ∧ (t.size < r.size ∨ r.index < t.index)

instance (r t : Register) : Decidable (r.Supersedes t) :=
  inferInstanceAs (Decidable (r.Covers t ∧ (t.size < r.size ∨ r.index < t.index)))

def uncovered (rs : List Register) : List Register :=
  rs.filter fun t => ∀ r ∈ rs, ¬r.Supersedes t

def bytesOfBank (rs : List Register) (c : RegClass) : Nat :=
  ((rs.filter fun r => r.bank = c).map fun r => r.bytesNeeded).foldr max 0

def markedBit? (r : Register) (letter : Char) : Option Nat :=
  (r.flags.bind fun marks => marks.toList.idxOf? letter).filter (· < r.size)

theorem mem_uncovered {rs : List Register} {t : Register} :
    t ∈ uncovered rs ↔ t ∈ rs ∧ ∀ r ∈ rs, ¬r.Supersedes t := by
  simp [uncovered]

end Register
end MachineRegisters
