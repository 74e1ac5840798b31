import MachineRegisters.Role

/-! # Flags

The six flag bits that conditions speak of, and a setting of all six at once. -/
set_option autoImplicit false
namespace MachineRegisters

inductive Flag where
  | sign
  | zero
  | adjust
  | carry
  | overflow
  | parity
  deriving DecidableEq, Repr

namespace Flag

/-- All flags in the order in which they are read and written. -/
def all : List Flag := [sign, zero, adjust, carry, overflow, parity]

theorem mem_all (f : Flag) : f ∈ all := by cases f <;> decide

def letter : Flag → Char
  | sign => 's'
  | zero => 'z'
  | adjust => 'a'
  | carry => 'c'
  | overflow => 'o'
  | parity => 'p'

def role? : Flag → Option Role
  | sign => some .signFlag
  | zero => some .zeroFlag
  | carry => some .carryFlag
  | overflow => some .overflowFlag
  | adjust => none
  | parity => none

/-- The usual name of a register that holds this flag alone. -/
def registerName : Flag → String
  | sign => "sf"
  | zero => "zf"
  | adjust => "af"
  | carry => "cf"
  | overflow => "of"
  | parity => "pf"

end Flag

structure Flags where
  sign : Bool
  zero : Bool
  adjust : Bool
  carry : Bool
  overflow : Bool
  parity : Bool
  deriving DecidableEq, Repr

namespace Flags

def clear : Flags := ⟨false, false, false, false, false, false⟩

def get (fs : Flags) : Flag → Bool
  | .sign => fs.sign
  | .zero => fs.zero
  | .adjust => fs.adjust
  | .carry => fs.carry
  | .overflow => fs.overflow
  | .parity => fs.parity

def set (fs : Flags) (f : Flag) (b : Bool) : Flags :=
  match f with
  | .sign => { fs with sign := b }
  | .zero => { fs with zero := b }
  | .adjust => { fs with adjust := b }
  | .carry => { fs with carry := b }
  | .overflow => { fs with overflow := b }
  | .parity => { fs with parity := b }

@[simp] theorem get_clear (f : Flag) : clear.get f = false := by cases f <;> rfl

theorem get_set (fs : Flags) (f g : Flag) (b : Bool) :
    (fs.set f b).get g = if f = g then b else fs.get g := by
  cases f <;> cases g <;> rfl

theorem ext_get {fs gs : Flags} (same : ∀ f, fs.get f = gs.get f) : fs = gs := by
  cases fs
  cases gs
  simp only [mk.injEq]
  exact ⟨same .sign, same .zero, same .adjust, same .carry, same .overflow, same .parity⟩

end Flags
end MachineRegisters
