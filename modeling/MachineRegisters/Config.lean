/-! # Configuration

What the registers' surroundings say about their contents: the word size, the
order of bytes and the instruction set state. -/
set_option autoImplicit false
namespace MachineRegisters

/-- Which byte of a byte-aligned register comes first in its bank. -/
inductive ByteOrder where
  | lowFirst
  | highFirst
  deriving DecidableEq, Repr

structure Config where
  wordBits : Nat := 64
  byteOrder : ByteOrder := .lowFirst
  thumb : Bool := false
  deriving DecidableEq, Repr

end MachineRegisters
