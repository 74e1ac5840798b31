import MachineRegisters.Error
import MachineRegisters.Profile.Basic

/-! # Layout

Definitions are placed one after the other.  A definition without an offset goes
right behind the previous one of its bank; one with a known name takes the place
and the index of the earlier register of that name. -/
set_option autoImplicit false
namespace MachineRegisters

def Definition.toRegister (d : Definition) (offset index : Nat) : Register where
  offset := offset
  size := d.size
  name := d.name
  kind := d.kind
  bank := d.bank
  lane := d.lane
  flags := d.flags
  comment := d.comment
  index := index

/-- Add a register at the end, or put it in the place of the one of its name. -/
def putRegister (r : Register) : List Register → List Register
  | [] => [r]
  | old :: rest => if old.name = r.name then { r with index := old.index } :: rest else old :: putRegister r rest

/-- The registers placed so far, and the first bit behind the last one in each bank. -/
structure Placement where
  registers : List Register
  next : TotalMap RegClass Nat

namespace Placement

def start : Placement := ⟨[], .const 0⟩

def place (p : Placement) (d : Definition) : Except RegisterError Placement :=
  let offset := d.offset.getD (p.next.get d.bank)
  if offset + d.size < UInt32.size then
    .ok ⟨putRegister (d.toRegister offset p.registers.length) p.registers,
      p.next.set d.bank (offset + d.size)⟩
  else .error (.layoutOverflow d.name)

/-- Place definitions in order, up to the first that does not fit. -/
def placeAll : Placement → List Definition → Except RegisterError Placement
  | p, [] => .ok p
  | p, d :: rest =>
      match p.place d with
      | .error e => .error e
      | .ok q => q.placeAll rest

end Placement

def Profile.layout (p : Profile) : Except RegisterError (List Register) :=
  (Placement.start.placeAll p.definitions).map fun placed => placed.registers

end MachineRegisters
