import MachineRegisters.Register
import MachineRegisters.Role

/-! # Profiles

A profile describes the registers of one architecture: bindings of roles to
register names, and definitions of registers, each in the order of the text. -/
set_option autoImplicit false
namespace MachineRegisters

/-- The register that plays a role; the token is kept as it was written. -/
structure Binding where
  role : Role
  token : String
  register : String
  deriving DecidableEq, Repr

/-- What a profile says about one register.  Sizes and offsets are in bits. -/
structure Definition where
  kind : RegClass
  bank : RegClass
  name : String
  size : Nat
  lane : Nat
  /-- Nothing for a register that follows the previous one of its bank. -/
  offset : Option Nat
  comment : Option String
  flags : Option String
  deriving DecidableEq, Repr

structure Profile where
  bindings : List Binding
  definitions : List Definition
  deriving DecidableEq, Repr

namespace Definition

def lanes (d : Definition) : Nat := laneCount d.size d.lane

end Definition

namespace Profile

def empty : Profile := ⟨[], []⟩

def isEmpty (p : Profile) : Bool := p.bindings.isEmpty && p.definitions.isEmpty

instance : Append Profile where
  append p q := ⟨p.bindings ++ q.bindings, p.definitions ++ q.definitions⟩

/-- The last binding of a role. -/
def bindingOf? (p : Profile) (r : Role) : Option Binding := p.bindings.reverse.find? fun b => b.role = r

@[simp] theorem bindings_append (p q : Profile) : (p ++ q).bindings = p.bindings ++ q.bindings := rfl

@[simp] theorem definitions_append (p q : Profile) :
    (p ++ q).definitions = p.definitions ++ q.definitions := rfl

@[simp] theorem empty_append (p : Profile) : empty ++ p = p := rfl

theorem append_empty (p : Profile) : p ++ empty = p := by
  show Profile.mk (p.bindings ++ []) (p.definitions ++ []) = p
  rw [List.append_nil, List.append_nil]

theorem append_assoc (p q r : Profile) : p ++ q ++ r = p ++ (q ++ r) := by
  show Profile.mk _ _ = Profile.mk _ _
  simp

end Profile
end MachineRegisters
