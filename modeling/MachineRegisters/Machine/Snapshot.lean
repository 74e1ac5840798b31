import MachineRegisters.Machine.Access

/-! # Saving and restoring banks

All banks are saved together and restored together.  The depth is that of the
general purpose bank, and so of every bank of a machine in use. -/
set_option autoImplicit false
namespace MachineRegisters.Machine

def depth (m : Machine) : Nat := (m.bank .general).depth

def push (m : Machine) : Machine := { m with banks := m.banks.map Bank.push }

def pop? (m : Machine) : Option Machine :=
  if m.depth = 0 then none
  else some { m with banks := m.banks.map fun b => b.pop?.getD b }

/-- Replace a whole bank; answers what it held. -/
def replaceBank (m : Machine) (c : RegClass) (bs : Bytes) : Outcome Bytes :=
  match (m.bank c).replace bs with
  | .error e => .refused e m
  | .ok b => .done (m.live c) (m.setBank c b)

def clearBank (m : Machine) (c : RegClass) : Machine := m.setBank c (m.bank c).clear

def needed (m : Machine) (c : RegClass) : Nat := Register.bytesOfBank m.registers c

def fit (m : Machine) : Machine := { m with banks := .ofFn fun c => (m.bank c).fit (m.needed c) }

def neededSize (m : Machine) : Nat := RegClass.all.foldr (fun c total => m.needed c + total) 0

/-- The bytes, cut or filled up with zeros to the size of the general purpose bank. -/
def shaped (m : Machine) (bs : Bytes) : Bytes := Bytes.resize (m.live .general).length bs

end MachineRegisters.Machine
