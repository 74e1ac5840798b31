import MachineRegisters.Machine.Basic

/-! # Finding registers

Registers are found by name, by role, by index and by place.  Where a name may
also be the token of a role, `find` prefers the name and `findByRole` the role. -/
set_option autoImplicit false
namespace MachineRegisters.Machine

def nameOf (m : Machine) (r : Role) : Option String := m.bindings.get r

def atIndex (m : Machine) (n : Nat) : Option Register := m.registers[n]?

def named (m : Machine) (name : String) : Option Register :=
  (m.catalogs.position? name).bind m.atIndex

/-- The register that plays a role; none if the name bound to it names no register. -/
def playing (m : Machine) (r : Role) : Option Register := (m.nameOf r).bind m.named

/-- The register with this name, or else the one that plays the role with this token. -/
def find (m : Machine) (name : String) : Option Register :=
  (m.named name).or ((Role.ofToken? name.toList).bind m.playing)

def findByRole (m : Machine) (name : String) : Option Register :=
  ((Role.ofToken? name.toList).bind m.playing).or (m.named name)

def namedOf (m : Machine) (name : String) (c : RegClass) : Option Register :=
  (m.named name).filter fun r => r.kind = c ∨ r.bank = c

def catalog (m : Machine) (c : RegClass) : Catalog := m.catalogs.get c

def inBank (m : Machine) (c : RegClass) : List Register := (m.catalog c).positions.filterMap m.atIndex

def ofClass (m : Machine) (c : RegClass) : List Register := m.registers.filter fun r => r.kind = c

/-- The register of a size that ends a number of bits below the end of its bank. -/
def below (m : Machine) (c : RegClass) (size bits : Nat) : Option Register :=
  let whole := 8 * (m.live c).length
  if whole < UInt32.size ∧ bits ≤ whole then
    (m.inBank c).find? fun r => r.size = size ∧ r.past = whole - bits
  else none

def classMask (m : Machine) (c : RegClass) : Nat := (m.catalog c).mask

/-- The register of width `wanted` at the place of the one that is named, which has width `given`. -/
def sibling (m : Machine) (name : String) (given wanted : Nat) : Option String :=
  match (m.named name).filter fun r => r.size = given with
  | none => none
  | some r => ((m.inBank r.bank).find? fun t => t.offset = r.offset ∧ t.size = wanted).map fun t => t.name

def wideSibling (m : Machine) (name : String) : Option String := m.sibling name 32 64

def narrowSibling (m : Machine) (name : String) : Option String := m.sibling name 64 32

/-- The names bound to the roles, up to the first role that is not bound. -/
def namesOf (m : Machine) : List Role → List String
  | [] => []
  | r :: rest =>
      match m.nameOf r with
      | none => []
      | some name => name :: m.namesOf rest

def callConvention (m : Machine) : Option String :=
  match m.namesOf Role.arguments with
  | [] => none
  | first :: rest =>
      some ((m.nameOf (.result 0)).getD first ++ " reg(" ++ ", ".intercalate (first :: rest) ++ ")")

def upcoming (m : Machine) (c : RegClass) : Option Register :=
  ((m.catalog c).positions[m.cursors.get c]?).bind m.atIndex

/-- Pass the next register of a bank; at the end of the bank there is none to pass. -/
def advance (m : Machine) (c : RegClass) : Machine :=
  match m.upcoming c with
  | none => m
  | some _ => { m with cursors := m.cursors.set c (m.cursors.get c + 1) }

def rewind (m : Machine) (c : RegClass) : Machine := { m with cursors := m.cursors.set c 0 }

end MachineRegisters.Machine
