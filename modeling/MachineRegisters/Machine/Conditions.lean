import MachineRegisters.Machine.Access

/-! # Flags and conditions of a machine

A flag is kept as a marked bit of the status register or, failing that, in a
register of its own.  A condition is evaluated on the flags that it reads, and
forced by the cheapest change of them; the registers to be written are all
checked before the first of them is written. -/
set_option autoImplicit false
namespace MachineRegisters

inductive FlagPlace where
  /-- One bit of the status register. -/
  | statusBit (register : Register) (bit : Nat)
  /-- A register that is zero just when the flag is clear. -/
  | whole (register : Register)
  deriving DecidableEq, Repr

namespace FlagPlace

def register : FlagPlace → Register
  | statusBit r _ => r
  | whole r => r

def isSet (p : FlagPlace) (v : Word) : Bool :=
  match p with
  | statusBit _ i => v.getLsbD i
  | whole _ => v ≠ 0

end FlagPlace

namespace Machine

def statusBitFor (m : Machine) (f : Flag) : Option FlagPlace :=
  match (m.playing .status).filter fun r => r.size ≤ 64 with
  | none => none
  | some r => (r.markedBit? f.letter).map (.statusBit r)

/-- The register for one flag alone: the one in its role, or else the one of its name. -/
def registerForFlag (m : Machine) (f : Flag) : Option Register :=
  ((f.role?.bind m.playing).or (m.find f.registerName)).filter fun r => r.size ≤ 64

def locate (m : Machine) (f : Flag) : Option FlagPlace :=
  (m.statusBitFor f).or ((m.registerForFlag f).map .whole)

def readFlag (m : Machine) (p : FlagPlace) : Except RegisterError Bool :=
  (m.readWord p.register).map p.isSet

def readFlags (m : Machine) : List (Flag × FlagPlace) → Flags → Except RegisterError Flags
  | [], fs => .ok fs
  | (f, p) :: rest, fs =>
      match m.readFlag p with
      | .error e => .error e
      | .ok b => m.readFlags rest (fs.set f b)

def writeFlag (m : Machine) (p : FlagPlace) (b : Bool) : Outcome Unit :=
  match p with
  | .statusBit r i =>
      match m.readWord r with
      | .error e => .refused e m
      | .ok v => m.writeWord r (Bits.setBit v i b)
  | .whole r => m.writeWord r (if b then 1 else 0)

def writeFlagsInOrder (m : Machine) : List (FlagPlace × Bool) → Outcome Unit
  | [] => .done () m
  | (p, b) :: rest => (m.writeFlag p b).andThen fun _ after => after.writeFlagsInOrder rest

/-- Write flags, or none of them if one lies in a register that must not be written. -/
def writeFlags (m : Machine) (writes : List (FlagPlace × Bool)) : Outcome Unit :=
  match writes.find? fun w => m.isReadOnly w.1.register.name with
  | some w => .refused (.readOnly w.1.register.name) m
  | none => m.writeFlagsInOrder writes

def locateAll (m : Machine) : List Flag → Option (List (Flag × FlagPlace))
  | [] => some []
  | f :: rest =>
      match m.locate f with
      | none => none
      | some p => (m.locateAll rest).map ((f, p) :: ·)

def locatedFlags (m : Machine) : List (Flag × FlagPlace) :=
  Flag.all.filterMap fun f => (m.locate f).map fun p => (f, p)

def evaluate (m : Machine) (c : Condition) : Except RegisterError Bool :=
  match m.locateAll c.inputs with
  | none => .error (.conditionUnresolved c)
  | some inputs => (m.readFlags inputs .clear).map c.holds

def flagWrites (inputs : List (Flag × FlagPlace)) (before after : Flags) : List (FlagPlace × Bool) :=
  (inputs.filter fun i => before.get i.1 != after.get i.1).map fun i => (i.2, after.get i.1)

/-- Change the fewest flags that make a condition come out as wanted. -/
def force (m : Machine) (c : Condition) (wanted : Bool) : Outcome Unit :=
  match m.locateAll c.inputs with
  | none => .refused (.conditionUnresolved c) m
  | some inputs =>
      match m.readFlags inputs .clear with
      | .error e => .refused e m
      | .ok now =>
          if c.holds now = wanted then .done () m
          else
            match c.cheapestChange? wanted now with
            | none => .refused (.conditionUnresolved c) m
            | some best => m.writeFlags (flagWrites inputs now best)

/-- The setting of all flags; those kept nowhere read as clear. -/
def flags (m : Machine) : Except RegisterError Flags :=
  if m.locatedFlags = [] then .error .flagsUnresolved
  else m.readFlags m.locatedFlags .clear

def setFlags (m : Machine) (fs : Flags) : Outcome Unit :=
  if m.locatedFlags = [] then .refused .flagsUnresolved m
  else m.writeFlags (m.locatedFlags.map fun i => (i.2, fs.get i.1))

end Machine
end MachineRegisters
