import MachineRegisters.Machine.Lookup

/-! # Changes between two images of a bank

Given two byte strings that a bank could hold, `nextChange` finds the next
register whose bits are not the same in both, and `changes` walks from one to
the next. -/
set_option autoImplicit false
namespace MachineRegisters.Machine

/-- Comes behind the register that the search goes on from, if there is one. -/
def isBehind (last : Option Register) (r : Register) : Bool := last.all fun l => l.index < r.index

/-- Two images can be compared if they are equally long and no shorter than the bank. -/
def checkImages (m : Machine) (c : RegClass) (before after : Bytes) : Except RegisterError Unit :=
  if before.length ≠ after.length then .error (.sizeMismatch before.length after.length)
  else if before.length < (m.live c).length then
    .error (.sizeMismatch (m.live c).length before.length)
  else .ok ()

def firstChange (m : Machine) (c : RegClass) (before after : Bytes) (last : Option Register)
    (size : Option Nat) : Option Register :=
  (m.inBank c).find? fun r =>
    isBehind last r && size.all (fun n => r.size == n) && decide (r.toBitSpan.Differs before after)

def nextChange (m : Machine) (c : RegClass) (before after : Bytes) (last : Option Register)
    (size : Option Nat) : Except RegisterError (Option Register) :=
  (m.checkImages c before after).map fun _ => m.firstChange c before after last size

def nextChangeFromLive (m : Machine) (c : RegClass) (after : Bytes) (last : Option Register) :
    Except RegisterError (Option Register) :=
  m.nextChange c (m.live c) after last none

def changesFrom (m : Machine) (c : RegClass) (before after : Bytes) (size : Option Nat) :
    Nat → Option Register → List Register
  | 0, _ => []
  | limit + 1, last =>
      match m.firstChange c before after last size with
      | none => []
      | some r => r :: m.changesFrom c before after size limit (some r)

/-- All registers that differ; there can be no more of them than there are registers. -/
def changes (m : Machine) (c : RegClass) (before after : Bytes) (size : Option Nat) :
    Except RegisterError (List Register) :=
  (m.checkImages c before after).map fun _ =>
    m.changesFrom c before after size m.registers.length none

end MachineRegisters.Machine
