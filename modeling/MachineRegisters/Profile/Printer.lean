import MachineRegisters.Profile.Basic
import MachineRegisters.Text.Numeral

/-! # Writing profiles

The text of a profile: a line for each binding and then one for each definition,
with a tab between fields, roles and classes in their own spelling, and all
sizes and offsets in bits. -/
set_option autoImplicit false
namespace MachineRegisters
open Text

def bitCount (n : Nat) : List Char := '.' :: decimal n

namespace Binding

def print (b : Binding) : List Char :=
  '=' :: b.role.token.toList ++ '\t' :: b.register.toList

end Binding

namespace Definition

def printClass (d : Definition) : List Char :=
  if d.bank = d.kind.home then d.kind.keyword.toList
  else d.kind.keyword.toList ++ '@' :: d.bank.keyword.toList

def printPlace (d : Definition) : List Char :=
  match d.offset with
  | none => ['?']
  | some offset => bitCount offset

def printLane (d : Definition) : List Char := if d.lane = 0 then ['0'] else bitCount d.lane

/-- The fields of a line, in order; flags and comment only if there are any. -/
def fields (d : Definition) : List (List Char) :=
  [d.printClass, d.name.toList, bitCount d.size, d.printPlace, d.printLane] ++
    (d.flags.map String.toList).toList ++
    (d.comment.map fun text => '#' :: text.toList).toList

def print (d : Definition) : List Char := ['\t'].intercalate d.fields

end Definition

namespace Profile

def printLines (p : Profile) : List (List Char) :=
  p.bindings.map Binding.print ++ p.definitions.map Definition.print

def print (p : Profile) : List Char := p.printLines.flatMap fun line => line ++ ['\n']

end Profile
end MachineRegisters
