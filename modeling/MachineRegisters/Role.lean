import MachineRegisters.TotalMap
import MachineRegisters.Text.Keyword

/-! # Register roles

A role is the part that some register plays on every architecture: the program
counter, the second argument of a call, the carry flag.  A profile binds roles to
the names of registers. -/
set_option autoImplicit false
namespace MachineRegisters

inductive Role where
  | programCounter
  | stackPointer
  | status
  | basePointer
  | link
  | argument (n : Fin 10)
  | result (n : Fin 4)
  | zeroFlag
  | signFlag
  | carryFlag
  | overflowFlag
  | syscallNumber
  deriving DecidableEq, Repr

namespace Role

def arguments : List Role := (List.finRange 10).map argument

def all : List Role :=
  [programCounter, stackPointer, status, basePointer, link] ++ arguments ++
    (List.finRange 4).map result ++ [zeroFlag, signFlag, carryFlag, overflowFlag, syscallNumber]

instance : Listed Role where
  all := all
  nodup_all := by decide
  mem_all := by
    intro r
    cases r with
    | argument n => revert n; decide
    | result n => revert n; decide
    | _ => decide

def token : Role → String
  | programCounter => "PC"
  | stackPointer => "SP"
  | status => "SR"
  | basePointer => "BP"
  | link => "LR"
  | argument n => String.ofList ['A', Nat.digitChar n]
  | result n => String.ofList ['R', Nat.digitChar n]
  | zeroFlag => "ZF"
  | signFlag => "SF"
  | carryFlag => "CF"
  | overflowFlag => "OF"
  | syscallNumber => "SN"

def ofToken? (text : List Char) : Option Role := Text.findKeyword token all text

theorem ofToken?_token (r : Role) : ofToken? r.token.toList = some r := by
  cases r with
  | argument n => revert n; decide
  | result n => revert n; decide
  | _ => decide

end Role
end MachineRegisters
