import MachineRegisters.Machine.Lookup
import MachineRegisters.Text.Column

/-! # Listing a machine

The report on a machine: for each bank with registers a heading
and a row for each register, then the bound roles, then the calling convention. -/
set_option autoImplicit false
namespace MachineRegisters
open Text

namespace Register

def listingRow (r : Register) : List Char :=
  "  ".toList ++ pad .right ' ' 4 (decimal r.index) ++ ' ' :: pad .left ' ' 4 r.kind.keyword.toList ++
    ' ' :: pad .left ' ' 12 r.name.toList ++ ' ' :: pad .right ' ' 4 (decimal r.size) ++
    " bits @ ".toList ++ decimal r.offset

end Register

namespace Machine

/-- The heading and the rows of a bank; nothing for a bank without registers. -/
def listBank (m : Machine) (uncoveredOnly : Bool) (c : RegClass) : List (List Char) :=
  let all := m.inBank c
  if all = [] then []
  else
    let shown := if uncoveredOnly then Register.uncovered all else all
    ('[' :: c.keyword.toList ++ "] ".toList ++ decimal (m.live c).length ++ " bytes".toList) ::
      shown.map fun r => r.listingRow

def listRole (m : Machine) (r : Role) : List (List Char) :=
  match m.nameOf r with
  | none => []
  | some name =>
      [('=' :: r.token.toList) ++ ' ' :: name.toList ++
        (if (m.playing r).isSome then [] else " (missing)".toList)]

def listConvention (m : Machine) : List (List Char) :=
  match m.callConvention with
  | none => []
  | some convention => ["cc: ".toList ++ convention.toList]

def listingLines (m : Machine) (uncoveredOnly : Bool) : List (List Char) :=
  RegClass.all.flatMap (m.listBank uncoveredOnly) ++ Role.all.flatMap m.listRole ++ m.listConvention

def listing (m : Machine) (uncoveredOnly : Bool) : List Char :=
  (m.listingLines uncoveredOnly).flatMap fun line => line ++ ['\n']

end Machine

end MachineRegisters
