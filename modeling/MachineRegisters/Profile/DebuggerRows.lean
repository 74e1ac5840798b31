import MachineRegisters.Profile.Parser
import MachineRegisters.Text.Numeral

/-! # Register tables of a debugger

A debugger lists registers in rows of name, two numbers, offset, size and type,
with offsets and sizes in bytes.  Every row with a name and a size becomes one
definition line of a profile; the heading and rows that begin with a star say
nothing.  Faults are reported with the line of the table. -/
set_option autoImplicit false
namespace MachineRegisters
open Text

/-- One register of a debugger's table; the size is in bits, the offset in bytes. -/
structure DebuggerRow where
  kind : RegClass
  name : List Char
  bits : Nat
  offset : Nat
  deriving DecidableEq, Repr

namespace DebuggerRow

def floatMarks : List String := ["float", "i387_ext", "vec", "v4", "v2", "uint128"]

def classOf (name type : List Char) : RegClass :=
  if occursIn "flags".toList name || occursIn "flags".toList type then .flag
  else if floatMarks.any fun mark => occursIn mark.toList type then .float
  else .general

def readNumber? (cs : List Char) : Option Nat := (plusDigits? 10 cs).bind fits32

def ofFields (name offsetText sizeText type : List Char) : Except LineFault (Option DebuggerRow) :=
  match readNumber? offsetText with
  | none => .error (.badOffset (String.ofList offsetText))
  | some offset =>
      match readNumber? sizeText with
      | none => .error (.badSize (String.ofList sizeText))
      | some size =>
          if name = "''".toList ∨ size = 0 then .ok none
          else
            match fits32 (8 * size) with
            | none => .error (.sizeTooLarge size)
            | some bits => .ok (some ⟨classOf name type, name, bits, offset⟩)

def ofLine (cs : List Char) : Except LineFault (Option DebuggerRow) :=
  match words cs with
  | [] => .ok none
  | first :: rest =>
      if first = "Name".toList ∨ first.head? = some '*' then .ok none
      else
        match rest with
        | _ :: _ :: offsetText :: sizeText :: type :: _ => ofFields first offsetText sizeText type
        | _ => .error (.tooFewColumns (rest.length + 1))

/-- The registers in numbered lines, up to the first that is at fault. -/
def ofLines : List (List Char × Nat) → Except LineError (List (DebuggerRow × Nat))
  | [] => .ok []
  | (cs, n) :: rest =>
      match ofLine cs with
      | .error fault => .error ⟨n, fault⟩
      | .ok row? => (ofLines rest).map ((row?.map fun row => (row, n)).toList ++ ·)

/-- The registers of a table, each with the line it stands in. -/
def ofText (cs : List Char) : Except LineError (List (DebuggerRow × Nat)) :=
  ofLines ((lines cs).zipIdx 1)

def print (row : DebuggerRow) : List Char :=
  ['\t'].intercalate
    [row.kind.keyword.toList, row.name, '.' :: decimal row.bits, decimal row.offset, ['0']]

end DebuggerRow

namespace Profile

def textOfDebuggerRows (cs : List Char) : Except LineError (List Char) :=
  (DebuggerRow.ofText cs).map fun rows => rows.flatMap fun row => row.1.print ++ ['\n']

def ofDebuggerRows (cs : List Char) : Except LineError Profile :=
  match DebuggerRow.ofText cs with
  | .error e => .error e
  | .ok rows => ofLines (rows.map fun row => (row.1.print, row.2))

end Profile
end MachineRegisters
