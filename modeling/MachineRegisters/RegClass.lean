import MachineRegisters.TotalMap
import MachineRegisters.Text.Keyword

/-! # Register classes

Every register belongs to a class, and every class owns one storage bank.  A
register is kept in the bank of its own class unless a profile names another;
flag bits are kept beside the general purpose registers. -/
set_option autoImplicit false
namespace MachineRegisters

inductive RegClass where
  | general
  | debug
  | float
  | mmx
  | xmm
  | ymm
  | flag
  | segment
  | system
  | security
  | vector
  | vectorControl
  | control
  deriving DecidableEq, Repr

namespace RegClass

def all : List RegClass :=
  [general, debug, float, mmx, xmm, ymm, flag, segment, system, security, vector, vectorControl, control]

instance : Listed RegClass where
  all := all
  nodup_all := by decide
  mem_all := by intro c; cases c <;> decide

def keyword : RegClass → String
  | general => "gpr"
  | debug => "drx"
  | float => "fpu"
  | mmx => "mmx"
  | xmm => "xmm"
  | ymm => "ymm"
  | flag => "flg"
  | segment => "seg"
  | system => "sys"
  | security => "sec"
  | vector => "vc"
  | vectorControl => "vcc"
  | control => "ctr"

def ofKeyword? (text : List Char) : Option RegClass := Text.findKeyword keyword all text

def ofNumber? (n : Nat) : Option RegClass := all[n]?

/-- The bank that holds a register of this class when its definition names none. -/
def home : RegClass → RegClass
  | flag => general
  | c => c

def maskBit (c : RegClass) : Nat := 1 <<< Listed.number c

theorem ofKeyword?_keyword (c : RegClass) : ofKeyword? c.keyword.toList = some c := by
  cases c <;> decide

theorem ofNumber?_number (c : RegClass) : ofNumber? (Listed.number c) = some c := by
  cases c <;> decide

end RegClass
end MachineRegisters
