import MachineRegisters.Bits
import MachineRegisters.Error
import MachineRegisters.Text.Blank

/-! # Hexadecimal byte strings

`hex` writes two digits for each byte.  `readHex` reads them back in either case,
with blanks anywhere and marks of the base in front (`readPairs_digitPairs`). -/
set_option autoImplicit false
namespace MachineRegisters.Text

/-- The digits of each byte, the higher before the lower. -/
def digitPairs (bs : Bytes) : List Nat := bs.flatMap fun b => [b.toNat / 16, b.toNat % 16]

def hex (bs : Bytes) : List Char := (digitPairs bs).map Nat.digitChar

/-- A register value in hexadecimal: all digits of its bytes, or one zero if it has no bits. -/
def hexValue {w : Nat} (v : BitVec w) : List Char :=
  '0' :: 'x' :: (if w = 0 then ['0'] else hex (Bits.imageHighFirst v))

/-- The bytes that pairs of digits denote, if there is no odd digit. -/
def readPairs : List Nat → Option Bytes
  | [] => some []
  | [_] => none
  | high :: low :: rest => (readPairs rest).map (UInt8.ofNat (16 * high + low) :: ·)

def dropBaseMarks : List Char → List Char
  | '0' :: 'x' :: rest => dropBaseMarks rest
  | cs => cs

def digitValues : List Char → Except LineFault (List Nat)
  | [] => .ok []
  | c :: rest =>
      match digitValue? c with
      | none => .error (.badHexDigit c)
      | some d => (digitValues rest).map (d :: ·)

def readHex (cs : List Char) : Except LineFault Bytes :=
  match digitValues ((dropBaseMarks (trim cs)).filter fun c => !isBlank c) with
  | .error fault => .error fault
  | .ok digits =>
      match readPairs digits with
      | none => .error .oddHexDigits
      | some bs => .ok bs

theorem readPairs_digitPairs (bs : Bytes) : readPairs (digitPairs bs) = some bs := by
  induction bs with
  | nil => rfl
  | cons b rest ih =>
      have whole : UInt8.ofNat (16 * (b.toNat / 16) + b.toNat % 16) = b := by
        rw [Nat.div_add_mod, UInt8.ofNat_toNat]
      simp only [digitPairs, List.flatMap_cons, List.cons_append, List.nil_append, readPairs]
      rw [show readPairs (rest.flatMap fun b => [b.toNat / 16, b.toNat % 16]) = some rest from ih, whole]
      rfl

end MachineRegisters.Text
