import MachineRegisters.Text.Numeral

/-! # Quotation

A text between quotation marks on one line.  Quotation marks, backslashes and
control characters are escaped; what lies behind Latin-1 stands for itself. -/
set_option autoImplicit false
namespace MachineRegisters.Text

/-- A control character, the soft hyphen or the blank that does not break. -/
def isUnprinted (c : Char) : Bool :=
  let n := c.toNat
  n < 0x20 || (0x7F ≤ n && n ≤ 0xA0) || n == 0xAD

def quotedChar (c : Char) : List Char :=
  match c with
  | '\x00' => ['\\', '0']
  | '\t' => ['\\', 't']
  | '\n' => ['\\', 'n']
  | '\r' => ['\\', 'r']
  | '\"' => ['\\', '\"']
  | '\\' => ['\\', '\\']
  | _ =>
      if isUnprinted c then ['\\', 'u', '\x7b'] ++ Nat.toDigits 16 c.toNat ++ ['\x7d']
      else [c]

def quoted (text : String) : String :=
  String.ofList ('\"' :: text.toList.flatMap quotedChar ++ ['\"'])

theorem noFeed_quotedChar (c : Char) : '\n' ∉ quotedChar c := by
  have digits : ∀ n ≤ 0xAD, '\n' ∉ Nat.toDigits 16 n := by decide +kernel
  unfold quotedChar
  split
  case h_7 _ _ noFeed _ _ _ =>
    split
    · rename_i unprinted
      have low : c.toNat ≤ 0xAD := by
        simp only [isUnprinted, Bool.or_eq_true, Bool.and_eq_true, decide_eq_true_eq, beq_iff_eq] at unprinted
        omega
      simp [digits c.toNat low]
    · have apart : '\n' ≠ c := fun same => noFeed same.symm
      simp [apart]
  all_goals decide

/-- A quoted text stands on one line. -/
theorem noFeed_quoted (text : String) : '\n' ∉ (quoted text).toList := by
  simp [quoted, noFeed_quotedChar]

example : quoted "a\t\"b\x1b" = "\"a\\t\\\"b\\u\x7b1b\x7d\"" := by decide

end MachineRegisters.Text
