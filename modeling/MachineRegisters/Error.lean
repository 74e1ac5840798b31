import MachineRegisters.Condition
import MachineRegisters.Text.Quotation

/-! # Errors

Why an operation is refused.  Each cause is a value of its own; the wording is
in the `message` functions alone.  `inspected` shows an error as a record, with
its texts in quotation marks. -/
set_option autoImplicit false
namespace MachineRegisters

inductive LineFault where
  | bindingShape
  | unknownRole (token : String)
  | tooFewFields (found : Nat)
  | unknownClass (token : String)
  | unknownBank (token : String)
  | badSize (token : String)
  | zeroSize (register : String)
  | badOffset (token : String)
  | trailingField (token : String)
  | tooFewColumns (found : Nat)
  | sizeTooLarge (bytes : Nat)
  | badHexDigit (digit : Char)
  | oddHexDigits
  deriving DecidableEq, Repr

/-- A fault together with the line that has it; lines count from 1. -/
structure LineError where
  line : Nat
  fault : LineFault
  deriving DecidableEq, Repr

inductive Missing where
  | classKeyword (text : String)
  | roleToken (text : String)
  | conditionKeyword (text : String)
  | registerNamed (name : String)
  | registerFor (role : Role)
  deriving DecidableEq, Repr

inductive RegisterError where
  | badLine (error : LineError)
  | layoutOverflow (register : String)
  | notFound (what : Missing)
  | sizeMismatch (expected actual : Nat)
  | readOnly (register : String)
  | conditionUnresolved (condition : Condition)
  | flagsUnresolved
  deriving DecidableEq, Repr

namespace LineFault

def message : LineFault → String
  | bindingShape => "Expected '=<ROLE> <register>'"
  | unknownRole token => s!"Unknown register role '{token}'"
  | tooFewFields found =>
      "Expected '<type> <name> <size> <offset> [packed] [flags]' but found " ++
        String.ofList (Text.decimal found) ++ " fields"
  | unknownClass token => s!"Unknown register type '{token}'"
  | unknownBank token => s!"Unknown arena type '{token}'"
  | badSize token => s!"Invalid size '{token}'"
  | zeroSize register => s!"Register '{register}' has zero size"
  | badOffset token => s!"Invalid offset '{token}'"
  | trailingField token => s!"Unexpected trailing field '{token}'"
  | tooFewColumns found =>
      "Expected 'name nr rel offset size type' but found " ++
        String.ofList (Text.decimal found) ++ " fields"
  | sizeTooLarge bytes => "Size " ++ String.ofList (Text.decimal bytes) ++ " too large"
  | badHexDigit digit => "Invalid hex digit '" ++ String.singleton digit ++ "'"
  | oddHexDigits => "Odd number of hex digits"

end LineFault

namespace Missing

def message : Missing → String
  | classKeyword text => s!"register type '{text}'"
  | roleToken text => s!"register role '{text}'"
  | conditionKeyword text => s!"condition '{text}'"
  | registerNamed name => s!"register '{name}'"
  | registerFor role => "register for role " ++ role.token

end Missing

namespace RegisterError

def unresolved (what : String) : String :=
  s!"Condition {what} cannot be resolved: flag bits are missing"

def message : RegisterError → String
  | badLine error =>
      "Profile parse error at line " ++ String.ofList (Text.decimal error.line) ++ ": " ++
        error.fault.message
  | layoutOverflow register => s!"Layout overflow while placing register {register}"
  | notFound what => "Not found: " ++ what.message
  | sizeMismatch expected actual =>
      "Size mismatch: expected " ++ String.ofList (Text.decimal expected) ++ ", got " ++
        String.ofList (Text.decimal actual)
  | readOnly register => s!"Register {register} is read-only"
  | conditionUnresolved condition => unresolved condition.keyword
  | flagsUnresolved => unresolved "flags"

def shownRecord (name : String) (fields : List (String × String)) : String :=
  name ++ " \x7b " ++ ", ".intercalate (fields.map fun field => field.1 ++ ": " ++ field.2) ++ " \x7d"

def inspected : RegisterError → String
  | badLine error =>
      shownRecord "Parse"
        [("line", String.ofList (Text.decimal error.line)), ("reason", Text.quoted error.fault.message)]
  | layoutOverflow register => shownRecord "LayoutOverflow" [("name", Text.quoted register)]
  | notFound what => shownRecord "NotFound" [("what", Text.quoted what.message)]
  | sizeMismatch expected actual =>
      shownRecord "SizeMismatch"
        [("expected", String.ofList (Text.decimal expected)), ("actual", String.ofList (Text.decimal actual))]
  | readOnly register => shownRecord "ReadOnly" [("name", Text.quoted register)]
  | conditionUnresolved condition =>
      shownRecord "ConditionUnresolved" [("condition", Text.quoted condition.keyword)]
  | flagsUnresolved => shownRecord "ConditionUnresolved" [("condition", Text.quoted "flags")]

end RegisterError
end MachineRegisters
