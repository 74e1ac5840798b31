import MachineRegisters.Listing

/-! # The command

The command reads the description of an architecture and prints the listing of
its machine.  A description at fault gives a message, status one and no listing.
The settings of the machine have no part in the listing.

Its arguments may stand in any order, each at most once.  The value of an option
is the next argument, or follows an equals sign; what stands behind two dashes
names the file with the description. -/
set_option autoImplicit false
namespace MachineRegisters

structure Command where
  /-- The description is a debugger's table and not a profile. -/
  debuggerRows : Bool := false
  /-- Leave out registers that lie inside others. -/
  uncoveredOnly : Bool := false
  config : Config := {}
  deriving DecidableEq, Repr

structure CommandResult where
  status : Nat
  output : String
  message : Option String
  deriving DecidableEq, Repr

namespace Command

def load (c : Command) (description : String) : Outcome Unit :=
  if c.debuggerRows then (Machine.empty c.config).installDebuggerRows description
  else (Machine.empty c.config).install description

def run (c : Command) (description : String) : CommandResult :=
  let loaded := c.load description
  match loaded.answer with
  | .error e => ⟨1, "", some e.inspected⟩
  | .ok () => ⟨0, String.ofList (loaded.machine.listing c.uncoveredOnly), none⟩

end Command

/-! ## Arguments -/

structure Arguments where
  debuggerRows : Bool := false
  uncoveredOnly : Bool := false
  highFirst : Bool := false
  wordBits : Option Nat := none
  /-- Which events are logged, and so nothing that the listing depends on. -/
  logFilter : Option String := none
  /-- The file with the description; without one it is read from standard input. -/
  input : Option String := none
  deriving DecidableEq, Repr

namespace Arguments

/-- A number of 32 bits, which may have a sign. -/
def readWordBits? : List Char → Option Nat
  | '-' :: cs => (Text.digits? 10 cs).filter (· = 0)
  | cs => (Text.plusDigits? 10 cs).bind Text.fits32

def setWordBits? (a : Arguments) (value : String) : Option Arguments :=
  if a.wordBits.isSome then none
  else (readWordBits? value.toList).map fun bits => { a with wordBits := some bits }

def setLogFilter? (a : Arguments) (value : String) : Option Arguments :=
  if a.logFilter.isSome then none else some { a with logFilter := some value }

def setInput? (a : Arguments) (path : String) : Option Arguments :=
  if a.input.isSome ∨ path = "" then none else some { a with input := some path }

/-- The options that stand alone. -/
def flag? : String → Option (Arguments → Option Arguments)
  | "--gdb" => some fun a => if a.debuggerRows then none else some { a with debuggerRows := true }
  | "--covered" => some fun a => if a.uncoveredOnly then none else some { a with uncoveredOnly := true }
  | "--big-endian" => some fun a => if a.highFirst then none else some { a with highFirst := true }
  | _ => none

/-- The options that have a value. -/
def valued? : String → Option (Arguments → String → Option Arguments)
  | "--bits" => some setWordBits?
  | "--log" => some setLogFilter?
  | _ => none

def joined? (text : String) : Option (Arguments → Option Arguments) :=
  match Text.cut '=' text.toList with
  | (name, some value) => (valued? (String.ofList name)).map fun set a => set a (String.ofList value)
  | (_, none) => none

/-- A dash alone is no option. -/
def isOption (text : String) : Bool := text.toList.head? == some '-' && text != "-"

/-- What an argument says that does not look for its value in the next one. -/
def single? (text : String) (a : Arguments) : Option Arguments :=
  match (flag? text).or (joined? text) with
  | some set => set a
  | none => if isOption text then none else a.setInput? text

def read? : Arguments → List String → Option Arguments
  | a, [] => some a
  | a, text :: rest =>
      if text = "--" then rest.foldlM setInput? a
      else
        match valued? text, rest with
        | none, rest => (single? text a).bind fun b => b.read? rest
        | some _, [] => none
        | some set, value :: others =>
            if isOption value then none else (set a value).bind fun b => b.read? others

def command (a : Arguments) : Command where
  debuggerRows := a.debuggerRows
  uncoveredOnly := a.uncoveredOnly
  config := { wordBits := a.wordBits.getD 64, byteOrder := if a.highFirst then .highFirst else .lowFirst }

/-- The value of an option may be an argument of its own or follow an equals sign. -/
theorem read?_joined {name value : String} {set : Arguments → String → Option Arguments}
    (known : valued? name = some set) (plain : isOption value = false) (a : Arguments) (rest : List String) :
    a.read? ((name ++ "=" ++ value) :: rest) = a.read? (name :: value :: rest) := by
  have named : name = "--bits" ∨ name = "--log" := by
    unfold valued? at known
    split at known
    · exact .inl rfl
    · exact .inr rfl
    · cases known
  have parts : Text.cut '=' (name ++ "=" ++ value).toList = (name.toList, some value.toList) := by
    rcases named with rfl | rfl <;> simp [Text.cut]
  have other : ∀ word : String, '=' ∉ word.toList → name ++ "=" ++ value ≠ word := by
    rintro word unmarked rfl
    exact unmarked (by simp)
  have noFlag : flag? (name ++ "=" ++ value) = none := by
    unfold flag?
    split
    · exact absurd ‹_› (other _ (by decide))
    · exact absurd ‹_› (other _ (by decide))
    · exact absurd ‹_› (other _ (by decide))
    · rfl
  have noValue : valued? (name ++ "=" ++ value) = none := by
    unfold valued?
    split
    · exact absurd ‹_› (other _ (by decide))
    · exact absurd ‹_› (other _ (by decide))
    · rfl
  have single : single? (name ++ "=" ++ value) a = set a value := by
    rw [single?, noFlag, Option.none_or, joined?, parts]
    simp only [String.ofList_toList, known, Option.map_some]
  have noDashes : name ≠ "--" := by
    rcases named with rfl | rfl <;> decide
  rw [read?.eq_def, read?.eq_def a (name :: value :: rest)]
  simp only [if_neg (other "--" (by decide)), if_neg noDashes, noValue, known, single, plain,
    if_neg Bool.false_ne_true]

example : read? {} ["--bits=32", "--log", "trace", "--gdb", "table"] =
    some { debuggerRows := true, wordBits := some 32, logFilter := some "trace", input := some "table" } := by
  decide +kernel

end Arguments
end MachineRegisters
