import MachineRegisters.Error
import MachineRegisters.Profile.Basic
import MachineRegisters.Text.Words

/-! # Reading profiles

A profile is read line by line.  Blank lines and lines that begin with `#` say
nothing; a line that begins with `=` binds a role; every other line defines a
register.  The first line at fault is reported with its number, so that reading
one text after another is reading the two one after the other
(`ofLines_append`). -/
set_option autoImplicit false
namespace MachineRegisters.Profile
open Text

/-- A number in decimal digits, or after `0x` in hexadecimal ones. -/
def readNumber? : List Char → Option Nat
  | '0' :: 'x' :: cs => (plusDigits? 16 cs).bind fits32
  | '0' :: 'X' :: cs => (plusDigits? 16 cs).bind fits32
  | cs => (digits? 10 cs).bind fits32

/-- A number of bytes, in bits. -/
def readBytes? (cs : List Char) : Option Nat := (readNumber? cs).bind fun n => fits32 (8 * n)

/-- A size: bits after a point, else bytes. -/
def readSize? : List Char → Option Nat
  | '.' :: cs => readNumber? cs
  | cs => readBytes? cs

/-- An offset: bits after a point, bytes before one, or both. -/
def readOffset? : List Char → Option Nat
  | '.' :: cs => readNumber? cs
  | cs =>
      match cut '.' cs with
      | (bytes, none) => readBytes? bytes
      | (bytes, some bits) =>
          (readBytes? bytes).bind fun n => (readNumber? bits).bind fun b => fits32 (n + b)

/-- A class, alone or with the bank that holds its registers. -/
def readClass (cs : List Char) : Except LineFault (RegClass × RegClass) :=
  let parts := cut '@' cs
  match RegClass.ofKeyword? parts.1 with
  | none => .error (.unknownClass (String.ofList parts.1))
  | some kind =>
      match parts.2 with
      | none => .ok (kind, kind.home)
      | some bankText =>
          match RegClass.ofKeyword? bankText with
          | none => .error (.unknownBank (String.ofList bankText))
          | some bank => .ok (kind, bank)

def readWidth (name cs : List Char) : Except LineFault Nat :=
  match readSize? cs with
  | none => .error (.badSize (String.ofList cs))
  | some size => if size = 0 then .error (.zeroSize (String.ofList name)) else .ok size

/-- The place of a register, or a question mark for the next free one. -/
def readPlace (cs : List Char) : Except LineFault (Option Nat) :=
  if cs = ['?'] then .ok none
  else
    match readOffset? cs with
    | none => .error (.badOffset (String.ofList cs))
    | some offset => .ok (some offset)

/-- The lane width, if the next field is a size, and the fields after it. -/
def readLane : List (List Char) → Nat × List (List Char)
  | [] => (0, [])
  | cs :: rest =>
      match readSize? cs with
      | none => (0, cs :: rest)
      | some lane => (lane, rest)

def readMarks : List (List Char) → Except LineFault (Option String)
  | [] => .ok none
  | [marks] => .ok (some (String.ofList marks))
  | _ :: extra :: _ => .error (.trailingField (String.ofList extra))

def readComment (after : Option (List Char)) : Option String :=
  match after with
  | none => none
  | some cs => if trim cs = [] then none else some (String.ofList (trim cs))

/-- A binding without its `=`. -/
def readBinding (cs : List Char) : Except LineFault Binding :=
  match words (cut '#' cs).1 with
  | [token, register] =>
      match Role.ofToken? token with
      | none => .error (.unknownRole (String.ofList token))
      | some role => .ok ⟨role, String.ofList token, String.ofList register⟩
  | _ => .error .bindingShape

def readDefinition (cs : List Char) : Except LineFault Definition :=
  let parts := cut '#' cs
  match words parts.1 with
  | classText :: name :: sizeText :: placeText :: more => do
      let (kind, bank) ← readClass classText
      let size ← readWidth name sizeText
      let offset ← readPlace placeText
      let (lane, rest) := readLane more
      let flags ← readMarks rest
      .ok ⟨kind, bank, String.ofList name, size, lane, offset, readComment parts.2, flags⟩
  | fields => .error (.tooFewFields fields.length)

def readLine (cs : List Char) : Except LineFault Profile :=
  match trim cs with
  | [] => .ok empty
  | '#' :: _ => .ok empty
  | '=' :: rest => (readBinding rest).map fun b => ⟨[b], []⟩
  | line => (readDefinition line).map fun d => ⟨[], [d]⟩

def ofLines : List (List Char × Nat) → Except LineError Profile
  | [] => .ok empty
  | (cs, n) :: rest =>
      match readLine cs with
      | .error fault => .error ⟨n, fault⟩
      | .ok p =>
          match ofLines rest with
          | .error e => .error e
          | .ok q => .ok (p ++ q)

def parse (cs : List Char) : Except LineError Profile := ofLines ((lines cs).zipIdx 1)

theorem bind_eq_ok_iff {ε α β : Type} {x : Except ε α} {next : α → Except ε β} {b : β} :
    x >>= next = .ok b ↔ ∃ a, x = .ok a ∧ next a = .ok b := by
  cases x with
  | error e => simp [bind, Except.bind]
  | ok a => simp [bind, Except.bind]

/-- What the fields of a line have to be for it to be read as a definition. -/
theorem readDefinition_eq_ok_iff {cs : List Char} {d : Definition} :
    readDefinition cs = .ok d ↔
      ∃ classText name sizeText placeText more,
        words (cut '#' cs).1 = classText :: name :: sizeText :: placeText :: more ∧
          readClass classText = .ok (d.kind, d.bank) ∧ readWidth name sizeText = .ok d.size ∧
          readPlace placeText = .ok d.offset ∧ readMarks (readLane more).2 = .ok d.flags ∧
          d.name = String.ofList name ∧ d.lane = (readLane more).1 ∧
          d.comment = readComment (cut '#' cs).2 := by
  constructor
  · intro read
    simp only [readDefinition] at read
    split at read
    · rename_i classText name sizeText placeText more fields
      simp only [bind_eq_ok_iff, Prod.exists] at read
      obtain ⟨kind, bank, classRead, size, widthRead, place, placeRead, marks, marksRead, made⟩ := read
      cases made
      exact ⟨classText, name, sizeText, placeText, more, fields, classRead, widthRead, placeRead,
        marksRead, rfl, rfl, rfl⟩
    · cases read
  · rintro ⟨classText, name, sizeText, placeText, more, fields, classRead, widthRead, placeRead,
      marksRead, named, lane, comment⟩
    simp only [readDefinition, fields, classRead, widthRead, placeRead, marksRead, bind, Except.bind]
    rw [← named, ← lane, ← comment]

theorem ofLines_append (as bs : List (List Char × Nat)) :
    ofLines (as ++ bs) =
      match ofLines as with
      | .error e => .error e
      | .ok p =>
          match ofLines bs with
          | .error e => .error e
          | .ok q => .ok (p ++ q) := by
  induction as with
  | nil =>
      simp only [List.nil_append, ofLines, empty_append]
      cases ofLines bs <;> rfl
  | cons numbered rest ih =>
      obtain ⟨cs, n⟩ := numbered
      simp only [List.cons_append, ofLines, ih]
      cases readLine cs with
      | error fault => rfl
      | ok p =>
          cases ofLines rest with
          | error e => rfl
          | ok q =>
              cases ofLines bs with
              | error e => rfl
              | ok r => simp [append_assoc]

theorem ofLines_append_blank (numbered : List (List Char × Nat)) (n : Nat) :
    ofLines (numbered ++ [([], n)]) = ofLines numbered := by
  have nothing : ofLines [([], n)] = .ok empty := rfl
  rw [ofLines_append, nothing]
  cases ofLines numbered with
  | error e => rfl
  | ok p => simp only [append_empty]

end MachineRegisters.Profile
