import MachineRegisters.Proofs.Stepwise.Steps
import MachineRegisters.Proofs.TableText

/-! # Profiles, step by step

The fields of a definition are taken from its line by their positions, after the line has
been asked how many there are.  A debugger's table is read as the text of its rows, and a
fault in a line of that text is reported with the line of the table that is looked up for
it.  So every text is read, or refused, without a step that fails (`parse_eq`,
`ofDebuggerRows_eq`). -/
set_option autoImplicit false
namespace MachineRegisters.Stepwise
open Text

def readLane (tokens : List (List Char)) : Option (Nat × List (List Char)) :=
  match tokens.head? with
  | none => some (0, tokens)
  | some token =>
      match Profile.readSize? token with
      | none => some (0, tokens)
      | some lane => do
          let rest ← piece tokens 1 tokens.length
          return (lane, rest)

def readDefinition (cs : List Char) : Option (Except LineFault Definition) :=
  let parts := cut '#' cs
  let tokens := words parts.1
  if tokens.length < 4 then some (.error (.tooFewFields tokens.length))
  else do
    let classText ← tokens[0]?
    match Profile.readClass classText with
    | .error fault => some (.error fault)
    | .ok (kind, bank) => do
        let name ← tokens[1]?
        let sizeText ← tokens[2]?
        match Profile.readWidth name sizeText with
        | .error fault => some (.error fault)
        | .ok size => do
            let placeText ← tokens[3]?
            match Profile.readPlace placeText with
            | .error fault => some (.error fault)
            | .ok offset => do
                let more ← piece tokens 4 tokens.length
                let (lane, rest) ← readLane more
                return (Profile.readMarks rest).map fun flags =>
                  ⟨kind, bank, String.ofList name, size, lane, offset, Profile.readComment parts.2, flags⟩

def readLine (cs : List Char) : Option (Except LineFault Profile) :=
  match trim cs with
  | [] => some (.ok Profile.empty)
  | '#' :: _ => some (.ok Profile.empty)
  | '=' :: rest => some ((Profile.readBinding rest).map fun b => ⟨[b], []⟩)
  | line => do
      let read ← readDefinition line
      return read.map fun d => ⟨[], [d]⟩

def ofLines : List (List Char × Nat) → Option (Except LineError Profile)
  | [] => some (.ok Profile.empty)
  | (cs, n) :: rest => do
      match ← readLine cs with
      | .error fault => some (.error ⟨n, fault⟩)
      | .ok p => do
          match ← ofLines rest with
          | .error e => some (.error e)
          | .ok q => some (.ok (p ++ q))

def parse (cs : List Char) : Option (Except LineError Profile) := ofLines ((lines cs).zipIdx 1)

def ofDebuggerRows (cs : List Char) : Option (Except LineError Profile) :=
  match DebuggerRow.ofText cs with
  | .error e => some (.error e)
  | .ok rows => do
      let read ← parse (rows.flatMap fun row => row.1.print ++ ['\n'])
      return read.mapError fun e => { e with line := DebuggerRow.sourceLine rows e.line }

theorem piece_rest {α : Type} (front rest : List α) :
    piece (front ++ rest) front.length (front ++ rest).length = some rest := by
  rw [piece_eq (by simp) (Nat.le_refl _)]
  simp

theorem readLane_eq (tokens : List (List Char)) : readLane tokens = some (Profile.readLane tokens) := by
  cases tokens with
  | nil => rfl
  | cons token rest =>
      have tail : piece (token :: rest) 1 (token :: rest).length = some rest := piece_rest [token] rest
      simp only [readLane, List.head?_cons, Profile.readLane]
      cases Profile.readSize? token with
      | none => rfl
      | some lane => simp only [tail, Option.bind_eq_bind, Option.bind_some, Option.pure_def]

theorem readDefinition_eq (cs : List Char) : readDefinition cs = some (Profile.readDefinition cs) := by
  simp only [readDefinition, Profile.readDefinition]
  generalize words (cut '#' cs).1 = tokens
  rcases tokens with _ | ⟨classText, _ | ⟨name, _ | ⟨sizeText, _ | ⟨placeText, more⟩⟩⟩⟩
  · rfl
  · rfl
  · rfl
  · rfl
  · have enough : ¬(classText :: name :: sizeText :: placeText :: more).length < 4 := by simp
    have tail : piece (classText :: name :: sizeText :: placeText :: more) 4
        (classText :: name :: sizeText :: placeText :: more).length = some more :=
      piece_rest [classText, name, sizeText, placeText] more
    simp only [if_neg enough, List.getElem?_cons_zero, List.getElem?_cons_succ, tail, readLane_eq,
      Option.bind_some, Option.pure_def, bind, Except.bind]
    cases Profile.readClass classText with
    | error fault => rfl
    | ok found =>
        cases Profile.readWidth name sizeText with
        | error fault => rfl
        | ok size =>
            cases Profile.readPlace placeText with
            | error fault => rfl
            | ok offset =>
                obtain ⟨lane, rest⟩ := Profile.readLane more
                cases Profile.readMarks rest <;> rfl

theorem readLine_eq (cs : List Char) : readLine cs = some (Profile.readLine cs) := by
  cases line : trim cs with
  | nil => rw [readLine, Profile.readLine, line]
  | cons c rest =>
      by_cases comment : c = '#'
      · subst comment
        rw [readLine, Profile.readLine, line]
        rfl
      · by_cases binding : c = '='
        · subst binding
          rw [readLine, Profile.readLine, line]
          rfl
        · rw [Profile.readLine_of_trim line comment binding, readLine, line]
          split
          · contradiction
          · rename_i same
            cases same
            exact absurd rfl comment
          · rename_i same
            cases same
            exact absurd rfl binding
          · rw [readDefinition_eq]
            rfl

theorem ofLines_eq (numbered : List (List Char × Nat)) : ofLines numbered = some (Profile.ofLines numbered) := by
  induction numbered with
  | nil => rfl
  | cons line rest ih =>
      obtain ⟨cs, n⟩ := line
      simp only [ofLines, Profile.ofLines, readLine_eq, ih, Option.bind_eq_bind, Option.bind_some]
      cases Profile.readLine cs with
      | error fault => rfl
      | ok p =>
          cases Profile.ofLines rest with
          | error e => rfl
          | ok q => rfl

theorem parse_eq (cs : List Char) : parse cs = some (Profile.parse cs) :=
  ofLines_eq _

theorem ofDebuggerRows_eq (cs : List Char) : ofDebuggerRows cs = some (Profile.ofDebuggerRows cs) := by
  cases read : DebuggerRow.ofText cs with
  | error e => simp only [ofDebuggerRows, Profile.ofDebuggerRows, read]
  | ok rows =>
      simp only [ofDebuggerRows, read, parse_eq, Option.bind_eq_bind, Option.bind_some, Option.pure_def,
        Profile.ofDebuggerRows_of_text read]

end MachineRegisters.Stepwise
