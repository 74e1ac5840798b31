import MachineRegisters.Command
import MachineRegisters.Proofs.FirstFaults
import MachineRegisters.Proofs.RoundTrip
import Mathlib.Data.List.Basic

/-! # A table and the text made of it

A debugger's table and the text of a profile that is made of it are read alike, but that the
line at fault is looked up among the rows of the table (`ofDebuggerRows_of_text`).  So
machines that take over the one and the other have the same profile and registers with the
same storage (`Alike`), and the command lists the same for both (`table_and_text`). -/
set_option autoImplicit false
namespace MachineRegisters
open Text

namespace DebuggerRow

/-- The number of the table's line that line `n` of the text is made of; a line that the text lacks
keeps its number. -/
def sourceLine (rows : List (DebuggerRow × Nat)) : Nat → Nat
  | 0 => 0
  | n + 1 => ((rows[n]?).map Prod.snd).getD (n + 1)

theorem map_print_eq (rows : List (DebuggerRow × Nat)) :
    rows.map (fun row => (row.1.print, row.2)) =
      ((rows.map fun row => row.1.print).zipIdx 1).map fun line => (line.1, sourceLine rows line.2) := by
  apply List.ext_getElem
  · simp
  · intro i inRows _
    have inside : i < rows.length := by simpa using inRows
    simp [Nat.add_comm 1 i, sourceLine, List.getElem?_eq_getElem inside]

end DebuggerRow

namespace Profile
variable {cs text : List Char} {rows : List (DebuggerRow × Nat)}

theorem exists_rows_of_text (made : textOfDebuggerRows cs = .ok text) :
    ∃ rows, DebuggerRow.ofText cs = .ok rows ∧ text = rows.flatMap fun row => row.1.print ++ ['\n'] := by
  unfold textOfDebuggerRows at made
  cases read : DebuggerRow.ofText cs with
  | error e => simp [read, Except.map] at made
  | ok rows =>
      rw [read] at made
      exact ⟨rows, rfl, (Except.ok.inj made).symm⟩

/-- A table is read as the text of its rows, with the line at fault looked up among the rows. -/
theorem ofDebuggerRows_of_text (read : DebuggerRow.ofText cs = .ok rows) :
    ofDebuggerRows cs = (parse (rows.flatMap fun row => row.1.print ++ ['\n'])).mapError fun e =>
      { e with line := DebuggerRow.sourceLine rows e.line } := by
  have single : ∀ line ∈ rows.map (fun row => row.1.print), '\n' ∉ line := by
    intro line member
    obtain ⟨row, inRows, rfl⟩ := List.mem_map.mp member
    exact DebuggerRow.noFeed_print (DebuggerRow.isWord_name_of_ofLines read row inRows)
  have whole : (rows.flatMap fun row => row.1.print ++ ['\n']) =
      (rows.map fun row => row.1.print).flatMap fun line => line ++ ['\n'] := by
    rw [List.flatMap_map]
  have parsed : parse (rows.flatMap fun row => row.1.print ++ ['\n']) =
      ofLines ((rows.map fun row => row.1.print).zipIdx 1) := by
    rw [parse, whole, lines_flatMap single, List.zipIdx_append, List.zipIdx_singleton, ofLines_append_blank]
  rw [parsed, ← ofLines_renumber, ← DebuggerRow.map_print_eq, ofDebuggerRows, read]

end Profile

namespace Machine
variable {m n : Machine}

/-- The machines differ in nothing but the text that they keep and in their settings. -/
structure Alike (m n : Machine) : Prop where
  profile : m.profile = n.profile
  bindings : m.bindings = n.bindings
  registers : m.registers = n.registers
  catalogs : m.catalogs = n.catalogs
  banks : m.banks = n.banks
  cursors : m.cursors = n.cursors
  readOnly : m.readOnly = n.readOnly

theorem Alike.listing (alike : Alike m n) (uncoveredOnly : Bool) :
    m.listing uncoveredOnly = n.listing uncoveredOnly := by
  obtain ⟨config, installed, bindings, registers, catalogs, banks, cursors, readOnly⟩ := m
  obtain ⟨-, sameBindings, sameRegisters, sameCatalogs, sameBanks, sameCursors, sameReadOnly⟩ := alike
  simp only at sameBindings sameRegisters sameCatalogs sameBanks sameCursors sameReadOnly
  subst sameBindings sameRegisters sameCatalogs sameBanks sameCursors sameReadOnly
  rfl

/-- Both operations are refused, or both are done and leave machines that are alike. -/
inductive Agree (o o' : Outcome Unit) : Prop
  | refused {e e' : RegisterError} (first : o.answer = .error e) (second : o'.answer = .error e')
  | done (first : o.answer = .ok ()) (second : o'.answer = .ok ()) (alike : Alike o.machine o'.machine)

theorem agree_adopt (config config' : Config) (text text' : String) (p : Profile) :
    Agree ((empty config).adopt text p) ((empty config').adopt text' p) := by
  unfold adopt
  cases p.layout with
  | error e => exact .refused rfl rfl
  | ok rs => exact .done rfl rfl ⟨rfl, rfl, rfl, rfl, rfl, rfl, rfl⟩

theorem install_empty (config : Config) (text : String) : (empty config).install text =
    match Profile.parse text.toList with
    | .error e => .refused (.badLine e) (empty config)
    | .ok p => (empty config).adopt text p := rfl

theorem installDebuggerRows_empty (config : Config) (table : String) : (empty config).installDebuggerRows table =
    match Profile.ofDebuggerRows table.toList with
    | .error e => .refused (.badLine e) (empty config)
    | .ok p => (empty config).adopt (String.ofList p.print) p := rfl

theorem agree_of_text {table : String} {text : List Char}
    (made : Profile.textOfDebuggerRows table.toList = .ok text) (config : Config) :
    Agree ((empty config).installDebuggerRows table) ((empty config).install (String.ofList text)) := by
  obtain ⟨rows, read, rfl⟩ := Profile.exists_rows_of_text made
  rw [installDebuggerRows_empty, install_empty, String.toList_ofList, Profile.ofDebuggerRows_of_text read]
  cases Profile.parse (rows.flatMap fun row => row.1.print ++ ['\n']) with
  | error e => exact .refused rfl rfl
  | ok p => exact agree_adopt config config (String.ofList p.print) _ p

/-- The text that is kept for a table describes the same machine once more. -/
theorem agree_of_kept {table : String} {config : Config}
    (installed : ((empty config).installDebuggerRows table).answer = .ok ()) (config' : Config) :
    ∃ text, ((empty config).installDebuggerRows table).machine.profileText = some text ∧
      Agree ((empty config).installDebuggerRows table) ((empty config').install text) := by
  rw [installDebuggerRows_empty] at installed ⊢
  cases read : Profile.ofDebuggerRows table.toList with
  | error e => simp [read] at installed
  | ok p =>
      have readBack : Profile.parse (String.ofList p.print).toList = .ok p := by
        rw [String.toList_ofList]
        exact Profile.parse_print_of_debuggerRows read
      refine ⟨String.ofList p.print, ?_, ?_⟩
      · simp only [read, adopt] at installed ⊢
        cases laid : p.layout with
        | error e => simp [laid] at installed
        | ok rs => rfl
      · rw [install_empty, readBack]
        exact agree_adopt config config' _ _ p

end Machine

namespace Command

variable {c c' : Command} {description description' : String}

theorem run_of_error {e : RegisterError} (refused : (c.load description).answer = .error e) :
    c.run description = ⟨1, "", some e.inspected⟩ := by
  simp only [run, refused]

theorem run_of_ok (loaded : (c.load description).answer = .ok ()) :
    c.run description = ⟨0, String.ofList ((c.load description).machine.listing c.uncoveredOnly), none⟩ := by
  simp only [run, loaded]

theorem run_of_agree (agree : Machine.Agree (c.load description) (c'.load description'))
    (sameRows : c.uncoveredOnly = c'.uncoveredOnly) :
    (c.run description).status = (c'.run description').status ∧
      (c.run description).output = (c'.run description').output := by
  cases agree with
  | refused first second =>
      rw [run_of_error first, run_of_error second]
      exact ⟨rfl, rfl⟩
  | done first second alike =>
      rw [run_of_ok first, run_of_ok second, alike.listing, sameRows]
      exact ⟨rfl, rfl⟩

end Command

namespace Machine

/-- A table and the text that is made of it are refused or taken over together, as the same machine,
and the command prints the same for both; without such a text it prints nothing.  The text that is
kept for a table gives the same machine when it is installed in another that is empty. -/
theorem table_and_text (table : String) :
    (∀ text, Profile.textOfDebuggerRows table.toList = .ok text → ∀ config,
        Agree ((empty config).installDebuggerRows table) ((empty config).install (String.ofList text)) ∧
          ∀ uncoveredOnly,
            (Command.run ⟨true, uncoveredOnly, config⟩ table).status =
                (Command.run ⟨false, uncoveredOnly, config⟩ (String.ofList text)).status ∧
              (Command.run ⟨true, uncoveredOnly, config⟩ table).output =
                (Command.run ⟨false, uncoveredOnly, config⟩ (String.ofList text)).output) ∧
      (∀ e, Profile.textOfDebuggerRows table.toList = .error e → ∀ uncoveredOnly config,
        (Command.run ⟨true, uncoveredOnly, config⟩ table).status = 1 ∧
          (Command.run ⟨true, uncoveredOnly, config⟩ table).output = "") ∧
      ∀ config config', ((empty config).installDebuggerRows table).answer = .ok () →
        ∃ text, ((empty config).installDebuggerRows table).machine.profileText = some text ∧
          ((empty config').install text).answer = .ok () ∧
            Alike ((empty config).installDebuggerRows table).machine ((empty config').install text).machine := by
  refine ⟨?_, ?_, ?_⟩
  · intro text made config
    have agree := agree_of_text made config
    exact ⟨agree, fun uncoveredOnly => Command.run_of_agree agree rfl⟩
  · intro e failed uncoveredOnly config
    have notRead : Profile.ofDebuggerRows table.toList = .error e := by
      unfold Profile.textOfDebuggerRows at failed
      cases read : DebuggerRow.ofText table.toList with
      | error e' =>
          rw [read] at failed
          cases failed
          rw [Profile.ofDebuggerRows, read]
      | ok rows => simp [read, Except.map] at failed
    have refused : (Command.load ⟨true, uncoveredOnly, config⟩ table).answer = .error (.badLine e) := by
      rw [Command.load, if_pos rfl, installDebuggerRows_empty, notRead]
      rfl
    rw [Command.run_of_error refused]
    exact ⟨rfl, rfl⟩
  · intro config config' installed
    obtain ⟨text, kept, agree⟩ := agree_of_kept installed config'
    refine ⟨text, kept, ?_⟩
    cases agree with
    | refused first second => cases installed.symm.trans first
    | done first second alike => exact ⟨second, alike⟩

/-- The offset in the text is in bytes, and in the text that is kept it is in bits; a table may also
have a text and still be refused, as its text is. -/
theorem table_and_text_inBits :
    ∃ table text kept tooFar textTooFar,
      Profile.textOfDebuggerRows table.toList = .ok text ∧
        ((empty {}).installDebuggerRows table).machine.profileText = some kept ∧ kept.toList ≠ text ∧
        Agree ((empty {}).installDebuggerRows table) ((empty {}).install (String.ofList text)) ∧
        Alike ((empty {}).installDebuggerRows table).machine ((empty ⟨32, .highFirst, true⟩).install kept).machine ∧
        (Command.run ⟨true, false, {}⟩ table).output = "[gpr] 12 bytes\n     0 gpr  pc             32 bits @ 64\n" ∧
        (Command.run ⟨false, false, {}⟩ (String.ofList text)).output =
          "[gpr] 12 bytes\n     0 gpr  pc             32 bits @ 64\n" ∧
        Profile.textOfDebuggerRows tooFar.toList = .ok textTooFar ∧
        (Command.run ⟨true, false, {}⟩ tooFar).status = 1 ∧
        (Command.run ⟨false, false, {}⟩ (String.ofList textTooFar)).status = 1 := by
  have made : Profile.textOfDebuggerRows "Name\n\npc 0 0 8 4 int\n".toList = .ok "gpr\tpc\t.32\t8\t0\n".toList := by
    decide +kernel
  have madeTooFar : Profile.textOfDebuggerRows "\npc 0 0 4000000000 4 int".toList =
      .ok "gpr\tpc\t.32\t4000000000\t0\n".toList := by decide +kernel
  have installed : ((empty {}).installDebuggerRows "Name\n\npc 0 0 8 4 int\n").answer = .ok () := by decide +kernel
  have keptText : ((empty {}).installDebuggerRows "Name\n\npc 0 0 8 4 int\n").machine.profileText =
      some "gpr\tpc\t.32\t.64\t0\n" := by decide +kernel
  have both := table_and_text "Name\n\npc 0 0 8 4 int\n"
  obtain ⟨text, kept, -, alike⟩ := both.2.2 {} ⟨32, .highFirst, true⟩ installed
  cases keptText.symm.trans kept
  obtain ⟨agree, printed⟩ := both.1 _ made {}
  have listed : (Command.run ⟨true, false, {}⟩ "Name\n\npc 0 0 8 4 int\n").output =
      "[gpr] 12 bytes\n     0 gpr  pc             32 bits @ 64\n" := by decide +kernel
  have refused : (Command.run ⟨true, false, {}⟩ "\npc 0 0 4000000000 4 int").status = 1 := by decide +kernel
  have sameStatus := ((table_and_text "\npc 0 0 4000000000 4 int").1 _ madeTooFar {}).2 false
  exact ⟨_, _, _, _, _, made, keptText, by decide +kernel, agree, alike, listed,
    (printed false).2.symm.trans listed, madeTooFar, refused, sameStatus.1.symm.trans refused⟩

end Machine
end MachineRegisters
