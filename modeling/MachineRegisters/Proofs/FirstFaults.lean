import MachineRegisters.Profile.DebuggerRows
import MachineRegisters.Proofs.Reading

/-! # The first line at fault

Lines are read in order up to the first that is at fault, which is reported with its
number (`FirstFault`).  Some line is reported just when some line is at fault
(`exists_firstFault_iff`), and in a numbered text it is the one that no other line at
fault comes before (`firstFault_zipIdx_iff`).  Numbering the lines of a profile otherwise
changes nothing but the number that is reported (`ofLines_renumber`). -/
set_option autoImplicit false
namespace MachineRegisters
open Text

/-- The first of the numbered lines that cannot be read is the one reported, for its fault. -/
inductive FirstFault {α : Type} (read : List Char → Except LineFault α) :
    List (List Char × Nat) → LineError → Prop
  | here {cs : List Char} {n : Nat} {rest : List (List Char × Nat)} {fault : LineFault}
      (refused : read cs = .error fault) : FirstFault read ((cs, n) :: rest) ⟨n, fault⟩
  | later {cs : List Char} {n : Nat} {rest : List (List Char × Nat)} {a : α} {e : LineError}
      (accepted : read cs = .ok a) (first : FirstFault read rest e) : FirstFault read ((cs, n) :: rest) e

section FirstFault
variable {α : Type} {read : List Char → Except LineFault α} {numbered : List (List Char × Nat)} {e : LineError}

theorem not_firstFault_nil : ¬FirstFault read [] e := nofun

theorem firstFault_cons_of_error {cs : List Char} {n : Nat} {fault : LineFault}
    (refused : read cs = .error fault) : FirstFault read ((cs, n) :: numbered) e ↔ ⟨n, fault⟩ = e := by
  constructor
  · intro first
    cases first with
    | here refusedToo =>
        cases refused.symm.trans refusedToo
        rfl
    | later accepted _ => cases refused.symm.trans accepted
  · rintro rfl
    exact .here refused

theorem firstFault_cons_of_ok {cs : List Char} {n : Nat} {a : α} (accepted : read cs = .ok a) :
    FirstFault read ((cs, n) :: numbered) e ↔ FirstFault read numbered e := by
  constructor
  · intro first
    cases first with
    | here refused => cases accepted.symm.trans refused
    | later _ later => exact later
  · exact .later accepted

theorem firstFault_singleton_iff {cs : List Char} {n : Nat} {fault : LineFault} :
    FirstFault read [(cs, n)] ⟨n, fault⟩ ↔ read cs = .error fault := by
  cases outcome : read cs with
  | error found => simp [firstFault_cons_of_error outcome]
  | ok a => simp [firstFault_cons_of_ok outcome, not_firstFault_nil]

theorem FirstFault.exists_refused (first : FirstFault read numbered e) :
    ∃ line ∈ numbered, read line.1 = .error e.fault := by
  induction first with
  | here refused => exact ⟨_, List.mem_cons_self .., refused⟩
  | later _ _ ih =>
      obtain ⟨line, member, refused⟩ := ih
      exact ⟨line, List.mem_cons_of_mem _ member, refused⟩

theorem exists_firstFault_iff :
    (∃ e, FirstFault read numbered e) ↔ ∃ line ∈ numbered, ∃ fault, read line.1 = .error fault := by
  constructor
  · rintro ⟨e, first⟩
    obtain ⟨line, member, refused⟩ := first.exists_refused
    exact ⟨line, member, e.fault, refused⟩
  · rintro ⟨line, member, fault, refused⟩
    induction numbered with
    | nil => cases member
    | cons other rest ih =>
        obtain ⟨cs, n⟩ := other
        cases outcome : read cs with
        | error found => exact ⟨_, .here outcome⟩
        | ok a =>
            rcases List.mem_cons.mp member with rfl | inRest
            · cases outcome.symm.trans refused
            · obtain ⟨e, first⟩ := ih inRest
              exact ⟨e, .later outcome first⟩

theorem exists_firstFault_zipIdx_iff {ls : List (List Char)} {start : Nat} :
    (∃ e, FirstFault read (ls.zipIdx start) e) ↔ ∃ cs ∈ ls, ∃ fault, read cs = .error fault := by
  have texts : (ls.zipIdx start).map Prod.fst = ls := List.zipIdx_map_fst ..
  rw [exists_firstFault_iff]
  constructor
  · rintro ⟨line, member, refused⟩
    exact ⟨line.1, texts ▸ List.mem_map_of_mem member, refused⟩
  · rintro ⟨cs, member, refused⟩
    obtain ⟨line, inNumbered, rfl⟩ := List.mem_map.mp (texts.symm ▸ member)
    exact ⟨line, inNumbered, refused⟩

theorem firstFault_zipIdx_iff {ls : List (List Char)} {start : Nat} :
    FirstFault read (ls.zipIdx start) e ↔
      ∃ before cs after, ls = before ++ cs :: after ∧ e.line = start + before.length ∧
        (∀ line ∈ before, ∃ a, read line = .ok a) ∧ read cs = .error e.fault := by
  induction ls generalizing start with
  | nil => simp [not_firstFault_nil]
  | cons first rest ih =>
      rw [List.zipIdx_cons]
      constructor
      · intro found
        cases found with
        | here refused => exact ⟨[], first, rest, rfl, rfl, nofun, refused⟩
        | later accepted later =>
            obtain ⟨before, cs, after, rfl, number, each, refused⟩ := ih.mp later
            refine ⟨first :: before, cs, after, rfl, ?_, ?_, refused⟩
            · rw [number, List.length_cons]
              omega
            · exact List.forall_mem_cons.mpr ⟨⟨_, accepted⟩, each⟩
      · rintro ⟨before, cs, after, whole, number, each, refused⟩
        obtain ⟨n, fault⟩ := e
        cases before with
        | nil =>
            cases whole
            cases number
            exact .here refused
        | cons other before =>
            cases whole
            obtain ⟨⟨a, accepted⟩, others⟩ := List.forall_mem_cons.mp each
            refine .later accepted (ih.mpr ⟨before, cs, after, rfl, ?_, others, refused⟩)
            simp only [List.length_cons] at number ⊢
            omega

end FirstFault

namespace Profile
variable {numbered : List (List Char × Nat)} {e : LineError}

theorem ofLines_eq_error_iff : ofLines numbered = .error e ↔ FirstFault readLine numbered e := by
  induction numbered with
  | nil => simp [ofLines, not_firstFault_nil]
  | cons line rest ih =>
      obtain ⟨cs, n⟩ := line
      rw [ofLines]
      cases outcome : readLine cs with
      | error fault => simp only [firstFault_cons_of_error outcome, Except.error.injEq]
      | ok p =>
          rw [firstFault_cons_of_ok outcome, ← ih]
          cases ofLines rest with
          | error other => rfl
          | ok q => simp

theorem ofLines_renumber (number : Nat → Nat) :
    ofLines (numbered.map fun line => (line.1, number line.2)) =
      (ofLines numbered).mapError fun e => { e with line := number e.line } := by
  induction numbered with
  | nil => rfl
  | cons line rest ih =>
      obtain ⟨cs, n⟩ := line
      rw [List.map_cons, ofLines, ofLines, ih]
      cases readLine cs with
      | error fault => rfl
      | ok p => cases ofLines rest <;> rfl

end Profile
end MachineRegisters
