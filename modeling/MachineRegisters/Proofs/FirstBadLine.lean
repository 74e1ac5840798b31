import MachineRegisters.Proofs.TableRows
import Mathlib.Order.Bounds.Basic

/-! # Which line of a table is reported

A table is refused just when one of its lines is refused alone (`rejected_iff`): its columns
are not those of a row (`Misshapen`), or no definition can be written for its row
(`Inexpressible`).  All columns are read before any definition is, so the line reported is the
first of the misshapen ones if there are any, and not always the first that is refused alone
(`reported_line`). -/
set_option autoImplicit false
namespace MachineRegisters
open Text

namespace DebuggerRow
variable {cs : List Char}

/-- The line should be a row and is none, or the size of its register is too large in bits. -/
def Misshapen (cs : List Char) : Prop :=
  ¬Ignorable cs ∧ ∀ name type offset size, Shows cs name type offset size → 2 ^ 29 ≤ size

/-- The line is a row, but its name would begin a comment or its offset is too large in bits. -/
def Inexpressible (cs : List Char) : Prop :=
  ¬Ignorable cs ∧ ∃ name type offset size, Shows cs name type offset size ∧ size < 2 ^ 29 ∧
    ('#' ∈ name ∨ 2 ^ 29 ≤ offset)

theorem exists_ofLine_eq_error_iff : (∃ fault, ofLine cs = .error fault) ↔ Misshapen cs := by
  constructor
  · rintro ⟨fault, refused⟩
    have telling : ¬Ignorable cs := fun ignorable => by cases refused.symm.trans (ofLine_eq_none_iff.mpr ignorable)
    refine ⟨telling, fun name type offset size shown => Nat.le_of_not_lt fun small => ?_⟩
    have read : ofLine cs = .ok (some ⟨classOf name type, name, 8 * size, offset⟩) :=
      ofLine_eq_some_iff.mpr ⟨telling, type, size, shown, small, rfl, rfl⟩
    cases refused.symm.trans read
  · rintro ⟨telling, large⟩
    cases outcome : ofLine cs with
    | error fault => exact ⟨fault, rfl⟩
    | ok row? =>
        cases row? with
        | none => exact absurd (ofLine_eq_none_iff.mp outcome) telling
        | some row =>
            obtain ⟨-, type, size, shown, small, -⟩ := ofLine_eq_some_iff.mp outcome
            exact absurd small (Nat.not_lt.mpr (large _ _ _ _ shown))

theorem exists_ofLine_eq_ok_iff : (∃ row?, ofLine cs = .ok row?) ↔ ¬Misshapen cs := by
  rw [← exists_ofLine_eq_error_iff]
  cases ofLine cs <;> simp

theorem exists_readEntry_eq_error_iff : (∃ fault, readEntry cs = .error fault) ↔ Inexpressible cs := by
  simp only [readEntry_eq_error_iff]
  constructor
  · rintro ⟨fault, row, read, refused⟩
    obtain ⟨telling, type, size, shown, small, -⟩ := ofLine_eq_some_iff.mp read
    refine ⟨telling, row.name, type, row.offset, size, shown, small, ?_⟩
    by_contra expressible
    obtain ⟨noHash, near⟩ := not_or.mp expressible
    have defined := (wellFormed_of_ofLine read).readLine_print_eq_ok_iff.mpr ⟨Nat.lt_of_not_le near, noHash, rfl⟩
    cases refused.symm.trans defined
  · rintro ⟨telling, name, type, offset, size, shown, small, atFault⟩
    have read : ofLine cs = .ok (some ⟨classOf name type, name, 8 * size, offset⟩) :=
      ofLine_eq_some_iff.mpr ⟨telling, type, size, shown, small, rfl, rfl⟩
    cases outcome : Profile.readLine (print ⟨classOf name type, name, 8 * size, offset⟩) with
    | error fault => exact ⟨fault, _, read, outcome⟩
    | ok p =>
        obtain ⟨near, noHash, -⟩ := (wellFormed_of_ofLine read).readLine_print_eq_ok_iff.mp outcome
        rcases atFault with hash | far
        · exact absurd hash noHash
        · exact absurd near (Nat.not_lt.mpr far)

end DebuggerRow

/-! ## First members of a list of lines -/

section Lines
variable {α : Type} {read : List Char → Except LineFault α} {ls : List (List Char)} {e : LineError}
  {P : List Char → Prop} {k : Nat}

/-- The lines needed to meet one with a property are the least many if all but the last lack it. -/
theorem isLeast_take_iff (met : ∃ line ∈ ls.take k, P line) :
    IsLeast {n | ∃ line ∈ ls.take n, P line} k ↔ ∀ line ∈ ls.take (k - 1), ¬P line := by
  constructor
  · rintro ⟨-, least⟩ line earlier property
    have tooFew : k ≤ k - 1 := least ⟨line, earlier, property⟩
    obtain rfl : k = 0 := by omega
    simp at met
  · refine fun none => ⟨met, fun n ⟨line, member, property⟩ => Nat.le_of_not_lt fun fewer => ?_⟩
    have earlier : line ∈ ls.take (k - 1) := (List.take_subset_take_left ls (by omega)) member
    exact none line earlier property

theorem FirstFault.take (first : FirstFault read (ls.zipIdx 1) e) :
    FirstFault read ((ls.take e.line).zipIdx 1) e := by
  obtain ⟨before, cs, after, rfl, number, accepted, refused⟩ := firstFault_zipIdx_iff.mp first
  refine firstFault_zipIdx_iff.mpr ⟨before, cs, [], ?_, number, accepted, refused⟩
  rw [number, Nat.add_comm, List.take_length_add_append, List.take_succ_cons, List.take_zero]

end Lines

namespace Profile
open DebuggerRow (Misshapen Inexpressible readEntry)
variable {cs line : List Char} {e : LineError} {n : Nat}

def Rejected (cs : List Char) : Prop := ∃ e, ofDebuggerRows cs = .error e

instance (cs : List Char) : Decidable (Rejected cs) :=
  match outcome : ofDebuggerRows cs with
  | .error e => isTrue ⟨e, outcome⟩
  | .ok _ => isFalse fun ⟨_, refused⟩ => nomatch outcome.symm.trans refused

def firstLines (n : Nat) (cs : List Char) : List Char := ['\n'].intercalate ((lines cs).take n)

theorem lines_firstLines (positive : 0 < n) : lines (firstLines n cs) = (lines cs).take n := by
  apply List.splitOn_intercalate
  · exact fun line member => notMem_of_mem_lines (List.mem_of_mem_take member)
  · exact fun none => absurd (List.take_eq_nil_iff.mp none) (by simp [lines, List.splitOn_ne_nil, positive.ne'])

theorem ofDebuggerRows_eq_error_iff_first : ofDebuggerRows cs = .error e ↔
    FirstFault DebuggerRow.ofLine ((lines cs).zipIdx 1) e ∨
      (∀ line ∈ lines cs, ¬Misshapen line) ∧ FirstFault readEntry ((lines cs).zipIdx 1) e := by
  simp only [ofDebuggerRows_eq_error_iff, DebuggerRow.exists_ofLine_eq_ok_iff]

theorem rejected_iff : Rejected cs ↔ ∃ line ∈ lines cs, Misshapen line ∨ Inexpressible line := by
  have columns : (∃ e, FirstFault DebuggerRow.ofLine ((lines cs).zipIdx 1) e) ↔
      ∃ line ∈ lines cs, Misshapen line := by
    simp only [exists_firstFault_zipIdx_iff, DebuggerRow.exists_ofLine_eq_error_iff]
  have entries : (∃ e, FirstFault readEntry ((lines cs).zipIdx 1) e) ↔
      ∃ line ∈ lines cs, Inexpressible line := by
    simp only [exists_firstFault_zipIdx_iff, DebuggerRow.exists_readEntry_eq_error_iff]
  simp only [Rejected, ofDebuggerRows_eq_error_iff_first, exists_or, exists_and_left, columns, entries]
  constructor
  · rintro (⟨line, member, misshapen⟩ | ⟨-, line, member, inexpressible⟩)
    · exact ⟨line, member, .inl misshapen⟩
    · exact ⟨line, member, .inr inexpressible⟩
  · rintro ⟨line, member, atFault⟩
    by_cases shaped : ∀ line ∈ lines cs, ¬Misshapen line
    · exact .inr ⟨shaped, line, member, atFault.resolve_left (shaped line member)⟩
    · push Not at shaped
      exact .inl shaped

theorem rejected_line_iff (single : '\n' ∉ line) : Rejected line ↔ Misshapen line ∨ Inexpressible line := by
  rw [rejected_iff, lines_of_notMem single]
  simp

theorem rejected_firstLines_iff : Rejected (firstLines n cs) ↔ ∃ line ∈ (lines cs).take n, Rejected line := by
  have alone : (∃ line ∈ (lines cs).take n, Rejected line) ↔
      ∃ line ∈ (lines cs).take n, Misshapen line ∨ Inexpressible line :=
    exists_congr fun line => and_congr_right fun member =>
      rejected_line_iff (notMem_of_mem_lines (List.mem_of_mem_take member))
  rw [alone]
  rcases Nat.eq_zero_or_pos n with rfl | positive
  · have blank : DebuggerRow.Ignorable [] := .blank rfl
    have noText : firstLines 0 cs = [] := rfl
    rw [noText, rejected_line_iff (by simp)]
    simp [Misshapen, Inexpressible, blank]
  · rw [rejected_iff, lines_firstLines positive]

/-- The line reported is among the lines of the text, and all lines before it have the right columns.
They may lack a definition only if the columns of the line reported are the wrong ones. -/
theorem exists_reported (refused : ofDebuggerRows cs = .error e) :
    ∃ before line after, lines cs = before ++ line :: after ∧ e.line = before.length + 1 ∧
      (∀ earlier ∈ before, ¬Misshapen earlier) ∧
      (Misshapen line ∨
        (∀ other ∈ lines cs, ¬Misshapen other) ∧ Inexpressible line ∧ ∀ earlier ∈ before, ¬Inexpressible earlier) := by
  rcases ofDebuggerRows_eq_error_iff_first.mp refused with first | ⟨shaped, first⟩
  · obtain ⟨before, line, after, whole, number, accepted, shape⟩ := firstFault_zipIdx_iff.mp first
    refine ⟨before, line, after, whole, by omega, ?_, .inl (DebuggerRow.exists_ofLine_eq_error_iff.mp ⟨_, shape⟩)⟩
    exact fun earlier member => DebuggerRow.exists_ofLine_eq_ok_iff.mp (accepted earlier member)
  · obtain ⟨before, line, after, whole, number, accepted, entry⟩ := firstFault_zipIdx_iff.mp first
    refine ⟨before, line, after, whole, by omega, ?_, .inr ⟨shaped, ?_, ?_⟩⟩
    · exact fun earlier member => shaped earlier (whole ▸ List.mem_append_left _ member)
    · exact DebuggerRow.exists_readEntry_eq_error_iff.mp ⟨_, entry⟩
    · intro earlier member inexpressible
      obtain ⟨p, read⟩ := accepted earlier member
      obtain ⟨fault, refusedToo⟩ := DebuggerRow.exists_readEntry_eq_error_iff.mpr inexpressible
      cases read.symm.trans refusedToo

theorem ofDebuggerRows_firstLines (refused : ofDebuggerRows cs = .error e) :
    ofDebuggerRows (firstLines e.line cs) = .error e := by
  obtain ⟨before, -, -, -, number, -⟩ := exists_reported refused
  have kept : lines (firstLines e.line cs) = (lines cs).take e.line := lines_firstLines (by omega)
  rw [ofDebuggerRows_eq_error_iff_first, kept]
  rcases ofDebuggerRows_eq_error_iff_first.mp refused with first | ⟨shaped, first⟩
  · exact .inl first.take
  · exact .inr ⟨fun line member => shaped line (List.mem_of_mem_take member), first.take⟩

/-- The lines up to the one reported are refused with the same report.  So the report names the
first line that is refused alone, unless its columns are wrong and the row of an earlier line has
none but its definition at fault; of the misshapen lines it always names the first, and of the
others the first when no line is misshapen. -/
theorem reported_line (refused : ofDebuggerRows cs = .error e) :
    ofDebuggerRows (firstLines e.line cs) = .error e ∧
      (IsLeast {n | Rejected (firstLines n cs)} e.line ↔
        ∀ earlier ∈ (lines cs).take (e.line - 1), ¬Rejected earlier) ∧
      (IsLeast {n | Rejected (firstLines n cs)} e.line ↔
        ¬((∃ line, (lines cs)[e.line - 1]? = some line ∧ Misshapen line) ∧
          ∃ earlier ∈ (lines cs).take (e.line - 1), Inexpressible earlier)) ∧
      ((∃ line ∈ lines cs, Misshapen line) →
        IsLeast {n | ∃ line ∈ (lines cs).take n, Misshapen line} e.line) ∧
      ((∀ line ∈ lines cs, ¬Misshapen line) →
        IsLeast {n | ∃ line ∈ (lines cs).take n, Inexpressible line} e.line) := by
  have sameReport := ofDebuggerRows_firstLines refused
  obtain ⟨before, line, after, whole, number, shapedBefore, atFault⟩ := exists_reported refused
  have upTo : (lines cs).take e.line = before ++ [line] := by
    rw [whole, number, List.take_length_add_append, List.take_succ_cons, List.take_zero]
  have earlierLines : (lines cs).take (e.line - 1) = before := by
    rw [whole, number, Nat.add_sub_cancel, List.take_left]
  have reported : (lines cs)[e.line - 1]? = some line := by
    rw [whole, number]
    simp
  have first : IsLeast {n | Rejected (firstLines n cs)} e.line ↔
      ∀ earlier ∈ (lines cs).take (e.line - 1), ¬Rejected earlier := by
    simp only [rejected_firstLines_iff]
    exact isLeast_take_iff (rejected_firstLines_iff.mp ⟨e, sameReport⟩)
  have rejectedBefore : ∀ earlier ∈ before, Rejected earlier ↔ Inexpressible earlier := by
    intro earlier member
    have single : '\n' ∉ earlier := notMem_of_mem_lines (whole ▸ List.mem_append_left _ member)
    rw [rejected_line_iff single, or_iff_right (shapedBefore earlier member)]
  refine ⟨sameReport, first, ?_, ?_, ?_⟩
  · rw [first, earlierLines, reported]
    constructor
    · rintro accepted ⟨-, earlier, member, inexpressible⟩
      exact accepted earlier member ((rejectedBefore earlier member).mpr inexpressible)
    · intro notBoth earlier member rejected
      have inexpressible := (rejectedBefore earlier member).mp rejected
      rcases atFault with here | ⟨-, -, expressed⟩
      · exact notBoth ⟨⟨line, rfl, here⟩, earlier, member, inexpressible⟩
      · exact expressed earlier member inexpressible
  · rintro ⟨other, member, misshapen⟩
    have here : Misshapen line := by
      rcases atFault with here | ⟨shaped, -⟩
      · exact here
      · exact absurd misshapen (shaped other member)
    rw [isLeast_take_iff ⟨line, by simp [upTo], here⟩, earlierLines]
    exact shapedBefore
  · intro shaped
    obtain ⟨-, here, expressed⟩ := atFault.resolve_left (shaped line (by simp [whole]))
    rw [isLeast_take_iff ⟨line, by simp [upTo], here⟩, earlierLines]
    exact expressed

/-- The columns of the third line are the wrong ones, and before it are a heading and a register. -/
theorem reported_line_third :
    ∃ table e, ofDebuggerRows table = .error e ∧ e.line = 3 ∧
      ofDebuggerRows (firstLines 3 table) = .error e ∧ IsLeast {n | Rejected (firstLines n table)} 3 := by
  have refused : ofDebuggerRows "Name\na 0 0 0 4 int\nb 0 0\nc#d 0 0 0 4 int".toList =
      .error ⟨3, .tooFewColumns 3⟩ := by decide +kernel
  have report := reported_line refused
  exact ⟨_, _, refused, rfl, report.1, report.2.1.mpr (by decide +kernel)⟩

/-- The offset in the first line is too large in bits, but the second line lacks columns. -/
theorem not_reported_first :
    ∃ table e, ofDebuggerRows table = .error e ∧ ¬IsLeast {n | Rejected (firstLines n table)} e.line := by
  have refused : ofDebuggerRows "a 0 0 4000000000 8 int\nb 0 0\n".toList = .error ⟨2, .tooFewColumns 3⟩ := by
    decide +kernel
  refine ⟨_, _, refused, fun isLeast => ?_⟩
  have tooFew : 2 ≤ 1 := isLeast.2 (show Rejected (firstLines 1 _) by decide +kernel)
  exact absurd tooFew (by decide)

end Profile
end MachineRegisters
