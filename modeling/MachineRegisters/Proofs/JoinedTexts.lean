import MachineRegisters.Proofs.FirstFaults
import Mathlib.Data.List.Basic

/-! # Texts read one after the other

A text that ends in a line feed can be followed by any other: the profile of the two is that
of the first with that of the second behind it, and a fault is reported where it is found, its
line counted from the start of the first text (`parse_append`).  The line reported is the first
that is refused as a text of its own (`parse_eq_error_iff`). -/
set_option autoImplicit false
namespace MachineRegisters

theorem Text.length_lines (cs : List Char) : (lines cs).length = cs.count '\n' + 1 := by
  induction cs with
  | nil => rfl
  | cons c rest ih =>
      rw [lines, List.splitOn_cons_eq_if_modifyHead]
      by_cases feed : c = '\n'
      · rw [if_pos (by simpa using feed), List.length_cons, feed, List.count_cons_self]
        exact congrArg (· + 1) ih
      · rw [if_neg (by simpa using feed), List.length_modifyHead, List.count_cons_of_ne (by simpa using feed)]
        exact ih

namespace Profile
open Text

theorem parse_append_lf (before after : List Char) :
    parse (before ++ '\n' :: after) =
      match parse before with
      | .error e => .error e
      | .ok p =>
          match parse after with
          | .error e => .error ⟨before.count '\n' + 1 + e.line, e.fault⟩
          | .ok q => .ok (p ++ q) := by
  have behind : ofLines ((lines after).zipIdx (1 + (lines before).length)) =
      (parse after).mapError fun e => ⟨before.count '\n' + 1 + e.line, e.fault⟩ := by
    have moved : (lines after).zipIdx (1 + (lines before).length) =
        ((lines after).zipIdx 1).map fun line => (line.1, before.count '\n' + 1 + line.2) := by
      rw [length_lines]
      apply List.ext_getElem
      · simp
      · intro n _ _
        simp
        omega
    rw [moved, ofLines_renumber fun n => before.count '\n' + 1 + n]
    rfl
  rw [parse, lines_append_lf, List.zipIdx_append, ofLines_append, behind]
  show (match parse before with | .error e => _ | .ok p => _) = _
  cases parse before with
  | error e => rfl
  | ok p => cases parse after <;> rfl

/-- A line feed at the end begins no line that could be at fault. -/
theorem parse_concat_lf (cs : List Char) : parse (cs ++ ['\n']) = parse cs := by
  have blank : lines [] = [[]] := rfl
  rw [parse, lines_append_lf, blank, List.zipIdx_append, List.zipIdx_singleton, ofLines_append_blank]
  rfl

/-! ## The first bad line -/

section Line
variable {line : List Char} (single : '\n' ∉ line)
include single

theorem parse_line : parse line = (readLine line).mapError fun fault => ⟨1, fault⟩ := by
  rw [parse, lines_of_notMem single, List.zipIdx_singleton, ofLines]
  cases readLine line with
  | error fault => rfl
  | ok p => exact congrArg Except.ok (append_empty p)

theorem exists_parse_line_iff : (∃ p, parse line = .ok p) ↔ ∃ p, readLine line = .ok p := by
  rw [parse_line single]
  cases readLine line <;> simp [Except.mapError]

theorem parse_line_eq_error_iff {fault : LineFault} :
    parse line = .error ⟨1, fault⟩ ↔ readLine line = .error fault := by
  rw [parse_line single]
  cases readLine line <;> simp [Except.mapError]

end Line

theorem parse_eq_error_iff {cs : List Char} {e : LineError} :
    parse cs = .error e ↔
      ∃ before line after, lines cs = before ++ line :: after ∧ e.line = before.length + 1 ∧
        (∀ earlier ∈ before, ∃ p, parse earlier = .ok p) ∧ parse line = .error ⟨1, e.fault⟩ := by
  rw [parse, ofLines_eq_error_iff, firstFault_zipIdx_iff]
  refine exists₃_congr fun before line after => and_congr_right fun whole => ?_
  have single : ∀ other ∈ before ++ line :: after, '\n' ∉ other :=
    fun other member => notMem_of_mem_lines (whole ▸ member)
  refine and_congr (by rw [Nat.add_comm]) (and_congr (forall₂_congr fun earlier member => ?_) ?_)
  · exact (exists_parse_line_iff (single earlier (by simp [member]))).symm
  · exact (parse_line_eq_error_iff (single line (by simp))).symm

/-- A text that ends where a line ends is read first and what follows it then: its fault is that of
the whole, what the two say is put together, and a fault of the second is reported with the line
feeds of the first added.  In any text the first line that is refused alone is the one reported. -/
theorem parse_append {first : List Char} (ended : first = [] ∨ first.getLast? = some '\n')
    (second : List Char) :
    (∀ e, parse first = .error e → parse (first ++ second) = .error e) ∧
      (∀ p q, parse first = .ok p → parse second = .ok q →
        parse (first ++ second) = .ok ⟨p.bindings ++ q.bindings, p.definitions ++ q.definitions⟩) ∧
      (∀ p e, parse first = .ok p → parse second = .error e →
        parse (first ++ second) = .error ⟨first.count '\n' + e.line, e.fault⟩) ∧
      ∀ e, parse (first ++ second) = .error e ↔
        ∃ before line after, lines (first ++ second) = before ++ line :: after ∧
          e.line = before.length + 1 ∧ (∀ earlier ∈ before, ∃ p, parse earlier = .ok p) ∧
            parse line = .error ⟨1, e.fault⟩ := by
  have joined : parse (first ++ second) =
      match parse first with
      | .error e => .error e
      | .ok p =>
          match parse second with
          | .error e => .error ⟨first.count '\n' + e.line, e.fault⟩
          | .ok q => .ok (p ++ q) := by
    rcases ended with rfl | ended
    · have nothing : parse [] = .ok empty := rfl
      rw [nothing, List.nil_append]
      cases parse second <;> simp
    · obtain ⟨before, rfl⟩ := List.getLast?_eq_some_iff.mp ended
      rw [List.append_assoc, List.singleton_append, parse_append_lf, parse_concat_lf, List.count_append,
        List.count_singleton_self]
  refine ⟨?_, ?_, ?_, fun e => parse_eq_error_iff⟩
  · intro e refused
    rw [joined, refused]
  · intro p q read readToo
    rw [joined, read, readToo]
    rfl
  · intro p e read refused
    rw [joined, read, refused]

/-- A carriage return, a blank line and a comment count as lines do, and the second text is not ended. -/
theorem parse_append_shifted :
    ∃ first second p q r, parse first = .ok p ∧ parse second = .ok q ∧
      parse (first ++ second) = .ok r ∧ r.definitions.length = 2 ∧
      parse (first ++ (second ++ "\n=PD b".toList)) = .error ⟨6, .unknownRole "PD"⟩ := by
  have read : parse "gpr a 1 0\r\n\n# c\n".toList =
      .ok ⟨[], [⟨.general, .general, "a", 8, 0, some 0, none, none⟩]⟩ := by decide +kernel
  have readToo : parse "=PC a\ngpr b 1 ?".toList = .ok ⟨[⟨.programCounter, "PC", "a"⟩],
      [⟨.general, .general, "b", 8, 0, none, none, none⟩]⟩ := by decide +kernel
  have refused : parse ("=PC a\ngpr b 1 ?".toList ++ "\n=PD b".toList) = .error ⟨3, .unknownRole "PD"⟩ := by
    decide +kernel
  have ended : "gpr a 1 0\r\n\n# c\n".toList = [] ∨ "gpr a 1 0\r\n\n# c\n".toList.getLast? = some '\n' := by
    decide +kernel
  refine ⟨_, _, _, _, _, read, readToo, (parse_append ended _).2.1 _ _ read readToo, rfl, ?_⟩
  exact (parse_append ended _).2.2.1 _ _ read refused

end Profile
end MachineRegisters
