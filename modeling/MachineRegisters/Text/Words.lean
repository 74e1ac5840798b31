import MachineRegisters.Text.Blank

/-! # Lines, words and cuts

A text is cut into lines at its line feeds, a line into words at its blanks, and
a word in two at the first occurrence of a mark.  `occursIn` looks for one text in
another. -/
set_option autoImplicit false
namespace MachineRegisters.Text

def lines (cs : List Char) : List (List Char) := cs.splitOn '\n'

def words (cs : List Char) : List (List Char) := (cs.splitOnP isBlank).filter (· ≠ [])

/-- What stands before the first `mark`, and what stands after it if there is one. -/
def cut (mark : Char) : List Char → List Char × Option (List Char)
  | [] => ([], none)
  | c :: rest =>
      if c = mark then ([], some rest)
      else (c :: (cut mark rest).1, (cut mark rest).2)

def occursIn (piece : List Char) : List Char → Bool
  | [] => piece.isEmpty
  | c :: rest => piece.isPrefixOf (c :: rest) || occursIn piece rest

theorem lines_append_lf (before after : List Char) :
    lines (before ++ '\n' :: after) = lines before ++ lines after :=
  List.splitOnP_append_cons before after (by decide)

/-- Before the cut the mark does not occur, and nothing else is lost. -/
theorem cut_spec (mark : Char) (cs : List Char) :
    mark ∉ (cut mark cs).1 ∧
      cs = (cut mark cs).1 ++ ((cut mark cs).2.map (mark :: ·)).getD [] := by
  induction cs with
  | nil => simp [cut]
  | cons c rest ih =>
      by_cases here : c = mark
      · simp [cut, here]
      · simp only [cut, if_neg here, List.mem_cons, not_or, List.cons_append, List.cons.injEq, true_and]
        exact ⟨⟨Ne.symm here, ih.1⟩, ih.2⟩

theorem occursIn_iff (piece cs : List Char) : occursIn piece cs = true ↔ piece <:+: cs := by
  induction cs with
  | nil => rw [occursIn, List.isEmpty_iff, List.infix_nil]
  | cons c rest ih => rw [occursIn, Bool.or_eq_true, List.isPrefixOf_iff_prefix, ih, List.infix_cons_iff]

end MachineRegisters.Text
