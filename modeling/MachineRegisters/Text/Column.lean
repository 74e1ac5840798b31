/-! # Columns

Placing a text in a column of a given width, counted in characters.  A text that
is wider than its column is left whole. -/
set_option autoImplicit false
namespace MachineRegisters.Text

inductive Align where
  | left
  | right
  | center
  deriving DecidableEq, Repr

/-- Fill a text up to `width` characters; a centered text has the odd one on its right. -/
def pad (align : Align) (fill : Char) (width : Nat) (cs : List Char) : List Char :=
  let missing := width - cs.length
  match align with
  | .left => cs ++ List.replicate missing fill
  | .right => List.replicate missing fill ++ cs
  | .center => List.replicate (missing / 2) fill ++ cs ++ List.replicate (missing - missing / 2) fill

theorem length_pad (align : Align) (fill : Char) (width : Nat) (cs : List Char) :
    (pad align fill width cs).length = max width cs.length := by
  cases align <;> simp [pad] <;> omega

end MachineRegisters.Text
