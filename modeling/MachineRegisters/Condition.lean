import MachineRegisters.Flags

/-! # Conditions

A condition is a formula over the flags, named after the comparison it tests.
`holds` reads the flags in `inputs` and no others.  To make a condition come out
as wanted, `cheapestChange?` picks among the settings of its inputs the one that
costs least: fewest changed flags, then fewest among sign and overflow, then the
carry kept, then zero, then sign. -/
set_option autoImplicit false
namespace MachineRegisters

inductive Condition where
  | equal
  | notEqual
  | carry
  | negative
  | overflow
  | higher
  | higherOrSame
  | lower
  | lowerOrSame
  | greaterOrEqual
  | greater
  | less
  | lessOrEqual
  deriving DecidableEq, Repr

namespace Condition

def all : List Condition :=
  [equal, notEqual, carry, negative, overflow, higher, higherOrSame, lower, lowerOrSame,
    greaterOrEqual, greater, less, lessOrEqual]

def keyword : Condition → String
  | equal => "eq"
  | notEqual => "ne"
  | carry => "cf"
  | negative => "neg"
  | overflow => "of"
  | higher => "hi"
  | higherOrSame => "he"
  | lower => "lo"
  | lowerOrSame => "loe"
  | greaterOrEqual => "ge"
  | greater => "gt"
  | less => "lt"
  | lessOrEqual => "le"

/-- Three conditions can also be called by the full word for their flag. -/
def fullWord : Condition → Option String
  | carry => some "carry"
  | negative => some "negative"
  | overflow => some "overflow"
  | _ => none

def ofKeyword? (text : List Char) : Option Condition :=
  all.find? fun c =>
    Text.sameLetters c.keyword.toList text ||
      c.fullWord.any fun word => Text.sameLetters word.toList text

def holds : Condition → Flags → Bool
  | equal, f => f.zero
  | notEqual, f => !f.zero
  | carry, f => f.carry
  | negative, f => f.sign
  | overflow, f => f.overflow
  | higher, f => !f.carry && !f.zero
  | higherOrSame, f => !f.carry
  | lower, f => f.carry
  | lowerOrSame, f => f.carry || f.zero
  | greaterOrEqual, f => f.sign == f.overflow
  | greater, f => f.sign == f.overflow && !f.zero
  | less, f => f.sign != f.overflow
  | lessOrEqual, f => f.sign != f.overflow || f.zero

def inputs : Condition → List Flag
  | equal => [.zero]
  | notEqual => [.zero]
  | carry => [.carry]
  | higherOrSame => [.carry]
  | lower => [.carry]
  | negative => [.sign]
  | overflow => [.overflow]
  | higher => [.carry, .zero]
  | lowerOrSame => [.carry, .zero]
  | greaterOrEqual => [.sign, .overflow]
  | less => [.sign, .overflow]
  | greater => [.sign, .overflow, .zero]
  | lessOrEqual => [.sign, .overflow, .zero]

theorem holds_congr (c : Condition) {f g : Flags} (same : ∀ x ∈ c.inputs, f.get x = g.get x) :
    c.holds f = c.holds g := by
  cases c <;> simp_all [inputs, holds, Flags.get]

end Condition

namespace Flags

def changed (among : List Flag) (before after : Flags) : List Flag :=
  among.filter fun f => before.get f != after.get f

/-- What it costs to go from one setting to another; compared lexicographically. -/
def changeCost (before after : Flags) : List Nat :=
  [(changed Flag.all before after).length,
    (changed [.sign, .overflow] before after).length,
    (changed [.carry] before after).length,
    (changed [.zero] before after).length,
    (changed [.sign] before after).length]

def variations (fs : Flags) : List Flag → List Flags
  | [] => [fs]
  | f :: rest => fs.variations rest ++ (fs.set f (!fs.get f)).variations rest

end Flags

def cheapest? {α : Type} (cost : α → List Nat) : List α → Option α
  | [] => none
  | a :: rest =>
      match cheapest? cost rest with
      | none => some a
      | some b => if cost b < cost a then some b else some a

/-- The cheapest setting of the inputs under which the condition comes out as `wanted`. -/
def Condition.cheapestChange? (c : Condition) (wanted : Bool) (now : Flags) : Option Flags :=
  cheapest? now.changeCost ((now.variations c.inputs).filter fun fs => c.holds fs == wanted)

end MachineRegisters
