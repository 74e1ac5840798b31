import MachineRegisters.Register

/-! # Catalogs

Each bank has a catalog of the registers that are kept in it: their positions in
the list of all registers, the position of each name, and the set of their
classes.  The catalogs are filled in one pass over that list, and a name is looked
for in one catalog after the other. -/
set_option autoImplicit false
namespace MachineRegisters

structure Catalog where
  positions : List Nat
  /-- The position under each name; of two entries of one name the first counts. -/
  names : List (String × Nat)
  /-- One bit for each class that occurs. -/
  mask : Nat
  deriving DecidableEq, Repr

namespace Catalog

def blank : Catalog := ⟨[], [], 0⟩

def enter (c : Catalog) (r : Register) : Catalog where
  positions := c.positions ++ [r.index]
  names := (r.name, r.index) :: c.names
  mask := c.mask ||| r.kind.maskBit

def position? (c : Catalog) (name : String) : Option Nat := c.names.lookup name

theorem position?_enter (c : Catalog) (r : Register) (name : String) :
    (c.enter r).position? name = if r.name = name then some r.index else c.position? name := by
  unfold position? enter
  rw [List.lookup_cons]
  by_cases same : r.name = name
  · rw [if_pos same, same, beq_self_eq_true]
  · rw [if_neg same, beq_false_of_ne (Ne.symm same)]

end Catalog

abbrev Catalogs := TotalMap RegClass Catalog

namespace Catalogs

def blank : Catalogs := .const .blank

def enter (cs : Catalogs) (r : Register) : Catalogs := cs.set r.bank ((cs.get r.bank).enter r)

def ofRegisters (rs : List Register) : Catalogs := rs.foldl enter blank

/-- The position of a name in the first catalog that has it. -/
def position? (cs : Catalogs) (name : String) : Option Nat :=
  RegClass.all.findSome? fun c => (cs.get c).position? name

theorem get_foldl_enter (rs : List Register) (cs : Catalogs) (c : RegClass) :
    TotalMap.get (rs.foldl enter cs) c =
      (rs.filter fun r => r.bank = c).foldl Catalog.enter (cs.get c) := by
  induction rs generalizing cs with
  | nil => rfl
  | cons r rest ih =>
      rw [List.foldl_cons, ih, enter, TotalMap.get_set]
      by_cases here : r.bank = c
      · subst here
        rw [if_pos rfl, List.filter_cons_of_pos (by simp), List.foldl_cons]
      · rw [if_neg here, List.filter_cons_of_neg (by simp [here])]

/-- The catalog of a bank has just the registers of the bank, in their order. -/
theorem get_ofRegisters (rs : List Register) (c : RegClass) :
    TotalMap.get (ofRegisters rs) c = (rs.filter fun r => r.bank = c).foldl Catalog.enter .blank := by
  rw [ofRegisters, get_foldl_enter, blank, TotalMap.get_const]

end Catalogs
end MachineRegisters
