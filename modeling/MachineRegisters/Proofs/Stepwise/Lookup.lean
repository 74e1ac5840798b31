import MachineRegisters.Proofs.FlagStorage
import MachineRegisters.Proofs.Catalogs
import MachineRegisters.Proofs.Stepwise.Registers
import MachineRegisters.Proofs.Stepwise.Spans

/-! # Finding registers, step by step

A catalog keeps positions, and the register at a position is taken from the list of all
registers without asking whether there is one.  There always is: the catalogs of a machine
are those of its registers, so every position that they keep is one of the list
(`registers_of_position`, `positions_eq`). -/
set_option autoImplicit false
namespace MachineRegisters.Stepwise

/-- What the steps of a machine rely on: storage of the right size and catalogs of the right
registers. -/
structure Ready (m : Machine) : Prop where
  sound : m.Sound
  cataloged : m.Cataloged

def maskBit (c : RegClass) : Option Nat := do
  let mask ← bitMask 32 (Listed.number c)
  return mask.toNat

def enterAll : Catalogs → List Register → Option Catalogs
  | cs, [] => some cs
  | cs, r :: rest => do
      let bit ← maskBit r.kind
      let c := cs.get r.bank
      enterAll (cs.set r.bank ⟨c.positions ++ [r.index], (r.name, r.index) :: c.names, c.mask ||| bit⟩) rest

def catalogs (rs : List Register) : Option Catalogs := enterAll .blank rs

def named (m : Machine) (name : String) : Option (Option Register) :=
  match m.catalogs.position? name with
  | none => some none
  | some n => do
      let r ← m.registers[n]?
      return some r

def playing (m : Machine) (role : Role) : Option (Option Register) :=
  match m.nameOf role with
  | none => some none
  | some name => named m name

def playingAny (m : Machine) (role? : Option Role) : Option (Option Register) :=
  match role? with
  | none => some none
  | some role => playing m role

def find (m : Machine) (name : String) : Option (Option Register) := do
  match ← named m name with
  | some r => some (some r)
  | none => playingAny m (Role.ofToken? name.toList)

def findByRole (m : Machine) (name : String) : Option (Option Register) := do
  match ← playingAny m (Role.ofToken? name.toList) with
  | some r => some (some r)
  | none => named m name

def namedOf (m : Machine) (name : String) (c : RegClass) : Option (Option Register) := do
  let found ← named m name
  return found.filter fun r => r.kind = c ∨ r.bank = c

def inBank (m : Machine) (c : RegClass) : Option (List Register) :=
  (m.catalog c).positions.mapM fun n => m.registers[n]?

def endsAt (size place : Nat) (r : Register) : Option Bool :=
  if r.size = size then do
    let behind ← past r
    return decide (behind = place)
  else some false

def below (m : Machine) (c : RegClass) (size bits : Nat) : Option (Option Register) :=
  let whole := 8 * (m.live c).length
  if whole < UInt32.size ∧ bits ≤ whole then do
    let rs ← inBank m c
    rs.findM? (endsAt size (whole - bits))
  else some none

def sibling (m : Machine) (name : String) (given wanted : Nat) : Option (Option String) := do
  let found ← named m name
  match found.filter fun r => r.size = given with
  | none => some none
  | some r => do
      let rs ← inBank m r.bank
      return (rs.find? fun t => t.offset = r.offset ∧ t.size = wanted).map fun t => t.name

def upcoming (m : Machine) (c : RegClass) : Option (Option Register) :=
  match (m.catalog c).positions[m.cursors.get c]? with
  | none => some none
  | some n => do
      let r ← m.registers[n]?
      return some r

def advance (m : Machine) (c : RegClass) : Option Machine := do
  match ← upcoming m c with
  | none => some m
  | some _ => some { m with cursors := m.cursors.set c (m.cursors.get c + 1) }

/-! ## Catalogs -/

theorem maskBit_eq (c : RegClass) : maskBit c = some c.maskBit := by
  cases c <;> rfl

theorem enterAll_eq (rs : List Register) : ∀ cs, enterAll cs rs = some (rs.foldl Catalogs.enter cs) := by
  induction rs with
  | nil => exact fun _ => rfl
  | cons r rest ih =>
      intro cs
      simp only [enterAll, maskBit_eq, Option.bind_eq_bind, Option.bind_some, ih, List.foldl_cons]
      rfl

theorem catalogs_eq (rs : List Register) : catalogs rs = some (.ofRegisters rs) :=
  enterAll_eq rs _

section
variable {m : Machine} (ready : Ready m)
include ready

theorem registers_of_position {c : RegClass} {n : Nat} (kept : n ∈ (m.catalog c).positions) :
    ∃ r, m.registers[n]? = some r := by
  rw [ready.cataloged.catalog_eq, Catalog.positions_foldl_enter] at kept
  rcases List.mem_append.mp kept with nothing | listed
  · cases nothing
  · obtain ⟨r, member, rfl⟩ := List.mem_map.mp listed
    exact ⟨r, ready.sound.placed.getElem?_index (List.mem_of_mem_filter member)⟩

theorem named_eq (name : String) : named m name = some (m.named name) := by
  rw [named, Machine.named]
  cases position : m.catalogs.position? name with
  | none => rfl
  | some n =>
      obtain ⟨c, -, inCatalog⟩ := List.exists_of_findSome?_eq_some position
      obtain ⟨r, member, -, -, rfl⟩ := (ready.cataloged.position?_eq_some_iff ready.sound.placed).mp inCatalog
      have here := ready.sound.placed.getElem?_index member
      simp only [here, Option.bind_eq_bind, Option.bind_some, Machine.atIndex]
      rfl

theorem playing_eq (role : Role) : playing m role = some (m.playing role) := by
  rw [playing, Machine.playing]
  cases m.nameOf role with
  | none => rfl
  | some name => exact named_eq ready name

theorem playingAny_eq (role? : Option Role) : playingAny m role? = some (role?.bind m.playing) := by
  cases role? with
  | none => rfl
  | some role => exact playing_eq ready role

theorem find_eq (name : String) : find m name = some (m.find name) := by
  simp only [find, Machine.find, named_eq ready, playingAny_eq ready, Option.bind_eq_bind, Option.bind_some]
  cases m.named name <;> rfl

theorem findByRole_eq (name : String) : findByRole m name = some (m.findByRole name) := by
  simp only [findByRole, Machine.findByRole, named_eq ready, playingAny_eq ready, Option.bind_eq_bind,
    Option.bind_some]
  cases (Role.ofToken? name.toList).bind m.playing <;> rfl

theorem namedOf_eq (name : String) (c : RegClass) : namedOf m name c = some (m.namedOf name c) := by
  simp only [namedOf, named_eq ready, Option.bind_eq_bind, Option.bind_some]
  rfl

theorem inBank_eq (c : RegClass) : inBank m c = some (m.inBank c) := by
  have positions : (m.catalog c).positions = (m.registers.filter fun r => r.bank = c).map fun r => r.index := by
    rw [ready.cataloged.catalog_eq, Catalog.positions_foldl_enter]
    rfl
  have each : ∀ r ∈ m.registers.filter (fun r => r.bank = c), m.registers[r.index]? = some (id r) :=
    fun r member => ready.sound.placed.getElem?_index (List.mem_of_mem_filter member)
  rw [inBank, positions, List.mapM_map, ready.cataloged.inBank_eq ready.sound.placed]
  exact (mapM_eq each).trans (congrArg some (List.map_id _))

theorem mem_of_inBank {c : RegClass} {r : Register} (member : r ∈ m.inBank c) :
    r ∈ m.registers ∧ r.bank = c := by
  rw [ready.cataloged.inBank_eq ready.sound.placed] at member
  exact ⟨List.mem_of_mem_filter member, by simpa using List.of_mem_filter member⟩

theorem below_eq (c : RegClass) (size bits : Nat) : below m c size bits = some (m.below c size bits) := by
  have each : ∀ place, ∀ r ∈ m.inBank c,
      endsAt size place r = some (decide (r.size = size ∧ r.past = place)) := by
    intro place r member
    have small := ready.sound.placed.past_lt r (mem_of_inBank ready member).1
    by_cases wide : r.size = size
    · simp only [endsAt, wide, if_true, past_eq small, Option.bind_eq_bind, Option.bind_some, Option.pure_def,
        true_and]
    · simp only [endsAt, wide, if_false, false_and, decide_false]
  simp only [below, Machine.below, inBank_eq ready, Option.bind_eq_bind, Option.bind_some, findM?_eq (each _)]
  split <;> rfl

theorem sibling_eq (name : String) (given wanted : Nat) :
    sibling m name given wanted = some (m.sibling name given wanted) := by
  simp only [sibling, Machine.sibling, named_eq ready, inBank_eq ready, Option.bind_eq_bind, Option.bind_some,
    Option.pure_def]
  cases (m.named name).filter fun r => r.size = given <;> rfl

theorem upcoming_eq (c : RegClass) : upcoming m c = some (m.upcoming c) := by
  rw [upcoming, Machine.upcoming]
  cases kept : (m.catalog c).positions[m.cursors.get c]? with
  | none => rfl
  | some n =>
      obtain ⟨r, here⟩ := registers_of_position ready (List.mem_of_getElem? kept)
      simp only [here, Option.bind_eq_bind, Option.bind_some, Machine.atIndex]
      rfl

theorem advance_eq (c : RegClass) : advance m c = some (m.advance c) := by
  simp only [advance, Machine.advance, upcoming_eq ready, Option.bind_eq_bind, Option.bind_some]
  cases m.upcoming c <;> rfl

end
end MachineRegisters.Stepwise
