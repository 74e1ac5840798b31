import MachineRegisters.Proofs.Storage
import Mathlib.Data.List.Nodup
import Mathlib.Data.List.Perm.Basic

/-! # Finding registers in reachable machines

The list of registers and the catalogs of the banks say the same (`Coherent`), and
every reachable machine keeps them so (`coherent_of_reachable`).  A register is then
found under its name, its index and its class, a name that is no register's is looked
up as the token of a role and as nothing else, and indexing anew changes nothing but
where sequential reading stands. -/
set_option autoImplicit false
namespace MachineRegisters

theorem Role.ofToken?_eq_some_iff {text : List Char} {role : Role} :
    ofToken? text = some role ↔ Text.sameLetters role.token.toList text = true :=
  Text.findKeyword_eq_some_iff ofToken?_token

namespace Machine
open Register (WellPlaced)

/-- What is kept about the registers in several places is the same in all of them. -/
structure Coherent (m : Machine) : Prop where
  index_eq : ∀ (n : Nat) (r : Register), m.registers[n]? = some r → r.index = n
  names_nodup : (m.registers.map fun r => r.name).Nodup
  mem_inBank : ∀ c r, r ∈ m.inBank c ↔ r ∈ m.registers ∧ r.bank = c
  ascending : ∀ c, (m.inBank c).Pairwise fun r t => r.index < t.index
  /-- No position is listed that is not one of a register. -/
  positions_eq : ∀ c, (m.catalog c).positions = (m.inBank c).map fun r => r.index
  partition : (RegClass.all.flatMap m.inBank).Perm m.registers
  mask : ∀ c k, (m.classMask c).testBit k = true ↔
    ∃ r ∈ m.registers, r.bank = c ∧ Listed.number r.kind = k
  found : ∀ r ∈ m.registers,
    m.find r.name = some r ∧ m.atIndex r.index = some r ∧ m.namedOf r.name r.kind = some r
  foundByRole : ∀ name, name ∉ m.registers.map (fun r => r.name) → ∀ r, m.find name = some r ↔
    ∃ role, Text.sameLetters role.token.toList name.toList = true ∧ m.nameOf role = some r.name ∧
      r ∈ m.registers
  reindex_eq : m.reindex = { m with cursors := .const 0 }

variable {m : Machine}

theorem flatMap_inBank_perm (placed : WellPlaced m.registers)
    (listed : ∀ c, m.inBank c = m.registers.filter fun r => r.bank = c) :
    (RegClass.all.flatMap m.inBank).Perm m.registers := by
  have distinct : m.registers.Nodup := .of_map _ placed.names_nodup
  have distinctBanks : (RegClass.all.flatMap m.inBank).Nodup := by
    rw [List.nodup_flatMap]
    refine ⟨fun c _ => listed c ▸ distinct.filter _, ?_⟩
    refine (Listed.nodup_all (ι := RegClass)).imp ?_
    intro c d apart r inC inD
    rw [listed] at inC inD
    exact apart ((of_decide_eq_true (List.mem_filter.mp inC).2).symm.trans
      (of_decide_eq_true (List.mem_filter.mp inD).2))
  rw [List.perm_ext_iff_of_nodup distinctBanks distinct]
  intro r
  have anyBank : r.bank ∈ RegClass.all := Listed.mem_all r.bank
  simp [listed, anyBank]

/-- Indexing anew finds the registers where they are and fills the catalogs as they were. -/
theorem reindex_eq (cataloged : m.Cataloged) (placed : WellPlaced m.registers) :
    m.reindex = { m with cursors := .const 0 } := by
  have kept := registers_reindex placed
  have catalogsKept : m.reindex.catalogs = m.catalogs := by
    rw [cataloged, ← kept]
    rfl
  show { m with registers := m.reindex.registers, catalogs := m.reindex.catalogs, cursors := _ } = _
  rw [kept, catalogsKept]

theorem find_of_unknown (cataloged : m.Cataloged) (placed : WellPlaced m.registers) {name : String}
    (unknown : name ∉ m.registers.map fun r => r.name) {r : Register} :
    m.find name = some r ↔ ∃ role, Text.sameLetters role.token.toList name.toList = true ∧
      m.nameOf role = some r.name ∧ r ∈ m.registers := by
  have unnamed : m.named name = none := by
    by_contra known
    obtain ⟨t, named⟩ := Option.ne_none_iff_exists'.mp known
    obtain ⟨member, rfl⟩ := (cataloged.named_eq_some_iff placed).mp named
    exact unknown (List.mem_map_of_mem member)
  rw [find, unnamed, Option.none_or, Option.bind_eq_some_iff]
  simp only [Role.ofToken?_eq_some_iff, playing, Option.bind_eq_some_iff,
    cataloged.named_eq_some_iff placed]
  constructor
  · rintro ⟨role, spells, bound, nameOf, member, rfl⟩
    exact ⟨role, spells, nameOf, member⟩
  · rintro ⟨role, spells, nameOf, member⟩
    exact ⟨role, spells, r.name, nameOf, member, rfl⟩

/-- In every reachable machine the registers stand at their indices under names of their own, each
bank lists its registers and no others, and every register is found. -/
theorem coherent_of_reachable (reached : m.Reachable) : m.Coherent := by
  have placed := reached.sound.placed
  have cataloged := reached.cataloged
  have listed := cataloged.inBank_eq placed
  refine
    { index_eq := fun n r here => placed.index_of_getElem? here
      names_nodup := placed.names_nodup
      mem_inBank := ?_
      ascending := fun c => listed c ▸ placed.ascending.filter _
      positions_eq := ?_
      partition := flatMap_inBank_perm placed listed
      mask := cataloged.testBit_classMask
      found := ?_
      foundByRole := fun name unknown r => find_of_unknown cataloged placed unknown
      reindex_eq := reindex_eq cataloged placed }
  · intro c r
    rw [listed, List.mem_filter, decide_eq_true_iff]
  · intro c
    rw [listed, cataloged.catalog_eq, Catalog.positions_foldl_enter]
    rfl
  · intro r member
    have named : m.named r.name = some r := (cataloged.named_eq_some_iff placed).mpr ⟨member, rfl⟩
    refine ⟨?_, placed.getElem?_index member, ?_⟩
    · rw [find, named, Option.some_or]
    · rw [namedOf, named, Option.filter_some, if_pos (by simp)]

/-- A register with the name of a role that another one plays, and one in the bank of another class. -/
theorem coherent_of_reachable_shadowed :
    ∃ m : Machine, m.Reachable ∧ m.Coherent ∧ m.nameOf .stackPointer = some "a" ∧
      m.find "SP" = m.find "a" ∧ (m.find "sp").map (fun r => r.name) = some "sp" ∧
      (m.inBank .float).map (fun r => r.index) = [1, 3] ∧ m.classMask .float = 5 := by
  have reached : Reachable ((empty {}).run
      [.install "=SP a\ngpr a 4 0 0\nfpu x 8 0 0\ngpr sp 4 0 0\ngpr@fpu y 4 ? 0", .advance .general,
        .push, .install "gpr a 0 0 0"]) := ⟨_, _, rfl⟩
  exact ⟨_, reached, coherent_of_reachable reached, by decide +kernel, by decide +kernel,
    by decide +kernel, by decide +kernel, by decide +kernel⟩

end Machine
end MachineRegisters
