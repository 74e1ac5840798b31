import MachineRegisters.Proofs.Effects
import MachineRegisters.Proofs.Placement
import Mathlib.Data.List.Nodup

/-! # What the catalogs tell

The catalogs of a machine repeat what its list of registers says, and no operation
lets the two get out of step (`Reachable.cataloged`).  When the registers are well
placed, the catalogs give back just the registers of a bank (`inBank_eq`), the one
register of a name (`named_eq_some_iff`) and the classes that occur
(`testBit_classMask`). -/
set_option autoImplicit false
namespace MachineRegisters

namespace Catalog
variable (rs : List Register) (c : Catalog)

theorem positions_foldl_enter :
    (rs.foldl enter c).positions = c.positions ++ rs.map fun r => r.index := by
  induction rs generalizing c with
  | nil => exact (List.append_nil _).symm
  | cons r rest ih =>
      rw [List.foldl_cons, ih, enter, List.map_cons, List.append_assoc]
      rfl

/-- Of the registers of one name the last is found. -/
theorem position?_foldl_enter (name : String) :
    (rs.foldl enter c).position? name =
      ((rs.reverse.find? fun r => r.name = name).map fun r => r.index).or (c.position? name) := by
  induction rs generalizing c with
  | nil => rfl
  | cons r rest ih =>
      rw [List.foldl_cons, ih, position?_enter, List.reverse_cons, List.find?_append]
      cases rest.reverse.find? fun t => t.name = name with
      | some later => rfl
      | none => by_cases same : r.name = name <;> simp [same]

theorem testBit_maskBit (kind : RegClass) (k : Nat) :
    kind.maskBit.testBit k = decide (Listed.number kind = k) := by
  rw [RegClass.maskBit, Nat.one_shiftLeft, Nat.testBit_two_pow]

theorem testBit_mask_foldl_enter (k : Nat) :
    (rs.foldl enter c).mask.testBit k =
      (c.mask.testBit k || rs.any fun r => Listed.number r.kind = k) := by
  induction rs generalizing c with
  | nil => exact (Bool.or_false _).symm
  | cons r rest ih =>
      rw [List.foldl_cons, ih, List.any_cons, ← Bool.or_assoc, enter, Nat.testBit_or, testBit_maskBit]

end Catalog

namespace Register.WellPlaced
variable {rs : List Register} {r t : Register}

theorem index_of_getElem? (placed : WellPlaced rs) {n : Nat} (here : rs[n]? = some r) : r.index = n := by
  obtain ⟨inside, rfl⟩ := List.getElem?_eq_some_iff.mp here
  have entry := congrArg (fun indices => indices[n]?) placed.index_eq
  simpa [inside] using entry

theorem getElem?_index (placed : WellPlaced rs) (member : r ∈ rs) : rs[r.index]? = some r := by
  obtain ⟨n, here⟩ := List.mem_iff_getElem?.mp member
  rw [placed.index_of_getElem? here, here]

theorem eq_of_name (placed : WellPlaced rs) (first : r ∈ rs) (second : t ∈ rs)
    (same : r.name = t.name) : r = t :=
  List.inj_on_of_nodup_map placed.names_nodup first second same

theorem ascending (placed : WellPlaced rs) : rs.Pairwise fun r t => r.index < t.index := by
  rw [← List.pairwise_map (f := fun r : Register => r.index) (R := (· < ·)), placed.index_eq]
  exact List.pairwise_lt_range

end Register.WellPlaced

namespace Machine
open Register (WellPlaced)

def Cataloged (m : Machine) : Prop := m.catalogs = .ofRegisters m.registers

theorem cataloged_empty (config : Config) : (empty config).Cataloged := rfl

variable {m : Machine}

theorem Cataloged.effect {after : Machine} (cataloged : m.Cataloged) (done : Effect m after) :
    after.Cataloged := by
  rcases done.layout_cases with ⟨source, rs, -, -, rfl⟩ | rfl | ⟨-, sameRegisters, sameCatalogs⟩
  · rfl
  · rfl
  · rw [Cataloged, sameRegisters, sameCatalogs]
    exact cataloged

theorem Reachable.cataloged (reached : m.Reachable) : m.Cataloged := by
  obtain ⟨config, ops, rfl⟩ := reached
  exact run_keeps (fun m op cataloged => cataloged.effect (perform_effect m op)) ops _
    (cataloged_empty config)

namespace Cataloged

theorem catalog_eq (cataloged : m.Cataloged) (c : RegClass) :
    m.catalog c = (m.registers.filter fun r => r.bank = c).foldl Catalog.enter .blank := by
  rw [catalog, cataloged, Catalogs.get_ofRegisters]

theorem inBank_eq (cataloged : m.Cataloged) (placed : WellPlaced m.registers) (c : RegClass) :
    m.inBank c = m.registers.filter fun r => r.bank = c := by
  have each : ∀ r ∈ m.registers.filter fun r => r.bank = c, m.atIndex r.index = some r :=
    fun r member => placed.getElem?_index (List.mem_of_mem_filter member)
  rw [inBank, cataloged.catalog_eq, Catalog.positions_foldl_enter, List.filterMap_append,
    List.filterMap_map]
  exact (List.filterMap_congr each).trans List.filterMap_some

theorem mem_inBank_iff (cataloged : m.Cataloged) (placed : WellPlaced m.registers) {c : RegClass} {r : Register} :
    r ∈ m.inBank c ↔ r ∈ m.registers ∧ r.bank = c := by
  rw [cataloged.inBank_eq placed, List.mem_filter, decide_eq_true_iff]

theorem positions_eq (cataloged : m.Cataloged) (placed : WellPlaced m.registers) (c : RegClass) :
    (m.catalog c).positions = (m.inBank c).map fun r => r.index := by
  rw [cataloged.inBank_eq placed, cataloged.catalog_eq, Catalog.positions_foldl_enter]
  rfl

theorem position?_eq_some_iff (cataloged : m.Cataloged) (placed : WellPlaced m.registers) {c : RegClass}
    {name : String} {n : Nat} :
    (m.catalog c).position? name = some n ↔
      ∃ r ∈ m.registers, r.bank = c ∧ r.name = name ∧ r.index = n := by
  have nothing : Catalog.blank.position? name = none := rfl
  rw [cataloged.catalog_eq, Catalog.position?_foldl_enter, nothing, Option.or_none, Option.map_eq_some_iff]
  constructor
  · rintro ⟨r, found, index⟩
    obtain ⟨member, here⟩ := List.mem_filter.mp (List.mem_reverse.mp (List.mem_of_find?_eq_some found))
    exact ⟨r, member, of_decide_eq_true here, by simpa using List.find?_some found, index⟩
  · rintro ⟨r, member, here, named, index⟩
    refine ⟨r, ?_, index⟩
    cases found : (m.registers.filter fun r => r.bank = c).reverse.find? fun r => r.name = name with
    | none =>
        have listed : r ∈ (m.registers.filter fun r => r.bank = c).reverse :=
          List.mem_reverse.mpr (List.mem_filter.mpr ⟨member, decide_eq_true here⟩)
        exact absurd (decide_eq_true named) (List.find?_eq_none.mp found r listed)
    | some t =>
        have memberT := List.mem_of_mem_filter (List.mem_reverse.mp (List.mem_of_find?_eq_some found))
        have namedT : t.name = name := by simpa using List.find?_some found
        rw [placed.eq_of_name memberT member (namedT.trans named.symm)]

theorem named_eq_some_iff (cataloged : m.Cataloged) (placed : WellPlaced m.registers) {name : String}
    {r : Register} : m.named name = some r ↔ r ∈ m.registers ∧ r.name = name := by
  constructor
  · intro found
    obtain ⟨n, position, atN⟩ := Option.bind_eq_some_iff.mp found
    obtain ⟨c, -, inCatalog⟩ := List.exists_of_findSome?_eq_some position
    obtain ⟨t, member, -, named, rfl⟩ := (cataloged.position?_eq_some_iff placed).mp inCatalog
    obtain rfl : t = r := Option.some.inj ((placed.getElem?_index member).symm.trans atN)
    exact ⟨member, named⟩
  · rintro ⟨member, named⟩
    cases position : m.catalogs.position? name with
    | none =>
        have unknown := List.findSome?_eq_none_iff.mp position r.bank (Listed.mem_all r.bank)
        have known := (cataloged.position?_eq_some_iff placed).mpr ⟨r, member, rfl, named, rfl⟩
        cases unknown.symm.trans known
    | some n =>
        obtain ⟨c, -, inCatalog⟩ := List.exists_of_findSome?_eq_some position
        obtain ⟨t, memberT, -, namedT, rfl⟩ := (cataloged.position?_eq_some_iff placed).mp inCatalog
        obtain rfl := placed.eq_of_name memberT member (namedT.trans named.symm)
        rw [Machine.named, position]
        exact placed.getElem?_index member

theorem testBit_classMask (cataloged : m.Cataloged) (c : RegClass) (k : Nat) :
    (m.classMask c).testBit k = true ↔ ∃ r ∈ m.registers, r.bank = c ∧ Listed.number r.kind = k := by
  have empty : Catalog.blank.mask.testBit k = false := Nat.zero_testBit k
  rw [classMask, cataloged.catalog_eq, Catalog.testBit_mask_foldl_enter, empty, Bool.false_or]
  simp

end Cataloged
end Machine
end MachineRegisters
