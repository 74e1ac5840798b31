import MachineRegisters.Proofs.HeldBits
import MachineRegisters.Proofs.LeastChange
import MachineRegisters.Proofs.Refusing

/-! # Setting and reading all flags

Setting the flags writes each that is kept somewhere, and reading them reads each of
these, the others as clear.  Where no two flags share a bit the one undoes the other
(`setFlags_flags`): what has been set is read back as far as there are flags to keep it,
and to set it once more changes nothing.  If one of the flags lies in a register that
must not be written, none is set at all. -/
set_option autoImplicit false
namespace MachineRegisters

namespace FlagPlace
variable {order : ByteOrder} {mem other : BitPlace → Bool} {writes : List (FlagPlace × Bool)}

/-- What stood in the storage of a flag that is written does not count. -/
theorem putAll_congr_of_mem {x : BitPlace} (written : ∃ w ∈ writes, x ∈ w.1.storage order) :
    putAll order mem writes x = putAll order other writes x := by
  induction writes generalizing mem other with
  | nil =>
      obtain ⟨w, member, -⟩ := written
      cases member
  | cons w rest ih =>
      rw [putAll, putAll]
      by_cases later : ∃ v ∈ rest, x ∈ v.1.storage order
      · exact ih later
      · have untouched : ∀ v ∈ rest, x ∉ v.1.storage order :=
          fun v member stored => later ⟨v, member, stored⟩
        have here : x ∈ w.1.storage order := by
          obtain ⟨v, member, stored⟩ := written
          rcases List.mem_cons.mp member with rfl | inRest
          · exact stored
          · exact absurd stored (untouched v inRest)
        rw [putAll_of_notMem untouched, putAll_of_notMem untouched, put_of_mem here, put_of_mem here]

theorem putAll_putAll : putAll order (putAll order mem writes) writes = putAll order mem writes := by
  funext x
  by_cases written : ∃ w ∈ writes, x ∈ w.1.storage order
  · exact putAll_congr_of_mem written
  · exact putAll_of_notMem fun w member stored => written ⟨w, member, stored⟩

end FlagPlace

namespace Machine
open FlagPlace
variable {m : Machine}

def KeepsFlagsApart (m : Machine) : Prop :=
  ∀ f g p q, f ≠ g → m.locate f = some p → m.locate g = some q → Apart m.config.byteOrder p q

/-! ## The flags that are kept somewhere -/

theorem mem_locatedFlags {f : Flag} {p : FlagPlace} : (f, p) ∈ m.locatedFlags ↔ m.locate f = some p := by
  simp [locatedFlags, Flag.mem_all]

theorem locatedFlags_eq_nil_iff : m.locatedFlags = [] ↔ ∀ f, m.locate f = none := by
  simp [locatedFlags, Flag.mem_all]

theorem nodup_locatedFlags : (m.locatedFlags.map Prod.fst).Nodup := by
  have distinct : Flag.all.Nodup := by decide
  have listed : m.locatedFlags.map Prod.fst = Flag.all.filter fun f => (m.locate f).isSome := by
    rw [locatedFlags, List.map_filterMap, ← List.filterMap_eq_filter]
    congr 1
    funext f
    cases kept : m.locate f <;> simp [Option.guard, kept]
  rw [listed]
  exact distinct.filter _

theorem Rewritten.locatedFlags_eq {after : Machine} (only : Rewritten m after) :
    after.locatedFlags = m.locatedFlags := by
  simp only [locatedFlags, only.locate_eq]

theorem keepsFlagsApart_iff :
    m.KeepsFlagsApart ↔ m.locatedFlags.Pairwise fun i j => Apart m.config.byteOrder i.2 j.2 := by
  constructor
  · intro apart
    refine (List.pairwise_map.mp nodup_locatedFlags).imp_of_mem ?_
    intro i j first second distinct
    exact apart i.1 j.1 i.2 j.2 distinct (mem_locatedFlags.mp first) (mem_locatedFlags.mp second)
  · intro pairwise f g p q distinct first second
    have : Std.Symm fun i j : Flag × FlagPlace => Apart m.config.byteOrder i.2 j.2 :=
      ⟨fun _ _ => Apart.symm⟩
    apply pairwise.forall (mem_locatedFlags.mpr first) (mem_locatedFlags.mpr second)
    exact fun same => distinct (congrArg Prod.fst same)

theorem flags_of_sound (sound : m.Sound) (some : m.locatedFlags ≠ []) :
    m.flags = .ok (present m.config.byteOrder m.bit m.locatedFlags) := by
  rw [flags, if_neg some, readFlags_of_offers sound fun i member => offers_of_mem_locatedFlags member]
  rfl

theorem setFlags_of_located (fs : Flags) (some : m.locatedFlags ≠ []) :
    m.setFlags fs = m.writeFlags (m.locatedFlags.map fun i => (i.2, fs.get i.1)) := if_neg some

section Written
variable {order : ByteOrder} {mem : BitPlace → Bool} {fs : Flags}

theorem get_present_of_unlocated {f : Flag} (nowhere : m.locate f = none) :
    (present order mem m.locatedFlags).get f = false := by
  have absent : f ∉ m.locatedFlags.map Prod.fst := by
    intro listed
    obtain ⟨⟨g, p⟩, member, rfl⟩ := List.mem_map.mp listed
    cases nowhere.symm.trans (mem_locatedFlags.mp member)
  rw [present, get_flagsIn_of_notMem absent, Flags.get_clear]

theorem get_present_putAll (marked : ∀ i ∈ m.locatedFlags, marks order i.2 i.2 = true)
    (apart : m.locatedFlags.Pairwise fun i j => Apart order i.2 j.2) (f : Flag) :
    (present order (putAll order mem (m.locatedFlags.map fun i => (i.2, fs.get i.1))) m.locatedFlags).get f =
      (fs.get f && (m.locate f).isSome) := by
  cases kept : m.locate f with
  | none => rw [get_present_of_unlocated kept, Option.isSome_none, Bool.and_false]
  | some p =>
      have listed : (f, p) ∈ m.locatedFlags := mem_locatedFlags.mpr kept
      have written : (p, fs.get f) ∈ m.locatedFlags.map fun i => (i.2, fs.get i.1) :=
        List.mem_map.mpr ⟨(f, p), listed, rfl⟩
      rw [get_present nodup_locatedFlags listed, Option.isSome_some, Bool.and_true]
      exact lit_putAll_of_mem (marked _ listed) (List.pairwise_map.mpr apart) written

end Written

/-- The outcome of setting all flags that are kept somewhere: just these are set, they are read back
as they were set, and setting them again does nothing. -/
structure FlagsSet (m after : Machine) (fs : Flags) : Prop where
  rewritten : Rewritten m after
  readBack : ∃ got, after.flags = .ok got ∧ ∀ f, got.get f = (fs.get f && (m.locate f).isSome)
  frame : ∀ x, (∀ f p, m.locate f = some p → x ∉ p.storage m.config.byteOrder) → after.bit x = m.bit x
  again : after.setFlags fs = .done () after

theorem flagsSet_of_writable (sound : m.Sound) (fs : Flags) (some : m.locatedFlags ≠ [])
    (apart : m.KeepsFlagsApart)
    (writable : ∀ i ∈ m.locatedFlags, m.isReadOnly i.2.register.name = false) :
    ∃ after, m.setFlags fs = .done () after ∧ FlagsSet m after fs := by
  let writes := m.locatedFlags.map fun i => (i.2, fs.get i.1)
  have offered : ∀ w ∈ writes, m.Offers w.1 := offers_of_mem_settings fs
  have writableWrites : ∀ w ∈ writes, m.isReadOnly w.1.register.name = false := by
    intro w member
    obtain ⟨i, listed, rfl⟩ := List.mem_map.mp member
    exact writable i listed
  obtain ⟨after, done, only, bits⟩ := writeFlags_of_writable sound offered writableWrites
  have soundAfter := sound.rewritten only
  have someAfter : after.locatedFlags ≠ [] := only.locatedFlags_eq ▸ some
  refine ⟨after, (setFlags_of_located fs some).trans done, only, ?_, ?_, ?_⟩
  · refine ⟨_, flags_of_sound soundAfter someAfter, ?_⟩
    rw [only.config_eq, only.locatedFlags_eq, bits]
    exact get_present_putAll (fun i member => marks_self_of_offers sound (offers_of_mem_locatedFlags member) _)
      (keepsFlagsApart_iff.mp apart)
  · intro x elsewhere
    rw [bits]
    apply putAll_of_notMem
    intro w member
    obtain ⟨⟨f, p⟩, listed, rfl⟩ := List.mem_map.mp member
    exact elsewhere f p (mem_locatedFlags.mp listed)
  · -- The second time the bits that are written are there already.
    obtain ⟨again, doneAgain, onlyAgain, bitsAgain⟩ := writeFlags_of_writable soundAfter
      (fun w member => only.offers (offered w member))
      (fun w member => (only.isReadOnly_eq _).trans (writableWrites w member))
    have sameBits : again.bit = after.bit := by
      rw [bitsAgain, only.config_eq, bits, putAll_putAll]
    rw [onlyAgain.ext_bit (.refl after) sameBits] at doneAgain
    rw [setFlags_of_located fs someAfter, only.locatedFlags_eq]
    exact doneAgain

theorem exists_guarded_of_writeFlags {writes : List (FlagPlace × Bool)} {w : FlagPlace × Bool}
    (written : w ∈ writes) (guarded : m.isReadOnly w.1.register.name = true) :
    ∃ u ∈ writes, m.isReadOnly u.1.register.name = true ∧
      m.writeFlags writes = .refused (.readOnly u.1.register.name) m := by
  cases first : writes.find? fun u => m.isReadOnly u.1.register.name with
  | none => exact absurd guarded (List.find?_eq_none.mp first w written)
  | some u =>
      have guardedU := List.find?_some first
      exact ⟨u, List.mem_of_find?_eq_some first, guardedU, writeFlags_of_guarded first⟩

/-- Flags that are kept apart are set all or, if one is guarded, not at all, and what was set is read
back; with no flag kept anywhere there is nothing to set or read. -/
theorem setFlags_flags (reached : m.Reachable) (fs : Flags) :
    ((∀ f, m.locate f = none) →
        m.setFlags fs = .refused .flagsUnresolved m ∧ m.flags = .error .flagsUnresolved) ∧
      ((∃ f p, m.locate f = some p) → m.KeepsFlagsApart →
        ((∃ f p, m.locate f = some p ∧ m.isReadOnly p.register.name = true) →
            ∃ f p, m.locate f = some p ∧ m.isReadOnly p.register.name = true ∧
              m.setFlags fs = .refused (.readOnly p.register.name) m) ∧
          ((∀ f p, m.locate f = some p → m.isReadOnly p.register.name = false) →
            ∃ after, m.setFlags fs = .done () after ∧ FlagsSet m after fs)) := by
  refine ⟨?_, ?_⟩
  · intro nowhere
    have nothing := locatedFlags_eq_nil_iff.mpr nowhere
    exact ⟨if_pos nothing, if_pos nothing⟩
  · rintro ⟨g, q, located⟩ apart
    have some : m.locatedFlags ≠ [] := List.ne_nil_of_mem (mem_locatedFlags.mpr located)
    refine ⟨?_, ?_⟩
    · rintro ⟨f, p, kept, guarded⟩
      have listed : (p, fs.get f) ∈ m.locatedFlags.map fun i => (i.2, fs.get i.1) :=
        List.mem_map.mpr ⟨(f, p), mem_locatedFlags.mpr kept, rfl⟩
      obtain ⟨w, written, guardedW, refused⟩ := exists_guarded_of_writeFlags listed guarded
      obtain ⟨⟨h, r⟩, member, rfl⟩ := List.mem_map.mp written
      exact ⟨h, r, mem_locatedFlags.mp member, guardedW, (setFlags_of_located fs some).trans refused⟩
    · intro writable
      exact flagsSet_of_writable reached.sound fs some apart
        fun i member => writable i.1 i.2 (mem_locatedFlags.mp member)

/-- High bytes first: carry, in three bits, and parity, in a byte, lie in the status word that has the
marks of sign, zero and overflow; there is no place for adjust. -/
theorem setFlags_flags_highFirst :
    ∃ m : Machine, m.Reachable ∧ m.config.byteOrder = .highFirst ∧ m.KeepsFlagsApart ∧
      m.live .general = [0x50, 0x0e, 0, 0xa5] ∧ m.locate .adjust = none ∧
      ∃ after, m.setFlags ⟨true, false, true, true, true, false⟩ = .done () after ∧
        ∃ got, after.flags = .ok got ∧ got = ⟨true, false, false, true, true, false⟩ := by
  let st : Register := ⟨⟨0, 32⟩, "st", .general, .general, 0, some "s.zo", none, 0⟩
  let k : Register := ⟨⟨8, 3⟩, "k", .general, .general, 0, none, none, 1⟩
  let pf : Register := ⟨⟨0, 8⟩, "pf", .general, .general, 0, none, none, 2⟩
  let located : List (Flag × FlagPlace) :=
    [(.sign, .statusBit st 0), (.zero, .statusBit st 2), (.carry, .whole k), (.overflow, .statusBit st 3),
      (.parity, .whole pf)]
  obtain ⟨m, reached, order, places, bytes, known, free⟩ : ∃ m : Machine, m.Reachable ∧
      m.config.byteOrder = .highFirst ∧ m.locatedFlags = located ∧ m.live .general = [0x50, 0x0e, 0, 0xa5] ∧
      (∀ f ∈ Flag.all, (m.locate f).isSome = !decide (f = .adjust)) ∧
      ∀ i ∈ located, m.isReadOnly i.2.register.name = false :=
    ⟨(empty { byteOrder := .highFirst }).run
        [.install "=SR st\n=CF k\ngpr st .32 0 0 s.zo\ngpr k .3 .8 0\ngpr pf 1 0 0",
          .writeNamed "st" 0x500e00a5], ⟨_, _, rfl⟩, by decide +kernel, by decide +kernel, by decide +kernel,
      by decide +kernel, by decide +kernel⟩
  have apart : m.KeepsFlagsApart := by
    rw [keepsFlagsApart_iff, places, order]
    simp only [Apart, List.Disjoint]
    decide
  have kept : m.locate .sign = some (.statusBit st 0) := mem_locatedFlags.mp (places ▸ by decide)
  have missing : m.locate .adjust = none := by simpa using known .adjust (Flag.mem_all _)
  obtain ⟨-, writable⟩ := (setFlags_flags reached ⟨true, false, true, true, true, false⟩).2 ⟨_, _, kept⟩ apart
  obtain ⟨after, done, outcome⟩ :=
    writable fun f p found => free (f, p) (places ▸ mem_locatedFlags.mpr found)
  obtain ⟨got, read, told⟩ := outcome.readBack
  refine ⟨m, reached, order, apart, bytes, missing, after, done, got, read, ?_⟩
  apply Flags.ext_get
  intro f
  rw [told, known f (Flag.mem_all f)]
  cases f <;> rfl

end Machine
end MachineRegisters
