import MachineRegisters.Proofs.FlagStorage

/-! # The bits that a register holds

A register holds the bits of its span in its bank, whatever the order of bytes.  Two
registers overlap just when some bit is held by both (`overlaps_iff`).  What a register
reads depends on the bits that it holds and on nothing else (`readBits_eq_iff`), and a
machine of which only live bytes were rewritten is known by its bits (`ext_bit`). -/
set_option autoImplicit false
namespace MachineRegisters

def Register.Holds (r : Register) (x : BitPlace) : Prop := x.1 = r.bank ∧ r.offset ≤ x.2 ∧ x.2 < r.past

namespace Register
variable {r t : Register} {x : BitPlace}

theorem holds_bitAt (order : ByteOrder) {i : Nat} (inside : i < r.size) :
    r.Holds (r.bank, r.bitAt order i) := ⟨rfl, r.toBitSpan.bitAt_mem order inside⟩

theorem exists_bitAt_of_holds (order : ByteOrder) (held : r.Holds x) :
    ∃ i, i < r.size ∧ (r.bank, r.bitAt order i) = x := by
  obtain ⟨i, inside, place⟩ := r.toBitSpan.exists_bitAt order held.2.1 held.2.2
  exact ⟨i, inside, Prod.ext held.1.symm place⟩

theorem mem_storage_whole_iff {order : ByteOrder} : x ∈ (FlagPlace.whole r).storage order ↔ r.Holds x := by
  constructor
  · intro stored
    obtain ⟨i, ranged, rfl⟩ := List.mem_map.mp stored
    exact holds_bitAt order (List.mem_range.mp ranged)
  · intro held
    obtain ⟨i, inside, place⟩ := exists_bitAt_of_holds order held
    exact List.mem_map.mpr ⟨i, List.mem_range.mpr inside, place⟩

theorem overlaps_comm : r.Overlaps t ↔ t.Overlaps r :=
  and_congr eq_comm and_comm

theorem not_holds_of_not_overlaps (apart : ¬r.Overlaps t) (held : r.Holds x) : ¬t.Holds x := by
  intro heldToo
  apply apart
  obtain ⟨bank, above, below⟩ := held
  obtain ⟨bankToo, aboveToo, belowToo⟩ := heldToo
  exact ⟨bank.symm.trans bankToo, Nat.lt_of_le_of_lt above belowToo, Nat.lt_of_le_of_lt aboveToo below⟩

theorem overlaps_iff (wide : 0 < r.size) (wideToo : 0 < t.size) :
    r.Overlaps t ↔ ∃ x, r.Holds x ∧ t.Holds x := by
  constructor
  · rintro ⟨bank, before, behind⟩
    -- The bit that begins the later of the two is held by both.
    refine ⟨(r.bank, max r.offset t.offset), ⟨rfl, ?_⟩, ⟨bank, ?_⟩⟩
    · unfold BitSpan.past at *
      omega
    · unfold BitSpan.past at *
      omega
  · rintro ⟨x, held, heldToo⟩
    by_contra apart
    exact not_holds_of_not_overlaps apart held heldToo

end Register

namespace Machine
variable {m n o : Machine} {r : Register}

/-- Live bytes of the same lengths are told apart by their bits. -/
theorem Rewritten.ext_bit (first : Rewritten m n) (second : Rewritten m o) (same : n.bit = o.bit) :
    n = o := by
  have banks : n.banks = o.banks := by
    apply TotalMap.ext_get
    intro c
    have liveSame : n.live c = o.live c := by
      apply Bytes.ext_bit
      · rw [first.length_live, second.length_live]
      · exact fun i => congrFun same (c, i)
    have savedSame : (n.bank c).saved = (o.bank c).saved := by rw [first.saved, second.saved]
    show n.bank c = o.bank c
    cases onN : n.bank c
    cases onO : o.bank c
    simp only [live, onN, onO] at liveSame savedSame
    rw [liveSame, savedSame]
  rw [first.frame, second.frame, banks]

theorem Rewritten.within {s : BitSpan} {c : RegClass} (only : Rewritten m n) (fits : s.Within (m.live c)) :
    s.Within (n.live c) := by
  unfold BitSpan.Within
  rw [only.length_live]
  exact fits

theorem Rewritten.readBits_eq_iff (only : Rewritten m n) (fits : r.toBitSpan.Within (m.live r.bank)) :
    n.readBits r = m.readBits r ↔ ∀ x, r.Holds x → n.bit x = m.bit x := by
  rw [readBits_of_within fits, readBits_of_within (only.within fits), only.config_eq, Except.ok.injEq]
  constructor
  · intro sameValue x held
    obtain ⟨i, inside, rfl⟩ := Register.exists_bitAt_of_holds m.config.byteOrder held
    have sameBit := congrArg (fun v => v.getLsbD i) sameValue
    simp only [BitSpan.getLsbD_read _ _ _ inside] at sameBit
    exact sameBit
  · intro agree
    apply BitVec.eq_of_getLsbD_eq
    intro i inside
    rw [BitSpan.getLsbD_read _ _ _ inside, BitSpan.getLsbD_read _ _ _ inside]
    exact agree (r.bank, r.bitAt m.config.byteOrder i) (r.holds_bitAt _ inside)

theorem rewritten_stored (v : BitVec r.size) : Rewritten m (m.stored r v) :=
  .setBank (BitSpan.length_write _ _ _ _) rfl

/-- With enough room a write of the right width is refused for one reason only. -/
theorem writeBits_of_within (fits : r.toBitSpan.Within (m.live r.bank)) (v : BitVec r.size) :
    m.writeBits r v =
      if m.isReadOnly r.name then .refused (.readOnly r.name) m else .done () (m.stored r v) := by
  cases guarded : m.isReadOnly r.name with
  | true => exact if_pos guarded
  | false => exact writeBits_of_writable fits guarded v

theorem bit_stored_of_not_holds (fits : r.toBitSpan.Within (m.live r.bank)) (v : BitVec r.size)
    {x : BitPlace} (apart : ¬r.Holds x) : (m.stored r v).bit x = m.bit x :=
  bit_stored_of_apart fits v fun stored => apart (Register.mem_storage_whole_iff.mp stored)

end Machine
end MachineRegisters
