import MachineRegisters.Proofs.SpanBits
import MachineRegisters.Proofs.Storage
import Mathlib.Algebra.Order.Ring.Nat

/-! # Laws of reading and writing registers

A register that fits its bank and may be written takes any value of its width and
gives it back; outside its own bits nothing changes, a value that was just read
is written back without effect, and of two writes only the second counts
(`write_laws`).  Registers that lie inside others show the bits that they share
(`value_of_covered`). -/
set_option autoImplicit false
namespace MachineRegisters

namespace BitSpan

/-- A span whose places are those of another from bit `d` on holds that part of its value. -/
theorem toNat_read_of_bitAt {s t : BitSpan} {order : ByteOrder} {d : Nat} (inside : d + t.size ≤ s.size)
    (places : ∀ i, i < t.size → s.bitAt order (d + i) = t.bitAt order i) (bs : Bytes) :
    (t.read order bs).toNat = (s.read order bs).toNat / 2 ^ d % 2 ^ t.size := by
  apply Nat.eq_of_testBit_eq
  intro i
  rw [Nat.testBit_mod_two_pow, Nat.testBit_div_two_pow, BitVec.testBit_toNat, BitVec.testBit_toNat,
    Nat.add_comm i d]
  by_cases within : i < t.size
  · rw [getLsbD_read t order bs within, getLsbD_read s order bs (by omega), places i within,
      decide_eq_true within, Bool.true_and]
  · rw [BitVec.getLsbD_of_ge _ _ (by omega), decide_eq_false within, Bool.false_and]

theorem toNat_read_lowFirst_of_covers {s t : BitSpan} (covers : s.Covers t) (bs : Bytes) :
    (t.read .lowFirst bs).toNat =
      (s.read .lowFirst bs).toNat / 2 ^ (t.offset - s.offset) % 2 ^ t.size := by
  obtain ⟨start, stop⟩ := covers
  unfold past at stop
  refine toNat_read_of_bitAt (by omega) ?_ bs
  intro i within
  rw [bitAt_lowFirst, bitAt_lowFirst]
  omega

theorem toNat_read_highFirst_of_covers {s t : BitSpan} (covers : s.Covers t) (alignedS : s.Aligned)
    (alignedT : t.Aligned) (bs : Bytes) :
    (t.read .highFirst bs).toNat =
      (s.read .highFirst bs).toNat / 2 ^ (s.past - t.past) % 2 ^ t.size := by
  obtain ⟨start, stop⟩ := covers
  unfold past at stop ⊢
  refine toNat_read_of_bitAt (by omega) ?_ bs
  intro i within
  have wholeOffsetS : s.offset % 8 = 0 := alignedS.1
  have wholeSizeS : s.size % 8 = 0 := alignedS.2
  have wholeOffsetT : t.offset % 8 = 0 := alignedT.1
  have wholeSizeT : t.size % 8 = 0 := alignedT.2
  rw [bitAt, bitAt, if_pos ⟨rfl, alignedS⟩, if_pos ⟨rfl, alignedT⟩]
  omega

end BitSpan

namespace Machine

def stored (m : Machine) (r : Register) (v : BitVec r.size) : Machine :=
  m.setBank r.bank
    ⟨r.toBitSpan.write m.config.byteOrder v (m.live r.bank), (m.bank r.bank).saved⟩

/-- The two machines differ in the bits of one register at most. -/
structure ChangedOnlyIn (r : Register) (before after : Machine) : Prop where
  frame : after = { before with banks := after.banks }
  otherBanks : ∀ c, c ≠ r.bank → after.bank c = before.bank c
  saved : (after.bank r.bank).saved = (before.bank r.bank).saved
  length_live : (after.live r.bank).length = (before.live r.bank).length
  outside : ∀ i, ¬(r.offset ≤ i ∧ i < r.offset + r.size) →
    (after.live r.bank).bit i = (before.live r.bank).bit i

variable {m : Machine} {r : Register}

theorem live_stored (v : BitVec r.size) :
    (m.stored r v).live r.bank = r.toBitSpan.write m.config.byteOrder v (m.live r.bank) := by
  rw [stored, live, bank_setBank, if_pos rfl]

theorem writable_stored {name : String} (writable : m.isReadOnly name = false) (v : BitVec r.size) :
    (m.stored r v).isReadOnly name = false := writable

theorem readBits_of_within (fits : r.toBitSpan.Within (m.live r.bank)) :
    m.readBits r = .ok (r.toBitSpan.read m.config.byteOrder (m.live r.bank)) := if_pos fits

theorem store_of_within (fits : r.toBitSpan.Within (m.live r.bank)) (v : BitVec r.size) :
    m.store r v = .done () (m.stored r v) := if_pos fits

theorem within_stored (fits : r.toBitSpan.Within (m.live r.bank)) (v : BitVec r.size) :
    r.toBitSpan.Within ((m.stored r v).live r.bank) := by
  rw [live_stored]
  unfold BitSpan.Within
  rw [BitSpan.length_write]
  exact fits

theorem changedOnlyIn_stored (fits : r.toBitSpan.Within (m.live r.bank)) (v : BitVec r.size) :
    ChangedOnlyIn r m (m.stored r v) := by
  refine ⟨rfl, ?_, ?_, ?_, ?_⟩
  · intro c apart
    rw [stored, bank_setBank, if_neg (Ne.symm apart)]
  · rw [stored, bank_setBank, if_pos rfl]
  · rw [live_stored, BitSpan.length_write]
  · intro i outside
    rw [live_stored]
    exact BitSpan.bit_write_of_outside _ v fits outside

theorem readBits_stored (fits : r.toBitSpan.Within (m.live r.bank)) (v : BitVec r.size) :
    (m.stored r v).readBits r = .ok v := by
  have sameOrder : (m.stored r v).config = m.config := rfl
  rw [readBits_of_within (within_stored fits v), live_stored, sameOrder, BitSpan.read_write _ v fits]

theorem stored_stored (fits : r.toBitSpan.Within (m.live r.bank)) (v u : BitVec r.size) :
    (m.stored r v).stored r u = m.stored r u := by
  have sameOrder : (m.stored r v).config = m.config := rfl
  have sameLive : r.toBitSpan.write m.config.byteOrder u ((m.stored r v).live r.bank) =
      r.toBitSpan.write m.config.byteOrder u (m.live r.bank) := by
    rw [live_stored, BitSpan.write_write _ v u fits]
  have sameSaved : ((m.stored r v).bank r.bank).saved = (m.bank r.bank).saved :=
    (changedOnlyIn_stored fits v).saved
  rw [stored, sameOrder, sameLive, sameSaved]
  exact setBank_setBank m r.bank _ _

theorem stored_read (fits : r.toBitSpan.Within (m.live r.bank)) :
    m.stored r (r.toBitSpan.read m.config.byteOrder (m.live r.bank)) = m := by
  have sameBank : Bank.mk (m.live r.bank) (m.bank r.bank).saved = m.banks.get r.bank := rfl
  rw [stored, BitSpan.write_read _ fits, sameBank, setBank, TotalMap.set_get]

/-! ## Writing with checks -/

theorem writeBits_of_writable (fits : r.toBitSpan.Within (m.live r.bank))
    (writable : m.isReadOnly r.name = false) (v : BitVec r.size) :
    m.writeBits r v = .done () (m.stored r v) := by
  rw [writeBits, if_neg (by simp [writable]), dif_pos rfl, BitVec.cast_eq, store_of_within fits]

theorem writeWord_of_writable (fits : r.toBitSpan.Within (m.live r.bank))
    (writable : m.isReadOnly r.name = false) (narrow : r.size ≤ 64) (v : Word) :
    m.writeWord r v = .done () (m.stored r (v.setWidth r.size)) := by
  rw [writeWord, if_neg (by omega), if_neg (by simp [writable]), store_of_within fits]

theorem readWord_eq (narrow : r.size ≤ 64) :
    m.readWord r = (m.readBits r).map fun v => v.setWidth 64 := by
  rw [readWord, if_neg (by omega)]

/-- Any value goes into a register that may be written and comes back from it, and all else stays;
a word does so cut to the width of the register. -/
theorem write_laws (reached : m.Reachable) (member : r ∈ m.registers)
    (writable : m.isReadOnly r.name = false) :
    (∀ v : BitVec r.size, ∃ after, m.writeBits r v = .done () after ∧ after.readBits r = .ok v ∧
        ChangedOnlyIn r m after ∧ ∀ u : BitVec r.size, after.writeBits r u = m.writeBits r u) ∧
      (∃ v, m.readBits r = .ok v ∧ m.writeBits r v = .done () m) ∧
      (r.size ≤ 64 →
        (∀ v : Word, ∃ after, m.writeWord r v = .done () after ∧
            after.readWord r = .ok (BitVec.ofNat 64 (v.toNat % 2 ^ r.size)) ∧
            ChangedOnlyIn r m after ∧ ∀ u : Word, after.writeWord r u = m.writeWord r u) ∧
          ∃ v, m.readWord r = .ok v ∧ m.writeWord r v = .done () m) := by
  have fits := reached.sound.within member
  refine ⟨?_, ?_, ?_⟩
  · intro v
    refine ⟨m.stored r v, writeBits_of_writable fits writable v, readBits_stored fits v,
      changedOnlyIn_stored fits v, ?_⟩
    intro u
    rw [writeBits_of_writable fits writable u,
      writeBits_of_writable (within_stored fits v) (writable_stored writable v) u,
      stored_stored fits v u]
  · refine ⟨_, readBits_of_within fits, ?_⟩
    rw [writeBits_of_writable fits writable, stored_read fits]
  · intro narrow
    refine ⟨?_, ?_⟩
    · intro v
      refine ⟨m.stored r (v.setWidth r.size), writeWord_of_writable fits writable narrow v, ?_,
        changedOnlyIn_stored fits _, ?_⟩
      · have value : (v.setWidth r.size).setWidth 64 = BitVec.ofNat 64 (v.toNat % 2 ^ r.size) := by
          apply BitVec.eq_of_toNat_eq
          rw [BitVec.toNat_setWidth, BitVec.toNat_setWidth, BitVec.toNat_ofNat]
        rw [readWord_eq narrow, readBits_stored fits, ← value]
        rfl
      · intro u
        rw [writeWord_of_writable fits writable narrow u,
          writeWord_of_writable (within_stored fits _) (writable_stored writable _) narrow u,
          stored_stored fits]
    · refine ⟨(r.toBitSpan.read m.config.byteOrder (m.live r.bank)).setWidth 64, ?_, ?_⟩
      · rw [readWord_eq narrow, readBits_of_within fits]
        rfl
      · rw [writeWord_of_writable fits writable narrow, BitVec.setWidth_setWidth_of_le _ narrow,
          BitVec.setWidth_eq, stored_read fits]

/-- A register of ten whole bytes, highest first, that shares a byte with an unaligned one. -/
theorem write_laws_wide :
    ∃ (m : Machine) (r : Register), m.Reachable ∧ r ∈ m.registers ∧ m.isReadOnly r.name = false ∧
      r.size = 80 ∧ m.config.byteOrder = .highFirst ∧
      ∀ v : BitVec r.size, ∃ after, m.writeBits r v = .done () after ∧ after.readBits r = .ok v := by
  have reached : Reachable ((empty { byteOrder := .highFirst }).run
      [.install "gpr field .7 .13 0\ngpr wide 10 2 0", .setReadOnly "field" true,
        .writeBytes .general [1, 2, 3, 4]]) := ⟨_, _, rfl⟩
  refine ⟨_, ⟨⟨16, 80⟩, "wide", .general, .general, 0, none, none, 1⟩, reached, by decide +kernel,
    by decide +kernel, rfl, rfl, ?_⟩
  intro v
  obtain ⟨after, written, readBack, -, -⟩ :=
    (write_laws reached (by decide +kernel) (by decide +kernel)).1 v
  exact ⟨after, written, readBack⟩

/-- What a register holds is a part of what any register around it holds: counted from the low end
where the lowest byte comes first, whatever the spans, and from the high end where the highest byte
comes first and both are of whole bytes. -/
theorem value_of_covered {p q : Register} (reached : m.Reachable) (outer : p ∈ m.registers)
    (inner : q ∈ m.registers) (covers : p.Covers q) :
    ∃ (v : BitVec p.size) (u : BitVec q.size), m.readBits p = .ok v ∧ m.readBits q = .ok u ∧
      (m.config.byteOrder = .lowFirst →
        u.toNat = v.toNat / 2 ^ (q.offset - p.offset) % 2 ^ q.size) ∧
      (m.config.byteOrder = .highFirst → p.offset % 8 = 0 ∧ p.size % 8 = 0 →
        q.offset % 8 = 0 ∧ q.size % 8 = 0 →
          u.toNat = v.toNat / 2 ^ ((p.offset + p.size) - (q.offset + q.size)) % 2 ^ q.size) := by
  have sound := reached.sound
  refine ⟨_, _, readBits_of_within (sound.within outer), readBits_of_within (sound.within inner),
    ?_, ?_⟩
  · intro lowFirst
    rw [lowFirst, covers.1]
    exact BitSpan.toNat_read_lowFirst_of_covers covers.2 _
  · intro highFirst alignedOuter alignedInner
    rw [highFirst, covers.1]
    exact BitSpan.toNat_read_highFirst_of_covers covers.2 alignedOuter alignedInner _

/-- Five bits inside twelve that begin in the middle of a byte: `0x17` inside `0xABC`. -/
theorem value_of_covered_unaligned :
    ∃ (m : Machine) (p q : Register), m.Reachable ∧ p ∈ m.registers ∧ q ∈ m.registers ∧
      p.Covers q ∧ (p.size, q.size, q.offset - p.offset) = (12, 5, 3) ∧
      ∃ (v : BitVec p.size) (u : BitVec q.size), m.readBits p = .ok v ∧ m.readBits q = .ok u ∧
        v.toNat = 0xABC ∧ u.toNat = 0x17 ∧ u.toNat = v.toNat / 2 ^ 3 % 2 ^ 5 := by
  have reached : Reachable ((empty {}).run
      [.install "gpr p .12 .3 0\ngpr q .5 .6 0", .writeNamed "p" 0xABC]) := ⟨_, _, rfl⟩
  obtain ⟨v, u, outer, inner, shared, -⟩ := value_of_covered
    (p := ⟨⟨3, 12⟩, "p", .general, .general, 0, none, none, 0⟩)
    (q := ⟨⟨6, 5⟩, "q", .general, .general, 0, none, none, 1⟩)
    reached (by decide +kernel) (by decide +kernel) (by decide +kernel)
  have written : (((empty {}).run [.install "gpr p .12 .3 0\ngpr q .5 .6 0", .writeNamed "p" 0xABC]).readBits
      ⟨⟨3, 12⟩, "p", .general, .general, 0, none, none, 0⟩).map BitVec.toNat = .ok 0xABC := by decide +kernel
  rw [outer] at written
  have whole : v.toNat = 0xABC := Except.ok.inj written
  have part : u.toNat = v.toNat / 2 ^ 3 % 2 ^ 5 := shared rfl
  have value : u.toNat = 0x17 := by
    rw [part, whole]
    rfl
  exact ⟨_, _, _, reached, by decide +kernel, by decide +kernel, by decide +kernel, rfl,
    v, u, outer, inner, whole, value, part⟩

end Machine
end MachineRegisters
