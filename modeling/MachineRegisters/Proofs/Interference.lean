import MachineRegisters.Proofs.HeldBits

/-! # Which writes interfere

A write to a register changes what another one reads if and only if the two overlap.
Where they do not, neither write disturbs the other, and it does not matter which
comes first (`independent_of_apart`).  Where they do, turning every bit of the one turns the
bits that it shares with the other (`bit_stored_complement`), so the other reads
differently afterwards (`independent_or_interfering`). -/
set_option autoImplicit false
namespace MachineRegisters.Machine
variable {m : Machine} {a b : Register}

theorem bit_stored_complement (fits : a.toBitSpan.Within (m.live a.bank)) {x : BitPlace} (held : a.Holds x) :
    (m.stored a (~~~a.toBitSpan.read m.config.byteOrder (m.live a.bank))).bit x = !m.bit x := by
  obtain ⟨i, inside, rfl⟩ := Register.exists_bitAt_of_holds m.config.byteOrder held
  rw [bit_stored_bitAt fits _ inside, BitVec.getLsbD_not, decide_eq_true inside, Bool.true_and,
    BitSpan.getLsbD_read _ _ _ inside]
  rfl

theorem stored_comm (fitsA : a.toBitSpan.Within (m.live a.bank)) (fitsB : b.toBitSpan.Within (m.live b.bank))
    (apart : ¬a.Overlaps b) (v : BitVec a.size) (w : BitVec b.size) :
    (m.stored a v).stored b w = (m.stored b w).stored a v := by
  have onlyA := rewritten_stored (m := m) v
  have onlyB := rewritten_stored (m := m) w
  have fitsBAfter : b.toBitSpan.Within ((m.stored a v).live b.bank) := onlyA.within fitsB
  have fitsAAfter : a.toBitSpan.Within ((m.stored b w).live a.bank) := onlyB.within fitsA
  apply (onlyA.trans (rewritten_stored w)).ext_bit (onlyB.trans (rewritten_stored v))
  funext x
  by_cases heldA : a.Holds x
  · have notB := Register.not_holds_of_not_overlaps apart heldA
    obtain ⟨i, inside, rfl⟩ := Register.exists_bitAt_of_holds m.config.byteOrder heldA
    rw [bit_stored_of_not_holds fitsBAfter w notB, bit_stored_bitAt fitsA v inside]
    exact (bit_stored_bitAt fitsAAfter v inside).symm
  · rw [bit_stored_of_not_holds fitsAAfter v heldA]
    by_cases heldB : b.Holds x
    · obtain ⟨i, inside, rfl⟩ := Register.exists_bitAt_of_holds m.config.byteOrder heldB
      rw [bit_stored_bitAt fitsB w inside]
      exact bit_stored_bitAt fitsBAfter w inside
    · rw [bit_stored_of_not_holds fitsBAfter w heldB, bit_stored_of_not_holds fitsA v heldA,
        bit_stored_of_not_holds fitsB w heldB]

theorem readBits_stored_of_apart (fitsA : a.toBitSpan.Within (m.live a.bank))
    (fitsB : b.toBitSpan.Within (m.live b.bank)) (apart : ¬a.Overlaps b) (v : BitVec a.size) :
    (m.stored a v).readBits b = m.readBits b := by
  rw [(rewritten_stored v).readBits_eq_iff fitsB]
  intro x held
  have reversed : ¬b.Overlaps a := fun shared => apart (Register.overlaps_comm.mp shared)
  exact bit_stored_of_not_holds fitsA v (Register.not_holds_of_not_overlaps reversed held)

/-- Neither of two writes to registers that do not overlap is seen by the other register, and they
come to the same in either order, whether or not one of them is refused. -/
structure Independent (m : Machine) (a b : Register) (v : BitVec a.size) (w : BitVec b.size) : Prop where
  unseen : ∃ u, m.readBits b = .ok u ∧ (m.writeBits a v).machine.readBits b = .ok u
  machine_eq : ((m.writeBits a v).machine.writeBits b w).machine =
    ((m.writeBits b w).machine.writeBits a v).machine
  answerA_eq : (m.writeBits a v).answer = ((m.writeBits b w).machine.writeBits a v).answer
  answerB_eq : ((m.writeBits a v).machine.writeBits b w).answer = (m.writeBits b w).answer

theorem independent_of_apart (fitsA : a.toBitSpan.Within (m.live a.bank))
    (fitsB : b.toBitSpan.Within (m.live b.bank)) (apart : ¬a.Overlaps b) (v : BitVec a.size)
    (w : BitVec b.size) : Independent m a b v w := by
  -- What each write does, at first or after the other.
  have writeA : ∀ n, Rewritten m n → n.writeBits a v =
      if m.isReadOnly a.name then .refused (.readOnly a.name) n else .done () (n.stored a v) :=
    fun n only => only.isReadOnly_eq a.name ▸ writeBits_of_within (only.within fitsA) v
  have writeB : ∀ n, Rewritten m n → n.writeBits b w =
      if m.isReadOnly b.name then .refused (.readOnly b.name) n else .done () (n.stored b w) :=
    fun n only => only.isReadOnly_eq b.name ▸ writeBits_of_within (only.within fitsB) w
  have onlyA := writeBits_rewritten m a v
  have onlyB := writeBits_rewritten m b w
  have read := readBits_of_within fitsB
  refine ⟨⟨_, read, ?_⟩, ?_, ?_, ?_⟩
  · rw [writeA m (.refl m)]
    split
    · exact read
    · exact (readBits_stored_of_apart fitsA fitsB apart v).trans read
  · rw [writeB _ onlyA, writeA _ onlyB, writeA m (.refl m), writeB m (.refl m)]
    cases m.isReadOnly a.name <;> cases m.isReadOnly b.name
    · exact stored_comm fitsA fitsB apart v w
    · rfl
    · rfl
    · rfl
  · rw [writeA _ onlyB, writeA m (.refl m)]
    split <;> rfl
  · rw [writeB _ onlyA, writeB m (.refl m)]
    split <;> rfl

/-- Registers that do not overlap are independent of each other, whatever is written to them; and if
one may be written, turning all its bits changes what any other reads that overlaps it. -/
theorem independent_or_interfering (reached : m.Reachable) (first : a ∈ m.registers)
    (second : b ∈ m.registers) :
    (¬a.Overlaps b → ∀ (v : BitVec a.size) (w : BitVec b.size), Independent m a b v w) ∧
      (a.Overlaps b → m.isReadOnly a.name = false →
        ∃ v, m.readBits a = .ok v ∧ ∃ after, m.writeBits a (~~~v) = .done () after ∧
          ∃ before now, m.readBits b = .ok before ∧ after.readBits b = .ok now ∧ before ≠ now) := by
  have sound := reached.sound
  have fitsA := sound.within first
  have fitsB := sound.within second
  refine ⟨fun apart v w => independent_of_apart fitsA fitsB apart v w, ?_⟩
  intro overlaps writable
  obtain ⟨x, heldA, heldB⟩ :=
    (Register.overlaps_iff (sound.placed.size_pos a first) (sound.placed.size_pos b second)).mp overlaps
  have turned := bit_stored_complement fitsA heldA
  have only := rewritten_stored (m := m) (~~~a.toBitSpan.read m.config.byteOrder (m.live a.bank))
  have readBefore := readBits_of_within fitsB
  have readAfter := readBits_of_within (only.within fitsB)
  refine ⟨_, readBits_of_within fitsA, _, writeBits_of_writable fitsA writable _, _, _, readBefore,
    readAfter, ?_⟩
  intro unchanged
  have same := (only.readBits_eq_iff fitsB).mp (readAfter.trans (unchanged ▸ readBefore.symm)) x heldB
  exact Bool.not_ne_self _ (turned.symm.trans same)

/-- High bytes first: a byte, the ten bits across its upper end, and the four bits behind them. -/
theorem independent_or_interfering_neighbours :
    ∃ (m : Machine) (a b c : Register), m.Reachable ∧ m.config.byteOrder = .highFirst ∧
      a ∈ m.registers ∧ b ∈ m.registers ∧ c ∈ m.registers ∧ a.Overlaps b ∧ ¬b.Overlaps c ∧
      (a.past, b.offset, b.past, c.offset) = (8, 3, 13, 13) ∧
      (∀ (v : BitVec b.size) (w : BitVec c.size), Independent m b c v w) ∧
      ∃ v, m.readBits a = .ok v ∧ (m.writeBits a (~~~v)).machine.readBits b ≠ m.readBits b := by
  have reached : Reachable ((empty { byteOrder := .highFirst }).run
      [.install "gpr a 1 0 0\ngpr b .10 .3 0\ngpr c .4 .13 0", .writeNamed "b" 0x155]) := ⟨_, _, rfl⟩
  let a : Register := ⟨⟨0, 8⟩, "a", .general, .general, 0, none, none, 0⟩
  let b : Register := ⟨⟨3, 10⟩, "b", .general, .general, 0, none, none, 1⟩
  let c : Register := ⟨⟨13, 4⟩, "c", .general, .general, 0, none, none, 2⟩
  obtain ⟨v, read, after, written, before, now, readBefore, readNow, changed⟩ :=
    (independent_or_interfering (a := a) (b := b) reached (by decide +kernel) (by decide +kernel)).2
      (by decide) (by decide +kernel)
  refine ⟨_, a, b, c, reached, by decide +kernel, by decide +kernel, by decide +kernel, by decide +kernel,
    by decide, by decide, rfl, ?_, v, read, ?_⟩
  · exact (independent_or_interfering reached (by decide +kernel) (by decide +kernel)).1 (by decide)
  · rw [written, readBefore]
    intro same
    exact changed (Except.ok.inj (same.symm.trans readNow))

end MachineRegisters.Machine
