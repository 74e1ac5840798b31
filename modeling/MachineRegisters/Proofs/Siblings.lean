import MachineRegisters.Proofs.Routes

/-! # Registers of two widths at one place

The sibling of a register is the first register of the other width where it begins.  Several registers
of one width may begin there, so going there and back may lead to another one, but all of them have one
sibling (`exists_sibling_back`).  With the lowest byte first the narrow one of two siblings holds the
low half of the wide one, after a write to that as well (`siblings_agree`). -/
set_option autoImplicit false
namespace MachineRegisters
namespace Machine
variable {m : Machine} {r s t : Register} {given wanted : Nat}

/-! ## The first register of a width -/

/-- The first register of a width that begins where another one does. -/
def firstAt (m : Machine) (r : Register) (wanted : Nat) : Option Register :=
  (m.inBank r.bank).find? fun t => t.offset = r.offset ∧ t.size = wanted

theorem firstAt_congr (bank : s.bank = r.bank) (offset : s.offset = r.offset) (wanted : Nat) :
    m.firstAt s wanted = m.firstAt r wanted := by
  rw [firstAt, firstAt, bank, offset]

theorem firstAt_eq_some (reached : m.Reachable) (first : m.firstAt r wanted = some t) :
    t ∈ m.registers ∧ t.bank = r.bank ∧ t.offset = r.offset ∧ t.size = wanted := by
  have matched : t.offset = r.offset ∧ t.size = wanted := by simpa using List.find?_some first
  have listed := List.mem_of_find?_eq_some first
  obtain ⟨member, bank⟩ := (reached.cataloged.mem_inBank_iff reached.sound.placed).mp listed
  exact ⟨member, bank, matched.1, matched.2⟩

/-- A register of that width that begins there has itself or one before it as the first. -/
theorem exists_firstAt (reached : m.Reachable) (member : t ∈ m.registers) (bank : t.bank = r.bank)
    (offset : t.offset = r.offset) : ∃ first, m.firstAt r t.size = some first := by
  have listed := (reached.cataloged.mem_inBank_iff reached.sound.placed).mpr ⟨member, bank⟩
  exact Option.isSome_iff_exists.mp (List.find?_isSome.mpr ⟨t, listed, decide_eq_true ⟨offset, rfl⟩⟩)

/-! ## Siblings -/

theorem sibling_of_mem (reached : m.Reachable) (member : r ∈ m.registers) (wanted : Nat) :
    m.sibling r.name r.size wanted = (m.firstAt r wanted).map fun t => t.name := by
  simp only [sibling, named_of_mem reached member, Option.filter_some, decide_true, if_true]
  rfl

theorem sibling_eq_some (reached : m.Reachable) {name other : String}
    (found : m.sibling name given wanted = some other) :
    ∃ r t, r ∈ m.registers ∧ r.name = name ∧ r.size = given ∧ m.firstAt r wanted = some t ∧ t.name = other := by
  unfold sibling at found
  split at found
  · cases found
  · next r named =>
      obtain ⟨named, size⟩ := Option.filter_eq_some_iff.mp named
      obtain ⟨member, same⟩ := (reached.cataloged.named_eq_some_iff reached.sound.placed).mp named
      obtain ⟨t, first, sameOther⟩ := Option.map_eq_some_iff.mp found
      exact ⟨r, t, member, same, of_decide_eq_true size, first, sameOther⟩

/-- Back from a sibling a register leads to it again, be it another than that one began with. -/
theorem exists_sibling_back (reached : m.Reachable) {name other : String}
    (found : m.sibling name given wanted = some other) :
    ∃ back, m.sibling other wanted given = some back ∧ m.sibling back given wanted = some other := by
  obtain ⟨r, t, member, -, rfl, first, rfl⟩ := sibling_eq_some reached found
  obtain ⟨memberToo, bank, offset, rfl⟩ := firstAt_eq_some reached first
  -- The search back finds a register, for `r` is there, but it may find one before `r`.
  obtain ⟨s, firstBack⟩ := exists_firstAt reached member bank.symm offset.symm
  obtain ⟨memberBack, bankBack, offsetBack, sizeBack⟩ := firstAt_eq_some reached firstBack
  refine ⟨s.name, ?_, ?_⟩
  · rw [sibling_of_mem reached memberToo, firstBack, Option.map_some]
  · rw [← sizeBack, sibling_of_mem reached memberBack,
      firstAt_congr (bankBack.trans bank) (offsetBack.trans offset), first, Option.map_some]

theorem sibling_sibling_sibling (reached : m.Reachable) (given wanted : Nat) (name : String) :
    (((m.sibling name given wanted).bind fun other => m.sibling other wanted given).bind fun back =>
      m.sibling back given wanted) = m.sibling name given wanted := by
  cases found : m.sibling name given wanted with
  | none => rfl
  | some other =>
      obtain ⟨back, there, again⟩ := exists_sibling_back reached found
      rw [Option.bind_some, there, Option.bind_some, again]

/-! ## What siblings hold -/

/-- Of two registers that begin at one place the narrower holds the low bits of the wider one. -/
theorem exists_readWord_low (reached : m.Reachable) (member : r ∈ m.registers) (memberToo : t ∈ m.registers)
    (bank : t.bank = r.bank) (offset : t.offset = r.offset) (narrower : r.size ≤ t.size) (narrow : t.size ≤ 64)
    (lowFirst : m.config.byteOrder = .lowFirst) :
    ∃ u v, m.readWord r = .ok u ∧ m.readWord t = .ok v ∧ u.toNat = v.toNat % 2 ^ r.size := by
  obtain ⟨u, readNarrow, bits⟩ := readWord_of_mem reached.sound member (Nat.le_trans narrower narrow)
  obtain ⟨v, readWide, bitsWide⟩ := readWord_of_mem reached.sound memberToo narrow
  refine ⟨u, v, readNarrow, readWide, Nat.eq_of_testBit_eq fun i => ?_⟩
  rw [Nat.testBit_mod_two_pow, BitVec.testBit_toNat, BitVec.testBit_toNat, bits, bitsWide, lowFirst,
    BitSpan.bitAt_lowFirst, BitSpan.bitAt_lowFirst, bank, offset]
  by_cases inside : i < r.size
  · have insideToo : i < t.size := Nat.lt_of_lt_of_le inside narrower
    rw [decide_eq_true inside, decide_eq_true insideToo, Bool.true_and, Bool.true_and]
  · rw [decide_eq_false inside, Bool.false_and, Bool.false_and]

theorem readWord_written (reached : m.Reachable) (member : t ∈ m.registers) (whole : t.size = 64)
    (writable : m.isReadOnly t.name = false) (v : Word) :
    m.writeWord t v = .done () (m.stored t (v.setWidth t.size)) ∧
      (m.stored t (v.setWidth t.size)).readWord t = .ok v := by
  have fits := reached.sound.within member
  have narrow : t.size ≤ 64 := Nat.le_of_eq whole
  refine ⟨writeWord_of_writable fits writable narrow v, ?_⟩
  rw [readWord_eq narrow, readBits_stored fits]
  exact congrArg Except.ok ((BitVec.setWidth_setWidth_of_le v (Nat.le_of_eq whole.symm)).trans v.setWidth_eq)

/-- From a name to the sibling, back and there again is as far as to the sibling, with either width first.
A narrow register and its sibling begin at one place of one bank.  With the lowest byte first the narrow
one holds the low half of its sibling in every state, and so the low half of a word written to that. -/
theorem siblings_agree (reached : m.Reachable) (name : String) :
    (((m.wideSibling name).bind m.narrowSibling).bind m.wideSibling = m.wideSibling name ∧
      ((m.narrowSibling name).bind m.wideSibling).bind m.narrowSibling = m.narrowSibling name) ∧
    ∀ wide, m.wideSibling name = some wide →
      ∃ r t, (r ∈ m.registers ∧ r.name = name ∧ r.size = 32) ∧ (t ∈ m.registers ∧ t.name = wide ∧ t.size = 64) ∧
        r.bank = t.bank ∧ r.offset = t.offset ∧
        (m.config.byteOrder = .lowFirst →
          (∃ u v, m.readNamed name = .ok u ∧ m.readNamed wide = .ok v ∧ u.toNat = v.toNat % 2 ^ 32) ∧
          (m.isReadOnly wide = false → ∀ v, ∃ after u,
            m.writeNamed wide v = .done () after ∧ after.readNamed name = .ok u ∧ u.toNat = v.toNat % 2 ^ 32)) := by
  refine ⟨⟨sibling_sibling_sibling reached 32 64 name, sibling_sibling_sibling reached 64 32 name⟩, ?_⟩
  intro wide found
  obtain ⟨r, t, member, rfl, half, first, rfl⟩ := sibling_eq_some reached found
  obtain ⟨memberToo, bank, offset, whole⟩ := firstAt_eq_some reached first
  have narrower : r.size ≤ t.size := by omega
  have narrow : t.size ≤ 64 := Nat.le_of_eq whole
  refine ⟨r, t, ⟨member, rfl, half⟩, ⟨memberToo, rfl, whole⟩, bank.symm, offset.symm, fun lowFirst => ⟨?_, ?_⟩⟩
  · rw [readNamed, readNamed, find_of_mem reached member, find_of_mem reached memberToo, ← half]
    exact exists_readWord_low reached member memberToo bank offset narrower narrow lowFirst
  · intro writable v
    obtain ⟨written, readWide⟩ := readWord_written reached memberToo whole writable v
    have writtenNamed : m.writeNamed t.name v = .done () (m.stored t (v.setWidth t.size)) := by
      rw [writeNamed, find_of_mem reached memberToo]
      exact written
    have reachedAfter : (m.stored t (v.setWidth t.size)).Reachable := by
      have performed := reached.perform (.writeNamed t.name v)
      rw [Machine.perform, writtenNamed] at performed
      exact performed
    obtain ⟨u, w, readNarrow, readToo, low⟩ :=
      exists_readWord_low reachedAfter member memberToo bank offset narrower narrow lowFirst
    obtain rfl := Except.ok.inj (readWide.symm.trans readToo)
    refine ⟨_, u, writtenNamed, ?_, half ▸ low⟩
    rw [readNamed, find_of_mem reachedAfter member]
    exact readNarrow

/-- Two registers of each width begin in the middle of a byte: from the second narrow one the way there and
back leads to the first. -/
theorem siblings_agree_doubled :
    ∃ m : Machine, m.Reachable ∧ m.config.byteOrder = .lowFirst ∧ m.wideSibling "b" = some "w" ∧
      m.narrowSibling "w" = some "a" ∧
      ((m.wideSibling "b").bind m.narrowSibling).bind m.wideSibling = m.wideSibling "b" ∧
      m.readNamed "w" = .ok 0x8000000180000002 ∧ m.readNamed "b" = .ok 0x80000002 ∧
      ∃ after u, m.writeNamed "w" 0x1234567890abcdef = .done () after ∧ after.readNamed "b" = .ok u ∧
        u.toNat = 0x90abcdef := by
  have reached : Reachable ((empty {}).run
      [.install "gpr x 1 0 0\ngpr w .64 .13 0\ngpr a .32 .13 0\ngpr b .32 .13 0\ngpr q .64 .13 0",
        .writeNamed "q" 0x8000000180000002, .push, .setReadOnly "b" true]) := ⟨_, _, rfl⟩
  obtain ⟨⟨closed, -⟩, values⟩ := siblings_agree reached "b"
  obtain ⟨-, -, -, -, -, -, low⟩ := values "w" (by decide +kernel)
  obtain ⟨after, u, written, read, half⟩ := (low rfl).2 (by decide +kernel) 0x1234567890abcdef
  exact ⟨_, reached, rfl, by decide +kernel, by decide +kernel, closed, by decide +kernel, by decide +kernel,
    after, u, written, read, half⟩

end Machine
end MachineRegisters
