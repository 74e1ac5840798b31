import MachineRegisters.Proofs.Finding
import MachineRegisters.Proofs.HeldBits
import MachineRegisters.Proofs.Stepwise.Access
import MachineRegisters.Proofs.Stepwise.FixedWidth

/-! # Ways to one register

A register is read and written as itself, by its name, by a role bound to its name, and
as bits of its width.  A name finds its register whatever role has it for a token
(`find_of_mem`), and all ways check the same in the same order: that a word is wide
enough, then that the register may be written (`writeWord_of_mem`).  So they agree in
answer and effect, and what is read as a word is the number in the bits of the register
(`routes_agree`). -/
set_option autoImplicit false
namespace MachineRegisters
namespace Machine
variable {m : Machine} {r : Register} {role : Role}

/-! ## Finding the register -/

theorem named_of_mem (reached : m.Reachable) (member : r ∈ m.registers) : m.named r.name = some r :=
  (reached.cataloged.named_eq_some_iff reached.sound.placed).mpr ⟨member, rfl⟩

theorem find_of_mem (reached : m.Reachable) (member : r ∈ m.registers) : m.find r.name = some r := by
  rw [find, named_of_mem reached member, Option.some_or]

theorem playing_of_mem (reached : m.Reachable) (member : r ∈ m.registers)
    (bound : m.nameOf role = some r.name) : m.playing role = some r := by
  rw [playing, bound, Option.bind_some, named_of_mem reached member]

/-! ## Words and bits -/

/-- A word goes into any register that is narrow enough and may be written, and into no other. -/
theorem writeWord_of_mem (reached : m.Reachable) (member : r ∈ m.registers) (v : Word) :
    m.writeWord r v =
      if 64 < r.size then .refused (.sizeMismatch 64 r.size) m
      else if m.isReadOnly r.name then .refused (.readOnly r.name) m
      else .done () (m.stored r (v.setWidth r.size)) := by
  rw [writeWord, store_of_within (reached.sound.within member)]

theorem writeBits_setWidth (reached : m.Reachable) (member : r ∈ m.registers) (narrow : r.size ≤ 64)
    (v : Word) : m.writeBits r (v.setWidth r.size) = m.writeWord r v := by
  rw [writeBits_of_within (reached.sound.within member), writeWord_of_mem reached member,
    if_neg (Nat.not_lt.mpr narrow)]

theorem toWord?_of_narrow (narrow : r.size ≤ 64) (v : BitVec r.size) :
    Bits.toWord? v = some (v.setWidth 64) ∧ (v.setWidth 64).toNat = v.toNat := by
  have small : v.toNat < UInt64.size :=
    Nat.lt_of_lt_of_le v.isLt (Nat.pow_le_pow_right (by decide) narrow)
  refine ⟨if_pos small, ?_⟩
  rw [BitVec.toNat_setWidth]
  exact Nat.mod_eq_of_lt small

/-- All ways to write a word to a register have one outcome, and all ways to read it one answer: the
number in its bits if it is narrow enough, which no conversion cuts off or replaces. -/
theorem routes_agree (reached : m.Reachable) (member : r ∈ m.registers) :
    (∀ v : Word,
        m.writeNamed r.name v = m.writeWord r v ∧
          (∀ role, m.nameOf role = some r.name → m.writeRole role v = m.writeWord r v) ∧
          (r.size ≤ 64 →
            m.writeBits r (v.setWidth r.size) = m.writeWord r v ∧
              (Stepwise.Packed.ofWord r.size v).bind (Stepwise.writeBits m r) = some (m.writeWord r v)) ∧
          m.writeWord r v =
            if 64 < r.size then .refused (.sizeMismatch 64 r.size) m
            else if m.isReadOnly r.name then .refused (.readOnly r.name) m
            else .done () (m.stored r (v.setWidth r.size))) ∧
      m.readNamed r.name = m.readWord r ∧
      (∀ role, m.nameOf role = some r.name → m.readRole role = m.readWord r) ∧
      (64 < r.size → m.readWord r = .error (.sizeMismatch 64 r.size)) ∧
      (r.size ≤ 64 → ∃ (b : BitVec r.size) (w : Word),
        m.readBits r = .ok b ∧ m.readWord r = .ok w ∧ w.toNat = b.toNat ∧
          Stepwise.readBits m r = some (.ok (.of b)) ∧ (Stepwise.Packed.of b).toWord = some (some w) ∧
          Stepwise.readWord m r = some (.ok w)) := by
  have ready : Stepwise.Ready m := ⟨reached.sound, reached.cataloged⟩
  have found := find_of_mem reached member
  refine ⟨?_, ?_, ?_, fun wide => if_pos wide, ?_⟩
  · intro v
    refine ⟨?_, ?_, ?_, writeWord_of_mem reached member v⟩
    · rw [writeNamed, found]
    · intro role bound
      rw [writeRole, playing_of_mem reached member bound]
    · intro narrow
      have agree := writeBits_setWidth reached member narrow v
      refine ⟨agree, ?_⟩
      rw [Stepwise.Packed.ofWord_eq, Option.bind_some, Stepwise.writeBits_eq ready, agree]
  · rw [readNamed, found]
  · intro role bound
    rw [readRole, playing_of_mem reached member bound]
  · intro narrow
    have bits := readBits_of_within (reached.sound.within member)
    generalize r.toBitSpan.read m.config.byteOrder (m.live r.bank) = b at bits
    obtain ⟨converted, number⟩ := toWord?_of_narrow narrow b
    have word : m.readWord r = .ok (b.setWidth 64) := by
      rw [readWord_eq narrow, bits]
      rfl
    refine ⟨b, b.setWidth 64, bits, word, number, ?_, ?_, ?_⟩
    · rw [Stepwise.readBits_eq ready, bits]
      rfl
    · rw [Stepwise.Packed.toWord_eq, converted]
    · rw [Stepwise.readWord_eq ready, word]

/-- A register that has the token of a role for its name and plays another role: twelve bits across
bytes, set to a word that has more.  Beside it lies one of 65 bits, which no word fits. -/
theorem routes_agree_shadowed :
    ∃ (m : Machine) (r t : Register), m.Reachable ∧ r ∈ m.registers ∧ t ∈ m.registers ∧
      r.name = "SP" ∧ r.size = 12 ∧ m.nameOf .stackPointer = some "a" ∧
      m.nameOf .programCounter = some r.name ∧
      m.readRole .programCounter = .ok 0xbcd ∧ m.readNamed r.name = .ok 0xbcd ∧
      m.writeNamed r.name 0xf123 = m.writeRole .programCounter 0xf123 ∧
      t.size = 65 ∧ m.writeNamed t.name 1 = .refused (.sizeMismatch 64 65) m := by
  obtain ⟨m, r, t, reached, member, memberWide, name, size, shadow, bound, word, wide⟩ :
      ∃ (m : Machine) (r t : Register), m.Reachable ∧ r ∈ m.registers ∧ t ∈ m.registers ∧
        r.name = "SP" ∧ r.size = 12 ∧ m.nameOf .stackPointer = some "a" ∧
        m.nameOf .programCounter = some r.name ∧ m.readWord r = .ok 0xbcd ∧ t.size = 65 :=
    ⟨(empty {}).run
        [.install "=SP a\n=PC SP\ngpr a 4 0 0\ngpr SP .12 .37 0\ngpr t .65 .64 0", .writeNamed "SP" 0xabcd],
      ⟨⟨37, 12⟩, "SP", .general, .general, 0, none, none, 1⟩,
      ⟨⟨64, 65⟩, "t", .general, .general, 0, none, none, 2⟩,
      ⟨_, _, rfl⟩, by decide +kernel, by decide +kernel, rfl, rfl, by decide +kernel, by decide +kernel,
      by decide +kernel, rfl⟩
  obtain ⟨writes, readName, readBound, -⟩ := routes_agree reached member
  obtain ⟨named, played, -⟩ := writes 0xf123
  obtain ⟨namedWide, -, -, refused⟩ := (routes_agree reached memberWide).1 1
  refine ⟨m, r, t, reached, member, memberWide, name, size, shadow, bound, ?_, ?_, ?_, wide, ?_⟩
  · rw [readBound .programCounter bound, word]
  · rw [readName, word]
  · rw [named, played .programCounter bound]
  · have tooWide : 64 < t.size := wide ▸ by decide
    rw [namedWide, refused, if_pos tooWide, wide]

end Machine
end MachineRegisters
