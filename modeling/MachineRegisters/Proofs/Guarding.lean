import MachineRegisters.Proofs.FlagSetting

/-! # Registers that must not be written

A write that goes through registers, by whatever name they are called, changes no bit
but those of registers that may be written (`Spares`, `perform_spares`).  If one of its
targets must not be written it is refused and does nothing
(`perform_of_guarded_target`).  So a register keeps its value through any run of such
writes if neither it nor any register that overlaps it may be written (`guarded_run`). -/
set_option autoImplicit false
namespace MachineRegisters.Machine
variable {m : Machine} {r : Register}

/-- Live bytes alone have changed, and of these only bits of registers that may be written. -/
structure Spares (before after : Machine) : Prop where
  rewritten : Rewritten before after
  writable : ∀ x, after.bit x ≠ before.bit x →
    ∃ r ∈ before.registers, r.Holds x ∧ before.isReadOnly r.name = false

namespace Spares

theorem refl (m : Machine) : Spares m m := ⟨.refl m, fun _ changed => absurd rfl changed⟩

theorem trans {n o : Machine} (first : Spares m n) (second : Spares n o) : Spares m o := by
  refine ⟨first.rewritten.trans second.rewritten, ?_⟩
  intro x changed
  by_cases early : n.bit x = m.bit x
  · obtain ⟨r, member, held, free⟩ := second.writable x (early ▸ changed)
    rw [first.rewritten.registers_eq] at member
    rw [first.rewritten.isReadOnly_eq] at free
    exact ⟨r, member, held, free⟩
  · exact first.writable x early

theorem readBits_eq {after : Machine} (spares : Spares m after) (fits : r.toBitSpan.Within (m.live r.bank))
    (surrounded : ∀ t ∈ m.registers, t.Overlaps r → m.isReadOnly t.name = true) :
    after.readBits r = m.readBits r := by
  rw [spares.rewritten.readBits_eq_iff fits]
  intro x held
  by_contra changed
  obtain ⟨t, member, heldToo, free⟩ := spares.writable x changed
  by_cases overlaps : t.Overlaps r
  · cases free.symm.trans (surrounded t member overlaps)
  · exact Register.not_holds_of_not_overlaps overlaps heldToo held

end Spares

/-! ## The ways to write -/

theorem store_spares (member : r ∈ m.registers) (writable : m.isReadOnly r.name = false)
    (v : BitVec r.size) : Spares m (m.store r v).machine := by
  by_cases fits : r.toBitSpan.Within (m.live r.bank)
  · rw [store_of_within fits]
    refine ⟨rewritten_stored v, ?_⟩
    intro x changed
    refine ⟨r, member, ?_, writable⟩
    by_contra apart
    exact changed (bit_stored_of_not_holds fits v apart)
  · have refused : m.store r v = .refused (.sizeMismatch (8 * (m.live r.bank).length) r.past) m := if_neg fits
    rw [refused]
    exact .refl m

theorem writeWord_spares (member : r ∈ m.registers) (v : Word) : Spares m (m.writeWord r v).machine := by
  unfold writeWord
  split
  · exact .refl m
  · split
    · exact .refl m
    · rename_i free
      exact store_spares member (Bool.eq_false_iff.mpr free) _

theorem writeBits_spares (member : r ∈ m.registers) {w : Nat} (v : BitVec w) :
    Spares m (m.writeBits r v).machine := by
  unfold writeBits
  split
  · exact .refl m
  · rename_i free
    split
    · exact store_spares member (Bool.eq_false_iff.mpr free) _
    · exact .refl m

theorem writeRole_spares (role : Role) (v : Word) : Spares m (m.writeRole role v).machine := by
  unfold writeRole
  split
  · exact .refl m
  · rename_i found playing
    exact writeWord_spares (mem_of_playing playing) v

theorem writeNamed_spares (name : String) (v : Word) : Spares m (m.writeNamed name v).machine := by
  unfold writeNamed
  split
  · exact .refl m
  · rename_i found named
    exact writeWord_spares (mem_of_find named) v

theorem writeFlag_spares {p : FlagPlace} (offered : m.Offers p) (b : Bool) :
    Spares m (m.writeFlag p b).machine := by
  have member := register_mem_of_offers offered
  cases p with
  | statusBit r i =>
      simp only [writeFlag]
      split
      · exact .refl m
      · exact writeWord_spares member _
  | whole r => exact writeWord_spares member _

theorem writeFlagsInOrder_spares {writes : List (FlagPlace × Bool)} (offered : ∀ w ∈ writes, m.Offers w.1) :
    Spares m (m.writeFlagsInOrder writes).machine := by
  induction writes generalizing m with
  | nil => exact .refl m
  | cons write rest ih =>
      obtain ⟨p, b⟩ := write
      have first := writeFlag_spares (offered (p, b) (List.mem_cons_self ..)) b
      simp only [writeFlagsInOrder, Outcome.andThen]
      split
      · exact first
      · exact first.trans
          (ih fun w member => first.rewritten.offers (offered w (List.mem_cons_of_mem _ member)))

theorem writeFlags_spares {writes : List (FlagPlace × Bool)} (offered : ∀ w ∈ writes, m.Offers w.1) :
    Spares m (m.writeFlags writes).machine := by
  unfold writeFlags
  split
  · exact .refl m
  · exact writeFlagsInOrder_spares offered

theorem force_spares (c : Condition) (wanted : Bool) : Spares m (m.force c wanted).machine := by
  unfold force
  split
  · exact .refl m
  · rename_i inputs located
    split
    · exact .refl m
    · split
      · exact .refl m
      · split
        · exact .refl m
        · exact writeFlags_spares (offers_of_flagWrites (offers_of_locateAll located) _ _)

theorem setFlags_spares (fs : Flags) : Spares m (m.setFlags fs).machine := by
  unfold setFlags
  split
  · exact .refl m
  · exact writeFlags_spares (offers_of_mem_settings fs)

/-! ## Runs of writes -/

/-- A write that goes through registers of the machine. -/
def WritesRegisters (m : Machine) : Operation → Prop
  | .writeWord r _ => r ∈ m.registers
  | .writeBits r _ _ => r ∈ m.registers
  | .writeRole _ _ => True
  | .writeNamed _ _ => True
  | .force _ _ => True
  | .setFlags _ => True
  | _ => False

theorem Rewritten.writesRegisters {after : Machine} {op : Operation} (only : Rewritten m after)
    (writes : m.WritesRegisters op) : after.WritesRegisters op := by
  unfold WritesRegisters at *
  rw [only.registers_eq]
  exact writes

theorem perform_spares {op : Operation} (writes : m.WritesRegisters op) :
    Spares m (m.perform op).machine := by
  cases op with
  | writeWord r v => exact writeWord_spares writes v
  | writeBits r w v => exact writeBits_spares writes v
  | writeRole role v => exact writeRole_spares role v
  | writeNamed name v => exact writeNamed_spares name v
  | force c wanted => exact force_spares c wanted
  | setFlags fs => exact setFlags_spares fs
  | _ => exact writes.elim

theorem run_spares {ops : List Operation} (writes : ∀ op ∈ ops, m.WritesRegisters op) :
    Spares m (m.run ops) := by
  induction ops generalizing m with
  | nil => exact .refl m
  | cons op rest ih =>
      have first := perform_spares (writes op (List.mem_cons_self ..))
      exact first.trans
        (ih fun op member => first.rewritten.writesRegisters (writes op (List.mem_cons_of_mem _ member)))

/-! ## Refused writes -/

/-- The register is one that the operation sets out to write, with a value that has room in it. -/
inductive Targets (m : Machine) (r : Register) : Operation → Prop
  | word (v : Word) (narrow : r.size ≤ 64) : Targets m r (.writeWord r v)
  | bits (v : BitVec r.size) : Targets m r (.writeBits r r.size v)
  | role {role : Role} (v : Word) (plays : m.playing role = some r) (narrow : r.size ≤ 64) :
      Targets m r (.writeRole role v)
  | named {name : String} (v : Word) (found : m.find name = some r) (narrow : r.size ≤ 64) :
      Targets m r (.writeNamed name v)
  | forced {c : Condition} {wanted : Bool} {inputs : List (Flag × FlagPlace)} {now best : Flags}
      {w : FlagPlace × Bool} (located : m.locateAll c.inputs = some inputs)
      (read : m.readFlags inputs .clear = .ok now) (differs : c.holds now ≠ wanted)
      (chosen : c.cheapestChange? wanted now = some best) (written : w ∈ flagWrites inputs now best)
      (kept : w.1.register = r) : Targets m r (.force c wanted)
  | flag {f : Flag} {p : FlagPlace} (fs : Flags) (located : m.locate f = some p) (kept : p.register = r) :
      Targets m r (.setFlags fs)

theorem writeWord_of_guarded (narrow : r.size ≤ 64) (guarded : m.isReadOnly r.name = true) (v : Word) :
    m.writeWord r v = .refused (.readOnly r.name) m := by
  rw [writeWord, if_neg (by omega), if_pos guarded]

/-- An operation is refused if one of its targets must not be written. -/
theorem perform_of_guarded_target {op : Operation} (target : Targets m r op)
    (guarded : m.isReadOnly r.name = true) :
    ∃ t, Targets m t op ∧ m.isReadOnly t.name = true ∧ m.perform op = .refused (.readOnly t.name) m := by
  cases target with
  | word v narrow =>
      refine ⟨r, .word v narrow, guarded, ?_⟩
      rw [perform, writeWord_of_guarded narrow guarded]
      rfl
  | bits v =>
      refine ⟨r, .bits v, guarded, ?_⟩
      rw [perform, writeBits, if_pos guarded]
      rfl
  | role v plays narrow =>
      refine ⟨r, .role v plays narrow, guarded, ?_⟩
      simp only [perform, writeRole, plays, writeWord_of_guarded narrow guarded]
      rfl
  | named v found narrow =>
      refine ⟨r, .named v found narrow, guarded, ?_⟩
      simp only [perform, writeNamed, found, writeWord_of_guarded narrow guarded]
      rfl
  | forced located read differs chosen written kept =>
      subst kept
      obtain ⟨u, writtenU, guardedU, refused⟩ := exists_guarded_of_writeFlags written guarded
      refine ⟨_, .forced located read differs chosen writtenU rfl, guardedU, ?_⟩
      simp only [perform, force, located, read, if_neg differs, chosen, refused]
      rfl
  | flag fs located kept =>
      subst kept
      have listed := mem_locatedFlags.mpr located
      have written : (_, fs.get _) ∈ m.locatedFlags.map fun i => (i.2, fs.get i.1) :=
        List.mem_map.mpr ⟨_, listed, rfl⟩
      obtain ⟨u, writtenU, guardedU, refused⟩ := exists_guarded_of_writeFlags written guarded
      obtain ⟨i, member, rfl⟩ := List.mem_map.mp writtenU
      refine ⟨_, .flag fs (mem_locatedFlags.mp member) rfl, guardedU, ?_⟩
      rw [perform, setFlags_of_located fs (List.ne_nil_of_mem listed), refused]
      rfl

/-- A register that neither may be written nor is overlapped by one that may keeps its value through
every run of writes to registers, and those that are aimed at it are refused and change nothing. -/
theorem guarded_run (reached : m.Reachable) (member : r ∈ m.registers)
    (guarded : m.isReadOnly r.name = true)
    (surrounded : ∀ t ∈ m.registers, t.Overlaps r → m.isReadOnly t.name = true) {ops : List Operation}
    (writes : ∀ op ∈ ops, m.WritesRegisters op) :
    (∃ v, m.readBits r = .ok v ∧ (m.run ops).readBits r = .ok v) ∧
      ∀ before op rest, ops = before ++ op :: rest → Targets (m.run before) r op →
        ∃ t, Targets (m.run before) t op ∧ m.isReadOnly t.name = true ∧
          (m.run before).perform op = .refused (.readOnly t.name) (m.run before) := by
  have fits := reached.sound.within member
  refine ⟨⟨_, readBits_of_within fits, ?_⟩, ?_⟩
  · rw [(run_spares writes).readBits_eq fits surrounded]
    exact readBits_of_within fits
  · rintro before op rest rfl target
    have earlier : ∀ op ∈ before, m.WritesRegisters op :=
      fun op member => writes op (List.mem_append_left _ member)
    have only := (run_spares earlier).rewritten
    obtain ⟨t, targetT, guardedT, refused⟩ :=
      perform_of_guarded_target target ((only.isReadOnly_eq _).trans guarded)
    exact ⟨t, targetT, (only.isReadOnly_eq _).symm.trans guardedT, refused⟩

/-- A guarded status word, with a guarded byte across its end, beside a register that may be written. -/
theorem guarded_run_statusWord :
    ∃ (m : Machine) (r : Register) (ops : List Operation), m.Reachable ∧ r ∈ m.registers ∧
      ops.length = 9 ∧ m.live .general = [0x42, 0x35, 0x02] ∧
      (m.run ops).live .general = [0x42, 0x35, 0xfa] ∧
      (∃ v, m.readBits r = .ok v ∧ (m.run ops).readBits r = .ok v) ∧
      m.perform (.writeNamed "SR" 0) = .refused (.readOnly "st") m := by
  let st : Register := ⟨⟨0, 12⟩, "st", .general, .general, 0, some ".o....zs", none, 0⟩
  let edge : Register := ⟨⟨8, 8⟩, "edge", .general, .general, 0, none, none, 1⟩
  let free : Register := ⟨⟨16, 8⟩, "free", .general, .general, 0, none, none, 2⟩
  let ops : List Operation :=
    [.writeNamed "SR" 0, .writeWord st 7, .writeNamed "free" 0x1fa, .writeBits st 12 0#12, .writeRole .status 9,
      .force .greater true, .setFlags .clear, .writeWord edge 1, .writeBits free 4 0#4]
  obtain ⟨m, reached, member, bytes, after, guarded, surrounded, plays, memberEdge,
      memberFree⟩ : ∃ m : Machine, m.Reachable ∧
      st ∈ m.registers ∧ m.live .general = [0x42, 0x35, 0x02] ∧
      (m.run ops).live .general = [0x42, 0x35, 0xfa] ∧ m.isReadOnly st.name = true ∧
      (∀ t ∈ m.registers, t.Overlaps st → m.isReadOnly t.name = true) ∧ m.find "SR" = some st ∧
      edge ∈ m.registers ∧ free ∈ m.registers :=
    ⟨(empty {}).run
        [.install "=SR st\ngpr st .12 0 0 .o....zs\ngpr edge 1 1 0\ngpr free 1 2 0",
          .writeBytes .general [0x42, 0x35, 0x02], .setReadOnly "st" true, .setReadOnly "edge" true],
      ⟨_, _, rfl⟩, by decide +kernel, by decide +kernel, by decide +kernel, by decide +kernel, by decide +kernel,
      by decide +kernel, by decide +kernel, by decide +kernel⟩
  have writes : ∀ op ∈ ops, m.WritesRegisters op := by
    simp only [ops, List.forall_mem_cons]
    refine ⟨trivial, member, trivial, member, trivial, trivial, trivial, memberEdge, memberFree, ?_⟩
    exact fun _ none => absurd none List.not_mem_nil
  obtain ⟨same, refused⟩ := guarded_run reached member guarded surrounded writes
  refine ⟨m, st, ops, reached, member, rfl, bytes, after, same, ?_⟩
  obtain ⟨t, target, -, answer⟩ := refused [] _ _ rfl (.named 0 plays (by decide))
  cases target with
  | named v found narrow =>
      have only : t = st := Option.some.inj (found.symm.trans plays)
      rw [only] at answer
      exact answer

end MachineRegisters.Machine
