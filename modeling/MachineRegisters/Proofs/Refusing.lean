import MachineRegisters.Proofs.Forcing

/-! # Refused operations

An operation that is refused leaves the machine as it was (`refused_unchanged`).
Most check everything before they change anything.  Those that change one thing
after another do not fail in between: the pieces of a dump are cut to the banks
that they go to, and the flags of a sound machine lie in its registers, all of
which are checked before the first is written.  So the operations of a run that
are refused can be left out of it (`exists_accepted_run`). -/
set_option autoImplicit false
namespace MachineRegisters

namespace Outcome
variable {α β : Type} {m : Machine} {o : Outcome α}

/-- The operation was carried out, or else it has left the machine `m` alone. -/
def AllOrNothing (m : Machine) (o : Outcome α) : Prop := ∀ e, o.answer = .error e → o.machine = m

theorem allOrNothing_of_accepted {a : α} (accepted : o.answer = .ok a) : o.AllOrNothing m := by
  intro e refused
  cases accepted.symm.trans refused

theorem allOrNothing_done (a : α) (after : Machine) : (done a after).AllOrNothing m :=
  allOrNothing_of_accepted rfl

theorem allOrNothing_refused (e : RegisterError) : (refused e m : Outcome α).AllOrNothing m :=
  fun _ _ => rfl

theorem AllOrNothing.map (f : α → β) (whole : o.AllOrNothing m) : (o.map f).AllOrNothing m := by
  intro e refused
  apply whole e
  cases answer : o.answer with
  | error given =>
      rw [Outcome.map, answer] at refused
      cases refused
      rfl
  | ok a =>
      rw [Outcome.map, answer] at refused
      cases refused

end Outcome

namespace Machine
open Outcome

/-! ## Registers and banks -/

section Any
variable (m : Machine)

theorem store_allOrNothing (r : Register) (v : BitVec r.size) : (m.store r v).AllOrNothing m := by
  simp only [store]
  split
  · exact allOrNothing_done _ _
  · exact allOrNothing_refused _

theorem writeBits_allOrNothing (r : Register) {w : Nat} (v : BitVec w) : (m.writeBits r v).AllOrNothing m := by
  rw [writeBits]
  split
  · exact allOrNothing_refused _
  · split
    · exact store_allOrNothing m r _
    · exact allOrNothing_refused _

theorem writeWord_allOrNothing (r : Register) (v : Word) : (m.writeWord r v).AllOrNothing m := by
  rw [writeWord]
  split
  · exact allOrNothing_refused _
  · split
    · exact allOrNothing_refused _
    · exact store_allOrNothing m r _

theorem writeRole_allOrNothing (r : Role) (v : Word) : (m.writeRole r v).AllOrNothing m := by
  rw [writeRole]
  split
  · exact allOrNothing_refused _
  · exact writeWord_allOrNothing m _ v

theorem writeNamed_allOrNothing (name : String) (v : Word) : (m.writeNamed name v).AllOrNothing m := by
  rw [writeNamed]
  split
  · exact allOrNothing_refused _
  · exact writeWord_allOrNothing m _ v

theorem writeBytes_allOrNothing (c : RegClass) (bs : Bytes) : (m.writeBytes c bs).AllOrNothing m := by
  rw [writeBytes]
  split
  · exact allOrNothing_refused _
  · exact allOrNothing_done _ _

theorem writeHex_allOrNothing (c : RegClass) (text : String) : (m.writeHex c text).AllOrNothing m := by
  rw [writeHex]
  split
  · exact allOrNothing_refused _
  · exact (writeBytes_allOrNothing m c _).map _

theorem replaceBank_allOrNothing (c : RegClass) (bs : Bytes) : (m.replaceBank c bs).AllOrNothing m := by
  rw [replaceBank]
  split
  · exact allOrNothing_refused _
  · exact allOrNothing_done _ _

theorem writeBytes_take (c : RegClass) (bs : Bytes) :
    ∃ after, m.writeBytes c (bs.take (m.live c).length) = .done () after := by
  have fits : (bs.take (m.live c).length).length ≤ (m.bank c).live.length := List.length_take_le _ _
  rw [writeBytes, Bank.overlay, if_pos fits]
  exact ⟨_, rfl⟩

theorem fillBanks_accepted (banks : List RegClass) (bs : Bytes) :
    (m.fillBanks banks bs).answer = .ok () := by
  induction banks generalizing m bs with
  | nil => rfl
  | cons c rest ih =>
      simp only [fillBanks]
      split
      · rfl
      · obtain ⟨after, written⟩ := writeBytes_take m c bs
        rw [written, done_andThen]
        exact ih after _

theorem writeDump_allOrNothing (bs : Bytes) : (m.writeDump bs).AllOrNothing m := by
  rw [writeDump]
  split
  · exact allOrNothing_of_accepted (fillBanks_accepted m _ bs)
  · exact allOrNothing_refused _

/-! ## Profiles -/

theorem adopt_allOrNothing (text : String) (p : Profile) : (m.adopt text p).AllOrNothing m := by
  rw [adopt]
  split
  · exact allOrNothing_refused _
  · exact allOrNothing_done _ _

theorem install_allOrNothing (text : String) : (m.install text).AllOrNothing m := by
  rw [install]
  split
  · exact allOrNothing_done _ _
  · split
    · exact allOrNothing_refused _
    · exact adopt_allOrNothing m text _

theorem installDebuggerRows_allOrNothing (table : String) : (m.installDebuggerRows table).AllOrNothing m := by
  rw [installDebuggerRows]
  split
  · exact allOrNothing_refused _
  · dsimp only
    split
    · exact allOrNothing_done _ _
    · exact adopt_allOrNothing m _ _

end Any

/-! ## Flags -/

section Flags
variable {m : Machine}

theorem writeFlags_allOrNothing (sound : m.Sound) {writes : List (FlagPlace × Bool)}
    (offered : ∀ w ∈ writes, m.Offers w.1) : (m.writeFlags writes).AllOrNothing m := by
  cases writeFlags_cases sound offered with
  | inl guarded =>
      obtain ⟨name, refused⟩ := guarded
      rw [refused]
      exact allOrNothing_refused _
  | inr written =>
      obtain ⟨after, done, -⟩ := written
      rw [done]
      exact allOrNothing_done _ _

theorem offers_of_mem_locatedFlags {i : Flag × FlagPlace} (located : i ∈ m.locatedFlags) : m.Offers i.2 := by
  obtain ⟨f, -, kept⟩ := List.mem_filterMap.mp located
  obtain ⟨p, found, rfl⟩ := Option.map_eq_some_iff.mp kept
  exact offers_of_locate found

/-- The writes by which all flags are set go to places that the machine offers. -/
theorem offers_of_mem_settings (fs : Flags) :
    ∀ w ∈ m.locatedFlags.map (fun i => (i.2, fs.get i.1)), m.Offers w.1 := by
  intro w member
  obtain ⟨i, located, rfl⟩ := List.mem_map.mp member
  exact offers_of_mem_locatedFlags located

theorem setFlags_allOrNothing (sound : m.Sound) (fs : Flags) : (m.setFlags fs).AllOrNothing m := by
  rw [setFlags]
  split
  · exact allOrNothing_refused _
  · exact writeFlags_allOrNothing sound (offers_of_mem_settings fs)

theorem force_allOrNothing (sound : m.Sound) (c : Condition) (wanted : Bool) :
    (m.force c wanted).AllOrNothing m := by
  cases located : m.locateAll c.inputs with
  | none =>
      rw [force, located]
      exact allOrNothing_refused _
  | some inputs =>
      by_cases already : c.holds (FlagPlace.present m.config.byteOrder m.bit inputs) = wanted
      · rw [force_of_holds sound located already]
        exact allOrNothing_done _ _
      · rw [force_of_differs sound located already]
        exact writeFlags_allOrNothing sound (offers_of_flagWrites (offers_of_locateAll located) _ _)

end Flags

/-! ## All operations -/

variable {m : Machine}

theorem perform_allOrNothing (sound : m.Sound) (op : Operation) : (m.perform op).AllOrNothing m := by
  cases op with
  | install text => exact (install_allOrNothing m text).map _
  | installDebuggerRows table => exact (installDebuggerRows_allOrNothing m table).map _
  | reindex => exact allOrNothing_done _ _
  | configure config => exact allOrNothing_done _ _
  | bind role name => exact allOrNothing_done _ _
  | setReadOnly name on => exact allOrNothing_done _ _
  | advance c => exact allOrNothing_done _ _
  | rewind c => exact allOrNothing_done _ _
  | push => exact allOrNothing_done _ _
  | pop =>
      simp only [perform]
      split
      · exact allOrNothing_done _ _
      · exact allOrNothing_done _ _
  | replaceBank c bs => exact (replaceBank_allOrNothing m c bs).map _
  | clearBank c => exact allOrNothing_done _ _
  | fit => exact allOrNothing_done _ _
  | writeWord r v => exact (writeWord_allOrNothing m r v).map _
  | writeBits r w v => exact (writeBits_allOrNothing m r v).map _
  | writeRole r v => exact (writeRole_allOrNothing m r v).map _
  | writeNamed name v => exact (writeNamed_allOrNothing m name v).map _
  | writeBytes c bs => exact (writeBytes_allOrNothing m c bs).map _
  | writeHex c text => exact (writeHex_allOrNothing m c text).map _
  | writeDump bs => exact (writeDump_allOrNothing m bs).map _
  | force c wanted => exact (force_allOrNothing sound c wanted).map _
  | setFlags fs => exact (setFlags_allOrNothing sound fs).map _

/-- Whatever is refused leaves the whole machine as it was. -/
theorem refused_unchanged (reached : m.Reachable) (op : Operation) {e : RegisterError}
    (refused : (m.perform op).answer = .error e) : (m.perform op).machine = m :=
  perform_allOrNothing reached.sound op e refused

/-- Sign and zero, in the status register, come before the carry flag, which lies in a guarded one. -/
theorem refused_unchanged_flags :
    ∃ m : Machine, m.Reachable ∧ m.live .general = [128, 2] ∧
      (m.locatedFlags.map fun i => i.2.register.name) = ["flags", "flags", "cf"] ∧
      (m.perform (.setFlags ⟨false, true, false, false, false, false⟩)).answer = .error (.readOnly "cf") ∧
      (m.perform (.setFlags ⟨false, true, false, false, false, false⟩)).machine = m := by
  have reached : Reachable ((empty {}).run
      [.install "=SR flags\ngpr flags 1 0 0 z......s\ngpr cf .1 .9 0", .writeNamed "flags" 128,
        .writeNamed "cf" 1, .setReadOnly "cf" true]) := ⟨_, _, rfl⟩
  refine ⟨_, reached, by decide +kernel, by decide +kernel, by decide +kernel, ?_⟩
  exact refused_unchanged reached _ (e := .readOnly "cf") (by decide +kernel)

/-! ## Runs without refusals -/

/-- No operation of the run is refused. -/
def Accepts (m : Machine) : List Operation → Prop
  | [] => True
  | op :: rest => (∃ reply, (m.perform op).answer = .ok reply) ∧ (m.perform op).machine.Accepts rest

/-- The operations of a run that are not refused lead to the same machine by themselves. -/
theorem exists_accepted_run (sound : m.Sound) (ops : List Operation) :
    ∃ kept, kept.Sublist ops ∧ m.Accepts kept ∧ m.run kept = m.run ops := by
  induction ops generalizing m with
  | nil => exact ⟨[], .slnil, trivial, rfl⟩
  | cons op rest ih =>
      obtain ⟨kept, fewer, accepted, same⟩ := ih (sound.effect (perform_effect m op))
      cases answer : (m.perform op).answer with
      | ok reply => exact ⟨op :: kept, fewer.cons_cons op, ⟨⟨reply, answer⟩, accepted⟩, same⟩
      | error e =>
          rw [perform_allOrNothing sound op e answer] at accepted same
          refine ⟨kept, fewer.cons op, accepted, same.trans ?_⟩
          rw [run, perform_allOrNothing sound op e answer]

theorem reachable_iff_accepted :
    m.Reachable ↔ ∃ config ops, (empty config).Accepts ops ∧ m = (empty config).run ops := by
  constructor
  · intro reached
    obtain ⟨config, ops, rfl⟩ := reached
    obtain ⟨kept, -, accepted, same⟩ := exists_accepted_run (sound_empty config) ops
    exact ⟨config, kept, accepted, same.symm⟩
  · intro accepted
    obtain ⟨config, ops, -, rfl⟩ := accepted
    exact ⟨config, ops, rfl⟩

end Machine
end MachineRegisters
