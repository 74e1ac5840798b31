import MachineRegisters.Machine.Operation

/-! # What operations do to a machine

Every operation that is not refused does one of a few things (`perform_effect`).
The many ways to write all do the same one: they put other live bytes, as many as
before, into some banks and touch nothing else (`Rewritten`).  A refused
operation leaves the machine as it is, which is the least case of rewriting. -/
set_option autoImplicit false
namespace MachineRegisters

inductive Installed.Readable (source : Installed) : Prop
  | profile (read : Profile.parse source.text.toList = .ok source.profile)
  | debuggerRows (table : String) (read : Profile.ofDebuggerRows table.toList = .ok source.profile)
      (printed : source.text = String.ofList source.profile.print)

namespace Machine

@[simp] theorem bank_setBank (m : Machine) (c d : RegClass) (b : Bank) :
    (m.setBank c b).bank d = if c = d then b else m.bank d := TotalMap.get_set _ _ _ _

theorem setBank_setBank (m : Machine) (c : RegClass) (a b : Bank) :
    (m.setBank c a).setBank c b = m.setBank c b := by
  have banks : (m.banks.set c a).set c b = m.banks.set c b := TotalMap.set_set _ _ _ _
  simp only [setBank, banks]

theorem bank_takeOver (m : Machine) (source : Installed) (rs : List Register) (c : RegClass) :
    (m.takeOver source rs).bank c = Bank.blank (Register.bytesOfBank rs c) := by
  simp only [bank, takeOver, TotalMap.get_ofFn]

/-- The machine `after` is `before` but for live bytes, of which each bank has as many. -/
structure Rewritten (before after : Machine) : Prop where
  frame : after = { before with banks := after.banks }
  length_live : ∀ c, (after.live c).length = (before.live c).length
  saved : ∀ c, (after.bank c).saved = (before.bank c).saved

namespace Rewritten

theorem refl (m : Machine) : Rewritten m m := ⟨rfl, fun _ => rfl, fun _ => rfl⟩

theorem trans {m n o : Machine} (first : Rewritten m n) (second : Rewritten n o) : Rewritten m o := by
  refine ⟨?_, ?_, ?_⟩
  · rw [second.frame, first.frame]
  · intro c
    rw [second.length_live, first.length_live]
  · intro c
    rw [second.saved, first.saved]

theorem setBank {m : Machine} {c : RegClass} {b : Bank} (sameLength : b.live.length = (m.live c).length)
    (sameSaved : b.saved = (m.bank c).saved) : Rewritten m (m.setBank c b) := by
  refine ⟨rfl, ?_, ?_⟩
  · intro d
    unfold live
    rw [bank_setBank]
    split
    · rename_i here
      rw [← here]
      exact sameLength
    · rfl
  · intro d
    rw [bank_setBank]
    split
    · rename_i here
      rw [← here]
      exact sameSaved
    · rfl

section
variable {before after : Machine} (rewritten : Rewritten before after)
include rewritten

theorem config_eq : after.config = before.config := by rw [rewritten.frame]

theorem installed_eq : after.installed = before.installed := by rw [rewritten.frame]

theorem bindings_eq : after.bindings = before.bindings := by rw [rewritten.frame]

theorem registers_eq : after.registers = before.registers := by rw [rewritten.frame]

theorem catalogs_eq : after.catalogs = before.catalogs := by rw [rewritten.frame]

theorem cursors_eq : after.cursors = before.cursors := by rw [rewritten.frame]

theorem readOnly_eq : after.readOnly = before.readOnly := by rw [rewritten.frame]

end
end Rewritten

/-! ## The ways to write -/

theorem store_rewritten (m : Machine) (r : Register) (v : BitVec r.size) :
    Rewritten m (m.store r v).machine := by
  simp only [store]
  split
  · exact .setBank (BitSpan.length_write _ _ _ _) rfl
  · exact .refl m

theorem writeBits_rewritten (m : Machine) (r : Register) {w : Nat} (v : BitVec w) :
    Rewritten m (m.writeBits r v).machine := by
  unfold writeBits
  split
  · exact .refl m
  · split
    · exact store_rewritten m r _
    · exact .refl m

theorem writeWord_rewritten (m : Machine) (r : Register) (v : Word) :
    Rewritten m (m.writeWord r v).machine := by
  unfold writeWord
  split
  · exact .refl m
  · split
    · exact .refl m
    · exact store_rewritten m r _

theorem writeRole_rewritten (m : Machine) (r : Role) (v : Word) :
    Rewritten m (m.writeRole r v).machine := by
  unfold writeRole
  split
  · exact .refl m
  · exact writeWord_rewritten m _ v

theorem writeNamed_rewritten (m : Machine) (name : String) (v : Word) :
    Rewritten m (m.writeNamed name v).machine := by
  unfold writeNamed
  split
  · exact .refl m
  · exact writeWord_rewritten m _ v

theorem writeBytes_rewritten (m : Machine) (c : RegClass) (bs : Bytes) :
    Rewritten m (m.writeBytes c bs).machine := by
  unfold writeBytes Bank.overlay
  by_cases fits : bs.length ≤ (m.bank c).live.length
  · rw [if_pos fits]
    refine .setBank ?_ rfl
    rw [Bytes.length_overlay]
    exact Nat.max_eq_right fits
  · rw [if_neg fits]
    exact .refl m

theorem writeHex_rewritten (m : Machine) (c : RegClass) (text : String) :
    Rewritten m (m.writeHex c text).machine := by
  unfold writeHex
  split
  · exact .refl m
  · exact writeBytes_rewritten m c _

theorem fillBanks_rewritten (m : Machine) (banks : List RegClass) (bs : Bytes) :
    Rewritten m (m.fillBanks banks bs).machine := by
  induction banks generalizing m bs with
  | nil => exact .refl m
  | cons c rest ih =>
      simp only [fillBanks]
      split
      · exact .refl m
      · have first := writeBytes_rewritten m c (bs.take (m.live c).length)
        unfold Outcome.andThen
        split
        · exact first
        · exact first.trans (ih _ _)

theorem writeDump_rewritten (m : Machine) (bs : Bytes) : Rewritten m (m.writeDump bs).machine := by
  unfold writeDump
  split
  · exact fillBanks_rewritten m RegClass.all bs
  · exact .refl m

theorem replaceBank_rewritten (m : Machine) (c : RegClass) (bs : Bytes) :
    Rewritten m (m.replaceBank c bs).machine := by
  unfold replaceBank Bank.replace
  by_cases same : bs.length = (m.bank c).live.length
  · rw [if_pos same]
    exact .setBank same rfl
  · rw [if_neg same]
    exact .refl m

theorem clearBank_rewritten (m : Machine) (c : RegClass) : Rewritten m (m.clearBank c) :=
  .setBank (by simp [Bank.clear, Bytes.fill, live]) rfl

theorem writeFlag_rewritten (m : Machine) (p : FlagPlace) (b : Bool) :
    Rewritten m (m.writeFlag p b).machine := by
  cases p with
  | statusBit r i =>
      simp only [writeFlag]
      split
      · exact .refl m
      · exact writeWord_rewritten m r _
  | whole r => exact writeWord_rewritten m r _

theorem writeFlagsInOrder_rewritten (m : Machine) (writes : List (FlagPlace × Bool)) :
    Rewritten m (m.writeFlagsInOrder writes).machine := by
  induction writes generalizing m with
  | nil => exact .refl m
  | cons write rest ih =>
      obtain ⟨p, b⟩ := write
      have first := writeFlag_rewritten m p b
      simp only [writeFlagsInOrder, Outcome.andThen]
      split
      · exact first
      · exact first.trans (ih _)

theorem writeFlags_rewritten (m : Machine) (writes : List (FlagPlace × Bool)) :
    Rewritten m (m.writeFlags writes).machine := by
  unfold writeFlags
  split
  · exact .refl m
  · exact writeFlagsInOrder_rewritten m writes

theorem force_rewritten (m : Machine) (c : Condition) (wanted : Bool) :
    Rewritten m (m.force c wanted).machine := by
  unfold force
  split
  · exact .refl m
  · split
    · exact .refl m
    · split
      · exact .refl m
      · split
        · exact .refl m
        · exact writeFlags_rewritten m _

theorem setFlags_rewritten (m : Machine) (fs : Flags) : Rewritten m (m.setFlags fs).machine := by
  unfold setFlags
  split
  · exact .refl m
  · exact writeFlags_rewritten m _

/-! ## All operations -/

/-- What an operation can make of a machine. -/
inductive Effect (m : Machine) : Machine → Prop
  | rewritten {after : Machine} (only : Rewritten m after) : Effect m after
  | takenOver (source : Installed) (rs : List Register) (readable : source.Readable)
      (laid : source.profile.layout = .ok rs) (fresh : m.profileText ≠ some source.text) :
      Effect m (m.takeOver source rs)
  | reindexed : Effect m m.reindex
  | configured (config : Config) : Effect m { m with config := config }
  | bound (role : Role) (name : String) : Effect m (m.bind role name)
  | guarded (name : String) (on : Bool) : Effect m (m.setReadOnly name on)
  | advanced (c : RegClass) : Effect m (m.advance c)
  | rewound (c : RegClass) : Effect m (m.rewind c)
  | pushed : Effect m m.push
  | popped {after : Machine} (popped : m.pop? = some after) : Effect m after
  | fitted : Effect m m.fit

theorem adopt_effect (m : Machine) (source : Installed) (readable : source.Readable)
    (fresh : m.profileText ≠ some source.text) :
    Effect m (m.adopt source.text source.profile).machine := by
  unfold adopt
  split
  · exact .rewritten (.refl m)
  · rename_i rs laid
    exact .takenOver source rs readable laid fresh

theorem install_effect (m : Machine) (text : String) : Effect m (m.install text).machine := by
  unfold install
  split
  · exact .rewritten (.refl m)
  · rename_i fresh
    split
    · exact .rewritten (.refl m)
    · rename_i p read
      exact adopt_effect m ⟨text, p⟩ (.profile read) fresh

theorem installDebuggerRows_effect (m : Machine) (table : String) :
    Effect m (m.installDebuggerRows table).machine := by
  unfold installDebuggerRows
  split
  · exact .rewritten (.refl m)
  · rename_i p read
    by_cases same : m.profileText = some (String.ofList p.print)
    · simp only [if_pos same]
      exact .rewritten (.refl m)
    · simp only [if_neg same]
      exact adopt_effect m ⟨String.ofList p.print, p⟩ (.debuggerRows table read rfl) same

theorem perform_effect (m : Machine) (op : Operation) : Effect m (m.perform op).machine := by
  cases op with
  | install text => exact install_effect m text
  | installDebuggerRows table => exact installDebuggerRows_effect m table
  | reindex => exact .reindexed
  | configure config => exact .configured config
  | bind role name => exact .bound role name
  | setReadOnly name on => exact .guarded name on
  | advance c => exact .advanced c
  | rewind c => exact .rewound c
  | push => exact .pushed
  | pop =>
      cases restored : m.pop? with
      | none =>
          simp only [perform, restored]
          exact .rewritten (.refl m)
      | some after =>
          simp only [perform, restored]
          exact .popped restored
  | replaceBank c bs => exact .rewritten (replaceBank_rewritten m c bs)
  | clearBank c => exact .rewritten (clearBank_rewritten m c)
  | fit => exact .fitted
  | writeWord r v => exact .rewritten (writeWord_rewritten m r v)
  | writeBits r w v => exact .rewritten (writeBits_rewritten m r v)
  | writeRole r v => exact .rewritten (writeRole_rewritten m r v)
  | writeNamed name v => exact .rewritten (writeNamed_rewritten m name v)
  | writeBytes c bs => exact .rewritten (writeBytes_rewritten m c bs)
  | writeHex c text => exact .rewritten (writeHex_rewritten m c text)
  | writeDump bs => exact .rewritten (writeDump_rewritten m bs)
  | force c wanted => exact .rewritten (force_rewritten m c wanted)
  | setFlags fs => exact .rewritten (setFlags_rewritten m fs)

/-- Only taking over a profile and indexing anew touch the registers and what is told of them. -/
theorem Effect.layout_cases {m after : Machine} (done : Effect m after) :
    (∃ source rs, source.Readable ∧ source.profile.layout = .ok rs ∧ after = m.takeOver source rs) ∨
      after = m.reindex ∨
      (after.installed = m.installed ∧ after.registers = m.registers ∧ after.catalogs = m.catalogs) := by
  cases done with
  | rewritten only => exact .inr (.inr ⟨only.installed_eq, only.registers_eq, only.catalogs_eq⟩)
  | takenOver source rs readable laid fresh => exact .inl ⟨source, rs, readable, laid, rfl⟩
  | reindexed => exact .inr (.inl rfl)
  | configured config => exact .inr (.inr ⟨rfl, rfl, rfl⟩)
  | bound role name => exact .inr (.inr ⟨rfl, rfl, rfl⟩)
  | guarded name on => exact .inr (.inr ⟨rfl, rfl, rfl⟩)
  | advanced c =>
      unfold advance
      split
      · exact .inr (.inr ⟨rfl, rfl, rfl⟩)
      · exact .inr (.inr ⟨rfl, rfl, rfl⟩)
  | rewound c => exact .inr (.inr ⟨rfl, rfl, rfl⟩)
  | pushed => exact .inr (.inr ⟨rfl, rfl, rfl⟩)
  | popped popped =>
      unfold pop? at popped
      split at popped
      · cases popped
      · cases popped
        exact .inr (.inr ⟨rfl, rfl, rfl⟩)
  | fitted => exact .inr (.inr ⟨rfl, rfl, rfl⟩)

end Machine
end MachineRegisters
