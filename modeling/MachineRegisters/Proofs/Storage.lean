import MachineRegisters.Proofs.Catalogs
import Mathlib.Algebra.Order.Ring.Nat
import Mathlib.Data.List.MinMax

/-! # The storage of reachable machines

In every reachable machine the registers are well placed, every bank has exactly
the bytes that its registers need, in its live bytes and in each saved copy, and
all banks have been saved equally often (`Sound`).  Each effect keeps this, so a
run keeps it, and making the banks fit changes nothing (`storage_of_reachable`). -/
set_option autoImplicit false
namespace MachineRegisters

namespace Register

theorem bytesNeeded_le_bytesOfBank {rs : List Register} {r : Register} {c : RegClass}
    (member : r ∈ rs) (here : r.bank = c) : r.bytesNeeded ≤ bytesOfBank rs c := by
  have inBank : r ∈ rs.filter fun t => t.bank = c :=
    List.mem_filter.mpr ⟨member, decide_eq_true here⟩
  exact List.le_max_of_le' 0 (List.mem_map_of_mem inBank) (Nat.le_refl _)

theorem past_le_bytesOfBank {rs : List Register} {r : Register} (member : r ∈ rs) :
    r.past ≤ 8 * bytesOfBank rs r.bank := by
  have enough := bytesNeeded_le_bytesOfBank member rfl
  have covered : r.past ≤ 8 * r.bytesNeeded := Bits.le_bytesFor r.past
  omega

end Register

namespace Machine

structure Sound (m : Machine) : Prop where
  placed : Register.WellPlaced m.registers
  live_length : ∀ c, (m.live c).length = m.needed c
  saved_length : ∀ c, ∀ bs ∈ (m.bank c).saved, bs.length = m.needed c
  depth_eq : ∀ c, (m.bank c).depth = m.depth

/-- Registers that stand at their indices are in order and numbered already. -/
theorem registers_reindex {m : Machine} (placed : Register.WellPlaced m.registers) :
    m.reindex.registers = m.registers := by
  have sorted : (m.registers.mergeSort fun r t => r.index ≤ t.index) = m.registers :=
    List.mergeSort_of_pairwise (placed.ascending.imp fun lt => decide_eq_true (Nat.le_of_lt lt))
  show renumber (m.registers.mergeSort fun r t => r.index ≤ t.index) = m.registers
  rw [sorted]
  apply List.ext_getElem
  · simp [renumber]
  · intro n first second
    have index := placed.index_of_getElem? (List.getElem?_eq_getElem second)
    have numbered : (renumber m.registers)[n] = { m.registers[n] with index := n } := by
      simp [renumber]
    rw [numbered]
    generalize m.registers[n] = r at index
    rw [← index]

theorem sound_empty (config : Config) : Sound (empty config) := by
  have blank : ∀ c, (empty config).bank c = Bank.blank 0 := fun c => TotalMap.get_const _ c
  refine ⟨Register.WellPlaced.nil, ?_, ?_, ?_⟩
  · intro c
    rw [live, blank, Bank.length_live_blank]
    rfl
  · intro c bs member
    rw [blank] at member
    exact absurd member List.not_mem_nil
  · intro c
    rw [depth, blank, blank]

namespace Sound
variable {m : Machine}

/-- Soundness speaks of registers and banks alone. -/
theorem of_eq {after : Machine} (sound : m.Sound) (sameRegisters : after.registers = m.registers)
    (sameBanks : after.banks = m.banks) : after.Sound := by
  have bankEq : ∀ c, after.bank c = m.bank c := fun c => by rw [bank, bank, sameBanks]
  have neededEq : ∀ c, after.needed c = m.needed c := fun c => by rw [needed, needed, sameRegisters]
  refine ⟨sameRegisters ▸ sound.placed, ?_, ?_, ?_⟩
  · intro c
    rw [live, bankEq, neededEq]
    exact sound.live_length c
  · intro c bs member
    rw [bankEq] at member
    rw [neededEq]
    exact sound.saved_length c bs member
  · intro c
    rw [depth, bankEq, bankEq]
    exact sound.depth_eq c

theorem rewritten {after : Machine} (sound : m.Sound) (only : Rewritten m after) : after.Sound := by
  have neededEq : ∀ c, after.needed c = m.needed c := fun c => by
    rw [needed, needed, only.registers_eq]
  refine ⟨only.registers_eq ▸ sound.placed, ?_, ?_, ?_⟩
  · intro c
    rw [only.length_live, neededEq]
    exact sound.live_length c
  · intro c bs member
    rw [only.saved] at member
    rw [neededEq]
    exact sound.saved_length c bs member
  · intro c
    rw [depth, Bank.depth, Bank.depth, only.saved, only.saved]
    exact sound.depth_eq c

theorem takeOver (m : Machine) {source : Installed} {rs : List Register} (readable : source.Readable)
    (laid : source.profile.layout = .ok rs) : (m.takeOver source rs).Sound := by
  have sized : source.profile.Sized := by
    cases readable with
    | profile read => exact Profile.sized_of_parse read
    | debuggerRows table read printed => exact Profile.sized_of_ofDebuggerRows read
  have blank := m.bank_takeOver source rs
  refine ⟨Profile.wellPlaced_of_layout sized laid, ?_, ?_, ?_⟩
  · intro c
    rw [live, blank, Bank.length_live_blank]
    rfl
  · intro c bs member
    rw [blank] at member
    exact absurd member List.not_mem_nil
  · intro c
    rw [depth, blank, blank, Bank.depth_blank, Bank.depth_blank]

theorem push (sound : m.Sound) : m.push.Sound := by
  have pushed : ∀ c, m.push.bank c = (m.bank c).push := fun c => TotalMap.get_map _ _ c
  refine ⟨sound.placed, ?_, ?_, ?_⟩
  · intro c
    rw [live, pushed]
    exact sound.live_length c
  · intro c bs member
    rw [pushed] at member
    rcases List.mem_cons.mp member with rfl | earlier
    · exact sound.live_length c
    · exact sound.saved_length c bs earlier
  · intro c
    rw [depth, pushed, pushed]
    exact congrArg (· + 1) (sound.depth_eq c)

/-- Every bank is as deep as the one that is asked, so every bank has a copy to go back to. -/
theorem bank_of_pop {after : Machine} (sound : m.Sound) (popped : m.pop? = some after) (c : RegClass) :
    ∃ last rest, (m.bank c).saved = last :: rest ∧ after.bank c = ⟨last, rest⟩ := by
  unfold pop? at popped
  split at popped
  · cases popped
  · rename_i deep
    cases popped
    cases saved : (m.bank c).saved with
    | nil =>
        have shallow : (m.bank c).depth = 0 := by rw [Bank.depth, saved, List.length_nil]
        exact absurd ((sound.depth_eq c).symm.trans shallow) deep
    | cons last rest =>
        have restored : (m.bank c).pop? = some ⟨last, rest⟩ := by rw [Bank.pop?, saved]
        refine ⟨last, rest, rfl, ?_⟩
        rw [bank, TotalMap.get_map]
        exact congrArg (fun b => b.getD (m.bank c)) restored

theorem pop {after : Machine} (sound : m.Sound) (popped : m.pop? = some after) : after.Sound := by
  have registersKept : after.registers = m.registers := by
    unfold pop? at popped
    split at popped
    · cases popped
    · cases popped
      rfl
  have neededEq : ∀ c, after.needed c = m.needed c := fun c => by rw [needed, needed, registersKept]
  refine ⟨registersKept ▸ sound.placed, ?_, ?_, ?_⟩
  · intro c
    obtain ⟨last, rest, saved, now⟩ := sound.bank_of_pop popped c
    rw [live, now, neededEq]
    exact sound.saved_length c last (saved ▸ List.mem_cons_self ..)
  · intro c bs member
    obtain ⟨last, rest, saved, now⟩ := sound.bank_of_pop popped c
    rw [now] at member
    rw [neededEq]
    exact sound.saved_length c bs (saved ▸ List.mem_cons_of_mem _ member)
  · intro c
    obtain ⟨last, rest, saved, now⟩ := sound.bank_of_pop popped c
    obtain ⟨lastGeneral, restGeneral, savedGeneral, nowGeneral⟩ := sound.bank_of_pop popped .general
    have before := sound.depth_eq c
    rw [depth, Bank.depth, Bank.depth, saved, savedGeneral, List.length_cons, List.length_cons] at before
    rw [depth, now, nowGeneral]
    exact Nat.succ.inj before

theorem fit_eq (sound : m.Sound) : m.fit = m := by
  have fitted : ∀ c, (m.bank c).fit (m.needed c) = m.bank c := by
    intro c
    have liveKept : Bytes.resize (m.needed c) (m.bank c).live = (m.bank c).live := by
      rw [← sound.live_length c]
      exact Bytes.resize_length _
    have savedKept : (m.bank c).saved.map (Bytes.resize (m.needed c)) = (m.bank c).saved := by
      have each : ∀ bs ∈ (m.bank c).saved, Bytes.resize (m.needed c) bs = id bs := by
        intro bs member
        rw [← sound.saved_length c bs member]
        exact Bytes.resize_length bs
      rw [List.map_congr_left each, List.map_id]
    rw [Bank.fit, liveKept, savedKept]
  have banksKept : TotalMap.ofFn (fun c => (m.bank c).fit (m.needed c)) = m.banks := by
    apply TotalMap.ext_get
    intro c
    rw [TotalMap.get_ofFn, fitted]
    rfl
  rw [fit, banksKept]

theorem effect {after : Machine} (sound : m.Sound) (done : Effect m after) : after.Sound := by
  cases done with
  | rewritten only => exact sound.rewritten only
  | takenOver source rs readable laid fresh => exact takeOver m readable laid
  | reindexed => exact sound.of_eq (registers_reindex sound.placed) rfl
  | configured config => exact sound.of_eq rfl rfl
  | bound role name => exact sound.of_eq rfl rfl
  | guarded name on => exact sound.of_eq rfl rfl
  | advanced c =>
      unfold advance
      split
      · exact sound
      · exact sound.of_eq rfl rfl
  | rewound c => exact sound.of_eq rfl rfl
  | pushed => exact sound.push
  | popped popped => exact sound.pop popped
  | fitted => exact sound.fit_eq.symm ▸ sound

theorem within (sound : m.Sound) {r : Register} (member : r ∈ m.registers) :
    r.toBitSpan.Within (m.live r.bank) := by
  unfold BitSpan.Within
  rw [sound.live_length]
  exact Register.past_le_bytesOfBank member

end Sound

theorem Reachable.sound {m : Machine} (reached : m.Reachable) : m.Sound := by
  obtain ⟨config, ops, rfl⟩ := reached
  exact run_keeps (fun m op sound => sound.effect (perform_effect m op)) ops _ (sound_empty config)

/-- Every register has a bit and ends below `2 ^ 32`; every bank, live or saved, is as long as its
longest-reaching register needs; all banks are equally deep; and fitting them answers their total
length and changes nothing. -/
theorem storage_of_reachable {m : Machine} (reached : m.Reachable) :
    (∀ r ∈ m.registers, 0 < r.size ∧ r.offset + r.size < 2 ^ 32) ∧
      (∀ c, ∀ bs ∈ m.live c :: (m.bank c).saved,
        bs.length = ((m.inBank c).map fun r => (r.offset + r.size + 7) / 8).foldr max 0 ∧
          ∀ r ∈ m.registers, r.bank = c → r.offset + r.size ≤ 8 * bs.length) ∧
      (∀ c d, (m.bank c).saved.length = (m.bank d).saved.length) ∧
      m.perform .fit = .done (.count (RegClass.all.map fun c => (m.live c).length).sum) m := by
  have sound := reached.sound
  refine ⟨?_, ?_, ?_, ?_⟩
  · intro r member
    exact ⟨sound.placed.size_pos r member, sound.placed.past_lt r member⟩
  · intro c bs stored
    have length : bs.length = m.needed c := by
      rcases List.mem_cons.mp stored with rfl | saved
      · exact sound.live_length c
      · exact sound.saved_length c bs saved
    have listed : m.needed c = ((m.inBank c).map fun r => (r.offset + r.size + 7) / 8).foldr max 0 := by
      rw [reached.cataloged.inBank_eq sound.placed]
      rfl
    refine ⟨length.trans listed, ?_⟩
    intro r member here
    rw [length, ← here]
    exact Register.past_le_bytesOfBank member
  · intro c d
    exact (sound.depth_eq c).trans (sound.depth_eq d).symm
  · have total : m.neededSize = (RegClass.all.map fun c => (m.live c).length).sum := by
      rw [neededSize, List.sum_eq_foldr, List.foldr_map]
      simp only [sound.live_length]
    rw [perform, total, sound.fit_eq]

/-- Overlapping registers of two banks, saved twice, restored once and with a refused install. -/
theorem storage_of_reachable_saved :
    ∃ m : Machine, m.Reachable ∧ m.registers.length = 3 ∧ m.depth = 1 ∧
      (∀ bs ∈ m.live .general :: (m.bank .general).saved, bs.length = 2) ∧
      m.perform .fit = .done (.count 5) m := by
  have reached : Reachable ((empty {}).run
      [.install "gpr a .12 .3 0\nfpu x 3 0 0\ngpr b .4 .5 0", .push, .writeBytes .general [7, 1], .push,
        .install "gpr c 0 0 0", .pop]) := ⟨_, _, rfl⟩
  obtain ⟨-, lengths, -, fitted⟩ := storage_of_reachable reached
  refine ⟨_, reached, by decide +kernel, by decide +kernel, ?_, ?_⟩
  · intro bs stored
    exact (lengths .general bs stored).1.trans (by decide +kernel)
  · rw [fitted]
    congr 2
    decide +kernel

end Machine
end MachineRegisters
