import MachineRegisters.Proofs.Storage

/-! # Going back to saved banks

Saving puts a copy of every bank on top of those that are there.  As long as a run
never takes that copy away and installs no other profile, no operation alters it or
what lies under it (`Retains.effect`), so restoring at the end brings back all banks
with all their copies (`restored_after_run`). -/
set_option autoImplicit false
namespace MachineRegisters.Machine
variable {s m after : Machine}

/-- No operation of the run changes what is installed, and each leaves at least `n` saved copies.
A refused install and one of the text in use change nothing; any other install does. -/
def StaysAbove (n : Nat) : Machine → List Operation → Prop
  | _, [] => True
  | m, op :: rest =>
      (m.perform op).machine.installed = m.installed ∧ n ≤ (m.perform op).machine.depth ∧
        StaysAbove n (m.perform op).machine rest

instance decidableStaysAbove (n : Nat) :
    (m : Machine) → (ops : List Operation) → Decidable (StaysAbove n m ops)
  | _, [] => inferInstanceAs (Decidable True)
  | m, op :: rest =>
      have := decidableStaysAbove n (m.perform op).machine rest
      inferInstanceAs (Decidable (_ ∧ _ ∧ _))

/-- What saving the banks of `s` puts down still lies under whatever else `m` has saved. -/
def Retains (s m : Machine) : Prop := ∀ c, (s.bank c).push.saved <:+ (m.bank c).saved

theorem retains_push (s : Machine) : Retains s s.push := by
  intro c
  have pushed : s.push.bank c = (s.bank c).push := TotalMap.get_map _ _ c
  exact pushed.symm ▸ List.suffix_rfl

theorem length_saved_push (soundS : s.Sound) (c : RegClass) :
    (s.bank c).push.saved.length = s.depth + 1 := by
  rw [← soundS.depth_eq c]
  rfl

namespace Retains

/-- Only taking the copy away could lose it, and then too few would be left. -/
theorem pop (retains : Retains s m) (soundS : s.Sound) (sound : m.Sound) (popped : m.pop? = some after)
    (deep : s.depth + 1 ≤ after.depth) : Retains s after := by
  intro c
  obtain ⟨last, rest, saved, now⟩ := sound.bank_of_pop popped c
  have enough : (s.bank c).push.saved.length ≤ rest.length := by
    have depthAfter := (sound.pop popped).depth_eq c
    rw [Bank.depth, now] at depthAfter
    rw [length_saved_push soundS, depthAfter]
    exact deep
  have below := retains c
  rw [saved, List.suffix_cons_iff] at below
  rw [now]
  rcases below with whole | part
  · rw [whole, List.length_cons] at enough
    omega
  · exact part

theorem effect (retains : Retains s m) (soundS : s.Sound) (sound : m.Sound) (done : Effect m after)
    (kept : after.installed = m.installed) (deep : s.depth + 1 ≤ after.depth) : Retains s after := by
  cases done with
  | rewritten only =>
      intro c
      rw [only.saved]
      exact retains c
  | takenOver source rs readable laid fresh =>
      -- The text would be another one, and with it what is installed.
      have installed : some source = m.installed := kept
      rw [profileText, ← installed] at fresh
      exact absurd rfl fresh
  | reindexed => exact retains
  | configured config => exact retains
  | bound role name => exact retains
  | guarded name on => exact retains
  | advanced c =>
      unfold advance
      split
      · exact retains
      · exact retains
  | rewound c => exact retains
  | pushed =>
      intro c
      have pushed : m.push.bank c = (m.bank c).push := TotalMap.get_map _ _ c
      rw [pushed]
      exact (retains c).trans (List.suffix_cons _ _)
  | popped popped => exact retains.pop soundS sound popped deep
  | fitted => exact sound.fit_eq.symm ▸ retains

theorem run (soundS : s.Sound) (ops : List Operation) (retains : Retains s m) (sound : m.Sound)
    (above : StaysAbove (s.depth + 1) m ops) : Retains s (m.run ops) ∧ (m.run ops).Sound := by
  induction ops generalizing m with
  | nil => exact ⟨retains, sound⟩
  | cons op rest ih =>
      obtain ⟨kept, deep, later⟩ := above
      have done := perform_effect m op
      exact ih (retains.effect soundS sound done kept deep) (sound.effect done) later

/-- When only that copy and those under it are left, restoring brings back every bank as it was. -/
theorem restore (retains : Retains s m) (soundS : s.Sound) (sound : m.Sound) (level : m.depth = s.depth + 1) :
    ∃ restored, m.pop? = some restored ∧ restored.banks = s.banks := by
  have deep : m.depth ≠ 0 := by omega
  refine ⟨_, if_neg deep, ?_⟩
  apply TotalMap.ext_get
  intro c
  have length : (s.bank c).push.saved.length = (m.bank c).saved.length := by
    rw [length_saved_push soundS, ← level, ← sound.depth_eq c]
    rfl
  have saved : (m.bank c).saved = (s.bank c).push.saved := ((retains c).eq_of_length length).symm
  have popped : (m.bank c).pop? = some (s.bank c) := by
    rw [Bank.pop?, saved]
    rfl
  rw [TotalMap.get_map]
  exact congrArg (fun b => b.getD (m.bank c)) popped

end Retains

/-- After saving and any run that keeps the copy and the profile, restoring at the same depth
succeeds and gives back every bank, live and saved; and with nothing saved it changes nothing. -/
theorem restored_after_run (reached : s.Reachable) :
    (∀ ops, StaysAbove (s.depth + 1) s.push ops → (s.run (.push :: ops)).depth = s.depth + 1 →
      ∃ restored, (s.run (.push :: ops)).perform .pop = .done (.truth true) restored ∧
        restored.banks = s.banks) ∧
      (s.depth = 0 → s.perform .pop = .done (.truth false) s) := by
  have soundS := reached.sound
  refine ⟨?_, ?_⟩
  · intro ops above level
    obtain ⟨retains, sound⟩ := Retains.run soundS ops (retains_push s) soundS.push above
    obtain ⟨restored, popped, banks⟩ := retains.restore soundS sound level
    refine ⟨restored, ?_, banks⟩
    show perform (s.push.run ops) .pop = _
    simp only [perform, popped]
  · intro empty
    have nothing : s.pop? = none := if_pos empty
    simp only [perform, nothing]

/-- Two copies deep, with writes, a nested save, a bank replaced, a refused install and one repeated. -/
theorem restored_after_run_nested :
    ∃ (s : Machine) (ops : List Operation), s.Reachable ∧ s.depth = 1 ∧ s.live .general = [7, 1] ∧
      (s.run (.push :: ops)).live .general = [9, 9] ∧
      ∃ restored, (s.run (.push :: ops)).perform .pop = .done (.truth true) restored ∧
        restored.banks = s.banks := by
  have reached : Reachable ((empty {}).run
      [.install "gpr a .12 .3 0\nfpu x 3 0 0", .push, .writeBytes .general [7, 1]]) := ⟨_, _, rfl⟩
  exact ⟨_, [.writeNamed "a" 5, .push, .replaceBank .float [1, 2, 3], .clearBank .general, .fit,
      .install "gpr b 0 0 0", .pop, .install "gpr a .12 .3 0\nfpu x 3 0 0", .setReadOnly "a" true,
      .writeHex .general "0909"],
    reached, by decide +kernel, by decide +kernel, by decide +kernel,
    (restored_after_run reached).1 _ (by decide +kernel) (by decide +kernel)⟩

end MachineRegisters.Machine
