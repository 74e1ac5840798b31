import MachineRegisters.Proofs.FlagSetting

/-! # Reading flags and evaluating conditions

A condition is evaluated on the flags that it reads, and all flags are read at once in another
way, which passes over those that are kept nowhere (`flags_eq_ok_iff`).  Each located flag is read the same in both
(`get_present_locateAll`, `get_present_locatedFlags`), and a condition reads no others, so it
comes out as it does on the setting of all flags (`evaluate_flags`), whichever flags share
storage. -/
set_option autoImplicit false
namespace MachineRegisters

theorem Condition.inputs_ne_nil (c : Condition) : c.inputs ≠ [] := by cases c <;> decide

namespace Machine
open FlagPlace
variable {m : Machine}

/-! ## The flags that are listed -/

theorem locateAll_eq_none_iff {fs : List Flag} : m.locateAll fs = none ↔ ∃ f ∈ fs, m.locate f = none := by
  induction fs with
  | nil => simp [locateAll]
  | cons f rest ih =>
      rw [locateAll]
      cases here : m.locate f with
      | none => simp [here]
      | some p => simp [here, ih]

theorem exists_locateAll_iff {fs : List Flag} :
    (∃ inputs, m.locateAll fs = some inputs) ↔ ∀ f ∈ fs, ∃ p, m.locate f = some p := by
  rw [← Option.isSome_iff_exists, ← Option.ne_none_iff_isSome, ne_eq, locateAll_eq_none_iff]
  simp only [not_exists, not_and, ← ne_eq, Option.ne_none_iff_exists']

theorem mem_of_locateAll {fs : List Flag} {inputs : List (Flag × FlagPlace)}
    (found : m.locateAll fs = some inputs) {f : Flag} {p : FlagPlace} (listed : f ∈ fs)
    (located : m.locate f = some p) : (f, p) ∈ inputs := by
  induction fs generalizing inputs with
  | nil => cases listed
  | cons g rest ih =>
      obtain ⟨q, tail, here, later, rfl⟩ := locateAll_cons found
      rcases List.mem_cons.mp listed with rfl | inRest
      · cases here.symm.trans located
        exact List.mem_cons_self ..
      · exact List.mem_cons_of_mem _ (ih later inRest)

section Present
variable {order : ByteOrder} {mem : BitPlace → Bool} {f : Flag} {p : FlagPlace}

theorem get_present_locateAll {c : Condition} {inputs : List (Flag × FlagPlace)}
    (found : m.locateAll c.inputs = some inputs) (listed : f ∈ c.inputs) (located : m.locate f = some p) :
    (present order mem inputs).get f = lit order mem p := by
  have distinct : (inputs.map Prod.fst).Nodup := map_fst_of_locateAll found ▸ c.nodup_inputs
  exact get_present distinct (mem_of_locateAll found listed located)

theorem get_present_locatedFlags (located : m.locate f = some p) :
    (present order mem m.locatedFlags).get f = lit order mem p :=
  get_present nodup_locatedFlags (mem_locatedFlags.mpr located)

/-- A condition cannot tell the setting of its own inputs from that of all flags. -/
theorem holds_present_eq {c : Condition} {inputs : List (Flag × FlagPlace)}
    (found : m.locateAll c.inputs = some inputs) :
    c.holds (present order mem inputs) = c.holds (present order mem m.locatedFlags) := by
  apply c.holds_congr
  intro f listed
  obtain ⟨p, located⟩ := exists_locateAll_iff.mp ⟨inputs, found⟩ f listed
  rw [get_present_locateAll found listed located, get_present_locatedFlags located]

end Present

/-! ## Both ways to read -/

theorem evaluate_of_unlocated {c : Condition} (nowhere : ∃ f ∈ c.inputs, m.locate f = none) :
    m.evaluate c = .error (.conditionUnresolved c) := by
  rw [evaluate, locateAll_eq_none_iff.mpr nowhere]

theorem flags_eq_ok_iff (sound : m.Sound) {fs : Flags} : m.flags = .ok fs ↔
    (∃ f p, m.locate f = some p) ∧
      ∀ f, (∀ p, m.locate f = some p → m.readFlag p = .ok (fs.get f)) ∧ (m.locate f = none → fs.get f = false) := by
  constructor
  · intro read
    by_cases nothing : m.locatedFlags = []
    · rw [flags, if_pos nothing] at read
      cases read
    · obtain ⟨⟨g, q⟩, member⟩ := List.exists_mem_of_ne_nil _ nothing
      rw [flags_of_sound sound nothing] at read
      cases read
      refine ⟨⟨g, q, mem_locatedFlags.mp member⟩, fun f => ⟨fun p located => ?_, get_present_of_unlocated⟩⟩
      rw [readFlag_of_offers sound (offers_of_locate located), get_present_locatedFlags located]
  · rintro ⟨⟨g, q, located⟩, each⟩
    have some : m.locatedFlags ≠ [] := List.ne_nil_of_mem (mem_locatedFlags.mpr located)
    rw [flags_of_sound sound some]
    refine congrArg Except.ok (Flags.ext_get fun f => ?_)
    cases place : m.locate f with
    | none => rw [get_present_of_unlocated place, (each f).2 place]
    | some p =>
        have read := (each f).1 p place
        rw [readFlag_of_offers sound (offers_of_locate place)] at read
        rw [get_present_locatedFlags place]
        exact Except.ok.inj read

/-- In whatever storage the flags are kept: a condition comes out as it does on the setting of all
flags if all its own are kept somewhere, and is unresolved otherwise.  Nothing else is refused but
to read the flags where none is kept.  Reading gives no machine, so there is none that it changed. -/
theorem evaluate_flags (reached : m.Reachable) (c : Condition) :
    ((∀ f ∈ c.inputs, ∃ p, m.locate f = some p) →
        ∃ fs, m.flags = .ok fs ∧ m.evaluate c = .ok (c.holds fs)) ∧
      ((∃ f ∈ c.inputs, m.locate f = none) → m.evaluate c = .error (.conditionUnresolved c)) ∧
      (∀ e, m.evaluate c = .error e → e = .conditionUnresolved c) ∧
      ∀ e, m.flags = .error e → e = .flagsUnresolved ∧ ∀ f, m.locate f = none := by
  have sound := reached.sound
  have known : (∀ f ∈ c.inputs, ∃ p, m.locate f = some p) →
      ∃ fs, m.flags = .ok fs ∧ m.evaluate c = .ok (c.holds fs) := by
    intro located
    obtain ⟨inputs, found⟩ := exists_locateAll_iff.mpr located
    obtain ⟨f, listed⟩ := List.exists_mem_of_ne_nil _ c.inputs_ne_nil
    obtain ⟨p, place⟩ := located f listed
    have some : m.locatedFlags ≠ [] := List.ne_nil_of_mem (mem_locatedFlags.mpr place)
    refine ⟨_, flags_of_sound sound some, ?_⟩
    rw [evaluate_of_located sound found, holds_present_eq found]
  refine ⟨known, evaluate_of_unlocated, ?_, ?_⟩
  · intro e refused
    by_cases nowhere : ∃ f ∈ c.inputs, m.locate f = none
    · cases (evaluate_of_unlocated nowhere).symm.trans refused
      rfl
    · push Not at nowhere
      obtain ⟨fs, -, evaluated⟩ := known fun f listed => Option.ne_none_iff_exists'.mp (nowhere f listed)
      cases evaluated.symm.trans refused
  · intro e refused
    by_cases nothing : m.locatedFlags = []
    · rw [flags, if_pos nothing] at refused
      cases refused
      exact ⟨rfl, locatedFlags_eq_nil_iff.mp nothing⟩
    · cases (flags_of_sound sound nothing).symm.trans refused

/-- The overflow flag is a register in which the bit of the sign flag lies; there is no place for carry. -/
theorem evaluate_flags_shared :
    ∃ m : Machine, m.Reachable ∧ m.config.byteOrder = .highFirst ∧
      (∃ fs, m.flags = .ok fs ∧ fs = ⟨true, false, false, false, true, false⟩ ∧ m.evaluate .greater = .ok true) ∧
      m.evaluate .higher = .error (.conditionUnresolved .higher) := by
  obtain ⟨m, reached, order, located, told, missing⟩ : ∃ m : Machine, m.Reachable ∧
      m.config.byteOrder = .highFirst ∧ (∀ f ∈ Condition.greater.inputs, (m.locate f).isSome) ∧
      m.flags = .ok ⟨true, false, false, false, true, false⟩ ∧ m.locate .carry = none :=
    ⟨(empty { byteOrder := .highFirst }).run
        [.install "=SR st\ngpr st .16 0 0 zs\ngpr of .3 .8 0", .writeNamed "st" 2], ⟨_, _, rfl⟩,
      by decide +kernel, by decide +kernel, by decide +kernel, by decide +kernel⟩
  obtain ⟨fs, read, evaluated⟩ :=
    (evaluate_flags reached .greater).1 fun f listed => Option.isSome_iff_exists.mp (located f listed)
  cases told.symm.trans read
  exact ⟨m, reached, order, ⟨_, read, rfl, evaluated⟩,
    (evaluate_flags reached .higher).2.1 ⟨.carry, by decide, missing⟩⟩

end Machine
end MachineRegisters
