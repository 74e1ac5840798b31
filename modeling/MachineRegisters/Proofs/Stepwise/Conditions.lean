import MachineRegisters.Proofs.FlagSetting
import MachineRegisters.Proofs.LeastChange
import MachineRegisters.Proofs.Stepwise.Access

/-! # Flags and conditions, step by step

The place of a flag is kept as the index of its register and, in a status register, the
number of its bit; both are used again without being checked, to take the register from
the list and to shift a mask.  A place that was located lies in a register of the list and
its bit inside a word (`Machine.Offers`), and stays there while flags are written.  The
least change is sought among numbered settings, one bit of the number for each flag; they
are all the settings there are (`exists_toggled_iff`), so the search finds the same. -/
set_option autoImplicit false
namespace MachineRegisters.Stepwise

/-! ## Numbered settings -/

/-- The setting with those flags turned whose bit in the mask, from bit `i` on, is set. -/
def toggledFrom (mask : BitVec 32) : Nat → Flags → List Flag → Option Flags
  | _, fs, [] => some fs
  | i, fs, f :: rest => do
      let on ← tested mask i
      toggledFrom mask (i + 1) (if on then fs.set f (!fs.get f) else fs) rest

def cheapestChange (c : Condition) (wanted : Bool) (now : Flags) (inputs : List Flag) :
    Option (Option Flags) := do
  let limit ← bitMask 32 inputs.length
  let settings ← (List.range limit.toNat).mapM fun n => toggledFrom (BitVec.ofNat 32 n) 0 now inputs
  return cheapest? now.changeCost (settings.filter fun fs => c.holds fs == wanted)

/-- The setting with those flags turned whose bit in a number is set. -/
def toggled : Nat → Flags → List Flag → Flags
  | _, fs, [] => fs
  | n, fs, f :: rest => toggled (n / 2) (if n % 2 = 1 then fs.set f (!fs.get f) else fs) rest

theorem toggledFrom_eq (n : Nat) {inputs : List Flag} :
    ∀ {i : Nat} (fs : Flags), i + inputs.length ≤ 32 →
      toggledFrom (BitVec.ofNat 32 n) i fs inputs = some (toggled (n >>> i) fs inputs) := by
  induction inputs with
  | nil => exact fun _ _ => rfl
  | cons f rest ih =>
      intro i fs narrow
      rw [List.length_cons] at narrow
      have inside : i < 32 := by omega
      have bit : (BitVec.ofNat 32 n).getLsbD i = decide ((n >>> i) % 2 = 1) := by
        rw [BitVec.getLsbD_ofNat, decide_eq_true inside, Bool.true_and, Nat.testBit_eq_decide_div_mod_eq,
          Nat.shiftRight_eq_div_pow]
      have next : n >>> (i + 1) = (n >>> i) / 2 := Nat.shiftRight_succ n i
      simp only [toggledFrom, tested_eq _ inside, Option.bind_eq_bind, Option.bind_some, bit, decide_eq_true_iff,
        ih _ (show i + 1 + rest.length ≤ 32 by omega), next, toggled]

theorem exists_toggled_iff {inputs : List Flag} {gs : Flags} :
    ∀ {now : Flags}, (∃ n < 2 ^ inputs.length, toggled n now inputs = gs) ↔ gs ∈ now.variations inputs := by
  induction inputs with
  | nil =>
      intro now
      rw [Flags.variations, List.mem_singleton]
      constructor
      · rintro ⟨n, -, same⟩
        exact same.symm
      · intro same
        exact ⟨0, Nat.one_pos, same.symm⟩
  | cons f rest ih =>
      intro now
      rw [Flags.variations, List.mem_append, ← ih, ← ih, List.length_cons, Nat.pow_succ]
      constructor
      · rintro ⟨n, below, made⟩
        rw [toggled] at made
        by_cases odd : n % 2 = 1
        · rw [if_pos odd] at made
          exact .inr ⟨n / 2, by omega, made⟩
        · rw [if_neg odd] at made
          exact .inl ⟨n / 2, by omega, made⟩
      · rintro (⟨n, below, made⟩ | ⟨n, below, made⟩)
        · refine ⟨2 * n, by omega, ?_⟩
          rw [toggled, if_neg (by omega), Nat.mul_div_cancel_left n (by decide), made]
        · refine ⟨2 * n + 1, by omega, ?_⟩
          have half : (2 * n + 1) / 2 = n := by omega
          rw [toggled, if_pos (by omega), half, made]

theorem exists_cheapest? {α : Type} (cost : α → List Nat) {as : List α} {a : α} (listed : a ∈ as) :
    ∃ best, cheapest? cost as = some best := by
  cases as with
  | nil => cases listed
  | cons b rest =>
      rw [cheapest?]
      cases cheapest? cost rest with
      | none => exact ⟨b, rfl⟩
      | some c => exact ⟨_, (apply_ite some _ _ _).symm⟩

theorem length_inputs_le (c : Condition) : c.inputs.length ≤ 3 := by
  cases c <;> decide

theorem cheapestChange_eq {c : Condition} {wanted : Bool} {now : Flags} (differs : c.holds now ≠ wanted) :
    cheapestChange c wanted now c.inputs = some (c.cheapestChange? wanted now) := by
  have short := length_inputs_le c
  have inside : c.inputs.length < 32 := by omega
  have limit : (BitVec.twoPow 32 c.inputs.length).toNat = 2 ^ c.inputs.length := by
    rw [BitVec.toNat_twoPow, Nat.mod_eq_of_lt (Nat.pow_lt_pow_right (by decide) inside)]
  have each : ∀ n ∈ List.range (2 ^ c.inputs.length),
      toggledFrom (BitVec.ofNat 32 n) 0 now c.inputs = some (toggled n now c.inputs) :=
    fun n _ => toggledFrom_eq n now (by omega)
  have searched : cheapestChange c wanted now c.inputs = some (cheapest? now.changeCost
      (((List.range (2 ^ c.inputs.length)).map fun n => toggled n now c.inputs).filter
        fun fs => c.holds fs == wanted)) := by
    simp only [cheapestChange, bitMask_eq inside, Option.bind_eq_bind, Option.bind_some, limit, mapM_eq each]
    rfl
  have mem_settings : ∀ gs, gs ∈ ((List.range (2 ^ c.inputs.length)).map fun n => toggled n now c.inputs).filter
      (fun fs => c.holds fs == wanted) ↔ (∀ f, f ∉ c.inputs → gs.get f = now.get f) ∧ c.holds gs = wanted := by
    intro gs
    rw [List.mem_filter, ← Flags.mem_variations, ← exists_toggled_iff, beq_iff_eq]
    simp only [List.mem_map, List.mem_range]
  -- The two searches go through the same settings in different orders, but only one is cheapest.
  have target := Condition.cheapest_target differs
  obtain ⟨best, found⟩ := exists_cheapest? now.changeCost ((mem_settings _).mpr ⟨target.frame, target.holds⟩)
  obtain ⟨listed, least⟩ := cheapest?_eq_some found
  obtain ⟨frame, holds⟩ := (mem_settings best).mp listed
  have cheapest : c.Cheapest wanted now best :=
    ⟨frame, holds, fun other sameElsewhere holds => least other ((mem_settings other).mpr ⟨sameElsewhere, holds⟩)⟩
  rw [searched, found, Condition.cheapestChange?_eq differs, cheapest.unique target]

/-! ## Flags -/

def statusBitFor (m : Machine) (f : Flag) : Option (Option FlagPlace) := do
  let status ← playing m .status
  match status.filter fun r => r.size ≤ 64 with
  | none => some none
  | some r => some ((r.markedBit? f.letter).map (.statusBit r))

def registerForFlag (m : Machine) (f : Flag) : Option (Option Register) := do
  let byRole ← playingAny m f.role?
  let found ← match byRole with
    | some r => some (some r)
    | none => find m f.registerName
  return found.filter fun r => r.size ≤ 64

def locate (m : Machine) (f : Flag) : Option (Option FlagPlace) := do
  match ← statusBitFor m f with
  | some p => some (some p)
  | none => do
      let alone ← registerForFlag m f
      return alone.map .whole

def readFlag (m : Machine) (p : FlagPlace) : Option (Except RegisterError Bool) := do
  let r ← m.registers[p.register.index]?
  match ← readWord m r with
  | .error e => some (.error e)
  | .ok v =>
      match p with
      | .statusBit _ i => do
          let on ← tested v i
          return .ok on
      | .whole _ => some (.ok (v ≠ 0))

def readFlags (m : Machine) : List (Flag × FlagPlace) → Flags → Option (Except RegisterError Flags)
  | [], fs => some (.ok fs)
  | (f, p) :: rest, fs => do
      match ← readFlag m p with
      | .error e => some (.error e)
      | .ok b => readFlags m rest (fs.set f b)

def writeFlag (m : Machine) (p : FlagPlace) (b : Bool) : Option (Outcome Unit) := do
  let r ← m.registers[p.register.index]?
  match p with
  | .statusBit _ i => do
      match ← readWord m r with
      | .error e => some (.refused e m)
      | .ok v => do
          let changed ← switched v i b
          writeWord m r changed
  | .whole _ => writeWord m r (if b then 1 else 0)

def writeFlagsInOrder (m : Machine) : List (FlagPlace × Bool) → Option (Outcome Unit)
  | [] => some (.done () m)
  | (p, b) :: rest => do
      let written ← writeFlag m p b
      match written.answer with
      | .error e => some (.refused e written.machine)
      | .ok () => writeFlagsInOrder written.machine rest

def firstGuarded (m : Machine) : List (FlagPlace × Bool) → Option (Option String)
  | [] => some none
  | (p, _) :: rest => do
      let r ← m.registers[p.register.index]?
      if m.isReadOnly r.name then some (some r.name) else firstGuarded m rest

def writeFlags (m : Machine) (writes : List (FlagPlace × Bool)) : Option (Outcome Unit) := do
  match ← firstGuarded m writes with
  | some name => some (.refused (.readOnly name) m)
  | none => writeFlagsInOrder m writes

def locateAll (m : Machine) : List Flag → Option (Option (List (Flag × FlagPlace)))
  | [] => some (some [])
  | f :: rest => do
      match ← locate m f with
      | none => some none
      | some p => do
          let others ← locateAll m rest
          return others.map ((f, p) :: ·)

def locateEach (m : Machine) : List Flag → Option (List (Flag × FlagPlace))
  | [] => some []
  | f :: rest => do
      let place ← locate m f
      let others ← locateEach m rest
      return (place.map fun p => (f, p)).toList ++ others

def evaluate (m : Machine) (c : Condition) : Option (Except RegisterError Bool) := do
  match ← locateAll m c.inputs with
  | none => some (.error (.conditionUnresolved c))
  | some inputs => do
      let now ← readFlags m inputs .clear
      return now.map c.holds

def force (m : Machine) (c : Condition) (wanted : Bool) : Option (Outcome Unit) := do
  match ← locateAll m c.inputs with
  | none => some (.refused (.conditionUnresolved c) m)
  | some inputs => do
      match ← readFlags m inputs .clear with
      | .error e => some (.refused e m)
      | .ok now =>
          if c.holds now = wanted then some (.done () m)
          else do
            match ← cheapestChange c wanted now (inputs.map Prod.fst) with
            | none => some (.refused (.conditionUnresolved c) m)
            | some best => writeFlags m (Machine.flagWrites inputs now best)

def flags (m : Machine) : Option (Except RegisterError Flags) := do
  let located ← locateEach m Flag.all
  if located = [] then some (.error .flagsUnresolved) else readFlags m located .clear

def setFlags (m : Machine) (fs : Flags) : Option (Outcome Unit) := do
  let located ← locateEach m Flag.all
  if located = [] then some (.refused .flagsUnresolved m)
  else writeFlags m (located.map fun i => (i.2, fs.get i.1))

theorem Ready.rewritten {m after : Machine} (ready : Ready m) (only : Machine.Rewritten m after) : Ready after :=
  ⟨ready.sound.rewritten only, ready.cataloged.effect (.rewritten only)⟩

section
variable {m : Machine} (ready : Ready m)
include ready

theorem statusBitFor_eq (f : Flag) : statusBitFor m f = some (m.statusBitFor f) := by
  simp only [statusBitFor, Machine.statusBitFor, playing_eq ready, Option.bind_eq_bind, Option.bind_some]
  cases (m.playing .status).filter fun r => r.size ≤ 64 <;> rfl

theorem registerForFlag_eq (f : Flag) : registerForFlag m f = some (m.registerForFlag f) := by
  simp only [registerForFlag, Machine.registerForFlag, playingAny_eq ready, find_eq ready, Option.bind_eq_bind,
    Option.bind_some]
  cases f.role?.bind m.playing <;> rfl

theorem locate_eq (f : Flag) : locate m f = some (m.locate f) := by
  simp only [locate, Machine.locate, statusBitFor_eq ready, registerForFlag_eq ready, Option.bind_eq_bind,
    Option.bind_some]
  cases m.statusBitFor f <;> rfl

theorem locateAll_eq (fs : List Flag) : locateAll m fs = some (m.locateAll fs) := by
  induction fs with
  | nil => rfl
  | cons f rest ih =>
      simp only [locateAll, Machine.locateAll, locate_eq ready, ih, Option.bind_eq_bind, Option.bind_some]
      cases m.locate f <;> rfl

theorem locateEach_eq (fs : List Flag) :
    locateEach m fs = some (fs.filterMap fun f => (m.locate f).map fun p => (f, p)) := by
  induction fs with
  | nil => rfl
  | cons f rest ih =>
      simp only [locateEach, locate_eq ready, ih, Option.bind_eq_bind, Option.bind_some, Option.pure_def,
        List.filterMap_cons]
      cases m.locate f <;> rfl

theorem registers_of_offers {p : FlagPlace} (offered : m.Offers p) :
    m.registers[p.register.index]? = some p.register :=
  ready.sound.placed.getElem?_index (Machine.register_mem_of_offers offered)

theorem readFlag_eq {p : FlagPlace} (offered : m.Offers p) : readFlag m p = some (m.readFlag p) := by
  simp only [readFlag, Machine.readFlag, registers_of_offers ready offered, readWord_eq ready, Option.bind_eq_bind,
    Option.bind_some]
  cases m.readWord p.register with
  | error e => rfl
  | ok v =>
      cases p with
      | statusBit r i =>
          have inside : i < 64 := Nat.lt_of_lt_of_le offered.2.2 offered.2.1
          simp only [tested_eq v inside, Option.bind_some]
          rfl
      | whole r => rfl

theorem readFlags_eq {inputs : List (Flag × FlagPlace)} (offered : ∀ i ∈ inputs, m.Offers i.2) :
    ∀ fs, readFlags m inputs fs = some (m.readFlags inputs fs) := by
  induction inputs with
  | nil => exact fun _ => rfl
  | cons i rest ih =>
      obtain ⟨f, p⟩ := i
      rw [List.forall_mem_cons] at offered
      intro fs
      simp only [readFlags, Machine.readFlags, readFlag_eq ready offered.1, ih offered.2, Option.bind_eq_bind,
        Option.bind_some]
      cases m.readFlag p <;> rfl

theorem writeFlag_eq {p : FlagPlace} (offered : m.Offers p) (b : Bool) :
    writeFlag m p b = some (m.writeFlag p b) := by
  simp only [writeFlag, Machine.writeFlag, registers_of_offers ready offered, Option.bind_eq_bind,
    Option.bind_some]
  cases p with
  | statusBit r i =>
      have inside : i < 64 := Nat.lt_of_lt_of_le offered.2.2 offered.2.1
      simp only [FlagPlace.register, readWord_eq ready, switched_eq _ inside, writeWord_eq ready, Option.bind_some]
      cases m.readWord r <;> rfl
  | whole r => exact writeWord_eq ready r _

theorem firstGuarded_eq {writes : List (FlagPlace × Bool)} (offered : ∀ w ∈ writes, m.Offers w.1) :
    firstGuarded m writes =
      some ((writes.find? fun w => m.isReadOnly w.1.register.name).map fun w => w.1.register.name) := by
  induction writes with
  | nil => rfl
  | cons w rest ih =>
      rw [List.forall_mem_cons] at offered
      simp only [firstGuarded, registers_of_offers ready offered.1, ih offered.2, Option.bind_eq_bind,
        Option.bind_some, List.find?_cons]
      cases m.isReadOnly w.1.register.name <;> rfl

end

theorem writeFlagsInOrder_eq {writes : List (FlagPlace × Bool)} :
    ∀ {m : Machine}, Ready m → (∀ w ∈ writes, m.Offers w.1) →
      writeFlagsInOrder m writes = some (m.writeFlagsInOrder writes) := by
  induction writes with
  | nil => exact fun _ _ => rfl
  | cons w rest ih =>
      obtain ⟨p, b⟩ := w
      intro m ready offered
      rw [List.forall_mem_cons] at offered
      -- What one write leaves is again a machine that offers the places of the others.
      have only := Machine.writeFlag_rewritten m p b
      have others := ih (ready.rewritten only) fun w member => only.offers (offered.2 w member)
      simp only [writeFlagsInOrder, Machine.writeFlagsInOrder, writeFlag_eq ready offered.1, Option.bind_eq_bind,
        Option.bind_some, Outcome.andThen]
      cases (m.writeFlag p b).answer with
      | error e => rfl
      | ok done => exact others

section
variable {m : Machine} (ready : Ready m)
include ready

theorem writeFlags_eq {writes : List (FlagPlace × Bool)} (offered : ∀ w ∈ writes, m.Offers w.1) :
    writeFlags m writes = some (m.writeFlags writes) := by
  simp only [writeFlags, Machine.writeFlags, firstGuarded_eq ready offered, writeFlagsInOrder_eq ready offered,
    Option.bind_eq_bind, Option.bind_some]
  cases writes.find? fun w => m.isReadOnly w.1.register.name <;> rfl

theorem evaluate_eq (c : Condition) : evaluate m c = some (m.evaluate c) := by
  simp only [evaluate, Machine.evaluate, locateAll_eq ready, Option.bind_eq_bind, Option.bind_some]
  cases located : m.locateAll c.inputs with
  | none => rfl
  | some inputs =>
      simp only [readFlags_eq ready (Machine.offers_of_locateAll located), Option.bind_some]
      rfl

theorem force_eq (c : Condition) (wanted : Bool) : force m c wanted = some (m.force c wanted) := by
  simp only [force, Machine.force, locateAll_eq ready, Option.bind_eq_bind, Option.bind_some]
  cases located : m.locateAll c.inputs with
  | none => rfl
  | some inputs =>
      have offered := Machine.offers_of_locateAll located
      simp only [readFlags_eq ready offered, Option.bind_some]
      cases m.readFlags inputs .clear with
      | error e => rfl
      | ok now =>
          by_cases already : c.holds now = wanted
          · simp only [if_pos already]
          · simp only [if_neg already, Machine.map_fst_of_locateAll located, cheapestChange_eq already,
              Option.bind_some]
            cases c.cheapestChange? wanted now with
            | none => rfl
            | some best => exact writeFlags_eq ready (Machine.offers_of_flagWrites offered now best)

theorem flags_eq : flags m = some m.flags := by
  have offered : ∀ i ∈ m.locatedFlags, m.Offers i.2 := fun i member => Machine.offers_of_mem_locatedFlags member
  have located : locateEach m Flag.all = some m.locatedFlags := locateEach_eq ready _
  simp only [flags, Machine.flags, located, Option.bind_eq_bind, Option.bind_some, readFlags_eq ready offered]
  split <;> rfl

theorem setFlags_eq (fs : Flags) : setFlags m fs = some (m.setFlags fs) := by
  have offered := Machine.offers_of_mem_settings (m := m) fs
  have located : locateEach m Flag.all = some m.locatedFlags := locateEach_eq ready _
  simp only [setFlags, Machine.setFlags, located, Option.bind_eq_bind, Option.bind_some, writeFlags_eq ready offered]
  split <;> rfl

end
end MachineRegisters.Stepwise
