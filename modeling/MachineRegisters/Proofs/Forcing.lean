import MachineRegisters.Proofs.FlagStorage

/-! # Forcing a condition

Forcing chooses a new setting of the flags that a condition reads and writes those
that change, one after the other.  What is chosen is known for each condition
(`cheapestChange?_eq`).  The condition then comes out as wanted unless the flags
share storage in such a way that writing one of them spoils another; `spoils` says
exactly when, and `evaluate_forced` that it does. -/
set_option autoImplicit false
namespace MachineRegisters

namespace Condition

/-- The setting that is chosen when the condition is not as wanted. -/
def target : Condition → Bool → Flags → Flags
  | equal, b, now => now.set .zero b
  | notEqual, b, now => now.set .zero !b
  | carry, b, now => now.set .carry b
  | lower, b, now => now.set .carry b
  | higherOrSame, b, now => now.set .carry !b
  | negative, b, now => now.set .sign b
  | overflow, b, now => now.set .overflow b
  | higher, true, now => (now.set .carry false).set .zero false
  | lowerOrSame, false, now => (now.set .carry false).set .zero false
  | higher, false, now => now.set .zero true
  | lowerOrSame, true, now => now.set .zero true
  | greaterOrEqual, _, now => now.set .overflow !now.overflow
  | less, _, now => now.set .overflow !now.overflow
  | greater, true, now => (now.set .overflow now.sign).set .zero false
  | lessOrEqual, false, now => (now.set .overflow now.sign).set .zero false
  | greater, false, now => now.set .zero true
  | lessOrEqual, true, now => now.set .zero true

theorem cheapestChange?_eq {c : Condition} {wanted : Bool} {now : Flags}
    (differs : c.holds now ≠ wanted) : c.cheapestChange? wanted now = some (c.target wanted now) := by
  -- There are few enough settings to compare them all.
  obtain ⟨s, z, a, k, o, p⟩ := now
  revert s z a k o p
  cases c <;> cases wanted <;> decide

theorem nodup_inputs (c : Condition) : c.inputs.Nodup := by cases c <;> decide

theorem holds_greaterOrEqual (fs : Flags) : greaterOrEqual.holds fs = !less.holds fs := by
  simp [holds, bne]

theorem holds_lessOrEqual (fs : Flags) : lessOrEqual.holds fs = !greater.holds fs := by
  simp [holds, bne]

theorem holds_greater_of_zero {fs : Flags} (zeroed : fs.zero = true) : greater.holds fs = false := by
  simp [holds, zeroed]

end Condition

namespace FlagPlace
section Memory
variable (order : ByteOrder) (mem : BitPlace → Bool)

def flagsIn : List (Flag × FlagPlace) → Flags → Flags
  | [], fs => fs
  | (f, p) :: rest, fs => flagsIn rest (fs.set f (lit order mem p))

def present (inputs : List (Flag × FlagPlace)) : Flags := flagsIn order mem inputs .clear

/-- The setting that is read after a new one has been written. -/
def settled (inputs : List (Flag × FlagPlace)) (best : Flags) : Flags :=
  present order (putAll order mem (Machine.flagWrites inputs (present order mem inputs) best)) inputs

variable {order mem} {s o z k p q : FlagPlace} {f : Flag} {b : Bool}
  {inputs : List (Flag × FlagPlace)}

theorem get_flagsIn_of_notMem (absent : f ∉ inputs.map Prod.fst) (fs : Flags) :
    (flagsIn order mem inputs fs).get f = fs.get f := by
  induction inputs generalizing fs with
  | nil => rfl
  | cons i rest ih =>
      obtain ⟨g, q⟩ := i
      rw [List.map_cons, List.mem_cons, not_or] at absent
      rw [flagsIn, ih absent.2, Flags.get_set, if_neg (Ne.symm absent.1)]

theorem get_flagsIn (distinct : (inputs.map Prod.fst).Nodup) (listed : (f, p) ∈ inputs) (fs : Flags) :
    (flagsIn order mem inputs fs).get f = lit order mem p := by
  induction inputs generalizing fs with
  | nil => cases listed
  | cons i rest ih =>
      obtain ⟨g, q⟩ := i
      obtain ⟨absent, distinctRest⟩ := List.nodup_cons.mp distinct
      rcases List.mem_cons.mp listed with here | later
      · cases here
        rw [flagsIn, get_flagsIn_of_notMem absent, Flags.get_set, if_pos rfl]
      · rw [flagsIn, ih distinctRest later]

theorem get_present (distinct : (inputs.map Prod.fst).Nodup) (listed : (f, p) ∈ inputs) :
    (present order mem inputs).get f = lit order mem p := get_flagsIn distinct listed .clear

theorem flagWrites_cons (g : Flag) (q : FlagPlace) (now best : Flags) :
    Machine.flagWrites ((g, q) :: inputs) now best =
      if now.get g = best.get g then Machine.flagWrites inputs now best
      else (q, best.get g) :: Machine.flagWrites inputs now best := by
  rw [Machine.flagWrites, List.filter_cons]
  by_cases same : now.get g = best.get g
  · simp [same, Machine.flagWrites]
  · simp [same, Machine.flagWrites]

theorem flagWrites_of_agree {now best : Flags} (agree : ∀ g ∈ inputs.map Prod.fst, now.get g = best.get g) :
    Machine.flagWrites inputs now best = [] := by
  induction inputs with
  | nil => rfl
  | cons i rest ih =>
      obtain ⟨g, q⟩ := i
      rw [flagWrites_cons, if_pos (agree g (List.mem_cons_self ..))]
      exact ih fun g member => agree g (List.mem_cons_of_mem _ member)

theorem flagWrites_set {now : Flags} (distinct : (inputs.map Prod.fst).Nodup) (listed : (f, p) ∈ inputs)
    (differs : now.get f ≠ b) : Machine.flagWrites inputs now (now.set f b) = [(p, b)] := by
  induction inputs with
  | nil => cases listed
  | cons i rest ih =>
      obtain ⟨g, q⟩ := i
      obtain ⟨absent, distinctRest⟩ := List.nodup_cons.mp distinct
      rcases List.mem_cons.mp listed with here | later
      · cases here
        have others : Machine.flagWrites rest now (now.set f b) = [] := by
          apply flagWrites_of_agree
          intro g member
          have other : f ≠ g := fun same => absent (same ▸ member)
          rw [Flags.get_set, if_neg other]
        rw [flagWrites_cons, Flags.get_set, if_pos rfl, if_neg differs, others]
      · have other : f ≠ g := by
          rintro rfl
          exact absent (List.mem_map.mpr ⟨_, later, rfl⟩)
        rw [flagWrites_cons, Flags.get_set, if_neg other, if_pos rfl]
        exact ih distinctRest later

variable (mem) in
theorem get_settled_set (distinct : (inputs.map Prod.fst).Nodup) (listed : (f, p) ∈ inputs)
    (marked : marks order p p = true) :
    (settled order mem inputs ((present order mem inputs).set f b)).get f = b := by
  by_cases same : (present order mem inputs).get f = b
  · have unchanged : (present order mem inputs).set f b = present order mem inputs := by
      apply Flags.ext_get
      intro g
      rw [Flags.get_set]
      split
      · rename_i here
        rw [← here, same]
      · rfl
    rw [settled, unchanged, flagWrites_of_agree fun _ _ => rfl, putAll, same]
  · rw [settled, flagWrites_set distinct listed same, putAll, putAll, get_present distinct listed,
      lit_put_self marked]

end Memory

section Spoiling
variable (order : ByteOrder) (mem : BitPlace → Bool)

/-- Writing the second flag the other way also turns the first. -/
def turnsAlong (s o : FlagPlace) : Bool :=
  if lit order mem s then lit order mem o && !litBeside order mem s o
  else !lit order mem o && marks order o s

/-- Making the overflow flag equal to the sign flag and then clearing the zero flag
leaves the first two different or the last one set. -/
def spoilsGreater (s o z : FlagPlace) : Bool :=
  if lit order mem s == lit order mem o then
    lit order mem z && (litBeside order mem s z != litBeside order mem o z)
  else
    lit order mem s &&
      if lit order mem z then
        if marks order o z then litBeside order mem s z
        else !marks order o s && !litBeside order mem s z
      else marks order o z

/-- The shared storage keeps a condition from coming out as wanted. -/
def spoils : Condition → Bool → List (Flag × FlagPlace) → Bool
  | .less, true, [(_, s), (_, o)] => turnsAlong order mem s o
  | .greaterOrEqual, false, [(_, s), (_, o)] => turnsAlong order mem s o
  | .greater, true, [(_, s), (_, o), (_, z)] => spoilsGreater order mem s o z
  | .lessOrEqual, false, [(_, s), (_, o), (_, z)] => spoilsGreater order mem s o z
  | _, _, _ => false

variable {order mem} {s o z k p q : FlagPlace} {b : Bool}

theorem lit_put_turned (marked : marks order o o = true) :
    lit order (put order mem o (!lit order mem o)) s = (lit order mem s != turnsAlong order mem s o) := by
  rw [lit_put marked, turnsAlong]
  cases dark : lit order mem o with
  | false =>
      rw [litBeside_of_dark dark]
      cases lit order mem s <;> simp
  | true =>
      cases own : lit order mem s with
      | true => simp
      | false => simp [litBeside_of_dark_left own]

theorem turnsAlong_of_differ (differ : lit order mem s = !lit order mem o) :
    turnsAlong order mem s o = false := by
  rw [turnsAlong, differ]
  cases lit order mem o <;> simp

theorem holds_less_settled (marked : marks order o o = true)
    (differs : Condition.less.holds (present order mem [(.sign, s), (.overflow, o)]) ≠ b) :
    Condition.less.holds (settled order mem [(.sign, s), (.overflow, o)]
        ((present order mem [(.sign, s), (.overflow, o)]).set .overflow !lit order mem o)) =
      (b != (b && turnsAlong order mem s o)) := by
  have distinct : ([(Flag.sign, s), (Flag.overflow, o)].map Prod.fst).Nodup := by simp
  have last : (Flag.overflow, o) ∈ [(Flag.sign, s), (Flag.overflow, o)] := by simp
  have changes : (present order mem [(.sign, s), (.overflow, o)]).get .overflow ≠ !lit order mem o := by
    rw [get_present distinct last]
    exact (Bool.not_ne_self _).symm
  rw [settled, flagWrites_set distinct last changes]
  change (lit order (put order mem o (!lit order mem o)) s != lit order (put order mem o (!lit order mem o)) o) = _
  rw [lit_put_turned marked, lit_put_self marked]
  change (lit order mem s != lit order mem o) ≠ b at differs
  cases b with
  | true =>
      have same : lit order mem s = lit order mem o := by simpa using differs
      rw [same]
      cases lit order mem o <;> simp
  | false =>
      have differ : lit order mem s = !lit order mem o := Bool.eq_not.mpr (by simpa using differs)
      rw [turnsAlong_of_differ differ, differ]
      cases lit order mem o <;> rfl

variable (mem) in
theorem settled_cleared (markedK : marks order k k = true) (markedZ : marks order z z = true) :
    settled order mem [(.carry, k), (.zero, z)]
        (((present order mem [(.carry, k), (.zero, z)]).set .carry false).set .zero false) = .clear := by
  cases carried : lit order mem k <;> cases zeroed : lit order mem z <;>
    simp [settled, present, flagsIn, Machine.flagWrites, putAll, Flags.get, Flags.set, Flags.clear, carried,
      zeroed, lit_put_self, lit_put_clear_of_dark, markedK, markedZ]

def showGreater (order : ByteOrder) (mem : BitPlace → Bool) (s o z : FlagPlace) : Bool :=
  lit order mem s == lit order mem o && !lit order mem z

theorem showGreater_put_zero (marked : marks order z z = true) :
    showGreater order (put order mem z false) s o z =
      (litBeside order mem s z == litBeside order mem o z) := by
  rw [showGreater, lit_put_self marked, lit_put marked, lit_put marked]
  simp

theorem showGreater_put_overflow (marked : marks order o o = true)
    (differ : lit order mem s = !lit order mem o) (dark : lit order mem z = false) :
    showGreater order (put order mem o (lit order mem s)) s o z =
      !(lit order mem s && marks order o z) := by
  have kept : lit order (put order mem o (lit order mem s)) s = lit order mem s := by
    rw [lit_put marked]
    cases signed : lit order mem s with
    | false => rw [litBeside_of_dark_left signed, Bool.false_and, Bool.false_or]
    | true =>
        have overflowed : lit order mem o = false := by simpa [signed] using differ
        rw [litBeside_of_dark overflowed, signed, Bool.or_true]
  rw [showGreater, kept, lit_put_self marked, lit_put marked, litBeside_of_dark_left dark]
  simp

theorem showGreater_put_both (markedO : marks order o o = true) (markedZ : marks order z z = true)
    (differ : lit order mem s = !lit order mem o) :
    showGreater order (put order (put order mem o (lit order mem s)) z false) s o z =
      !(lit order mem s &&
        if marks order o z then litBeside order mem s z
        else !marks order o s && !litBeside order mem s z) := by
  rw [showGreater_put_zero markedZ]
  cases signed : lit order mem s with
  | false =>
      have clearS : litBeside order (put order mem o false) s z = false :=
        litBeside_of_dark_left (lit_put_clear_of_dark markedO signed)
      have clearO : litBeside order (put order mem o false) o z = false :=
        litBeside_of_dark_left (lit_put_self markedO)
      rw [clearS, clearO]
      rfl
  | true =>
      have overflowed : lit order mem o = false := by simpa [signed] using differ
      rw [litBeside_put_of_dark markedO overflowed, litBeside_put_of_dark markedO overflowed, markedO,
        litBeside_of_dark_left overflowed]
      cases marks order o s <;> cases marks order o z <;> simp

theorem flagWrites_greater :
    Machine.flagWrites [(.sign, s), (.overflow, o), (.zero, z)]
        (present order mem [(.sign, s), (.overflow, o), (.zero, z)])
        (((present order mem [(.sign, s), (.overflow, o), (.zero, z)]).set .overflow
          (lit order mem s)).set .zero false) =
      (if lit order mem s = lit order mem o then [] else [(o, lit order mem s)]) ++
        if lit order mem z then [(z, false)] else [] := by
  cases signed : lit order mem s <;> cases overflowed : lit order mem o <;> cases zeroed : lit order mem z <;>
    simp [Machine.flagWrites, present, flagsIn, Flags.get, Flags.set, signed, overflowed, zeroed]

theorem holds_greater_settled (markedO : marks order o o = true) (markedZ : marks order z z = true)
    (differs : showGreater order mem s o z = false) :
    Condition.greater.holds (settled order mem [(.sign, s), (.overflow, o), (.zero, z)]
      (((present order mem [(.sign, s), (.overflow, o), (.zero, z)]).set .overflow
        (lit order mem s)).set .zero false)) = !spoilsGreater order mem s o z := by
  -- Overflow is written before zero, which therefore sees the bits that overflow leaves.
  change showGreater order (putAll order mem _) s o z = _
  rw [flagWrites_greater, spoilsGreater]
  by_cases same : lit order mem s = lit order mem o
  · have zeroed : lit order mem z = true := by simpa [showGreater, same] using differs
    have after : showGreater order (put order mem z false) s o z = _ := showGreater_put_zero markedZ
    simp [same, zeroed, putAll, after, bne]
  · have differ : lit order mem s = !lit order mem o := Bool.eq_not.mpr same
    cases zeroed : lit order mem z with
    | false =>
        have after := showGreater_put_overflow markedO differ zeroed
        simp [same, putAll, after]
    | true =>
        have after := showGreater_put_both markedO markedZ differ
        simp [same, putAll, after]

/-! ## All conditions -/

theorem cons_of_map_fst {inputs : List (Flag × FlagPlace)} {f : Flag} {rest : List Flag}
    (listed : inputs.map Prod.fst = f :: rest) :
    ∃ p tail, inputs = (f, p) :: tail ∧ tail.map Prod.fst = rest := by
  obtain ⟨⟨g, p⟩, tail, rfl, rfl, names⟩ := List.map_eq_cons_iff.mp listed
  exact ⟨p, tail, rfl, names⟩

theorem alone_of_map_fst {inputs : List (Flag × FlagPlace)} {f : Flag}
    (listed : inputs.map Prod.fst = [f]) : ∃ p, inputs = [(f, p)] := by
  obtain ⟨p, tail, rfl, names⟩ := cons_of_map_fst listed
  obtain rfl := List.map_eq_nil_iff.mp names
  exact ⟨p, rfl⟩

theorem pair_of_map_fst {inputs : List (Flag × FlagPlace)} {f g : Flag}
    (listed : inputs.map Prod.fst = [f, g]) : ∃ p q, inputs = [(f, p), (g, q)] := by
  obtain ⟨p, tail, rfl, names⟩ := cons_of_map_fst listed
  obtain ⟨q, rfl⟩ := alone_of_map_fst names
  exact ⟨p, q, rfl⟩

theorem triple_of_map_fst {inputs : List (Flag × FlagPlace)} {f g h : Flag}
    (listed : inputs.map Prod.fst = [f, g, h]) : ∃ p q r, inputs = [(f, p), (g, q), (h, r)] := by
  obtain ⟨p, tail, rfl, names⟩ := cons_of_map_fst listed
  obtain ⟨q, r, rfl⟩ := pair_of_map_fst names
  exact ⟨p, q, r, rfl⟩

/-- The condition comes out as wanted unless the storage spoils it. -/
theorem holds_settled {c : Condition} {wanted : Bool} {inputs : List (Flag × FlagPlace)}
    (listed : inputs.map Prod.fst = c.inputs) (marked : ∀ i ∈ inputs, marks order i.2 i.2 = true)
    (differs : c.holds (present order mem inputs) ≠ wanted) :
    c.holds (settled order mem inputs (c.target wanted (present order mem inputs))) =
      (wanted != spoils order mem c wanted inputs) := by
  have distinct : (inputs.map Prod.fst).Nodup := listed ▸ c.nodup_inputs
  cases c with
  | equal | notEqual =>
      obtain ⟨z, rfl⟩ := alone_of_map_fst listed
      have read : ∀ b, (settled order mem [(.zero, z)] ((present order mem [(.zero, z)]).set .zero b)).zero = b :=
        fun b => get_settled_set mem distinct (List.mem_singleton.mpr rfl) (marked _ (List.mem_singleton.mpr rfl))
      simp [Condition.holds, Condition.target, spoils, read]
  | carry | higherOrSame | lower =>
      obtain ⟨k, rfl⟩ := alone_of_map_fst listed
      have read : ∀ b, (settled order mem [(.carry, k)] ((present order mem [(.carry, k)]).set .carry b)).carry = b :=
        fun b => get_settled_set mem distinct (List.mem_singleton.mpr rfl) (marked _ (List.mem_singleton.mpr rfl))
      simp [Condition.holds, Condition.target, spoils, read]
  | negative =>
      obtain ⟨s, rfl⟩ := alone_of_map_fst listed
      have read := get_settled_set (b := wanted) mem distinct (List.mem_singleton.mpr rfl)
        (marked _ (List.mem_singleton.mpr rfl))
      exact read.trans (Bool.bne_false wanted).symm
  | overflow =>
      obtain ⟨o, rfl⟩ := alone_of_map_fst listed
      have read := get_settled_set (b := wanted) mem distinct (List.mem_singleton.mpr rfl)
        (marked _ (List.mem_singleton.mpr rfl))
      exact read.trans (Bool.bne_false wanted).symm
  | higher | lowerOrSame =>
      obtain ⟨k, z, rfl⟩ := pair_of_map_fst listed
      have last : (Flag.zero, z) ∈ [(Flag.carry, k), (Flag.zero, z)] := by simp
      have zeroed : (settled order mem _ ((present order mem _).set .zero true)).zero = true :=
        get_settled_set mem distinct last (marked _ last)
      have cleared := settled_cleared mem (marked _ (List.mem_cons_self ..)) (marked _ last)
      cases wanted <;>
        simp [Condition.holds, Condition.target, spoils, cleared, zeroed, Flags.clear]
  | less =>
      obtain ⟨s, o, rfl⟩ := pair_of_map_fst listed
      refine (holds_less_settled (marked (.overflow, o) (by simp)) differs).trans ?_
      cases wanted <;> rfl
  | greaterOrEqual =>
      obtain ⟨s, o, rfl⟩ := pair_of_map_fst listed
      rw [Condition.holds_greaterOrEqual] at differs ⊢
      have met : Condition.less.holds (present order mem [(.sign, s), (.overflow, o)]) ≠ !wanted :=
        fun less => differs ((congrArg not less).trans (Bool.not_not _))
      refine (congrArg not (holds_less_settled (marked (.overflow, o) (by simp)) met)).trans ?_
      cases wanted <;> cases turned : turnsAlong order mem s o <;> simp [spoils, turned]
  | greater =>
      obtain ⟨s, o, z, rfl⟩ := triple_of_map_fst listed
      have last : (Flag.zero, z) ∈ [(Flag.sign, s), (Flag.overflow, o), (Flag.zero, z)] := by simp
      have markedZ := marked _ last
      have zeroed : (settled order mem _ ((present order mem _).set .zero true)).zero = true :=
        get_settled_set mem distinct last markedZ
      cases wanted with
      | false => exact Condition.holds_greater_of_zero zeroed
      | true =>
          have unmet : showGreater order mem s o z = false := Bool.eq_false_iff.mpr differs
          have after := holds_greater_settled (marked (.overflow, o) (by simp)) markedZ unmet
          exact after.trans (Bool.true_bne _).symm
  | lessOrEqual =>
      obtain ⟨s, o, z, rfl⟩ := triple_of_map_fst listed
      have last : (Flag.zero, z) ∈ [(Flag.sign, s), (Flag.overflow, o), (Flag.zero, z)] := by simp
      have markedZ := marked _ last
      have zeroed : (settled order mem _ ((present order mem _).set .zero true)).zero = true :=
        get_settled_set mem distinct last markedZ
      rw [Condition.holds_lessOrEqual] at differs ⊢
      cases wanted with
      | false =>
          have unmet : showGreater order mem s o z = false :=
            Bool.eq_false_iff.mpr fun met => differs (congrArg not met)
          have after := holds_greater_settled (marked (.overflow, o) (by simp)) markedZ unmet
          exact (congrArg not after).trans ((Bool.not_not _).trans (Bool.false_bne _).symm)
      | true => exact congrArg not (Condition.holds_greater_of_zero zeroed)

theorem spoilsGreater_of_greater (met : showGreater order mem s o z = true) :
    spoilsGreater order mem s o z = false := by
  obtain ⟨same, clear⟩ := Bool.and_eq_true_iff.mp met
  have dark : lit order mem z = false := by simpa using clear
  rw [spoilsGreater, if_pos same, dark, Bool.false_and]

theorem spoils_of_holds {c : Condition} {wanted : Bool} {inputs : List (Flag × FlagPlace)}
    (listed : inputs.map Prod.fst = c.inputs) (already : c.holds (present order mem inputs) = wanted) :
    spoils order mem c wanted inputs = false := by
  cases c with
  | equal | notEqual | carry | negative | overflow | higherOrSame | lower =>
      obtain ⟨p, rfl⟩ := alone_of_map_fst listed
      rfl
  | higher | lowerOrSame =>
      obtain ⟨k, z, rfl⟩ := pair_of_map_fst listed
      rfl
  | greaterOrEqual =>
      obtain ⟨s, o, rfl⟩ := pair_of_map_fst listed
      cases wanted with
      | true => rfl
      | false => exact turnsAlong_of_differ (Bool.eq_not.mpr (beq_eq_false_iff_ne.mp already))
  | less =>
      obtain ⟨s, o, rfl⟩ := pair_of_map_fst listed
      cases wanted with
      | false => rfl
      | true => exact turnsAlong_of_differ (Bool.eq_not.mpr (bne_iff_ne.mp already))
  | greater =>
      obtain ⟨s, o, z, rfl⟩ := triple_of_map_fst listed
      cases wanted with
      | false => rfl
      | true => exact spoilsGreater_of_greater already
  | lessOrEqual =>
      obtain ⟨s, o, z, rfl⟩ := triple_of_map_fst listed
      rw [Condition.holds_lessOrEqual] at already
      cases wanted with
      | true => rfl
      | false => exact spoilsGreater_of_greater (Bool.not_inj already)

/-! ## Storage kept apart -/

/-- Flags at the two places have no bit in common. -/
def Apart (order : ByteOrder) (p q : FlagPlace) : Prop := (p.storage order).Disjoint (q.storage order)

theorem Apart.symm (apart : Apart order p q) : Apart order q p :=
  fun _ inQ inP => apart inP inQ

theorem litBeside_of_apart (apart : Apart order p q) : litBeside order mem p q = lit order mem p :=
  litBeside_of_unshared fun _ stored shared => (apart stored shared).elim

theorem marks_of_apart (marked : marks order p p = true) (apart : Apart order p q) :
    marks order p q = false :=
  Bool.eq_false_iff.mpr fun shared => apart (marks_iff.mp marked) (marks_iff.mp shared)

theorem turnsAlong_of_apart {f g : Flag} (marked : ∀ i ∈ [(f, s), (g, o)], marks order i.2 i.2 = true)
    (apart : [(f, s), (g, o)].Pairwise fun i j => Apart order i.2 j.2) : turnsAlong order mem s o = false := by
  have markedO := marked (g, o) (by simp)
  have apartSO : Apart order s o := by simpa using apart
  rw [turnsAlong, litBeside_of_apart apartSO, marks_of_apart markedO apartSO.symm]
  cases lit order mem s <;> simp

theorem spoilsGreater_of_apart {f g h : Flag}
    (marked : ∀ i ∈ [(f, s), (g, o), (h, z)], marks order i.2 i.2 = true)
    (apart : [(f, s), (g, o), (h, z)].Pairwise fun i j => Apart order i.2 j.2) :
    spoilsGreater order mem s o z = false := by
  have markedO := marked (g, o) (by simp)
  obtain ⟨⟨apartSO, apartSZ⟩, apartOZ⟩ :
      (Apart order s o ∧ Apart order s z) ∧ Apart order o z := by simpa using apart
  rw [spoilsGreater, litBeside_of_apart apartSZ, litBeside_of_apart apartOZ, marks_of_apart markedO apartSO.symm,
    marks_of_apart markedO apartOZ]
  cases lit order mem s <;> cases lit order mem o <;> simp

theorem spoils_of_apart {c : Condition} {wanted : Bool} {inputs : List (Flag × FlagPlace)}
    (marked : ∀ i ∈ inputs, marks order i.2 i.2 = true)
    (apart : inputs.Pairwise fun i j => Apart order i.2 j.2) : spoils order mem c wanted inputs = false := by
  unfold spoils
  split
  · exact turnsAlong_of_apart marked apart
  · exact turnsAlong_of_apart marked apart
  · exact spoilsGreater_of_apart marked apart
  · exact spoilsGreater_of_apart marked apart
  · rfl

end Spoiling
end FlagPlace

namespace Machine
open FlagPlace
variable {m : Machine}

/-! ## The flags of a condition -/

theorem locateAll_cons {f : Flag} {rest : List Flag} {inputs : List (Flag × FlagPlace)}
    (found : m.locateAll (f :: rest) = some inputs) :
    ∃ p tail, m.locate f = some p ∧ m.locateAll rest = some tail ∧ inputs = (f, p) :: tail := by
  rw [locateAll] at found
  split at found
  · cases found
  · rename_i p here
    obtain ⟨tail, later, rfl⟩ := Option.map_eq_some_iff.mp found
    exact ⟨p, tail, here, later, rfl⟩

theorem map_fst_of_locateAll {fs : List Flag} {inputs : List (Flag × FlagPlace)}
    (found : m.locateAll fs = some inputs) : inputs.map Prod.fst = fs := by
  induction fs generalizing inputs with
  | nil =>
      cases found
      rfl
  | cons f rest ih =>
      obtain ⟨p, tail, -, later, rfl⟩ := locateAll_cons found
      rw [List.map_cons, ih later]

theorem offers_of_locateAll {fs : List Flag} {inputs : List (Flag × FlagPlace)}
    (found : m.locateAll fs = some inputs) : ∀ i ∈ inputs, m.Offers i.2 := by
  induction fs generalizing inputs with
  | nil =>
      cases found
      intro i member
      cases member
  | cons f rest ih =>
      obtain ⟨p, tail, here, later, rfl⟩ := locateAll_cons found
      intro i member
      rcases List.mem_cons.mp member with rfl | inTail
      · exact offers_of_locate here
      · exact ih later i inTail

theorem Rewritten.locateAll_eq {after : Machine} (only : Rewritten m after) (fs : List Flag) :
    after.locateAll fs = m.locateAll fs := by
  induction fs with
  | nil => rfl
  | cons f rest ih => rw [locateAll, locateAll, only.locate_eq, ih]

theorem readFlags_of_offers (sound : m.Sound) {inputs : List (Flag × FlagPlace)}
    (offered : ∀ i ∈ inputs, m.Offers i.2) (fs : Flags) :
    m.readFlags inputs fs = .ok (flagsIn m.config.byteOrder m.bit inputs fs) := by
  induction inputs generalizing fs with
  | nil => rfl
  | cons i rest ih =>
      obtain ⟨f, p⟩ := i
      rw [readFlags, readFlag_of_offers sound (offered _ (List.mem_cons_self ..))]
      exact ih (fun i member => offered i (List.mem_cons_of_mem _ member)) _

theorem evaluate_of_located (sound : m.Sound) {c : Condition} {inputs : List (Flag × FlagPlace)}
    (located : m.locateAll c.inputs = some inputs) :
    m.evaluate c = .ok (c.holds (present m.config.byteOrder m.bit inputs)) := by
  rw [evaluate, located]
  simp only [readFlags_of_offers sound (offers_of_locateAll located)]
  rfl

/-! ## Forcing -/

section WriteFlags
variable {writes : List (FlagPlace × Bool)}

theorem writeFlags_of_guarded {w : FlagPlace × Bool}
    (guarded : (writes.find? fun w => m.isReadOnly w.1.register.name) = some w) :
    m.writeFlags writes = .refused (.readOnly w.1.register.name) m := by
  rw [writeFlags, guarded]

theorem writeFlags_of_writable (sound : m.Sound) (offered : ∀ w ∈ writes, m.Offers w.1)
    (writable : ∀ w ∈ writes, m.isReadOnly w.1.register.name = false) :
    ∃ after, m.writeFlags writes = .done () after ∧ Rewritten m after ∧
      after.bit = putAll m.config.byteOrder m.bit writes := by
  have unguarded : (writes.find? fun w => m.isReadOnly w.1.register.name) = none :=
    List.find?_eq_none.mpr fun w member => Bool.eq_false_iff.mp (writable w member)
  obtain ⟨after, done, bits⟩ := writeFlagsInOrder_of_offers sound offered writable
  have whole : m.writeFlags writes = .done () after := by
    rw [writeFlags, unguarded]
    exact done
  have only := writeFlags_rewritten m writes
  rw [whole] at only
  exact ⟨after, whole, only, bits⟩

/-- Flags are written one and all, or a guarded register among theirs keeps all of them as they are. -/
theorem writeFlags_cases (sound : m.Sound) (offered : ∀ w ∈ writes, m.Offers w.1) :
    (∃ name, m.writeFlags writes = .refused (.readOnly name) m) ∨
      ∃ after, m.writeFlags writes = .done () after ∧
        after.bit = putAll m.config.byteOrder m.bit writes := by
  cases guarded : writes.find? fun w => m.isReadOnly w.1.register.name with
  | some w => exact .inl ⟨_, writeFlags_of_guarded guarded⟩
  | none =>
      have writable : ∀ w ∈ writes, m.isReadOnly w.1.register.name = false :=
        fun w member => Bool.eq_false_iff.mpr (List.find?_eq_none.mp guarded w member)
      obtain ⟨after, done, -, bits⟩ := writeFlags_of_writable sound offered writable
      exact .inr ⟨after, done, bits⟩

theorem writeFlags_of_accepted (sound : m.Sound) (offered : ∀ w ∈ writes, m.Offers w.1)
    (accepted : (m.writeFlags writes).answer = .ok ()) :
    (m.writeFlags writes).machine.bit = putAll m.config.byteOrder m.bit writes := by
  rcases writeFlags_cases sound offered with ⟨name, guarded⟩ | ⟨after, done, bits⟩
  · rw [guarded] at accepted
    cases accepted
  · rw [done]
    exact bits

end WriteFlags

theorem locateAll_of_accepted {c : Condition} {wanted : Bool}
    (accepted : (m.force c wanted).answer = .ok ()) : ∃ inputs, m.locateAll c.inputs = some inputs := by
  cases located : m.locateAll c.inputs with
  | some inputs => exact ⟨inputs, rfl⟩
  | none =>
      rw [force, located] at accepted
      cases accepted

theorem force_of_holds (sound : m.Sound) {c : Condition} {wanted : Bool}
    {inputs : List (Flag × FlagPlace)} (located : m.locateAll c.inputs = some inputs)
    (already : c.holds (present m.config.byteOrder m.bit inputs) = wanted) :
    m.force c wanted = .done () m := by
  rw [force, located]
  simp only [readFlags_of_offers sound (offers_of_locateAll located)]
  exact if_pos already

theorem force_of_differs (sound : m.Sound) {c : Condition} {wanted : Bool}
    {inputs : List (Flag × FlagPlace)} (located : m.locateAll c.inputs = some inputs)
    (differs : c.holds (present m.config.byteOrder m.bit inputs) ≠ wanted) :
    m.force c wanted = m.writeFlags (flagWrites inputs (present m.config.byteOrder m.bit inputs)
      (c.target wanted (present m.config.byteOrder m.bit inputs))) := by
  rw [force, located]
  simp only [readFlags_of_offers sound (offers_of_locateAll located)]
  refine (if_neg differs).trans ?_
  rw [← present, Condition.cheapestChange?_eq differs]

theorem offers_of_flagWrites {inputs : List (Flag × FlagPlace)} (offered : ∀ i ∈ inputs, m.Offers i.2)
    (now best : Flags) : ∀ w ∈ flagWrites inputs now best, m.Offers w.1 := by
  intro w member
  obtain ⟨i, chosen, rfl⟩ := List.mem_map.mp member
  exact offered i (List.mem_filter.mp chosen).1

/-- The storage of the flags keeps the condition from coming out as wanted. -/
def spoils (m : Machine) (c : Condition) (wanted : Bool) : Bool :=
  (m.locateAll c.inputs).any (FlagPlace.spoils m.config.byteOrder m.bit c wanted)

def KeepsApart (m : Machine) (c : Condition) : Prop :=
  ∀ inputs, m.locateAll c.inputs = some inputs →
    inputs.Pairwise fun i j => Apart m.config.byteOrder i.2 j.2

/-- A condition that has been forced can be evaluated, and it comes out as wanted if and only if
the storage does not spoil it; no storage does that keeps the flags apart. -/
theorem evaluate_forced {c : Condition} {wanted : Bool} (reached : m.Reachable)
    (accepted : (m.force c wanted).answer = .ok ()) :
    (∃ got, (m.force c wanted).machine.evaluate c = .ok got ∧ (got = wanted ↔ m.spoils c wanted = false)) ∧
      (m.KeepsApart c → m.spoils c wanted = false) := by
  have sound := reached.sound
  obtain ⟨inputs, located⟩ := locateAll_of_accepted accepted
  have listed := map_fst_of_locateAll located
  have offered := offers_of_locateAll located
  have marked : ∀ i ∈ inputs, marks m.config.byteOrder i.2 i.2 = true :=
    fun i member => marks_self_of_offers sound (offered i member) _
  have told : m.spoils c wanted = FlagPlace.spoils m.config.byteOrder m.bit c wanted inputs := by
    rw [spoils, located, Option.any_some]
  rw [told]
  refine ⟨?_, fun apart => spoils_of_apart marked (apart inputs located)⟩
  by_cases already : c.holds (present m.config.byteOrder m.bit inputs) = wanted
  -- If the condition is already as wanted nothing is written, whatever the flags share.
  · rw [force_of_holds sound located already, spoils_of_holds listed already]
    exact ⟨wanted, (evaluate_of_located sound located).trans (congrArg Except.ok already), by simp⟩
  · have only := force_rewritten m c wanted
    have locatedAfter := (only.locateAll_eq c.inputs).trans located
    refine ⟨_, evaluate_of_located (sound.rewritten only) locatedAfter, ?_⟩
    rw [force_of_differs sound located already] at accepted only ⊢
    rw [only.config_eq, writeFlags_of_accepted sound (offers_of_flagWrites offered _ _) accepted]
    have after := holds_settled listed marked already
    rw [settled] at after
    rw [after]
    cases wanted <;> simp

/-- Sign is set, and setting overflow, which lies in the zero flag, makes them equal and that one set. -/
theorem not_forced_of_shared_bit :
    ∃ m : Machine, m.Reachable ∧ (m.force .greater true).answer = .ok () ∧
      (m.force .greater true).machine.evaluate .greater = .ok false ∧ m.spoils .greater true = true :=
  ⟨(empty {}).run [.install "gpr sf .1 .0 0\ngpr zf .2 .1 0\ngpr of .1 .1 0",
      .writeNamed "sf" 1],
    ⟨_, _, rfl⟩, by decide +kernel, by decide +kernel, by decide +kernel⟩

/-- The same registers with the zero flag set instead, which can be cleared alone. -/
theorem evaluate_forced_shared :
    ∃ m : Machine, m.Reachable ∧ m.evaluate .greater = .ok false ∧
      (m.force .greater true).answer = .ok () ∧ m.spoils .greater true = false ∧
      (m.force .greater true).machine.evaluate .greater = .ok true := by
  have reached : Reachable ((empty {}).run
      [.install "gpr sf .1 .0 0\ngpr zf .2 .1 0\ngpr of .1 .1 0",
        .writeNamed "zf" 2]) := ⟨_, _, rfl⟩
  obtain ⟨⟨got, evaluated, delivered⟩, -⟩ :=
    evaluate_forced reached (show (force _ .greater true).answer = .ok () by decide +kernel)
  obtain rfl : got = true := delivered.mpr (by decide +kernel)
  exact ⟨_, reached, by decide +kernel, by decide +kernel, by decide +kernel, evaluated⟩

end Machine
end MachineRegisters
