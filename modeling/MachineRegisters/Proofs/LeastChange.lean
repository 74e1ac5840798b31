import MachineRegisters.Proofs.Forcing
import Mathlib.Data.List.Pairwise
import Mathlib.Data.List.Lex

/-! # The least change that forces a condition

Of all settings of its inputs that make a condition come out as wanted exactly one
costs least (`cheapest_target`, `Cheapest.unique`).  If the inputs are stored in
different bits, forcing brings about just that setting: each input is read afterwards
as chosen, and no bit changes but those of the flags that change (`forced_writeFlags`).
If one of these lies in a register that must not be written, nothing happens at all. -/
set_option autoImplicit false
namespace MachineRegisters

/-! ## The cheapest setting -/

theorem cheapest?_eq_some {α : Type} {cost : α → List Nat} {as : List α} {best : α}
    (found : cheapest? cost as = some best) : best ∈ as ∧ ∀ a ∈ as, cost best ≤ cost a := by
  induction as generalizing best with
  | nil => cases found
  | cons a rest ih =>
      rw [cheapest?] at found
      cases later : cheapest? cost rest with
      | none =>
          have alone : rest = [] := by
            cases rest with
            | nil => rfl
            | cons b more =>
                rw [cheapest?] at later
                split at later
                · cases later
                · split at later <;> cases later
          rw [later] at found
          cases found
          simp [alone]
      | some b =>
          obtain ⟨listed, least⟩ := ih later
          simp only [later] at found
          split at found
          · rename_i cheaper
            cases found
            refine ⟨List.mem_cons_of_mem _ listed, ?_⟩
            intro c member
            rcases List.mem_cons.mp member with rfl | inRest
            · exact le_of_lt cheaper
            · exact least c inRest
          · rename_i dearer
            cases found
            refine ⟨List.mem_cons_self .., ?_⟩
            intro c member
            rcases List.mem_cons.mp member with rfl | inRest
            · exact le_refl _
            · exact le_trans (not_lt.mp dearer) (least c inRest)

namespace Flags

theorem mem_variations {fs gs : Flags} {among : List Flag} :
    gs ∈ fs.variations among ↔ ∀ f, f ∉ among → gs.get f = fs.get f := by
  induction among generalizing fs with
  | nil =>
      rw [variations, List.mem_singleton]
      constructor
      · rintro rfl f -
        rfl
      · intro same
        exact ext_get fun f => same f List.not_mem_nil
  | cons f rest ih =>
      rw [variations, List.mem_append, ih, ih]
      constructor
      · rintro (kept | turned) g apart
        · exact kept g (fun inRest => apart (List.mem_cons_of_mem _ inRest))
        · rw [List.mem_cons, not_or] at apart
          rw [turned g apart.2, get_set, if_neg (Ne.symm apart.1)]
      · intro same
        -- The first flag is as it was or the other way.
        by_cases kept : gs.get f = fs.get f
        · refine .inl fun g notInRest => ?_
          by_cases here : g = f
          · rw [here, kept]
          · exact same g (by simp [here, notInRest])
        · refine .inr fun g notInRest => ?_
          rw [get_set]
          split
          · rename_i here
            rw [← here]
            exact Bool.eq_not.mpr kept
          · rename_i other
            exact same g (by simp [Ne.symm other, notInRest])

/-- One if the settings differ on the flag, and zero if they agree on it. -/
def differsOn (before after : Flags) (f : Flag) : Nat := if before.get f = after.get f then 0 else 1

theorem length_changed_cons (f : Flag) (rest : List Flag) (before after : Flags) :
    (changed (f :: rest) before after).length = before.differsOn after f + (changed rest before after).length := by
  rw [changed, List.filter_cons, differsOn]
  by_cases same : before.get f = after.get f
  · simp [same, changed]
  · simp [same, changed, Nat.add_comm]

/-- The five counts that make up a cost: all flags, sign and overflow together, carry, zero, sign. -/
theorem changeCost_eq (before after : Flags) : before.changeCost after =
    [(changed Flag.all before after).length, before.differsOn after .sign + before.differsOn after .overflow,
      before.differsOn after .carry, before.differsOn after .zero, before.differsOn after .sign] := by
  have nothing : (changed [] before after).length = 0 := rfl
  simp only [changeCost, length_changed_cons, nothing, Nat.add_zero]

/-- Fewer changes cost less; among as many, fewer of sign and overflow do, then leaving carry alone,
then zero, then sign. -/
theorem changeCost_lt_iff {now a b : Flags} : now.changeCost a < now.changeCost b ↔
    (changed Flag.all now a).length < (changed Flag.all now b).length ∨
      (changed Flag.all now a).length = (changed Flag.all now b).length ∧
        (now.differsOn a .sign + now.differsOn a .overflow < now.differsOn b .sign + now.differsOn b .overflow ∨
          now.differsOn a .sign + now.differsOn a .overflow = now.differsOn b .sign + now.differsOn b .overflow ∧
            (now.differsOn a .carry < now.differsOn b .carry ∨
              now.differsOn a .carry = now.differsOn b .carry ∧
                (now.differsOn a .zero < now.differsOn b .zero ∨
                  now.differsOn a .zero = now.differsOn b .zero ∧
                    now.differsOn a .sign < now.differsOn b .sign))) := by
  simp only [changeCost_eq, List.cons_lt_cons_iff, List.not_lt_nil, and_false, or_false]

/-- Two changes of the same cost, neither of which concerns adjust or parity, are the same. -/
theorem eq_of_changeCost_eq {now a b : Flags} (same : now.changeCost a = now.changeCost b)
    (adjust : a.get .adjust = b.get .adjust) (parity : a.get .parity = b.get .parity) : a = b := by
  simp only [changeCost_eq, List.cons.injEq, and_true] at same
  obtain ⟨-, either, carry, zero, sign⟩ := same
  -- Each entry tells whether one flag changes; for overflow it is a difference of two entries.
  have agree : ∀ f, now.differsOn a f = now.differsOn b f → a.get f = b.get f := by
    intro f
    unfold differsOn
    cases now.get f <;> cases a.get f <;> cases b.get f <;> simp
  apply ext_get
  intro f
  cases f with
  | sign => exact agree _ (by omega)
  | zero => exact agree _ (by omega)
  | adjust => exact adjust
  | carry => exact agree _ (by omega)
  | overflow => exact agree _ (by omega)
  | parity => exact parity

end Flags

namespace Condition

/-- Among the settings that leave alone what the condition does not read and make it come out as
wanted, this one costs least. -/
structure Cheapest (c : Condition) (wanted : Bool) (now best : Flags) : Prop where
  frame : ∀ f, f ∉ c.inputs → best.get f = now.get f
  holds : c.holds best = wanted
  least : ∀ other : Flags, (∀ f, f ∉ c.inputs → other.get f = now.get f) → c.holds other = wanted →
    now.changeCost best ≤ now.changeCost other

theorem cheapest_target {c : Condition} {wanted : Bool} {now : Flags} (differs : c.holds now ≠ wanted) :
    c.Cheapest wanted now (c.target wanted now) := by
  obtain ⟨listed, least⟩ := cheapest?_eq_some (cheapestChange?_eq differs)
  obtain ⟨variation, met⟩ := List.mem_filter.mp listed
  refine ⟨Flags.mem_variations.mp variation, by simpa using met, ?_⟩
  intro other frame holds
  exact least other (List.mem_filter.mpr ⟨Flags.mem_variations.mpr frame, by simpa using holds⟩)

theorem Cheapest.unique {c : Condition} {wanted : Bool} {now a b : Flags} (first : c.Cheapest wanted now a)
    (second : c.Cheapest wanted now b) : a = b := by
  -- The cost does not tell these two apart, but no condition reads them.
  have unread : .adjust ∉ c.inputs ∧ .parity ∉ c.inputs := by cases c <;> decide
  apply Flags.eq_of_changeCost_eq
  · exact le_antisymm (first.least b second.frame second.holds) (second.least a first.frame first.holds)
  · rw [first.frame _ unread.1, second.frame _ unread.1]
  · rw [first.frame _ unread.2, second.frame _ unread.2]

end Condition

/-! ## Writes to storage that is kept apart -/

namespace FlagPlace
variable {order : ByteOrder} {mem other : BitPlace → Bool} {p : FlagPlace} {b : Bool}
  {writes : List (FlagPlace × Bool)} {inputs : List (Flag × FlagPlace)} {now best : Flags}

theorem lit_congr (same : ∀ x ∈ p.storage order, mem x = other x) : lit order mem p = lit order other p := by
  rw [Bool.eq_iff_iff, lit_iff, lit_iff]
  constructor
  · rintro ⟨x, stored, set⟩
    exact ⟨x, stored, (same x stored).symm.trans set⟩
  · rintro ⟨x, stored, set⟩
    exact ⟨x, stored, (same x stored).trans set⟩

theorem putAll_of_notMem {x : BitPlace} (apart : ∀ w ∈ writes, x ∉ w.1.storage order) :
    putAll order mem writes x = mem x := by
  induction writes generalizing mem with
  | nil => rfl
  | cons w rest ih =>
      rw [putAll, ih fun v member => apart v (List.mem_cons_of_mem _ member)]
      exact put_of_notMem (apart w (List.mem_cons_self ..))

theorem lit_putAll_of_apart (apart : ∀ w ∈ writes, Apart order p w.1) :
    lit order (putAll order mem writes) p = lit order mem p :=
  lit_congr fun _ stored => putAll_of_notMem fun w member shared => apart w member stored shared

/-- Of writes to places that are kept apart none undoes another. -/
theorem lit_putAll_of_mem (marked : marks order p p = true)
    (apart : writes.Pairwise fun v w => Apart order v.1 w.1) (member : (p, b) ∈ writes) :
    lit order (putAll order mem writes) p = b := by
  induction writes generalizing mem with
  | nil => cases member
  | cons w rest ih =>
      obtain ⟨apartFirst, apartRest⟩ := List.pairwise_cons.mp apart
      rw [putAll]
      rcases List.mem_cons.mp member with rfl | inRest
      · rw [lit_putAll_of_apart apartFirst, lit_put_self marked]
      · exact ih apartRest inRest

theorem mem_flagWrites {w : FlagPlace × Bool} :
    w ∈ Machine.flagWrites inputs now best ↔
      ∃ i ∈ inputs, now.get i.1 ≠ best.get i.1 ∧ (i.2, best.get i.1) = w := by
  simp [Machine.flagWrites, and_assoc]

theorem pairwise_flagWrites (apart : inputs.Pairwise fun i j => Apart order i.2 j.2) :
    (Machine.flagWrites inputs now best).Pairwise fun v w => Apart order v.1 w.1 :=
  List.pairwise_map.mpr (apart.filter _)

theorem present_putAll (marked : ∀ i ∈ inputs, marks order i.2 i.2 = true)
    (distinct : (inputs.map Prod.fst).Nodup) (apart : inputs.Pairwise fun i j => Apart order i.2 j.2)
    (frame : ∀ f, f ∉ inputs.map Prod.fst → best.get f = (present order mem inputs).get f) :
    present order (putAll order mem (Machine.flagWrites inputs (present order mem inputs) best)) inputs =
      best := by
  apply Flags.ext_get
  intro f
  by_cases read : f ∈ inputs.map Prod.fst
  · obtain ⟨⟨g, p⟩, listed, rfl⟩ := List.mem_map.mp read
    rw [get_present distinct listed]
    by_cases same : (present order mem inputs).get g = best.get g
    · rw [← same, get_present distinct listed]
      -- This flag stays, so every flag that is written is another one.
      apply lit_putAll_of_apart
      intro w member
      obtain ⟨i, inInputs, changes, rfl⟩ := mem_flagWrites.mp member
      have : Std.Symm fun i j : Flag × FlagPlace => Apart order i.2 j.2 := ⟨fun _ _ => Apart.symm⟩
      apply apart.forall listed inInputs
      rintro rfl
      exact changes same
    · exact lit_putAll_of_mem (marked _ listed) (pairwise_flagWrites apart)
        (mem_flagWrites.mpr ⟨_, listed, same, rfl⟩)
  · rw [frame f read, present, present, get_flagsIn_of_notMem read, get_flagsIn_of_notMem read]

end FlagPlace

/-! ## What forcing does -/

namespace Machine
open FlagPlace
variable {m : Machine}

/-- The outcome of changing the flags at their places from one setting to another: none of them is
changed if one must not be, and else they all are and nothing besides. -/
structure Forced (m : Machine) (inputs : List (Flag × FlagPlace)) (now best : Flags) (o : Outcome Unit) :
    Prop where
  guarded : (∃ i ∈ inputs, now.get i.1 ≠ best.get i.1 ∧ m.isReadOnly i.2.register.name = true) →
    ∃ i ∈ inputs, now.get i.1 ≠ best.get i.1 ∧ m.isReadOnly i.2.register.name = true ∧
      o = .refused (.readOnly i.2.register.name) m
  writable : (∀ i ∈ inputs, now.get i.1 ≠ best.get i.1 → m.isReadOnly i.2.register.name = false) →
    o.answer = .ok () ∧ Rewritten m o.machine ∧ o.machine.readFlags inputs .clear = .ok best ∧
      ∀ x, (∀ i ∈ inputs, now.get i.1 ≠ best.get i.1 → x ∉ i.2.storage m.config.byteOrder) →
        o.machine.bit x = m.bit x

theorem forced_writeFlags (sound : m.Sound) {inputs : List (Flag × FlagPlace)} {now best : Flags}
    (offered : ∀ i ∈ inputs, m.Offers i.2) (distinct : (inputs.map Prod.fst).Nodup)
    (apart : inputs.Pairwise fun i j => Apart m.config.byteOrder i.2 j.2)
    (told : now = present m.config.byteOrder m.bit inputs)
    (frame : ∀ f, f ∉ inputs.map Prod.fst → best.get f = now.get f) :
    Forced m inputs now best (m.writeFlags (flagWrites inputs now best)) := by
  refine ⟨?_, ?_⟩
  · rintro ⟨i, listed, changes, readOnly⟩
    cases guarded : (flagWrites inputs now best).find? fun w => m.isReadOnly w.1.register.name with
    | none =>
        have written := mem_flagWrites.mpr ⟨i, listed, changes, rfl⟩
        exact absurd readOnly (List.find?_eq_none.mp guarded _ written)
    | some w =>
        have readOnlyW := List.find?_some guarded
        obtain ⟨j, listedJ, changesJ, rfl⟩ := mem_flagWrites.mp (List.mem_of_find?_eq_some guarded)
        exact ⟨j, listedJ, changesJ, readOnlyW, writeFlags_of_guarded guarded⟩
  · intro free
    have writable : ∀ w ∈ flagWrites inputs now best, m.isReadOnly w.1.register.name = false := by
      intro w member
      obtain ⟨i, listed, changes, rfl⟩ := mem_flagWrites.mp member
      exact free i listed changes
    obtain ⟨after, done, only, bits⟩ :=
      writeFlags_of_writable sound (offers_of_flagWrites offered now best) writable
    rw [done]
    refine ⟨rfl, only, ?_, ?_⟩
    · have marked : ∀ i ∈ inputs, marks m.config.byteOrder i.2 i.2 = true :=
        fun i member => marks_self_of_offers sound (offered i member) _
      have offeredAfter : ∀ i ∈ inputs, after.Offers i.2 := fun i member => only.offers (offered i member)
      rw [Outcome.machine_done, readFlags_of_offers (sound.rewritten only) offeredAfter, only.config_eq, bits,
        told]
      exact congrArg Except.ok (present_putAll marked distinct apart (told ▸ frame))
    · intro x elsewhere
      rw [Outcome.machine_done, bits]
      apply putAll_of_notMem
      intro w member
      obtain ⟨i, listed, changes, rfl⟩ := mem_flagWrites.mp member
      exact elsewhere i listed changes

/-- Forcing is refused if an input is kept nowhere.  Else, with inputs in different bits, it does
nothing where nothing needs to be done, and otherwise makes the one change that costs least. -/
theorem force_cheapest (reached : m.Reachable) (c : Condition) (wanted : Bool) :
    (m.locateAll c.inputs = none → m.force c wanted = .refused (.conditionUnresolved c) m) ∧
      ∀ inputs, m.locateAll c.inputs = some inputs → m.KeepsApart c →
        ∃ now, m.readFlags inputs .clear = .ok now ∧
          (c.holds now = wanted → m.force c wanted = .done () m) ∧
          (c.holds now ≠ wanted → ∃ best, c.Cheapest wanted now best ∧
            (∀ other, c.Cheapest wanted now other → other = best) ∧
            Forced m inputs now best (m.force c wanted) ∧
            (m.force c wanted).machine.locateAll c.inputs = some inputs) := by
  have sound := reached.sound
  refine ⟨?_, ?_⟩
  · intro missing
    rw [force, missing]
  · intro inputs located keepsApart
    have offered := offers_of_locateAll located
    have listed := map_fst_of_locateAll located
    refine ⟨_, readFlags_of_offers sound offered .clear, force_of_holds sound located, ?_⟩
    intro differs
    have least := Condition.cheapest_target differs
    refine ⟨_, least, fun other also => also.unique least, ?_, ?_⟩
    · rw [force_of_differs sound located differs]
      exact forced_writeFlags sound offered (listed ▸ c.nodup_inputs) (keepsApart inputs located) rfl
        (listed ▸ least.frame)
    · rw [(force_rewritten m c wanted).locateAll_eq, located]

/-- High bytes first: the zero flag lies in the middle of the status word, the read-only sign flag need
not change, and overflow, the lowest bit of that word, does. -/
theorem force_cheapest_highFirst :
    ∃ (m : Machine) (s o z : FlagPlace), m.Reachable ∧ m.config.byteOrder = .highFirst ∧
      m.isReadOnly s.register.name = true ∧
      m.locateAll Condition.greater.inputs = some [(.sign, s), (.overflow, o), (.zero, z)] ∧
      (m.force .greater true).answer = .ok () ∧
      (m.force .greater true).machine.readFlags [(.sign, s), (.overflow, o), (.zero, z)] .clear =
        .ok ⟨true, false, false, false, true, false⟩ ∧
      ∀ x, x ∉ [(RegClass.general, 24), (.general, 8), (.general, 9), (.general, 10), (.general, 11)] →
        (m.force .greater true).machine.bit x = m.bit x := by
  let s : FlagPlace := .whole ⟨⟨16, 8⟩, "s", .general, .general, 0, none, none, 2⟩
  let o : FlagPlace := .statusBit ⟨⟨0, 32⟩, "st", .general, .general, 0, some "o", none, 0⟩ 0
  let z : FlagPlace := .whole ⟨⟨8, 4⟩, "z", .general, .general, 0, none, none, 1⟩
  let inputs : List (Flag × FlagPlace) := [(.sign, s), (.overflow, o), (.zero, z)]
  let before : Flags := ⟨true, true, false, false, false, false⟩
  let chosen : Flags := ⟨true, false, false, false, true, false⟩
  obtain ⟨m, reached, order, located, read, guarded, free⟩ : ∃ m : Machine, m.Reachable ∧
      m.config.byteOrder = .highFirst ∧ m.locateAll Condition.greater.inputs = some inputs ∧
      m.readFlags inputs .clear = .ok before ∧ m.isReadOnly "s" = true ∧
      ∀ i ∈ inputs, before.get i.1 ≠ chosen.get i.1 → m.isReadOnly i.2.register.name = false :=
    ⟨(empty ⟨64, .highFirst, false⟩).run
        [.install "=SR st\n=ZF z\n=SF s\ngpr st .32 0 0 o\ngpr z .4 .8 0\ngpr s .8 2 0",
          .writeNamed "st" 0x81060102, .setReadOnly "s" true],
      ⟨_, _, rfl⟩, by decide +kernel, by decide +kernel, by decide +kernel, by decide +kernel, by decide +kernel⟩
  have keepsApart : m.KeepsApart .greater := by
    intro others found
    cases located.symm.trans found
    rw [order]
    simp only [Apart, List.Disjoint]
    decide
  obtain ⟨now, readNow, -, forced⟩ := (force_cheapest reached .greater true).2 inputs located keepsApart
  obtain rfl : now = before := Except.ok.inj (readNow.symm.trans read)
  obtain ⟨best, -, unique, outcome, -⟩ := forced (by decide)
  obtain rfl : chosen = best := unique _ (Condition.cheapest_target (by decide))
  obtain ⟨answer, -, readAfter, kept⟩ := outcome.writable free
  have stored : ∀ i ∈ inputs, before.get i.1 ≠ chosen.get i.1 → ∀ x ∈ i.2.storage .highFirst,
      x ∈ [(RegClass.general, 24), (.general, 8), (.general, 9), (.general, 10), (.general, 11)] := by decide
  refine ⟨m, s, o, z, reached, order, guarded, located, answer, readAfter, ?_⟩
  intro x elsewhere
  apply kept x
  rw [order]
  exact fun i listed changes inStorage => elsewhere (stored i listed changes x inStorage)

end Machine
end MachineRegisters
