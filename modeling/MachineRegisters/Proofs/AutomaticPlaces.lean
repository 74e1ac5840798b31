import MachineRegisters.Proofs.LaidOut
import Mathlib.Algebra.BigOperators.Group.Finset.Basic
import Mathlib.Order.Interval.Finset.Nat

/-! # Definitions that do not say where they begin

If no definition gives an offset, each begins behind all earlier ones of its bank
(`Offsets.eq_sizeIn`), also behind those that a later one of the same name replaces.  So no two
registers share a bit and a bank holds them side by side; and if no name is used twice, nothing
is left free between them (`apart_of_automatic`). -/
set_option autoImplicit false
namespace MachineRegisters

def sizeIn (c : RegClass) (ds : List Definition) : Nat :=
  ((ds.filter fun d => d.bank = c).map fun d => d.size).sum

theorem sizeIn_append (c : RegClass) (ds es : List Definition) :
    sizeIn c (ds ++ es) = sizeIn c ds + sizeIn c es := by
  simp [sizeIn]

theorem sizeIn_reverse (c : RegClass) (ds : List Definition) : sizeIn c ds.reverse = sizeIn c ds := by
  rw [sizeIn, List.filter_reverse, List.map_reverse, List.sum_reverse]
  rfl

theorem nextFree_of_automatic (c : RegClass) {ds : List Definition}
    (automatic : ∀ d ∈ ds, d.offset = none) : nextFree c ds = sizeIn c ds := by
  induction ds with
  | nil => rfl
  | cons d earlier ih =>
      have rest := ih fun e member => automatic e (List.mem_cons_of_mem _ member)
      rw [nextFree, automatic d (List.mem_cons_self ..), rest]
      by_cases here : d.bank = c
      · simp [sizeIn, here, Nat.add_comm]
      · simp [sizeIn, here]

section Automatic
variable {ds : List Definition} {off : Nat → Nat} {rs : List Register}

theorem Offsets.eq_sizeIn (meant : Offsets ds off) (automatic : ∀ d ∈ ds, d.offset = none) {i : Nat}
    {d : Definition} (here : ds[i]? = some d) : off i = sizeIn d.bank (ds.take i) := by
  have before : ∀ e ∈ (ds.take i).reverse, e.offset = none := fun e member =>
    automatic e (List.mem_of_mem_take (List.mem_reverse.mp member))
  rw [meant.eq_start here, Definition.start, automatic d (List.mem_of_getElem? here), Option.getD_none,
    nextFree_of_automatic _ before, sizeIn_reverse]

/-- What is defined later in a bank begins behind what is defined earlier. -/
theorem Offsets.le_of_automatic (meant : Offsets ds off) (automatic : ∀ d ∈ ds, d.offset = none) {i j : Nat}
    {d e : Definition} (here : ds[i]? = some d) (there : ds[j]? = some e) (earlier : i < j)
    (same : d.bank = e.bank) : off i + d.size ≤ off j := by
  obtain ⟨between, whole⟩ : ds.take (i + 1) <+: ds.take j := List.take_prefix_take_left earlier
  have own : sizeIn e.bank [d] = d.size := by simp [sizeIn, same]
  rw [meant.eq_sizeIn automatic here, meant.eq_sizeIn automatic there, ← whole, List.take_add_one, here,
    Option.toList_some, sizeIn_append, sizeIn_append, own, same]
  exact Nat.le_add_right ..

theorem LaidOut.lie_apart (laid : LaidOut ds off rs) (meant : Offsets ds off)
    (automatic : ∀ d ∈ ds, d.offset = none) {r t : Register} (member : r ∈ rs) (other : t ∈ rs)
    (differ : r ≠ t) (same : r.bank = t.bank) : r.past ≤ t.offset ∨ t.past ≤ r.offset := by
  obtain ⟨i, d, last, described⟩ := laid.as_defined r member
  obtain ⟨j, e, lastToo, describedToo⟩ := laid.as_defined t other
  have banks : d.bank = e.bank := by
    rw [described, describedToo] at same
    exact same
  -- Registers of one definition have one name; of two, the later begins behind the earlier.
  rcases Nat.lt_trichotomy i j with earlier | rfl | later
  · left
    rw [described, describedToo]
    exact meant.le_of_automatic automatic last.here lastToo.here earlier banks
  · have one : d = e := Option.some.inj (last.here.symm.trans lastToo.here)
    have names : r.name = t.name := by rw [described, describedToo, one]
    exact absurd (List.inj_on_of_nodup_map laid.names_nodup member other names) differ
  · right
    rw [described, describedToo]
    exact meant.le_of_automatic automatic lastToo.here last.here later banks.symm

end Automatic

/-- The registers of a bank lie one behind the other from bit zero on, with nothing free between them. -/
def Register.Abut (rs : List Register) (c : RegClass) : Prop :=
  ∀ before r after, (rs.filter fun t => t.bank = c) = before ++ r :: after →
    r.offset = (before.map fun t => t.size).sum

section NoNameTwice
variable {ds : List Definition} {off : Nat → Nat} {rs : List Register}

theorem LastOfName.of_nodup (nodup : (ds.map fun d => d.name).Nodup) {i : Nat} {d : Definition}
    (here : ds[i]? = some d) : LastOfName ds i d := by
  have differ := List.pairwise_map.mp nodup
  refine ⟨here, ?_⟩
  intro k e later there same
  obtain ⟨first, rfl⟩ := List.getElem?_eq_some_iff.mp here
  obtain ⟨second, rfl⟩ := List.getElem?_eq_some_iff.mp there
  exact List.pairwise_iff_getElem.mp differ i k first second later same.symm

namespace LaidOut

theorem eq_of_nodup (laid : LaidOut ds off rs) (nodup : (ds.map fun d => d.name).Nodup) {n : Nat} {r : Register}
    (there : rs[n]? = some r) : ∃ d, ds[n]? = some d ∧ r = d.toRegister (off n) n := by
  have names := laid.names_eq
  rw [eraseDups_of_nodup nodup] at names
  have name := congrArg (fun texts => texts[n]?) names
  rw [List.getElem?_map, List.getElem?_map, there, Option.map_some] at name
  obtain ⟨d, here, same⟩ := Option.map_eq_some_iff.mp name.symm
  obtain ⟨i, e, last, described⟩ := laid.as_defined r (List.mem_of_getElem? there)
  have one : d.name = e.name := by rw [same, described]
  obtain ⟨rfl, rfl⟩ := (LastOfName.of_nodup nodup here).unique last one
  refine ⟨d, here, ?_⟩
  rw [described, laid.index_eq n r there]
  rfl

/-- The registers of a bank have the sizes of its definitions. -/
theorem sum_take_of_nodup (laid : LaidOut ds off rs) (nodup : (ds.map fun d => d.name).Nodup) (c : RegClass)
    {n : Nat} (inside : n ≤ rs.length) :
    (((rs.take n).filter fun r => r.bank = c).map fun r => r.size).sum = sizeIn c (ds.take n) := by
  induction n with
  | zero => rfl
  | succ n ih =>
      obtain ⟨d, here, described⟩ := laid.eq_of_nodup nodup (List.getElem?_eq_getElem inside)
      rw [List.take_add_one, List.take_add_one, sizeIn_append, ← ih (Nat.le_of_succ_le inside), here,
        List.getElem?_eq_getElem inside, described]
      by_cases inBank : d.bank = c
      · simp [Definition.toRegister, sizeIn, inBank]
      · simp [Definition.toRegister, sizeIn, inBank]

theorem abut_of_automatic (laid : LaidOut ds off rs) (meant : Offsets ds off)
    (automatic : ∀ d ∈ ds, d.offset = none) (nodup : (ds.map fun d => d.name).Nodup) (c : RegClass) :
    Register.Abut rs c := by
  intro before r after listed
  obtain ⟨first, second, rfl, rfl, rest⟩ := List.filter_eq_append_iff.mp listed
  obtain ⟨others, third, rfl, elsewhere, inBank, -⟩ := List.filter_eq_cons_iff.mp rest
  have there : (first ++ (others ++ r :: third))[(first ++ others).length]? = some r := by
    rw [← List.append_assoc, List.getElem?_append_right (Nat.le_refl _), Nat.sub_self]
    rfl
  obtain ⟨d, here, described⟩ := laid.eq_of_nodup nodup there
  have bank : d.bank = c := by
    rw [described] at inBank
    exact of_decide_eq_true inBank
  have sizes := laid.sum_take_of_nodup nodup c (n := (first ++ others).length) (by simp)
  have none_of_bank : (others.filter fun t => t.bank = c) = [] := by simpa using elsewhere
  rw [← List.append_assoc, List.take_left' rfl, List.filter_append, none_of_bank, List.append_nil] at sizes
  rw [sizes, described, ← bank]
  exact meant.eq_sizeIn automatic here

end LaidOut
end NoNameTwice

/-- Registers that lie apart and below a bit have no more bits than there are below it. -/
theorem sum_size_le {rs : List Register} {n : Nat} (nodup : rs.Nodup)
    (apart : ∀ r ∈ rs, ∀ t ∈ rs, r ≠ t → r.past ≤ t.offset ∨ t.past ≤ r.offset)
    (below : ∀ r ∈ rs, r.past ≤ n) : (rs.map fun r => r.size).sum ≤ n := by
  have disjoint : (rs.toFinset : Set Register).PairwiseDisjoint fun r => Finset.Ico r.offset r.past := by
    intro r member t other differ
    have sides := apart r (List.mem_toFinset.mp member) t (List.mem_toFinset.mp other) differ
    refine Finset.disjoint_left.mpr fun k inside insideToo => ?_
    rw [Finset.mem_Ico] at inside insideToo
    omega
  have within : rs.toFinset.biUnion (fun r => Finset.Ico r.offset r.past) ⊆ Finset.range n := by
    intro k covered
    obtain ⟨r, member, inside⟩ := Finset.mem_biUnion.mp covered
    have last := below r (List.mem_toFinset.mp member)
    rw [Finset.mem_Ico] at inside
    exact Finset.mem_range.mpr (by omega)
  have widths : ∀ r : Register, (Finset.Ico r.offset r.past).card = r.size := fun r => by
    rw [Nat.card_Ico, BitSpan.past, Nat.add_sub_cancel_left]
  calc (rs.map fun r => r.size).sum
      = ∑ r ∈ rs.toFinset, r.size := (List.sum_toFinset _ nodup).symm
    _ = ∑ r ∈ rs.toFinset, (Finset.Ico r.offset r.past).card := by simp only [widths]
    _ = (rs.toFinset.biUnion fun r => Finset.Ico r.offset r.past).card := (Finset.card_biUnion disjoint).symm
    _ ≤ (Finset.range n).card := Finset.card_le_card within
    _ = n := Finset.card_range n

theorem bytesOfBank_of_abut {rs : List Register} {c : RegClass} (abut : Register.Abut rs c) :
    Register.bytesOfBank rs c = (((rs.filter fun r => r.bank = c).map fun r => r.size).sum + 7) / 8 := by
  have past : ∀ before r after, (rs.filter fun t => t.bank = c) = before ++ r :: after →
      r.past = ((before ++ [r]).map fun t => t.size).sum := by
    intro before r after listed
    rw [BitSpan.past, abut before r after listed]
    simp
  apply Nat.le_antisymm
  · rcases Register.bytesOfBank_attained rs c with ⟨r, member, here, most⟩ | ⟨-, empty⟩
    · have inBank : r ∈ rs.filter fun t => t.bank = c := List.mem_filter.mpr ⟨member, decide_eq_true here⟩
      obtain ⟨before, after, listed⟩ := List.append_of_mem inBank
      have total : r.past ≤ ((rs.filter fun t => t.bank = c).map fun t => t.size).sum := by
        rw [past before r after listed, listed]
        simp
      rw [← most]
      exact Nat.div_le_div_right (Nat.add_le_add_right total 7)
    · rw [empty]
      exact Nat.zero_le _
  · rcases List.eq_nil_or_concat (rs.filter fun t => t.bank = c) with none | ⟨before, r, listed⟩
    · simp [none]
    · have member : r ∈ rs.filter fun t => t.bank = c := by simp [listed]
      obtain ⟨known, here⟩ := List.mem_filter.mp member
      rw [List.concat_eq_append] at listed
      rw [listed, ← past before r [] listed]
      exact Register.bytesNeeded_le_bytesOfBank known (of_decide_eq_true here)

/-- Where no definition says where it begins, no two registers share a bit, and a bank has the bits
of all its registers; and if no name is used twice, the registers of each bank abut from bit zero on
and the bank has no byte more than they need. -/
theorem Profile.apart_of_automatic {p : Profile} {rs : List Register}
    (automatic : ∀ d ∈ p.definitions, d.offset = none) (laid : p.layout = .ok rs) :
    (∀ (i j : Nat) (r t : Register), rs[i]? = some r → rs[j]? = some t → i ≠ j → ¬r.Overlaps t) ∧
      (∀ c, ((rs.filter fun r => r.bank = c).map fun r => r.size).sum ≤ 8 * Register.bytesOfBank rs c) ∧
      ((p.definitions.map fun d => d.name).Nodup → ∀ c, Register.Abut rs c ∧
        Register.bytesOfBank rs c = (((rs.filter fun r => r.bank = c).map fun r => r.size).sum + 7) / 8) := by
  obtain ⟨off, meant⟩ := exists_offsets p.definitions
  have asMeant := (layout_eq_ok_iff meant).mp laid |>.2
  refine ⟨?_, ?_, ?_⟩
  · intro i j r t here there apart shared
    have differ : r ≠ t := by
      rintro rfl
      exact apart ((asMeant.index_eq i r here).symm.trans (asMeant.index_eq j r there))
    have sides := asMeant.lie_apart meant automatic (List.mem_of_getElem? here)
      (List.mem_of_getElem? there) differ shared.1
    obtain ⟨-, below, above⟩ := shared
    omega
  · intro c
    apply sum_size_le (asMeant.names_nodup.of_map _ |>.filter _)
    · intro r member t other differ
      obtain ⟨known, here⟩ := List.mem_filter.mp member
      obtain ⟨knownToo, there⟩ := List.mem_filter.mp other
      have same : r.bank = t.bank := (of_decide_eq_true here).trans (of_decide_eq_true there).symm
      exact asMeant.lie_apart meant automatic known knownToo differ same
    · intro r member
      obtain ⟨known, here⟩ := List.mem_filter.mp member
      rw [← of_decide_eq_true here]
      exact Register.past_le_bytesOfBank known
  · intro nodup c
    have abut := asMeant.abut_of_automatic meant automatic nodup c
    exact ⟨abut, bytesOfBank_of_abut abut⟩

/-- Registers that are redefined, one of them in another bank; and some that are not. -/
theorem Profile.apart_of_automatic_moved :
    ∃ (p q : Profile) (rs ts : List Register),
      (∀ d ∈ p.definitions, d.offset = none) ∧ p.layout = .ok rs ∧
      rs.map (fun r => (r.name, r.bank, r.offset, r.size)) =
        [("a", .general, 17, 4), ("b", .float, 8, 3), ("x", .float, 0, 8)] ∧
      (∀ (i j : Nat) (r t : Register), rs[i]? = some r → rs[j]? = some t → i ≠ j → ¬r.Overlaps t) ∧
      (∀ d ∈ q.definitions, d.offset = none) ∧ q.layout = .ok ts ∧
      (q.definitions.map fun d => d.name).Nodup ∧ Register.bytesOfBank ts .general = (12 + 5 + 7) / 8 := by
  let p : Profile := ⟨[], [⟨.general, .general, "a", 12, 0, none, none, none⟩,
    ⟨.general, .general, "b", 5, 0, none, none, none⟩, ⟨.general, .general, "a", 4, 0, none, none, none⟩,
    ⟨.float, .float, "x", 8, 0, none, none, none⟩, ⟨.float, .float, "b", 3, 0, none, none, none⟩]⟩
  let q : Profile := ⟨[], [⟨.general, .general, "a", 12, 0, none, none, none⟩,
    ⟨.float, .float, "x", 8, 0, none, none, none⟩, ⟨.general, .general, "b", 5, 0, none, none, none⟩]⟩
  have pAutomatic : ∀ d ∈ p.definitions, d.offset = none := by decide +kernel
  have qAutomatic : ∀ d ∈ q.definitions, d.offset = none := by decide +kernel
  have pLaid : p.layout = .ok [⟨⟨17, 4⟩, "a", .general, .general, 0, none, none, 0⟩,
      ⟨⟨8, 3⟩, "b", .float, .float, 0, none, none, 1⟩,
      ⟨⟨0, 8⟩, "x", .float, .float, 0, none, none, 2⟩] := by decide +kernel
  have qLaid : q.layout = .ok [⟨⟨0, 12⟩, "a", .general, .general, 0, none, none, 0⟩,
      ⟨⟨0, 8⟩, "x", .float, .float, 0, none, none, 1⟩,
      ⟨⟨12, 5⟩, "b", .general, .general, 0, none, none, 2⟩] := by decide +kernel
  have nodup : (q.definitions.map fun d => d.name).Nodup := by decide +kernel
  exact ⟨p, q, _, _, pAutomatic, pLaid, rfl, (apart_of_automatic pAutomatic pLaid).1, qAutomatic, qLaid, nodup,
    ((apart_of_automatic qAutomatic qLaid).2.2 nodup .general).2⟩

end MachineRegisters
