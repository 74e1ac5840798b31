import MachineRegisters.Proofs.Placement
import MachineRegisters.Proofs.Stepwise.Steps

/-! # Registers and their layout, step by step

Comparing two registers and sizing the banks adds offsets to sizes, dividing a register
into lanes divides by their width, and a definition with a known name is put at the place
that its name has in the list.  None of these steps fails for registers that end below 32
bits, and the layout makes no others. -/
set_option autoImplicit false
namespace MachineRegisters.Stepwise

def past (r : Register) : Option Nat := sum r.offset r.size

def covers (r t : Register) : Option Bool :=
  if r.bank = t.bank ∧ r.offset ≤ t.offset then do
    let own ← past r
    let other ← past t
    return decide (other ≤ own)
  else some false

def overlaps (r t : Register) : Option Bool :=
  if r.bank = t.bank then do
    let other ← past t
    if r.offset < other then do
      let own ← past r
      return decide (t.offset < own)
    else some false
  else some false

def supersedes (r t : Register) : Option Bool := do
  let covered ← covers r t
  return covered && decide (t.size < r.size ∨ r.index < t.index)

def uncovered (rs : List Register) : Option (List Register) :=
  rs.filterM fun t => do
    let redundant ← rs.anyM fun r => supersedes r t
    return !redundant

def laneCount (size lane : Nat) : Option Nat :=
  if lane = 0 ∨ size ≤ lane then some 1 else quotient size lane

def bankSizesFrom : TotalMap RegClass Nat → List Register → Option (TotalMap RegClass Nat)
  | sizes, [] => some sizes
  | sizes, r :: rest => do
      let behind ← past r
      bankSizesFrom (sizes.set r.bank (max (sizes.get r.bank) (Bits.bytesFor behind))) rest

def bankSizes (rs : List Register) : Option (TotalMap RegClass Nat) := bankSizesFrom (.const 0) rs

/-- The registers placed so far, the place of each of their names, and the first bit behind
the last one in each bank. -/
structure Progress where
  registers : List Register
  places : List (String × Nat)
  next : TotalMap RegClass Nat

namespace Progress

def start : Progress := ⟨[], [], .const 0⟩

def place (q : Progress) (d : Definition) : Option (Except RegisterError Progress) :=
  let offset := d.offset.getD (q.next.get d.bank)
  if offset + d.size < UInt32.size then
    let index := (q.places.lookup d.name).getD q.registers.length
    let next := q.next.set d.bank (offset + d.size)
    let r := d.toRegister offset index
    if index = q.registers.length then
      some (.ok ⟨q.registers ++ [r], (d.name, index) :: q.places, next⟩)
    else do
      let registers ← assigned q.registers index r
      return .ok ⟨registers, q.places, next⟩
  else some (.error (.layoutOverflow d.name))

def placeAll : Progress → List Definition → Option (Except RegisterError Progress)
  | q, [] => some (.ok q)
  | q, d :: rest => do
      match ← q.place d with
      | .error e => some (.error e)
      | .ok next => next.placeAll rest

end Progress

def layout (p : Profile) : Option (Except RegisterError (List Register × TotalMap RegClass Nat)) := do
  match ← Progress.start.placeAll p.definitions with
  | .error e => some (.error e)
  | .ok q => do
      let sizes ← bankSizes q.registers
      return .ok (q.registers, sizes)

section Comparisons
variable {r t : Register}

theorem past_eq (small : r.past < UInt32.size) : past r = some r.past :=
  sum_eq small

theorem covers_eq (small : r.past < UInt32.size) (smallToo : t.past < UInt32.size) :
    covers r t = some (decide (r.Covers t)) := by
  have covered : r.Covers t ↔ (r.bank = t.bank ∧ r.offset ≤ t.offset) ∧ t.past ≤ r.past :=
    and_assoc.symm
  by_cases begins : r.bank = t.bank ∧ r.offset ≤ t.offset
  · have ends : r.Covers t ↔ t.past ≤ r.past := by rw [covered, and_iff_right begins]
    simp only [covers, if_pos begins, past_eq small, past_eq smallToo, Option.bind_eq_bind, Option.bind_some,
      Option.pure_def, decide_eq_decide.mpr ends]
  · rw [covers, if_neg begins, decide_eq_false fun both => begins (covered.mp both).1]

theorem overlaps_eq (small : r.past < UInt32.size) (smallToo : t.past < UInt32.size) :
    overlaps r t = some (decide (r.Overlaps t)) := by
  by_cases bank : r.bank = t.bank
  · by_cases before : r.offset < t.past
    · have behind : r.Overlaps t ↔ t.offset < r.past :=
        ⟨fun both => both.2.2, fun later => ⟨bank, before, later⟩⟩
      simp only [overlaps, if_pos bank, past_eq small, past_eq smallToo, Option.bind_eq_bind, Option.bind_some,
        if_pos before, Option.pure_def, decide_eq_decide.mpr behind]
    · simp only [overlaps, if_pos bank, past_eq smallToo, Option.bind_eq_bind, Option.bind_some, if_neg before,
        decide_eq_false fun both : r.Overlaps t => before both.2.1]
  · rw [overlaps, if_neg bank, decide_eq_false fun both => bank both.1]

theorem supersedes_eq (small : r.past < UInt32.size) (smallToo : t.past < UInt32.size) :
    supersedes r t = some (decide (r.Supersedes t)) := by
  simp only [supersedes, covers_eq small smallToo, Option.bind_eq_bind, Option.bind_some, Option.pure_def]
  exact congrArg some (Bool.decide_and (r.Covers t) (t.size < r.size ∨ r.index < t.index)).symm

theorem uncovered_eq {rs : List Register} (small : ∀ r ∈ rs, r.past < UInt32.size) :
    uncovered rs = some (Register.uncovered rs) := by
  have each : ∀ t ∈ rs, (do
      let redundant ← rs.anyM fun r => supersedes r t
      return !redundant : Option Bool) = some (decide (∀ r ∈ rs, ¬r.Supersedes t)) := by
    intro t member
    have searched := anyM_eq fun r listed => supersedes_eq (small r listed) (small t member)
    have none : (!rs.any fun r => decide (r.Supersedes t)) = decide (∀ r ∈ rs, ¬r.Supersedes t) := by
      rw [Bool.eq_iff_iff, Bool.not_eq_true', List.any_eq_false, decide_eq_true_iff]
      exact forall₂_congr fun r _ => not_congr decide_eq_true_iff
    simp only [searched, Option.bind_eq_bind, Option.bind_some, Option.pure_def, none]
  exact filterM_eq each

theorem laneCount_eq (size lane : Nat) : laneCount size lane = some (MachineRegisters.laneCount size lane) := by
  unfold laneCount MachineRegisters.laneCount
  split
  · rfl
  · rename_i divided
    exact quotient_eq fun zero => divided (.inl zero)

end Comparisons

theorem bytesOfBank_cons (r : Register) (rs : List Register) (c : RegClass) :
    Register.bytesOfBank (r :: rs) c =
      if r.bank = c then max r.bytesNeeded (Register.bytesOfBank rs c) else Register.bytesOfBank rs c := by
  unfold Register.bytesOfBank
  by_cases here : r.bank = c
  · rw [if_pos here, List.filter_cons_of_pos (by simpa using here)]
    rfl
  · rw [if_neg here, List.filter_cons_of_neg (by simpa using here)]

theorem bankSizesFrom_eq {rs : List Register} (small : ∀ r ∈ rs, r.past < UInt32.size) :
    ∀ sizes, bankSizesFrom sizes rs = some (.ofFn fun c => max (sizes.get c) (Register.bytesOfBank rs c)) := by
  induction rs with
  | nil =>
      intro sizes
      refine congrArg some (TotalMap.ext_get fun c => ?_)
      rw [TotalMap.get_ofFn]
      exact (Nat.max_zero _).symm
  | cons r rest ih =>
      rw [List.forall_mem_cons] at small
      intro sizes
      simp only [bankSizesFrom, past_eq small.1, Option.bind_eq_bind, Option.bind_some, ih small.2]
      refine congrArg some (TotalMap.ext_get fun c => ?_)
      rw [TotalMap.get_ofFn, TotalMap.get_ofFn, TotalMap.get_set, bytesOfBank_cons]
      by_cases here : r.bank = c
      · rw [if_pos here, if_pos here, here, Nat.max_assoc]
        rfl
      · rw [if_neg here, if_neg here]

theorem bankSizes_eq {rs : List Register} (small : ∀ r ∈ rs, r.past < UInt32.size) :
    bankSizes rs = some (.ofFn (Register.bytesOfBank rs)) := by
  rw [bankSizes, bankSizesFrom_eq small]
  refine congrArg some (TotalMap.ext_get fun c => ?_)
  rw [TotalMap.get_ofFn, TotalMap.get_ofFn, TotalMap.get_const, Nat.zero_max]

section PutRegister
variable {rs : List Register}

theorem putRegister_of_findIdx? (r : Register) {i : Nat}
    (found : rs.findIdx? (fun t => t.name = r.name) = some i) :
    ∃ old, rs[i]? = some old ∧ putRegister r rs = rs.set i { r with index := old.index } := by
  induction rs generalizing i with
  | nil => cases found
  | cons first rest ih =>
      rw [List.findIdx?_cons] at found
      by_cases here : first.name = r.name
      · rw [if_pos (decide_eq_true here)] at found
        cases found
        exact ⟨first, rfl, by rw [putRegister, if_pos here]; rfl⟩
      · rw [if_neg (by simpa using here)] at found
        obtain ⟨j, later, rfl⟩ := Option.map_eq_some_iff.mp found
        obtain ⟨old, place, put⟩ := ih later
        exact ⟨old, place, by rw [putRegister, if_neg here, put]; rfl⟩

theorem findIdx?_name (rs : List Register) (name : String) :
    rs.findIdx? (fun t => t.name = name) = (rs.map fun t => t.name).findIdx? (· = name) := by
  rw [List.findIdx?_map]
  rfl

end PutRegister

namespace Progress

structure Follows (q : Progress) (p : Placement) : Prop where
  registers_eq : q.registers = p.registers
  next_eq : q.next = p.next
  places_eq : ∀ name, q.places.lookup name = p.registers.findIdx? fun r => r.name = name
  indexed : p.registers.map (fun r => r.index) = List.range p.registers.length
  past_lt : ∀ r ∈ p.registers, r.past < UInt32.size

theorem follows_start : Follows start .start :=
  ⟨rfl, rfl, fun _ => rfl, rfl, fun _ member => absurd member List.not_mem_nil⟩

variable {q : Progress} {p : Placement}

theorem Follows.fresh (follows : Follows q p) {d : Definition} {offset : Nat}
    (fits : offset + d.size < UInt32.size) (next : TotalMap RegClass Nat)
    (unknown : p.registers.findIdx? (fun r => r.name = d.name) = none) :
    Follows ⟨q.registers ++ [d.toRegister offset q.registers.length], (d.name, q.registers.length) :: q.places, next⟩
      ⟨putRegister (d.toRegister offset p.registers.length) p.registers, next⟩ := by
  have absent : d.name ∉ p.registers.map fun r => r.name := by
    intro listed
    obtain ⟨r, member, named⟩ := List.mem_map.mp listed
    exact absurd named (by simpa using List.findIdx?_eq_none_iff.mp unknown r member)
  have put := putRegister_of_fresh (d.toRegister offset p.registers.length) p.registers absent
  refine ⟨?_, rfl, fun name => ?_, indexed_putRegister _ _ follows.indexed rfl,
    forall_mem_putRegister _ _ (fun _ => fits) follows.past_lt⟩
  · rw [put, follows.registers_eq]
  · rw [put, List.lookup_cons, List.findIdx?_append, List.findIdx?_singleton, follows.places_eq,
      follows.registers_eq]
    by_cases same : name = d.name
    · subst same
      have here : (d.toRegister offset p.registers.length).name = d.name := rfl
      simp [unknown, here]
    · have elsewhere : (d.toRegister offset p.registers.length).name ≠ name := fun here => same here.symm
      simp [beq_false_of_ne same, elsewhere]

theorem Follows.known (follows : Follows q p) {d : Definition} {offset i : Nat}
    (fits : offset + d.size < UInt32.size) (next : TotalMap RegClass Nat)
    (found : p.registers.findIdx? (fun r => r.name = d.name) = some i) :
    i < q.registers.length ∧
      Follows ⟨q.registers.set i (d.toRegister offset i), q.places, next⟩
        ⟨putRegister (d.toRegister offset p.registers.length) p.registers, next⟩ := by
  obtain ⟨old, place, put⟩ := putRegister_of_findIdx? (d.toRegister offset p.registers.length) found
  obtain ⟨inside, here⟩ := List.getElem?_eq_some_iff.mp place
  have index : old.index = i := by
    have entry := congrArg (fun indices => indices[i]?) follows.indexed
    simpa [← here, inside] using entry
  have listed : d.name ∈ p.registers.map fun r => r.name := by
    obtain ⟨_, named, -⟩ := List.findIdx?_eq_some_iff_getElem.mp found
    exact List.mem_map.mpr ⟨p.registers[i], List.getElem_mem inside, by simpa using named⟩
  have names := map_putRegister_of_known (d.toRegister offset p.registers.length) p.registers
    (fun r => r.name) (fun _ _ same => same.symm) listed
  refine ⟨follows.registers_eq ▸ inside, ?_, rfl, fun name => ?_, indexed_putRegister _ _ follows.indexed rfl,
    forall_mem_putRegister _ _ (fun _ => fits) follows.past_lt⟩
  · rw [put, index, follows.registers_eq]
    rfl
  · rw [follows.places_eq, findIdx?_name, ← names, ← findIdx?_name]

theorem place_eq (follows : Follows q p) (d : Definition) :
    (∃ e, q.place d = some (.error e) ∧ p.place d = .error e) ∨
      ∃ q' p', q.place d = some (.ok q') ∧ p.place d = .ok p' ∧ Follows q' p' := by
  obtain ⟨registers, places, next⟩ := q
  obtain ⟨placed, nextPlace⟩ := p
  obtain rfl : registers = placed := follows.registers_eq
  obtain rfl : next = nextPlace := follows.next_eq
  by_cases fits : d.offset.getD (next.get d.bank) + d.size < UInt32.size
  · refine .inr ?_
    cases found : registers.findIdx? (fun r => r.name = d.name) with
    | none =>
        have lookup : places.lookup d.name = none := (follows.places_eq d.name).trans found
        refine ⟨_, _, ?_, if_pos fits, follows.fresh fits _ found⟩
        simp only [place, if_pos fits, lookup, Option.getD_none, if_true]
    | some i =>
        have lookup : places.lookup d.name = some i := (follows.places_eq d.name).trans found
        obtain ⟨inside, kept⟩ := follows.known fits (next.set d.bank (d.offset.getD (next.get d.bank) + d.size)) found
        refine ⟨_, _, ?_, if_pos fits, kept⟩
        simp only [place, if_pos fits, lookup, Option.getD_some, if_neg (Nat.ne_of_lt inside), assigned_eq inside,
          Option.bind_eq_bind, Option.bind_some, Option.pure_def]
  · exact .inl ⟨_, if_neg fits, if_neg fits⟩

theorem placeAll_eq (ds : List Definition) (follows : Follows q p) :
    (∃ e, q.placeAll ds = some (.error e) ∧ p.placeAll ds = .error e) ∨
      ∃ q' p', q.placeAll ds = some (.ok q') ∧ p.placeAll ds = .ok p' ∧ Follows q' p' := by
  induction ds generalizing q p with
  | nil => exact .inr ⟨q, p, rfl, rfl, follows⟩
  | cons d rest ih =>
      simp only [placeAll, Placement.placeAll]
      rcases place_eq follows d with ⟨e, step, stepPlace⟩ | ⟨q', p', step, stepPlace, still⟩
      · rw [step, stepPlace]
        exact .inl ⟨e, rfl, rfl⟩
      · rw [step, stepPlace]
        exact ih still

end Progress

theorem layout_eq (p : Profile) :
    layout p = some (p.layout.map fun rs => (rs, .ofFn (Register.bytesOfBank rs))) := by
  rcases Progress.placeAll_eq p.definitions Progress.follows_start with
    ⟨e, step, stepPlace⟩ | ⟨q, placed, step, stepPlace, follows⟩
  · simp only [layout, step, Profile.layout, stepPlace, Option.bind_eq_bind, Option.bind_some]
    rfl
  · simp only [layout, step, Profile.layout, stepPlace, Option.bind_eq_bind, Option.bind_some,
      follows.registers_eq, bankSizes_eq follows.past_lt, Option.pure_def]
    rfl

end MachineRegisters.Stepwise
