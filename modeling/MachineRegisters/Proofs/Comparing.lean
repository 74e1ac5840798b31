import MachineRegisters.Machine.Changes
import MachineRegisters.Proofs.RegisterLaws

/-! # Registers that differ between two images

A span differs between two byte strings just when one of its bits does, just when
its value does in either order of bytes, and, if it is of whole bytes, just when its
bytes do.  The registers of a bank stand in the order of their indices, so a search
that goes on behind the last register found passes over none: a walk from one change
to the next finds every register that differs, once and in order, and then ends
(`walk_differing`, `walk_finds_changes`). -/
set_option autoImplicit false
namespace MachineRegisters

namespace BitSpan
variable {s : BitSpan} {before after : Bytes}

theorem differs_iff :
    s.Differs before after ↔ ∃ i, s.offset ≤ i ∧ i < s.past ∧ before.bit i ≠ after.bit i := by
  constructor
  · intro differs
    by_contra same
    apply differs
    apply BitVec.eq_of_getLsbD_eq
    intro i inside
    have bitSame : before.bit (s.offset + i) = after.bit (s.offset + i) := by
      by_contra apart
      exact same ⟨s.offset + i, Nat.le_add_right _ _, Nat.add_lt_add_left inside _, apart⟩
    rw [getLsbD_bits_bit, getLsbD_bits_bit, bitSame]
  · intro someBit sameBits
    obtain ⟨i, above, below, apart⟩ := someBit
    have inside : i - s.offset < s.size := by
      simp only [past] at below
      omega
    have bitSame := congrArg (fun v => v.getLsbD (i - s.offset)) sameBits
    simp only [getLsbD_bits_bit, decide_eq_true inside, Bool.true_and, Nat.add_sub_cancel' above] at bitSame
    exact apart bitSame

theorem differs_iff_read (order : ByteOrder) :
    s.Differs before after ↔ s.read order before ≠ s.read order after := by
  constructor
  · intro differs sameValue
    apply differs
    have arranged := congrArg (s.arrange order) sameValue
    rw [read, read, arrange_arrange, arrange_arrange] at arranged
    exact arranged
  · intro apart sameBits
    exact apart (congrArg (s.arrange order) sameBits)

theorem differs_iff_chunk (aligned : s.Aligned) (fitsBefore : s.Within before) (fitsAfter : s.Within after) :
    s.Differs before after ↔ s.chunk before ≠ s.chunk after := by
  constructor
  · intro differs sameBytes
    obtain ⟨i, above, below, apart⟩ := differs_iff.mp differs
    have inside : i - s.offset < s.size := by
      simp only [past] at below
      omega
    have place : s.offset + (i - s.offset) = i := Nat.add_sub_cancel' above
    have bitOfChunk : ∀ bs : Bytes, (s.chunk bs).bit (i - s.offset) = bs.bit i := by
      intro bs
      rw [bit_chunk aligned inside, place]
    apply apart
    rw [← bitOfChunk, ← bitOfChunk, sameBytes]
  · intro apart sameBits
    apply apart
    have sameLength : (s.chunk before).length = (s.chunk after).length := by
      rw [length_chunk fitsBefore, length_chunk fitsAfter]
    have whole : 8 * (s.size / 8) = s.size := Nat.mul_div_cancel' (Nat.dvd_of_mod_eq_zero aligned.2)
    apply Bytes.ext_bit sameLength
    intro i
    by_cases inside : i < s.size
    · have bitSame := congrArg (fun v => v.getLsbD i) sameBits
      simp only [getLsbD_bits_bit, decide_eq_true inside, Bool.true_and] at bitSame
      rw [bit_chunk aligned inside, bit_chunk aligned inside, bitSame]
    · rw [Bytes.bit_of_le _ (by rw [length_chunk fitsBefore]; omega),
        Bytes.bit_of_le _ (by rw [length_chunk fitsAfter]; omega)]

end BitSpan

namespace Machine

/-! ## Searching in the order of indices -/

section Ascending
variable {rs : List Register}

theorem find?_eq_some_iff_least (ascending : rs.Pairwise fun r t => r.index < t.index)
    {wanted : Register → Bool} {r : Register} :
    rs.find? wanted = some r ↔
      (r ∈ rs ∧ wanted r = true) ∧ ∀ t ∈ rs, wanted t = true → r.index ≤ t.index := by
  induction rs with
  | nil => simp
  | cons t rest ih =>
      obtain ⟨below, ascendingRest⟩ := List.pairwise_cons.mp ascending
      by_cases here : wanted t = true
      · rw [List.find?_cons_of_pos here, Option.some.injEq]
        constructor
        · intro same
          subst same
          refine ⟨⟨List.mem_cons_self .., here⟩, ?_⟩
          intro u member _
          rcases List.mem_cons.mp member with rfl | later
          · exact Nat.le_refl _
          · exact Nat.le_of_lt (below u later)
        · intro least
          obtain ⟨⟨member, -⟩, least⟩ := least
          rcases List.mem_cons.mp member with rfl | later
          · rfl
          · have atMost := least t (List.mem_cons_self ..) here
            exact absurd (below r later) (Nat.not_lt.mpr atMost)
      · have inRest : r ∈ t :: rest ∧ wanted r = true ↔ r ∈ rest ∧ wanted r = true := by
          rw [List.mem_cons, or_and_right]
          exact or_iff_right fun both => here (both.1 ▸ both.2)
        rw [List.find?_cons_of_neg here, ih ascendingRest, inRest, List.forall_mem_cons]
        simp [here]

theorem isBehind_trans {last : Option Register} {r t : Register} (first : isBehind last r = true)
    (second : isBehind (some r) t = true) : isBehind last t = true := by
  have later : r.index < t.index := of_decide_eq_true second
  cases last with
  | none => rfl
  | some l =>
      have earlier : l.index < r.index := of_decide_eq_true first
      exact decide_eq_true (Nat.lt_trans earlier later)

/-- What lies behind the first of the registers that lie behind another is the rest of them. -/
theorem filter_isBehind_head (ascending : rs.Pairwise fun r t => r.index < t.index)
    {last : Option Register} {r : Register} {rest : List Register}
    (ahead : rs.filter (isBehind last) = r :: rest) : rs.filter (isBehind (some r)) = rest := by
  have ascendingAhead : (r :: rest).Pairwise fun r t => r.index < t.index := ahead ▸ ascending.filter _
  have behindLast : isBehind last r = true := by
    have member : r ∈ rs.filter (isBehind last) := ahead ▸ List.mem_cons_self ..
    exact (List.mem_filter.mp member).2
  have twice : rs.filter (isBehind (some r)) = (rs.filter (isBehind last)).filter (isBehind (some r)) := by
    rw [List.filter_filter]
    apply List.filter_congr
    intro t _
    cases behind : isBehind (some r) t with
    | false => rfl
    | true => rw [isBehind_trans behindLast behind, Bool.and_self]
  have notItself : ¬isBehind (some r) r = true := fun behind => Nat.lt_irrefl _ (of_decide_eq_true behind)
  rw [twice, ahead, List.filter_cons_of_neg notItself, List.filter_eq_self]
  intro t member
  exact decide_eq_true ((List.pairwise_cons.mp ascendingAhead).1 t member)

end Ascending

/-! ## One change -/

section Images
variable {m : Machine} {c : RegClass} {before after : Bytes} {last : Option Register} {size : Option Nat}

def differing (m : Machine) (c : RegClass) (before after : Bytes) (size : Option Nat) : List Register :=
  (m.inBank c).filter fun r => size.all (fun n => r.size == n) && decide (r.toBitSpan.Differs before after)

theorem differing_sized (m : Machine) (c : RegClass) (before after : Bytes) (size : Option Nat) :
    m.differing c before after size =
      (m.differing c before after none).filter fun r => size.all fun n => r.size == n := by
  rw [differing, differing, List.filter_filter]
  rfl

theorem firstChange_eq : m.firstChange c before after last size =
    (m.differing c before after size).find? (isBehind last) := by
  rw [firstChange, differing, List.find?_filter]
  congr 1
  funext r
  rw [Bool.and_assoc, Bool.and_comm, Bool.decide_and, Bool.decide_eq_true, Bool.decide_eq_true]

theorem ascending_inBank (reached : m.Reachable) (c : RegClass) :
    (m.inBank c).Pairwise fun r t => r.index < t.index := by
  have placed := reached.sound.placed
  rw [reached.cataloged.inBank_eq placed]
  exact placed.ascending.filter _

theorem ascending_differing (reached : m.Reachable) (c : RegClass) (before after : Bytes) (size : Option Nat) :
    (m.differing c before after size).Pairwise fun r t => r.index < t.index :=
  (ascending_inBank reached c).filter _

theorem checkImages_eq_ok_iff : m.checkImages c before after = .ok () ↔
    before.length = after.length ∧ (m.live c).length ≤ before.length := by
  by_cases sameLength : before.length = after.length
  · simp [checkImages, sameLength]
  · simp [checkImages, sameLength]

theorem nextChange_eq_ok_iff {found : Option Register} : m.nextChange c before after last size = .ok found ↔
    m.checkImages c before after = .ok () ∧ m.firstChange c before after last size = found := by
  rw [nextChange]
  cases m.checkImages c before after with
  | error e => simp [Except.map]
  | ok u => simp [Except.map]

theorem nextChange_eq_error_iff : (∃ e, m.nextChange c before after last size = .error e) ↔
    before.length ≠ after.length ∨ before.length < (m.live c).length := by
  have refused : (∃ e, m.nextChange c before after last size = .error e) ↔
      ¬m.checkImages c before after = .ok () := by
    rw [nextChange]
    cases m.checkImages c before after with
    | error e => simp [Except.map]
    | ok u => simp [Except.map]
  rw [refused, checkImages_eq_ok_iff, not_and_or, Nat.not_le]

theorem mem_differing {r : Register} : r ∈ m.differing c before after none ↔
    r ∈ m.inBank c ∧ r.toBitSpan.Differs before after := by
  rw [differing, List.mem_filter, Option.all_none, Bool.true_and, decide_eq_true_iff]

/-! ## The walk over all changes -/

/-- Asking for one change after another, each behind the one before it, gives the listed registers
and then no more. -/
inductive Walk (m : Machine) (c : RegClass) (before after : Bytes) (size : Option Nat) :
    Option Register → List Register → Prop
  | stop {last : Option Register} (nothing : m.nextChange c before after last size = .ok none) :
      Walk m c before after size last []
  | step {last : Option Register} {r : Register} {rest : List Register}
      (found : m.nextChange c before after last size = .ok (some r))
      (later : Walk m c before after size (some r) rest) : Walk m c before after size last (r :: rest)

theorem Walk.unique {ts us : List Register} (first : m.Walk c before after size last ts)
    (second : m.Walk c before after size last us) : ts = us := by
  induction first generalizing us with
  | stop nothing =>
      cases second with
      | stop => rfl
      | step found later => cases nothing.symm.trans found
  | step found later ih =>
      cases second with
      | stop nothing => cases found.symm.trans nothing
      | step foundToo laterToo =>
          cases found.symm.trans foundToo
          rw [ih laterToo]

/-- From any register the walk gives those that differ and lie behind it. -/
theorem walk_of_ahead (reached : m.Reachable) (comparable : m.checkImages c before after = .ok ())
    {ts : List Register} (ahead : (m.differing c before after size).filter (isBehind last) = ts) :
    m.Walk c before after size last ts := by
  have first : m.firstChange c before after last size = ts.head? := by
    rw [firstChange_eq, ← List.head?_filter, ahead]
  induction ts generalizing last with
  | nil => exact .stop (nextChange_eq_ok_iff.mpr ⟨comparable, first⟩)
  | cons r rest ih =>
      have aheadOfFound := filter_isBehind_head (ascending_differing reached c before after size) ahead
      refine .step (nextChange_eq_ok_iff.mpr ⟨comparable, first⟩) (ih aheadOfFound ?_)
      rw [firstChange_eq, ← List.head?_filter, aheadOfFound]

theorem walk_differing (reached : m.Reachable) (comparable : m.checkImages c before after = .ok ()) :
    m.Walk c before after size none (m.differing c before after size) :=
  walk_of_ahead reached comparable (List.filter_eq_self.mpr fun _ _ => rfl)

theorem walk_iff (reached : m.Reachable) (comparable : m.checkImages c before after = .ok ())
    {ts : List Register} :
    m.Walk c before after size none ts ↔ ts = m.differing c before after size := by
  constructor
  · exact fun walk => walk.unique (walk_differing reached comparable)
  · intro same
    rw [same]
    exact walk_differing reached comparable

/-- A limit that the walk does not reach cuts nothing off. -/
theorem changesFrom_of_walk {ts : List Register} (walk : m.Walk c before after size last ts) {limit : Nat}
    (enough : ts.length ≤ limit) : m.changesFrom c before after size limit last = ts := by
  induction walk generalizing limit with
  | stop nothing =>
      have first := (nextChange_eq_ok_iff.mp nothing).2
      cases limit with
      | zero => rfl
      | succ limit => rw [changesFrom, first]
  | step found later ih =>
      have first := (nextChange_eq_ok_iff.mp found).2
      cases limit with
      | zero => exact absurd enough (Nat.not_succ_le_zero _)
      | succ limit =>
          rw [changesFrom, first]
          exact congrArg (_ :: ·) (ih (Nat.le_of_succ_le_succ enough))

theorem changes_eq (reached : m.Reachable) (comparable : m.checkImages c before after = .ok ()) :
    m.changes c before after size = .ok (m.differing c before after size) := by
  have enough : (m.differing c before after size).length ≤ m.registers.length := by
    rw [differing, reached.cataloged.inBank_eq reached.sound.placed]
    exact (List.length_filter_le _ _).trans (List.length_filter_le _ _)
  rw [changes, comparable, changesFrom_of_walk (walk_differing reached comparable) enough]
  rfl

end Images

/-- The registers of `rs` are those of a bank that differ between two images, and every search for
changes finds just them. -/
structure FindsChanges (m : Machine) (c : RegClass) (before after : Bytes) (rs : List Register) : Prop where
  mem_iff : ∀ r, r ∈ rs ↔
    r ∈ m.inBank c ∧ ∃ i, r.offset ≤ i ∧ i < r.offset + r.size ∧ before.bit i ≠ after.bit i
  ascending : rs.Pairwise fun r t => r.index < t.index
  walk_iff : ∀ ts, m.Walk c before after none none ts ↔ ts = rs
  sizedWalk_iff : ∀ n ts, m.Walk c before after (some n) none ts ↔ ts = rs.filter fun r => r.size = n
  changes_eq : m.changes c before after none = .ok rs
  next_iff : ∀ l r, m.nextChange c before after (some l) none = .ok (some r) ↔
    (r ∈ rs ∧ l.index < r.index) ∧ ∀ t ∈ rs, l.index < t.index → r.index ≤ t.index
  end_iff : ∀ l, m.nextChange c before after (some l) none = .ok none ↔ ∀ t ∈ rs, t.index ≤ l.index

variable {m : Machine} {c : RegClass} {before after : Bytes}

theorem findsChanges_differing (reached : m.Reachable) (comparable : m.checkImages c before after = .ok ()) :
    FindsChanges m c before after (m.differing c before after none) where
  mem_iff r := by
    rw [mem_differing, BitSpan.differs_iff]
    rfl
  ascending := ascending_differing reached c before after none
  walk_iff ts := walk_iff reached comparable
  sizedWalk_iff n ts := by
    rw [walk_iff reached comparable, differing_sized]
    rfl
  changes_eq := changes_eq reached comparable
  next_iff l r := by
    rw [nextChange_eq_ok_iff, firstChange_eq, and_iff_right comparable,
      find?_eq_some_iff_least (ascending_differing reached c before after none)]
    simp only [isBehind, Option.all_some, decide_eq_true_eq]
  end_iff l := by
    rw [nextChange_eq_ok_iff, firstChange_eq, and_iff_right comparable, List.find?_eq_none]
    simp [isBehind]

theorem readBits_differ_iff {first second : Machine} {r : Register}
    (fitsFirst : r.toBitSpan.Within (first.live r.bank)) (fitsSecond : r.toBitSpan.Within (second.live r.bank))
    (sameOrder : first.config.byteOrder = second.config.byteOrder) :
    r.toBitSpan.Differs (first.live r.bank) (second.live r.bank) ↔
      ∃ v u, first.readBits r = .ok v ∧ second.readBits r = .ok u ∧ v ≠ u := by
  rw [BitSpan.differs_iff_read first.config.byteOrder, readBits_of_within fitsFirst,
    readBits_of_within fitsSecond, ← sameOrder]
  constructor
  · exact fun apart => ⟨_, _, rfl, rfl, apart⟩
  · intro values
    obtain ⟨v, u, firstValue, secondValue, apart⟩ := values
    cases firstValue
    cases secondValue
    exact apart

/-- Two images of a bank can be compared unless their lengths differ or are too small; the walk from
change to change then finds the registers with a bit that differs, each once and in order, and for
the bytes of two machines with the same registers it finds those with another value. -/
theorem walk_finds_changes (reached : m.Reachable) (c : RegClass) :
    (∀ before after last size, (∃ e, m.nextChange c before after last size = .error e) ↔
        before.length ≠ after.length ∨ before.length < (m.live c).length) ∧
      (∀ before after, before.length = after.length → (m.live c).length ≤ before.length →
        ∃ rs, FindsChanges m c before after rs) ∧
      ∀ first second : Machine, first.Reachable → second.Reachable →
        first.registers = m.registers → second.registers = m.registers →
          first.config.byteOrder = second.config.byteOrder →
            ∃ rs, m.Walk c (first.live c) (second.live c) none none rs ∧
              rs.Pairwise (fun r t => r.index < t.index) ∧
              ∀ r, r ∈ rs ↔ r ∈ m.inBank c ∧
                ∃ v u, first.readBits r = .ok v ∧ second.readBits r = .ok u ∧ v ≠ u := by
  refine ⟨fun before after last size => nextChange_eq_error_iff, ?_, ?_⟩
  · intro before after sameLength enough
    exact ⟨_, findsChanges_differing reached (checkImages_eq_ok_iff.mpr ⟨sameLength, enough⟩)⟩
  · intro first second reachedFirst reachedSecond registersFirst registersSecond sameOrder
    have length : ∀ n : Machine, n.Reachable → n.registers = m.registers →
        (n.live c).length = (m.live c).length := by
      intro n reachedN registersN
      rw [reachedN.sound.live_length, reached.sound.live_length, needed, needed, registersN]
    have lengthFirst := length first reachedFirst registersFirst
    have lengthSecond := length second reachedSecond registersSecond
    have finds := findsChanges_differing reached (c := c)
      (checkImages_eq_ok_iff.mpr ⟨lengthFirst.trans lengthSecond.symm, lengthFirst.ge⟩)
    refine ⟨_, (finds.walk_iff _).mpr rfl, finds.ascending, ?_⟩
    intro r
    rw [mem_differing]
    apply and_congr_right
    intro inBank
    obtain ⟨member, here⟩ : r ∈ m.registers ∧ r.bank = c := by
      rw [reached.cataloged.inBank_eq reached.sound.placed, List.mem_filter, decide_eq_true_iff] at inBank
      exact inBank
    subst here
    exact readBits_differ_iff (reachedFirst.sound.within (registersFirst ▸ member))
      (reachedSecond.sound.within (registersSecond ▸ member)) sameOrder

/-- The upper half of a word and a bit beside it have been written, highest byte first. -/
theorem walk_finds_changes_overlapping :
    ∃ (m n : Machine) (rs : List Register), m.Reachable ∧ n.Reachable ∧
      m.live .general = [0, 0, 0, 0, 0] ∧ n.live .general = [0, 0, 1, 0, 1] ∧
      rs.map (fun r => r.name) = ["word", "half", "bit"] ∧
      m.Walk .general (m.live .general) (n.live .general) none none rs ∧
      m.Walk .general (m.live .general) (n.live .general) (some 16) none (rs.filter fun r => r.size = 16) ∧
      ∀ r ∈ rs, ∃ v u, m.readBits r = .ok v ∧ n.readBits r = .ok u ∧ v ≠ u := by
  have reached : Reachable ((empty { byteOrder := .highFirst }).run
      [.install "gpr word 4 0 0\ngpr field .3 .5 0\nfpu x 1 0 0\ngpr half 2 2 0\ngpr bit .1 .32 0"]) :=
    ⟨_, _, rfl⟩
  obtain ⟨m, n, reachedM, reachedN, registers, order, liveM, liveN, names⟩ :
      ∃ m n : Machine, m.Reachable ∧ n.Reachable ∧ n.registers = m.registers ∧
        m.config.byteOrder = n.config.byteOrder ∧ m.live .general = [0, 0, 0, 0, 0] ∧
        n.live .general = [0, 0, 1, 0, 1] ∧
        (m.changes .general [0, 0, 0, 0, 0] [0, 0, 1, 0, 1] none).map (List.map fun r => r.name) =
          .ok ["word", "half", "bit"] :=
    ⟨_, _, reached, (reached.perform (.writeNamed "half" 0x0100)).perform (.writeNamed "bit" 1),
      by decide +kernel, by decide +kernel, by decide +kernel, by decide +kernel, by decide +kernel⟩
  obtain ⟨-, images, machines⟩ := walk_finds_changes reachedM .general
  obtain ⟨rs, finds⟩ := images (m.live .general) (n.live .general) (by rw [liveM, liveN]; rfl) (Nat.le_refl _)
  obtain ⟨ts, walk, -, values⟩ := machines m n reachedM reachedN rfl registers order
  obtain rfl := (finds.walk_iff ts).mp walk
  rw [← liveM, ← liveN, finds.changes_eq] at names
  exact ⟨m, n, ts, reachedM, reachedN, liveM, liveN, Except.ok.inj names, walk, (finds.sizedWalk_iff 16 _).mpr rfl,
    fun r member => ((values r).mp member).2⟩

end Machine
end MachineRegisters
