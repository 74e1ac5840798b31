import MachineRegisters.Proofs.RegisterLaws

/-! # The bits in which flags are stored

A flag of a sound machine is stored in certain bits of one bank: in one bit of the
status register, or in all bits of a register of its own.  It reads as set when
one of these bits is set (`readFlag_of_offers`).  Writing it clears all of them
and then, if it is to be set, sets one, its mark (`writeFlag_of_offers`).  What
flags are read after others have been written follows from the storage that they
share (`lit_put`). -/
set_option autoImplicit false
namespace MachineRegisters

abbrev BitPlace := RegClass × Nat

namespace FlagPlace

/-- The bits in which the flag is stored. -/
def storage (order : ByteOrder) : FlagPlace → List BitPlace
  | statusBit r i => [(r.bank, r.bitAt order i)]
  | whole r => (List.range r.size).map fun i => (r.bank, r.bitAt order i)

/-- The bit that alone is set when the flag is written as set. -/
def mark (order : ByteOrder) : FlagPlace → BitPlace
  | statusBit r i => (r.bank, r.bitAt order i)
  | whole r => (r.bank, r.bitAt order 0)

section Memory
variable (order : ByteOrder) (mem : BitPlace → Bool)

def lit (p : FlagPlace) : Bool := (p.storage order).any mem

/-- Some bit is set that belongs to the first flag and not to the second. -/
def litBeside (p q : FlagPlace) : Bool :=
  (p.storage order).any fun x => !(q.storage order).contains x && mem x

def marks (p q : FlagPlace) : Bool := (q.storage order).contains (p.mark order)

def put (p : FlagPlace) (b : Bool) : BitPlace → Bool := fun x =>
  if x ∈ p.storage order then b && decide (x = p.mark order) else mem x

def putAll : (BitPlace → Bool) → List (FlagPlace × Bool) → BitPlace → Bool
  | mem, [] => mem
  | mem, (p, b) :: rest => putAll (put order mem p b) rest

variable {order mem} {p q r : FlagPlace} {b : Bool}

theorem put_of_mem {x : BitPlace} (stored : x ∈ p.storage order) :
    put order mem p b x = (b && decide (x = p.mark order)) := if_pos stored

theorem put_of_notMem {x : BitPlace} (apart : x ∉ p.storage order) :
    put order mem p b x = mem x := if_neg apart

theorem lit_iff : lit order mem p = true ↔ ∃ x ∈ p.storage order, mem x = true := by
  rw [lit, List.any_eq_true]

theorem litBeside_iff :
    litBeside order mem p q = true ↔
      ∃ x, (x ∈ p.storage order ∧ x ∉ q.storage order) ∧ mem x = true := by
  simp [litBeside, and_assoc]

theorem marks_iff : marks order p q = true ↔ p.mark order ∈ q.storage order := by
  simp [marks]

theorem marks_eq_false_iff : marks order p q = false ↔ p.mark order ∉ q.storage order := by
  rw [← Bool.not_eq_true, marks_iff]

theorem clear_of_dark (dark : lit order mem p = false) {x : BitPlace} (stored : x ∈ p.storage order) :
    mem x = false := by
  by_contra set
  rw [Bool.not_eq_false] at set
  cases dark.symm.trans (lit_iff.mpr ⟨x, stored, set⟩)

theorem litBeside_self : litBeside order mem p p = false := by
  rw [← Bool.not_eq_true, litBeside_iff]
  rintro ⟨x, ⟨stored, apart⟩, -⟩
  exact apart stored

theorem litBeside_of_unshared
    (unshared : ∀ x ∈ p.storage order, x ∈ q.storage order → mem x = false) :
    litBeside order mem p q = lit order mem p := by
  rw [Bool.eq_iff_iff, litBeside_iff, lit_iff]
  constructor
  · rintro ⟨x, ⟨stored, -⟩, set⟩
    exact ⟨x, stored, set⟩
  · rintro ⟨x, stored, set⟩
    refine ⟨x, ⟨stored, ?_⟩, set⟩
    intro shared
    cases set.symm.trans (unshared x stored shared)

theorem litBeside_of_dark (dark : lit order mem q = false) :
    litBeside order mem p q = lit order mem p :=
  litBeside_of_unshared fun _ _ shared => clear_of_dark dark shared

theorem litBeside_of_dark_left (dark : lit order mem p = false) : litBeside order mem p q = false := by
  rw [litBeside_of_unshared fun _ stored _ => clear_of_dark dark stored, dark]

/-! ### After one flag has been written -/

theorem exists_put {among : BitPlace → Prop} (marked : marks order p p = true) :
    (∃ x, among x ∧ put order mem p b x = true) ↔
      (b = true ∧ among (p.mark order)) ∨ ∃ x, (among x ∧ x ∉ p.storage order) ∧ mem x = true := by
  constructor
  · rintro ⟨x, one, set⟩
    by_cases stored : x ∈ p.storage order
    · rw [put_of_mem stored, Bool.and_eq_true, decide_eq_true_eq] at set
      exact .inl ⟨set.1, set.2 ▸ one⟩
    · rw [put_of_notMem stored] at set
      exact .inr ⟨x, ⟨one, stored⟩, set⟩
  · rintro (⟨rfl, one⟩ | ⟨x, ⟨one, elsewhere⟩, set⟩)
    · refine ⟨p.mark order, one, ?_⟩
      rw [put_of_mem (marks_iff.mp marked), decide_eq_true rfl, Bool.and_true]
    · refine ⟨x, one, ?_⟩
      rw [put_of_notMem elsewhere]
      exact set

theorem lit_put (marked : marks order p p = true) :
    lit order (put order mem p b) q = (b && marks order p q || litBeside order mem q p) := by
  rw [Bool.eq_iff_iff, Bool.or_eq_true, Bool.and_eq_true, lit_iff, litBeside_iff, marks_iff]
  exact exists_put marked

theorem lit_put_self (marked : marks order p p = true) : lit order (put order mem p b) p = b := by
  rw [lit_put marked, marked, litBeside_self, Bool.and_true, Bool.or_false]

theorem lit_put_clear_of_dark (marked : marks order p p = true) (dark : lit order mem q = false) :
    lit order (put order mem p false) q = false := by
  rw [lit_put marked, Bool.false_and, Bool.false_or, litBeside_of_dark_left dark]

theorem litBeside_put_of_dark (marked : marks order p p = true) (dark : lit order mem p = false) :
    litBeside order (put order mem p b) q r =
      (b && (marks order p q && !marks order p r) || litBeside order mem q r) := by
  rw [Bool.eq_iff_iff, litBeside_iff, exists_put marked, Bool.or_eq_true, Bool.and_eq_true,
    Bool.and_eq_true, marks_iff, Bool.not_eq_true', marks_eq_false_iff, litBeside_iff]
  apply or_congr_right
  constructor
  · rintro ⟨x, ⟨one, -⟩, set⟩
    exact ⟨x, one, set⟩
  · rintro ⟨x, one, set⟩
    refine ⟨x, ⟨one, ?_⟩, set⟩
    intro stored
    cases set.symm.trans (clear_of_dark dark stored)

end Memory
end FlagPlace

namespace Machine
open FlagPlace

def bit (m : Machine) (x : BitPlace) : Bool := (m.live x.1).bit x.2

/-- The place lies in a register of the machine that a word can hold. -/
def Offers (m : Machine) : FlagPlace → Prop
  | .statusBit r i => r ∈ m.registers ∧ r.size ≤ 64 ∧ i < r.size
  | .whole r => r ∈ m.registers ∧ r.size ≤ 64

theorem mem_of_named {m : Machine} {name : String} {r : Register} (found : m.named name = some r) :
    r ∈ m.registers := by
  obtain ⟨n, -, atN⟩ := Option.bind_eq_some_iff.mp found
  exact List.mem_of_getElem? atN

theorem mem_of_playing {m : Machine} {role : Role} {r : Register} (found : m.playing role = some r) :
    r ∈ m.registers := by
  obtain ⟨name, -, named⟩ := Option.bind_eq_some_iff.mp found
  exact mem_of_named named

theorem mem_of_find {m : Machine} {name : String} {r : Register} (found : m.find name = some r) :
    r ∈ m.registers := by
  rcases Option.or_eq_some_iff.mp found with named | ⟨-, byRole⟩
  · exact mem_of_named named
  · obtain ⟨role, -, playing⟩ := Option.bind_eq_some_iff.mp byRole
    exact mem_of_playing playing

theorem offers_of_statusBitFor {m : Machine} {f : Flag} {p : FlagPlace}
    (found : m.statusBitFor f = some p) : m.Offers p := by
  unfold statusBitFor at found
  split at found
  · cases found
  · rename_i r status
    obtain ⟨i, marked, rfl⟩ := Option.map_eq_some_iff.mp found
    obtain ⟨playing, narrow⟩ := Option.filter_eq_some_iff.mp status
    obtain ⟨-, inside⟩ := Option.filter_eq_some_iff.mp marked
    exact ⟨mem_of_playing playing, of_decide_eq_true narrow, of_decide_eq_true inside⟩

theorem offers_of_locate {m : Machine} {f : Flag} {p : FlagPlace} (found : m.locate f = some p) :
    m.Offers p := by
  rcases Option.or_eq_some_iff.mp found with status | ⟨-, alone⟩
  · exact offers_of_statusBitFor status
  · obtain ⟨r, held, rfl⟩ := Option.map_eq_some_iff.mp alone
    obtain ⟨either, narrow⟩ := Option.filter_eq_some_iff.mp held
    refine ⟨?_, of_decide_eq_true narrow⟩
    rcases Option.or_eq_some_iff.mp either with byRole | ⟨-, byName⟩
    · obtain ⟨role, -, playing⟩ := Option.bind_eq_some_iff.mp byRole
      exact mem_of_playing playing
    · exact mem_of_find byName

/-- Where flags are found depends on nothing that writing changes. -/
theorem Rewritten.locate_eq {m after : Machine} (only : Rewritten m after) (f : Flag) :
    after.locate f = m.locate f := by
  rw [only.frame]
  rfl

theorem Rewritten.offers {m after : Machine} (only : Rewritten m after) {p : FlagPlace}
    (offered : m.Offers p) : after.Offers p := by
  cases p with
  | statusBit r i => exact ⟨only.registers_eq ▸ offered.1, offered.2⟩
  | whole r => exact ⟨only.registers_eq ▸ offered.1, offered.2⟩

section Offered
variable {m : Machine} {p : FlagPlace}

theorem register_mem_of_offers (offered : m.Offers p) : p.register ∈ m.registers := by
  cases p with
  | statusBit r i => exact offered.1
  | whole r => exact offered.1

theorem narrow_of_offers (offered : m.Offers p) : p.register.size ≤ 64 := by
  cases p with
  | statusBit r i => exact offered.2.1
  | whole r => exact offered.2

theorem marks_self_of_offers (sound : m.Sound) (offered : m.Offers p) (order : ByteOrder) :
    marks order p p = true := by
  rw [marks_iff]
  cases p with
  | statusBit r i => exact List.mem_singleton.mpr rfl
  | whole r =>
      have wide := sound.placed.size_pos r offered.1
      exact List.mem_map.mpr ⟨0, List.mem_range.mpr wide, rfl⟩

theorem readWord_of_mem (sound : m.Sound) {r : Register} (member : r ∈ m.registers)
    (narrow : r.size ≤ 64) :
    ∃ v, m.readWord r = .ok v ∧
      ∀ i, v.getLsbD i = (decide (i < r.size) && m.bit (r.bank, r.bitAt m.config.byteOrder i)) := by
  have fits := sound.within member
  refine ⟨(r.toBitSpan.read m.config.byteOrder (m.live r.bank)).setWidth 64, ?_, ?_⟩
  · rw [readWord_eq narrow, readBits_of_within fits]
    rfl
  · intro i
    rw [BitVec.getLsbD_setWidth]
    by_cases inside : i < r.size
    · rw [BitSpan.getLsbD_read _ _ _ inside, decide_eq_true inside,
        decide_eq_true (Nat.lt_of_lt_of_le inside narrow)]
      rfl
    · rw [BitVec.getLsbD_of_ge _ _ (Nat.le_of_not_lt inside), decide_eq_false inside, Bool.and_false,
        Bool.false_and]

theorem ne_zero_iff_getLsbD (v : Word) : v ≠ 0 ↔ ∃ i, v.getLsbD i = true := by
  constructor
  · intro nonzero
    by_contra dark
    apply nonzero
    apply BitVec.eq_of_getLsbD_eq
    intro i _
    have clear : v.getLsbD i = false := Bool.eq_false_iff.mpr fun set => dark ⟨i, set⟩
    exact clear.trans BitVec.getLsbD_zero.symm
  · rintro ⟨i, set⟩ rfl
    cases set.symm.trans BitVec.getLsbD_zero

theorem readFlag_of_offers (sound : m.Sound) (offered : m.Offers p) :
    m.readFlag p = .ok (lit m.config.byteOrder m.bit p) := by
  obtain ⟨v, read, bits⟩ := readWord_of_mem sound (register_mem_of_offers offered) (narrow_of_offers offered)
  rw [readFlag, read]
  refine congrArg Except.ok ?_
  cases p with
  | statusBit r i =>
      have inside : i < r.size := offered.2.2
      have value := bits i
      rw [show (statusBit r i).register = r from rfl, decide_eq_true inside, Bool.true_and] at value
      rw [isSet, value, lit, storage, List.any_cons, List.any_nil, Bool.or_false]
  | whole r =>
      rw [isSet, Bool.eq_iff_iff, decide_eq_true_eq, ne_zero_iff_getLsbD, lit_iff]
      constructor
      · rintro ⟨i, set⟩
        rw [bits i, Bool.and_eq_true, decide_eq_true_eq] at set
        exact ⟨_, List.mem_map.mpr ⟨i, List.mem_range.mpr set.1, rfl⟩, set.2⟩
      · rintro ⟨x, stored, set⟩
        obtain ⟨i, inside, rfl⟩ := List.mem_map.mp stored
        refine ⟨i, ?_⟩
        rw [bits i, Bool.and_eq_true, decide_eq_true_eq]
        exact ⟨List.mem_range.mp inside, set⟩

/-! ## Writing one flag -/

theorem bit_stored_bitAt {r : Register} (fits : r.toBitSpan.Within (m.live r.bank)) (v : BitVec r.size)
    {i : Nat} (inside : i < r.size) :
    (m.stored r v).bit (r.bank, r.bitAt m.config.byteOrder i) = v.getLsbD i := by
  rw [bit, live_stored]
  exact BitSpan.bit_write_bitAt _ v fits inside

theorem bit_stored_of_apart {r : Register} (fits : r.toBitSpan.Within (m.live r.bank))
    (v : BitVec r.size) {x : BitPlace} (apart : x ∉ (whole r).storage m.config.byteOrder) :
    (m.stored r v).bit x = m.bit x := by
  obtain ⟨c, j⟩ := x
  have only := changedOnlyIn_stored fits v
  by_cases here : c = r.bank
  · subst here
    apply only.outside
    intro within
    obtain ⟨i, inside, rfl⟩ := r.toBitSpan.exists_bitAt m.config.byteOrder within.1 within.2
    exact apart (List.mem_map.mpr ⟨i, List.mem_range.mpr inside, rfl⟩)
  · rw [bit, bit, live, live, only.otherBanks c here]

theorem bit_stored_setBit (sound : m.Sound) {r : Register} {i : Nat} (offered : m.Offers (.statusBit r i))
    {v : Word} (read : m.readWord r = .ok v) (b : Bool) :
    (m.stored r ((Bits.setBit v i b).setWidth r.size)).bit =
      put m.config.byteOrder m.bit (.statusBit r i) b := by
  obtain ⟨member, narrow, inside⟩ := offered
  have fits := sound.within member
  obtain ⟨u, readToo, bits⟩ := readWord_of_mem sound member narrow
  obtain rfl : v = u := Except.ok.inj (read.symm.trans readToo)
  funext x
  by_cases stored : x ∈ (whole r).storage m.config.byteOrder
  · obtain ⟨k, ranged, rfl⟩ := List.mem_map.mp stored
    have insideK : k < r.size := List.mem_range.mp ranged
    have wordK : k < 64 := Nat.lt_of_lt_of_le insideK narrow
    rw [bit_stored_bitAt fits _ insideK, BitVec.getLsbD_setWidth, decide_eq_true insideK, Bool.true_and,
      Bits.getLsbD_setBit]
    by_cases here : k = i
    · subst here
      rw [put_of_mem (List.mem_singleton.mpr rfl), if_pos ⟨rfl, wordK⟩]
      exact (Bool.and_true b).symm.trans (congrArg (b && ·) (decide_eq_true rfl).symm)
    · have apart : (r.bank, r.bitAt m.config.byteOrder k) ≠ (r.bank, r.bitAt m.config.byteOrder i) :=
        fun same => here (r.toBitSpan.bitAt_inj _ insideK inside (congrArg Prod.snd same))
      rw [if_neg (fun both => here both.1.symm), bits k, decide_eq_true insideK, Bool.true_and,
        put_of_notMem (fun both => apart (List.mem_singleton.mp both))]
  · have apart : x ≠ (r.bank, r.bitAt m.config.byteOrder i) := by
      rintro rfl
      exact stored (List.mem_map.mpr ⟨i, List.mem_range.mpr inside, rfl⟩)
    rw [bit_stored_of_apart fits _ stored, put_of_notMem (fun both => apart (List.mem_singleton.mp both))]

/-- Zero or one written to a register clears all its bits but perhaps the first. -/
theorem bit_stored_truth (sound : m.Sound) {r : Register} (offered : m.Offers (.whole r)) (b : Bool) :
    (m.stored r ((if b then (1 : Word) else 0).setWidth r.size)).bit =
      put m.config.byteOrder m.bit (.whole r) b := by
  obtain ⟨member, narrow⟩ := offered
  have fits := sound.within member
  have wide := sound.placed.size_pos r member
  funext x
  by_cases stored : x ∈ (whole r).storage m.config.byteOrder
  · rw [put_of_mem stored]
    obtain ⟨k, ranged, rfl⟩ := List.mem_map.mp stored
    have insideK : k < r.size := List.mem_range.mp ranged
    rw [bit_stored_bitAt fits _ insideK, BitVec.getLsbD_setWidth, decide_eq_true insideK, Bool.true_and]
    by_cases first : k = 0
    · subst first
      cases b <;> simp [mark]
    · have apart : (r.bank, r.bitAt m.config.byteOrder k) ≠ (whole r).mark m.config.byteOrder :=
        fun same => first (r.toBitSpan.bitAt_inj _ insideK wide (congrArg Prod.snd same))
      rw [decide_eq_false apart, Bool.and_false]
      cases b with
      | false => exact BitVec.getLsbD_zero
      | true => simp [BitVec.getLsbD_one, first]
  · rw [bit_stored_of_apart fits _ stored, put_of_notMem stored]

theorem writeFlag_of_offers (sound : m.Sound) (offered : m.Offers p)
    (writable : m.isReadOnly p.register.name = false) (b : Bool) :
    ∃ after, m.writeFlag p b = .done () after ∧ after.bit = put m.config.byteOrder m.bit p b := by
  cases p with
  | statusBit r i =>
      obtain ⟨v, read, -⟩ := readWord_of_mem sound offered.1 offered.2.1
      refine ⟨_, ?_, bit_stored_setBit sound offered read b⟩
      simp only [writeFlag]
      rw [read]
      exact writeWord_of_writable (sound.within offered.1) writable offered.2.1 _
  | whole r =>
      exact ⟨_, writeWord_of_writable (sound.within offered.1) writable offered.2 _,
        bit_stored_truth sound offered b⟩

/-! ## Writing several flags -/

theorem Rewritten.isReadOnly_eq {m after : Machine} (only : Rewritten m after) (name : String) :
    after.isReadOnly name = m.isReadOnly name := by
  rw [isReadOnly, only.readOnly_eq, isReadOnly]

theorem writeFlagsInOrder_of_offers {m : Machine} (sound : m.Sound) {writes : List (FlagPlace × Bool)}
    (offered : ∀ w ∈ writes, m.Offers w.1)
    (writable : ∀ w ∈ writes, m.isReadOnly w.1.register.name = false) :
    ∃ after, m.writeFlagsInOrder writes = .done () after ∧
      after.bit = putAll m.config.byteOrder m.bit writes := by
  induction writes generalizing m with
  | nil => exact ⟨m, rfl, rfl⟩
  | cons write rest ih =>
      obtain ⟨p, b⟩ := write
      obtain ⟨middle, first, bits⟩ := writeFlag_of_offers sound (offered _ (List.mem_cons_self ..))
        (writable _ (List.mem_cons_self ..)) b
      have only : Rewritten m middle := by
        have rewritten := writeFlag_rewritten m p b
        rw [first] at rewritten
        exact rewritten
      obtain ⟨after, later, laterBits⟩ := ih (sound.rewritten only)
        (fun w member => only.offers (offered w (List.mem_cons_of_mem _ member)))
        (fun w member => (only.isReadOnly_eq _).trans (writable w (List.mem_cons_of_mem _ member)))
      refine ⟨after, ?_, ?_⟩
      · rw [writeFlagsInOrder, first]
        exact later
      · rw [laterBits, bits, only.config_eq]
        rfl

end Offered
end Machine
end MachineRegisters
