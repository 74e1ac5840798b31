import MachineRegisters.Proofs.SpanBits
import MachineRegisters.Text.Numeral

/-! # Steps with a precondition

The functions of a machine are total, but a program that carries them out is made of
steps that are not: an index or a slice has to lie inside its list, bytes can be copied
only over as many others, a sum of offsets and sizes has to be a number of 32 bits, and
a bit mask exists only for a bit that the word has.  Here each such step gives nothing
where its precondition does not hold.  The modules beside this one write every function
of a machine once more out of these steps and prove that it gives just what the total
function gives, so that no step of it is ever taken outside its precondition. -/
set_option autoImplicit false
namespace MachineRegisters.Stepwise

/-- The sum of two numbers of 32 bits, if it is a number of 32 bits too. -/
def sum (a b : Nat) : Option Nat := Text.fits32 (a + b)

def quotient (a b : Nat) : Option Nat := if b = 0 then none else some (a / b)

/-- The word with bit `i` set and no other, if a word of `w` bits has that bit. -/
def bitMask (w i : Nat) : Option (BitVec w) := if i < w then some (BitVec.twoPow w i) else none

theorem sum_eq {a b : Nat} (small : a + b < UInt32.size) : sum a b = some (a + b) :=
  if_pos small

theorem quotient_eq {a b : Nat} (nonzero : b ≠ 0) : quotient a b = some (a / b) :=
  if_neg nonzero

theorem bitMask_eq {w i : Nat} (inside : i < w) : bitMask w i = some (BitVec.twoPow w i) :=
  if_pos inside

section Words
variable {w : Nat}

def tested (v : BitVec w) (i : Nat) : Option Bool := do
  let mask ← bitMask w i
  return v &&& mask != 0

def switched (v : BitVec w) (i : Nat) (on : Bool) : Option (BitVec w) := do
  let mask ← bitMask w i
  return if on then v ||| mask else v &&& ~~~mask

def before (v : BitVec w) : Option (BitVec w) := if v = 0 then none else some (v - 1)

theorem twoPow_ne_zero {i : Nat} (inside : i < w) : BitVec.twoPow w i ≠ 0 := by
  intro zero
  have bit := congrArg (fun v => v.getLsbD i) zero
  simp [inside] at bit

theorem tested_eq (v : BitVec w) {i : Nat} (inside : i < w) : tested v i = some (v.getLsbD i) := by
  have masked : (v &&& BitVec.twoPow w i != 0) = v.getLsbD i := by
    rw [BitVec.and_twoPow]
    cases v.getLsbD i with
    | false => simp
    | true => simpa using twoPow_ne_zero inside
  simp only [tested, bitMask_eq inside, Option.bind_eq_bind, Option.bind_some, Option.pure_def, masked]

theorem switched_eq (v : BitVec w) {i : Nat} (inside : i < w) (on : Bool) :
    switched v i on = some (Bits.setBit v i on) := by
  simp only [switched, bitMask_eq inside, Option.bind_eq_bind, Option.bind_some, Option.pure_def,
    Bits.setBit, if_neg (Nat.not_le_of_lt inside)]

theorem before_eq {v : BitVec w} (nonzero : v ≠ 0) : before v = some (v - 1) :=
  if_neg nonzero

end Words

section Lists
variable {α β : Type}

def piece (xs : List α) (start stop : Nat) : Option (List α) :=
  if start ≤ stop ∧ stop ≤ xs.length then some ((xs.drop start).take (stop - start)) else none

/-- The list with the entries from `start` up to `stop` replaced by as many others. -/
def copied (source xs : List α) (start stop : Nat) : Option (List α) :=
  if start ≤ stop ∧ stop ≤ xs.length ∧ source.length = stop - start then
    some (xs.take start ++ source ++ xs.drop stop)
  else none

def assigned (xs : List α) (i : Nat) (x : α) : Option (List α) :=
  if i < xs.length then some (xs.set i x) else none

theorem piece_eq {xs : List α} {start stop : Nat} (ordered : start ≤ stop) (inside : stop ≤ xs.length) :
    piece xs start stop = some ((xs.drop start).take (stop - start)) :=
  if_pos ⟨ordered, inside⟩

theorem piece_zero {xs : List α} {n : Nat} (inside : n ≤ xs.length) : piece xs 0 n = some (xs.take n) :=
  piece_eq (Nat.zero_le n) inside

theorem copied_eq {source xs : List α} {start stop : Nat} (inside : stop ≤ xs.length)
    (length : start + source.length = stop) :
    copied source xs start stop = some (xs.take start ++ source ++ xs.drop stop) :=
  if_pos ⟨by omega, inside, by omega⟩

theorem copied_zero {source xs : List α} (inside : source.length ≤ xs.length) :
    copied source xs 0 source.length = some (source ++ xs.drop source.length) :=
  copied_eq inside (Nat.zero_add _)

theorem assigned_eq {xs : List α} {i : Nat} (inside : i < xs.length) (x : α) :
    assigned xs i x = some (xs.set i x) :=
  if_pos inside

/-! A walk over a list gives a result if each of its steps does. -/

theorem mapM_eq {xs : List α} {f : α → Option β} {g : α → β} (each : ∀ x ∈ xs, f x = some (g x)) :
    xs.mapM f = some (xs.map g) := by
  induction xs with
  | nil => rfl
  | cons x rest ih =>
      rw [List.forall_mem_cons] at each
      rw [List.mapM_cons, each.1, ih each.2]
      rfl

theorem anyM_eq {xs : List α} {f : α → Option Bool} {g : α → Bool} (each : ∀ x ∈ xs, f x = some (g x)) :
    xs.anyM f = some (xs.any g) := by
  induction xs with
  | nil => rfl
  | cons x rest ih =>
      rw [List.forall_mem_cons] at each
      rw [List.anyM_cons, each.1, ih each.2, List.any_cons]
      cases g x <;> rfl

theorem findM?_eq {xs : List α} {f : α → Option Bool} {g : α → Bool} (each : ∀ x ∈ xs, f x = some (g x)) :
    xs.findM? f = some (xs.find? g) := by
  induction xs with
  | nil => rfl
  | cons x rest ih =>
      rw [List.forall_mem_cons] at each
      simp only [List.findM?, each.1, ih each.2, List.find?_cons, Option.bind_eq_bind, Option.bind_some]
      cases g x <;> rfl

theorem filterM_eq {xs : List α} {f : α → Option Bool} {g : α → Bool} (each : ∀ x ∈ xs, f x = some (g x)) :
    xs.filterM f = some (xs.filter g) := by
  -- The library keeps what it has found in reverse, so the induction is over any such start.
  have fromFound : ∀ found : List α, xs.filterAuxM f found = some ((xs.filter g).reverse ++ found) := by
    induction xs with
    | nil => exact fun found => rfl
    | cons x rest ih =>
        rw [List.forall_mem_cons] at each
        intro found
        simp only [List.filterAuxM, each.1, Option.bind_eq_bind, Option.bind_some]
        cases here : g x <;> simp [ih each.2, here]
  simp [List.filterM, fromFound]

end Lists

section Bytes
variable {bs : Bytes} {i : Nat}

/-- The byte string brought to a length of `n`: its front copied over `n` zeros. -/
def sized (n : Nat) (bs : Bytes) : Option Bytes := do
  let front ← piece bs 0 (min bs.length n)
  copied front (Bytes.zeros n) 0 (min bs.length n)

def readBit (bs : Bytes) (i : Nat) : Option Bool := do
  let b ← bs[i / 8]?
  tested b.toBitVec (i % 8)

def writeBit (bs : Bytes) (i : Nat) (on : Bool) : Option Bytes := do
  let b ← bs[i / 8]?
  let changed ← switched b.toBitVec (i % 8) on
  return bs.set (i / 8) ⟨changed⟩

theorem sized_eq (n : Nat) (bs : Bytes) : sized n bs = some (Bytes.resize n bs) := by
  have front : bs.take (min bs.length n) = bs.take n := by
    rw [Nat.min_comm, ← List.take_take, List.take_length]
  have length : (bs.take n).length = min bs.length n := by
    rw [List.length_take, Nat.min_comm]
  have behind : (Bytes.zeros n).drop (min bs.length n) = Bytes.zeros (n - bs.length) := by
    rw [Bytes.zeros, List.drop_replicate, Bytes.zeros]
    congr 1
    omega
  have inside : (bs.take n).length ≤ (Bytes.zeros n).length := by
    rw [length, Bytes.zeros, List.length_replicate]
    exact Nat.min_le_right _ _
  have copies := copied_zero inside
  rw [length, behind] at copies
  rw [sized, piece_zero (Nat.min_le_left _ _), front]
  exact copies

theorem bit_of_byte {j : Nat} (byte : i < bs.length) (inByte : j / 8 = i) :
    bs.bit j = bs[i].toBitVec.getLsbD (j % 8) := by
  rw [Bytes.bit, List.getD_eq_getElem?_getD, inByte, List.getElem?_eq_getElem byte]
  rfl

theorem bit_set {b : UInt8} {k : Nat} (inside : k < bs.length) (j : Nat) :
    Bytes.bit (bs.set k b) j = if j / 8 = k then b.toBitVec.getLsbD (j % 8) else bs.bit j := by
  rw [Bytes.bit, Bytes.bit, List.getD_eq_getElem?_getD, List.getD_eq_getElem?_getD, List.getElem?_set]
  by_cases here : k = j / 8
  · rw [if_pos here, if_pos inside, if_pos here.symm]
    rfl
  · rw [if_neg here, if_neg (Ne.symm here)]

theorem readBit_eq (inside : i < 8 * bs.length) : readBit bs i = some (bs.bit i) := by
  have byte : i / 8 < bs.length := by omega
  rw [readBit, List.getElem?_eq_getElem byte, bit_of_byte byte rfl]
  exact tested_eq _ (Nat.mod_lt _ (by decide))

theorem writeBit_eq (inside : i < 8 * bs.length) (on : Bool) :
    ∃ out, writeBit bs i on = some out ∧ out.length = bs.length ∧
      ∀ j, out.bit j = if j = i then on else bs.bit j := by
  have byte : i / 8 < bs.length := by omega
  have small : i % 8 < 8 := Nat.mod_lt _ (by decide)
  refine ⟨bs.set (i / 8) ⟨Bits.setBit bs[i / 8].toBitVec (i % 8) on⟩, ?_, List.length_set, ?_⟩
  · rw [writeBit, List.getElem?_eq_getElem byte]
    simp only [Option.bind_eq_bind, Option.bind_some, switched_eq _ small, Option.pure_def]
  · intro j
    rw [bit_set byte, Bits.getLsbD_setBit]
    by_cases sameByte : j / 8 = i / 8
    · rw [if_pos sameByte, ← bit_of_byte byte sameByte]
      by_cases same : j = i
      · rw [if_pos same, if_pos ⟨by rw [same], Nat.mod_lt _ (by decide)⟩]
      · rw [if_neg same, if_neg (by omega)]
    · have apart : j ≠ i := fun same => sameByte (by rw [same])
      rw [if_neg sameByte, if_neg apart]

end Bytes
end MachineRegisters.Stepwise
