import MachineRegisters.Profile.DebuggerRows
import MachineRegisters.Proofs.Pieces

/-! # What numerals denote

A row of decimal digits is read as the number that it denotes, and nothing else is read
(`digits?_ten_eq_some_iff`).  The numbers in a debugger's table are such rows with at most
one plus in front of them, below 32 bits (`DebuggerRow.readNumber?_eq_some_iff`). -/
set_option autoImplicit false
namespace MachineRegisters
namespace Text

structure IsDecimal (cs : List Char) (n : Nat) : Prop where
  ne_nil : cs ≠ []
  digits : ∀ c ∈ cs, c.isDigit = true
  value : Nat.ofDigitChars 10 cs 0 = n

structure IsNumber32 (cs : List Char) (n : Nat) : Prop where
  digits : ∃ row, IsDecimal row n ∧ (cs = row ∨ cs = '+' :: row)
  small : n < UInt32.size

theorem isDigit_of_range {c : Char} (range : '0' ≤ c ∧ c ≤ '9') : c.isDigit = true := by
  have low : '0'.val ≤ c.val := range.1
  have high : c.val ≤ '9'.val := range.2
  simpa [Char.isDigit] using And.intro low high

/-- In base ten the letters are no digits. -/
theorem digitOf?_ten_eq_some_iff {c : Char} {d : Nat} :
    digitOf? 10 c = some d ↔ c.isDigit = true ∧ d = c.toNat - '0'.toNat := by
  constructor
  · intro read
    obtain ⟨value, small⟩ := Option.filter_eq_some_iff.mp read
    have small : d < 10 := of_decide_eq_true small
    rw [digitValue?] at value
    split at value
    · rename_i range
      exact ⟨isDigit_of_range range, (Option.some.inj value).symm⟩
    · split at value
      · cases value
        omega
      · split at value
        · cases value
          omega
        · cases value
  · rintro ⟨digit, rfl⟩
    exact digitOf?_of_isDigit digit

theorem digitsFrom?_ten_eq_some_iff {cs : List Char} {soFar n : Nat} :
    digitsFrom? 10 soFar cs = some n ↔
      (∀ c ∈ cs, c.isDigit = true) ∧ Nat.ofDigitChars 10 cs soFar = n := by
  constructor
  · intro read
    have digits : ∀ c ∈ cs, c.isDigit = true := by
      induction cs generalizing soFar with
      | nil => simp
      | cons c rest ih =>
          obtain ⟨d, first, others⟩ := Option.bind_eq_some_iff.mp read
          intro e member
          rcases List.mem_cons.mp member with rfl | later
          · exact (digitOf?_ten_eq_some_iff.mp first).1
          · exact ih others e later
    refine ⟨digits, ?_⟩
    rw [digitsFrom?_of_isDigit digits] at read
    exact Option.some.inj read
  · rintro ⟨digits, rfl⟩
    exact digitsFrom?_of_isDigit digits soFar

theorem digits?_ten_eq_some_iff {cs : List Char} {n : Nat} : digits? 10 cs = some n ↔ IsDecimal cs n := by
  rw [digits?]
  split
  · rename_i empty
    simp only [reduceCtorEq, false_iff]
    exact fun decimal => decimal.ne_nil empty
  · rename_i nonempty
    rw [digitsFrom?_ten_eq_some_iff]
    constructor
    · rintro ⟨digits, value⟩
      exact ⟨nonempty, digits, value⟩
    · exact fun decimal => ⟨decimal.digits, decimal.value⟩

/-- A plus is read in front of digits and is no digit itself. -/
theorem plusDigits?_eq_some_iff {base : Nat} {cs : List Char} {n : Nat} :
    plusDigits? base cs = some n ↔ ∃ row, digits? base row = some n ∧ (cs = row ∨ cs = '+' :: row) := by
  have noDigit : digitValue? '+' = none := by decide
  have notPlus : ∀ row, digits? base ('+' :: row) = none := by
    intro row
    rw [digits?, if_neg (List.cons_ne_nil _ _), digitsFrom?, digitOf?, noDigit, Option.filter_none, Option.bind_none]
  unfold plusDigits?
  split
  · rename_i row
    constructor
    · exact fun read => ⟨row, read, .inr rfl⟩
    · rintro ⟨other, read, rfl | same⟩
      · exact absurd read (by simp [notPlus])
      · cases same
        exact read
  · rename_i noPlus
    constructor
    · exact fun read => ⟨cs, read, .inl rfl⟩
    · rintro ⟨row, read, rfl | same⟩
      · exact read
      · exact absurd same (noPlus row)

end Text

open Text

theorem DebuggerRow.readNumber?_eq_some_iff {cs : List Char} {n : Nat} :
    readNumber? cs = some n ↔ IsNumber32 cs n := by
  rw [readNumber?, Option.bind_eq_some_iff]
  simp only [plusDigits?_eq_some_iff, digits?_ten_eq_some_iff, fits32_eq_some_iff]
  constructor
  · rintro ⟨_, digits, rfl, small⟩
    exact ⟨digits, small⟩
  · rintro ⟨digits, small⟩
    exact ⟨n, digits, rfl, small⟩

end MachineRegisters
