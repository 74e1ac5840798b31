import MachineRegisters.Proofs.Stepwise.Steps
import MachineRegisters.Text.Hex

/-! # Hexadecimal texts, step by step

The digits of a text are cut into pieces of two bytes of UTF-8, and a piece has to begin
and end between characters.  By then every character is known to be a digit, so it is one
byte long and the pieces are the pairs of digits (`readHex_eq`). -/
set_option autoImplicit false
namespace MachineRegisters.Stepwise
open Text

def utf8Length : List Char → Nat
  | [] => 0
  | c :: rest => c.utf8Size + utf8Length rest

/-- The text behind its first `n` bytes, if a character ends there. -/
def dropUtf8 : Nat → List Char → Option (List Char)
  | 0, cs => some cs
  | _ + 1, [] => none
  | n + 1, c :: rest => if c.utf8Size ≤ n + 1 then dropUtf8 (n + 1 - c.utf8Size) rest else none

def takeUtf8 : Nat → List Char → Option (List Char)
  | 0, _ => some []
  | _ + 1, [] => none
  | n + 1, c :: rest =>
      if c.utf8Size ≤ n + 1 then (takeUtf8 (n + 1 - c.utf8Size) rest).map (c :: ·) else none

def textPiece (cs : List Char) (start stop : Nat) : Option (List Char) :=
  if start ≤ stop then do
    let rest ← dropUtf8 start cs
    takeUtf8 (stop - start) rest
  else none

/-- The byte that two digits write.  Other texts write none. -/
def hexByte (cs : List Char) : Option UInt8 := ((plusDigits? 16 cs).filter (· < 256)).map UInt8.ofNat

def byteAt (cs : List Char) (i : Nat) : Option UInt8 := do
  let digits ← textPiece cs i (i + 2)
  hexByte digits

def readHex (cs : List Char) : Option (Except LineFault Bytes) :=
  let digits := (dropBaseMarks (trim cs)).filter fun c => !isBlank c
  match digits.find? fun c => (digitValue? c).isNone with
  | some bad => some (.error (.badHexDigit bad))
  | none =>
      if utf8Length digits % 2 ≠ 0 then some (.error .oddHexDigits)
      else do
        let bytes ← (List.range (utf8Length digits / 2)).mapM fun k => byteAt digits (2 * k)
        return .ok bytes

def digitValue (c : Char) : Nat := (digitValue? c).getD 0

theorem digit_bounds {c : Char} {d : Nat} (digit : digitValue? c = some d) : c.toNat < 128 ∧ d < 16 := by
  have within : ∀ (first last : Char) (least : Nat), last.toNat < 128 → last.toNat - first.toNat + least < 16 →
      first ≤ c ∧ c ≤ last → c.toNat < 128 ∧ c.toNat - first.toNat + least < 16 := by
    intro first last least ascii small range
    have below : c.toNat ≤ last.toNat := UInt32.le_iff_toNat_le.mp range.2
    omega
  unfold digitValue? at digit
  split at digit
  · rename_i decimal
    cases digit
    exact within '0' '9' 0 (by decide) (by decide) decimal
  · split at digit
    · rename_i small
      cases digit
      exact within 'a' 'f' 10 (by decide) (by decide) small
    · split at digit
      · rename_i capital
        cases digit
        exact within 'A' 'F' 10 (by decide) (by decide) capital
      · cases digit

theorem utf8Size_of_digit {c : Char} {d : Nat} (digit : digitValue? c = some d) : c.utf8Size = 1 := by
  have ascii : c.val ≤ 127 := UInt32.le_iff_toNat_le.mpr (Nat.le_of_lt_succ (digit_bounds digit).1)
  exact Char.utf8Size_eq_one_iff.mpr ascii

theorem hexByte_pair {a b : Char} {x y : Nat} (high : digitValue? a = some x) (low : digitValue? b = some y) :
    hexByte [a, b] = some (UInt8.ofNat (16 * x + y)) := by
  have smallHigh := (digit_bounds high).2
  have smallLow := (digit_bounds low).2
  have noPlus : a ≠ '+' := by
    rintro rfl
    cases high
  have digits : plusDigits? 16 [a, b] = digits? 16 [a, b] := by
    unfold plusDigits?
    split
    · rename_i plus
      exact absurd (List.cons.inj plus).1 noPlus
    · rfl
  have number : digits? 16 [a, b] = some (16 * x + y) := by
    simp [digits?, digitsFrom?, digitOf?, high, low, smallHigh, smallLow, Option.filter_some, Nat.mul_comm]
  have byte : 16 * x + y < 256 := by omega
  rw [hexByte, digits, number, Option.filter_some, if_pos (decide_eq_true byte)]
  rfl

section Digits
variable {cs : List Char}

theorem dropUtf8_eq (single : ∀ c ∈ cs, c.utf8Size = 1) :
    ∀ {n : Nat}, n ≤ cs.length → dropUtf8 n cs = some (cs.drop n) := by
  induction cs with
  | nil =>
      intro n short
      obtain rfl : n = 0 := by simpa using short
      rfl
  | cons c rest ih =>
      rw [List.forall_mem_cons] at single
      intro n short
      cases n with
      | zero => rfl
      | succ n =>
          rw [dropUtf8, single.1, if_pos (Nat.le_add_left 1 n), Nat.add_sub_cancel,
            ih single.2 (Nat.le_of_succ_le_succ short), List.drop_succ_cons]

theorem takeUtf8_eq (single : ∀ c ∈ cs, c.utf8Size = 1) :
    ∀ {n : Nat}, n ≤ cs.length → takeUtf8 n cs = some (cs.take n) := by
  induction cs with
  | nil =>
      intro n short
      obtain rfl : n = 0 := by simpa using short
      rfl
  | cons c rest ih =>
      rw [List.forall_mem_cons] at single
      intro n short
      cases n with
      | zero => rfl
      | succ n =>
          rw [takeUtf8, single.1, if_pos (Nat.le_add_left 1 n), Nat.add_sub_cancel,
            ih single.2 (Nat.le_of_succ_le_succ short), Option.map_some, List.take_succ_cons]

theorem utf8Length_eq (single : ∀ c ∈ cs, c.utf8Size = 1) : utf8Length cs = cs.length := by
  induction cs with
  | nil => rfl
  | cons c rest ih =>
      rw [List.forall_mem_cons] at single
      rw [utf8Length, single.1, ih single.2, List.length_cons, Nat.add_comm]

variable (digits : ∀ c ∈ cs, ∃ d, digitValue? c = some d)
include digits

theorem single_of_digits : ∀ c ∈ cs, c.utf8Size = 1 := by
  intro c member
  obtain ⟨d, digit⟩ := digits c member
  exact utf8Size_of_digit digit

theorem byteAt_eq {i : Nat} (inside : i + 1 < cs.length) :
    byteAt cs i = some (UInt8.ofNat (16 * (cs.map digitValue).getD i 0 + (cs.map digitValue).getD (i + 1) 0)) := by
  have single := single_of_digits digits
  have value : ∀ {k : Nat} (bound : k < cs.length), digitValue? cs[k] = some ((cs.map digitValue).getD k 0) := by
    intro k bound
    obtain ⟨d, digit⟩ := digits cs[k] (List.getElem_mem bound)
    rw [List.getD_eq_getElem?_getD, List.getElem?_map, List.getElem?_eq_getElem bound, digit]
    simp [digitValue, digit]
  have pair : (cs.drop i).take 2 = [cs[i], cs[i + 1]] := by
    rw [List.drop_eq_getElem_cons (by omega), List.drop_eq_getElem_cons inside]
    rfl
  have behind : ∀ c ∈ cs.drop i, c.utf8Size = 1 := fun c member => single c (List.mem_of_mem_drop member)
  have room : 2 ≤ (cs.drop i).length := by
    rw [List.length_drop]
    omega
  simp only [byteAt, textPiece, if_pos (Nat.le_add_right i 2), dropUtf8_eq single (show i ≤ cs.length by omega),
    Option.bind_eq_bind, Option.bind_some, Nat.add_sub_cancel_left, takeUtf8_eq behind room, pair]
  exact hexByte_pair (value (by omega)) (value inside)

end Digits

theorem readPairs_eq : ∀ {vs : List Nat}, vs.length % 2 = 0 →
    readPairs vs = some ((List.range (vs.length / 2)).map fun k =>
      UInt8.ofNat (16 * vs.getD (2 * k) 0 + vs.getD (2 * k + 1) 0))
  | [], _ => rfl
  | [_], odd => by cases odd
  | high :: low :: rest, even => by
      have half : (high :: low :: rest).length / 2 = rest.length / 2 + 1 := by
        simp only [List.length_cons]
        omega
      have evenRest : rest.length % 2 = 0 := by
        simp only [List.length_cons] at even
        omega
      rw [readPairs, readPairs_eq evenRest, half, List.range_succ_eq_map, List.map_cons, List.map_map]
      rfl

theorem readPairs_odd : ∀ {vs : List Nat}, vs.length % 2 ≠ 0 → readPairs vs = none
  | [], odd => absurd rfl odd
  | [_], _ => rfl
  | _ :: _ :: rest, odd => by
      have oddRest : rest.length % 2 ≠ 0 := by
        simp only [List.length_cons] at odd
        omega
      rw [readPairs, readPairs_odd oddRest]
      rfl

/-- The digits are all valued, or the first other character is at fault. -/
theorem digitValues_eq (cs : List Char) :
    digitValues cs =
      match cs.find? fun c => (digitValue? c).isNone with
      | some bad => .error (.badHexDigit bad)
      | none => .ok (cs.map digitValue) := by
  induction cs with
  | nil => rfl
  | cons c rest ih =>
      rw [digitValues, List.find?_cons]
      cases digit : digitValue? c with
      | none => rfl
      | some d =>
          rw [ih]
          simp only [Option.isNone_some]
          cases rest.find? fun c => (digitValue? c).isNone with
          | some bad => rfl
          | none => simp [Except.map, digitValue, digit]

theorem readHex_eq (cs : List Char) : readHex cs = some (Text.readHex cs) := by
  rw [readHex, Text.readHex]
  generalize ((dropBaseMarks (trim cs)).filter fun c => !isBlank c) = digits
  rw [digitValues_eq]
  cases first : digits.find? fun c => (digitValue? c).isNone with
  | some bad => rfl
  | none =>
      have valued : ∀ c ∈ digits, ∃ d, digitValue? c = some d := by
        intro c member
        apply Option.ne_none_iff_exists'.mp
        simpa using List.find?_eq_none.mp first c member
      have length : (digits.map digitValue).length = digits.length := List.length_map _
      simp only [utf8Length_eq (single_of_digits valued)]
      by_cases even : digits.length % 2 = 0
      · have each : ∀ k ∈ List.range (digits.length / 2), byteAt digits (2 * k) = some (UInt8.ofNat
            (16 * (digits.map digitValue).getD (2 * k) 0 + (digits.map digitValue).getD (2 * k + 1) 0)) := by
          intro k ranged
          rw [List.mem_range] at ranged
          exact byteAt_eq valued (by omega)
        simp only [even, ne_eq, not_true, if_false, mapM_eq each, Option.bind_eq_bind, Option.bind_some,
          readPairs_eq (length ▸ even), length, Option.pure_def]
      · simp only [ne_eq, even, not_false_iff, if_true, readPairs_odd (length ▸ even)]

end MachineRegisters.Stepwise
