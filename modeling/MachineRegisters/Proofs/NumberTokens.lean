import MachineRegisters.Proofs.HexLoading
import MachineRegisters.Proofs.Numerals
import MachineRegisters.Proofs.SpacedWords
import Mathlib.Data.Nat.Digits.Defs
import Mathlib.Tactic.Ring

/-! # Numbers in profiles

A number in a profile is written in decimal digits, or in hexadecimal ones behind a mark
of the base (`IsNumber`).  Sizes and offsets are put together from such numbers (`IsSize`,
`IsOffset`), and nothing else is read as one, but for a plus right behind the mark, which
is passed over (`sizes_and_offsets`). -/
set_option autoImplicit false
namespace MachineRegisters
namespace Text
variable {c : Char} {cs : List Char} {n : Nat}

/-! ## Hexadecimal digits -/

/-- One or more hexadecimal digits that denote the number, the greatest digit first and letters in
either case. -/
structure IsHexadecimal (cs : List Char) (n : Nat) : Prop where
  ne_nil : cs ≠ []
  value : ∃ ds : List Nat, cs.map Char.toLower = ds.map Nat.digitChar ∧ (∀ d ∈ ds, d < 16) ∧
    Nat.ofDigits 16 ds.reverse = n

theorem IsHexadecimal.digits (hexadecimal : IsHexadecimal cs n) (member : c ∈ cs) : isHexDigit c = true := by
  obtain ⟨ds, letters, small, -⟩ := hexadecimal.value
  have letter : c.toLower ∈ ds.map Nat.digitChar := letters ▸ List.mem_map_of_mem member
  obtain ⟨d, inDigits, same⟩ := List.mem_map.mp letter
  rw [← isSome_digitValue?, digitValue?_eq_some_iff.mpr ⟨small d inDigits, same.symm⟩]
  rfl

theorem digitOf?_sixteen_eq_some_iff {d : Nat} :
    digitOf? 16 c = some d ↔ d < 16 ∧ c.toLower = Nat.digitChar d := by
  rw [digitOf?, Option.filter_eq_some_iff, digitValue?_eq_some_iff, decide_eq_true_iff]
  tauto

/-- What has been read before the digits weighs as much as they are long. -/
theorem digitsFrom?_sixteen_eq_some_iff {soFar : Nat} :
    digitsFrom? 16 soFar cs = some n ↔ ∃ ds : List Nat, cs.map Char.toLower = ds.map Nat.digitChar ∧
      (∀ d ∈ ds, d < 16) ∧ soFar * 16 ^ ds.length + Nat.ofDigits 16 ds.reverse = n := by
  induction cs generalizing soFar with
  | nil =>
      rw [digitsFrom?, Option.some.injEq]
      constructor
      · rintro rfl
        exact ⟨[], by simp⟩
      · rintro ⟨ds, letters, -, value⟩
        obtain rfl : ds = [] := by simpa using letters
        simpa using value
  | cons c rest ih =>
      have behind : ∀ d ds, (soFar * 16 + d) * 16 ^ ds.length + Nat.ofDigits 16 ds.reverse =
          soFar * 16 ^ (d :: ds).length + Nat.ofDigits 16 (d :: ds).reverse := by
        intro d ds
        rw [List.reverse_cons, Nat.ofDigits_append, Nat.ofDigits_singleton, List.length_cons,
          List.length_reverse]
        ring
      rw [digitsFrom?, Option.bind_eq_some_iff]
      simp only [digitOf?_sixteen_eq_some_iff, ih]
      constructor
      · rintro ⟨d, ⟨small, letter⟩, ds, letters, smallRest, value⟩
        refine ⟨d :: ds, ?_, List.forall_mem_cons.mpr ⟨small, smallRest⟩, behind d ds ▸ value⟩
        rw [List.map_cons, List.map_cons, letter, letters]
      · rintro ⟨ds, letters, small, value⟩
        cases ds with
        | nil => simp at letters
        | cons d ds =>
            obtain ⟨letter, letters⟩ := List.cons.inj letters
            obtain ⟨smallFirst, smallRest⟩ := List.forall_mem_cons.mp small
            exact ⟨d, ⟨smallFirst, letter⟩, ds, letters, smallRest, (behind d ds).trans value⟩

theorem digits?_sixteen_eq_some_iff : digits? 16 cs = some n ↔ IsHexadecimal cs n := by
  rw [digits?]
  split
  · rename_i empty
    simp only [reduceCtorEq, false_iff]
    exact fun hexadecimal => hexadecimal.ne_nil empty
  · rename_i nonempty
    rw [digitsFrom?_sixteen_eq_some_iff]
    simp only [Nat.zero_mul, Nat.zero_add]
    exact ⟨fun value => ⟨nonempty, value⟩, fun hexadecimal => hexadecimal.value⟩

theorem bind_fits32_eq_some_iff {read : Option Nat} :
    read.bind fits32 = some n ↔ read = some n ∧ n < UInt32.size := by
  rw [Option.bind_eq_some_iff]
  simp only [fits32_eq_some_iff]
  constructor
  · rintro ⟨_, value, rfl, small⟩
    exact ⟨value, small⟩
  · rintro ⟨value, small⟩
    exact ⟨n, value, rfl, small⟩

end Text

namespace Profile
open Text
variable {cs : List Char} {n v : Nat}

/-! ## Numbers -/

/-- A number in decimal digits, or in hexadecimal ones behind a mark of the base. -/
inductive IsNumber : List Char → Nat → Prop
  | decimal {cs : List Char} {n : Nat} (digits : IsDecimal cs n) : IsNumber cs n
  | hexadecimal {x : Char} {cs : List Char} {n : Nat} (mark : x = 'x' ∨ x = 'X')
      (digits : IsHexadecimal cs n) : IsNumber ('0' :: x :: cs) n

inductive IsPlusNumber : List Char → Nat → Prop
  | hexadecimal {x : Char} {cs : List Char} {n : Nat} (mark : x = 'x' ∨ x = 'X')
      (digits : IsHexadecimal cs n) : IsPlusNumber ('0' :: x :: '+' :: cs) n

def IsReadable (cs : List Char) (n : Nat) : Prop := IsNumber cs n ∨ IsPlusNumber cs n

/-- Somewhere in the text a plus follows a mark of the base. -/
def HasPlus (cs : List Char) : Prop := ['0', 'x', '+'] <:+: cs ∨ ['0', 'X', '+'] <:+: cs

instance (cs : List Char) : Decidable (HasPlus cs) :=
  inferInstanceAs (Decidable (['0', 'x', '+'] <:+: cs ∨ ['0', 'X', '+'] <:+: cs))

theorem readNumber?_eq_some_iff : readNumber? cs = some n ↔ IsReadable cs n ∧ n < UInt32.size := by
  -- A mark is no decimal digit, so the digits behind it are the only way to read the text.
  have behindMark : ∀ x, x = 'x' ∨ x = 'X' → ∀ rest,
      (plusDigits? 16 rest = some n ↔ IsReadable ('0' :: x :: rest) n) := by
    intro x mark rest
    rw [plusDigits?_eq_some_iff]
    simp only [digits?_sixteen_eq_some_iff]
    constructor
    · rintro ⟨row, digits, rfl | rfl⟩
      · exact .inl (.hexadecimal mark digits)
      · exact .inr (.hexadecimal mark digits)
    · intro readable
      rcases readable with number | plus
      · cases number with
        | decimal digits =>
            rcases mark with rfl | rfl
            · exact absurd (digits.digits 'x' (by simp)) (by decide)
            · exact absurd (digits.digits 'X' (by simp)) (by decide)
        | hexadecimal _ digits => exact ⟨rest, digits, .inl rfl⟩
      · cases plus with
        | hexadecimal _ digits => exact ⟨_, digits, .inr rfl⟩
  unfold readNumber?
  split
  · rw [bind_fits32_eq_some_iff, behindMark 'x' (.inl rfl)]
  · rw [bind_fits32_eq_some_iff, behindMark 'X' (.inr rfl)]
  · rename_i noSmall noCapital
    have unmarked : ∀ x rest, x = 'x' ∨ x = 'X' → cs ≠ '0' :: x :: rest := by
      rintro x rest (rfl | rfl) same
      · exact noSmall rest same
      · exact noCapital rest same
    rw [bind_fits32_eq_some_iff, digits?_ten_eq_some_iff]
    refine and_congr_left fun _ => ⟨fun digits => .inl (.decimal digits), fun readable => ?_⟩
    rcases readable with number | plus
    · cases number with
      | decimal digits => exact digits
      | hexadecimal mark _ => exact absurd rfl (unmarked _ _ mark)
    · cases plus with
      | hexadecimal mark _ => exact absurd rfl (unmarked _ _ mark)

theorem IsReadable.noPoint (readable : IsReadable cs n) : cs ≠ [] ∧ '.' ∉ cs := by
  have noPoint : ∀ x row, x = 'x' ∨ x = 'X' → IsHexadecimal row n → '.' ≠ x ∧ '.' ∉ row := by
    intro x row mark digits
    refine ⟨?_, fun member => absurd (digits.digits member) (by decide)⟩
    rintro rfl
    exact absurd mark (by decide)
  rcases readable with number | plus
  · cases number with
    | decimal digits => exact ⟨digits.ne_nil, fun member => absurd (digits.digits '.' member) (by decide)⟩
    | hexadecimal mark digits => exact ⟨List.cons_ne_nil _ _, by simp [noPoint _ _ mark digits]⟩
  · cases plus with
    | hexadecimal mark digits => exact ⟨List.cons_ne_nil _ _, by simp [noPoint _ _ mark digits]⟩

theorem IsReadable.isNumber (readable : IsReadable cs n) (noPlus : ¬HasPlus cs) : IsNumber cs n := by
  rcases readable with number | plus
  · exact number
  · cases plus with
    | hexadecimal mark digits =>
        refine absurd ?_ noPlus
        rcases mark with rfl | rfl
        · exact .inl (List.prefix_append ['0', 'x', '+'] _).isInfix
        · exact .inr (List.prefix_append ['0', 'X', '+'] _).isInfix

/-! ## Sizes and offsets -/

section Grammar
variable (number : List Char → Nat → Prop)

/-- The text tells a size: a number of bits behind a point, or one of bytes. -/
inductive IsSize : List Char → Nat → Prop
  | bits {cs : List Char} {n : Nat} (told : number cs n) : IsSize ('.' :: cs) n
  | bytes {cs : List Char} {n : Nat} (told : number cs n) : IsSize cs (8 * n)

/-- The text tells an offset: as a size is told, or a number of bytes, a point, and more bits. -/
inductive IsOffset : List Char → Nat → Prop
  | bits {cs : List Char} {n : Nat} (told : number cs n) : IsOffset ('.' :: cs) n
  | bytes {cs : List Char} {n : Nat} (told : number cs n) : IsOffset cs (8 * n)
  | both {cs bs : List Char} {n b : Nat} (told : number cs n) (toldBits : number bs b) :
      IsOffset (cs ++ '.' :: bs) (8 * n + b)

end Grammar

section Parts
variable {number other : List Char → Nat → Prop}
  (each : ∀ part n, part <:+: cs → number part n → other part n)
include each

theorem IsSize.imp (size : IsSize number cs v) : IsSize other cs v := by
  cases size with
  | bits told => exact .bits (each _ _ (List.suffix_cons ..).isInfix told)
  | bytes told => exact .bytes (each _ _ List.infix_rfl told)

theorem IsOffset.imp (offset : IsOffset number cs v) : IsOffset other cs v := by
  cases offset with
  | bits told => exact .bits (each _ _ (List.suffix_cons ..).isInfix told)
  | bytes told => exact .bytes (each _ _ List.infix_rfl told)
  | @both bytes bits _ _ told toldBits =>
      have behind : bits <:+ bytes ++ '.' :: bits := (List.suffix_cons ..).trans (List.suffix_append ..)
      exact .both (each _ _ (List.prefix_append ..).isInfix told) (each _ _ behind.isInfix toldBits)

end Parts

theorem readBytes?_eq_some_iff :
    readBytes? cs = some v ↔ ∃ n, IsReadable cs n ∧ 8 * n = v ∧ v < UInt32.size := by
  rw [readBytes?, Option.bind_eq_some_iff]
  simp only [readNumber?_eq_some_iff, fits32_eq_some_iff]
  constructor
  · rintro ⟨n, ⟨readable, -⟩, rfl, small⟩
    exact ⟨n, readable, rfl, small⟩
  · rintro ⟨n, readable, rfl, small⟩
    exact ⟨n, ⟨readable, by omega⟩, rfl, small⟩

theorem readSize?_eq_some_iff : readSize? cs = some v ↔ IsSize IsReadable cs v ∧ v < UInt32.size := by
  unfold readSize?
  split
  · rename_i rest
    rw [readNumber?_eq_some_iff]
    refine and_congr_left fun _ => ⟨fun readable => .bits readable, fun size => ?_⟩
    cases size with
    | bits told => exact told
    | bytes told => exact absurd (List.mem_cons_self ..) told.noPoint.2
  · rename_i noPoint
    rw [readBytes?_eq_some_iff]
    constructor
    · rintro ⟨n, readable, rfl, small⟩
      exact ⟨.bytes readable, small⟩
    · rintro ⟨size, small⟩
      cases size with
      | bits told => exact absurd rfl (noPoint _)
      | @bytes _ n told => exact ⟨n, told, rfl, small⟩

/-- The point that an offset is cut at is its first. -/
theorem readOffset?_eq_some_iff : readOffset? cs = some v ↔ IsOffset IsReadable cs v ∧ v < UInt32.size := by
  unfold readOffset?
  split
  · rename_i rest
    rw [readNumber?_eq_some_iff]
    refine and_congr_left fun _ => ⟨fun readable => .bits readable, fun offset => ?_⟩
    generalize whole : '.' :: rest = text at offset
    cases offset with
    | bits told =>
        cases whole
        exact told
    | bytes told => exact absurd (whole ▸ List.mem_cons_self ..) told.noPoint.2
    | both told toldBits =>
        obtain ⟨nonempty, noPoint⟩ := told.noPoint
        obtain ⟨c, more, rfl⟩ := List.exists_cons_of_ne_nil nonempty
        rw [(List.cons.inj whole).1] at noPoint
        exact absurd (List.mem_cons_self ..) noPoint
  · rename_i noPoint
    constructor
    · intro read
      split at read
      · rename_i bytes parts
        cases cut_eq_iff.mp parts
        obtain ⟨n, readable, rfl, small⟩ := readBytes?_eq_some_iff.mp read
        exact ⟨.bytes readable, small⟩
      · rename_i bytes bits parts
        cases cut_eq_iff.mp parts
        obtain ⟨m, bytesRead, read⟩ := Option.bind_eq_some_iff.mp read
        obtain ⟨b, bitsRead, read⟩ := Option.bind_eq_some_iff.mp read
        obtain ⟨n, readable, rfl, -⟩ := readBytes?_eq_some_iff.mp bytesRead
        obtain ⟨rfl, small⟩ := fits32_eq_some_iff.mp read
        exact ⟨.both readable (readNumber?_eq_some_iff.mp bitsRead).1, small⟩
    · rintro ⟨offset, small⟩
      cases offset with
      | bits told => exact absurd rfl (noPoint _)
      | @bytes _ n told =>
          rw [cut_of_notMem told.noPoint.2]
          exact readBytes?_eq_some_iff.mpr ⟨n, told, rfl, small⟩
      | @both _ _ n b told toldBits =>
          have bytesRead := readBytes?_eq_some_iff.mpr ⟨n, told, rfl, by omega⟩
          have bitsRead := readNumber?_eq_some_iff.mpr ⟨toldBits, by omega⟩
          simp only [cut_append told.noPoint.2, bytesRead, bitsRead, Option.bind_some]
          exact fits32_eq_some_iff.mpr ⟨rfl, small⟩

/-- Sizes and offsets below 32 bits are read from the texts that tell them by numbers as they are
read, and from no others.  Unless a plus follows a mark of the base somewhere, those are numbers
with digits alone, so that a sign anywhere else leaves nothing to be read. -/
theorem sizes_and_offsets (cs : List Char) (v : Nat) :
    (readSize? cs = some v ↔ IsSize IsReadable cs v ∧ v < 2 ^ 32) ∧
      (readOffset? cs = some v ↔ IsOffset IsReadable cs v ∧ v < 2 ^ 32) ∧
      (¬HasPlus cs →
        (readSize? cs = some v ↔ IsSize IsNumber cs v ∧ v < 2 ^ 32) ∧
          (readOffset? cs = some v ↔ IsOffset IsNumber cs v ∧ v < 2 ^ 32)) := by
  refine ⟨readSize?_eq_some_iff, readOffset?_eq_some_iff, fun noPlus => ?_⟩
  have unsigned : ∀ part n, part <:+: cs → IsReadable part n → IsNumber part n := by
    intro part n inside readable
    refine readable.isNumber fun plus => noPlus ?_
    exact plus.imp (fun small => small.trans inside) fun capital => capital.trans inside
  have readable : ∀ part n, part <:+: cs → IsNumber part n → IsReadable part n :=
    fun _ _ _ number => .inl number
  constructor
  · rw [readSize?_eq_some_iff]
    exact and_congr_left fun _ => ⟨fun size => size.imp unsigned, fun size => size.imp readable⟩
  · rw [readOffset?_eq_some_iff]
    exact and_congr_left fun _ => ⟨fun offset => offset.imp unsigned, fun offset => offset.imp readable⟩

/-- The greatest offset, its bytes in hexadecimal and its bits in decimal; no size is told so. -/
theorem sizes_and_offsets_greatest :
    ∃ cs, ¬HasPlus cs ∧ readOffset? cs = some 4294967295 ∧ IsOffset IsNumber cs 4294967295 ∧
      ∀ v, v < 2 ^ 32 → ¬IsSize IsNumber cs v := by
  have noPlus : ¬HasPlus "0X1fFfFFff.7".toList := by decide
  have read : readOffset? "0X1fFfFFff.7".toList = some 4294967295 := by decide
  have noSize : readSize? "0X1fFfFFff.7".toList = none := by decide
  refine ⟨_, noPlus, read, (((sizes_and_offsets _ _).2.2 noPlus).2.mp read).1, ?_⟩
  intro v small size
  cases noSize.symm.trans (((sizes_and_offsets _ v).2.2 noPlus).1.mpr ⟨size, small⟩)

/-- A plus behind the mark of the base is passed over. -/
theorem not_isSize_of_plus : ∃ cs v, readSize? cs = some v ∧ ¬IsSize IsNumber cs v := by
  refine ⟨['0', 'x', '+', '1'], 8, by decide, ?_⟩
  generalize 8 = v
  intro size
  cases size with
  | bytes told =>
      cases told with
      | decimal digits => exact absurd (digits.digits 'x' (by simp)) (by decide)
      | hexadecimal _ digits => exact absurd (digits.digits (List.mem_cons_self ..)) (by decide)

end Profile
end MachineRegisters
