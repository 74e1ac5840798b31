import MachineRegisters.Profile.Parser

/-! # Putting texts together and taking them apart

Words joined by a blank are the words of the result (`words_intercalate`), lines
that end in line feeds are its lines (`lines_flatMap`), a cut finds the mark that was
put in (`cut_append`), and the digits of a number are read as that number
(`readNumber?_decimal`). -/
set_option autoImplicit false
namespace MachineRegisters.Text

theorem of_mem_splitOnP {p : Char → Bool} {cs piece : List Char} (member : piece ∈ cs.splitOnP p) :
    ∀ c ∈ piece, c ∈ cs ∧ p c = false := by
  induction cs generalizing piece with
  | nil =>
      rw [List.splitOnP_nil] at member
      cases List.mem_singleton.mp member
      simp
  | cons d rest ih =>
      have later : ∀ q ∈ rest.splitOnP p, ∀ c ∈ q, c ∈ d :: rest ∧ p c = false :=
        fun q inRest c inQ => ⟨List.mem_cons_of_mem _ (ih inRest c inQ).1, (ih inRest c inQ).2⟩
      rw [List.splitOnP_cons_eq_if_modifyHead] at member
      split at member
      · rcases List.mem_cons.mp member with rfl | inRest
        · simp
        · exact later piece inRest
      · rename_i kept
        obtain ⟨first, others, pieces⟩ := List.exists_cons_of_ne_nil (List.splitOnP_ne_nil p rest)
        rw [pieces, List.modifyHead_cons] at member
        rw [pieces] at later
        rcases List.mem_cons.mp member with rfl | inOthers
        · intro c inPiece
          rcases List.mem_cons.mp inPiece with rfl | inFirst
          · exact ⟨List.mem_cons_self .., Bool.eq_false_iff.mpr kept⟩
          · exact later first (List.mem_cons_self ..) c inFirst
        · exact later piece (List.mem_cons_of_mem _ inOthers)

/-! ## Words -/

structure IsWord (w : List Char) : Prop where
  ne_nil : w ≠ []
  solid : ∀ c ∈ w, isBlank c = false

theorem isWord_of_mem_words {w cs : List Char} (member : w ∈ words cs) : IsWord w ∧ ∀ c ∈ w, c ∈ cs := by
  obtain ⟨piece, nonempty⟩ := List.mem_filter.mp member
  have each := of_mem_splitOnP piece
  exact ⟨⟨of_decide_eq_true nonempty, fun c inW => (each c inW).2⟩, fun c inW => (each c inW).1⟩

theorem words_nil : words [] = [] := by
  rw [words, List.splitOnP_nil]
  rfl

theorem words_append_blank {blank : Char} (isBlank_blank : isBlank blank = true) (before after : List Char) :
    words (before ++ blank :: after) = words before ++ words after := by
  rw [words, List.splitOnP_append_cons before after isBlank_blank, List.filter_append]
  rfl

theorem words_of_isWord {w : List Char} (word : IsWord w) : words w = [w] := by
  rw [words, List.splitOnP_eq_singleton word.solid]
  simp [word.ne_nil]

theorem words_intercalate {blank : Char} (isBlank_blank : isBlank blank = true) {fields : List (List Char)}
    (eachWord : ∀ w ∈ fields, IsWord w) : words ([blank].intercalate fields) = fields := by
  induction fields with
  | nil => exact words_nil
  | cons w rest ih =>
      have word := words_of_isWord (eachWord w (List.mem_cons_self ..))
      have others := ih fun v member => eachWord v (List.mem_cons_of_mem _ member)
      cases rest with
      | nil => rw [List.intercalate_singleton, word]
      | cons v more =>
          rw [List.intercalate_cons_cons, List.append_assoc, List.singleton_append,
            words_append_blank isBlank_blank, word, others, List.singleton_append]

theorem prefix_intercalate (separator : Char) (w : List Char) (rest : List (List Char)) :
    w <+: [separator].intercalate (w :: rest) := by
  cases rest with
  | nil => exact List.intercalate_singleton.symm ▸ List.prefix_rfl
  | cons v more =>
      rw [List.intercalate_cons_cons, List.append_assoc]
      exact List.prefix_append _ _

theorem intercalate_concat (separator : Char) {fields : List (List Char)} (some_field : fields ≠ [])
    (w : List Char) :
    [separator].intercalate (fields ++ [w]) = [separator].intercalate fields ++ separator :: w := by
  induction fields with
  | nil => exact absurd rfl some_field
  | cons v rest ih =>
      cases rest with
      | nil => simp
      | cons u more =>
          have later := ih (List.cons_ne_nil u more)
          rw [List.cons_append] at later
          rw [List.cons_append, List.cons_append, List.intercalate_cons_cons, later,
            List.intercalate_cons_cons]
          simp only [List.append_assoc]

/-! ## Ends of a text -/

/-- Neither end is blank, so that trimming has nothing to remove. -/
structure IsTrimmed (cs : List Char) : Prop where
  first : ∀ c ∈ cs.head?, isBlank c = false
  last : ∀ c ∈ cs.getLast?, isBlank c = false

theorem IsWord.isTrimmed {w : List Char} (word : IsWord w) : IsTrimmed w :=
  ⟨fun c first => word.solid c (List.mem_of_mem_head? first),
    fun c last => word.solid c (List.mem_of_mem_getLast? last)⟩

theorem dropWhile_of_head? {p : Char → Bool} {cs : List Char} (first : ∀ c ∈ cs.head?, p c = false) :
    cs.dropWhile p = cs := by
  cases cs with
  | nil => rfl
  | cons c rest => exact List.dropWhile_cons_of_neg (Bool.eq_false_iff.mp (first c rfl))

theorem trim_of_isTrimmed {cs : List Char} (trimmed : IsTrimmed cs) : trim cs = cs := by
  have last : ∀ c ∈ cs.reverse.head?, isBlank c = false := by
    rw [List.head?_reverse]
    exact trimmed.last
  rw [trim, trimStart, dropWhile_of_head? trimmed.first, trimEnd, dropWhile_of_head? last, List.reverse_reverse]

theorem head?_dropWhile {p : Char → Bool} (cs : List Char) : ∀ c ∈ (cs.dropWhile p).head?, p c = false := by
  intro c first
  have stopped := List.head?_dropWhile_not p cs
  rw [Option.mem_def.mp first] at stopped
  exact stopped

theorem trimEnd_begins (cs : List Char) : trimEnd cs <+: cs := by
  rw [trimEnd, ← List.reverse_suffix, List.reverse_reverse]
  exact List.dropWhile_suffix _

theorem mem_of_mem_trim {c : Char} {cs : List Char} (member : c ∈ trim cs) : c ∈ cs :=
  (List.dropWhile_suffix _).subset ((trimEnd_begins _).subset member)

theorem isTrimmed_trim (cs : List Char) : IsTrimmed (trim cs) := by
  refine ⟨?_, ?_⟩
  · intro c first
    obtain ⟨rest, whole⟩ := trimEnd_begins (trimStart cs)
    apply head?_dropWhile cs c
    show c ∈ (trimStart cs).head?
    rw [← whole]
    have kept : (trimEnd (trimStart cs)).head? = some c := first
    rw [List.head?_append, kept]
    rfl
  · intro c last
    rw [trim, trimEnd, List.getLast?_reverse] at last
    exact head?_dropWhile _ c last

theorem isTrimmed_iff {cs : List Char} : IsTrimmed cs ↔ trim cs = cs := by
  constructor
  · exact trim_of_isTrimmed
  · intro same
    rw [← same]
    exact isTrimmed_trim cs

instance (cs : List Char) : Decidable (IsTrimmed cs) := decidable_of_iff (trim cs = cs) isTrimmed_iff.symm

theorem exists_trimStart (cs : List Char) : ∃ before,
    cs = before ++ trimStart cs ∧ ∀ c ∈ before, isBlank c = true :=
  ⟨cs.takeWhile isBlank, List.takeWhile_append_dropWhile.symm, List.all_eq_true.mp List.all_takeWhile⟩

theorem exists_trimEnd (cs : List Char) : ∃ after,
    cs = trimEnd cs ++ after ∧ ∀ c ∈ after, isBlank c = true := by
  refine ⟨(cs.reverse.takeWhile isBlank).reverse, ?_, ?_⟩
  · rw [trimEnd, ← List.reverse_append, List.takeWhile_append_dropWhile, List.reverse_reverse]
  · intro c member
    exact List.all_eq_true.mp List.all_takeWhile c (List.mem_reverse.mp member)

theorem exists_trim (cs : List Char) : ∃ before after, cs = before ++ trim cs ++ after ∧
    (∀ c ∈ before, isBlank c = true) ∧ ∀ c ∈ after, isBlank c = true := by
  obtain ⟨before, front, blankBefore⟩ := exists_trimStart cs
  obtain ⟨after, back, blankAfter⟩ := exists_trimEnd (trimStart cs)
  refine ⟨before, after, ?_, blankBefore, blankAfter⟩
  rw [List.append_assoc, trim, ← back, ← front]

/-- A text that begins with no blank still begins so when it has been trimmed. -/
theorem exists_trim_eq_cons {c : Char} (rest : List Char) (solid : isBlank c = false) :
    ∃ more, trim (c :: rest) = c :: more := by
  have start : trimStart (c :: rest) = c :: rest :=
    List.dropWhile_cons_of_neg (Bool.eq_false_iff.mp solid)
  rw [trim, start, trimEnd, List.reverse_cons, List.dropWhile_append]
  split
  · exact ⟨[], by rw [List.dropWhile_cons_of_neg (Bool.eq_false_iff.mp solid), List.reverse_singleton]⟩
  · exact ⟨_, by rw [List.reverse_append, List.reverse_singleton, List.singleton_append]⟩

theorem isTrimmed_intercalate (separator : Char) {fields : List (List Char)}
    (each : ∀ w ∈ fields, w ≠ [] ∧ IsTrimmed w) : IsTrimmed ([separator].intercalate fields) := by
  induction fields with
  | nil => exact ⟨by simp, by simp⟩
  | cons w rest ih =>
      obtain ⟨nonempty, trimmed⟩ := each w (List.mem_cons_self ..)
      have others := ih fun v member => each v (List.mem_cons_of_mem _ member)
      cases rest with
      | nil =>
          rw [List.intercalate_singleton]
          exact trimmed
      | cons v more =>
          have later : [separator].intercalate (v :: more) ≠ [] := by
            have start := (each v (by simp)).1
            cases more <;> simp [start]
          rw [List.intercalate_cons_cons, List.append_assoc]
          refine ⟨?_, ?_⟩
          · obtain ⟨c, cs, rfl⟩ := List.exists_cons_of_ne_nil nonempty
            exact trimmed.first
          · intro c last
            rw [List.getLast?_append, List.getLast?_append] at last
            cases ending : ([separator].intercalate (v :: more)).getLast? with
            | none => exact absurd (List.getLast?_eq_none_iff.mp ending) later
            | some d =>
                rw [ending] at last
                exact others.last c (ending.trans last)

/-! ## Cuts and lines -/

theorem cut_append {mark : Char} {before after : List Char} (unmarked : mark ∉ before) :
    cut mark (before ++ mark :: after) = (before, some after) := by
  induction before with
  | nil => simp [cut]
  | cons c rest ih =>
      rw [List.mem_cons, not_or] at unmarked
      rw [List.cons_append, cut, if_neg (Ne.symm unmarked.1), ih unmarked.2]

theorem cut_of_notMem {mark : Char} {cs : List Char} (unmarked : mark ∉ cs) : cut mark cs = (cs, none) := by
  induction cs with
  | nil => rfl
  | cons c rest ih =>
      rw [List.mem_cons, not_or] at unmarked
      rw [cut, if_neg (Ne.symm unmarked.1), ih unmarked.2]

theorem notMem_intercalate {c : Char} {separator : List Char} (apart : c ∉ separator)
    {fields : List (List Char)} (each : ∀ w ∈ fields, c ∉ w) : c ∉ separator.intercalate fields := by
  induction fields with
  | nil => simp
  | cons w rest ih =>
      have others := ih fun v member => each v (List.mem_cons_of_mem _ member)
      have first := each w (List.mem_cons_self ..)
      cases rest with
      | nil =>
          rw [List.intercalate_singleton]
          exact first
      | cons v more =>
          rw [List.intercalate_cons_cons, List.mem_append, List.mem_append]
          rintro ((inFirst | inSeparator) | inOthers)
          · exact first inFirst
          · exact apart inSeparator
          · exact others inOthers

theorem lines_of_notMem {cs : List Char} (single : '\n' ∉ cs) : lines cs = [cs] := by
  apply List.splitOnP_eq_singleton
  intro c member
  exact beq_false_of_ne fun same => single (same ▸ member)

theorem notMem_of_mem_lines {line cs : List Char} (member : line ∈ lines cs) : '\n' ∉ line := by
  intro inLine
  have kept := (of_mem_splitOnP member '\n' inLine).2
  simp at kept

theorem lines_flatMap {ls : List (List Char)} (single : ∀ line ∈ ls, '\n' ∉ line) :
    lines (ls.flatMap fun line => line ++ ['\n']) = ls ++ [[]] := by
  induction ls with
  | nil => rfl
  | cons line rest ih =>
      rw [List.flatMap_cons, List.append_assoc, List.singleton_append, lines_append_lf,
        lines_of_notMem (single line (List.mem_cons_self ..)),
        ih fun other member => single other (List.mem_cons_of_mem _ member)]
      rfl

/-! ## Numbers -/

theorem range_of_isDigit {c : Char} (digit : c.isDigit = true) : '0' ≤ c ∧ c ≤ '9' := by
  have range : 48 ≤ c.val ∧ c.val ≤ 57 := by simpa [Char.isDigit] using digit
  exact range

theorem digitOf?_of_isDigit {c : Char} (digit : c.isDigit = true) :
    digitOf? 10 c = some (c.toNat - '0'.toNat) := by
  have range := range_of_isDigit digit
  have small : c.toNat - '0'.toNat < 10 := by
    have high : c.toNat ≤ '9'.toNat := range.2
    have nine : '9'.toNat = '0'.toNat + 9 := rfl
    omega
  rw [digitOf?, digitValue?, if_pos range, Option.filter_some, if_pos (decide_eq_true small)]

theorem digitsFrom?_of_isDigit {cs : List Char} (digits : ∀ c ∈ cs, c.isDigit = true) (soFar : Nat) :
    digitsFrom? 10 soFar cs = some (Nat.ofDigitChars 10 cs soFar) := by
  induction cs generalizing soFar with
  | nil => rfl
  | cons c rest ih =>
      have others := ih fun d member => digits d (List.mem_cons_of_mem _ member)
      rw [digitsFrom?, digitOf?_of_isDigit (digits c (List.mem_cons_self ..)), Option.bind_some, others,
        Nat.ofDigitChars_cons, Nat.mul_comm]

theorem isDigit_of_mem_decimal {n : Nat} {c : Char} (member : c ∈ decimal n) : c.isDigit = true :=
  Nat.isDigit_of_mem_toDigits (by decide) (by decide) member

theorem isWord_decimal (n : Nat) : IsWord (decimal n) := by
  refine ⟨Nat.toDigits_ne_nil, ?_⟩
  intro c member
  have range := range_of_isDigit (isDigit_of_mem_decimal member)
  have low : 48 ≤ c.toNat := range.1
  have high : c.toNat ≤ 57 := range.2
  simp only [isBlank, Bool.or_eq_false_iff, Bool.and_eq_false_iff, decide_eq_false_iff_not, beq_eq_false_iff_ne]
  omega

end MachineRegisters.Text

namespace MachineRegisters.Profile
open Text

theorem readNumber?_decimal {n : Nat} (small : n < UInt32.size) : readNumber? (decimal n) = some n := by
  have value : digits? 10 (decimal n) = some n := by
    rw [digits?, if_neg (isWord_decimal n).ne_nil, digitsFrom?_of_isDigit fun c => isDigit_of_mem_decimal,
      decimal, Nat.ofDigitChars_ten_toDigits]
  unfold readNumber?
  -- No digit is the letter that marks a number in hexadecimal.
  split
  · rename_i shape
    have digit : 'x'.isDigit = true := isDigit_of_mem_decimal (n := n) (by simp [shape])
    exact absurd digit (by decide)
  · rename_i shape
    have digit : 'X'.isDigit = true := isDigit_of_mem_decimal (n := n) (by simp [shape])
    exact absurd digit (by decide)
  · rw [value, Option.bind_some]
    exact Text.fits32_eq_some_iff.mpr ⟨rfl, small⟩

end MachineRegisters.Profile
