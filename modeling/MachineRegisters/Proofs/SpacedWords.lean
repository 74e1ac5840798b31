import MachineRegisters.Proofs.Pieces
import Mathlib.Data.List.TakeWhile

/-! # Words with blanks between them

Words may have any number of blanks around them and must have one between two of them
(`Spaced`).  Cutting a text into words finds just the words that it was put together from
(`words_eq_iff`), so it does not matter how much blank there is and where.  Nor does blank
at the ends of a line matter to what stands before its first mark and to the trimmed text
behind it (`words_cut_trim`, `map_trim_cut_trim`). -/
set_option autoImplicit false
namespace MachineRegisters.Text
variable {cs gap : List Char} {ws : List (List Char)} {mark : Char}

/-! ## Words -/

/-- The text is the given words in order, with blanks before, between and behind them. -/
inductive Spaced : List (List Char) → List Char → Prop
  | nothing {gap : List Char} (blank : ∀ c ∈ gap, isBlank c = true) : Spaced [] gap
  | word {gap w cs : List Char} {ws : List (List Char)} (blank : ∀ c ∈ gap, isBlank c = true)
      (word : IsWord w) (apart : ∀ c ∈ cs.head?, isBlank c = true) (others : Spaced ws cs) :
      Spaced (w :: ws) (gap ++ w ++ cs)

theorem words_blanks_append (blank : ∀ c ∈ gap, isBlank c = true) (cs : List Char) :
    words (gap ++ cs) = words cs := by
  induction gap with
  | nil => rfl
  | cons c rest ih =>
      have first := words_append_blank (blank c (List.mem_cons_self ..)) [] (rest ++ cs)
      rw [words_nil] at first
      exact first.trans (ih fun d member => blank d (List.mem_cons_of_mem _ member))

theorem words_of_blank (blank : ∀ c ∈ gap, isBlank c = true) : words gap = [] := by
  have only := words_blanks_append blank []
  rw [List.append_nil, words_nil] at only
  exact only

theorem words_append_blanks (blank : ∀ c ∈ gap, isBlank c = true) (cs : List Char) :
    words (cs ++ gap) = words cs := by
  cases gap with
  | nil => rw [List.append_nil]
  | cons c rest =>
      have others : words rest = [] := words_of_blank fun d member => blank d (List.mem_cons_of_mem _ member)
      rw [words_append_blank (blank c (List.mem_cons_self ..)), others, List.append_nil]

theorem words_word_append {w : List Char} (word : IsWord w) (apart : ∀ c ∈ cs.head?, isBlank c = true) :
    words (w ++ cs) = w :: words cs := by
  cases cs with
  | nil => rw [List.append_nil, words_of_isWord word, words_nil]
  | cons c rest =>
      have blank : isBlank c = true := apart c rfl
      have behind := words_append_blank blank [] rest
      rw [words_nil, List.nil_append, List.nil_append] at behind
      rw [words_append_blank blank, words_of_isWord word, behind, List.singleton_append]

theorem words_of_spaced (spaced : Spaced ws cs) : words cs = ws := by
  induction spaced with
  | nothing blank => exact words_of_blank blank
  | word blank word apart _ ih =>
      rw [List.append_assoc, words_blanks_append blank, words_word_append word apart, ih]

theorem Spaced.cons_blank {c : Char} (blank : isBlank c = true) (spaced : Spaced ws cs) :
    Spaced ws (c :: cs) := by
  cases spaced with
  | nothing others => exact .nothing (List.forall_mem_cons.mpr ⟨blank, others⟩)
  | word others word apart spaced => exact .word (List.forall_mem_cons.mpr ⟨blank, others⟩) word apart spaced

/-- A character that is not blank begins a word, or goes before the first one if that has no blank
before it. -/
theorem Spaced.exists_cons_solid {c : Char} (solid : isBlank c = false) (spaced : Spaced ws cs) :
    ∃ vs, Spaced vs (c :: cs) := by
  have alone : IsWord [c] := ⟨List.cons_ne_nil c [], List.forall_mem_singleton.mpr solid⟩
  have noGap : ∀ d ∈ ([] : List Char), isBlank d = true := nofun
  by_cases apart : ∀ d ∈ cs.head?, isBlank d = true
  · exact ⟨[c] :: ws, .word noGap alone apart spaced⟩
  · cases spaced with
    | nothing others => exact absurd (fun d first => others d (List.mem_of_mem_head? first)) apart
    | @word gap w rest ws others word apartRest spaced =>
        cases gap with
        | cons d more =>
            refine absurd (fun e first => ?_) apart
            obtain rfl : d = e := Option.some.inj first
            exact others d (List.mem_cons_self ..)
        | nil =>
            have longer : IsWord (c :: w) :=
              ⟨List.cons_ne_nil c w, List.forall_mem_cons.mpr ⟨solid, word.solid⟩⟩
            exact ⟨(c :: w) :: ws, .word noGap longer apartRest spaced⟩

theorem exists_spaced (cs : List Char) : ∃ ws, Spaced ws cs := by
  induction cs with
  | nil => exact ⟨[], .nothing nofun⟩
  | cons c rest ih =>
      obtain ⟨ws, spaced⟩ := ih
      cases blank : isBlank c with
      | true => exact ⟨ws, spaced.cons_blank blank⟩
      | false => exact spaced.exists_cons_solid blank

/-- Cutting a text into words undoes putting it together from them, whatever the blanks. -/
theorem words_eq_iff : words cs = ws ↔ Spaced ws cs := by
  constructor
  · intro cut
    obtain ⟨vs, spaced⟩ := exists_spaced cs
    rw [← cut, words_of_spaced spaced]
    exact spaced
  · exact words_of_spaced

/-- What begins a text and is not blank begins its first word. -/
theorem Spaced.begins {c : Char} (solid : isBlank c = false) (spaced : Spaced ws (c :: cs)) :
    ∃ w rest, ws = w :: rest ∧ w.head? = some c := by
  generalize whole : c :: cs = text at spaced
  cases spaced with
  | nothing blank =>
      have blankFirst := blank c (whole ▸ List.mem_cons_self ..)
      rw [solid] at blankFirst
      cases blankFirst
  | @word gap w rest ws blank word apart others =>
      refine ⟨w, ws, rfl, ?_⟩
      cases gap with
      | cons d more =>
          obtain rfl : c = d := (List.cons.inj whole).1
          have blankFirst := blank c (List.mem_cons_self ..)
          rw [solid] at blankFirst
          cases blankFirst
      | nil =>
          obtain ⟨d, letters, rfl⟩ := List.exists_cons_of_ne_nil word.ne_nil
          rw [(List.cons.inj whole).1]
          rfl

/-! ## Cuts -/

/-- The text is cut at the first `mark`, if it has one: what is before it and what is behind it. -/
inductive CutAt (mark : Char) : List Char → List Char → Option (List Char) → Prop
  | whole {cs : List Char} (unmarked : mark ∉ cs) : CutAt mark cs cs none
  | marked {before after : List Char} (unmarked : mark ∉ before) :
      CutAt mark (before ++ mark :: after) before (some after)

theorem cut_eq_iff {before : List Char} {after : Option (List Char)} :
    cut mark cs = (before, after) ↔ CutAt mark cs before after := by
  constructor
  · intro found
    obtain ⟨unmarked, whole⟩ := cut_spec mark cs
    rw [found] at unmarked whole
    cases after with
    | none =>
        rw [Option.map_none, Option.getD_none, List.append_nil] at whole
        subst whole
        exact .whole unmarked
    | some rest =>
        rw [Option.map_some, Option.getD_some] at whole
        subst whole
        exact .marked unmarked
  · intro found
    cases found with
    | whole unmarked => exact cut_of_notMem unmarked
    | marked unmarked => exact cut_append unmarked

theorem cut_append_left (unmarked : mark ∉ gap) (cs : List Char) :
    cut mark (gap ++ cs) = (gap ++ (cut mark cs).1, (cut mark cs).2) := by
  induction gap with
  | nil => rfl
  | cons c rest ih =>
      rw [List.mem_cons, not_or] at unmarked
      rw [List.cons_append, cut, if_neg (Ne.symm unmarked.1), ih unmarked.2]
      rfl

/-- What is put behind a text goes behind its mark, if it has one. -/
theorem cut_append_right (unmarked : mark ∉ gap) (cs : List Char) :
    cut mark (cs ++ gap) =
      match (cut mark cs).2 with
      | none => ((cut mark cs).1 ++ gap, none)
      | some after => ((cut mark cs).1, some (after ++ gap)) := by
  induction cs with
  | nil => exact cut_of_notMem unmarked
  | cons c rest ih =>
      rw [List.cons_append, cut, cut, ih]
      by_cases here : c = mark
      · rw [if_pos here, if_pos here]
      · rw [if_neg here, if_neg here]
        cases (cut mark rest).2 <;> rfl

/-! ## Blanks at the ends -/

theorem trimEnd_append_blanks (blank : ∀ c ∈ gap, isBlank c = true) (cs : List Char) :
    trimEnd (cs ++ gap) = trimEnd cs := by
  have blankReverse : ∀ c ∈ gap.reverse, isBlank c = true := fun c member => blank c (List.mem_reverse.mp member)
  rw [trimEnd, List.reverse_append, List.dropWhile_append_of_pos blankReverse, trimEnd]

theorem trim_append_blanks (blank : ∀ c ∈ gap, isBlank c = true) (cs : List Char) :
    trim (cs ++ gap) = trim cs := by
  have front : trimStart (cs ++ gap) = trimStart cs ++ gap ∨ trimStart (cs ++ gap) = trimStart cs := by
    rw [trimStart, trimStart, List.dropWhile_append]
    split
    · rename_i nothing
      rw [List.isEmpty_iff.mp nothing]
      exact .inr (List.dropWhile_eq_nil_iff.mpr blank)
    · exact .inl rfl
  rw [trim, trim]
  rcases front with kept | dropped
  · rw [kept, trimEnd_append_blanks blank]
  · rw [dropped]

section
variable (solidMark : isBlank mark = false) (cs : List Char)
include solidMark

/-- Where trimming takes blanks away they stood at the ends of the two parts. -/
theorem exists_cut_trim : ∃ before behind, (∀ c ∈ before, isBlank c = true) ∧ (∀ c ∈ behind, isBlank c = true) ∧
    cut mark cs =
      match (cut mark (trim cs)).2 with
      | none => (before ++ ((cut mark (trim cs)).1 ++ behind), none)
      | some after => (before ++ (cut mark (trim cs)).1, some (after ++ behind)) := by
  obtain ⟨before, behind, whole, blankBefore, blankBehind⟩ := exists_trim cs
  have unmarkedBefore : mark ∉ before := fun member => absurd (blankBefore mark member) (by simp [solidMark])
  have unmarkedBehind : mark ∉ behind := fun member => absurd (blankBehind mark member) (by simp [solidMark])
  refine ⟨before, behind, blankBefore, blankBehind, ?_⟩
  have parts := cut_append_left unmarkedBefore (trim cs ++ behind)
  rw [← List.append_assoc, ← whole, cut_append_right unmarkedBehind] at parts
  rw [parts]
  cases (cut mark (trim cs)).2 <;> rfl

/-- Blank at the ends of a line adds no word to what stands before its mark. -/
theorem words_cut_trim : words (cut mark (trim cs)).1 = words (cut mark cs).1 := by
  obtain ⟨before, behind, blankBefore, blankBehind, parts⟩ := exists_cut_trim solidMark cs
  rw [parts]
  cases (cut mark (trim cs)).2 with
  | none => exact ((words_blanks_append blankBefore _).trans (words_append_blanks blankBehind _)).symm
  | some after => exact (words_blanks_append blankBefore _).symm

theorem map_trim_cut_trim : (cut mark (trim cs)).2.map trim = (cut mark cs).2.map trim := by
  obtain ⟨before, behind, -, blankBehind, parts⟩ := exists_cut_trim solidMark cs
  rw [parts]
  cases (cut mark (trim cs)).2 with
  | none => rfl
  | some after => exact congrArg some (trim_append_blanks blankBehind after).symm

end

end MachineRegisters.Text
