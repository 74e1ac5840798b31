import MachineRegisters.Proofs.JoinedTexts
import MachineRegisters.Proofs.RoundTrip
import MachineRegisters.Proofs.SpacedWords
import Mathlib.Data.List.Forall2

/-! # Lines that define registers

A line that is neither blank nor a comment nor a binding is accepted just when its fields
follow the grammar (`Grammatical`), and then it defines the one register that they tell of
(`Defines`).  The amount of blank between the fields, the case of the names of classes and
carriage returns at the ends of lines have no part in what is read, not even in the faults
that are reported (`parse_of_restyled`, `parse_withReturns`). -/
set_option autoImplicit false
namespace MachineRegisters
open Text

theorem RegClass.ofKeyword?_eq_some_iff {text : List Char} {kind : RegClass} :
    ofKeyword? text = some kind ↔ sameLetters kind.keyword.toList text = true :=
  findKeyword_eq_some_iff ofKeyword?_keyword

theorem RegClass.noMark_of_spelled {text : List Char} {kind : RegClass}
    (spelled : sameLetters kind.keyword.toList text = true) : '@' ∉ text ∧ '=' ∉ text := by
  have none : '@' ∉ kind.keyword.toList.map Char.toLower ∧ '=' ∉ kind.keyword.toList.map Char.toLower := by
    cases kind <;> decide
  rw [sameLetters_iff.mp spelled] at none
  exact ⟨fun member => none.1 (List.mem_map_of_mem member), fun member => none.2 (List.mem_map_of_mem member)⟩

namespace Profile

/-! ## The grammar -/

inductive NamesClass : List Char → RegClass → RegClass → Prop
  | alone {text : List Char} {kind : RegClass} (spelled : sameLetters kind.keyword.toList text = true) :
      NamesClass text kind kind.home
  | inBank {text bankText : List Char} {kind bank : RegClass}
      (spelled : sameLetters kind.keyword.toList text = true)
      (bankSpelled : sameLetters bank.keyword.toList bankText = true) :
      NamesClass (text ++ '@' :: bankText) kind bank

inductive TellsPlace : List Char → Option Nat → Prop
  | behind : TellsPlace ['?'] none
  | given {text : List Char} {n : Nat} (read : readOffset? text = some n) : TellsPlace text (some n)

/-- What the fields behind the place tell of lanes and marks: one that reads as a size is a lane width. -/
inductive TellsRest : List (List Char) → Nat → Option String → Prop
  | nothing : TellsRest [] 0 none
  | lane {text : List Char} {n : Nat} (read : readSize? text = some n) : TellsRest [text] n none
  | marks {text : List Char} (unread : readSize? text = none) :
      TellsRest [text] 0 (some (String.ofList text))
  | both {text marks : List Char} {n : Nat} (read : readSize? text = some n) :
      TellsRest [text, marks] n (some (String.ofList marks))

/-- The fields of a line and what stands behind its `#` define the register. -/
inductive Defines (after : Option (List Char)) (d : Definition) : List (List Char) → Prop
  | line {classText name sizeText placeText : List Char} {more : List (List Char)}
      (names : NamesClass classText d.kind d.bank) (named : d.name = String.ofList name)
      (size : readSize? sizeText = some d.size) (size_pos : 0 < d.size)
      (place : TellsPlace placeText d.offset) (rest : TellsRest more d.lane d.flags)
      (comment : ∀ text, d.comment = some text ↔
        ∃ cs, after = some cs ∧ trim cs ≠ [] ∧ text = String.ofList (trim cs)) :
      Defines after d (classText :: name :: sizeText :: placeText :: more)

/-- A line has four to six fields: a class, a name, a size that is not zero, a place, perhaps a lane
width, and perhaps marks.  One field alone behind the place may be either, of two the first must be a
lane width. -/
def Grammatical (fields : List (List Char)) : Prop :=
  (fields.length = 4 ∨ fields.length = 5 ∨ fields.length = 6) ∧
    (∃ text ∈ fields[0]?, ∃ kind bank, NamesClass text kind bank) ∧
    (∃ text ∈ fields[2]?, ∃ n, readSize? text = some n ∧ n ≠ 0) ∧
    (∃ text ∈ fields[3]?, text = ['?'] ∨ ∃ n, readOffset? text = some n) ∧
    (fields.length = 6 → ∃ text ∈ fields[4]?, ∃ n, readSize? text = some n)

/-! ## Reading the fields -/

theorem readClass_eq_ok_iff {cs : List Char} {kind bank : RegClass} :
    readClass cs = .ok (kind, bank) ↔ NamesClass cs kind bank := by
  constructor
  · intro read
    obtain ⟨-, whole⟩ := cut_spec '@' cs
    unfold readClass at read
    cases kindRead : RegClass.ofKeyword? (cut '@' cs).1 with
    | none => simp [kindRead] at read
    | some k =>
        have spelled := RegClass.ofKeyword?_eq_some_iff.mp kindRead
        cases after : (cut '@' cs).2 with
        | none =>
            simp only [kindRead, after] at read
            cases read
            rw [after, Option.map_none, Option.getD_none, List.append_nil] at whole
            rw [whole]
            exact .alone spelled
        | some bankText =>
            cases bankRead : RegClass.ofKeyword? bankText with
            | none => simp [kindRead, after, bankRead] at read
            | some b =>
                simp only [kindRead, after, bankRead] at read
                cases read
                rw [after, Option.map_some, Option.getD_some] at whole
                rw [whole]
                exact .inBank spelled (RegClass.ofKeyword?_eq_some_iff.mp bankRead)
  · intro names
    cases names with
    | alone spelled =>
        simp only [readClass, cut_of_notMem (RegClass.noMark_of_spelled spelled).1,
          RegClass.ofKeyword?_eq_some_iff.mpr spelled]
    | inBank spelled bankSpelled =>
        simp only [readClass, cut_append (RegClass.noMark_of_spelled spelled).1,
          RegClass.ofKeyword?_eq_some_iff.mpr spelled, RegClass.ofKeyword?_eq_some_iff.mpr bankSpelled]

theorem readWidth_eq_ok_iff {name cs : List Char} {size : Nat} :
    readWidth name cs = .ok size ↔ readSize? cs = some size ∧ 0 < size := by
  constructor
  · exact readWidth_eq_ok
  · intro both
    rw [readWidth, both.1]
    exact if_neg (Nat.ne_of_gt both.2)

theorem readPlace_eq_ok_iff {cs : List Char} {offset : Option Nat} :
    readPlace cs = .ok offset ↔ TellsPlace cs offset := by
  constructor
  · intro read
    unfold readPlace at read
    split at read
    · rename_i mark
      cases read
      rw [mark]
      exact .behind
    · split at read
      · cases read
      · rename_i n found
        cases read
        exact .given found
  · intro tells
    cases tells with
    | behind => rfl
    | given read =>
        have noMark : cs ≠ ['?'] := by
          intro mark
          have nothing : readOffset? ['?'] = none := by decide
          rw [mark, nothing] at read
          cases read
        rw [readPlace, if_neg noMark, read]

theorem readMarks_readLane_iff {more : List (List Char)} {lane : Nat} {flags : Option String} :
    lane = (readLane more).1 ∧ readMarks (readLane more).2 = .ok flags ↔ TellsRest more lane flags := by
  constructor
  · intro both
    obtain ⟨rfl, read⟩ := both
    cases more with
    | nil =>
        cases read
        exact .nothing
    | cons text rest =>
        cases laneRead : readSize? text with
        | none =>
            simp only [readLane, laneRead] at read ⊢
            cases rest with
            | nil =>
                cases read
                exact .marks laneRead
            | cons extra more => cases read
        | some n =>
            simp only [readLane, laneRead] at read ⊢
            cases rest with
            | nil =>
                cases read
                exact .lane laneRead
            | cons marks others =>
                cases others with
                | nil =>
                    cases read
                    exact .both laneRead
                | cons extra more => cases read
  · intro tells
    cases tells with
    | nothing => exact ⟨rfl, rfl⟩
    | lane read => simp [readLane, readMarks, read]
    | marks unread => simp [readLane, readMarks, unread]
    | both read => simp [readLane, readMarks, read]

theorem eq_readComment_iff {after : Option (List Char)} {comment : Option String} :
    comment = readComment after ↔ ∀ text, comment = some text ↔
      ∃ cs, after = some cs ∧ trim cs ≠ [] ∧ text = String.ofList (trim cs) := by
  have told : ∀ text, readComment after = some text ↔
      ∃ cs, after = some cs ∧ trim cs ≠ [] ∧ text = String.ofList (trim cs) := by
    intro text
    cases after with
    | none => simp [readComment]
    | some cs =>
        rw [readComment]
        by_cases empty : trim cs = []
        · simp [empty]
        · rw [if_neg empty]
          simp [empty, eq_comm (a := text)]
  constructor
  · rintro rfl
    exact told
  · intro tells
    apply Option.ext
    intro text
    exact (tells text).trans (told text).symm

theorem readDefinition_iff_defines {cs : List Char} {d : Definition} :
    readDefinition cs = .ok d ↔ Defines (cut '#' cs).2 d (words (cut '#' cs).1) := by
  rw [readDefinition_eq_ok_iff]
  constructor
  · intro read
    obtain ⟨classText, name, sizeText, placeText, more, fields, classRead, widthRead, placeRead, marksRead,
      named, lane, comment⟩ := read
    obtain ⟨size, positive⟩ := readWidth_eq_ok_iff.mp widthRead
    rw [fields]
    exact .line (readClass_eq_ok_iff.mp classRead) named size positive (readPlace_eq_ok_iff.mp placeRead)
      (readMarks_readLane_iff.mp ⟨lane, marksRead⟩) (eq_readComment_iff.mp comment)
  · intro defines
    generalize fields : words (cut '#' cs).1 = ws at defines
    cases defines with
    | line names named size positive place rest comment =>
        obtain ⟨lane, marks⟩ := readMarks_readLane_iff.mpr rest
        exact ⟨_, _, _, _, _, rfl, readClass_eq_ok_iff.mpr names, readWidth_eq_ok_iff.mpr ⟨size, positive⟩,
          readPlace_eq_ok_iff.mpr place, marks, named, lane, eq_readComment_iff.mpr comment⟩

theorem exists_tellsRest_iff {more : List (List Char)} :
    (∃ lane flags, TellsRest more lane flags) ↔
      more.length ≤ 2 ∧ (more.length = 2 → ∃ text ∈ more[0]?, ∃ n, readSize? text = some n) := by
  constructor
  · intro told
    obtain ⟨lane, flags, tells⟩ := told
    cases tells with
    | nothing => simp
    | lane read => simp
    | marks unread => simp
    | both read => simp [read]
  · intro formed
    match more, formed with
    | [], _ => exact ⟨_, _, .nothing⟩
    | [text], _ =>
        cases laneRead : readSize? text with
        | none => exact ⟨_, _, .marks laneRead⟩
        | some n => exact ⟨_, _, .lane laneRead⟩
    | [text, marks], ⟨_, isLane⟩ =>
        obtain ⟨first, here, n, laneRead⟩ := isLane rfl
        cases here
        exact ⟨_, _, .both laneRead⟩
    | _ :: _ :: _ :: rest, ⟨short, _⟩ => simp at short

theorem exists_defines_iff {after : Option (List Char)} {fields : List (List Char)} :
    (∃ d, Defines after d fields) ↔ Grammatical fields := by
  constructor
  · intro defined
    obtain ⟨d, defines⟩ := defined
    cases defines with
    | @line classText name sizeText placeText more names named size positive place rest comment =>
        obtain ⟨short, isLane⟩ := exists_tellsRest_iff.mp ⟨_, _, rest⟩
        refine ⟨?_, ⟨classText, rfl, _, _, names⟩, ⟨sizeText, rfl, _, size, Nat.ne_of_gt positive⟩,
          ⟨placeText, rfl, ?_⟩, ?_⟩
        · simp only [List.length_cons]
          omega
        · generalize d.offset = offset at place
          cases place with
          | behind => exact .inl rfl
          | given read => exact .inr ⟨_, read⟩
        · intro six
          simp only [List.length_cons] at six
          exact isLane (by omega)
  · intro grammatical
    obtain ⟨count, ⟨_, atClass, kind, bank, names⟩, ⟨_, atSize, size, sizeRead, nonzero⟩,
      ⟨_, atPlace, placed⟩, isLane⟩ := grammatical
    match fields, atClass, atSize, atPlace with
    | classText :: name :: sizeText :: placeText :: more, rfl, rfl, rfl =>
        simp only [List.length_cons] at count isLane
        obtain ⟨lane, flags, rest⟩ := exists_tellsRest_iff.mpr
          ⟨by omega, fun two => isLane (by omega)⟩
        obtain ⟨offset, place⟩ : ∃ offset, TellsPlace placeText offset := by
          rcases placed with rfl | ⟨n, read⟩
          · exact ⟨none, .behind⟩
          · exact ⟨some n, .given read⟩
        exact ⟨⟨kind, bank, String.ofList name, size, lane, offset, readComment after, flags⟩,
          .line names rfl sizeRead (Nat.pos_of_ne_zero nonzero) place rest (eq_readComment_iff.mp rfl)⟩

/-! ## What does not matter -/

def SameName (cs cs' : List Char) : Prop :=
  cs = cs' ∨ ∃ kind : RegClass,
    sameLetters kind.keyword.toList cs = true ∧ sameLetters kind.keyword.toList cs' = true

/-- The same class in the same bank, the names of either in any case. -/
inductive SameClass : List Char → List Char → Prop
  | alone {cs cs' : List Char} (same : SameName cs cs') : SameClass cs cs'
  | inBank {cs cs' bs bs' : List Char} (unmarked : '@' ∉ cs) (same : SameName cs cs')
      (sameBank : SameName bs bs') : SameClass (cs ++ '@' :: bs) (cs' ++ '@' :: bs')

/-- Lines that are written differently and say the same: one may end in a carriage return, or both are
made of the same fields with other blanks, another spelling of the class and other blanks around the
comment. -/
inductive Restyled : List Char → List Char → Prop
  | same (line : List Char) : Restyled line line
  | ended (line : List Char) : Restyled line (line ++ ['\r'])
  | respelled {line line' body body' first first' : List Char} {rest : List (List Char)}
      {after after' : Option (List Char)} (cut : CutAt '#' line body after) (cut' : CutAt '#' line' body' after')
      (spaced : Spaced (first :: rest) body) (spaced' : Spaced (first' :: rest) body')
      (noBinding : first.head? ≠ some '=') (sameClass : SameClass first first')
      (sameComment : after.map trim = after'.map trim) : Restyled line line'

/-- A text that is no name has no other spelling, so a fault that shows it shows the same. -/
theorem SameName.cases {cs cs' : List Char} (same : SameName cs cs') :
    (RegClass.ofKeyword? cs = none ∧ cs' = cs) ∨
      ∃ kind, RegClass.ofKeyword? cs = some kind ∧ RegClass.ofKeyword? cs' = some kind := by
  rcases same with rfl | ⟨kind, spelled, spelledToo⟩
  · cases known : RegClass.ofKeyword? cs with
    | none => exact .inl ⟨rfl, rfl⟩
    | some kind => exact .inr ⟨kind, rfl, rfl⟩
  · exact .inr ⟨kind, RegClass.ofKeyword?_eq_some_iff.mpr spelled, RegClass.ofKeyword?_eq_some_iff.mpr spelledToo⟩

theorem SameName.unmarked {cs cs' : List Char} (same : SameName cs cs') (unmarked : '@' ∉ cs) : '@' ∉ cs' := by
  rcases same with rfl | ⟨kind, -, spelled⟩
  · exact unmarked
  · exact (RegClass.noMark_of_spelled spelled).1

theorem SameClass.readClass_eq {cs cs' : List Char} (same : SameClass cs cs') : readClass cs' = readClass cs := by
  cases same with
  | alone same =>
      rcases same with rfl | ⟨kind, spelled, spelledToo⟩
      · rfl
      · rw [readClass_eq_ok_iff.mpr (.alone spelled), readClass_eq_ok_iff.mpr (.alone spelledToo)]
  | inBank unmarked same sameBank =>
      simp only [readClass, cut_append unmarked, cut_append (same.unmarked unmarked)]
      rcases same.cases with ⟨unknown, rfl⟩ | ⟨kind, known, knownToo⟩
      · simp only [unknown]
      · rcases sameBank.cases with ⟨unknownBank, rfl⟩ | ⟨bank, knownBank, knownBankToo⟩
        · simp only [known, knownToo]
        · simp only [known, knownToo, knownBank, knownBankToo]

theorem SameName.noBinding {cs cs' : List Char} (same : SameName cs cs') (noBinding : cs.head? ≠ some '=') :
    cs'.head? ≠ some '=' := by
  rcases same with rfl | ⟨kind, -, spelled⟩
  · exact noBinding
  · exact fun first => (RegClass.noMark_of_spelled spelled).2 (List.mem_of_mem_head? first)

theorem SameClass.noBinding {cs cs' : List Char} (same : SameClass cs cs') (noBinding : cs.head? ≠ some '=') :
    cs'.head? ≠ some '=' := by
  cases same with
  | alone same => exact same.noBinding noBinding
  | @inBank cs cs' bs bs' unmarked same sameBank =>
      have noBindingName : cs.head? ≠ some '=' := by
        intro first
        rw [List.head?_append, first] at noBinding
        exact noBinding rfl
      intro first
      rw [List.head?_append] at first
      cases cs' with
      | nil => cases first
      | cons c rest => exact same.noBinding noBindingName first

theorem readComment_eq (after : Option (List Char)) :
    readComment after = (after.map trim).bind fun text => if text = [] then none else some (String.ofList text) := by
  cases after <;> rfl

theorem readDefinition_congr {cs cs' first first' : List Char} {rest : List (List Char)}
    (fields : words (cut '#' cs).1 = first :: rest) (fields' : words (cut '#' cs').1 = first' :: rest)
    (sameClass : readClass first' = readClass first)
    (sameComment : (cut '#' cs).2.map trim = (cut '#' cs').2.map trim) :
    readDefinition cs' = readDefinition cs := by
  unfold readDefinition
  simp only [fields, fields', readComment_eq, sameComment]
  match rest with
  | [] => rfl
  | [_] => rfl
  | [_, _] => rfl
  | _ :: _ :: _ :: more => simp only [sameClass]

/-- A line whose first word begins no binding is read as a definition, blanks around it or not. -/
theorem readLine_of_fields {cs first : List Char} {rest : List (List Char)}
    (fields : words (cut '#' cs).1 = first :: rest) (noBinding : first.head? ≠ some '=') :
    readLine cs = (readDefinition cs).map fun d => ⟨[], [d]⟩ := by
  have solidHash : isBlank '#' = false := by decide
  have trimmedFields := (words_cut_trim solidHash cs).trans fields
  rw [readDefinition_congr trimmedFields fields rfl (map_trim_cut_trim solidHash cs)]
  cases line : trim cs with
  | nil =>
      rw [line] at trimmedFields
      cases words_nil.symm.trans trimmedFields
  | cons c more =>
      have noComment : c ≠ '#' := by
        rintro rfl
        rw [line, cut, if_pos rfl] at trimmedFields
        cases words_nil.symm.trans trimmedFields
      have solid : isBlank c = false := (isTrimmed_trim cs).first c (line ▸ rfl)
      rw [line, cut, if_neg noComment] at trimmedFields
      obtain ⟨w, others, same, begins⟩ := (words_eq_iff.mp trimmedFields).begins solid
      cases same
      exact readLine_of_trim line noComment fun binding => noBinding (binding ▸ begins)

theorem exists_fields_of_trim {cs : List Char} (nonempty : trim cs ≠ [])
    (start : ∀ c ∈ (trim cs).head?, c ≠ '#' ∧ c ≠ '=') :
    ∃ first rest, words (cut '#' cs).1 = first :: rest ∧ first.head? ≠ some '=' := by
  obtain ⟨c, more, line⟩ := List.exists_cons_of_ne_nil nonempty
  have solid : isBlank c = false := (isTrimmed_trim cs).first c (line ▸ rfl)
  obtain ⟨noComment, noBinding⟩ := start c (line ▸ rfl)
  obtain ⟨fields, spaced⟩ := exists_spaced (c :: (cut '#' more).1)
  obtain ⟨first, rest, rfl, begins⟩ := spaced.begins solid
  refine ⟨first, rest, ?_, ?_⟩
  · rw [← words_cut_trim (by decide), line, cut, if_neg noComment]
    exact words_of_spaced spaced
  · rw [begins]
    exact fun same => noBinding (Option.some.inj same)

theorem readLine_of_trim_eq {cs cs' : List Char} (same : trim cs = trim cs') : readLine cs = readLine cs' := by
  rw [readLine, readLine, same]

theorem Restyled.readLine_eq {line line' : List Char} (restyled : Restyled line line') :
    readLine line' = readLine line := by
  cases restyled with
  | same => rfl
  | ended => exact readLine_of_trim_eq (trim_append_blanks (List.forall_mem_singleton.mpr (by decide)) line)
  | respelled cut cut' spaced spaced' noBinding sameClass sameComment =>
      rw [← cut_eq_iff] at cut cut'
      rw [← words_eq_iff] at spaced spaced'
      have fields := (congrArg (fun parts => words parts.1) cut).trans spaced
      have fields' := (congrArg (fun parts => words parts.1) cut').trans spaced'
      rw [readLine_of_fields fields noBinding, readLine_of_fields fields' (sameClass.noBinding noBinding),
        readDefinition_congr fields fields' sameClass.readClass_eq]
      rw [cut, cut']
      exact sameComment

theorem ofLines_congr {ls ls' : List (List Char)}
    (same : List.Forall₂ (fun line line' => readLine line' = readLine line) ls ls') (n : Nat) :
    ofLines (ls'.zipIdx n) = ofLines (ls.zipIdx n) := by
  induction same generalizing n with
  | nil => rfl
  | cons first _ ih => rw [List.zipIdx_cons, List.zipIdx_cons, ofLines, ofLines, first, ih]

/-- A text says the same with any of its lines restyled, the faults in it included. -/
theorem parse_of_restyled {text text' : List Char} (restyled : List.Forall₂ Restyled (lines text) (lines text')) :
    parse text' = parse text :=
  ofLines_congr (restyled.imp fun _ _ each => each.readLine_eq) 1

/-! ## Lines that end in a carriage return and a line feed -/

def withReturns (cs : List Char) : List Char := cs.flatMap fun c => if c = '\n' then ['\r', '\n'] else [c]

theorem lines_cons_of_ne {c : Char} (noFeed : c ≠ '\n') (cs : List Char) :
    lines (c :: cs) = (lines cs).modifyHead (List.cons c) := by
  rw [lines, List.splitOn_cons_eq_if_modifyHead, if_neg (by simpa using noFeed)]
  rfl

theorem lines_withReturns (cs : List Char) :
    List.Forall₂ (fun line line' => line' = line ∨ line' = line ++ ['\r']) (lines cs) (lines (withReturns cs)) := by
  induction cs with
  | nil => exact .cons (.inl rfl) .nil
  | cons c rest ih =>
      by_cases feed : c = '\n'
      · subst feed
        have before : lines ('\n' :: rest) = [[]] ++ lines rest := lines_append_lf [] rest
        have after : lines (withReturns ('\n' :: rest)) = [['\r']] ++ lines (withReturns rest) :=
          lines_append_lf ['\r'] (withReturns rest)
        rw [before, after]
        exact .cons (.inr rfl) ih
      · have after : withReturns (c :: rest) = c :: withReturns rest := by
          rw [withReturns, List.flatMap_cons, if_neg feed]
          rfl
        rw [after, lines_cons_of_ne feed, lines_cons_of_ne feed]
        -- Only the first line gets longer, by the same character in both texts.
        generalize lines rest = ls, lines (withReturns rest) = ls' at ih
        cases ih with
        | nil => exact .nil
        | cons first others =>
            refine .cons ?_ others
            rcases first with same | ended
            · exact .inl (congrArg (List.cons c) same)
            · exact .inr (congrArg (List.cons c) ended)

theorem parse_withReturns (text : List Char) : parse (withReturns text) = parse text := by
  refine parse_of_restyled ((lines_withReturns text).imp ?_)
  intro line line' each
  rcases each with same | ended
  · rw [same]
    exact .same line
  · rw [ended]
    exact .ended line

/-! ## One line -/

/-- A line that is neither blank nor a comment nor a binding is accepted just when the words before its
first `#` follow the grammar, and it gives the one definition that they and its comment tell of.  In any
text other blanks between words, another spelling of the names of classes and carriage returns at the
ends of lines change neither what is read nor the fault that is reported. -/
theorem parse_definition_line {line : List Char} (single : '\n' ∉ line) (nonempty : trim line ≠ [])
    (start : ∀ c ∈ (trim line).head?, c ≠ '#' ∧ c ≠ '=') :
    ∃ body after fields, CutAt '#' line body after ∧ Spaced fields body ∧
      ((∃ p, parse line = .ok p) ↔ Grammatical fields) ∧
      (∀ p, parse line = .ok p ↔ ∃ d, p = ⟨[], [d]⟩ ∧ Defines after d fields) ∧
      (∀ text text', List.Forall₂ Restyled (lines text) (lines text') → parse text' = parse text) ∧
      ∀ text, parse (withReturns text) = parse text := by
  obtain ⟨first, rest, fields, noBinding⟩ := exists_fields_of_trim nonempty start
  have read : ∀ p, parse line = .ok p ↔
      ∃ d, p = ⟨[], [d]⟩ ∧ Defines (cut '#' line).2 d (first :: rest) := by
    intro p
    rw [parse_line single, readLine_of_fields fields noBinding]
    simp only [← fields, ← readDefinition_iff_defines]
    cases readDefinition line with
    | error fault => simp [Except.map, Except.mapError]
    | ok d => simp [Except.map, Except.mapError, eq_comm]
  refine ⟨(cut '#' line).1, (cut '#' line).2, first :: rest, cut_eq_iff.mp rfl, words_eq_iff.mp fields, ?_,
    read, fun text text' => parse_of_restyled, parse_withReturns⟩
  have defined : (∃ d, Defines (cut '#' line).2 d (first :: rest)) ↔ Grammatical (first :: rest) :=
    exists_defines_iff
  rw [← defined]
  constructor
  · intro accepted
    obtain ⟨p, parsed⟩ := accepted
    obtain ⟨d, -, defines⟩ := (read p).mp parsed
    exact ⟨d, defines⟩
  · intro defined
    obtain ⟨d, defines⟩ := defined
    exact ⟨_, (read _).mpr ⟨d, rfl, defines⟩⟩

/-- A class in another's bank, an em space and a carriage return, marks where a lane width could stand,
and a `#` in the comment; the same with other blanks and letters, as the second of two lines. -/
theorem parse_definition_line_spaced :
    ∃ line fields d, '\n' ∉ line ∧ Grammatical fields ∧ fields.length = 5 ∧
      parse line = .ok ⟨[], [d]⟩ ∧ d.bank = .float ∧ d.lane = 0 ∧ d.flags = some "nzcv" ∧
      d.comment = some "no # 1" ∧
      parse (withReturns "gpr a 1 0\nVC@FpU q0 .128 ? nzcv# no # 1".toList) =
        parse ("gpr a 1 0\n".toList ++ line) := by
  have single : '\n' ∉ "\tvC@fpu q0\u2003\u2003.128 ?\tnzcv #no # 1\r".toList := by decide
  have first : (trim "\tvC@fpu q0\u2003\u2003.128 ?\tnzcv #no # 1\r".toList).head? = some 'v' := by decide +kernel
  have start : ∀ c ∈ some 'v', c ≠ '#' ∧ c ≠ '=' := by
    intro c here
    cases here
    decide
  obtain ⟨body, after, fields, cutHere, spaced, accepted, -, restyled, returned⟩ :=
    parse_definition_line single (by decide +kernel) (first ▸ start)
  have cutLine : cut '#' "\tvC@fpu q0\u2003\u2003.128 ?\tnzcv #no # 1\r".toList =
      ("\tvC@fpu q0\u2003\u2003.128 ?\tnzcv ".toList, some "no # 1\r".toList) := by decide +kernel
  obtain ⟨rfl, rfl⟩ := Prod.mk.inj (cutLine.symm.trans (cut_eq_iff.mpr cutHere))
  have fieldsLine : words "\tvC@fpu q0\u2003\u2003.128 ?\tnzcv ".toList =
      ["vC@fpu".toList, "q0".toList, ".128".toList, ['?'], "nzcv".toList] := by decide +kernel
  obtain rfl := fieldsLine.symm.trans (words_of_spaced spaced)
  have parsed : parse "\tvC@fpu q0\u2003\u2003.128 ?\tnzcv #no # 1\r".toList =
      .ok ⟨[], [⟨.vector, .float, "q0", 128, 0, none, some "no # 1", some "nzcv"⟩]⟩ := by decide +kernel
  refine ⟨_, _, _, single, accepted.mp ⟨_, parsed⟩, rfl, parsed, rfl, rfl, rfl, rfl, ?_⟩
  have sameClass : SameClass ("vC".toList ++ '@' :: "fpu".toList) ("VC".toList ++ '@' :: "FpU".toList) :=
    .inBank (by decide) (.inr ⟨.vector, by decide, by decide⟩) (.inr ⟨.float, by decide, by decide⟩)
  have cutThere : cut '#' "VC@FpU q0 .128 ? nzcv# no # 1".toList =
      ("VC@FpU q0 .128 ? nzcv".toList, some " no # 1".toList) := by decide +kernel
  have sameLine : Restyled "\tvC@fpu q0\u2003\u2003.128 ?\tnzcv #no # 1\r".toList
      "VC@FpU q0 .128 ? nzcv# no # 1".toList :=
    .respelled cutHere (cut_eq_iff.mp cutThere) spaced (words_eq_iff.mp (by decide +kernel)) (by decide) sameClass
      (by decide +kernel)
  have linesHere : lines ("gpr a 1 0\n".toList ++ "\tvC@fpu q0\u2003\u2003.128 ?\tnzcv #no # 1\r".toList) =
      ["gpr a 1 0".toList, "\tvC@fpu q0\u2003\u2003.128 ?\tnzcv #no # 1\r".toList] := by decide +kernel
  have linesThere : lines "gpr a 1 0\nVC@FpU q0 .128 ? nzcv# no # 1".toList =
      ["gpr a 1 0".toList, "VC@FpU q0 .128 ? nzcv# no # 1".toList] := by decide +kernel
  rw [returned]
  refine restyled _ _ ?_
  rw [linesHere, linesThere]
  exact .cons (.same _) (.cons sameLine .nil)

end Profile
end MachineRegisters
