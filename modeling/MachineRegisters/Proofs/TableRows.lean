import MachineRegisters.Proofs.FirstFaults
import MachineRegisters.Proofs.Numerals
import MachineRegisters.Proofs.RoundTrip
import Mathlib.Algebra.Order.Ring.Nat
import Mathlib.Data.List.Forall2

/-! # What a debugger's table says

A line of a debugger's table either says nothing of a register (`Ignorable`) or describes
one (`Describes`), or else it is at fault.  The definition line that is made of a row is read
as the definition that the row describes, unless the name would begin a comment or the offset
is too large in bits (`readLine_print_eq_ok_iff`).  So a table is read just when all its lines
are of the first two kinds, and gives one definition for each of the second
(`ofDebuggerRows_exact`). -/
set_option autoImplicit false
namespace MachineRegisters
open Text

namespace DebuggerRow

/-! ## What a line says -/

/-- The line is a row with the register's name, type, offset and size in bytes; the two columns
behind the name may hold anything, and more columns may follow. -/
def Shows (cs name type : List Char) (offset size : Nat) : Prop :=
  ∃ number relative offsetText sizeText more,
    words cs = name :: number :: relative :: offsetText :: sizeText :: type :: more ∧
      IsNumber32 offsetText offset ∧ IsNumber32 sizeText size

def IsMark (first : List Char) : Prop := first = "Name".toList ∨ first.head? = some '*'

instance (first : List Char) : Decidable (IsMark first) :=
  inferInstanceAs (Decidable (first = "Name".toList ∨ first.head? = some '*'))

def IsVacant (name : List Char) (size : Nat) : Prop := name = "''".toList ∨ size = 0

instance (name : List Char) (size : Nat) : Decidable (IsVacant name size) :=
  inferInstanceAs (Decidable (name = "''".toList ∨ size = 0))

inductive Ignorable (cs : List Char) : Prop
  | blank (empty : words cs = [])
  | marked {first : List Char} {rest : List (List Char)} (fields : words cs = first :: rest)
      (mark : IsMark first)
  | vacant {name type : List Char} {offset size : Nat} (shown : Shows cs name type offset size)
      (vacant : IsVacant name size)

def Describes (cs : List Char) (d : Definition) : Prop :=
  ∃ name type offset size, Shows cs name type offset size ∧ offset < 2 ^ 29 ∧ size < 2 ^ 29 ∧ '#' ∉ name ∧
    d = { kind := classOf name type
          bank := (classOf name type).home
          name := String.ofList name
          size := 8 * size
          lane := 0
          offset := some (8 * offset)
          comment := none
          flags := none }

theorem lt_two_pow_29_iff {n : Nat} : n < 2 ^ 29 ↔ 8 * n < UInt32.size := by
  have whole : UInt32.size = 8 * 2 ^ 29 := rfl
  omega

section Line
variable {cs name offsetText sizeText type : List Char} {row : DebuggerRow}

theorem ofFields_of_numbers {offset size : Nat} (offsetRead : IsNumber32 offsetText offset)
    (sizeRead : IsNumber32 sizeText size) : ofFields name offsetText sizeText type =
      if IsVacant name size then .ok none
      else if size < 2 ^ 29 then .ok (some ⟨classOf name type, name, 8 * size, offset⟩)
      else .error (.sizeTooLarge size) := by
  simp only [ofFields, readNumber?_eq_some_iff.mpr offsetRead, readNumber?_eq_some_iff.mpr sizeRead]
  apply ite_congr rfl (fun _ => rfl)
  intro _
  by_cases small : size < 2 ^ 29
  · rw [if_pos small, fits32, if_pos (lt_two_pow_29_iff.mp small)]
  · rw [if_neg small, fits32, if_neg (small ∘ lt_two_pow_29_iff.mpr)]

theorem numbers_of_ofFields {row? : Option DebuggerRow} (read : ofFields name offsetText sizeText type = .ok row?) :
    ∃ offset size, IsNumber32 offsetText offset ∧ IsNumber32 sizeText size := by
  unfold ofFields at read
  split at read
  · cases read
  · rename_i offset offsetRead
    split at read
    · cases read
    · rename_i size sizeRead
      exact ⟨offset, size, readNumber?_eq_some_iff.mp offsetRead, readNumber?_eq_some_iff.mp sizeRead⟩

theorem ofFields_eq_ok_iff {row? : Option DebuggerRow} : ofFields name offsetText sizeText type = .ok row? ↔
    ∃ offset size, IsNumber32 offsetText offset ∧ IsNumber32 sizeText size ∧
      (IsVacant name size ∧ row? = none ∨
        ¬IsVacant name size ∧ size < 2 ^ 29 ∧ row? = some ⟨classOf name type, name, 8 * size, offset⟩) := by
  constructor
  · intro read
    obtain ⟨offset, size, offsetRead, sizeRead⟩ := numbers_of_ofFields read
    refine ⟨offset, size, offsetRead, sizeRead, ?_⟩
    rw [ofFields_of_numbers offsetRead sizeRead] at read
    split at read
    · exact .inl ⟨‹_›, (Except.ok.inj read).symm⟩
    · split at read
      · exact .inr ⟨‹_›, ‹_›, (Except.ok.inj read).symm⟩
      · cases read
  · rintro ⟨offset, size, offsetRead, sizeRead, ⟨vacant, rfl⟩ | ⟨occupied, small, rfl⟩⟩
    · rw [ofFields_of_numbers offsetRead sizeRead, if_pos vacant]
    · rw [ofFields_of_numbers offsetRead sizeRead, if_neg occupied, if_pos small]

theorem ofLine_of_mark {first : List Char} {rest : List (List Char)} (fields : words cs = first :: rest)
    (mark : IsMark first) : ofLine cs = .ok none := by
  simp only [ofLine, fields]
  exact if_pos mark

theorem ofLine_of_columns {number relative : List Char} {more : List (List Char)}
    (fields : words cs = name :: number :: relative :: offsetText :: sizeText :: type :: more)
    (unmarked : ¬IsMark name) : ofLine cs = ofFields name offsetText sizeText type := by
  simp only [ofLine, fields]
  exact if_neg unmarked

theorem ofLine_eq_none_iff : ofLine cs = .ok none ↔ Ignorable cs := by
  constructor
  · intro read
    unfold ofLine at read
    split at read
    · exact .blank ‹_›
    · rename_i first rest fields
      split at read
      · exact .marked fields ‹_›
      · split at read
        · obtain ⟨offset, size, offsetRead, sizeRead, ⟨vacant, -⟩ | ⟨-, -, none⟩⟩ := ofFields_eq_ok_iff.mp read
          · exact .vacant ⟨_, _, _, _, _, fields, offsetRead, sizeRead⟩ vacant
          · cases none
        · cases read
  · intro ignorable
    cases ignorable with
    | blank empty => simp only [ofLine, empty]
    | marked fields mark => exact ofLine_of_mark fields mark
    | @vacant name _ offset size shown vacant =>
        obtain ⟨number, relative, offsetText, sizeText, more, fields, offsetRead, sizeRead⟩ := shown
        by_cases mark : IsMark name
        · exact ofLine_of_mark fields mark
        · rw [ofLine_of_columns fields mark]
          exact ofFields_eq_ok_iff.mpr ⟨offset, size, offsetRead, sizeRead, .inl ⟨vacant, rfl⟩⟩

theorem ofLine_eq_some_iff : ofLine cs = .ok (some row) ↔
    ¬Ignorable cs ∧ ∃ type size, Shows cs row.name type row.offset size ∧ size < 2 ^ 29 ∧
      row.kind = classOf row.name type ∧ row.bits = 8 * size := by
  constructor
  · intro read
    refine ⟨fun ignorable => ?_, ?_⟩
    · cases read.symm.trans (ofLine_eq_none_iff.mpr ignorable)
    · unfold ofLine at read
      split at read
      · cases read
      · rename_i first rest fields
        split at read
        · cases read
        · split at read
          · obtain ⟨offset, size, offsetRead, sizeRead, ⟨-, none⟩ | ⟨-, small, same⟩⟩ :=
              ofFields_eq_ok_iff.mp read
            · cases none
            · cases same
              exact ⟨_, size, ⟨_, _, _, _, _, fields, offsetRead, sizeRead⟩, small, rfl, rfl⟩
          · cases read
  · rintro ⟨telling, type, size, shown, small, kind, bits⟩
    have occupied : ¬IsVacant row.name size := fun vacant => telling (.vacant shown vacant)
    obtain ⟨number, relative, offsetText, sizeText, more, fields, offsetRead, sizeRead⟩ := shown
    have unmarked : ¬IsMark row.name := fun mark => telling (.marked fields mark)
    rw [ofLine_of_columns fields unmarked]
    refine ofFields_eq_ok_iff.mpr ⟨row.offset, size, offsetRead, sizeRead, .inr ⟨occupied, small, ?_⟩⟩
    rw [← kind, ← bits]

instance (cs : List Char) : Decidable (Ignorable cs) :=
  decidable_of_iff (ofLine cs = .ok none) ofLine_eq_none_iff

end Line

/-! ## The definition line of a row -/

/-- What is always so of the row that is read in a line. -/
structure WellFormed (row : DebuggerRow) : Prop where
  name : IsWord row.name
  bits_pos : 0 < row.bits
  bits_lt : row.bits < UInt32.size
  offset_lt : row.offset < UInt32.size

theorem wellFormed_of_ofLine {cs : List Char} {row : DebuggerRow} (read : ofLine cs = .ok (some row)) :
    row.WellFormed := by
  obtain ⟨telling, type, size, shown, small, -, bits⟩ := ofLine_eq_some_iff.mp read
  have positive : size ≠ 0 := fun none => telling (.vacant shown (.inr none))
  obtain ⟨number, relative, offsetText, sizeText, more, fields, offsetRead, -⟩ := shown
  refine ⟨isWord_name_of_ofLine read, by omega, ?_, offsetRead.small⟩
  rw [bits]
  exact lt_two_pow_29_iff.mp small

def definition (row : DebuggerRow) : Definition where
  kind := row.kind
  bank := row.kind.home
  name := String.ofList row.name
  size := row.bits
  lane := 0
  offset := some (8 * row.offset)
  comment := none
  flags := none

def fields (row : DebuggerRow) : List (List Char) :=
  [row.kind.keyword.toList, row.name, bitCount row.bits, decimal row.offset, ['0']]

theorem print_eq (row : DebuggerRow) : row.print = ['\t'].intercalate row.fields := rfl

section Print
variable {row : DebuggerRow}

theorem WellFormed.isWord_of_mem_fields (formed : row.WellFormed) {w : List Char} (member : w ∈ row.fields) :
    IsWord w := by
  simp only [fields, List.mem_cons, List.not_mem_nil, or_false] at member
  rcases member with rfl | rfl | rfl | rfl | rfl
  · exact row.kind.isField_keyword.toIsWord
  · exact formed.name
  · exact (isField_bitCount row.bits).toIsWord
  · exact isWord_decimal row.offset
  · exact isWord_decimal 0

theorem WellFormed.readLine_print (formed : row.WellFormed) :
    Profile.readLine row.print = (Profile.readDefinition row.print).map fun d => ⟨[], [d]⟩ := by
  have trimmed : IsTrimmed row.print := isTrimmed_intercalate '\t' fun w member =>
    ⟨(formed.isWord_of_mem_fields member).ne_nil, (formed.isWord_of_mem_fields member).isTrimmed⟩
  have begins : row.kind.keyword.toList <+: row.print := prefix_intercalate ..
  obtain ⟨c, rest, whole, -, noComment, noBinding⟩ := RegClass.exists_eq_cons begins
  have line : trim row.print = c :: rest := (trim_of_isTrimmed trimmed).trans whole
  rw [Profile.readLine_of_trim line noComment noBinding, whole]

theorem readPlace_decimal {n : Nat} (small : n < UInt32.size) : Profile.readPlace (decimal n) =
    if n < 2 ^ 29 then .ok (some (8 * n)) else .error (.badOffset (String.ofList (decimal n))) := by
  have noPoint : '.' ∉ decimal n := fun point => absurd (isDigit_of_mem_decimal point) (by decide)
  have isPlace : decimal n ≠ ['?'] := by
    intro same
    have digit : '?'.isDigit = true := isDigit_of_mem_decimal (n := n) (by simp [same])
    exact absurd digit (by decide)
  have offsetRead : Profile.readOffset? (decimal n) = fits32 (8 * n) := by
    unfold Profile.readOffset?
    split
    · rename_i rest shape
      exact absurd (shape ▸ List.mem_cons_self ..) noPoint
    · simp only [cut_of_notMem noPoint, Profile.readBytes?, Profile.readNumber?_decimal small, Option.bind_some]
  simp only [Profile.readPlace, if_neg isPlace, offsetRead, fits32, lt_two_pow_29_iff]
  by_cases fits : 8 * n < UInt32.size
  · simp only [if_pos fits]
  · simp only [if_neg fits]

theorem WellFormed.words_print (formed : row.WellFormed) : words row.print = row.fields :=
  words_intercalate (by decide) fun _ member => formed.isWord_of_mem_fields member

theorem hash_notMem_print (noHash : '#' ∉ row.name) : '#' ∉ row.print := by
  apply notMem_intercalate (by decide)
  intro w member
  simp only [List.mem_cons, List.not_mem_nil, or_false] at member
  rcases member with rfl | rfl | rfl | rfl | rfl
  · exact row.kind.isField_keyword.noHash
  · exact noHash
  · exact (isField_bitCount row.bits).noHash
  · exact (isField_decimal row.offset).noHash
  · decide

/-- Without a `#` in its name a register is defined, unless it lies too far behind the start. -/
theorem WellFormed.readDefinition_print (formed : row.WellFormed) (noHash : '#' ∉ row.name) :
    Profile.readDefinition row.print =
      if row.offset < 2 ^ 29 then .ok row.definition
      else .error (.badOffset (String.ofList (decimal row.offset))) := by
  have classRead : Profile.readClass row.kind.keyword.toList = .ok (row.kind, row.kind.home) := by
    have printed : row.definition.printClass = row.kind.keyword.toList := if_pos rfl
    rw [← printed]
    exact Profile.readClass_printClass row.definition
  have laneRead : Profile.readLane [['0']] = (0, []) := rfl
  simp only [Profile.readDefinition, cut_of_notMem (hash_notMem_print noHash), formed.words_print, fields, classRead,
    Profile.readWidth_bitCount row.name formed.bits_pos formed.bits_lt, readPlace_decimal formed.offset_lt,
    laneRead, Profile.readMarks, Profile.readComment, bind, Except.bind]
  by_cases near : row.offset < 2 ^ 29
  · simp only [if_pos near]
    rfl
  · simp only [if_neg near]

/-- A name with a `#` begins a comment, before which there are not enough fields. -/
theorem WellFormed.readDefinition_print_of_hash (formed : row.WellFormed) (hash : '#' ∈ row.name) :
    ∃ n, Profile.readDefinition row.print = .error (.tooFewFields n) := by
  obtain ⟨before, after, split, unmarked⟩ := List.eq_append_cons_of_mem hash
  let tail := after ++ '\t' :: ['\t'].intercalate [bitCount row.bits, decimal row.offset, ['0']]
  have whole : row.print = (row.kind.keyword.toList ++ '\t' :: before) ++ '#' :: tail := by
    rw [print_eq, fields, split, List.intercalate_cons_cons, List.intercalate_cons_cons]
    simp only [tail, List.append_assoc, List.cons_append, List.nil_append]
  have parts : cut '#' row.print = (row.kind.keyword.toList ++ '\t' :: before, some tail) := by
    rw [whole]
    exact cut_append (by simp [row.kind.isField_keyword.noHash, unmarked])
  have few : (words (row.kind.keyword.toList ++ '\t' :: before)).length ≤ 2 := by
    rw [words_append_blank (by decide), words_of_isWord row.kind.isField_keyword.toIsWord]
    by_cases empty : before = []
    · rw [empty, words_nil]
      exact Nat.le_succ 1
    · have word : IsWord before :=
        ⟨empty, fun c member => formed.name.solid c (split ▸ List.mem_append_left _ member)⟩
      rw [words_of_isWord word]
      exact Nat.le_refl 2
  simp only [Profile.readDefinition, parts]
  split
  · rename_i enough
    rw [enough, List.length_cons, List.length_cons, List.length_cons] at few
    omega
  · exact ⟨_, rfl⟩

/-- Just the registers with a plain name that begin near enough are defined, as the row says. -/
theorem WellFormed.readLine_print_eq_ok_iff (formed : row.WellFormed) {p : Profile} :
    Profile.readLine row.print = .ok p ↔
      row.offset < 2 ^ 29 ∧ '#' ∉ row.name ∧ p = ⟨[], [row.definition]⟩ := by
  rw [formed.readLine_print]
  by_cases hash : '#' ∈ row.name
  · obtain ⟨n, refused⟩ := formed.readDefinition_print_of_hash hash
    simp [refused, Except.map, hash]
  · rw [formed.readDefinition_print hash]
    by_cases near : row.offset < 2 ^ 29
    · rw [if_pos near]
      simp only [Except.map, Except.ok.injEq, near, hash, not_false_eq_true, true_and, eq_comm]
    · rw [if_neg near]
      simp only [Except.map, reduceCtorEq, near, false_and]

end Print

/-! ## All lines of a table -/

theorem describes_iff {cs : List Char} {d : Definition} (telling : ¬Ignorable cs) :
    Describes cs d ↔ ∃ row, ofLine cs = .ok (some row) ∧ Profile.readLine row.print = .ok ⟨[], [d]⟩ := by
  constructor
  · rintro ⟨name, type, offset, size, shown, near, small, noHash, rfl⟩
    have read : ofLine cs = .ok (some ⟨classOf name type, name, 8 * size, offset⟩) :=
      ofLine_eq_some_iff.mpr ⟨telling, type, size, shown, small, rfl, rfl⟩
    exact ⟨_, read, (wellFormed_of_ofLine read).readLine_print_eq_ok_iff.mpr ⟨near, noHash, rfl⟩⟩
  · rintro ⟨row, read, defined⟩
    obtain ⟨near, noHash, same⟩ := (wellFormed_of_ofLine read).readLine_print_eq_ok_iff.mp defined
    obtain ⟨-, type, size, shown, small, kind, bits⟩ := ofLine_eq_some_iff.mp read
    refine ⟨row.name, type, row.offset, size, shown, near, small, noHash, ?_⟩
    cases same
    rw [definition, kind, bits]

/-- What the row in a line adds to a profile, once its columns have been read. -/
def readEntry (cs : List Char) : Except LineFault Profile :=
  match ofLine cs with
  | .ok (some row) => Profile.readLine row.print
  | _ => .ok Profile.empty

theorem readEntry_eq_error_iff {cs : List Char} {fault : LineFault} : readEntry cs = .error fault ↔
    ∃ row, ofLine cs = .ok (some row) ∧ Profile.readLine row.print = .error fault := by
  unfold readEntry
  split
  · rename_i row read
    simp [read]
  · rename_i other
    simp only [reduceCtorEq, false_iff]
    rintro ⟨row, read, -⟩
    exact other row read

section Lines
variable {numbered : List (List Char × Nat)} {rows : List (DebuggerRow × Nat)} {p : Profile} {e : LineError}

theorem ofLines_cons_eq_ok_iff {cs : List Char} {n : Nat} : ofLines ((cs, n) :: numbered) = .ok rows ↔
    ∃ row? others, ofLine cs = .ok row? ∧ ofLines numbered = .ok others ∧
      rows = (row?.map fun row => (row, n)).toList ++ others := by
  rw [ofLines]
  cases ofLine cs with
  | error fault => simp
  | ok row? => cases ofLines numbered <;> simp [Except.map, eq_comm]

theorem ofLines_cons_of_ignorable {cs : List Char} (ignorable : Ignorable cs) (n : Nat) :
    ofLines ((cs, n) :: numbered) = ofLines numbered := by
  rw [ofLines, ofLine_eq_none_iff.mpr ignorable]
  cases ofLines numbered <;> rfl

/-- The definitions of the rows are those that the lines with something to tell describe. -/
theorem exists_rows_iff :
    (∃ rows, ofLines numbered = .ok rows ∧
        Profile.ofLines (rows.map fun row => (row.1.print, row.2)) = .ok p) ↔
      p.bindings = [] ∧
        List.Forall₂ Describes ((numbered.map Prod.fst).filter fun cs => ¬Ignorable cs) p.definitions := by
  induction numbered generalizing p with
  | nil =>
      obtain ⟨bindings, definitions⟩ := p
      simp [ofLines, Profile.ofLines, Profile.empty, eq_comm]
  | cons line rest ih =>
      obtain ⟨cs, n⟩ := line
      rw [List.map_cons]
      by_cases ignorable : Ignorable cs
      · rw [List.filter_cons_of_neg (by simpa using ignorable), ← ih]
        simp only [ofLines_cons_of_ignorable ignorable]
      · rw [List.filter_cons_of_pos (by simpa using ignorable)]
        simp only [ofLines_cons_eq_ok_iff]
        constructor
        · rintro ⟨rows, ⟨row?, others, read, othersRead, rfl⟩, defined⟩
          cases row? with
          | none => exact absurd (ofLine_eq_none_iff.mp read) ignorable
          | some row =>
              obtain ⟨first, later, firstRead, laterRead, rfl⟩ := Profile.ofLines_cons_eq_ok_iff.mp defined
              obtain ⟨near, noHash, rfl⟩ := (wellFormed_of_ofLine read).readLine_print_eq_ok_iff.mp firstRead
              obtain ⟨bindings, each⟩ := ih.mp ⟨others, othersRead, laterRead⟩
              exact ⟨bindings, .cons ((describes_iff ignorable).mpr ⟨row, read, firstRead⟩) each⟩
        · rintro ⟨bindings, each⟩
          obtain ⟨_, definitions⟩ := p
          cases bindings
          cases each with
          | @cons _ d _ ds described each =>
              obtain ⟨row, read, firstRead⟩ := (describes_iff ignorable).mp described
              obtain ⟨others, othersRead, laterRead⟩ := (ih (p := ⟨[], ds⟩)).mpr ⟨rfl, each⟩
              refine ⟨(row, n) :: others, ⟨some row, others, read, othersRead, rfl⟩, ?_⟩
              exact Profile.ofLines_cons_eq_ok_iff.mpr ⟨_, _, firstRead, laterRead, rfl⟩

theorem ofLines_eq_error_iff : ofLines numbered = .error e ↔ FirstFault ofLine numbered e := by
  induction numbered with
  | nil => simp [ofLines, not_firstFault_nil]
  | cons line rest ih =>
      obtain ⟨cs, n⟩ := line
      rw [ofLines]
      cases outcome : ofLine cs with
      | error fault => simp only [firstFault_cons_of_error outcome, Except.error.injEq]
      | ok row? =>
          rw [firstFault_cons_of_ok outcome, ← ih]
          cases ofLines rest <;> simp [Except.map]

/-- The first definition line at fault belongs to the first line whose entry is at fault. -/
theorem firstFault_print_iff (read : ofLines numbered = .ok rows) :
    FirstFault Profile.readLine (rows.map fun row => (row.1.print, row.2)) e ↔
      FirstFault readEntry numbered e := by
  induction numbered generalizing rows with
  | nil =>
      cases read
      simp [not_firstFault_nil]
  | cons line rest ih =>
      obtain ⟨cs, n⟩ := line
      obtain ⟨row?, others, first, othersRead, rfl⟩ := ofLines_cons_eq_ok_iff.mp read
      cases row? with
      | none =>
          have nothing : readEntry cs = .ok Profile.empty := by rw [readEntry, first]
          rw [firstFault_cons_of_ok nothing]
          exact ih othersRead
      | some row =>
          have entry : readEntry cs = Profile.readLine row.print := by rw [readEntry, first]
          simp only [Option.map_some, Option.toList_some, List.singleton_append, List.map_cons]
          cases outcome : Profile.readLine row.print with
          | error fault =>
              rw [firstFault_cons_of_error outcome, firstFault_cons_of_error (entry.trans outcome)]
          | ok q =>
              rw [firstFault_cons_of_ok outcome, firstFault_cons_of_ok (entry.trans outcome)]
              exact ih othersRead

theorem exists_ofLines_eq_ok_iff :
    (∃ rows, ofLines numbered = .ok rows) ↔ ∀ line ∈ numbered, ∃ row?, ofLine line.1 = .ok row? := by
  induction numbered with
  | nil => simp [ofLines]
  | cons line rest ih =>
      obtain ⟨cs, n⟩ := line
      rw [List.forall_mem_cons, ← ih]
      simp only [ofLines_cons_eq_ok_iff]
      constructor
      · rintro ⟨rows, row?, others, read, othersRead, -⟩
        exact ⟨⟨row?, read⟩, others, othersRead⟩
      · rintro ⟨⟨row?, read⟩, others, othersRead⟩
        exact ⟨_, row?, others, read, othersRead, rfl⟩

end Lines
end DebuggerRow

namespace Profile
open DebuggerRow (Ignorable Describes readEntry)
variable {cs line : List Char} {e : LineError} {fault : LineFault}

theorem map_fst_lines (cs : List Char) : ((lines cs).zipIdx 1).map Prod.fst = lines cs :=
  List.zipIdx_map_fst ..

theorem ofDebuggerRows_eq_ok_iff {p : Profile} : ofDebuggerRows cs = .ok p ↔
    p.bindings = [] ∧
      List.Forall₂ Describes ((lines cs).filter fun line => ¬Ignorable line) p.definitions := by
  rw [← map_fst_lines cs, ← DebuggerRow.exists_rows_iff, ofDebuggerRows, DebuggerRow.ofText]
  cases DebuggerRow.ofLines ((lines cs).zipIdx 1) <;> simp

/-- A fault in the columns of any line comes before one in the definitions made of them. -/
theorem ofDebuggerRows_eq_error_iff : ofDebuggerRows cs = .error e ↔
    FirstFault DebuggerRow.ofLine ((lines cs).zipIdx 1) e ∨
      (∀ line ∈ lines cs, ∃ row?, DebuggerRow.ofLine line = .ok row?) ∧
        FirstFault readEntry ((lines cs).zipIdx 1) e := by
  rw [← DebuggerRow.ofLines_eq_error_iff, ← map_fst_lines cs, List.forall_mem_map,
    ← DebuggerRow.exists_ofLines_eq_ok_iff, ofDebuggerRows, DebuggerRow.ofText, map_fst_lines cs]
  cases outcome : DebuggerRow.ofLines ((lines cs).zipIdx 1) with
  | error other => simp
  | ok rows =>
      simp only [reduceCtorEq, false_or, Except.ok.injEq, exists_eq', true_and]
      rw [ofLines_eq_error_iff, DebuggerRow.firstFault_print_iff outcome]

theorem ofDebuggerRows_line_eq_error_iff (single : '\n' ∉ line) : ofDebuggerRows line = .error ⟨1, fault⟩ ↔
    DebuggerRow.ofLine line = .error fault ∨ readEntry line = .error fault := by
  rw [ofDebuggerRows_eq_error_iff, lines_of_notMem single, List.zipIdx_singleton, firstFault_singleton_iff,
    firstFault_singleton_iff, List.forall_mem_singleton, and_iff_right_of_imp]
  intro refused
  obtain ⟨row, read, -⟩ := DebuggerRow.readEntry_eq_error_iff.mp refused
  exact ⟨some row, read⟩

/-- The line reported is one of the text's, and alone it is refused for the same fault. -/
theorem exists_line_of_error (refused : ofDebuggerRows cs = .error e) :
    ∃ before line after, lines cs = before ++ line :: after ∧ e.line = before.length + 1 ∧
      ofDebuggerRows line = .error ⟨1, e.fault⟩ := by
  have reported : ∃ before line after, lines cs = before ++ line :: after ∧ e.line = 1 + before.length ∧
      (DebuggerRow.ofLine line = .error e.fault ∨ readEntry line = .error e.fault) := by
    rcases ofDebuggerRows_eq_error_iff.mp refused with first | ⟨-, first⟩
    · obtain ⟨before, line, after, whole, number, -, shape⟩ := firstFault_zipIdx_iff.mp first
      exact ⟨before, line, after, whole, number, .inl shape⟩
    · obtain ⟨before, line, after, whole, number, -, entry⟩ := firstFault_zipIdx_iff.mp first
      exact ⟨before, line, after, whole, number, .inr entry⟩
  obtain ⟨before, line, after, whole, number, atFault⟩ := reported
  have member : line ∈ lines cs := by simp [whole]
  refine ⟨before, line, after, whole, by omega, ?_⟩
  exact (ofDebuggerRows_line_eq_error_iff (notMem_of_mem_lines member)).mpr atFault

theorem exists_ofDebuggerRows_line_iff (single : '\n' ∉ line) :
    (∃ p, ofDebuggerRows line = .ok p) ↔ Ignorable line ∨ ∃ d, Describes line d := by
  simp only [ofDebuggerRows_eq_ok_iff, lines_of_notMem single]
  by_cases ignorable : Ignorable line
  · rw [List.filter_cons_of_neg (by simpa using ignorable)]
    exact iff_of_true ⟨empty, rfl, .nil⟩ (.inl ignorable)
  · rw [List.filter_cons_of_pos (by simpa using ignorable)]
    constructor
    · rintro ⟨p, -, each⟩
      obtain ⟨d, -, described, -⟩ := List.forall₂_cons_left_iff.mp each
      exact .inr ⟨d, described⟩
    · rintro (nothing | ⟨d, described⟩)
      · exact absurd nothing ignorable
      · exact ⟨⟨[], [d]⟩, rfl, .cons described .nil⟩

/-- A table is read just when every line that says something of a register describes one; then it
binds no role and has just the registers described, in their order.  Else the line reported is one
that is refused for the same fault when it is all there is. -/
theorem ofDebuggerRows_exact (cs : List Char) :
    ((∃ p, ofDebuggerRows cs = .ok p) ↔
        ∀ line ∈ lines cs, ¬Ignorable line → ∃ d, Describes line d) ∧
      (∀ p, ofDebuggerRows cs = .ok p ↔
        p.bindings = [] ∧
          List.Forall₂ Describes ((lines cs).filter fun line => ¬Ignorable line) p.definitions) ∧
      ∀ e, ofDebuggerRows cs = .error e →
        1 ≤ e.line ∧ ∃ line, (lines cs)[e.line - 1]? = some line ∧
          ofDebuggerRows line = .error ⟨1, e.fault⟩ := by
  refine ⟨?_, fun p => ofDebuggerRows_eq_ok_iff, ?_⟩
  · constructor
    · rintro ⟨p, read⟩ line member telling
      obtain ⟨-, each⟩ := ofDebuggerRows_eq_ok_iff.mp read
      have kept : line ∈ (lines cs).filter fun line => ¬Ignorable line :=
        List.mem_filter.mpr ⟨member, by simpa using telling⟩
      obtain ⟨i, inLines, same⟩ := List.mem_iff_getElem.mp kept
      have described := each.get inLines (each.length_eq ▸ inLines)
      rw [List.get_eq_getElem, same] at described
      exact ⟨_, described⟩
    · intro each
      cases outcome : ofDebuggerRows cs with
      | ok p => exact ⟨p, rfl⟩
      | error e =>
          obtain ⟨before, line, after, whole, -, refused⟩ := exists_line_of_error outcome
          have member : line ∈ lines cs := by simp [whole]
          have readAlone := (exists_ofDebuggerRows_line_iff (notMem_of_mem_lines member)).mpr
            (or_iff_not_imp_left.mpr (each line member))
          obtain ⟨p, read⟩ := readAlone
          cases refused.symm.trans read
  · intro e refused
    obtain ⟨before, line, after, whole, number, refusedAlone⟩ := exists_line_of_error refused
    refine ⟨by omega, line, ?_, refusedAlone⟩
    rw [whole, number]
    simp

theorem ofDebuggerRows_exact_mixed :
    ∃ table broken p e, ofDebuggerRows table = .ok p ∧ ofDebuggerRows broken = .error e ∧
      p.definitions.map (fun d => (d.kind, d.name, d.size, d.offset)) =
        [(.general, "pc", 32, some 64), (.float, "v0", 128, some 128)] ∧
      (∀ line ∈ lines table, ¬Ignorable line → ∃ d, Describes line d) ∧
      ∃ line, (lines broken)[e.line - 1]? = some line ∧ ofDebuggerRows line = .error ⟨1, e.fault⟩ := by
  have read : ofDebuggerRows
      "Name Nr Rel Offset Size Type\n\n*1 2\npc 0 0 +8 4 int more\n'' 1 1 12 4 x\nr 2 2 9 0 x\nv0 3 3 16 16 v4".toList =
        .ok ⟨[], [⟨.general, .general, "pc", 32, 0, some 64, none, none⟩,
          ⟨.float, .float, "v0", 128, 0, some 128, none, none⟩]⟩ := by decide +kernel
  have refused : ofDebuggerRows "\nlr 0 0 536870912 4 int".toList = .error ⟨2, .badOffset "536870912"⟩ := by
    decide +kernel
  exact ⟨_, _, _, _, read, refused, rfl, (ofDebuggerRows_exact _).1.mp ⟨_, read⟩,
    ((ofDebuggerRows_exact _).2.2 _ refused).2⟩

end Profile
end MachineRegisters
