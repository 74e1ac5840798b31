import MachineRegisters.Profile.Printer
import MachineRegisters.Proofs.Reading

/-! # Reading what has been written

The printed text of a profile whose entries can be written is read as that profile,
with every role token in its own spelling (`parse_print`).  What a debugger's table
gives is of that kind and binds no role, so its printed text is read as exactly the
same profile (`parse_print_of_debuggerRows`). -/
set_option autoImplicit false
namespace MachineRegisters
open Text

/-! ## The fields of printed lines -/

theorem RegClass.isField_keyword (c : RegClass) : IsField c.keyword.toList := by cases c <;> decide

theorem RegClass.noMark_keyword (c : RegClass) : '@' ∉ c.keyword.toList ∧ '=' ∉ c.keyword.toList := by
  cases c <;> decide

theorem Role.isField_token (r : Role) : IsField r.token.toList := by
  cases r with
  | argument n => revert n; decide
  | result n => revert n; decide
  | _ => decide

/-- A text that begins with a class is neither blank nor a comment nor a binding. -/
theorem RegClass.exists_eq_cons {k : RegClass} {cs : List Char} (begins : k.keyword.toList <+: cs) :
    ∃ c rest, cs = c :: rest ∧ isBlank c = false ∧ c ≠ '#' ∧ c ≠ '=' := by
  obtain ⟨after, rfl⟩ := begins
  obtain ⟨c, more, keyword⟩ := List.exists_cons_of_ne_nil k.isField_keyword.ne_nil
  have first : c ∈ k.keyword.toList := keyword ▸ List.mem_cons_self ..
  refine ⟨c, more ++ after, by rw [keyword, List.cons_append], k.isField_keyword.solid c first, ?_, ?_⟩
  · rintro rfl
    exact k.isField_keyword.noHash first
  · rintro rfl
    exact k.noMark_keyword.2 first

theorem isField_decimal (n : Nat) : IsField (decimal n) :=
  ⟨isWord_decimal n, fun hash => absurd (isDigit_of_mem_decimal hash) (by decide)⟩

theorem IsField.append {v w : List Char} (first : IsField v) (second : IsField w) : IsField (v ++ w) := by
  rw [isField_iff] at first second ⊢
  refine ⟨List.append_ne_nil_of_left_ne_nil first.1 w, ?_⟩
  intro c member
  rcases List.mem_append.mp member with early | late
  · exact first.2 c early
  · exact second.2 c late

theorem isField_bitCount (n : Nat) : IsField (bitCount n) :=
  IsField.append (v := ['.']) (by decide) (isField_decimal n)

theorem noFeed_of_isWord {w : List Char} (word : IsWord w) : '\n' ∉ w :=
  fun member => absurd (word.solid '\n' member) (by decide)

theorem Role.isField_marked (r : Role) : IsField ('=' :: r.token.toList) :=
  IsField.append (v := ['=']) (by decide) r.isField_token

namespace Definition
variable {d : Definition}

def body (d : Definition) : List (List Char) :=
  [d.printClass, d.name.toList, bitCount d.size, d.printPlace, d.printLane] ++
    (d.flags.map String.toList).toList

theorem isField_printClass (d : Definition) : IsField d.printClass := by
  unfold printClass
  split
  · exact d.kind.isField_keyword
  · have bankPart : IsField ('@' :: d.bank.keyword.toList) :=
      IsField.append (v := ['@']) (by decide) d.bank.isField_keyword
    exact d.kind.isField_keyword.append bankPart

theorem keyword_prefix_printClass (d : Definition) : d.kind.keyword.toList <+: d.printClass := by
  unfold printClass
  split
  · exact List.prefix_rfl
  · exact List.prefix_append _ _

theorem isField_printPlace (d : Definition) : IsField d.printPlace := by
  unfold printPlace
  split
  · decide
  · exact isField_bitCount _

theorem isField_printLane (d : Definition) : IsField d.printLane := by
  unfold printLane
  split
  · decide
  · exact isField_bitCount _

theorem Writable.isField_of_mem_body (writable : d.Writable) {w : List Char} (member : w ∈ d.body) :
    IsField w := by
  rcases List.mem_append.mp member with fixed | last
  · simp only [List.mem_cons, List.not_mem_nil, or_false] at fixed
    rcases fixed with rfl | rfl | rfl | rfl | rfl
    · exact d.isField_printClass
    · exact writable.name
    · exact isField_bitCount d.size
    · exact d.isField_printPlace
    · exact d.isField_printLane
  · obtain ⟨marks, flags, rfl⟩ := Option.map_eq_some_iff.mp (Option.mem_toList.mp last)
    exact writable.flags marks flags

theorem print_eq (d : Definition) :
    d.print = match d.comment with
      | none => ['\t'].intercalate d.body
      | some text => ['\t'].intercalate d.body ++ '\t' :: '#' :: text.toList := by
  have whole : d.fields = d.body ++ (d.comment.map fun text => '#' :: text.toList).toList := rfl
  rw [print, whole]
  cases d.comment with
  | none => rw [Option.map_none, Option.toList_none, List.append_nil]
  | some text => exact intercalate_concat '\t' (List.cons_ne_nil _ _) _

theorem Writable.isTrimmed_print (writable : d.Writable) : IsTrimmed d.print := by
  apply isTrimmed_intercalate
  intro w member
  rcases List.mem_append.mp member with inBody | last
  · have field := writable.isField_of_mem_body inBody
    exact ⟨field.ne_nil, field.isTrimmed⟩
  · obtain ⟨text, told, rfl⟩ := Option.map_eq_some_iff.mp (Option.mem_toList.mp last)
    obtain ⟨nonempty, trimmed, -⟩ := writable.comment text told
    refine ⟨List.cons_ne_nil _ _, ?_, ?_⟩
    · simp [isBlank]
    · obtain ⟨c, cs, whole⟩ := List.exists_cons_of_ne_nil nonempty
      have last := trimmed.last
      rw [whole] at last ⊢
      exact last

theorem Writable.noFeed_print (writable : d.Writable) : '\n' ∉ d.print := by
  apply notMem_intercalate (by decide)
  intro w member
  rcases List.mem_append.mp member with inBody | last
  · exact noFeed_of_isWord (writable.isField_of_mem_body inBody).toIsWord
  · obtain ⟨text, told, rfl⟩ := Option.map_eq_some_iff.mp (Option.mem_toList.mp last)
    rw [List.mem_cons, not_or]
    exact ⟨by decide, (writable.comment text told).2.2⟩

end Definition

namespace Binding

def canonical (b : Binding) : Binding := { b with token := b.role.token }

theorem print_eq (b : Binding) :
    b.print = ['\t'].intercalate ['=' :: b.role.token.toList, b.register.toList] := by
  rw [List.intercalate_cons_cons, List.intercalate_singleton, List.append_assoc]
  rfl

theorem Writable.isField_of_mem {b : Binding} (writable : b.Writable) {w : List Char}
    (member : w ∈ ['=' :: b.role.token.toList, b.register.toList]) : IsField w := by
  simp only [List.mem_cons, List.not_mem_nil, or_false] at member
  rcases member with rfl | rfl
  · exact b.role.isField_marked
  · exact writable.register

end Binding

/-! ## Reading each field -/

namespace Profile

theorem readClass_printClass (d : Definition) : readClass d.printClass = .ok (d.kind, d.bank) := by
  unfold Definition.printClass readClass
  split
  · rename_i home
    simp only [cut_of_notMem d.kind.noMark_keyword.1, RegClass.ofKeyword?_keyword, home]
  · simp only [cut_append d.kind.noMark_keyword.1, RegClass.ofKeyword?_keyword]

theorem readSize?_bitCount {n : Nat} (small : n < UInt32.size) : readSize? (bitCount n) = some n :=
  readNumber?_decimal small

theorem readWidth_bitCount {n : Nat} (name : List Char) (positive : 0 < n) (small : n < UInt32.size) :
    readWidth name (bitCount n) = .ok n := by
  simp only [readWidth, readSize?_bitCount small, if_neg (Nat.ne_of_gt positive)]

theorem readPlace_printPlace {d : Definition} (writable : d.Writable) :
    readPlace d.printPlace = .ok d.offset := by
  unfold Definition.printPlace
  cases offset : d.offset with
  | none => rfl
  | some n =>
      have isPlace : bitCount n ≠ ['?'] := by simp [bitCount]
      have offsetRead : readOffset? (bitCount n) = some n :=
        readNumber?_decimal (writable.offset_lt n offset)
      simp only [readPlace, if_neg isPlace, offsetRead]

theorem readLane_printLane {d : Definition} (writable : d.Writable) (rest : List (List Char)) :
    readLane (d.printLane :: rest) = (d.lane, rest) := by
  have laneRead : readSize? d.printLane = some d.lane := by
    unfold Definition.printLane
    split
    · rename_i unpacked
      rw [unpacked]
      rfl
    · exact readSize?_bitCount writable.lane_lt
  simp only [readLane, laneRead]

theorem readMarks_toList (marks : Option String) : readMarks (marks.map String.toList).toList = .ok marks := by
  cases marks with
  | none => rfl
  | some text =>
      show Except.ok (some (String.ofList text.toList)) = _
      rw [String.ofList_toList]

theorem readComment_of_isTrimmed {cs : List Char} (nonempty : cs ≠ []) (trimmed : IsTrimmed cs) :
    readComment (some cs) = some (String.ofList cs) := by
  simp only [readComment, trim_of_isTrimmed trimmed, if_neg nonempty]

/-! ## Reading each line -/

/-- The first `#` of a printed line is the one in front of its comment. -/
theorem cut_print {d : Definition} (writable : d.Writable) :
    words (cut '#' d.print).1 = d.body ∧ readComment (cut '#' d.print).2 = d.comment := by
  have wordsOfBody : words (['\t'].intercalate d.body) = d.body :=
    words_intercalate (by decide) fun w member => (writable.isField_of_mem_body member).toIsWord
  have noHash : '#' ∉ ['\t'].intercalate d.body :=
    notMem_intercalate (by decide) fun w member => (writable.isField_of_mem_body member).noHash
  rw [Definition.print_eq]
  cases told : d.comment with
  | none =>
      simp only [cut_of_notMem noHash]
      exact ⟨wordsOfBody, rfl⟩
  | some text =>
      obtain ⟨nonempty, trimmed, -⟩ := writable.comment text told
      have parts : cut '#' (['\t'].intercalate d.body ++ ['\t'] ++ '#' :: text.toList) =
          (['\t'].intercalate d.body ++ ['\t'], some text.toList) := cut_append (by simp [noHash])
      rw [List.append_assoc, List.singleton_append] at parts
      simp only [parts]
      refine ⟨?_, ?_⟩
      -- The tab in front of the comment ends the last field and begins no other.
      · rw [words_append_blank (by decide), words_nil, List.append_nil, wordsOfBody]
      · rw [readComment_of_isTrimmed nonempty trimmed, String.ofList_toList]

theorem readDefinition_print {d : Definition} (writable : d.Writable) : readDefinition d.print = .ok d := by
  obtain ⟨fields, comment⟩ := cut_print writable
  apply readDefinition_eq_ok_iff.mpr
  refine ⟨d.printClass, d.name.toList, bitCount d.size, d.printPlace,
    d.printLane :: (d.flags.map String.toList).toList, fields, readClass_printClass d,
    readWidth_bitCount _ writable.size_pos writable.size_lt, readPlace_printPlace writable, ?_, ?_, ?_,
    comment.symm⟩
  · rw [readLane_printLane writable]
    exact readMarks_toList d.flags
  · rw [String.ofList_toList]
  · rw [readLane_printLane writable]

theorem readLine_of_trim {cs rest : List Char} {c : Char} (line : trim cs = c :: rest) (noComment : c ≠ '#')
    (noBinding : c ≠ '=') : readLine cs = (readDefinition (c :: rest)).map fun d => ⟨[], [d]⟩ := by
  rw [readLine, line]
  split
  · contradiction
  · rename_i same
    cases same
    exact absurd rfl noComment
  · rename_i same
    cases same
    exact absurd rfl noBinding
  · rfl

theorem readLine_print_definition {d : Definition} (writable : d.Writable) :
    readLine d.print = .ok ⟨[], [d]⟩ := by
  have begins : d.kind.keyword.toList <+: d.print := d.keyword_prefix_printClass.trans (prefix_intercalate ..)
  obtain ⟨c, rest, whole, -, noComment, noBinding⟩ := RegClass.exists_eq_cons begins
  have line : trim d.print = c :: rest := (trim_of_isTrimmed writable.isTrimmed_print).trans whole
  rw [readLine_of_trim line noComment noBinding, ← whole, readDefinition_print writable]
  rfl

theorem readBinding_print {b : Binding} (writable : b.Writable) :
    readBinding (b.role.token.toList ++ '\t' :: b.register.toList) = .ok b.canonical := by
  have noHash : '#' ∉ b.role.token.toList ++ '\t' :: b.register.toList := by
    simp [b.role.isField_token.noHash, writable.register.noHash]
  have fields : words (b.role.token.toList ++ '\t' :: b.register.toList) =
      [b.role.token.toList, b.register.toList] := by
    rw [words_append_blank (by decide), words_of_isWord b.role.isField_token.toIsWord,
      words_of_isWord writable.register.toIsWord, List.singleton_append]
  simp only [readBinding, cut_of_notMem noHash, fields, Role.ofToken?_token, String.ofList_toList]
  rfl

theorem readLine_print_binding {b : Binding} (writable : b.Writable) :
    readLine b.print = .ok ⟨[b.canonical], []⟩ := by
  have trimmed : IsTrimmed b.print := by
    rw [b.print_eq]
    exact isTrimmed_intercalate '\t' fun w member =>
      ⟨(writable.isField_of_mem member).ne_nil, (writable.isField_of_mem member).isTrimmed⟩
  have line : trim b.print = '=' :: (b.role.token.toList ++ '\t' :: b.register.toList) :=
    trim_of_isTrimmed trimmed
  rw [readLine, line]
  simp only [readBinding_print writable, Except.map]

/-! ## Reading the whole text -/

/-- Lines that can all be read give the parts they stand for, whatever their numbers. -/
theorem ofLines_zipIdx {α : Type} (entry : α → List Char) (part : α → Profile) {as : List α}
    (each : ∀ a ∈ as, readLine (entry a) = .ok (part a)) (n : Nat) :
    ofLines ((as.map entry).zipIdx n) =
      .ok ⟨as.flatMap fun a => (part a).bindings, as.flatMap fun a => (part a).definitions⟩ := by
  induction as generalizing n with
  | nil => rfl
  | cons a rest ih =>
      have others := ih (fun b member => each b (List.mem_cons_of_mem _ member)) (n + 1)
      rw [List.map_cons, List.zipIdx_cons]
      apply ofLines_cons_eq_ok_iff.mpr
      exact ⟨part a, _, each a (List.mem_cons_self ..), others, rfl⟩

def canonical (p : Profile) : Profile := ⟨p.bindings.map Binding.canonical, p.definitions⟩

theorem parse_print {p : Profile} (writable : p.Writable) : parse p.print = .ok p.canonical := by
  have noFeed : ∀ line ∈ p.printLines, '\n' ∉ line := by
    intro line member
    rcases List.mem_append.mp member with binding | definition
    · obtain ⟨b, inBindings, rfl⟩ := List.mem_map.mp binding
      rw [b.print_eq]
      exact notMem_intercalate (by decide) fun w member =>
        noFeed_of_isWord ((writable.bindings b inBindings).isField_of_mem member).toIsWord
    · obtain ⟨d, inDefinitions, rfl⟩ := List.mem_map.mp definition
      exact (writable.definitions d inDefinitions).noFeed_print
  have bindingsRead := ofLines_zipIdx Binding.print (fun b => ⟨[b.canonical], []⟩)
    (fun b member => readLine_print_binding (writable.bindings b member)) 1
  have definitionsRead := ofLines_zipIdx Definition.print (fun d => ⟨[], [d]⟩)
    (fun d member => readLine_print_definition (writable.definitions d member))
    (1 + (p.bindings.map Binding.print).length)
  have lastRead : ∀ n, ofLines ([[]].zipIdx n) = .ok empty := fun n => rfl
  rw [parse, print, lines_flatMap noFeed, printLines, List.zipIdx_append, List.zipIdx_append, ofLines_append,
    ofLines_append, bindingsRead, definitionsRead, lastRead]
  show Except.ok (Profile.mk _ _) = Except.ok (Profile.mk _ _)
  simp [empty, List.map_eq_flatMap]

end Profile

/-! ## Tables of a debugger -/

namespace DebuggerRow

theorem name_of_ofFields {name offsetText sizeText type : List Char} {row : DebuggerRow}
    (read : ofFields name offsetText sizeText type = .ok (some row)) : row.name = name := by
  unfold ofFields at read
  split at read
  · cases read
  · split at read
    · cases read
    · split at read
      · cases read
      · split at read
        · cases read
        · cases read
          rfl

theorem isWord_name_of_ofLine {cs : List Char} {row : DebuggerRow} (read : ofLine cs = .ok (some row)) :
    IsWord row.name := by
  unfold ofLine at read
  split at read
  · cases read
  · rename_i first rest fields
    split at read
    · cases read
    · split at read
      · rw [name_of_ofFields read]
        exact (isWord_of_mem_words (fields ▸ List.mem_cons_self ..)).1
      · cases read

theorem isWord_name_of_ofLines {numbered : List (List Char × Nat)} {rows : List (DebuggerRow × Nat)}
    (read : ofLines numbered = .ok rows) : ∀ row ∈ rows, IsWord row.1.name := by
  induction numbered generalizing rows with
  | nil =>
      cases read
      simp
  | cons line rest ih =>
      obtain ⟨cs, n⟩ := line
      rw [ofLines] at read
      cases lineRead : ofLine cs with
      | error fault => simp [lineRead] at read
      | ok row? =>
          cases restRead : ofLines rest with
          | error e => simp [lineRead, restRead, Except.map] at read
          | ok others =>
              simp only [lineRead, restRead, Except.map] at read
              cases read
              intro row member
              rcases List.mem_append.mp member with here | later
              · obtain ⟨found, same, rfl⟩ := Option.map_eq_some_iff.mp (Option.mem_toList.mp here)
                rw [same] at lineRead
                exact isWord_name_of_ofLine lineRead
              · exact ih restRead row later

theorem noFeed_print {row : DebuggerRow} (word : IsWord row.name) : '\n' ∉ row.print := by
  apply notMem_intercalate (by decide)
  intro w member
  apply noFeed_of_isWord
  simp only [List.mem_cons, List.not_mem_nil, or_false] at member
  rcases member with rfl | rfl | rfl | rfl | rfl
  · exact row.kind.isField_keyword.toIsWord
  · exact word
  · exact (isField_bitCount row.bits).toIsWord
  · exact isWord_decimal row.offset
  · exact isWord_decimal 0

end DebuggerRow

namespace Profile

theorem bindings_of_ofDebuggerRows {cs : List Char} {p : Profile} (read : ofDebuggerRows cs = .ok p) :
    p.bindings = [] := by
  unfold ofDebuggerRows at read
  split at read
  · cases read
  · apply List.eq_nil_iff_forall_not_mem.mpr
    intro b member
    obtain ⟨line, inLines, rest, shape, -⟩ := exists_line_of_binding read member
    obtain ⟨row, -, rfl⟩ := List.mem_map.mp inLines
    have begins : row.1.kind.keyword.toList <+: row.1.print := prefix_intercalate ..
    obtain ⟨c, others, whole, solid, -, noBinding⟩ := RegClass.exists_eq_cons begins
    obtain ⟨more, trimmed⟩ := exists_trim_eq_cons others solid
    rw [← whole, shape] at trimmed
    cases trimmed
    exact noBinding rfl

theorem writable_of_ofDebuggerRows {cs : List Char} {p : Profile} (read : ofDebuggerRows cs = .ok p) :
    p.Writable := by
  unfold ofDebuggerRows at read
  split at read
  · cases read
  · rename_i rows rowsRead
    apply writable_of_ofLines read
    intro line inLines
    obtain ⟨row, member, rfl⟩ := List.mem_map.mp inLines
    exact DebuggerRow.noFeed_print (DebuggerRow.isWord_name_of_ofLines rowsRead row member)

theorem parse_print_of_debuggerRows {cs : List Char} {p : Profile} (read : ofDebuggerRows cs = .ok p) :
    parse p.print = .ok p := by
  rw [parse_print (writable_of_ofDebuggerRows read), canonical, bindings_of_ofDebuggerRows read, List.map_nil,
    ← bindings_of_ofDebuggerRows read]

end Profile
end MachineRegisters
