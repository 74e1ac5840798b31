import MachineRegisters.Profile.DebuggerRows
import MachineRegisters.Proofs.Pieces

/-! # What can be read in a profile

Every entry of a profile comes from one of its lines (`exists_line_of_definition`,
`exists_line_of_binding`).  The fields of such an entry are words without a `#`, its
numbers have 32 bits and its comment is trimmed, so that all of it can be written in
a line again (`writable_of_readDefinition`, `writable_of_readBinding`). -/
set_option autoImplicit false
namespace MachineRegisters
open Text

structure IsField (w : List Char) : Prop extends IsWord w where
  noHash : '#' ∉ w

theorem isField_iff {w : List Char} : IsField w ↔ w ≠ [] ∧ ∀ c ∈ w, isBlank c = false ∧ c ≠ '#' := by
  constructor
  · intro field
    exact ⟨field.ne_nil, fun c member => ⟨field.solid c member, fun same => field.noHash (same ▸ member)⟩⟩
  · rintro ⟨nonempty, each⟩
    exact ⟨⟨nonempty, fun c member => (each c member).1⟩, fun member => (each '#' member).2 rfl⟩

instance (w : List Char) : Decidable (IsField w) :=
  decidable_of_iff (w ≠ [] ∧ (w.all fun c => !isBlank c && c != '#') = true) (by simp [isField_iff])

/-- The definition can be written in one line and read back. -/
structure Definition.Writable (d : Definition) : Prop where
  name : IsField d.name.toList
  size_pos : 0 < d.size
  size_lt : d.size < UInt32.size
  lane_lt : d.lane < UInt32.size
  offset_lt : ∀ n ∈ d.offset, n < UInt32.size
  flags : ∀ marks ∈ d.flags, IsField marks.toList
  comment : ∀ text ∈ d.comment, text.toList ≠ [] ∧ IsTrimmed text.toList ∧ '\n' ∉ text.toList

structure Binding.Writable (b : Binding) : Prop where
  register : IsField b.register.toList

instance (d : Definition) : Decidable d.Writable :=
  decidable_of_iff
    (IsField d.name.toList ∧ 0 < d.size ∧ d.size < UInt32.size ∧ d.lane < UInt32.size ∧
      (∀ n ∈ d.offset, n < UInt32.size) ∧ (∀ marks ∈ d.flags, IsField marks.toList) ∧
        ∀ text ∈ d.comment, text.toList ≠ [] ∧ IsTrimmed text.toList ∧ '\n' ∉ text.toList)
    ⟨fun ⟨name, sizePos, sizeLt, laneLt, offsetLt, flags, comment⟩ =>
        ⟨name, sizePos, sizeLt, laneLt, offsetLt, flags, comment⟩,
      fun ⟨name, sizePos, sizeLt, laneLt, offsetLt, flags, comment⟩ =>
        ⟨name, sizePos, sizeLt, laneLt, offsetLt, flags, comment⟩⟩

instance (b : Binding) : Decidable b.Writable :=
  decidable_of_iff (IsField b.register.toList) ⟨fun register => ⟨register⟩, fun writable => writable.register⟩

namespace Profile

/-! ## Lines and entries -/

theorem readLine_eq_ok {cs : List Char} {p : Profile} (read : readLine cs = .ok p) :
    p = empty ∨ (∃ rest b, trim cs = '=' :: rest ∧ readBinding rest = .ok b ∧ p = ⟨[b], []⟩) ∨
      ∃ d, readDefinition (trim cs) = .ok d ∧ p = ⟨[], [d]⟩ := by
  unfold readLine at read
  split at read
  · cases read
    exact .inl rfl
  · cases read
    exact .inl rfl
  · rename_i rest shape
    cases bindingRead : readBinding rest with
    | error fault => simp [bindingRead, Except.map] at read
    | ok b =>
        simp only [bindingRead, Except.map] at read
        cases read
        exact .inr (.inl ⟨rest, b, shape, bindingRead, rfl⟩)
  · cases definitionRead : readDefinition (trim cs) with
    | error fault => simp [definitionRead, Except.map] at read
    | ok d =>
        simp only [definitionRead, Except.map] at read
        cases read
        exact .inr (.inr ⟨d, rfl, rfl⟩)

section Lines
variable {numbered : List (List Char × Nat)} {p : Profile}

theorem ofLines_cons_eq_ok_iff {cs : List Char} {n : Nat} :
    ofLines ((cs, n) :: numbered) = .ok p ↔
      ∃ first others, readLine cs = .ok first ∧ ofLines numbered = .ok others ∧ p = first ++ others := by
  rw [ofLines]
  cases readLine cs with
  | error fault => simp
  | ok first =>
      cases ofLines numbered with
      | error e => simp
      | ok others => simp [eq_comm]

theorem exists_line_of_definition (read : ofLines numbered = .ok p) {d : Definition}
    (member : d ∈ p.definitions) : ∃ line ∈ numbered, readDefinition (trim line.1) = .ok d := by
  induction numbered generalizing p with
  | nil =>
      cases read
      cases member
  | cons line rest ih =>
      obtain ⟨first, others, lineRead, restRead, rfl⟩ := ofLines_cons_eq_ok_iff.mp read
      rw [definitions_append] at member
      rcases List.mem_append.mp member with here | later
      · refine ⟨line, List.mem_cons_self .., ?_⟩
        rcases readLine_eq_ok lineRead with rfl | ⟨text, b, -, -, rfl⟩ | ⟨e, definitionRead, rfl⟩
        · cases here
        · cases here
        · cases List.mem_singleton.mp here
          exact definitionRead
      · obtain ⟨other, inRest, found⟩ := ih restRead later
        exact ⟨other, List.mem_cons_of_mem _ inRest, found⟩

theorem exists_line_of_binding (read : ofLines numbered = .ok p) {b : Binding} (member : b ∈ p.bindings) :
    ∃ line ∈ numbered, ∃ rest, trim line.1 = '=' :: rest ∧ readBinding rest = .ok b := by
  induction numbered generalizing p with
  | nil =>
      cases read
      cases member
  | cons line rest ih =>
      obtain ⟨first, others, lineRead, restRead, rfl⟩ := ofLines_cons_eq_ok_iff.mp read
      rw [bindings_append] at member
      rcases List.mem_append.mp member with here | later
      · refine ⟨line, List.mem_cons_self .., ?_⟩
        rcases readLine_eq_ok lineRead with rfl | ⟨text, c, shape, bindingRead, rfl⟩ | ⟨d, -, rfl⟩
        · cases here
        · cases List.mem_singleton.mp here
          exact ⟨text, shape, bindingRead⟩
        · cases here
      · obtain ⟨other, inRest, found⟩ := ih restRead later
        exact ⟨other, List.mem_cons_of_mem _ inRest, found⟩

end Lines

/-! ## Entries that have been read -/

theorem lt_of_bind_fits32 {α : Type} {x : Option α} {f : α → Nat} {n : Nat}
    (read : (x.bind fun a => fits32 (f a)) = some n) : n < UInt32.size := by
  obtain ⟨a, -, fits⟩ := Option.bind_eq_some_iff.mp read
  obtain ⟨rfl, small⟩ := fits32_eq_some_iff.mp fits
  exact small

theorem readNumber?_lt {cs : List Char} {n : Nat} (read : readNumber? cs = some n) : n < UInt32.size := by
  unfold readNumber? at read
  split at read <;> exact lt_of_bind_fits32 read

theorem readSize?_lt {cs : List Char} {n : Nat} (read : readSize? cs = some n) : n < UInt32.size := by
  unfold readSize? at read
  split at read
  · exact readNumber?_lt read
  · exact lt_of_bind_fits32 read

theorem readOffset?_lt {cs : List Char} {n : Nat} (read : readOffset? cs = some n) : n < UInt32.size := by
  unfold readOffset? at read
  split at read
  · exact readNumber?_lt read
  · split at read
    · exact lt_of_bind_fits32 read
    · obtain ⟨whole, -, rest⟩ := Option.bind_eq_some_iff.mp read
      exact lt_of_bind_fits32 rest

theorem readWidth_eq_ok {name cs : List Char} {size : Nat} (read : readWidth name cs = .ok size) :
    readSize? cs = some size ∧ 0 < size := by
  unfold readWidth at read
  split at read
  · cases read
  · split at read
    · cases read
    · rename_i found positive
      cases read
      exact ⟨found, Nat.pos_of_ne_zero positive⟩

theorem readPlace_lt {cs : List Char} {n : Nat} (read : readPlace cs = .ok (some n)) : n < UInt32.size := by
  unfold readPlace at read
  split at read
  · cases read
  · split at read
    · cases read
    · rename_i found
      cases read
      exact readOffset?_lt found

theorem readLane_lt (more : List (List Char)) : (readLane more).1 < UInt32.size := by
  have nothing : 0 < UInt32.size := by decide
  unfold readLane
  split
  · exact nothing
  · split
    · exact nothing
    · rename_i found
      exact readSize?_lt found

theorem readLane_subset (more : List (List Char)) : (readLane more).2 ⊆ more := by
  unfold readLane
  split
  · exact List.Subset.refl _
  · split
    · exact List.Subset.refl _
    · exact List.subset_cons_self _ _

theorem readMarks_eq_ok {rest : List (List Char)} {marks : String} (read : readMarks rest = .ok (some marks)) :
    marks.toList ∈ rest := by
  unfold readMarks at read
  split at read
  · cases read
  · cases read
    simp
  · cases read

theorem isField_of_mem_words {cs w : List Char} (member : w ∈ words (cut '#' cs).1) : IsField w := by
  obtain ⟨word, inside⟩ := isWord_of_mem_words member
  exact ⟨word, fun hash => (cut_spec '#' cs).1 (inside '#' hash)⟩

theorem mem_of_mem_cut {mark c : Char} {cs after : List Char} (there : (cut mark cs).2 = some after)
    (member : c ∈ after) : c ∈ cs := by
  have whole := (cut_spec mark cs).2
  rw [there] at whole
  rw [whole]
  simp [member]

theorem writable_of_readDefinition {cs : List Char} {d : Definition} (read : readDefinition cs = .ok d)
    (single : '\n' ∉ cs) : d.Writable := by
  obtain ⟨classText, name, sizeText, placeText, more, fields, -, widthRead, placeRead, marksRead, named,
    lane, comment⟩ := readDefinition_eq_ok_iff.mp read
  have eachField : ∀ w ∈ classText :: name :: sizeText :: placeText :: more, IsField w :=
    fun w member => isField_of_mem_words (fields ▸ member)
  obtain ⟨sizeRead, positive⟩ := readWidth_eq_ok widthRead
  refine
    { name := ?_
      size_pos := positive
      size_lt := readSize?_lt sizeRead
      lane_lt := lane ▸ readLane_lt more
      offset_lt := ?_
      flags := ?_
      comment := ?_ }
  · rw [named, String.toList_ofList]
    exact eachField name (by simp)
  · intro n offset
    rw [Option.mem_def.mp offset] at placeRead
    exact readPlace_lt placeRead
  · intro marks flags
    rw [Option.mem_def.mp flags] at marksRead
    apply eachField
    have inMore := readLane_subset more (readMarks_eq_ok marksRead)
    simp [inMore]
  · intro text told
    rw [Option.mem_def.mp told] at comment
    unfold readComment at comment
    split at comment
    · cases comment
    · rename_i after there
      split at comment
      · cases comment
      · rename_i nonempty
        cases comment
        rw [String.toList_ofList]
        exact ⟨nonempty, isTrimmed_trim after,
          fun inTrim => single (mem_of_mem_cut there (mem_of_mem_trim inTrim))⟩

theorem writable_of_readBinding {cs : List Char} {b : Binding} (read : readBinding cs = .ok b) :
    b.Writable := by
  unfold readBinding at read
  split at read
  · rename_i token register fields
    split at read
    · cases read
    · cases read
      refine ⟨?_⟩
      rw [String.toList_ofList]
      exact isField_of_mem_words (fields ▸ List.mem_cons_of_mem _ (List.mem_cons_self ..))
  · cases read

structure Writable (p : Profile) : Prop where
  bindings : ∀ b ∈ p.bindings, b.Writable
  definitions : ∀ d ∈ p.definitions, d.Writable

instance (p : Profile) : Decidable p.Writable :=
  decidable_of_iff ((∀ b ∈ p.bindings, b.Writable) ∧ ∀ d ∈ p.definitions, d.Writable)
    ⟨fun ⟨bindings, definitions⟩ => ⟨bindings, definitions⟩,
      fun ⟨bindings, definitions⟩ => ⟨bindings, definitions⟩⟩

theorem writable_of_ofLines {numbered : List (List Char × Nat)} {p : Profile}
    (read : ofLines numbered = .ok p) (single : ∀ line ∈ numbered, '\n' ∉ line.1) : p.Writable := by
  refine ⟨?_, ?_⟩
  · intro b member
    obtain ⟨line, inLines, rest, -, bindingRead⟩ := exists_line_of_binding read member
    exact writable_of_readBinding bindingRead
  · intro d member
    obtain ⟨line, inLines, definitionRead⟩ := exists_line_of_definition read member
    exact writable_of_readDefinition definitionRead fun inTrim => single line inLines (mem_of_mem_trim inTrim)

theorem writable_of_parse {cs : List Char} {p : Profile} (read : parse cs = .ok p) : p.Writable := by
  apply writable_of_ofLines read
  intro line member
  exact notMem_of_mem_lines (List.fst_mem_of_mem_zipIdx member)

end Profile
end MachineRegisters
