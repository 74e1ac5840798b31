import MachineRegisters.Proofs.Installing
import MachineRegisters.Proofs.LaidOut
import MachineRegisters.Proofs.SpacedWords
import MachineRegisters.Proofs.Stepwise.Registers
import MachineRegisters.Proofs.Uncovered
import Mathlib.Data.List.Forall2

/-! # What a listing tells

The first character of each line of a listing tells whether it is a heading, a row, or one
of the closing lines, and its words tell what stands in it, whatever the names are.  So
lines fall into sections in one way only (`sections_of_lines`), and two descriptions have
the same listing just when they give the same registers in the same places and the same
names for roles (`listing_tells_machine`).  The settings of a machine have no part in what
is printed (`run_configured`). -/
set_option autoImplicit false
namespace MachineRegisters
open Text

/-! ## Words in columns -/

namespace Text
variable {w cs : List Char} {c fill : Char} {align : Align} {width : Nat}

theorem decimal_inj {n m : Nat} (same : decimal n = decimal m) : n = m := by
  have value := congrArg (fun cs => Nat.ofDigitChars 10 cs 0) same
  simpa only [decimal, Nat.ofDigitChars_ten_toDigits] using value

theorem isBlank_of_mem_replicate (n : Nat) : ∀ c ∈ List.replicate n ' ', isBlank c = true := by
  intro c member
  rw [List.eq_of_mem_replicate member]
  decide

/-- Blanks that fill a column are no part of the word in it. -/
theorem words_pad (word : IsWord w) : words (pad align ' ' width w) = [w] := by
  have blank := isBlank_of_mem_replicate
  cases align with
  | left => rw [pad, words_append_blanks (blank _), words_of_isWord word]
  | right => rw [pad, words_blanks_append (blank _), words_of_isWord word]
  | center => rw [pad, words_append_blanks (blank _), words_blanks_append (blank _), words_of_isWord word]

theorem notMem_pad (unfilled : c ≠ fill) (unused : c ∉ cs) : c ∉ pad align fill width cs := by
  cases align <;> simp [pad, unfilled, unused]

end Text

theorem RegClass.keyword_inj {c d : RegClass} (same : c.keyword.toList = d.keyword.toList) : c = d := by
  have found := ofKeyword?_keyword c
  rw [same, ofKeyword?_keyword] at found
  exact (Option.some.inj found).symm

theorem Role.token_inj {r s : Role} (same : r.token.toList = s.token.toList) : r = s := by
  have found := ofToken?_token r
  rw [same, ofToken?_token] at found
  exact (Option.some.inj found).symm

/-! ## Rows -/

namespace Register
variable {r t : Register} {rs ts : List Register}

/-- The registers differ at most in lanes, flags and comments. -/
structure Alike (r t : Register) : Prop where
  index : r.index = t.index
  name : r.name = t.name
  kind : r.kind = t.kind
  bank : r.bank = t.bank
  span : r.toBitSpan = t.toBitSpan

theorem words_listingRow (word : IsWord r.name.toList) : words r.listingRow =
    [decimal r.index, r.kind.keyword.toList, r.name.toList, decimal r.size, "bits".toList, "@".toList,
      decimal r.offset] := by
  have blank : isBlank ' ' = true := by decide
  have indent : ∀ c ∈ "  ".toList, isBlank c = true := isBlank_of_mem_replicate 2
  have front : words ("  ".toList ++ pad .right ' ' 4 (decimal r.index)) = [decimal r.index] := by
    rw [words_blanks_append indent, words_pad (isWord_decimal r.index)]
  have back : " bits @ ".toList ++ decimal r.offset =
      ' ' :: ("bits".toList ++ ' ' :: ("@".toList ++ ' ' :: decimal r.offset)) := rfl
  have bits : words "bits".toList = ["bits".toList] := by decide
  have at_ : words "@".toList = ["@".toList] := by decide
  rw [listingRow, List.append_assoc _ " bits @ ".toList, back]
  simp only [words_append_blank blank, front, words_pad r.kind.isField_keyword.toIsWord, words_pad word,
    words_pad (isWord_decimal r.size), words_of_isWord (isWord_decimal r.offset), bits, at_]
  rfl

theorem noFeed_listingRow (word : IsWord r.name.toList) : '\n' ∉ r.listingRow := by
  have digits : ∀ n, '\n' ∉ decimal n := fun n => noFeed_of_isWord (isWord_decimal n)
  have keyword := noFeed_of_isWord r.kind.isField_keyword.toIsWord
  have name := noFeed_of_isWord word
  have columns : ∀ align width cs, '\n' ∉ cs → '\n' ∉ pad align ' ' width cs :=
    fun _ _ _ => notMem_pad (by decide)
  simp [listingRow, columns, digits, keyword, name]

/-- The row of a register tells all of it but its bank. -/
theorem alike_of_listingRow (word : IsWord r.name.toList) (wordToo : IsWord t.name.toList)
    (sameBank : r.bank = t.bank) (same : r.listingRow = t.listingRow) : r.Alike t := by
  have fields := congrArg words same
  rw [words_listingRow word, words_listingRow wordToo] at fields
  simp only [List.cons.injEq, and_true] at fields
  obtain ⟨index, kind, name, size, -, -, offset⟩ := fields
  refine ⟨decimal_inj index, String.toList_inj.mp name, RegClass.keyword_inj kind, sameBank, ?_⟩
  rw [BitSpan.mk.injEq]
  exact ⟨decimal_inj offset, decimal_inj size⟩

theorem Alike.listingRow_eq (alike : r.Alike t) : r.listingRow = t.listingRow := by
  rw [listingRow, listingRow, alike.index, alike.kind, alike.name, alike.span]

/-- Of well placed registers, if each has one like it among others, there are not more. -/
theorem WellPlaced.length_le (placed : WellPlaced rs) (placedToo : WellPlaced ts)
    (each : ∀ r ∈ rs, ∃ t ∈ ts, r.Alike t) : rs.length ≤ ts.length := by
  by_contra more
  have inside : ts.length < rs.length := Nat.not_le.mp more
  obtain ⟨t, member, alike⟩ := each rs[ts.length] (List.getElem_mem inside)
  have index := placed.index_of_getElem? (List.getElem?_eq_getElem inside)
  obtain ⟨short, -⟩ := List.getElem?_eq_some_iff.mp (placedToo.getElem?_index member)
  rw [← alike.index, index] at short
  exact Nat.lt_irrefl _ short

theorem WellPlaced.forall₂_alike (placed : WellPlaced rs) (placedToo : WellPlaced ts)
    (each : ∀ r ∈ rs, ∃ t ∈ ts, r.Alike t) (eachToo : ∀ t ∈ ts, ∃ r ∈ rs, t.Alike r) :
    List.Forall₂ Alike rs ts := by
  rw [List.forall₂_iff_get]
  refine ⟨Nat.le_antisymm (placed.length_le placedToo each) (placedToo.length_le placed eachToo), ?_⟩
  intro n first second
  rw [List.get_eq_getElem, List.get_eq_getElem]
  obtain ⟨t, member, alike⟩ := each rs[n] (List.getElem_mem first)
  have index := placed.index_of_getElem? (List.getElem?_eq_getElem first)
  -- The register like this one has the same index, so it stands at the same place.
  have there := placedToo.getElem?_index member
  rw [← alike.index, index, List.getElem?_eq_getElem second] at there
  rw [Option.some.inj there]
  exact alike

theorem bytesOfBank_eq_of_alike (alike : List.Forall₂ Alike rs ts) (c : RegClass) :
    bytesOfBank rs c = bytesOfBank ts c := by
  induction alike with
  | nil => rfl
  | @cons r t rs ts first _ ih =>
      have sameBytes : r.bytesNeeded = t.bytesNeeded := congrArg BitSpan.bytesNeeded first.span
      rw [Stepwise.bytesOfBank_cons, Stepwise.bytesOfBank_cons, first.bank, sameBytes, ih]

end Register

/-! ## Sections -/

theorem append_eq_append_of_takeWhile {α : Type} {p : α → Bool} {as bs as' bs' : List α}
    (each : ∀ a ∈ as, p a = true) (eachToo : ∀ a ∈ as', p a = true) (stops : ∀ b ∈ bs.head?, p b = false)
    (stopsToo : ∀ b ∈ bs'.head?, p b = false) (same : as ++ bs = as' ++ bs') : as = as' ∧ bs = bs' := by
  have nothing : ∀ {cs : List α}, (∀ b ∈ cs.head?, p b = false) → cs.takeWhile p = [] := by
    intro cs stops
    cases cs with
    | nil => rfl
    | cons c rest => exact List.takeWhile_cons_of_neg (Bool.eq_false_iff.mp (stops c rfl))
  have fronts := congrArg (List.takeWhile p) same
  rw [List.takeWhile_append_of_pos each, List.takeWhile_append_of_pos eachToo, nothing stops, nothing stopsToo,
    List.append_nil, List.append_nil] at fronts
  subst fronts
  exact ⟨rfl, List.append_cancel_left same⟩

namespace Section
variable {s : Section} {ss ts : List Section} {tail tail' : List (List Char)} {line : List Char}

def Headed (s : Section) : Prop := s.heading.head? = some '['

/-- The lines that follow all sections begin with neither a heading nor a row. -/
def Ended (tail : List (List Char)) : Prop :=
  ∀ line ∈ tail.head?, line.head? ≠ some '[' ∧ line.head? ≠ some ' '

def isRow (line : List Char) : Bool := line.head? == some ' '

theorem isRow_of_mem (member : line ∈ s.registers.map fun r => r.listingRow) : isRow line = true := by
  obtain ⟨r, -, rfl⟩ := List.mem_map.mp member
  rfl

theorem isRow_head (headed : ∀ s ∈ ss, s.Headed) (ended : Ended tail) :
    ∀ line ∈ (ss.flatMap lines ++ tail).head?, isRow line = false := by
  intro line first
  cases ss with
  | nil => exact beq_false_of_ne (ended line first).2
  | cons s rest =>
      obtain rfl : s.heading = line := Option.some.inj first
      have opening := headed s (List.mem_cons_self ..)
      rw [isRow, opening]
      rfl

/-- Lines are put together from sections and other lines in one way only. -/
theorem sections_of_lines (headed : ∀ s ∈ ss, s.Headed) (headedToo : ∀ t ∈ ts, t.Headed) (ended : Ended tail)
    (endedToo : Ended tail') (same : ss.flatMap lines ++ tail = ts.flatMap lines ++ tail') :
    ss.map lines = ts.map lines ∧ tail = tail' := by
  induction ss generalizing ts with
  | nil =>
      cases ts with
      | nil => exact ⟨rfl, same⟩
      | cons t others =>
          have first : t.heading ∈ tail.head? := congrArg List.head? same
          exact absurd (headedToo t (List.mem_cons_self ..)) (ended t.heading first).1
  | cons s rest ih =>
      cases ts with
      | nil =>
          have first : s.heading ∈ tail'.head? := congrArg List.head? same.symm
          exact absurd (headed s (List.mem_cons_self ..)) (endedToo s.heading first).1
      | cons t others =>
          have headedRest := fun u member => headed u (List.mem_cons_of_mem _ member)
          have headedOthers := fun u member => headedToo u (List.mem_cons_of_mem _ member)
          simp only [List.flatMap_cons, lines, List.cons_append, List.append_assoc] at same
          obtain ⟨sameHeading, below⟩ := List.cons.inj same
          obtain ⟨sameRows, sameRest⟩ := append_eq_append_of_takeWhile (fun _ => isRow_of_mem)
            (fun _ => isRow_of_mem) (isRow_head headedRest ended) (isRow_head headedOthers endedToo) below
          obtain ⟨sameLater, sameTail⟩ := ih headedRest headedOthers sameRest
          refine ⟨?_, sameTail⟩
          rw [List.map_cons, List.map_cons, sameLater, lines, lines, sameHeading, sameRows]

end Section

namespace Machine
variable {m n : Machine} {c d : RegClass} {r : Register} {role : Role} {name : String}

structure Worded (m : Machine) : Prop where
  registers : ∀ r ∈ m.registers, IsWord r.name.toList
  bound : ∀ role name, m.nameOf role = some name → IsWord name.toList

theorem eq_of_heading (same : (m.sectionOf c).heading = (n.sectionOf d).heading) : c = d := by
  have unmarked : ∀ k : RegClass, ']' ∉ '[' :: k.keyword.toList := by
    intro k
    cases k <;> decide
  have shape : ∀ (o : Machine) (k : RegClass), (o.sectionOf k).heading =
      ('[' :: k.keyword.toList) ++ ']' :: (' ' :: decimal (o.live k).length ++ " bytes".toList) := by
    intro o k
    simp [sectionOf]
  have front := congrArg (fun line => (cut ']' line).1) same
  simp only [shape, cut_append (unmarked _)] at front
  exact RegClass.keyword_inj (List.cons.inj front).2

theorem headed_of_mem_sections {s : Section} (member : s ∈ m.sections) : s.Headed := by
  obtain ⟨c, -, rfl⟩ := List.mem_map.mp member
  rfl

theorem sectionOf_mem (some_register : m.inBank c ≠ []) : m.sectionOf c ∈ m.sections :=
  List.mem_map_of_mem (List.mem_filter.mpr ⟨Listed.mem_all c, decide_eq_true some_register⟩)

theorem exists_alike (reached : m.Reachable) (reachedToo : n.Reachable) (worded : m.Worded)
    (wordedToo : n.Worded) (same : m.sections.map Section.lines = n.sections.map Section.lines)
    (member : r ∈ m.registers) : ∃ t ∈ n.registers, r.Alike t := by
  have inBank := (reached.cataloged.mem_inBank_iff reached.sound.placed).mpr ⟨member, rfl⟩
  have shown : (m.sectionOf r.bank).lines ∈ n.sections.map Section.lines := by
    rw [← same]
    exact List.mem_map_of_mem (sectionOf_mem (List.ne_nil_of_mem inBank))
  obtain ⟨s, listed, sameLines⟩ := List.mem_map.mp shown
  obtain ⟨c, -, rfl⟩ := List.mem_map.mp listed
  obtain ⟨sameHeading, sameRows⟩ := List.cons.inj sameLines
  obtain rfl := eq_of_heading sameHeading
  have row : r.listingRow ∈ (n.inBank r.bank).map fun t => t.listingRow :=
    sameRows ▸ List.mem_map_of_mem inBank
  obtain ⟨t, inBankToo, sameRow⟩ := List.mem_map.mp row
  obtain ⟨memberToo, sameBank⟩ := (reachedToo.cataloged.mem_inBank_iff reachedToo.sound.placed).mp inBankToo
  exact ⟨t, memberToo, Register.alike_of_listingRow (worded.registers r member)
    (wordedToo.registers t memberToo) sameBank.symm sameRow.symm⟩

/-! ### Roles and the calling convention -/

theorem mem_listRole {line : List Char} (member : line ∈ m.listRole role) :
    ∃ name ending, m.nameOf role = some name ∧ (ending = [] ∨ ending = " (missing)".toList) ∧
      line = ('=' :: role.token.toList) ++ ' ' :: name.toList ++ ending := by
  unfold listRole at member
  split at member
  · cases member
  · rename_i name bound
    refine ⟨name, _, bound, ?_, List.mem_singleton.mp member⟩
    split
    · exact .inl rfl
    · exact .inr rfl

/-- The line of a role tells the role and its name, whether or not the register is missing. -/
theorem words_roleLine (role : Role) (word : IsWord name.toList) {ending : List Char}
    (ends : ending = [] ∨ ending = " (missing)".toList) :
    ∃ others, words (('=' :: role.token.toList) ++ ' ' :: name.toList ++ ending) =
      ('=' :: role.token.toList) :: name.toList :: others := by
  have blank : isBlank ' ' = true := by decide
  have token := role.isField_marked.toIsWord
  rcases ends with rfl | rfl
  · refine ⟨[], ?_⟩
    rw [List.append_nil, words_append_blank blank, words_of_isWord token, words_of_isWord word]
    rfl
  · have back : " (missing)".toList = ' ' :: "(missing)".toList := rfl
    refine ⟨words "(missing)".toList, ?_⟩
    rw [back, words_append_blank blank, words_append_blank blank, words_of_isWord token, words_of_isWord word]
    rfl

theorem exists_eq_of_mem_listConvention {line : List Char} (member : line ∈ m.listConvention) :
    ∃ convention, m.callConvention = some convention ∧ line = "cc: ".toList ++ convention.toList := by
  unfold listConvention at member
  split at member
  · cases member
  · rename_i convention told
    exact ⟨convention, told, List.mem_singleton.mp member⟩

theorem ended_closing (m : Machine) : Section.Ended m.closing := by
  intro line first
  rcases List.mem_append.mp (List.mem_of_mem_head? first) with inRoles | inConvention
  · obtain ⟨role, -, member⟩ := List.mem_flatMap.mp inRoles
    obtain ⟨name, ending, -, -, rfl⟩ := mem_listRole member
    exact ⟨by simp, by simp⟩
  · obtain ⟨convention, -, rfl⟩ := exists_eq_of_mem_listConvention inConvention
    exact ⟨by simp, by simp⟩

theorem nameOf_of_closing (worded : m.Worded) (wordedToo : n.Worded) (same : m.closing = n.closing)
    (bound : m.nameOf role = some name) : n.nameOf role = some name := by
  obtain ⟨line, inRole⟩ : ∃ line, line ∈ m.listRole role := by
    rw [listRole, bound]
    exact ⟨_, List.mem_singleton_self _⟩
  have shown : line ∈ n.closing := by
    rw [← same]
    exact List.mem_append_left _ (List.mem_flatMap.mpr ⟨role, Listed.mem_all role, inRole⟩)
  obtain ⟨known, ending, boundKnown, ends, rfl⟩ := mem_listRole inRole
  obtain rfl := Option.some.inj (boundKnown.symm.trans bound)
  rcases List.mem_append.mp shown with inRoles | inConvention
  · obtain ⟨other, -, member⟩ := List.mem_flatMap.mp inRoles
    obtain ⟨otherName, otherEnding, boundOther, endsOther, sameLine⟩ := mem_listRole member
    obtain ⟨rest, fields⟩ := words_roleLine role (worded.bound role known bound) ends
    obtain ⟨restOther, fieldsOther⟩ :=
      words_roleLine other (wordedToo.bound other otherName boundOther) endsOther
    rw [sameLine, fieldsOther] at fields
    simp only [List.cons.injEq, true_and] at fields
    obtain ⟨sameToken, sameName, -⟩ := fields
    rw [← Role.token_inj sameToken, boundOther, String.toList_inj.mp sameName]
  · obtain ⟨convention, -, sameLine⟩ := exists_eq_of_mem_listConvention inConvention
    exact absurd (congrArg List.head? sameLine) (by simp)

theorem nameOf_eq_of_closing (worded : m.Worded) (wordedToo : n.Worded) (same : m.closing = n.closing)
    (role : Role) : m.nameOf role = n.nameOf role := by
  apply Option.ext
  intro name
  exact ⟨nameOf_of_closing worded wordedToo same, nameOf_of_closing wordedToo worded same.symm⟩

/-! ### Lines -/

theorem exists_role_of_mem_namesOf {roles : List Role} (member : name ∈ m.namesOf roles) :
    ∃ role, m.nameOf role = some name := by
  induction roles with
  | nil => cases member
  | cons role rest ih =>
      rw [namesOf] at member
      split at member
      · cases member
      · rename_i first bound
        rcases List.mem_cons.mp member with rfl | later
        · exact ⟨role, bound⟩
        · exact ih later

theorem noFeed_callConvention (worded : m.Worded) {convention : String}
    (told : m.callConvention = some convention) : '\n' ∉ convention.toList := by
  have names : ∀ role name, m.nameOf role = some name → '\n' ∉ name.toList :=
    fun role name bound => noFeed_of_isWord (worded.bound role name bound)
  unfold callConvention at told
  split at told
  · cases told
  · rename_i first rest arguments
    cases told
    have each : ∀ name ∈ first :: rest, '\n' ∉ name.toList := by
      intro name member
      rw [← arguments] at member
      obtain ⟨role, bound⟩ := exists_role_of_mem_namesOf member
      exact names role name bound
    have result : '\n' ∉ ((m.nameOf (.result 0)).getD first).toList := by
      cases bound : m.nameOf (.result 0) with
      | none => exact each first (List.mem_cons_self ..)
      | some name => exact names _ name bound
    simp only [String.toList_append, String.toList_intercalate, List.mem_append, not_or]
    refine ⟨⟨⟨result, by decide⟩, notMem_intercalate (by decide) ?_⟩, by decide⟩
    intro w member
    obtain ⟨name, listed, rfl⟩ := List.mem_map.mp member
    exact each name listed

theorem noFeed_of_mem_lines (reached : m.Reachable) (worded : m.Worded) :
    ∀ line ∈ m.sections.flatMap Section.lines ++ m.closing, '\n' ∉ line := by
  intro line member
  simp only [closing, List.mem_append, List.mem_flatMap] at member
  rcases member with ⟨s, listed, inSection⟩ | ⟨role, -, inRole⟩ | inConvention
  · obtain ⟨c, -, rfl⟩ := List.mem_map.mp listed
    rcases List.mem_cons.mp inSection with rfl | inRows
    · have keyword := noFeed_of_isWord c.isField_keyword.toIsWord
      have digits := noFeed_of_isWord (isWord_decimal (m.live c).length)
      simp [sectionOf, keyword, digits]
    · obtain ⟨r, inBank, rfl⟩ := List.mem_map.mp inRows
      have placed := (reached.cataloged.mem_inBank_iff reached.sound.placed).mp inBank
      exact Register.noFeed_listingRow (worded.registers r placed.1)
  · obtain ⟨name, ending, bound, ends, rfl⟩ := mem_listRole inRole
    have token := noFeed_of_isWord role.isField_token.toIsWord
    have word := noFeed_of_isWord (worded.bound role name bound)
    rcases ends with rfl | rfl <;> simp [token, word]
  · obtain ⟨convention, told, rfl⟩ := exists_eq_of_mem_listConvention inConvention
    simp [noFeed_callConvention worded told]

/-! ## What is told -/

/-- The machines have the same registers but for lanes, flags and comments, in banks of the same
sizes, and the same names bound to roles. -/
structure SameTable (m n : Machine) : Prop where
  registers : List.Forall₂ Register.Alike m.registers n.registers
  sizes : ∀ c, (m.live c).length = (n.live c).length
  bindings : ∀ role, m.nameOf role = n.nameOf role

theorem sameTable_of_listing (reached : m.Reachable) (reachedToo : n.Reachable) (worded : m.Worded)
    (wordedToo : n.Worded) (same : m.listing false = n.listing false) : m.SameTable n := by
  have whole : ∀ o : Machine, o.listing false = o.textOf o.sections := fun o => o.listing_eq false
  have sameText := congrArg lines same
  rw [whole, whole, textOf, textOf, lines_flatMap (noFeed_of_mem_lines reached worded),
    lines_flatMap (noFeed_of_mem_lines reachedToo wordedToo)] at sameText
  have sameLines := List.append_cancel_right sameText
  obtain ⟨sameSections, sameClosing⟩ := Section.sections_of_lines (fun _ => headed_of_mem_sections)
    (fun _ => headed_of_mem_sections) m.ended_closing n.ended_closing sameLines
  have registers := reached.sound.placed.forall₂_alike reachedToo.sound.placed
    (fun _ => exists_alike reached reachedToo worded wordedToo sameSections)
    (fun _ => exists_alike reachedToo reached wordedToo worded sameSections.symm)
  refine ⟨registers, ?_, nameOf_eq_of_closing worded wordedToo sameClosing⟩
  intro c
  rw [reached.sound.live_length, reachedToo.sound.live_length]
  exact Register.bytesOfBank_eq_of_alike registers c

namespace SameTable

theorem inBank (same : m.SameTable n) (reached : m.Reachable) (reachedToo : n.Reachable) (c : RegClass) :
    List.Forall₂ Register.Alike (m.inBank c) (n.inBank c) := by
  rw [reached.cataloged.inBank_eq reached.sound.placed, reachedToo.cataloged.inBank_eq reachedToo.sound.placed]
  refine List.rel_filter ?_ same.registers
  intro r t alike
  simp only [alike.bank]

theorem listBank_eq (same : m.SameTable n) (reached : m.Reachable) (reachedToo : n.Reachable) (c : RegClass) :
    m.listBank false c = n.listBank false c := by
  have inBank := same.inBank reached reachedToo c
  have rows : (m.inBank c).map (fun r => r.listingRow) = (n.inBank c).map fun r => r.listingRow := by
    rw [← List.forall₂_eq_eq_eq, List.forall₂_map_left_iff, List.forall₂_map_right_iff]
    exact inBank.imp fun _ _ => Register.Alike.listingRow_eq
  have none_iff : m.inBank c = [] ↔ n.inBank c = [] := by
    rw [← List.length_eq_zero_iff, inBank.length_eq, List.length_eq_zero_iff]
  simp only [listBank, none_iff, same.sizes, rows, if_neg Bool.false_ne_true]

theorem isSome_playing (same : m.SameTable n) (reached : m.Reachable) (reachedToo : n.Reachable) (role : Role) :
    (m.playing role).isSome = (n.playing role).isSome := by
  have named_iff : ∀ {o : Machine}, o.Reachable → ∀ name,
      (o.named name).isSome = true ↔ name ∈ o.registers.map fun r => r.name := by
    intro o reachedO name
    simp only [Option.isSome_iff_exists, reachedO.cataloged.named_eq_some_iff reachedO.sound.placed, List.mem_map]
  have names : m.registers.map (fun r => r.name) = n.registers.map fun r => r.name := by
    rw [← List.forall₂_eq_eq_eq, List.forall₂_map_left_iff, List.forall₂_map_right_iff]
    exact same.registers.imp fun _ _ alike => alike.name
  rw [playing, playing, same.bindings]
  cases n.nameOf role with
  | none => rfl
  | some name =>
      rw [Option.bind_some, Option.bind_some, Bool.eq_iff_iff, named_iff reached, named_iff reachedToo, names]

theorem listConvention_eq (same : m.SameTable n) : m.listConvention = n.listConvention := by
  have names : ∀ roles, m.namesOf roles = n.namesOf roles := by
    intro roles
    induction roles with
    | nil => rfl
    | cons role rest ih => rw [namesOf, namesOf, same.bindings, ih]
  rw [listConvention, listConvention, callConvention, callConvention, names, same.bindings]

theorem listing_eq (same : m.SameTable n) (reached : m.Reachable) (reachedToo : n.Reachable) :
    m.listing false = n.listing false := by
  have banks : m.listBank false = n.listBank false := funext (same.listBank_eq reached reachedToo)
  have roles : m.listRole = n.listRole := by
    funext role
    rw [listRole, listRole, same.bindings, same.isSome_playing reached reachedToo]
  rw [listing, listing, listingLines, listingLines, banks, roles, same.listConvention_eq]

end SameTable

/-- Whatever the settings of a machine without registers, it refuses for one and the same reason, or it
takes over the same registers of a profile that can be written down. -/
inductive Loads (load : Config → Outcome Unit) : Prop
  | refused (e : RegisterError) (always : ∀ config, (load config).answer = .error e)
  | taken (source : Installed) (rs : List Register) (writable : source.profile.Writable)
      (laid : source.profile.layout = .ok rs)
      (always : ∀ config, load config = .done () ((empty config).takeOver source rs))

theorem loads_adopt (text : String) {p : Profile} (writable : p.Writable) :
    Loads fun config => (empty config).adopt text p := by
  unfold adopt
  cases laid : p.layout with
  | error e => exact .refused e fun _ => rfl
  | ok rs => exact .taken ⟨text, p⟩ rs writable laid fun _ => rfl

theorem loads_install (text : String) : Loads fun config => (empty config).install text := by
  simp only [install_empty]
  cases read : Profile.parse text.toList with
  | error e => exact .refused (.badLine e) fun _ => rfl
  | ok p => exact loads_adopt text (Profile.writable_of_parse read)

theorem loads_installDebuggerRows (table : String) :
    Loads fun config => (empty config).installDebuggerRows table := by
  simp only [installDebuggerRows_empty]
  cases read : Profile.ofDebuggerRows table.toList with
  | error e => exact .refused (.badLine e) fun _ => rfl
  | ok p => exact loads_adopt (String.ofList p.print) (Profile.writable_of_ofDebuggerRows read)

theorem worded_takeOver (m : Machine) {source : Installed} {rs : List Register}
    (writable : source.profile.Writable) (laid : source.profile.layout = .ok rs) :
    (m.takeOver source rs).Worded := by
  refine ⟨?_, ?_⟩
  · intro r member
    obtain ⟨off, meant⟩ := exists_offsets source.profile.definitions
    obtain ⟨-, laidOut⟩ := (Profile.layout_eq_ok_iff meant).mp laid
    obtain ⟨i, d, last, described⟩ := laidOut.as_defined r member
    have name : r.name = d.name := by rw [described]
    rw [name]
    exact (writable.definitions d (List.mem_of_getElem? last.here)).name.toIsWord
  · intro role name bound
    rw [nameOf_takeOver] at bound
    obtain ⟨b, found, rfl⟩ := Option.map_eq_some_iff.mp bound
    exact (writable.bindings b (List.mem_reverse.mp (List.mem_of_find?_eq_some found))).register.toIsWord

end Machine

namespace Command
open Machine (SameTable)

theorem loads (c : Command) (description : String) :
    Machine.Loads fun config => load { c with config := config } description := by
  cases c.debuggerRows with
  | false =>
      simp only [load, if_neg Bool.false_ne_true]
      exact Machine.loads_install description
  | true =>
      simp only [load, if_true]
      exact Machine.loads_installDebuggerRows description

theorem reachable_of_done {c : Command} {description : String} {m : Machine}
    (loaded : c.load description = .done () m) : m.Reachable := by
  have reached := c.reachable_of_load description
  rw [loaded] at reached
  exact reached

theorem worded_of_done {c : Command} {description : String} {m : Machine}
    (loaded : c.load description = .done () m) : m.Worded := by
  cases c.loads description with
  | refused e always =>
      have answer := always c.config
      rw [loaded] at answer
      cases answer
  | taken source rs writable laid always =>
      have machine := congrArg Outcome.machine (loaded.symm.trans (always c.config))
      rw [Outcome.machine_done, Outcome.machine_done] at machine
      rw [machine]
      exact Machine.worded_takeOver _ writable laid

theorem run_configured (c : Command) (config : Config) (description : String) :
    run { c with config := config } description = c.run description := by
  cases c.loads description with
  | refused e always => rw [run_of_error (always config), run_of_error (always c.config)]
  | taken source rs _ _ always =>
      have alike : Machine.Alike ((Machine.empty config).takeOver source rs)
          ((Machine.empty c.config).takeOver source rs) := ⟨rfl, rfl, rfl, rfl, rfl, rfl, rfl⟩
      have loaded : load { c with config := config } description =
          .done () ((Machine.empty config).takeOver source rs) := always config
      have own : c.load description = .done () ((Machine.empty c.config).takeOver source rs) := always c.config
      rw [run_of_ok (congrArg Outcome.answer loaded), run_of_ok (congrArg Outcome.answer own), loaded, own,
        Outcome.machine_done, Outcome.machine_done, alike.listing]

/-- Two descriptions that are accepted, each as a profile or as a debugger's table, have the same
listing just when they give the same registers, in the same places of banks of the same sizes, and
bind the same names to roles.  The settings of the machine change nothing in what is printed. -/
theorem listing_tells_machine :
    (∀ (c c' : Command) (description description' : String) (m n : Machine),
        c.uncoveredOnly = false → c'.uncoveredOnly = false →
          c.load description = .done () m → c'.load description' = .done () n →
            ((c.run description).output = (c'.run description').output ↔ m.SameTable n)) ∧
      ∀ (c : Command) (config : Config) (description : String),
        run { c with config := config } description = c.run description := by
  refine ⟨?_, run_configured⟩
  intro c c' description description' m n whole wholeToo loaded loadedToo
  have reached := reachable_of_done loaded
  have reachedToo := reachable_of_done loadedToo
  rw [run_of_ok (congrArg Outcome.answer loaded), run_of_ok (congrArg Outcome.answer loadedToo), whole, wholeToo,
    loaded, loadedToo, Outcome.machine_done, Outcome.machine_done]
  constructor
  · intro same
    exact Machine.sameTable_of_listing reached reachedToo (worded_of_done loaded) (worded_of_done loadedToo)
      (String.ofList_injective same)
  · intro same
    rw [same.listing_eq reached reachedToo]

/-- A register with a number for a name, one named as its heading, and a role for a register that is
missing and is named so; the two descriptions differ in lanes, comments and settings. -/
theorem listing_tells_machine_missing :
    ∃ (c : Command) (description description' : String) (m n : Machine),
      load {} description = .done () m ∧ c.load description' = .done () n ∧
        m.registers.map (fun r => r.name) = ["12", "[fpu]"] ∧ m.registers ≠ n.registers ∧
        m.nameOf .programCounter = some "(missing)" ∧
        (run {} description).output =
          "[gpr] 4 bytes\n     0 gpr  12             32 bits @ 0\n[fpu] 2 bytes\n     1 fpu  [fpu]          16 bits @ 0\n=PC (missing) (missing)\n" ∧
        m.SameTable n ∧ run { config := c.config } description = run {} description := by
  obtain ⟨c, description, description', m, n, wholeToo, loaded, loadedToo, names, differ, bound, text, textToo⟩ :
      ∃ (c : Command) (description description' : String) (m n : Machine), c.uncoveredOnly = false ∧
        load {} description = .done () m ∧ c.load description' = .done () n ∧
        m.registers.map (fun r => r.name) = ["12", "[fpu]"] ∧ m.registers ≠ n.registers ∧
        m.nameOf .programCounter = some "(missing)" ∧
        (run {} description).output =
          "[gpr] 4 bytes\n     0 gpr  12             32 bits @ 0\n[fpu] 2 bytes\n     1 fpu  [fpu]          16 bits @ 0\n=PC (missing) (missing)\n" ∧
        (run {} description).output = (c.run description').output :=
    ⟨{ config := ⟨32, .highFirst, true⟩ }, "=PC (missing)\ngpr 12 4 0 0\nfpu [fpu] 2 ?\n",
      "gpr 12 .32 .0 8 # low\n=pc\t(missing)\nfpu [fpu] .16 .0\n", _, _, rfl, Outcome.eq_done (by decide +kernel),
      Outcome.eq_done (by decide +kernel), by decide +kernel, by decide +kernel, by decide +kernel,
      by decide +kernel, by decide +kernel⟩
  have told := (listing_tells_machine.1 {} c description description' m n rfl wholeToo loaded loadedToo).mp textToo
  exact ⟨c, description, description', m, n, loaded, loadedToo, names, differ, bound, text, told,
    listing_tells_machine.2 {} c.config description⟩

end Command
end MachineRegisters
