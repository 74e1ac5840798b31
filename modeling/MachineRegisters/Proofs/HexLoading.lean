import MachineRegisters.Proofs.Dumps
import MachineRegisters.Proofs.Pieces
import MachineRegisters.Proofs.Stepwise.Access
import MachineRegisters.Proofs.Stepwise.FixedWidth

/-! # Loading banks from hexadecimal texts

A text is read as bytes just when it writes their digits, in either case and with
blanks anywhere, behind blanks and marks of the base (`readHex_eq_ok_iff_writes`).  All
other texts have a character that is neither a digit nor a blank, or an odd number of
digits (`readHex_eq_error_iff`).  So loading a text is writing the bytes that it
writes, and the printed form of a value brings its bytes back, the greatest first
(`writeHex_text`). -/
set_option autoImplicit false
namespace MachineRegisters

namespace Text
variable {c : Char} {cs body : List Char} {bs : Bytes}

/-! ## Digits in either case -/

def isHexDigit (c : Char) : Bool := "0123456789abcdefABCDEF".toList.contains c

/-- What holds of all ASCII characters, one by one. -/
theorem forall_ascii {p : Char → Prop} (each : ∀ n, n < 128 → p (Char.ofNat n)) {c : Char}
    (ascii : c.toNat < 128) : p c := by
  have here := each c.toNat ascii
  rw [Char.ofNat_toNat] at here
  exact here

theorem ascii_of_isHexDigit (digit : isHexDigit c = true) : c.toNat < 128 := by
  have all : ("0123456789abcdefABCDEF".toList.all fun c => c.toNat < 128) = true := by decide
  exact of_decide_eq_true (List.all_eq_true.mp all c (List.contains_iff_mem.mp digit))

theorem isSome_digitValue? (c : Char) : (digitValue? c).isSome = isHexDigit c := by
  by_cases ascii : c.toNat < 128
  · exact forall_ascii (p := fun c => (digitValue? c).isSome = isHexDigit c) (by decide +kernel) ascii
  · have noValue : digitValue? c = none := by
      rw [Option.eq_none_iff_forall_not_mem]
      exact fun d digit => ascii (Stepwise.digit_bounds digit).1
    have noDigit : isHexDigit c = false := Bool.eq_false_iff.mpr fun digit => ascii (ascii_of_isHexDigit digit)
    rw [noValue, noDigit, Option.isSome_none]

theorem isBlank_of_isHexDigit (digit : isHexDigit c = true) : isBlank c = false := by
  have all : ("0123456789abcdefABCDEF".toList.all fun c => isBlank c = false) = true := by decide
  exact of_decide_eq_true (List.all_eq_true.mp all c (List.contains_iff_mem.mp digit))

theorem toLower_of_not_ascii (wide : ¬c.toNat < 128) : c.toLower = c := by
  have noCapital : ¬(c.val ≥ 'A'.val ∧ c.val ≤ 'Z'.val) := by
    intro capital
    have below : c.toNat ≤ 'Z'.toNat := UInt32.le_iff_toNat_le.mp capital.2
    exact wide (Nat.lt_of_le_of_lt below (by decide))
  exact dif_neg noCapital

/-- The letters that have a value are the same in either case. -/
theorem digitValue?_eq_some_iff {d : Nat} :
    digitValue? c = some d ↔ d < 16 ∧ c.toLower = Nat.digitChar d := by
  constructor
  · intro digit
    obtain ⟨ascii, small⟩ := Stepwise.digit_bounds digit
    have table : ∀ d, d < 16 → digitValue? c = some d → c.toLower = Nat.digitChar d :=
      forall_ascii (p := fun c => ∀ d, d < 16 → digitValue? c = some d → c.toLower = Nat.digitChar d)
        (by decide +kernel) ascii
    exact ⟨small, table d small digit⟩
  · intro written
    obtain ⟨small, letter⟩ := written
    have ascii : c.toNat < 128 := by
      by_contra wide
      have asciiDigit : ∀ d, d < 16 → (Nat.digitChar d).toNat < 128 := by decide
      rw [toLower_of_not_ascii wide] at letter
      exact wide (letter ▸ asciiDigit d small)
    have table : ∀ d, d < 16 → c.toLower = Nat.digitChar d → digitValue? c = some d :=
      forall_ascii (p := fun c => ∀ d, d < 16 → c.toLower = Nat.digitChar d → digitValue? c = some d)
        (by decide +kernel) ascii
    exact table d small letter

theorem digitValues_cons_eq_ok_iff {d : Nat} {ds : List Nat} :
    digitValues (c :: cs) = .ok (d :: ds) ↔ digitValue? c = some d ∧ digitValues cs = .ok ds := by
  rw [digitValues]
  cases digitValue? c with
  | none => simp
  | some e =>
      cases digitValues cs with
      | error fault => simp [Except.map]
      | ok es => simp [Except.map]

theorem digitValues_eq_ok_iff {ds : List Nat} :
    digitValues cs = .ok ds ↔ cs.map Char.toLower = ds.map Nat.digitChar ∧ ∀ d ∈ ds, d < 16 := by
  induction cs generalizing ds with
  | nil =>
      cases ds with
      | nil => simp [digitValues]
      | cons d ds => simp [digitValues]
  | cons c rest ih =>
      cases ds with
      | nil =>
          rw [digitValues]
          cases digitValue? c with
          | none => simp
          | some d => cases digitValues rest <;> simp [Except.map]
      | cons d ds =>
          rw [digitValues_cons_eq_ok_iff, digitValue?_eq_some_iff, ih, List.map_cons, List.map_cons,
            List.cons.injEq, List.forall_mem_cons]
          tauto

theorem readPairs_eq_some_iff {ds : List Nat} (small : ∀ d ∈ ds, d < 16) :
    readPairs ds = some bs ↔ ds = digitPairs bs := by
  constructor
  · intro read
    induction ds using readPairs.induct generalizing bs with
    | case1 =>
        cases read
        rfl
    | case2 d => cases read
    | case3 high low rest ih =>
        rw [readPairs, Option.map_eq_some_iff] at read
        obtain ⟨later, readLater, rfl⟩ := read
        simp only [List.forall_mem_cons] at small
        obtain ⟨smallHigh, smallLow, smallRest⟩ := small
        have byte : (UInt8.ofNat (16 * high + low)).toNat = 16 * high + low := by
          rw [UInt8.toNat_ofNat']
          omega
        have front : digitPairs (UInt8.ofNat (16 * high + low) :: later) = high :: low :: digitPairs later := by
          simp only [digitPairs, List.flatMap_cons, byte, List.cons_append, List.nil_append]
          congr 2 <;> omega
        rw [front, ih smallRest readLater]
  · intro same
    subst same
    exact readPairs_digitPairs bs

theorem map_toLower_hex (bs : Bytes) : (hex bs).map Char.toLower = hex bs := by
  have small : ∀ d, d < 16 → (Nat.digitChar d).toLower = Nat.digitChar d := by decide
  rw [hex, List.map_map]
  exact List.map_congr_left fun d member => small d (lt_of_mem_digitPairs member)

theorem read_digits_iff : (∃ ds, digitValues cs = .ok ds ∧ readPairs ds = some bs) ↔
    sameLetters (hex bs) cs = true := by
  rw [sameLetters_iff, map_toLower_hex]
  constructor
  · intro read
    obtain ⟨ds, valued, paired⟩ := read
    obtain ⟨letters, small⟩ := digitValues_eq_ok_iff.mp valued
    rw [letters, (readPairs_eq_some_iff small).mp paired, hex]
  · intro letters
    refine ⟨digitPairs bs, ?_, readPairs_digitPairs bs⟩
    exact digitValues_eq_ok_iff.mpr ⟨letters.symm, fun d => lt_of_mem_digitPairs⟩

/-! ## Blanks and marks of the base -/

def solid (cs : List Char) : List Char := cs.filter fun c => !isBlank c

def marks (n : Nat) : List Char := (List.replicate n ['0', 'x']).flatten

theorem solid_of_blank (blank : ∀ c ∈ cs, isBlank c = true) : solid cs = [] := by
  rw [solid, List.filter_eq_nil_iff]
  intro c member
  simp [blank c member]

theorem solid_append (cs cs' : List Char) : solid (cs ++ cs') = solid cs ++ solid cs' := List.filter_append _ _

theorem solid_trimEnd (cs : List Char) : solid (trimEnd cs) = solid cs := by
  obtain ⟨after, back, blank⟩ := exists_trimEnd cs
  calc solid (trimEnd cs) = solid (trimEnd cs ++ after) := by
        rw [solid_append, solid_of_blank blank, List.append_nil]
    _ = solid cs := by rw [← back]

theorem solid_trim (cs : List Char) : solid (trim cs) = solid cs := by
  obtain ⟨before, front, blank⟩ := exists_trimStart cs
  calc solid (trim cs) = solid (before ++ trimStart cs) := by
        rw [solid_append, solid_of_blank blank, List.nil_append, trim, solid_trimEnd]
    _ = solid cs := by rw [← front]

theorem trimEnd_append {front : List Char} (solidFront : ∀ c ∈ front, isBlank c = false) (cs : List Char) :
    trimEnd (front ++ cs) = front ++ trimEnd cs := by
  have kept : front.reverse.dropWhile isBlank = front.reverse :=
    dropWhile_of_head? fun c first => solidFront c (List.mem_reverse.mp (List.mem_of_mem_head? first))
  rw [trimEnd, trimEnd, List.reverse_append, List.dropWhile_append]
  split
  · rename_i nothing
    rw [kept, List.isEmpty_iff.mp nothing, List.reverse_reverse, List.reverse_nil, List.append_nil]
  · rw [List.reverse_append, List.reverse_reverse]

theorem dropBaseMarks_marks_append (n : Nat) (cs : List Char) :
    dropBaseMarks (marks n ++ cs) = dropBaseMarks cs := by
  induction n with
  | zero => rfl
  | succ n ih =>
      rw [marks, List.replicate_succ, List.flatten_cons]
      exact ih

theorem dropBaseMarks_of_notMem (unmarked : 'x' ∉ cs) : dropBaseMarks cs = cs := by
  unfold dropBaseMarks
  split
  · simp at unmarked
  · rfl

theorem exists_marks (cs : List Char) : ∃ n, cs = marks n ++ dropBaseMarks cs := by
  induction cs using dropBaseMarks.induct with
  | case1 rest ih =>
      obtain ⟨n, split⟩ := ih
      refine ⟨n + 1, ?_⟩
      rw [dropBaseMarks, marks, List.replicate_succ, List.flatten_cons, List.append_assoc]
      exact congrArg (fun later => '0' :: 'x' :: later) split
  | case2 cs unmarked => exact ⟨0, by rw [dropBaseMarks]; rfl; exact unmarked⟩

/-! ## Texts that write bytes -/

/-- The text writes the bytes: two digits for each, in either case and with blanks anywhere, behind
blanks and marks of the base. -/
def Writes (cs : List Char) (bs : Bytes) : Prop :=
  ∃ blanks n body, (∀ c ∈ blanks, isBlank c = true) ∧ cs = blanks ++ marks n ++ body ∧
    sameLetters (hex bs) (solid body) = true

/-- Behind its blanks and marks the text has a character that is neither a digit nor a blank, or an
odd number of digits. -/
def Malformed (cs : List Char) : Prop :=
  (∃ c ∈ dropBaseMarks (trim cs), isBlank c = false ∧ isHexDigit c = false) ∨
    (dropBaseMarks (trim cs)).countP isHexDigit % 2 = 1

theorem readHex_eq_ok_iff : readHex cs = .ok bs ↔
    sameLetters (hex bs) (solid (dropBaseMarks (trim cs))) = true := by
  rw [← read_digits_iff, readHex, solid]
  cases digitValues ((dropBaseMarks (trim cs)).filter fun c => !isBlank c) with
  | error fault => simp
  | ok ds =>
      simp only [Except.ok.injEq, exists_eq_left']
      cases readPairs ds with
      | none => simp
      | some read => simp

theorem unmarked_of_spelled (spelled : sameLetters (hex bs) (solid body) = true) : 'x' ∉ body := by
  intro member
  have kept : 'x' ∈ solid body := List.mem_filter.mpr ⟨member, by decide⟩
  rw [sameLetters_iff, map_toLower_hex] at spelled
  have letter : 'x'.toLower ∈ hex bs := spelled ▸ List.mem_map_of_mem kept
  exact absurd (mem_hex letter) (by decide)

theorem solid_marks (n : Nat) : ∀ c ∈ marks n, isBlank c = false := by
  intro c member
  obtain ⟨mark, copied, inMark⟩ := List.mem_flatten.mp member
  rw [List.eq_of_mem_replicate copied] at inMark
  rcases List.mem_pair.mp inMark with rfl | rfl
  · decide
  · decide

/-- With the blanks and marks in front of it a text loses none of its digits. -/
theorem solid_of_writes {blanks : List Char} (blank : ∀ c ∈ blanks, isBlank c = true) (n : Nat)
    (unmarked : 'x' ∉ body) : solid (dropBaseMarks (trim (blanks ++ marks n ++ body))) = solid body := by
  cases n with
  | zero =>
      have unmarkedWhole : 'x' ∉ trim (blanks ++ marks 0 ++ body) := by
        intro member
        rcases List.mem_append.mp (mem_of_mem_trim member) with inFront | inBody
        · have inBlanks : 'x' ∈ blanks := (List.append_nil blanks) ▸ inFront
          exact absurd (blank _ inBlanks) (by decide)
        · exact unmarked inBody
      rw [dropBaseMarks_of_notMem unmarkedWhole, solid_trim, solid_append, solid_append, solid_of_blank blank]
      rfl
  | succ n =>
      have front : trimStart (blanks ++ marks (n + 1) ++ body) = marks (n + 1) ++ body := by
        rw [trimStart, List.append_assoc, List.dropWhile_append_of_pos blank]
        rfl
      have unmarkedEnd : 'x' ∉ trimEnd body := fun member => unmarked ((trimEnd_begins body).subset member)
      rw [trim, front, trimEnd_append (solid_marks _), dropBaseMarks_marks_append,
        dropBaseMarks_of_notMem unmarkedEnd, solid_trimEnd]

theorem readHex_eq_ok_iff_writes : readHex cs = .ok bs ↔ Writes cs bs := by
  rw [readHex_eq_ok_iff]
  constructor
  · intro spelled
    obtain ⟨before, after, split, blankBefore, blankAfter⟩ := exists_trim cs
    obtain ⟨n, marked⟩ := exists_marks (trim cs)
    refine ⟨before, n, dropBaseMarks (trim cs) ++ after, blankBefore, ?_, ?_⟩
    · rw [← List.append_assoc, List.append_assoc before, ← marked]
      exact split
    · rw [solid_append, solid_of_blank blankAfter, List.append_nil]
      exact spelled
  · intro writes
    obtain ⟨blanks, n, body, blank, split, spelled⟩ := writes
    rw [split, solid_of_writes blank n (unmarked_of_spelled spelled)]
    exact spelled

/-! ## Texts that write none -/

theorem digitValues_eq_error_iff :
    (∃ fault, digitValues cs = .error fault) ↔ ∃ c ∈ cs, isHexDigit c = false := by
  have noValue : ∀ c, (digitValue? c).isNone = true ↔ isHexDigit c = false := by
    intro c
    rw [← isSome_digitValue?, Option.isSome_eq_false_iff]
  rw [Stepwise.digitValues_eq]
  cases found : cs.find? fun c => (digitValue? c).isNone with
  | none =>
      have all := List.find?_eq_none.mp found
      simp only [noValue] at all
      simpa using all
  | some bad =>
      have valueless := List.find?_some found
      have member := List.mem_of_find?_eq_some found
      exact iff_of_true ⟨_, rfl⟩ ⟨bad, member, (noValue bad).mp valueless⟩

theorem readPairs_eq_none_iff {ds : List Nat} : readPairs ds = none ↔ ds.length % 2 = 1 := by
  by_cases even : ds.length % 2 = 0
  · simp [Stepwise.readPairs_eq even, even]
  · rw [Stepwise.readPairs_odd even]
    exact iff_of_true rfl (by omega)

theorem countP_isHexDigit (all : ∀ c ∈ cs, isBlank c = false → isHexDigit c = true) :
    cs.countP isHexDigit = (solid cs).length := by
  rw [List.countP_eq_length_filter, solid]
  congr 1
  apply List.filter_congr
  intro c member
  cases blank : isBlank c with
  | false => exact all c member blank
  | true =>
      have noDigit : ¬isHexDigit c = true := fun digit => absurd (isBlank_of_isHexDigit digit) (by simp [blank])
      exact Bool.eq_false_iff.mpr noDigit

theorem readHex_eq_error_iff : (∃ fault, readHex cs = .error fault) ↔ Malformed cs := by
  have mem_solid : ∀ c,
      c ∈ solid (dropBaseMarks (trim cs)) ↔ c ∈ dropBaseMarks (trim cs) ∧ isBlank c = false := by
    intro c
    simp [solid]
  have badDigit : (∃ fault, digitValues (solid (dropBaseMarks (trim cs))) = .error fault) ↔
      ∃ c ∈ solid (dropBaseMarks (trim cs)), isHexDigit c = false := digitValues_eq_error_iff
  simp only [mem_solid, and_assoc] at badDigit
  unfold readHex Malformed
  rw [← solid, ← badDigit]
  cases valued : digitValues (solid (dropBaseMarks (trim cs))) with
  | error fault => simp
  | ok ds =>
      have accepted : ¬∃ fault, digitValues (solid (dropBaseMarks (trim cs))) = .error fault := by simp [valued]
      have all : ∀ c ∈ dropBaseMarks (trim cs), isBlank c = false → isHexDigit c = true := by
        intro c member blank
        by_contra noDigit
        exact accepted (badDigit.mpr ⟨c, member, blank, Bool.eq_false_iff.mpr noDigit⟩)
      have letters := congrArg List.length (digitValues_eq_ok_iff.mp valued).1
      rw [List.length_map, List.length_map] at letters
      rw [countP_isHexDigit all, letters, ← readPairs_eq_none_iff]
      simp only [reduceCtorEq, exists_false, false_or]
      cases readPairs ds with
      | none => simp
      | some bs => simp

theorem writes_hexValue {w : Nat} (v : BitVec w) (wide : 0 < w) :
    Writes (hexValue v) (Bits.imageHighFirst v) := by
  have digits : ∀ d, d < 16 → isBlank (Nat.digitChar d) = false := by decide
  have unbroken : solid (hex (Bits.imageHighFirst v)) = hex (Bits.imageHighFirst v) := by
    rw [solid, List.filter_eq_self]
    intro c member
    obtain ⟨d, written, rfl⟩ := List.mem_map.mp member
    rw [digits d (lt_of_mem_digitPairs written), Bool.not_false]
  refine ⟨[], 1, hex (Bits.imageHighFirst v), by simp, ?_, ?_⟩
  · rw [hexValue, if_neg (Nat.ne_of_gt wide)]
    rfl
  · rw [unbroken, sameLetters_iff]

end Text

namespace Machine
open Text

theorem writeHex_of_writes (m : Machine) (c : RegClass) {text : String} {bs : Bytes}
    (writes : Writes text.toList bs) : m.writeHex c text = (m.writeBytes c bs).map fun _ => bs.length := by
  rw [writeHex, readHex_eq_ok_iff_writes.mpr writes]

/-- No text is cut inside a character when its pairs of digits are taken by their places.  One that
writes bytes is loaded as these bytes, all others are malformed and are refused without effect, and
the text of a value brings back its bytes, the greatest first. -/
theorem writeHex_text (m : Machine) (c : RegClass) :
    (∀ text : String, Stepwise.writeHex m c text = some (m.writeHex c text)) ∧
      (∀ (text : String) (bs : Bytes), Writes text.toList bs →
        m.writeHex c text = (m.writeBytes c bs).map (fun _ => bs.length) ∧
          (bs.length ≤ (m.live c).length →
            m.writeBytes c bs = .done () (m.overlaid c bs) ∧
              m.writeHex c text = .done bs.length (m.overlaid c bs))) ∧
      (∀ text : String, Malformed text.toList →
        ∃ fault, m.writeHex c text = .refused (.badLine ⟨1, fault⟩) m) ∧
      (∀ text : String, Malformed text.toList ↔ ¬∃ bs, Writes text.toList bs) ∧
      ∀ (w : Nat) (v : BitVec w), 0 < w → (w + 7) / 8 ≤ (m.live c).length →
        ∃ after, m.writeHex c (String.ofList (hexValue v)) = .done ((w + 7) / 8) after ∧
          after = m.overlaid c (Bits.imageHighFirst v) ∧
          after.live c = Bits.imageHighFirst v ++ (m.live c).drop ((w + 7) / 8) := by
  refine ⟨Stepwise.writeHex_eq m c, ?_, ?_, ?_, ?_⟩
  · intro text bs writes
    refine ⟨m.writeHex_of_writes c writes, ?_⟩
    intro fits
    refine ⟨writeBytes_of_fits fits, ?_⟩
    rw [m.writeHex_of_writes c writes, writeBytes_of_fits fits]
    rfl
  · intro text malformed
    obtain ⟨fault, refused⟩ := readHex_eq_error_iff.mpr malformed
    refine ⟨fault, ?_⟩
    rw [writeHex, refused]
  · intro text
    rw [← readHex_eq_error_iff]
    simp only [← readHex_eq_ok_iff_writes]
    cases readHex text.toList with
    | error fault => simp
    | ok bs => simp
  · intro w v wide fits
    have length : (Bits.imageHighFirst v).length = (w + 7) / 8 := by
      rw [Bits.imageHighFirst, List.length_reverse, Bits.length_image, Bits.bytesFor]
    have writes : Writes (String.ofList (hexValue v)).toList (Bits.imageHighFirst v) := by
      rw [String.toList_ofList]
      exact writes_hexValue v wide
    refine ⟨_, ?_, rfl, ?_⟩
    · rw [m.writeHex_of_writes c writes, writeBytes_of_fits (length ▸ fits), length]
      rfl
    · rw [live_overlaid, if_pos rfl, Bytes.overlay, length]

/-- Two bytes in both cases with an em space inside one of them, three digits, and a value of twelve
bits whose text has a zero in front. -/
theorem writeHex_text_spaced :
    ∃ m : Machine, m.Reachable ∧ m.live .general = [1, 2, 3, 4] ∧
      Writes "\t0xDe a\u2003D\n".toList [0xde, 0xad] ∧
      m.writeHex .general "\t0xDe a\u2003D\n" = .done 2 (m.overlaid .general [0xde, 0xad]) ∧
      Malformed "0x12 3".toList ∧
      (∃ fault, m.writeHex .general "0x12 3" = .refused (.badLine ⟨1, fault⟩) m) ∧
      ∃ after, m.writeHex .general "0x0abc" = .done 2 after ∧ after.live .general = [0x0a, 0xbc, 3, 4] := by
  obtain ⟨m, reached, held⟩ : ∃ m : Machine, m.Reachable ∧ m.live .general = [1, 2, 3, 4] :=
    ⟨(empty {}).run [.install "gpr a 4 0 0", .writeBytes .general [1, 2, 3, 4]],
      ⟨_, _, rfl⟩, by decide +kernel⟩
  have writes : Writes "\t0xDe a\u2003D\n".toList [0xde, 0xad] :=
    ⟨['\t'], 1, "De a\u2003D\n".toList, List.forall_mem_singleton.mpr (by decide), by decide, by decide⟩
  have malformed : Malformed "0x12 3".toList := .inr (by decide)
  obtain ⟨-, loads, refuses, -, values⟩ := writeHex_text m .general
  have twoFit : 2 ≤ (m.live .general).length := held ▸ by decide
  obtain ⟨after, loaded, -, stored⟩ := values 12 0xabc (by decide) twoFit
  refine ⟨m, reached, held, writes, ((loads _ _ writes).2 twoFit).2, malformed, refuses _ malformed,
    after, loaded, ?_⟩
  rw [stored, held]
  decide

end Machine
end MachineRegisters
