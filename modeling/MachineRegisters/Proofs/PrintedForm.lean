import MachineRegisters.Proofs.Finding
import MachineRegisters.Proofs.RoundTrip

/-! # The printed form of a profile

The printed text tells all of a profile but how its role tokens were written, for
which it has the roles' own.  It is read back as that just when all entries can be
written in lines (`parse_print_eq_canonical_iff`), and of such profiles it tells apart
any two that say different things (`print_inverse`).  A profile that comes from a text
is one of them; it is read back unchanged when its tokens were the roles' own
(`parse_print_of_parse`). -/
set_option autoImplicit false
namespace MachineRegisters
open Text

namespace Binding

def meaning (b : Binding) : Role × String := (b.role, b.register)

@[simp] theorem meaning_canonical (b : Binding) : b.canonical.meaning = b.meaning := rfl

@[simp] theorem print_canonical (b : Binding) : b.canonical.print = b.print := rfl

theorem writable_canonical_iff {b : Binding} : b.canonical.Writable ↔ b.Writable :=
  ⟨fun writable => ⟨writable.register⟩, fun writable => ⟨writable.register⟩⟩

theorem canonical_eq_self_iff {b : Binding} : b.canonical = b ↔ b.token = b.role.token := by
  obtain ⟨role, token, register⟩ := b
  simp [canonical, eq_comm]

end Binding

namespace Profile
variable {p q : Profile}

@[simp] theorem bindings_canonical (p : Profile) :
    p.canonical.bindings = p.bindings.map Binding.canonical := rfl

@[simp] theorem definitions_canonical (p : Profile) : p.canonical.definitions = p.definitions := rfl

theorem canonical_eq_self_iff : p.canonical = p ↔ ∀ b ∈ p.bindings, b.token = b.role.token := by
  have tokens : p.canonical = p ↔ p.bindings.map Binding.canonical = p.bindings.map id := by
    obtain ⟨bindings, definitions⟩ := p
    simp [canonical]
  rw [tokens, List.map_inj_left]
  exact forall₂_congr fun b _ => Binding.canonical_eq_self_iff

theorem map_meaning_canonical (p : Profile) :
    p.canonical.bindings.map Binding.meaning = p.bindings.map Binding.meaning := by
  simp [Function.comp_def]

/-- Profiles are the same but for the spelling of roles when they say the same. -/
theorem canonical_eq_canonical_iff : q.canonical = p.canonical ↔
    q.bindings.map Binding.meaning = p.bindings.map Binding.meaning ∧ q.definitions = p.definitions := by
  constructor
  · intro same
    refine ⟨?_, ?_⟩
    · rw [← map_meaning_canonical, same, map_meaning_canonical]
    · rw [← definitions_canonical, same, definitions_canonical]
  · intro same
    have spelled : ∀ r : Profile, r.canonical =
        ⟨(r.bindings.map Binding.meaning).map fun said => ⟨said.1, said.1.token, said.2⟩, r.definitions⟩ := by
      intro r
      rw [List.map_map]
      rfl
    rw [spelled q, spelled p, same.1, same.2]

theorem print_canonical (p : Profile) : p.canonical.print = p.print := by
  simp [print, printLines, Function.comp_def]

theorem writable_canonical_iff : p.canonical.Writable ↔ p.Writable := by
  have sameBindings : (∀ b ∈ p.canonical.bindings, b.Writable) ↔ ∀ b ∈ p.bindings, b.Writable := by
    simp [Binding.writable_canonical_iff]
  constructor
  · exact fun writable => ⟨sameBindings.mp writable.bindings, writable.definitions⟩
  · exact fun writable => ⟨sameBindings.mpr writable.bindings, writable.definitions⟩

theorem parse_print_eq_canonical_iff : parse p.print = .ok p.canonical ↔ p.Writable := by
  constructor
  · exact fun read => writable_canonical_iff.mp (writable_of_parse read)
  · exact parse_print

theorem print_eq_print_iff (writableQ : q.Writable) (writableP : p.Writable) :
    q.print = p.print ↔ q.canonical = p.canonical := by
  constructor
  · intro sameText
    have readQ := parse_print writableQ
    rw [sameText, parse_print writableP] at readQ
    exact (Except.ok.inj readQ).symm
  · intro same
    rw [← print_canonical q, same, print_canonical]

/-! ## What the printed text gives -/

theorem bindAll_canonical (bs : List Binding) (names : TotalMap Role (Option String)) :
    Machine.bindAll (bs.map Binding.canonical) names = Machine.bindAll bs names := by
  induction bs generalizing names with
  | nil => rfl
  | cons b rest ih => exact ih _

theorem bindingOf?_canonical (p : Profile) (r : Role) :
    p.canonical.bindingOf? r = (p.bindingOf? r).map Binding.canonical := by
  rw [bindingOf?, bindings_canonical, ← List.map_reverse, List.find?_map]
  rfl

/-- A profile that can be written is read back from its text with every role in its own spelling and
nothing else changed; so of two such profiles the texts are the same just when both say the same, and
what is read from the text lays out the same registers and binds the same names. -/
theorem print_inverse (writable : p.Writable) :
    parse p.print =
        .ok ⟨p.bindings.map fun b => ⟨b.role, b.role.token, b.register⟩, p.definitions⟩ ∧
      (∀ q : Profile, q.Writable → (q.print = p.print ↔
        q.bindings.map (fun b => (b.role, b.register)) = p.bindings.map (fun b => (b.role, b.register)) ∧
          q.definitions = p.definitions)) ∧
      ∀ q, parse p.print = .ok q →
        q.layout = p.layout ∧ (∀ names, Machine.bindAll q.bindings names = Machine.bindAll p.bindings names) ∧
          ∀ r, (q.bindingOf? r).map (fun b => b.register) = (p.bindingOf? r).map fun b => b.register := by
  have readBack := parse_print writable
  refine ⟨readBack, ?_, ?_⟩
  · intro q writableQ
    rw [print_eq_print_iff writableQ writable]
    exact canonical_eq_canonical_iff
  · intro q read
    cases readBack.symm.trans read
    refine ⟨rfl, bindAll_canonical p.bindings, ?_⟩
    intro r
    rw [bindingOf?_canonical, Option.map_map]
    rfl

/-- The flags could be a size, the comment begins like another one, and the token is that of no role. -/
theorem print_inverse_ambiguous :
    ∃ p : Profile, p.Writable ∧
      p.print = "=A3\tκ=1\nxmm@gpr\t=n\t.4294967295\t?\t0\t.8\t## a\n".toList ∧
      parse p.print =
        .ok ⟨[⟨.argument 3, "A3", "κ=1"⟩], [⟨.xmm, .general, "=n", 4294967295, 0, none, some "# a", some ".8"⟩]⟩ := by
  have writable : Writable
      ⟨[⟨.argument 3, "", "κ=1"⟩], [⟨.xmm, .general, "=n", 4294967295, 0, none, some "# a", some ".8"⟩]⟩ := by
    decide +kernel
  exact ⟨_, writable, by decide +kernel, (print_inverse writable).1⟩

/-! ## Profiles that come from a text -/

theorem sameLetters_token_of_readBinding {cs : List Char} {b : Binding} (read : readBinding cs = .ok b) :
    sameLetters b.role.token.toList b.token.toList = true := by
  rw [readBinding] at read
  split at read
  · split at read
    · cases read
    · rename_i token register fields role found
      cases read
      rw [String.toList_ofList]
      exact Role.ofToken?_eq_some_iff.mp found
  · cases read

theorem sameLetters_token_of_parse {cs : List Char} (read : parse cs = .ok p) {b : Binding}
    (member : b ∈ p.bindings) : sameLetters b.role.token.toList b.token.toList = true := by
  obtain ⟨line, -, rest, -, bindingRead⟩ := exists_line_of_binding read member
  exact sameLetters_token_of_readBinding bindingRead

/-- What has been read from a text can be printed and read again: all fields are the same then but
the tokens, which agree with the roles' own up to the case of letters; so the profile is the same
just when its tokens were the roles' own. -/
theorem parse_print_of_parse {cs : List Char} (read : parse cs = .ok p) :
    (∃ q, parse p.print = .ok q ∧ q.definitions = p.definitions ∧
        q.bindings = p.bindings.map fun b => { b with token := b.role.token }) ∧
      (∀ b ∈ p.bindings, b.token.toList.map Char.toLower = b.role.token.toList.map Char.toLower) ∧
      (parse p.print = .ok p ↔ ∀ b ∈ p.bindings, b.token = b.role.token) := by
  have readBack := parse_print (writable_of_parse read)
  refine ⟨⟨_, readBack, rfl, rfl⟩, ?_, ?_⟩
  · intro b member
    exact (sameLetters_iff.mp (sameLetters_token_of_parse read member)).symm
  · rw [readBack, Except.ok.injEq]
    exact canonical_eq_self_iff

theorem not_read_back_lowerCase :
    ∃ p : Profile, parse "=pc eip".toList = .ok p ∧ parse p.print ≠ .ok p :=
  ⟨⟨[⟨.programCounter, "pc", "eip"⟩], []⟩, by decide +kernel, by decide +kernel⟩

/-- Numbers in both bases, in bytes and in bits; neither offset nor lane; and a text after the flags. -/
theorem parse_print_of_parse_mixed :
    ∃ p : Profile,
      parse "=PC eip #\n  xmm@FPU q .0X20 1.4 2 .8 # a # b \r\n\n# c\nflg f 4 ?".toList = .ok p ∧
        p.definitions.length = 2 ∧ parse p.print = .ok p := by
  have read : parse "=PC eip #\n  xmm@FPU q .0X20 1.4 2 .8 # a # b \r\n\n# c\nflg f 4 ?".toList =
      .ok ⟨[⟨.programCounter, "PC", "eip"⟩],
        [⟨.xmm, .float, "q", 32, 16, some 12, some "a # b", some ".8"⟩,
          ⟨.flag, .general, "f", 32, 0, none, none, none⟩]⟩ := by decide +kernel
  exact ⟨_, read, rfl, (parse_print_of_parse read).2.2.mpr (by decide)⟩

end Profile
end MachineRegisters
