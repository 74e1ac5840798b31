import MachineRegisters.Proofs.RoundTrip
import MachineRegisters.Proofs.Storage

/-! # Installing profiles

The text that a machine keeps is read as the profile in use, and that profile lays
out the registers in use (`Faithful`).  So passing over a text that is kept already
leaves what reading it again would give, whichever way the text came to be kept, and
both ways to install do as they would on any other machine (`installs_afresh`). -/
set_option autoImplicit false
namespace MachineRegisters

theorem Installed.Readable.parse {source : Installed} (readable : source.Readable) :
    Profile.parse source.text.toList = .ok source.profile := by
  cases readable with
  | profile read => exact read
  | debuggerRows table read printed =>
      rw [printed, String.toList_ofList]
      exact Profile.parse_print_of_debuggerRows read

namespace Machine
variable {m after : Machine}

def Faithful (m : Machine) : Prop :=
  ∀ source, m.installed = some source →
    Profile.parse source.text.toList = .ok source.profile ∧ source.profile.layout = .ok m.registers

namespace Faithful

theorem of_eq (faithful : m.Faithful) (sameInstalled : after.installed = m.installed)
    (sameRegisters : after.registers = m.registers) : after.Faithful := by
  intro source installed
  rw [sameRegisters]
  exact faithful source (sameInstalled.symm.trans installed)

theorem effect (faithful : m.Faithful) (sound : m.Sound) (done : Effect m after) : after.Faithful := by
  rcases done.layout_cases with ⟨source, rs, readable, laid, rfl⟩ | rfl | ⟨sameInstalled, sameRegisters, -⟩
  · intro other installed
    cases installed
    exact ⟨readable.parse, laid⟩
  · exact faithful.of_eq rfl (registers_reindex sound.placed)
  · exact faithful.of_eq sameInstalled sameRegisters

end Faithful

theorem Reachable.faithful (reached : m.Reachable) : m.Faithful := by
  obtain ⟨config, ops, rfl⟩ := reached
  have start : (empty config).Sound ∧ (empty config).Faithful :=
    ⟨sound_empty config, fun source installed => by cases installed⟩
  have kept : ∀ (m : Machine) (op : Operation), m.Sound ∧ m.Faithful →
      (m.perform op).machine.Sound ∧ (m.perform op).machine.Faithful := by
    rintro m op ⟨sound, faithful⟩
    exact ⟨sound.effect (perform_effect m op), faithful.effect sound (perform_effect m op)⟩
  have both := run_keeps kept ops _ start
  exact both.2

/-! ## Bindings -/

theorem get_bindAll (bs : List Binding) (names : TotalMap Role (Option String)) (r : Role) :
    (bindAll bs names).get r =
      ((bs.reverse.find? fun b => b.role = r).map fun b => b.register).or (names.get r) := by
  induction bs generalizing names with
  | nil => rfl
  | cons b rest ih =>
      rw [bindAll, ih, TotalMap.get_set, List.reverse_cons, List.find?_append, List.find?_singleton]
      cases rest.reverse.find? fun b => b.role = r with
      | some later => rfl
      | none =>
          by_cases here : b.role = r
          · simp [here]
          · simp [here]

theorem nameOf_takeOver (m : Machine) (source : Installed) (rs : List Register) (r : Role) :
    (m.takeOver source rs).nameOf r = (source.profile.bindingOf? r).map fun b => b.register := by
  have bound := get_bindAll source.profile.bindings (.const none) r
  rw [TotalMap.get_const, Option.or_none] at bound
  exact bound

/-! ## Both ways to install -/

/-- A profile with the registers that it lays out, or the reason why there are none. -/
def laidOut (read : Except LineError Profile) : Except RegisterError (Profile × List Register) :=
  match read with
  | .error e => .error (.badLine e)
  | .ok p => p.layout.map fun rs => (p, rs)

/-- The outcome of installing what was read, to be kept under its `key`, is told by what was read
alone; only where the key is kept already, banks and bindings stay as they are. -/
structure InstallsAfresh (m : Machine) (read : Except LineError Profile) (key : Profile → String)
    (o : Outcome Unit) : Prop where
  answer_eq : o.answer = (laidOut read).map fun _ => ()
  refused : ∀ e, laidOut read = .error e → o.machine = m
  stored : ∀ p rs, laidOut read = .ok (p, rs) →
    o.machine.installed = some ⟨key p, p⟩ ∧ o.machine.registers = rs ∧
      ∀ c, (o.machine.live c).length = Register.bytesOfBank rs c
  skipped : ∀ p, read = .ok p → m.profileText = some (key p) → o.machine = m
  renewed : ∀ p rs, laidOut read = .ok (p, rs) → m.profileText ≠ some (key p) →
    (∀ c, o.machine.bank c = Bank.blank (Register.bytesOfBank rs c)) ∧
      ∀ r, o.machine.nameOf r = (p.bindingOf? r).map fun b => b.register

theorem installsAfresh_of_error (m : Machine) (key : Profile → String) (e : LineError) :
    InstallsAfresh m (.error e) key (.refused (.badLine e) m) where
  answer_eq := rfl
  refused _ _ := rfl
  stored _ _ laid := nomatch laid
  skipped _ _ _ := rfl
  renewed _ _ laid := nomatch laid

theorem installsAfresh_of_adopt (key : Profile → String) {p : Profile} (fresh : m.profileText ≠ some (key p)) :
    InstallsAfresh m (.ok p) key (m.adopt (key p) p) := by
  have notKept : ∀ q, (Except.ok p : Except LineError Profile) = .ok q → m.profileText ≠ some (key q) := by
    rintro q same
    cases same
    exact fresh
  unfold adopt
  split
  · rename_i e laid
    have failed : laidOut (.ok p) = .error e := by rw [laidOut, laid, Except.map]
    refine ⟨by rw [failed]; rfl, fun _ _ => rfl, ?_, fun q read kept => absurd kept (notKept q read), ?_⟩
    · intro q rs made
      cases failed.symm.trans made
    · intro q rs made
      cases failed.symm.trans made
  · rename_i rs laid
    have made : laidOut (.ok p) = .ok (p, rs) := by rw [laidOut, laid, Except.map]
    have banks := m.bank_takeOver ⟨key p, p⟩ rs
    refine ⟨by rw [made]; rfl, ?_, ?_, fun q read kept => absurd kept (notKept q read), ?_⟩
    · intro e failed
      cases made.symm.trans failed
    · intro q ts same
      cases made.symm.trans same
      refine ⟨rfl, rfl, ?_⟩
      intro c
      rw [Outcome.machine_done, live, banks, Bank.length_live_blank]
    · intro q ts same _
      cases made.symm.trans same
      exact ⟨banks, nameOf_takeOver m ⟨key p, p⟩ rs⟩

/-- A text that is kept is read as the profile in use, so nothing would change. -/
theorem installsAfresh_of_kept (sound : m.Sound) (faithful : m.Faithful) (key : Profile → String)
    {p : Profile} (kept : m.profileText = some (key p)) (read : Profile.parse (key p).toList = .ok p) :
    InstallsAfresh m (.ok p) key (.done () m) := by
  obtain ⟨source, installed, text⟩ := Option.map_eq_some_iff.mp kept
  obtain ⟨readSource, laid⟩ := faithful source installed
  -- What was read for the kept text then is what is read for it now.
  rw [text, read] at readSource
  cases readSource
  have made : laidOut (.ok source.profile) = .ok (source.profile, m.registers) := by
    rw [laidOut, laid, Except.map]
  refine ⟨by rw [made]; rfl, fun _ _ => rfl, ?_, fun _ _ _ => rfl, ?_⟩
  · intro q rs same
    cases made.symm.trans same
    refine ⟨?_, rfl, sound.live_length⟩
    rw [← text]
    exact installed
  · intro q rs same fresh
    cases made.symm.trans same
    exact absurd kept fresh

/-- Whatever is installed already, installing a text or a debugger's table is refused or done as
that text or table alone tells, and leaves the profile, registers and sizes that it describes. -/
theorem installs_afresh (reached : m.Reachable) (text : String) :
    InstallsAfresh m (Profile.parse text.toList) (fun _ => text) (m.install text) ∧
      InstallsAfresh m (Profile.ofDebuggerRows text.toList) (fun p => String.ofList p.print)
        (m.installDebuggerRows text) := by
  have sound := reached.sound
  have faithful := reached.faithful
  refine ⟨?_, ?_⟩
  · unfold install
    split
    · rename_i kept
      obtain ⟨source, installed, same⟩ := Option.map_eq_some_iff.mp kept
      have read := (faithful source installed).1
      rw [same] at read
      rw [read]
      exact installsAfresh_of_kept sound faithful (fun _ => text) kept read
    · rename_i fresh
      split
      · rename_i e read
        rw [read]
        exact installsAfresh_of_error m _ e
      · rename_i p read
        rw [read]
        exact installsAfresh_of_adopt (fun _ => text) fresh
  · unfold installDebuggerRows
    split
    · rename_i e read
      rw [read]
      exact installsAfresh_of_error m _ e
    · rename_i p read
      rw [read]
      by_cases kept : m.profileText = some (String.ofList p.print)
      · simp only [if_pos kept]
        apply installsAfresh_of_kept sound faithful _ kept
        rw [String.toList_ofList]
        exact Profile.parse_print_of_debuggerRows read
      · simp only [if_neg kept]
        exact installsAfresh_of_adopt (fun p => String.ofList p.print) kept

/-- A table is passed over since a text like its own is kept; another text renews everything. -/
theorem installs_afresh_printed :
    ∃ m : Machine, m.Reachable ∧ m.live .general = [0, 7] ∧ m.depth = 1 ∧
      (m.installDebuggerRows " Name Nr\n a 0 0 0 2 int16").machine = m ∧
      (m.install "=PC a\n=pc b\ngpr a 1 0 0\nfpu b 3 0 0").machine.bank .float = ⟨[0, 0, 0], []⟩ ∧
      (m.install "=PC a\n=pc b\ngpr a 1 0 0\nfpu b 3 0 0").machine.nameOf .programCounter = some "b" := by
  have reached : Reachable ((empty {}).run
      [.install "gpr\ta\t.16\t.0\t0\n", .push, .writeBytes .general [0, 7]]) := ⟨_, _, rfl⟩
  have table := (installs_afresh reached " Name Nr\n a 0 0 0 2 int16").2
  have other := (installs_afresh reached "=PC a\n=pc b\ngpr a 1 0 0\nfpu b 3 0 0").1
  obtain ⟨banks, names⟩ := other.renewed
    ⟨[⟨.programCounter, "PC", "a"⟩, ⟨.programCounter, "pc", "b"⟩],
      [⟨.general, .general, "a", 8, 0, some 0, none, none⟩, ⟨.float, .float, "b", 24, 0, some 0, none, none⟩]⟩
    [⟨⟨0, 8⟩, "a", .general, .general, 0, none, none, 0⟩, ⟨⟨0, 24⟩, "b", .float, .float, 0, none, none, 1⟩]
    (by decide +kernel) (by decide +kernel)
  refine ⟨_, reached, by decide +kernel, by decide +kernel, ?_, banks .float, names .programCounter⟩
  exact table.skipped ⟨[], [⟨.general, .general, "a", 16, 0, some 0, none, none⟩]⟩
    (by decide +kernel) (by decide +kernel)

end Machine
end MachineRegisters
