import MachineRegisters.Proofs.Storage

/-! # Reading a bank in sequence

What is left to read of a bank is the part of its list behind the cursor (`remaining`).  A call for the
next register answers the first of it and takes that away; any other operation leaves it as it is, but
for those that begin the reading again and an install of another profile (`perform_unmoved`).  So the
calls of a run answer the registers of the bank one after another, and then none (`readings_in_order`). -/
set_option autoImplicit false
namespace MachineRegisters

namespace Operation

def asksNext (c : RegClass) : Operation → Bool
  | .advance d => d = c
  | _ => false

def restarts (c : RegClass) : Operation → Bool
  | .rewind d => d = c
  | .reindex => true
  | _ => false

end Operation

namespace Machine
variable {m after : Machine} {c : RegClass} {op : Operation}

/-- No operation of the run begins the reading of the bank again or changes what is installed.
A refused install and one of the text in use change nothing; any other install does. -/
def Undisturbed (c : RegClass) : Machine → List Operation → Prop
  | _, [] => True
  | m, op :: rest =>
      op.restarts c = false ∧ (m.perform op).machine.installed = m.installed ∧
        Undisturbed c (m.perform op).machine rest

instance decidableUndisturbed (c : RegClass) :
    (m : Machine) → (ops : List Operation) → Decidable (Undisturbed c m ops)
  | _, [] => inferInstanceAs (Decidable True)
  | m, op :: rest =>
      have := decidableUndisturbed c (m.perform op).machine rest
      inferInstanceAs (Decidable (_ ∧ _ ∧ _))

/-- What the calls of a run for the next register of the bank answer, in their order. -/
def readings (c : RegClass) : Machine → List Operation → List (Except RegisterError Reply)
  | _, [] => []
  | m, op :: rest =>
      let later := readings c (m.perform op).machine rest
      if op.asksNext c then (m.perform op).answer :: later else later

def remaining (m : Machine) (c : RegClass) : List Register := (m.inBank c).drop (m.cursors.get c)

/-! ## One call -/

theorem getElem?_inBank (reached : m.Reachable) (c : RegClass) (n : Nat) :
    (m.inBank c)[n]? = ((m.catalog c).positions[n]?).bind m.atIndex := by
  have placed := reached.sound.placed
  rw [reached.cataloged.positions_eq placed, List.getElem?_map]
  cases here : (m.inBank c)[n]? with
  | none => rfl
  | some r =>
      have member := (reached.cataloged.mem_inBank_iff placed).mp (List.mem_of_getElem? here)
      exact (placed.getElem?_index member.1).symm

theorem upcoming_eq (reached : m.Reachable) (c : RegClass) : m.upcoming c = (m.remaining c).head? := by
  rw [upcoming, ← getElem?_inBank reached, remaining, List.head?_drop]

theorem inBank_advance (m : Machine) (c d : RegClass) : (m.advance d).inBank c = m.inBank c := by
  unfold advance
  split
  · rfl
  · rfl

theorem remaining_advance (reached : m.Reachable) (c : RegClass) :
    (m.advance c).remaining c = (m.remaining c).tail := by
  have upcoming := upcoming_eq reached c
  cases left : m.remaining c with
  | nil =>
      rw [left] at upcoming
      rw [advance, upcoming]
      exact left
  | cons r rest =>
      rw [left] at upcoming
      have passed : (m.advance c).cursors.get c = m.cursors.get c + 1 := by
        rw [advance, upcoming]
        exact TotalMap.get_set_self ..
      rw [remaining, inBank_advance, passed, ← left, remaining, List.tail_drop]

theorem remaining_rewind (m : Machine) (c : RegClass) : (m.rewind c).remaining c = m.inBank c := by
  have begun : (m.rewind c).cursors.get c = 0 := TotalMap.get_set_self ..
  rw [remaining, begun]
  rfl

/-! ## All other operations -/

structure Unmoved (c : RegClass) (before after : Machine) : Prop where
  registers_eq : after.registers = before.registers
  catalogs_eq : after.catalogs = before.catalogs
  cursor_eq : after.cursors.get c = before.cursors.get c

namespace Unmoved

theorem refl (c : RegClass) (m : Machine) : Unmoved c m m := ⟨rfl, rfl, rfl⟩

theorem of_rewritten (only : Rewritten m after) : Unmoved c m after :=
  ⟨only.registers_eq, only.catalogs_eq, congrArg (fun cursors => cursors.get c) only.cursors_eq⟩

theorem inBank_eq (unmoved : Unmoved c m after) : after.inBank c = m.inBank c := by
  unfold inBank catalog
  rw [unmoved.catalogs_eq]
  exact congrArg (fun find => List.filterMap find _) (funext fun n => by
    rw [atIndex, atIndex, unmoved.registers_eq])

theorem remaining_eq (unmoved : Unmoved c m after) : after.remaining c = m.remaining c := by
  rw [remaining, remaining, unmoved.inBank_eq, unmoved.cursor_eq]

end Unmoved

/-- Taking over a profile under another text changes what is installed. -/
theorem adopt_of_kept {text : String} {p : Profile} (fresh : m.profileText ≠ some text)
    (kept : (m.adopt text p).machine.installed = m.installed) : (m.adopt text p).machine = m := by
  unfold adopt at kept ⊢
  cases laid : p.layout with
  | error e => rfl
  | ok rs =>
      rw [laid] at kept
      have installed : some ⟨text, p⟩ = m.installed := kept
      rw [profileText, ← installed] at fresh
      exact absurd rfl fresh

theorem install_of_kept {text : String} (kept : (m.install text).machine.installed = m.installed) :
    (m.install text).machine = m := by
  by_cases same : m.profileText = some text
  · rw [install, if_pos same, Outcome.machine_done]
  · rw [install, if_neg same] at kept ⊢
    cases read : Profile.parse text.toList with
    | error e => rfl
    | ok p =>
        rw [read] at kept
        exact adopt_of_kept same kept

theorem installDebuggerRows_of_kept {table : String}
    (kept : (m.installDebuggerRows table).machine.installed = m.installed) :
    (m.installDebuggerRows table).machine = m := by
  unfold installDebuggerRows at kept ⊢
  cases read : Profile.ofDebuggerRows table.toList with
  | error e => rfl
  | ok p =>
      rw [read] at kept
      by_cases same : m.profileText = some (String.ofList p.print)
      · exact congrArg Outcome.machine (if_pos same)
      · simp only [if_neg same] at kept ⊢
        exact adopt_of_kept same kept

/-- An operation that neither asks for the next register of the bank nor begins again leaves the reading
of the bank where it is, as long as it keeps what is installed. -/
theorem perform_unmoved (noCall : op.asksNext c = false) (quiet : op.restarts c = false)
    (kept : (m.perform op).machine.installed = m.installed) : Unmoved c m (m.perform op).machine := by
  cases op with
  | install text => exact (install_of_kept kept).symm ▸ .refl c m
  | installDebuggerRows table => exact (installDebuggerRows_of_kept kept).symm ▸ .refl c m
  | reindex => cases quiet
  | configure config => exact ⟨rfl, rfl, rfl⟩
  | bind role name => exact ⟨rfl, rfl, rfl⟩
  | setReadOnly name on => exact ⟨rfl, rfl, rfl⟩
  | advance d =>
      have apart : d ≠ c := of_decide_eq_false noCall
      show Unmoved c m (m.advance d)
      unfold advance
      split
      · exact .refl c m
      · exact ⟨rfl, rfl, TotalMap.get_set_of_ne _ _ apart⟩
  | rewind d =>
      have apart : d ≠ c := of_decide_eq_false quiet
      exact ⟨rfl, rfl, TotalMap.get_set_of_ne _ _ apart⟩
  | push => exact ⟨rfl, rfl, rfl⟩
  | pop =>
      cases restored : m.pop? with
      | none =>
          simp only [perform, restored]
          exact .refl c m
      | some after =>
          simp only [perform, restored]
          unfold pop? at restored
          split at restored
          · cases restored
          · cases restored
            exact ⟨rfl, rfl, rfl⟩
  | replaceBank d bs => exact .of_rewritten (replaceBank_rewritten m d bs)
  | clearBank d => exact .of_rewritten (clearBank_rewritten m d)
  | fit => exact ⟨rfl, rfl, rfl⟩
  | writeWord r v => exact .of_rewritten (writeWord_rewritten m r v)
  | writeBits r w v => exact .of_rewritten (writeBits_rewritten m r v)
  | writeRole r v => exact .of_rewritten (writeRole_rewritten m r v)
  | writeNamed name v => exact .of_rewritten (writeNamed_rewritten m name v)
  | writeBytes d bs => exact .of_rewritten (writeBytes_rewritten m d bs)
  | writeHex d text => exact .of_rewritten (writeHex_rewritten m d text)
  | writeDump bs => exact .of_rewritten (writeDump_rewritten m bs)
  | force condition wanted => exact .of_rewritten (force_rewritten m condition wanted)
  | setFlags fs => exact .of_rewritten (setFlags_rewritten m fs)

/-! ## Runs -/

theorem eq_advance_of_asksNext (call : op.asksNext c = true) : op = .advance c := by
  cases op with
  | advance d => rw [of_decide_eq_true call]
  | _ => cases call

theorem inBank_perform (quiet : op.restarts c = false) (kept : (m.perform op).machine.installed = m.installed) :
    (m.perform op).machine.inBank c = m.inBank c := by
  cases call : op.asksNext c with
  | false => exact (perform_unmoved call quiet kept).inBank_eq
  | true =>
      rw [eq_advance_of_asksNext call]
      exact inBank_advance m c c

theorem inBank_run {ops earlier : List Operation} (undisturbed : Undisturbed c m ops) (before : earlier <+: ops) :
    (m.run earlier).inBank c = m.inBank c := by
  induction earlier generalizing m ops with
  | nil => rfl
  | cons op rest ih =>
      obtain ⟨later, rfl⟩ := before
      obtain ⟨quiet, kept, undisturbedLater⟩ := undisturbed
      exact (ih undisturbedLater (List.prefix_append rest later)).trans (inBank_perform quiet kept)

/-- The calls of a run answer what is left to read, one register after another, and then none. -/
theorem readings_eq (reached : m.Reachable) {ops : List Operation} (undisturbed : Undisturbed c m ops) :
    readings c m ops = (List.range (ops.countP fun op => op.asksNext c)).map fun k =>
      .ok (.register (m.remaining c)[k]?) := by
  induction ops generalizing m with
  | nil => rfl
  | cons op rest ih =>
      obtain ⟨quiet, kept, undisturbedLater⟩ := undisturbed
      have later := ih (reached.perform op) undisturbedLater
      cases call : op.asksNext c with
      | false =>
          rw [readings, later, (perform_unmoved call quiet kept).remaining_eq, call,
            List.countP_cons_of_neg (by rw [call]; decide)]
          rfl
      | true =>
          obtain rfl := eq_advance_of_asksNext call
          have answer : (m.perform (.advance c)).answer = .ok (.register (m.remaining c)[0]?) := by
            rw [perform, Outcome.answer_done, upcoming_eq reached, List.head?_eq_getElem?]
          have left : (m.perform (.advance c)).machine.remaining c = (m.remaining c).tail :=
            remaining_advance reached c
          rw [readings, later, left, call, if_pos rfl, answer, List.countP_cons_of_pos call,
            List.range_succ_eq_map, List.map_cons, List.map_map]
          -- Behind the first of what was left, the later calls are counted from one place further on.
          simp only [List.getElem?_tail]
          rfl

/-- After reading has begun anew, the calls in a run that does not begin it again or install another
profile answer the registers of the bank in their order, each once, and then none; the bank lists the
same registers all the time. -/
theorem readings_in_order (reached : m.Reachable) (c : RegClass) (ops : List Operation)
    (undisturbed : Undisturbed c (m.rewind c) ops) :
    (readings c (m.rewind c) ops = (List.range (ops.countP fun op => op.asksNext c)).map fun k =>
        .ok (.register (m.inBank c)[k]?)) ∧
      ∀ earlier, earlier <+: ops → ((m.rewind c).run earlier).inBank c = m.inBank c := by
  have begun : (m.rewind c).Reachable := reached.perform (.rewind c)
  refine ⟨?_, fun earlier before => inBank_run undisturbed before⟩
  rw [readings_eq begun undisturbed, remaining_rewind]

/-- Three registers and five calls, between them another bank read and begun again, writes, copies saved and
restored, a bank replaced, a refused install and one of the text in use. -/
theorem readings_in_order_interleaved :
    ∃ (m : Machine) (ops : List Operation), m.Reachable ∧ m.upcoming .general = none ∧
      (m.inBank .general).map (fun r => r.name) = ["a", "c", "d"] ∧
      readings .general (m.rewind .general) ops =
        [.ok (.register (m.named "a")), .ok (.register (m.named "c")), .ok (.register (m.named "d")),
          .ok (.register none), .ok (.register none)] := by
  have reached : Reachable ((empty {}).run
      [.install "gpr a 1 0 0\nfpu b 1 0 0\ngpr c .3 ? 0\nflg@gpr d .1 ? 0", .advance .general, .advance .general,
        .push, .advance .general]) := ⟨_, _, rfl⟩
  obtain ⟨inOrder, -⟩ := readings_in_order reached .general
    [.push, .advance .general, .advance .float, .pop, .rewind .float, .writeNamed "a" 7, .install "gpr a 0 0 0",
      .advance .general, .replaceBank .general [1, 2], .fit,
      .install "gpr a 1 0 0\nfpu b 1 0 0\ngpr c .3 ? 0\nflg@gpr d .1 ? 0", .advance .general, .setReadOnly "d" true,
      .advance .general, .pop, .bind .stackPointer "a", .advance .general] (by decide +kernel)
  exact ⟨_, _, reached, by decide +kernel, by decide +kernel, inOrder.trans (by decide +kernel)⟩

end Machine
end MachineRegisters
