import MachineRegisters.Proofs.Stepwise.Conditions
import MachineRegisters.Proofs.Stepwise.Profiles

/-! # Runs, step by step

Each operation on a machine, and each question to it, is carried out here by steps that
give nothing outside their precondition.  Every machine that a run reaches is ready for
all of them (`ready_of_reachable`): no step of any operation fails, whatever its arguments
are, and so no step of any run (`run_eq`, `no_step_fails`). -/
set_option autoImplicit false
namespace MachineRegisters.Stepwise

def takeOver (m : Machine) (source : Installed) (rs : List Register) (sizes : TotalMap RegClass Nat) :
    Option Machine := do
  let cs ← catalogs rs
  return { m with
    installed := some source
    bindings := Machine.bindAll source.profile.bindings (.const none)
    registers := rs
    catalogs := cs
    banks := .ofFn fun c => Bank.blank (sizes.get c)
    cursors := .const 0 }

def adopt (m : Machine) (text : String) (p : Profile) : Option (Outcome Unit) := do
  match ← layout p with
  | .error e => some (.refused e m)
  | .ok (rs, sizes) => do
      let after ← takeOver m ⟨text, p⟩ rs sizes
      return .done () after

def install (m : Machine) (text : String) : Option (Outcome Unit) :=
  if m.profileText = some text then some (.done () m)
  else do
    match ← parse text.toList with
    | .error e => some (.refused (.badLine e) m)
    | .ok p => adopt m text p

def installDebuggerRows (m : Machine) (table : String) : Option (Outcome Unit) := do
  match ← ofDebuggerRows table.toList with
  | .error e => some (.refused (.badLine e) m)
  | .ok p =>
      let text := String.ofList p.print
      if m.profileText = some text then some (.done () m) else adopt m text p

def reindex (m : Machine) : Option Machine := do
  let rs := Machine.renumber (m.registers.mergeSort fun r t => r.index ≤ t.index)
  let cs ← catalogs rs
  return { m with
    registers := rs
    catalogs := cs
    cursors := .const 0 }

def fit (m : Machine) : Option (Outcome Nat) := do
  let sizes ← bankSizes m.registers
  return .done (RegClass.all.foldr (fun c total => sizes.get c + total) 0)
    { m with banks := .ofFn fun c => (m.bank c).fit (sizes.get c) }

/-- One operation.  Those that are not listed are made of no step that could fail. -/
def perform (m : Machine) : Operation → Option (Outcome Reply)
  | .install text => (install m text).map Machine.acknowledge
  | .installDebuggerRows text => (installDebuggerRows m text).map Machine.acknowledge
  | .reindex => (reindex m).map (.done .unit)
  | .advance c => do
      let next ← upcoming m c
      let after ← advance m c
      return .done (.register next) after
  | .fit => (fit m).map fun o => o.map .count
  | .writeWord r v => (writeWord m r v).map Machine.acknowledge
  | .writeBits r _ v => (writeBits m r (.of v)).map Machine.acknowledge
  | .writeRole r v => (writeRole m r v).map Machine.acknowledge
  | .writeNamed name v => (writeNamed m name v).map Machine.acknowledge
  | .writeBytes c bs => (writeBytes m c bs).map Machine.acknowledge
  | .writeHex c text => (writeHex m c text).map fun o => o.map .count
  | .writeDump bs => (writeDump m bs).map Machine.acknowledge
  | .force c wanted => (force m c wanted).map Machine.acknowledge
  | .setFlags fs => (setFlags m fs).map Machine.acknowledge
  | op => some (m.perform op)

def run (m : Machine) : List Operation → Option Machine
  | [] => some m
  | op :: rest => do
      let o ← perform m op
      run o.machine rest

theorem takeOver_eq (m : Machine) (source : Installed) (rs : List Register) :
    takeOver m source rs (.ofFn (Register.bytesOfBank rs)) = some (m.takeOver source rs) := by
  simp only [takeOver, catalogs_eq, Option.bind_eq_bind, Option.bind_some, TotalMap.get_ofFn]
  rfl

theorem adopt_eq (m : Machine) (text : String) (p : Profile) : adopt m text p = some (m.adopt text p) := by
  simp only [adopt, Machine.adopt, layout_eq, Option.bind_eq_bind, Option.bind_some]
  cases p.layout with
  | error e => rfl
  | ok rs =>
      simp only [Except.map, takeOver_eq, Option.bind_some]
      rfl

theorem install_eq (m : Machine) (text : String) : install m text = some (m.install text) := by
  simp only [install, Machine.install, parse_eq, adopt_eq, Option.bind_eq_bind, Option.bind_some]
  split
  · rfl
  · cases Profile.parse text.toList <;> rfl

theorem installDebuggerRows_eq (m : Machine) (table : String) :
    installDebuggerRows m table = some (m.installDebuggerRows table) := by
  simp only [installDebuggerRows, Machine.installDebuggerRows, ofDebuggerRows_eq, adopt_eq, Option.bind_eq_bind,
    Option.bind_some]
  cases Profile.ofDebuggerRows table.toList with
  | error e => rfl
  | ok p => exact (apply_ite some _ _ _).symm

theorem reindex_eq (m : Machine) : reindex m = some m.reindex := by
  simp only [reindex, catalogs_eq, Option.bind_eq_bind, Option.bind_some]
  rfl

section
variable {m : Machine}

theorem fit_eq (ready : Ready m) : fit m = some (.done m.neededSize m.fit) := by
  simp only [fit, bankSizes_eq ready.sound.placed.past_lt, Option.bind_eq_bind, Option.bind_some, TotalMap.get_ofFn]
  rfl

theorem perform_eq (ready : Ready m) (op : Operation) : perform m op = some (m.perform op) := by
  cases op with
  | install text => exact congrArg (Option.map Machine.acknowledge) (install_eq m text)
  | installDebuggerRows text => exact congrArg (Option.map Machine.acknowledge) (installDebuggerRows_eq m text)
  | reindex => exact congrArg (Option.map (Outcome.done Reply.unit)) (reindex_eq m)
  | advance c =>
      simp only [perform, upcoming_eq ready, advance_eq ready, Option.bind_eq_bind, Option.bind_some]
      rfl
  | fit => exact congrArg (Option.map (Outcome.map Reply.count)) (fit_eq ready)
  | writeWord r v => exact congrArg (Option.map Machine.acknowledge) (writeWord_eq ready r v)
  | writeBits r w v => exact congrArg (Option.map Machine.acknowledge) (writeBits_eq ready r v)
  | writeRole r v => exact congrArg (Option.map Machine.acknowledge) (writeRole_eq ready r v)
  | writeNamed name v => exact congrArg (Option.map Machine.acknowledge) (writeNamed_eq ready name v)
  | writeBytes c bs => exact congrArg (Option.map Machine.acknowledge) (writeBytes_eq m c bs)
  | writeHex c text => exact congrArg (Option.map (Outcome.map Reply.count)) (writeHex_eq m c text)
  | writeDump bs => exact congrArg (Option.map Machine.acknowledge) (writeDump_eq m bs)
  | force c wanted => exact congrArg (Option.map Machine.acknowledge) (force_eq ready c wanted)
  | setFlags fs => exact congrArg (Option.map Machine.acknowledge) (setFlags_eq ready fs)
  | configure _ => rfl
  | bind _ _ => rfl
  | setReadOnly _ _ => rfl
  | rewind _ => rfl
  | push => rfl
  | pop => rfl
  | replaceBank _ _ => rfl
  | clearBank _ => rfl

theorem Ready.perform (ready : Ready m) (op : Operation) : Ready (m.perform op).machine :=
  have done := Machine.perform_effect m op
  ⟨ready.sound.effect done, ready.cataloged.effect done⟩

theorem run_eq (ops : List Operation) : ∀ {m : Machine}, Ready m → run m ops = some (m.run ops) := by
  induction ops with
  | nil => exact fun _ => rfl
  | cons op rest ih =>
      intro m ready
      simp only [run, perform_eq ready, Option.bind_eq_bind, Option.bind_some]
      exact ih (ready.perform op)

theorem ready_of_reachable (reached : m.Reachable) : Ready m :=
  ⟨reached.sound, reached.cataloged⟩

end

/-! ## All that succeeds -/

structure ValueSteps : Prop where
  built_iff : ∀ p : Packed, p.Built ↔ ∃ (w : Nat) (v : BitVec w), p = .of v
  zero : ∀ w, Packed.zero w = .of (0 : BitVec w)
  ofBytes : ∀ w bs, Packed.ofBytes w bs = some (.of (Bits.ofBytes w bs))
  ofBytesHighFirst : ∀ w bs, Packed.ofBytesHighFirst w bs = some (.of (Bits.ofBytesHighFirst w bs))
  ofWord : ∀ (w : Nat) (v : Word), Packed.ofWord w v = some (.of (v.setWidth w))
  ofNumber : ∀ w n, Packed.ofNumber w n = some (.of (BitVec.ofNat w n))
  bit : ∀ {w : Nat} (v : BitVec w) (i : Nat), (Packed.of v).bit i = some (v.getLsbD i)
  withBit : ∀ {w : Nat} (v : BitVec w) (i : Nat) (on : Bool),
    (Packed.of v).withBit i on = some (.of (Bits.setBit v i on))
  toWord : ∀ {w : Nat} (v : BitVec w), (Packed.of v).toWord = some (Bits.toWord? v)

structure ProfileSteps : Prop where
  parse : ∀ cs, parse cs = some (Profile.parse cs)
  ofDebuggerRows : ∀ cs, ofDebuggerRows cs = some (Profile.ofDebuggerRows cs)
  layout : ∀ p : Profile, layout p = some (p.layout.map fun rs => (rs, .ofFn (Register.bytesOfBank rs)))

/-- Registers that end below 32 bits, whoever made them, are compared. -/
structure RegisterSteps : Prop where
  past : ∀ r : Register, r.past < UInt32.size → past r = some r.past
  covers : ∀ r t : Register, r.past < UInt32.size → t.past < UInt32.size →
    covers r t = some (decide (r.Covers t))
  overlaps : ∀ r t : Register, r.past < UInt32.size → t.past < UInt32.size →
    overlaps r t = some (decide (r.Overlaps t))
  uncovered : ∀ rs : List Register, (∀ r ∈ rs, r.past < UInt32.size) →
    uncovered rs = some (Register.uncovered rs)
  laneCount : ∀ size lane, laneCount size lane = some (MachineRegisters.laneCount size lane)

/-- A machine answers any question and carries out any operation and any run of them. -/
structure MachineSteps (m : Machine) : Prop where
  playing : ∀ role, playing m role = some (m.playing role)
  find : ∀ name, find m name = some (m.find name)
  findByRole : ∀ name, findByRole m name = some (m.findByRole name)
  namedOf : ∀ name c, namedOf m name c = some (m.namedOf name c)
  inBank : ∀ c, inBank m c = some (m.inBank c)
  below : ∀ c size bits, below m c size bits = some (m.below c size bits)
  sibling : ∀ name given wanted, sibling m name given wanted = some (m.sibling name given wanted)
  upcoming : ∀ c, upcoming m c = some (m.upcoming c)
  readBits : ∀ r, readBits m r = some ((m.readBits r).map .of)
  readWord : ∀ r, readWord m r = some (m.readWord r)
  readFloat : ∀ r, readFloat m r = some (m.readFloat r)
  readRole : ∀ role, readRole m role = some (m.readRole role)
  readNamed : ∀ name, readNamed m name = some (m.readNamed name)
  writeBits : ∀ (r : Register) (p : Packed), p.Built →
    ∃ v : BitVec p.width, p = .of v ∧ writeBits m r p = some (m.writeBits r v)
  evaluate : ∀ c, evaluate m c = some (m.evaluate c)
  flags : flags m = some m.flags
  nextChange : ∀ c first second last size,
    nextChange m c first second last size = some (m.nextChange c first second last size)
  nextChangeFromLive : ∀ c second last,
    nextChangeFromLive m c second last = some (m.nextChangeFromLive c second last)
  shaped : ∀ bs, shaped m bs = some (m.shaped bs)
  perform : ∀ op, perform m op = some (m.perform op)
  run : ∀ ops, run m ops = some (m.run ops)

theorem valueSteps : ValueSteps where
  built_iff _ := Packed.built_iff
  zero := Packed.zero_eq
  ofBytes := Packed.ofBytes_eq
  ofBytesHighFirst := Packed.ofBytesHighFirst_eq
  ofWord := Packed.ofWord_eq
  ofNumber := Packed.ofNumber_eq
  bit := Packed.bit_eq
  withBit := Packed.withBit_eq
  toWord := Packed.toWord_eq

theorem profileSteps : ProfileSteps := ⟨parse_eq, ofDebuggerRows_eq, layout_eq⟩

theorem registerSteps : RegisterSteps where
  past _ := past_eq
  covers _ _ := covers_eq
  overlaps _ _ := overlaps_eq
  uncovered _ := uncovered_eq
  laneCount := laneCount_eq

theorem machineSteps {m : Machine} (ready : Ready m) : MachineSteps m where
  playing := playing_eq ready
  find := find_eq ready
  findByRole := findByRole_eq ready
  namedOf := namedOf_eq ready
  inBank := inBank_eq ready
  below := below_eq ready
  sibling := sibling_eq ready
  upcoming := upcoming_eq ready
  readBits := readBits_eq ready
  readWord := readWord_eq ready
  readFloat := readFloat_eq ready
  readRole := readRole_eq ready
  readNamed := readNamed_eq ready
  writeBits := by
    intro r p built
    obtain ⟨w, v, rfl⟩ := Packed.built_iff.mp built
    exact ⟨v, rfl, writeBits_eq ready r v⟩
  evaluate := evaluate_eq ready
  flags := flags_eq ready
  nextChange := nextChange_eq ready
  nextChangeFromLive c second last := nextChange_eq ready c (m.live c) second last none
  shaped := shaped_eq m
  perform := perform_eq ready
  run ops := run_eq ops ready

/-- In a machine that a run reaches no step of any function fails, for arguments of any value, and
neither does one of the functions that need no machine. -/
theorem no_step_fails {m : Machine} (reached : m.Reachable) :
    MachineSteps m ∧ ValueSteps ∧ ProfileSteps ∧ RegisterSteps :=
  ⟨machineSteps (ready_of_reachable reached), valueSteps, profileSteps, registerSteps⟩

/-- Registers inside bytes and across them, a hexadecimal text with blanks, a register that lies
behind the end of its bank and one that no profile defines. -/
theorem no_step_fails_ragged :
    ∃ (m : Machine) (behind made : Register) (after : Machine),
      m.Reachable ∧ m.config.byteOrder = .highFirst ∧ made ∉ m.registers ∧
        (perform m (.writeWord behind 1)).map Outcome.answer = some (.error (.sizeMismatch 40 53)) ∧
        run m [.writeHex .general "0x01 0203", .writeWord behind 1, .writeWord made 0x1ff,
          .setFlags { Flags.clear with carry := true }, .force .equal true] = some after ∧
        after.live .general = [225, 63, 3, 0, 18] := by
  have reached : Machine.Reachable ((Machine.empty { byteOrder := .highFirst }).run
      [.install "=SR sr\ngpr word .32 0 0\nflg sr .7 .33 0 c..z\nxmm wide .80 .8 .32"]) := ⟨_, _, rfl⟩
  obtain ⟨steps, -⟩ := no_step_fails reached
  refine ⟨_, ⟨⟨33, 20⟩, "behind", .general, .general, 0, none, none, 9⟩,
    ⟨⟨5, 9⟩, "made", .general, .general, 0, none, none, 9⟩, _, reached, by decide +kernel, by decide +kernel, ?_,
    steps.run _, by decide +kernel⟩
  rw [steps.perform]
  decide +kernel

end MachineRegisters.Stepwise
