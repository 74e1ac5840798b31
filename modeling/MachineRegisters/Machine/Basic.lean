import MachineRegisters.Bank
import MachineRegisters.Catalog
import MachineRegisters.Layout
import MachineRegisters.Profile.DebuggerRows
import MachineRegisters.Profile.Parser
import MachineRegisters.Profile.Printer

/-! # Machines

A machine holds all register state of one architecture: the installed profile
with its registers, the names bound to roles, a catalog, a bank and a cursor for
each class, the names of the registers that must not be written, and the settings.

An operation gives an `Outcome`: its answer, and the machine after it.  The
machine after a refusal is part of the outcome, so that a refusal can be asked
whether it changed anything. -/
set_option autoImplicit false
namespace MachineRegisters

structure Installed where
  text : String
  profile : Profile
  deriving DecidableEq, Repr

structure Machine where
  config : Config
  installed : Option Installed
  bindings : TotalMap Role (Option String)
  /-- All registers; the position of each is its index. -/
  registers : List Register
  catalogs : Catalogs
  banks : TotalMap RegClass Bank
  /-- How many registers of each bank the sequential reading has passed. -/
  cursors : TotalMap RegClass Nat
  readOnly : List String

structure Outcome (α : Type) where
  answer : Except RegisterError α
  machine : Machine

namespace Outcome
variable {α β : Type}

def done (a : α) (m : Machine) : Outcome α := ⟨.ok a, m⟩

def refused (e : RegisterError) (m : Machine) : Outcome α := ⟨.error e, m⟩

def map (f : α → β) (o : Outcome α) : Outcome β := ⟨o.answer.map f, o.machine⟩

def andThen (o : Outcome α) (next : α → Machine → Outcome β) : Outcome β :=
  match o.answer with
  | .error e => refused e o.machine
  | .ok a => next a o.machine

@[simp] theorem answer_done (a : α) (m : Machine) : (done a m).answer = .ok a := rfl

@[simp] theorem machine_done (a : α) (m : Machine) : (done a m).machine = m := rfl

@[simp] theorem answer_refused (e : RegisterError) (m : Machine) :
    (refused e m : Outcome α).answer = .error e := rfl

@[simp] theorem machine_refused (e : RegisterError) (m : Machine) :
    (refused e m : Outcome α).machine = m := rfl

@[simp] theorem done_andThen (a : α) (m : Machine) (next : α → Machine → Outcome β) :
    (done a m).andThen next = next a m := rfl

@[simp] theorem refused_andThen (e : RegisterError) (m : Machine) (next : α → Machine → Outcome β) :
    (refused e m : Outcome α).andThen next = refused e m := rfl

end Outcome

namespace Machine

def empty (config : Config) : Machine where
  config := config
  installed := none
  bindings := .const none
  registers := []
  catalogs := .blank
  banks := .const (Bank.blank 0)
  cursors := .const 0
  readOnly := []

def profile (m : Machine) : Profile := (m.installed.map fun i => i.profile).getD Profile.empty

def profileText (m : Machine) : Option String := m.installed.map fun i => i.text

def bank (m : Machine) (c : RegClass) : Bank := m.banks.get c

def setBank (m : Machine) (c : RegClass) (b : Bank) : Machine := { m with banks := m.banks.set c b }

def live (m : Machine) (c : RegClass) : Bytes := (m.bank c).live

def bind (m : Machine) (r : Role) (name : String) : Machine :=
  { m with bindings := m.bindings.set r (some name) }

/-- The roles bound in order, a later binding in place of an earlier one. -/
def bindAll : List Binding → TotalMap Role (Option String) → TotalMap Role (Option String)
  | [], names => names
  | b :: rest, names => bindAll rest (names.set b.role (some b.register))

/-- Take over a profile and its registers, all of them zero and nothing saved. -/
def takeOver (m : Machine) (source : Installed) (rs : List Register) : Machine :=
  { m with
    installed := some source
    bindings := bindAll source.profile.bindings (.const none)
    registers := rs
    catalogs := .ofRegisters rs
    banks := .ofFn fun c => Bank.blank (Register.bytesOfBank rs c)
    cursors := .const 0 }

def adopt (m : Machine) (text : String) (p : Profile) : Outcome Unit :=
  match p.layout with
  | .error e => .refused e m
  | .ok rs => .done () (m.takeOver ⟨text, p⟩ rs)

/-- Install the profile in a text; the text that is installed is not read again. -/
def install (m : Machine) (text : String) : Outcome Unit :=
  if m.profileText = some text then .done () m
  else
    match Profile.parse text.toList with
    | .error e => .refused (.badLine e) m
    | .ok p => m.adopt text p

/-- Install the registers of a debugger's table, under the text of their profile. -/
def installDebuggerRows (m : Machine) (table : String) : Outcome Unit :=
  match Profile.ofDebuggerRows table.toList with
  | .error e => .refused (.badLine e) m
  | .ok p =>
      let text := String.ofList p.print
      if m.profileText = some text then .done () m else m.adopt text p

def renumber (rs : List Register) : List Register :=
  rs.zipIdx.map fun numbered => { numbered.1 with index := numbered.2 }

/-- Sort the registers by index, number them and fill the catalogs anew, and begin sequential
reading again. -/
def reindex (m : Machine) : Machine :=
  let rs := renumber (m.registers.mergeSort fun r t => r.index ≤ t.index)
  { m with
    registers := rs
    catalogs := .ofRegisters rs
    cursors := .const 0 }

def isReadOnly (m : Machine) (name : String) : Bool := m.readOnly.contains name

def setReadOnly (m : Machine) (name : String) (on : Bool) : Machine :=
  let others := m.readOnly.filter (· ≠ name)
  { m with readOnly := if on then name :: others else others }

end Machine
end MachineRegisters
