import MachineRegisters.Machine.Conditions
import MachineRegisters.Machine.Snapshot

/-! # Operations

Everything that can change a machine, as data.  `perform` carries out one
operation and `run` a list of them, refused or not; a machine is reachable if
some run leads to it from a machine without registers. -/
set_option autoImplicit false
namespace MachineRegisters

inductive Operation where
  | install (text : String)
  | installDebuggerRows (text : String)
  | reindex
  | configure (config : Config)
  | bind (role : Role) (name : String)
  | setReadOnly (name : String) (on : Bool)
  | advance (bank : RegClass)
  | rewind (bank : RegClass)
  | push
  | pop
  | replaceBank (bank : RegClass) (bytes : Bytes)
  | clearBank (bank : RegClass)
  | fit
  | writeWord (register : Register) (value : Word)
  | writeBits (register : Register) (width : Nat) (value : BitVec width)
  | writeRole (role : Role) (value : Word)
  | writeNamed (name : String) (value : Word)
  | writeBytes (bank : RegClass) (bytes : Bytes)
  | writeHex (bank : RegClass) (text : String)
  | writeDump (bytes : Bytes)
  | force (condition : Condition) (wanted : Bool)
  | setFlags (flags : Flags)

inductive Reply where
  | unit
  | truth (b : Bool)
  | count (n : Nat)
  | bytes (bs : Bytes)
  | register (r : Option Register)
  deriving DecidableEq, Repr

namespace Machine

def acknowledge (o : Outcome Unit) : Outcome Reply := o.map fun _ => .unit

def perform (m : Machine) : Operation → Outcome Reply
  | .install text => acknowledge (m.install text)
  | .installDebuggerRows text => acknowledge (m.installDebuggerRows text)
  | .reindex => .done .unit m.reindex
  | .configure config => .done .unit { m with config := config }
  | .bind role name => .done .unit (m.bind role name)
  | .setReadOnly name on => .done .unit (m.setReadOnly name on)
  | .advance c => .done (.register (m.upcoming c)) (m.advance c)
  | .rewind c => .done .unit (m.rewind c)
  | .push => .done (.count m.push.depth) m.push
  | .pop =>
      match m.pop? with
      | none => .done (.truth false) m
      | some restored => .done (.truth true) restored
  | .replaceBank c bs => (m.replaceBank c bs).map .bytes
  | .clearBank c => .done .unit (m.clearBank c)
  | .fit => .done (.count m.neededSize) m.fit
  | .writeWord r v => acknowledge (m.writeWord r v)
  | .writeBits r _ v => acknowledge (m.writeBits r v)
  | .writeRole r v => acknowledge (m.writeRole r v)
  | .writeNamed name v => acknowledge (m.writeNamed name v)
  | .writeBytes c bs => acknowledge (m.writeBytes c bs)
  | .writeHex c text => (m.writeHex c text).map .count
  | .writeDump bs => acknowledge (m.writeDump bs)
  | .force c wanted => acknowledge (m.force c wanted)
  | .setFlags fs => acknowledge (m.setFlags fs)

def run (m : Machine) : List Operation → Machine
  | [] => m
  | op :: rest => (m.perform op).machine.run rest

/-- Some run leads to the machine from one without registers. -/
def Reachable (m : Machine) : Prop := ∃ config ops, m = (empty config).run ops

theorem run_append (m : Machine) (first second : List Operation) :
    m.run (first ++ second) = (m.run first).run second := by
  induction first generalizing m with
  | nil => rfl
  | cons op rest ih => simp only [List.cons_append, run, ih]

/-- What every operation keeps is kept by every run. -/
theorem run_keeps {holds : Machine → Prop}
    (kept : ∀ (m : Machine) (op : Operation), holds m → holds (m.perform op).machine)
    (ops : List Operation) : ∀ m : Machine, holds m → holds (m.run ops) := by
  induction ops with
  | nil =>
      intro m start
      exact start
  | cons op rest ih =>
      intro m start
      exact ih (m.perform op).machine (kept m op start)

theorem Reachable.perform {m : Machine} (reached : m.Reachable) (op : Operation) :
    (m.perform op).machine.Reachable := by
  obtain ⟨config, ops, rfl⟩ := reached
  refine ⟨config, ops ++ [op], ?_⟩
  rw [run_append]
  rfl

end Machine
end MachineRegisters
