import MachineRegisters.Machine.Lookup
import MachineRegisters.Text.Hex

/-! # Reading and writing registers

A register is read from the live bytes of its bank and written back to them.
Checks come in a fixed order: that the register is known, that its width fits
the value, that it may be written, and that the bank is long enough.  Raw writes
of bytes do not ask whether a register may be written. -/
set_option autoImplicit false
namespace MachineRegisters.Machine

def readBits (m : Machine) (r : Register) : Except RegisterError (BitVec r.size) :=
  let bs := m.live r.bank
  if r.toBitSpan.Within bs then .ok (r.toBitSpan.read m.config.byteOrder bs)
  else .error (.sizeMismatch (8 * bs.length) r.past)

/-- The value of a register of at most 64 bits. -/
def readWord (m : Machine) (r : Register) : Except RegisterError Word :=
  if 64 < r.size then .error (.sizeMismatch 64 r.size)
  else (m.readBits r).map fun v => v.setWidth 64

def store (m : Machine) (r : Register) (v : BitVec r.size) : Outcome Unit :=
  let b := m.bank r.bank
  if r.toBitSpan.Within b.live then
    .done () (m.setBank r.bank { b with live := r.toBitSpan.write m.config.byteOrder v b.live })
  else .refused (.sizeMismatch (8 * b.live.length) r.past) m

/-- Write a register of any width with a value of just that width. -/
def writeBits (m : Machine) (r : Register) {w : Nat} (v : BitVec w) : Outcome Unit :=
  if m.isReadOnly r.name then .refused (.readOnly r.name) m
  else if same : w = r.size then m.store r (v.cast same)
  else .refused (.sizeMismatch r.size w) m

/-- Write the low bits of a word to a register of at most 64 bits. -/
def writeWord (m : Machine) (r : Register) (v : Word) : Outcome Unit :=
  if 64 < r.size then .refused (.sizeMismatch 64 r.size) m
  else if m.isReadOnly r.name then .refused (.readOnly r.name) m
  else m.store r (v.setWidth r.size)

def readFloat (m : Machine) (r : Register) : Except RegisterError Float :=
  if r.size = 32 then
    (m.readWord r).map fun v => (Float32.ofBits (UInt32.ofNat v.toNat)).toFloat
  else if r.size = 64 then (m.readWord r).map fun v => Float.ofBits (UInt64.ofNat v.toNat)
  else .error (.sizeMismatch 64 r.size)

def readRole (m : Machine) (r : Role) : Except RegisterError Word :=
  match m.playing r with
  | none => .error (.notFound (.registerFor r))
  | some found => m.readWord found

def writeRole (m : Machine) (r : Role) (v : Word) : Outcome Unit :=
  match m.playing r with
  | none => .refused (.notFound (.registerFor r)) m
  | some found => m.writeWord found v

def readNamed (m : Machine) (name : String) : Except RegisterError Word :=
  match m.find name with
  | none => .error (.notFound (.registerNamed name))
  | some found => m.readWord found

def writeNamed (m : Machine) (name : String) (v : Word) : Outcome Unit :=
  match m.find name with
  | none => .refused (.notFound (.registerNamed name)) m
  | some found => m.writeWord found v

def writeBytes (m : Machine) (c : RegClass) (bs : Bytes) : Outcome Unit :=
  match (m.bank c).overlay bs with
  | .error e => .refused e m
  | .ok b => .done () (m.setBank c b)

/-- Write bytes given in hexadecimal over the start of a bank; answers their number. -/
def writeHex (m : Machine) (c : RegClass) (text : String) : Outcome Nat :=
  match Text.readHex text.toList with
  | .error fault => .refused (.badLine ⟨1, fault⟩) m
  | .ok bs => (m.writeBytes c bs).map fun _ => bs.length

def liveSize (m : Machine) : Nat := RegClass.all.foldr (fun c total => (m.live c).length + total) 0

/-- Write bytes over the listed banks, each full before the next is begun. -/
def fillBanks (m : Machine) : List RegClass → Bytes → Outcome Unit
  | [], _ => .done () m
  | c :: rest, bs =>
      if bs = [] then .done () m
      else
        let n := (m.live c).length
        (m.writeBytes c (bs.take n)).andThen fun _ after => after.fillBanks rest (bs.drop n)

def writeDump (m : Machine) (bs : Bytes) : Outcome Unit :=
  if bs.length ≤ m.liveSize then m.fillBanks RegClass.all bs
  else .refused (.sizeMismatch m.liveSize bs.length) m

end MachineRegisters.Machine
