import MachineRegisters.Proofs.Stepwise.HexText
import MachineRegisters.Proofs.Stepwise.Lookup

/-! # Reading, writing and comparing registers, step by step

A register that is read or written may be any at all, in the machine or made by hand:
whether the bank has its bits is asked before the first of them is touched, and a bank has
no more bits than numbers of 32 bits can count (`counted_live`), because all registers end
below that.  Two images are compared on the registers of the machine without any such
question; they are at least as long as the bank, and so have all the bits of its registers
(`firstChange_eq`). -/
set_option autoImplicit false
namespace MachineRegisters.Stepwise

def readBits (m : Machine) (r : Register) : Option (Except RegisterError Packed) :=
  let bs := m.live r.bank
  if r.toBitSpan.Within bs then do
    let v ← readSpan m.config.byteOrder r.toBitSpan bs
    return .ok v
  else some (.error (.sizeMismatch (8 * bs.length) r.past))

def readWord (m : Machine) (r : Register) : Option (Except RegisterError Word) :=
  if 64 < r.size then some (.error (.sizeMismatch 64 r.size))
  else do
    match ← readBits m r with
    | .error e => some (.error e)
    | .ok p => do
        let v ← p.toWord
        return .ok (v.getD 0)

def readFloat (m : Machine) (r : Register) : Option (Except RegisterError Float) :=
  if r.size = 32 then do
    let read ← readWord m r
    return read.map fun v => (Float32.ofBits (UInt32.ofNat v.toNat)).toFloat
  else if r.size = 64 then do
    let read ← readWord m r
    return read.map fun v => Float.ofBits (UInt64.ofNat v.toNat)
  else some (.error (.sizeMismatch 64 r.size))

def store (m : Machine) (r : Register) (p : Packed) : Option (Outcome Unit) :=
  let b := m.bank r.bank
  if r.toBitSpan.Within b.live then do
    let live ← writeSpan m.config.byteOrder r.toBitSpan p b.live
    return .done () (m.setBank r.bank { b with live := live })
  else some (.refused (.sizeMismatch (8 * b.live.length) r.past) m)

def writeBits (m : Machine) (r : Register) (p : Packed) : Option (Outcome Unit) :=
  if m.isReadOnly r.name then some (.refused (.readOnly r.name) m)
  else if p.width = r.size then store m r p
  else some (.refused (.sizeMismatch r.size p.width) m)

def writeWord (m : Machine) (r : Register) (v : Word) : Option (Outcome Unit) :=
  if 64 < r.size then some (.refused (.sizeMismatch 64 r.size) m)
  else if m.isReadOnly r.name then some (.refused (.readOnly r.name) m)
  else do
    let p ← Packed.ofWord r.size v
    store m r p

def readRole (m : Machine) (role : Role) : Option (Except RegisterError Word) := do
  match ← playing m role with
  | none => some (.error (.notFound (.registerFor role)))
  | some r => readWord m r

def writeRole (m : Machine) (role : Role) (v : Word) : Option (Outcome Unit) := do
  match ← playing m role with
  | none => some (.refused (.notFound (.registerFor role)) m)
  | some r => writeWord m r v

def readNamed (m : Machine) (name : String) : Option (Except RegisterError Word) := do
  match ← find m name with
  | none => some (.error (.notFound (.registerNamed name)))
  | some r => readWord m r

def writeNamed (m : Machine) (name : String) (v : Word) : Option (Outcome Unit) := do
  match ← find m name with
  | none => some (.refused (.notFound (.registerNamed name)) m)
  | some r => writeWord m r v

def writeBytes (m : Machine) (c : RegClass) (bs : Bytes) : Option (Outcome Unit) :=
  let b := m.bank c
  if bs.length ≤ b.live.length then do
    let live ← copied bs b.live 0 bs.length
    return .done () (m.setBank c { b with live := live })
  else some (.refused (.sizeMismatch b.live.length bs.length) m)

def writeHex (m : Machine) (c : RegClass) (text : String) : Option (Outcome Nat) := do
  match ← readHex text.toList with
  | .error fault => some (.refused (.badLine ⟨1, fault⟩) m)
  | .ok bs => do
      let written ← writeBytes m c bs
      return written.map fun _ => bs.length

def fillBanks (m : Machine) : List RegClass → Bytes → Option (Outcome Unit)
  | [], _ => some (.done () m)
  | c :: rest, bs =>
      if bs = [] then some (.done () m)
      else do
        let n := min (m.live c).length bs.length
        let chunk ← piece bs 0 n
        let tail ← piece bs n bs.length
        let written ← writeBytes m c chunk
        match written.answer with
        | .error e => some (.refused e written.machine)
        | .ok () => fillBanks written.machine rest tail

def writeDump (m : Machine) (bs : Bytes) : Option (Outcome Unit) :=
  if bs.length ≤ m.liveSize then fillBanks m RegClass.all bs
  else some (.refused (.sizeMismatch m.liveSize bs.length) m)

def shaped (m : Machine) (bs : Bytes) : Option Bytes := sized (m.live .general).length bs

def isChange (first second : Bytes) (last : Option Register) (size : Option Nat) (r : Register) : Option Bool :=
  if Machine.isBehind last r && size.all fun n => r.size == n then differs r.toBitSpan first second
  else some false

def firstChange (m : Machine) (c : RegClass) (first second : Bytes) (last : Option Register)
    (size : Option Nat) : Option (Option Register) := do
  let rs ← inBank m c
  rs.findM? (isChange first second last size)

def nextChange (m : Machine) (c : RegClass) (first second : Bytes) (last : Option Register)
    (size : Option Nat) : Option (Except RegisterError (Option Register)) :=
  match m.checkImages c first second with
  | .error e => some (.error e)
  | .ok () => do
      let found ← firstChange m c first second last size
      return .ok found

def nextChangeFromLive (m : Machine) (c : RegClass) (second : Bytes) (last : Option Register) :
    Option (Except RegisterError (Option Register)) :=
  nextChange m c (m.live c) second last none

theorem bytesOfBank_le {rs : List Register} (small : ∀ r ∈ rs, r.past < UInt32.size) (c : RegClass) :
    8 * Register.bytesOfBank rs c ≤ UInt32.size := by
  induction rs with
  | nil => exact Nat.zero_le _
  | cons r rest ih =>
      rw [List.forall_mem_cons] at small
      have others := ih small.2
      have own : 8 * r.bytesNeeded ≤ UInt32.size := by
        have below := small.1
        simp only [BitSpan.bytesNeeded, Bits.bytesFor, UInt32.size] at below ⊢
        omega
      rw [bytesOfBank_cons]
      split <;> omega

section
variable {m : Machine} (ready : Ready m)
include ready

theorem counted_live (c : RegClass) : Counted (m.live c) := by
  rw [Counted, ready.sound.live_length]
  exact bytesOfBank_le ready.sound.placed.past_lt c

theorem readBits_eq (r : Register) : readBits m r = some ((m.readBits r).map .of) := by
  by_cases fits : r.toBitSpan.Within (m.live r.bank)
  · simp only [readBits, Machine.readBits, if_pos fits, readSpan_eq _ (counted_live ready r.bank) fits,
      Option.bind_eq_bind, Option.bind_some]
    rfl
  · simp only [readBits, Machine.readBits, if_neg fits]
    rfl

theorem readWord_eq (r : Register) : readWord m r = some (m.readWord r) := by
  by_cases wide : 64 < r.size
  · rw [readWord, Machine.readWord, if_pos wide, if_pos wide]
  · simp only [readWord, Machine.readWord, if_neg wide, readBits_eq ready, Option.bind_eq_bind, Option.bind_some]
    cases m.readBits r with
    | error e => rfl
    | ok v =>
        have small : v.toNat < UInt64.size :=
          Nat.lt_of_lt_of_le v.isLt (Nat.pow_le_pow_right (by decide) (Nat.le_of_not_lt wide))
        simp only [Except.map, Packed.toWord_eq, Bits.toWord?, if_pos small, Option.bind_some, Option.getD_some]
        rfl

theorem readFloat_eq (r : Register) : readFloat m r = some (m.readFloat r) := by
  simp only [readFloat, Machine.readFloat, readWord_eq ready, Option.bind_eq_bind, Option.bind_some, Option.pure_def]
  split
  · rfl
  · split <;> rfl

theorem store_eq (r : Register) (v : BitVec r.size) : store m r (.of v) = some (m.store r v) := by
  have counted : Counted (m.bank r.bank).live := counted_live ready r.bank
  by_cases fits : r.toBitSpan.Within (m.bank r.bank).live
  · simp only [store, Machine.store, if_pos fits, writeSpan_eq _ counted fits, Option.bind_eq_bind,
      Option.bind_some]
    rfl
  · simp only [store, Machine.store, if_neg fits]

theorem writeBits_eq (r : Register) {w : Nat} (v : BitVec w) :
    writeBits m r (.of v) = some (m.writeBits r v) := by
  unfold writeBits Machine.writeBits
  split
  · rfl
  · by_cases same : w = r.size
    · subst same
      simp only [Packed.width_of, if_true, dif_pos, BitVec.cast_eq]
      exact store_eq ready r v
    · rw [if_neg (show (Packed.of v).width ≠ r.size from same), dif_neg same, Packed.width_of]

theorem writeWord_eq (r : Register) (v : Word) : writeWord m r v = some (m.writeWord r v) := by
  simp only [writeWord, Machine.writeWord, Packed.ofWord_eq, Option.bind_eq_bind, Option.bind_some,
    store_eq ready]
  split
  · rfl
  · split <;> rfl

theorem readRole_eq (role : Role) : readRole m role = some (m.readRole role) := by
  simp only [readRole, Machine.readRole, playing_eq ready, Option.bind_eq_bind, Option.bind_some]
  cases m.playing role with
  | none => rfl
  | some r => exact readWord_eq ready r

theorem writeRole_eq (role : Role) (v : Word) : writeRole m role v = some (m.writeRole role v) := by
  simp only [writeRole, Machine.writeRole, playing_eq ready, Option.bind_eq_bind, Option.bind_some]
  cases m.playing role with
  | none => rfl
  | some r => exact writeWord_eq ready r v

theorem readNamed_eq (name : String) : readNamed m name = some (m.readNamed name) := by
  simp only [readNamed, Machine.readNamed, find_eq ready, Option.bind_eq_bind, Option.bind_some]
  cases m.find name with
  | none => rfl
  | some r => exact readWord_eq ready r

theorem writeNamed_eq (name : String) (v : Word) : writeNamed m name v = some (m.writeNamed name v) := by
  simp only [writeNamed, Machine.writeNamed, find_eq ready, Option.bind_eq_bind, Option.bind_some]
  cases m.find name with
  | none => rfl
  | some r => exact writeWord_eq ready r v

theorem firstChange_eq {c : RegClass} {first second : Bytes} (comparable : m.checkImages c first second = .ok ())
    (last : Option Register) (size : Option Nat) :
    firstChange m c first second last size = some (m.firstChange c first second last size) := by
  obtain ⟨sameLength, room⟩ := Machine.checkImages_eq_ok_iff.mp comparable
  have each : ∀ r ∈ m.inBank c, isChange first second last size r = some
      (Machine.isBehind last r && size.all (fun n => r.size == n) && decide (r.toBitSpan.Differs first second)) := by
    intro r listed
    obtain ⟨member, rfl⟩ := mem_of_inBank ready listed
    have inLive : r.past ≤ 8 * (m.live r.bank).length := ready.sound.within member
    have fitsFirst : r.toBitSpan.Within first := Nat.le_trans inLive (by omega)
    have fitsSecond : r.toBitSpan.Within second := Nat.le_trans inLive (by omega)
    rw [isChange, differs_eq (ready.sound.placed.past_lt r member) fitsFirst fitsSecond]
    cases Machine.isBehind last r && size.all fun n => r.size == n <;> rfl
  simp only [firstChange, inBank_eq ready, Option.bind_eq_bind, Option.bind_some, findM?_eq each]
  rfl

theorem nextChange_eq (c : RegClass) (first second : Bytes) (last : Option Register) (size : Option Nat) :
    nextChange m c first second last size = some (m.nextChange c first second last size) := by
  rw [nextChange, Machine.nextChange]
  cases checked : m.checkImages c first second with
  | error e => rfl
  | ok done =>
      simp only [firstChange_eq ready checked, Option.bind_eq_bind, Option.bind_some]
      rfl

end

theorem writeBytes_eq (m : Machine) (c : RegClass) (bs : Bytes) :
    writeBytes m c bs = some (m.writeBytes c bs) := by
  by_cases fits : bs.length ≤ (m.bank c).live.length
  · simp only [writeBytes, Machine.writeBytes, Bank.overlay, if_pos fits, copied_zero fits, Option.bind_eq_bind,
      Option.bind_some]
    rfl
  · simp only [writeBytes, Machine.writeBytes, Bank.overlay, if_neg fits]

theorem writeHex_eq (m : Machine) (c : RegClass) (text : String) :
    writeHex m c text = some (m.writeHex c text) := by
  simp only [writeHex, Machine.writeHex, readHex_eq, writeBytes_eq, Option.bind_eq_bind, Option.bind_some,
    Option.pure_def]
  cases Text.readHex text.toList <;> rfl

theorem fillBanks_eq (banks : List RegClass) :
    ∀ (m : Machine) (bs : Bytes), fillBanks m banks bs = some (m.fillBanks banks bs) := by
  induction banks with
  | nil => exact fun _ _ => rfl
  | cons c rest ih =>
      intro m bs
      unfold fillBanks Machine.fillBanks
      split
      · rfl
      · have room : min (m.live c).length bs.length ≤ bs.length := Nat.min_le_right _ _
        have front : bs.take (min (m.live c).length bs.length) = bs.take (m.live c).length := by
          rw [← List.take_take, List.take_length]
        have behind : (bs.drop (min (m.live c).length bs.length)).take
            (bs.length - min (m.live c).length bs.length) = bs.drop (m.live c).length := by
          rw [List.take_of_length_le (by rw [List.length_drop])]
          by_cases long : (m.live c).length ≤ bs.length
          · rw [Nat.min_eq_left long]
          · rw [Nat.min_eq_right (by omega), List.drop_length, List.drop_of_length_le (by omega)]
        simp only [piece_zero room, piece_eq room (Nat.le_refl _), front, behind, writeBytes_eq,
          Option.bind_eq_bind, Option.bind_some, Outcome.andThen]
        cases (m.writeBytes c (bs.take (m.live c).length)).answer with
        | error e => rfl
        | ok done => exact ih _ _

theorem writeDump_eq (m : Machine) (bs : Bytes) : writeDump m bs = some (m.writeDump bs) := by
  unfold writeDump Machine.writeDump
  split
  · exact fillBanks_eq _ _ _
  · rfl

theorem shaped_eq (m : Machine) (bs : Bytes) : shaped m bs = some (m.shaped bs) :=
  sized_eq _ _

end MachineRegisters.Stepwise
