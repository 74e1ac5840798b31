import MachineRegisters.Bytes
import MachineRegisters.Error

/-! # Banks

A bank is the storage of one register class: its live bytes and a stack of saved
ones.  A saved byte string is a value of its own, so later writes to the live
bytes do not reach it. -/
set_option autoImplicit false
namespace MachineRegisters

structure Bank where
  live : Bytes
  /-- The saved contents, the latest first. -/
  saved : List Bytes
  deriving DecidableEq, Repr

namespace Bank

def blank (n : Nat) : Bank := ⟨Bytes.zeros n, []⟩

def depth (b : Bank) : Nat := b.saved.length

def push (b : Bank) : Bank := ⟨b.live, b.live :: b.saved⟩

def pop? (b : Bank) : Option Bank :=
  match b.saved with
  | [] => none
  | last :: rest => some ⟨last, rest⟩

def replace (b : Bank) (bs : Bytes) : Except RegisterError Bank :=
  if bs.length = b.live.length then .ok { b with live := bs }
  else .error (.sizeMismatch b.live.length bs.length)

def overlay (b : Bank) (bs : Bytes) : Except RegisterError Bank :=
  if bs.length ≤ b.live.length then .ok { b with live := Bytes.overlay bs b.live }
  else .error (.sizeMismatch b.live.length bs.length)

def clear (b : Bank) : Bank := { b with live := Bytes.fill 0 b.live }

def fit (n : Nat) (b : Bank) : Bank := ⟨Bytes.resize n b.live, b.saved.map (Bytes.resize n)⟩

@[simp] theorem length_live_blank (n : Nat) : (blank n).live.length = n := List.length_replicate

@[simp] theorem saved_blank (n : Nat) : (blank n).saved = [] := rfl

@[simp] theorem depth_blank (n : Nat) : (blank n).depth = 0 := rfl

theorem pop?_push (b : Bank) : b.push.pop? = some b := rfl

theorem pop?_eq_none_iff {b : Bank} : b.pop? = none ↔ b.depth = 0 := by
  obtain ⟨live, saved⟩ := b
  cases saved <;> simp [pop?, depth]

theorem fit_push (n : Nat) (b : Bank) : (b.push).fit n = (b.fit n).push := rfl

end Bank
end MachineRegisters
