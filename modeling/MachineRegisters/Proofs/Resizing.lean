import MachineRegisters.Bank
import Mathlib.Data.List.GetD

/-! # Banks that change their size

However a bank is saved, restored, replaced, cleared and fitted, its live bytes and all saved ones
have one length, and fitting may be moved across saving and restoring.  A buffer is followed through
a run by the number of others that lie under it (`trace`).  As long as nothing is written over it only
fitting changes it, and what a smaller size has once cut off is zero after any larger one (`fit_laws`). -/
set_option autoImplicit false
namespace MachineRegisters

namespace Bytes

def resizes (sizes : List Nat) (bs : Bytes) : Bytes := sizes.foldl (fun bs n => resize n bs) bs

theorem getD_append_zeros (bs : Bytes) (n i : Nat) : (bs ++ zeros n).getD i 0 = bs.getD i 0 := by
  rcases Nat.lt_or_ge i bs.length with inside | beyond
  · exact List.getD_append bs (zeros n) 0 i inside
  · rw [List.getD_append_right bs (zeros n) 0 i beyond, List.getD_eq_default bs 0 beyond, zeros,
      List.getD_eq_getElem?_getD, List.getElem?_getD_replicate_default_eq]

theorem getD_resize (n : Nat) (bs : Bytes) (i : Nat) :
    (resize n bs).getD i 0 = if i < n then bs.getD i 0 else 0 := by
  rw [resize, getD_append_zeros, List.getD_eq_getElem?_getD, List.getElem?_take, List.getD_eq_getElem?_getD]
  split <;> rfl

theorem length_resizes (sizes : List Nat) (bs : Bytes) :
    (resizes sizes bs).length = sizes.getLast?.getD bs.length := by
  induction sizes generalizing bs with
  | nil => rfl
  | cons n rest ih =>
      rw [List.getLast?_cons]
      exact (ih (resize n bs)).trans (by rw [length_resize]; rfl)

/-- A byte survives just when it stays inside every length. -/
theorem getD_resizes (sizes : List Nat) (bs : Bytes) (i : Nat) :
    (resizes sizes bs).getD i 0 = if ∀ n ∈ sizes, i < n then bs.getD i 0 else 0 := by
  induction sizes generalizing bs with
  | nil => rw [if_pos (List.forall_mem_nil _)]; rfl
  | cons n rest ih =>
      have later : (resizes (n :: rest) bs).getD i 0 = _ := ih (resize n bs)
      rw [later, getD_resize]
      by_cases inside : i < n
      · simp only [List.forall_mem_cons, inside, if_true, true_and]
      · simp only [List.forall_mem_cons, inside, if_false, false_and, ite_self]

end Bytes

namespace Bank
open Bytes
variable {b after : Bank} {h k : Nat} {bs : Bytes}

/-! ## Runs -/

inductive Step
  | push
  | pop
  | replace (bytes : Bytes)
  | clear
  | fit (size : Nat)
  deriving DecidableEq, Repr

/-- Restoring with nothing saved and replacing by bytes of another length leave the bank as it is. -/
def step (b : Bank) : Step → Bank
  | .push => b.push
  | .pop => b.pop?.getD b
  | .replace bs =>
      match b.replace bs with
      | .ok replaced => replaced
      | .error _ => b
  | .clear => b.clear
  | .fit n => b.fit n

def run (b : Bank) (steps : List Step) : Bank := steps.foldl step b

def Reachable (b : Bank) : Prop := ∃ steps, b = (blank 0).run steps

/-- The lengths that a run fits the bank to. -/
def sizes (steps : List Step) : List Nat :=
  steps.filterMap fun
    | .fit n => some n
    | _ => none

theorem step_replace (b : Bank) (bs : Bytes) :
    b.step (.replace bs) = if bs.length = b.live.length then { b with live := bs } else b := by
  by_cases fits : bs.length = b.live.length
  · simp only [step, replace, if_pos fits]
  · simp only [step, replace, if_neg fits]

/-! ## One length -/

def Level (b : Bank) : Prop := ∀ bs ∈ b.saved, bs.length = b.live.length

theorem level_fit (n : Nat) (b : Bank) : (b.fit n).Level := by
  intro bs member
  obtain ⟨old, -, rfl⟩ := List.mem_map.mp member
  exact (length_resize n old).trans (length_resize n b.live).symm

theorem Level.of_live_length (level : b.Level) (bs : Bytes) (same : bs.length = b.live.length) :
    Level { b with live := bs } :=
  fun saved member => (level saved member).trans same.symm

theorem Level.pop (level : b.Level) (popped : b.pop? = some after) : after.Level := by
  unfold pop? at popped
  split at popped
  · cases popped
  · next last rest saved =>
      cases popped
      have lengths : ∀ bs ∈ last :: rest, bs.length = b.live.length := saved ▸ level
      rw [List.forall_mem_cons] at lengths
      exact fun bs member => (lengths.2 bs member).trans lengths.1.symm

theorem Level.step (level : b.Level) (s : Step) : (b.step s).Level := by
  cases s with
  | push => exact List.forall_mem_cons.mpr ⟨rfl, level⟩
  | pop =>
      unfold Bank.step
      cases popped : b.pop? with
      | none => exact level
      | some after => exact level.pop popped
  | replace bs =>
      rw [step_replace]
      split
      · next same => exact level.of_live_length bs same
      · exact level
  | clear => exact level.of_live_length _ List.length_replicate
  | fit n => exact level_fit n b

theorem Level.run (level : b.Level) (steps : List Step) : (b.run steps).Level := by
  induction steps generalizing b with
  | nil => exact level
  | cons s rest ih => exact ih (level.step s)

theorem Reachable.level (reached : b.Reachable) : b.Level := by
  obtain ⟨steps, rfl⟩ := reached
  have blankLevel : (blank 0).Level := List.forall_mem_nil _
  exact blankLevel.run steps

/-! ## Fitting among the other steps -/

theorem pop?_fit (n : Nat) (b : Bank) : (b.fit n).pop? = b.pop?.map (fit n) := by
  obtain ⟨live, saved⟩ := b
  cases saved <;> rfl

/-! ## Following a buffer -/

/-- All bytes of a bank, those with `h` others under them at place `h`, and so the live ones at the end. -/
def buffers (b : Bank) : List Bytes := b.saved.reverse ++ [b.live]

/-- The places of what was at place `h` before the step: two where a copy is made of it, none where it
is given up or written over. -/
def places (b : Bank) (h : Nat) : Step → List Nat
  | .push => if h = b.depth then [h, h + 1] else [h]
  | .pop => if h = b.depth ∧ b.depth ≠ 0 then [] else [h]
  | .replace bs => if h = b.depth ∧ bs.length = b.live.length then [] else [h]
  | .clear => if h = b.depth then [] else [h]
  | .fit _ => [h]

def trace : Bank → Nat → List Step → List Nat
  | _, h, [] => [h]
  | b, h, s :: rest => (b.places h s).flatMap fun k => (b.step s).trace k rest

theorem buffers_push (b : Bank) : b.push.buffers = b.buffers ++ [b.live] := by
  simp only [buffers, push, List.reverse_cons]

theorem buffers_of_pop (popped : b.pop? = some after) : b.buffers = after.buffers ++ [b.live] := by
  unfold pop? at popped
  split at popped
  · cases popped
  · next last rest saved =>
      cases popped
      simp only [buffers, saved, List.reverse_cons]

theorem buffers_fit (n : Nat) (b : Bank) : (b.fit n).buffers = b.buffers.map (resize n) := by
  simp only [buffers, fit, List.map_append, List.map_reverse, List.map_cons, List.map_nil]

theorem length_buffers (b : Bank) : b.buffers.length = b.depth + 1 := by
  simp only [buffers, depth, List.length_append, List.length_reverse, List.length_singleton]

theorem getElem?_buffers_depth (b : Bank) : b.buffers[b.depth]? = some b.live := by
  simp [buffers, depth]

theorem depth_of_pop (popped : b.pop? = some after) : b.depth = after.depth + 1 := by
  have counts := congrArg List.length (buffers_of_pop popped)
  rw [List.length_append, length_buffers, length_buffers, List.length_singleton] at counts
  omega

/-! ### A buffer in each step -/

/-- A copy lies where the live bytes were, and the live bytes one place higher. -/
theorem buffer_push (here : b.buffers[h]? = some bs) (moved : k ∈ b.places h .push) :
    b.push.buffers[k]? = some bs := by
  have inside : h < b.buffers.length := (List.getElem?_eq_some_iff.mp here).1
  have stays : b.push.buffers[h]? = some bs := by
    rw [buffers_push, List.getElem?_append_left inside, here]
  simp only [places] at moved
  split at moved
  · next top =>
      simp only [List.mem_cons, List.not_mem_nil, or_false] at moved
      rcases moved with rfl | rfl
      · exact stays
      · rw [top, getElem?_buffers_depth] at here
        rw [top, buffers_push, ← length_buffers, List.getElem?_concat_length, here]
  · rw [List.mem_singleton.mp moved, stays]

theorem buffer_pop (popped : b.pop? = some after) (here : b.buffers[h]? = some bs) (notLive : h ≠ b.depth) :
    after.buffers[h]? = some bs := by
  have inside : h < b.buffers.length := (List.getElem?_eq_some_iff.mp here).1
  have deeper := depth_of_pop popped
  rw [length_buffers] at inside
  rw [buffers_of_pop popped, List.getElem?_append_left (by rw [length_buffers]; omega)] at here
  exact here

/-- Writing over the live bytes leaves all others. -/
theorem buffer_overwritten (here : b.buffers[h]? = some bs) (notLive : h ≠ b.depth) (new : Bytes) :
    (buffers { b with live := new })[h]? = some bs := by
  have inside : h < b.buffers.length := (List.getElem?_eq_some_iff.mp here).1
  rw [length_buffers] at inside
  have under : h < b.saved.reverse.length := by
    rw [List.length_reverse, ← depth]
    omega
  rw [buffers, List.getElem?_append_left under] at here ⊢
  exact here

/-- In the places that a step leaves it in, a buffer is as it was, or of the new length. -/
theorem buffer_step {s : Step} (here : b.buffers[h]? = some bs) (moved : k ∈ b.places h s) :
    (b.step s).buffers[k]? = some (resizes (sizes [s]) bs) := by
  cases s with
  | push => exact buffer_push here moved
  | pop =>
      show (b.pop?.getD b).buffers[k]? = some bs
      simp only [places] at moved
      split at moved
      · cases moved
      · next kept =>
          rw [List.mem_singleton.mp moved]
          cases popped : b.pop? with
          | none => exact here
          | some after =>
              have deep : b.depth ≠ 0 := by rw [depth_of_pop popped]; exact Nat.succ_ne_zero _
              exact buffer_pop popped here fun top => kept ⟨top, deep⟩
  | replace bytes =>
      show (b.step (.replace bytes)).buffers[k]? = some bs
      simp only [places] at moved
      rw [step_replace]
      split at moved
      · cases moved
      · next kept =>
          rw [List.mem_singleton.mp moved]
          split
          · next fits => exact buffer_overwritten here (fun top => kept ⟨top, fits⟩) bytes
          · exact here
  | clear =>
      show b.clear.buffers[k]? = some bs
      simp only [places] at moved
      split at moved
      · cases moved
      · next notLive =>
          rw [List.mem_singleton.mp moved]
          exact buffer_overwritten here notLive _
  | fit n =>
      show (b.fit n).buffers[k]? = some (resize n bs)
      rw [List.mem_singleton.mp moved, buffers_fit, List.getElem?_map, here]
      rfl

/-! ### Runs -/

theorem sizes_cons (s : Step) (rest : List Step) : sizes (s :: rest) = sizes [s] ++ sizes rest :=
  List.filterMap_append (l := [s])

/-- Where a run leaves it, a buffer has been brought to the lengths of the run and nothing else. -/
theorem buffer_run (steps : List Step) (here : b.buffers[h]? = some bs) (moved : k ∈ b.trace h steps) :
    (b.run steps).buffers[k]? = some (resizes (sizes steps) bs) := by
  induction steps generalizing b h bs with
  | nil =>
      rw [List.mem_singleton.mp moved]
      exact here
  | cons s rest ih =>
      obtain ⟨between, first, later⟩ := List.mem_flatMap.mp moved
      rw [sizes_cons, resizes, List.foldl_append]
      exact ih (buffer_step here first) later

/-- In every bank that a run can lead to, the live bytes and all saved ones have one length.  Fitting
before saving or restoring is fitting after it, and it leaves no buffer of another length.  Through any
further run a buffer keeps just the bytes that lie within all lengths it is brought to; the rest of
the last length is zero. -/
theorem fit_laws (reached : b.Reachable) (n : Nat) :
    (∀ bs ∈ b.saved, bs.length = b.live.length) ∧
    (b.fit n).push = b.push.fit n ∧
    (b.depth ≠ 0 → ∃ restored, b.pop? = some restored ∧ (b.fit n).pop? = some (restored.fit n)) ∧
    (∀ bs ∈ (b.fit n).buffers, bs.length = n) ∧
    ∀ (steps : List Step) (h k : Nat) (original : Bytes), b.buffers[h]? = some original →
      k ∈ b.trace h steps → ∃ now, (b.run steps).buffers[k]? = some now ∧
        now.length = (sizes steps).getLast?.getD original.length ∧
        ∀ i (inside : i < now.length), now[i] =
          if kept : i < original.length ∧ ∀ n ∈ sizes steps, i < n then original[i] else 0 := by
  refine ⟨reached.level, (fit_push n b).symm, ?_, ?_, ?_⟩
  · intro deep
    cases popped : b.pop? with
    | none => exact absurd (pop?_eq_none_iff.mp popped) deep
    | some restored => exact ⟨restored, rfl, by rw [pop?_fit, popped]; rfl⟩
  · intro bs member
    rw [buffers_fit] at member
    obtain ⟨old, -, rfl⟩ := List.mem_map.mp member
    exact length_resize n old
  · intro steps h k original here moved
    refine ⟨_, buffer_run steps here moved, length_resizes _ _, ?_⟩
    intro i inside
    have byte := getD_resizes (sizes steps) original i
    rw [List.getD_eq_getElem _ _ inside] at byte
    rw [byte]
    by_cases within : i < original.length
    · by_cases kept : ∀ n ∈ sizes steps, i < n
      · rw [if_pos kept, dif_pos ⟨within, kept⟩, List.getD_eq_getElem _ _ within]
      · rw [if_neg kept, dif_neg fun both => kept both.2]
    · rw [dif_neg fun both => within both.1, List.getD_eq_default _ _ (Nat.le_of_not_lt within), ite_self]

/-- A copy under another that is replaced comes back after one longer and one shorter length, is saved
again while the live bytes are cleared, and has lost its last byte for good when it is made longer. -/
theorem fit_laws_shrunk :
    ∃ (b : Bank) (steps : List Step), b.Reachable ∧ b.buffers = [[7, 8, 9], [7, 8, 9], [1, 2, 3]] ∧
      0 ∈ b.trace 0 steps ∧ sizes steps = [4, 2, 5] ∧
      ∃ now, (b.run steps).buffers[0]? = some now ∧ now.length = 5 ∧ now[1]? = some 8 ∧ now[2]? = some 0 := by
  have reached : Reachable ((blank 0).run
      [.pop, .fit 3, .replace [7, 8, 9], .push, .push, .replace [1, 2, 3], .replace [4]]) := ⟨_, rfl⟩
  obtain ⟨-, -, -, -, follow⟩ := fit_laws reached 4
  obtain ⟨now, there, length, bytes⟩ :=
    follow [.fit 4, .pop, .replace [0, 0, 5, 5], .fit 2, .pop, .push, .clear, .fit 5, .pop] 0 0 [7, 8, 9]
      (by decide) (by decide)
  have five : now.length = 5 := length
  refine ⟨_, _, reached, by decide, by decide, rfl, now, there, five, ?_, ?_⟩
  · exact List.getElem?_eq_some_iff.mpr ⟨by omega, bytes 1 (by omega)⟩
  · exact List.getElem?_eq_some_iff.mpr ⟨by omega, bytes 2 (by omega)⟩

end Bank
end MachineRegisters
