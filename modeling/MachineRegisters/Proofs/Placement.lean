import MachineRegisters.Layout
import MachineRegisters.Proofs.Reading
import Mathlib.Data.List.Nodup

/-! # Registers placed by a profile

Whatever a text defines has at least one bit (`sized_of_parse`,
`sized_of_ofDebuggerRows`).  From such definitions the layout makes registers
that are never empty, end below 32 bits, stand at the positions of their
indices and share no name (`wellPlaced_of_layout`). -/
set_option autoImplicit false
namespace MachineRegisters

/-- What holds of the list of all registers of a machine. -/
structure Register.WellPlaced (rs : List Register) : Prop where
  size_pos : ∀ r ∈ rs, 0 < r.size
  past_lt : ∀ r ∈ rs, r.past < UInt32.size
  index_eq : rs.map (fun r => r.index) = List.range rs.length
  names_nodup : (rs.map fun r => r.name).Nodup

namespace Profile

def Sized (p : Profile) : Prop := ∀ d ∈ p.definitions, 0 < d.size

theorem sized_of_ofLines {numbered : List (List Char × Nat)} {p : Profile}
    (read : ofLines numbered = .ok p) : p.Sized := by
  intro d member
  obtain ⟨line, -, definitionRead⟩ := exists_line_of_definition read member
  obtain ⟨_, name, sizeText, _, _, -, -, widthRead, -⟩ := readDefinition_eq_ok_iff.mp definitionRead
  exact (readWidth_eq_ok widthRead).2

theorem sized_of_parse {cs : List Char} {p : Profile} (read : parse cs = .ok p) : p.Sized :=
  sized_of_ofLines read

theorem sized_of_ofDebuggerRows {cs : List Char} {p : Profile} (read : ofDebuggerRows cs = .ok p) :
    p.Sized := by
  unfold ofDebuggerRows at read
  split at read
  · cases read
  · exact sized_of_ofLines read

end Profile

section PutRegister
variable (r : Register) (rs : List Register)

theorem mem_putRegister {t : Register} (member : t ∈ putRegister r rs) :
    t ∈ rs ∨ ∃ n, t = { r with index := n } := by
  induction rs with
  | nil =>
      cases List.mem_singleton.mp member
      exact .inr ⟨r.index, rfl⟩
  | cons old rest ih =>
      rw [putRegister] at member
      split at member
      · rcases List.mem_cons.mp member with rfl | later
        · exact .inr ⟨old.index, rfl⟩
        · exact .inl (List.mem_cons_of_mem _ later)
      · rcases List.mem_cons.mp member with rfl | later
        · exact .inl (List.mem_cons_self ..)
        · rcases ih later with before | put
          · exact .inl (List.mem_cons_of_mem _ before)
          · exact .inr put

theorem putRegister_of_fresh (fresh : r.name ∉ rs.map fun t => t.name) :
    putRegister r rs = rs ++ [r] := by
  induction rs with
  | nil => rfl
  | cons old rest ih =>
      rw [List.map_cons, List.mem_cons, not_or] at fresh
      rw [putRegister, if_neg (Ne.symm fresh.1), ih fresh.2, List.cons_append]

/-- In the place of a register of its name a register changes only what is not common to the two. -/
theorem map_putRegister_of_known {α : Type} (f : Register → α)
    (common : ∀ old ∈ rs, old.name = r.name → f { r with index := old.index } = f old)
    (known : r.name ∈ rs.map fun t => t.name) : (putRegister r rs).map f = rs.map f := by
  induction rs with
  | nil => exact absurd known List.not_mem_nil
  | cons old rest ih =>
      rw [putRegister]
      by_cases here : old.name = r.name
      · rw [if_pos here, List.map_cons, List.map_cons, common old (List.mem_cons_self ..) here]
      · rw [List.map_cons, List.mem_cons] at known
        have later := known.resolve_left (Ne.symm here)
        have tail := ih (fun t member => common t (List.mem_cons_of_mem _ member)) later
        rw [if_neg here, List.map_cons, List.map_cons, tail]

/-- What holds of a register wherever it is put, and of all others, holds of all together. -/
theorem forall_mem_putRegister {holds : Register → Prop} (anywhere : ∀ n, holds { r with index := n })
    (others : ∀ t ∈ rs, holds t) : ∀ t ∈ putRegister r rs, holds t := by
  intro t member
  rcases mem_putRegister r rs member with before | ⟨n, rfl⟩
  · exact others t before
  · exact anywhere n

/-- Putting a register keeps the index of every register its position. -/
theorem indexed_putRegister (indexed : rs.map (fun t => t.index) = List.range rs.length)
    (ranked : r.index = rs.length) :
    (putRegister r rs).map (fun t => t.index) = List.range (putRegister r rs).length := by
  by_cases known : r.name ∈ rs.map fun t => t.name
  · have indices := map_putRegister_of_known r rs (fun t => t.index) (fun _ _ _ => rfl) known
    have count := congrArg List.length indices
    rw [List.length_map, List.length_map] at count
    rw [indices, indexed, count]
  · rw [putRegister_of_fresh r rs known, List.map_append, indexed, List.map_singleton, ranked,
      List.length_append, List.length_singleton, List.range_succ]

end PutRegister

namespace Register.WellPlaced

theorem nil : WellPlaced [] := ⟨by simp, by simp, rfl, List.nodup_nil⟩

theorem put {rs : List Register} (placed : WellPlaced rs) {r : Register} (wide : 0 < r.size)
    (fits : r.past < UInt32.size) (ranked : r.index = rs.length) : WellPlaced (putRegister r rs) := by
  refine ⟨?_, ?_, indexed_putRegister r rs placed.index_eq ranked, ?_⟩
  · exact forall_mem_putRegister r rs (fun _ => wide) placed.size_pos
  · exact forall_mem_putRegister r rs (fun _ => fits) placed.past_lt
  · by_cases known : r.name ∈ rs.map fun t => t.name
    · have names := map_putRegister_of_known r rs (fun t => t.name) (fun _ _ same => same.symm) known
      rw [names]
      exact placed.names_nodup
    · rw [putRegister_of_fresh r rs known, List.map_append, List.map_singleton, ← List.concat_eq_append]
      exact placed.names_nodup.concat known

end Register.WellPlaced

namespace Placement
open Register (WellPlaced)

theorem wellPlaced_of_place {p q : Placement} {d : Definition} (placed : WellPlaced p.registers)
    (wide : 0 < d.size) (done : p.place d = .ok q) : WellPlaced q.registers := by
  simp only [place] at done
  split at done
  · rename_i fits
    cases done
    exact placed.put wide fits rfl
  · cases done

theorem wellPlaced_of_placeAll {p q : Placement} {ds : List Definition}
    (placed : WellPlaced p.registers) (wide : ∀ d ∈ ds, 0 < d.size) (done : p.placeAll ds = .ok q) :
    WellPlaced q.registers := by
  induction ds generalizing p with
  | nil =>
      cases done
      exact placed
  | cons d rest ih =>
      rw [placeAll] at done
      cases step : p.place d with
      | error e => simp [step] at done
      | ok next =>
          simp only [step] at done
          have nextPlaced := wellPlaced_of_place placed (wide d (List.mem_cons_self ..)) step
          exact ih nextPlaced (fun e member => wide e (List.mem_cons_of_mem _ member)) done

end Placement

theorem Profile.wellPlaced_of_layout {p : Profile} {rs : List Register} (sized : p.Sized)
    (laid : p.layout = .ok rs) : Register.WellPlaced rs := by
  unfold layout at laid
  cases done : Placement.start.placeAll p.definitions with
  | error e => simp [done, Except.map] at laid
  | ok placed =>
      simp only [done, Except.map] at laid
      cases laid
      exact Placement.wellPlaced_of_placeAll Register.WellPlaced.nil sized done

end MachineRegisters
