import MachineRegisters.Proofs.HeldBits

/-! # Dumps of all banks

The contents of a machine are the live bytes of all banks, one bank after the other.
A dump is cut into one piece for each bank, and what a bank keeps behind its piece is
what the contents keep behind the dump (`Bytes.overlay_append`).  So a dump that is
not too long lies over the start of the contents, nothing else changes, and the
machine's own contents change nothing at all (`writeDump_overlay`). -/
set_option autoImplicit false
namespace MachineRegisters

/-- Bytes are written over two byte strings as over the two joined. -/
theorem Bytes.overlay_append (front as bs : Bytes) :
    overlay front (as ++ bs) =
      overlay (front.take as.length) as ++ overlay (front.drop as.length) bs := by
  rcases Nat.le_total front.length as.length with short | long
  · rw [List.take_of_length_le short, List.drop_eq_nil_of_le short, overlay, overlay,
      List.drop_append_of_le_length short, ← List.append_assoc]
    rfl
  · have whole : overlay (front.take as.length) as = front.take as.length := by
      rw [overlay, List.length_take_of_le long, List.drop_length, List.append_nil]
    rw [whole, overlay, overlay, ← List.append_assoc, List.take_append_drop, List.drop_append,
      List.drop_eq_nil_of_le long, List.nil_append, List.length_drop]

/-- Joined byte strings of the same lengths are the same only if each of them is. -/
theorem eq_of_flatMap_eq {ι : Type} {f g : ι → Bytes} (lengths : ∀ i, (f i).length = (g i).length)
    {order : List ι} (joined : order.flatMap f = order.flatMap g) : ∀ i ∈ order, f i = g i := by
  induction order with
  | nil => simp
  | cons i rest ih =>
      rw [List.flatMap_cons, List.flatMap_cons] at joined
      obtain ⟨here, later⟩ := List.append_inj joined (lengths i)
      rw [List.forall_mem_cons]
      exact ⟨here, ih later⟩

namespace Machine
variable {m n : Machine} {c : RegClass} {bs : Bytes}

/-! ## One bank -/

def overlaid (m : Machine) (c : RegClass) (bs : Bytes) : Machine :=
  m.setBank c ⟨Bytes.overlay bs (m.live c), (m.bank c).saved⟩

theorem live_overlaid (m : Machine) (c d : RegClass) (bs : Bytes) :
    (m.overlaid c bs).live d = if c = d then Bytes.overlay bs (m.live c) else m.live d := by
  rw [overlaid, live, bank_setBank]
  split
  · rfl
  · rfl

theorem writeBytes_of_fits (fits : bs.length ≤ (m.live c).length) :
    m.writeBytes c bs = .done () (m.overlaid c bs) := by
  have room : bs.length ≤ (m.bank c).live.length := fits
  rw [writeBytes, Bank.overlay, if_pos room]
  rfl

/-! ## All banks -/

def contents (m : Machine) : Bytes := RegClass.all.flatMap m.live

theorem length_contents (m : Machine) : m.contents.length = m.liveSize := by
  rw [contents, List.length_flatMap, List.sum_eq_foldr, List.foldr_map]
  rfl

theorem Rewritten.eq_of_contents (only : Rewritten m n) (same : n.contents = m.contents) : n = m := by
  have live := eq_of_flatMap_eq only.length_live same
  refine only.ext_bit (.refl m) ?_
  funext x
  rw [bit, bit, live x.1 (Listed.mem_all x.1)]

/-- Bytes that are not too many for some banks lie over the start of what these hold together. -/
theorem fillBanks_overlay {banks : List RegClass} (distinct : banks.Nodup)
    (short : bs.length ≤ (banks.flatMap m.live).length) :
    ∃ after, m.fillBanks banks bs = .done () after ∧ (∀ c, c ∉ banks → after.live c = m.live c) ∧
      banks.flatMap after.live = Bytes.overlay bs (banks.flatMap m.live) := by
  induction banks generalizing m bs with
  | nil =>
      obtain rfl : bs = [] := List.eq_nil_of_length_eq_zero (Nat.le_zero.mp short)
      exact ⟨m, rfl, fun _ _ => rfl, rfl⟩
  | cons c rest ih =>
      by_cases done : bs = []
      · subst done
        exact ⟨m, if_pos rfl, fun _ _ => rfl, rfl⟩
      · obtain ⟨apart, distinctRest⟩ := List.nodup_cons.mp distinct
        have first := writeBytes_of_fits (List.length_take_le (m.live c).length bs)
        have restKept : rest.flatMap (m.overlaid c (bs.take (m.live c).length)).live = rest.flatMap m.live := by
          apply List.flatMap_congr
          intro d inRest
          rw [live_overlaid, if_neg]
          rintro rfl
          exact apart inRest
        have shortRest : (bs.drop (m.live c).length).length ≤
            (rest.flatMap (m.overlaid c (bs.take (m.live c).length)).live).length := by
          rw [List.flatMap_cons, List.length_append] at short
          rw [restKept, List.length_drop]
          omega
        obtain ⟨after, filled, others, joined⟩ := ih distinctRest shortRest
        refine ⟨after, ?_, ?_, ?_⟩
        · rw [fillBanks, if_neg done]
          simp only [first, Outcome.done_andThen, filled]
        · intro d outside
          rw [List.mem_cons, not_or] at outside
          rw [others d outside.2, live_overlaid, if_neg (Ne.symm outside.1)]
        · rw [List.flatMap_cons, List.flatMap_cons, Bytes.overlay_append, joined, restKept, others c apart,
            live_overlaid, if_pos rfl]

theorem writeDump_of_fits (fits : bs.length ≤ m.contents.length) :
    ∃ after, m.writeDump bs = .done () after ∧ after.contents = Bytes.overlay bs m.contents ∧
      Rewritten m after := by
  obtain ⟨after, filled, -, joined⟩ := fillBanks_overlay (Listed.nodup_all (ι := RegClass)) fits
  have written : m.writeDump bs = .done () after := by
    rw [writeDump, if_pos (m.length_contents ▸ fits)]
    exact filled
  have only := writeDump_rewritten m bs
  rw [written] at only
  exact ⟨after, written, joined, only⟩

/-- A dump that is longer than all banks together is refused.  Any other lies over the start of the
contents and nothing else changes; the contents themselves are written back without effect, and a
dump of full length is what the banks hold afterwards. -/
theorem writeDump_overlay (m : Machine) (bs : Bytes) :
    (m.contents.length < bs.length →
        m.writeDump bs = .refused (.sizeMismatch m.contents.length bs.length) m) ∧
      (bs.length ≤ m.contents.length →
        ∃ after, m.writeDump bs = .done () after ∧ after.contents = bs ++ m.contents.drop bs.length ∧
          Rewritten m after) ∧
      m.writeDump m.contents = .done () m ∧
      (bs.length = m.contents.length → ∃ after, m.writeDump bs = .done () after ∧ after.contents = bs) := by
  refine ⟨?_, writeDump_of_fits, ?_, ?_⟩
  · intro long
    rw [length_contents] at long ⊢
    rw [writeDump, if_neg (Nat.not_le.mpr long)]
  · obtain ⟨after, written, joined, only⟩ := writeDump_of_fits (Nat.le_refl m.contents.length)
    rw [Bytes.overlay, List.drop_length, List.append_nil] at joined
    rw [written, only.eq_of_contents joined]
  · intro full
    obtain ⟨after, written, joined, -⟩ := writeDump_of_fits (Nat.le_of_eq full)
    rw [Bytes.overlay, full, List.drop_length, List.append_nil] at joined
    exact ⟨after, written, joined⟩

/-- Banks of two, three and one bytes with empty ones between them, saved once: a dump of four bytes
ends inside the second, one of six is read back, and one of seven is refused. -/
theorem writeDump_overlay_partial :
    ∃ m : Machine, m.Reachable ∧ m.contents = [1, 2, 3, 4, 5, 6] ∧ m.live .float = [3, 4, 5] ∧
      (∃ after, m.writeDump [9, 8, 7, 0] = .done () after ∧ after.contents = [9, 8, 7, 0, 5, 6] ∧
        (after.bank .float).saved = [[0, 0, 0]]) ∧
      (∃ after, m.writeDump [6, 5, 4, 3, 2, 1] = .done () after ∧ after.contents = [6, 5, 4, 3, 2, 1]) ∧
      m.writeDump [0, 0, 0, 0, 0, 0, 0] = .refused (.sizeMismatch 6 7) m := by
  obtain ⟨m, reached, held, float, saved⟩ : ∃ m : Machine, m.Reachable ∧
      m.contents = [1, 2, 3, 4, 5, 6] ∧ m.live .float = [3, 4, 5] ∧ (m.bank .float).saved = [[0, 0, 0]] :=
    ⟨(empty {}).run [.install "gpr a 2 0\nfpu f 3 0\nxmm x 1 0", .push, .writeDump [1, 2, 3, 4, 5, 6]],
      ⟨_, _, rfl⟩, by decide +kernel, by decide +kernel, by decide +kernel⟩
  refine ⟨m, reached, held, float, ?_, ?_, ?_⟩
  · obtain ⟨after, written, joined, only⟩ := (writeDump_overlay m [9, 8, 7, 0]).2.1 (held ▸ by decide)
    rw [held] at joined
    exact ⟨after, written, joined, (only.saved .float).trans saved⟩
  · exact (writeDump_overlay m [6, 5, 4, 3, 2, 1]).2.2.2 (held ▸ rfl)
  · have refused := (writeDump_overlay m [0, 0, 0, 0, 0, 0, 0]).1 (held ▸ by decide)
    rw [held] at refused
    exact refused

end Machine
end MachineRegisters
