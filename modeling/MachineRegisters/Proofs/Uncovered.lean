import MachineRegisters.Proofs.Comparing
import MachineRegisters.Proofs.HeldBits
import MachineRegisters.Proofs.TableText
import Mathlib.Data.Set.Finite.Basic

/-! # Registers that lie inside others

A register is left out because of one that may be left out itself.  But to supersede
is a strict order, so among finitely many registers every such chain ends at one that
is kept (`exists_uncovered`).  Of registers with indices of their own just one choice
therefore lies around all others without any of its members inside another, with the
first of those that share a span: the uncovered ones (`minimalCover_iff`).  A listing
of uncovered registers only has the headings and the closing lines of the whole
listing, and below each heading a register around every one that it leaves out
(`uncovered_minimal`). -/
set_option autoImplicit false
namespace MachineRegisters

namespace Register
variable {r s t : Register} {rs kept : List Register}

/-! ## Covering and superseding -/

theorem covers_of_toBitSpan_eq (sameBank : r.bank = t.bank) (sameSpan : r.toBitSpan = t.toBitSpan) :
    r.Covers t := by
  refine ⟨sameBank, ?_⟩
  rw [sameSpan]
  exact ⟨Nat.le_refl _, Nat.le_refl _⟩

theorem Covers.trans (first : r.Covers s) (second : s.Covers t) : r.Covers t :=
  ⟨first.1.trans second.1, Nat.le_trans first.2.1 second.2.1, Nat.le_trans second.2.2 first.2.2⟩

theorem Covers.size_le (covers : r.Covers t) : t.size ≤ r.size := by
  obtain ⟨-, start, stop⟩ := covers
  unfold BitSpan.past at stop
  omega

theorem Covers.toBitSpan_eq (covers : r.Covers t) (sameSize : r.size = t.size) :
    r.toBitSpan = t.toBitSpan := by
  obtain ⟨-, start, stop⟩ := covers
  unfold BitSpan.past at stop
  have sameOffset : r.offset = t.offset := by omega
  rw [BitSpan.mk.injEq]
  exact ⟨sameOffset, sameSize⟩

theorem Covers.holds (covers : r.Covers t) {x : BitPlace} (held : t.Holds x) : r.Holds x :=
  ⟨held.1.trans covers.1.symm, Nat.le_trans covers.2.1 held.2.1, Nat.lt_of_lt_of_le held.2.2 covers.2.2⟩

theorem Supersedes.trans (first : r.Supersedes s) (second : s.Supersedes t) : r.Supersedes t := by
  obtain ⟨around, larger⟩ := first
  obtain ⟨aroundNext, largerNext⟩ := second
  have atLeast := around.size_le
  have atLeastNext := aroundNext.size_le
  exact ⟨around.trans aroundNext, by omega⟩

theorem Supersedes.index_lt (supersedes : r.Supersedes t) (sameSize : r.size = t.size) :
    r.index < t.index := by
  rcases supersedes.2 with larger | earlier
  · omega
  · exact earlier

theorem not_supersedes_self (r : Register) : ¬r.Supersedes r := by
  intro supersedes
  exact Nat.lt_irrefl _ (supersedes.index_lt rfl)

/-- Where one register covers another with another index, one of the two supersedes the other. -/
theorem Covers.supersedes_or (covers : r.Covers t) (apart : r.index ≠ t.index) :
    r.Supersedes t ∨ t.Supersedes r := by
  rcases Nat.lt_or_eq_of_le covers.size_le with larger | sameSize
  · exact .inl ⟨covers, .inl larger⟩
  · have sameSpan := covers.toBitSpan_eq sameSize.symm
    rcases Nat.lt_or_gt_of_ne apart with earlier | later
    · exact .inl ⟨covers, .inr earlier⟩
    · exact .inr ⟨covers_of_toBitSpan_eq covers.1.symm sameSpan.symm, .inr later⟩

theorem wellFounded_supersedes (rs : List Register) :
    WellFounded fun r t : { r // r ∈ rs } => r.val.Supersedes t.val := by
  have finite : Finite { r // r ∈ rs } := (List.finite_toSet rs).to_subtype
  have transitive : IsTrans { r // r ∈ rs } fun r t => r.val.Supersedes t.val :=
    ⟨fun _ _ _ => Supersedes.trans⟩
  have irreflexive : Std.Irrefl fun r t : { r // r ∈ rs } => r.val.Supersedes t.val :=
    ⟨fun r => not_supersedes_self r.val⟩
  exact Finite.wellFounded_of_trans_of_irrefl _

theorem exists_uncovered (member : t ∈ rs) : ∃ r ∈ uncovered rs, r.Covers t := by
  -- Up the chain of superseding registers, which ends at one that is kept.
  have chain : ∀ u : { r // r ∈ rs }, ∃ r ∈ uncovered rs, r.Covers u.val := by
    intro u
    induction u using (wellFounded_supersedes rs).induction with
    | _ u ih =>
        by_cases top : ∀ r ∈ rs, ¬r.Supersedes u.val
        · exact ⟨u.val, mem_uncovered.mpr ⟨u.property, top⟩, covers_of_toBitSpan_eq rfl rfl⟩
        · push Not at top
          obtain ⟨s, listed, supersedes⟩ := top
          obtain ⟨r, keptR, around⟩ := ih ⟨s, listed⟩ supersedes
          exact ⟨r, keptR, around.trans supersedes.1⟩
  exact chain ⟨t, member⟩

/-! ## The one minimal cover -/

/-- Some of the registers of a list, in its order, that lie around all of them: none inside another,
and of those that share a span only the first. -/
structure MinimalCover (rs kept : List Register) : Prop where
  sublist : kept.Sublist rs
  apart : ∀ r ∈ kept, ∀ t ∈ kept, r.Covers t → r = t
  around : ∀ t ∈ rs, ∃ r ∈ kept, r.Covers t
  first : ∀ t ∈ kept, ∀ r ∈ rs, r.bank = t.bank → r.toBitSpan = t.toBitSpan → t.index ≤ r.index

section Distinct
variable (distinct : (rs.map fun r => r.index).Nodup)
include distinct

theorem eq_of_index_eq (member : r ∈ rs) (memberT : t ∈ rs) (same : r.index = t.index) : r = t :=
  List.inj_on_of_nodup_map distinct member memberT same

theorem minimalCover_uncovered : MinimalCover rs (uncovered rs) := by
  refine ⟨List.filter_sublist, ?_, ?_, ?_⟩
  · intro r keptR t keptT covers
    obtain ⟨member, top⟩ := mem_uncovered.mp keptR
    obtain ⟨memberT, topT⟩ := mem_uncovered.mp keptT
    by_contra apart
    have indices : r.index ≠ t.index := fun same => apart (eq_of_index_eq distinct member memberT same)
    rcases covers.supersedes_or indices with supersedes | supersedes
    · exact topT r member supersedes
    · exact top t memberT supersedes
  · exact fun t member => exists_uncovered member
  · intro t keptT r member sameBank sameSpan
    by_contra earlier
    have covers := covers_of_toBitSpan_eq sameBank sameSpan
    exact (mem_uncovered.mp keptT).2 r member ⟨covers, .inr (Nat.not_le.mp earlier)⟩

/-- What a minimal cover keeps is what nothing supersedes. -/
theorem MinimalCover.mem_iff (cover : MinimalCover rs kept) (member : t ∈ rs) :
    t ∈ kept ↔ ∀ r ∈ rs, ¬r.Supersedes t := by
  constructor
  · intro keptT r memberR supersedes
    -- Around `r` lies a kept register, which then covers `t` and so is `t`: the spans are the same.
    obtain ⟨s, keptS, around⟩ := cover.around r memberR
    obtain rfl := cover.apart s keptS t keptT (around.trans supersedes.1)
    have sameSize : r.size = s.size := Nat.le_antisymm around.size_le supersedes.1.size_le
    have least := cover.first s keptT r memberR supersedes.1.1 (supersedes.1.toBitSpan_eq sameSize)
    exact absurd (supersedes.index_lt sameSize) (Nat.not_lt.mpr least)
  · intro top
    by_contra dropped
    obtain ⟨r, keptR, covers⟩ := cover.around t member
    have memberR := cover.sublist.subset keptR
    have indices : r.index ≠ t.index := by
      intro same
      exact dropped (eq_of_index_eq distinct memberR member same ▸ keptR)
    rcases covers.supersedes_or indices with supersedes | supersedes
    · exact top r memberR supersedes
    · have sameSize : r.size = t.size := Nat.le_antisymm supersedes.1.size_le covers.size_le
      have least := cover.first r keptR t member covers.1.symm (covers.toBitSpan_eq sameSize).symm
      exact absurd (supersedes.index_lt sameSize.symm) (Nat.not_lt.mpr least)

theorem minimalCover_iff : MinimalCover rs kept ↔ kept = uncovered rs := by
  constructor
  · intro cover
    have listed : rs.Nodup := .of_map _ distinct
    have same : ∀ t, t ∈ kept ↔ t ∈ uncovered rs := by
      intro t
      rw [mem_uncovered]
      constructor
      · intro keptT
        have member := cover.sublist.subset keptT
        exact ⟨member, (cover.mem_iff distinct member).mp keptT⟩
      · intro unsuperseded
        obtain ⟨member, top⟩ := unsuperseded
        exact (cover.mem_iff distinct member).mpr top
    have perm : kept.Perm (uncovered rs) :=
      (List.perm_ext_iff_of_nodup (listed.sublist cover.sublist) (listed.filter _)).mpr same
    have part : kept.Sublist (uncovered rs) := by
      have filtered := cover.sublist.filter fun t => decide (∀ r ∈ rs, ¬r.Supersedes t)
      have all : kept.filter (fun t => decide (∀ r ∈ rs, ¬r.Supersedes t)) = kept := by
        rw [List.filter_eq_self]
        exact fun t keptT => decide_eq_true (mem_uncovered.mp ((same t).mp keptT)).2
      rw [all] at filtered
      exact filtered
    exact part.eq_of_length perm.length_eq
  · intro same
    exact same ▸ minimalCover_uncovered distinct

end Distinct

theorem holds_uncovered_iff (x : BitPlace) : (∃ r ∈ uncovered rs, r.Holds x) ↔ ∃ r ∈ rs, r.Holds x := by
  constructor
  · intro holder
    obtain ⟨r, keptR, held⟩ := holder
    exact ⟨r, (mem_uncovered.mp keptR).1, held⟩
  · intro holder
    obtain ⟨t, member, held⟩ := holder
    obtain ⟨r, keptR, covers⟩ := exists_uncovered member
    exact ⟨r, keptR, covers.holds held⟩

theorem uncovered_uncovered (rs : List Register) : uncovered (uncovered rs) = uncovered rs := by
  refine List.filter_eq_self.mpr ?_
  intro t keptT
  apply decide_eq_true
  intro r keptR
  exact (mem_uncovered.mp keptT).2 r (mem_uncovered.mp keptR).1

theorem uncovered_perm {ss : List Register} (perm : rs.Perm ss) : (uncovered rs).Perm (uncovered ss) := by
  have sameTest : (fun t => decide (∀ r ∈ rs, ¬r.Supersedes t)) =
      fun t => decide (∀ r ∈ ss, ¬r.Supersedes t) := by
    funext t
    simp only [perm.mem_iff]
  rw [uncovered, sameTest]
  exact perm.filter _

theorem uncovered_ne_nil (some_register : rs ≠ []) : uncovered rs ≠ [] := by
  obtain ⟨t, rest, rfl⟩ := List.exists_cons_of_ne_nil some_register
  obtain ⟨r, keptR, -⟩ := exists_uncovered (List.mem_cons_self (a := t) (l := rest))
  exact List.ne_nil_of_mem keptR

end Register

/-! ## Listings of uncovered registers -/

structure Section where
  heading : List Char
  registers : List Register

namespace Section

def lines (s : Section) : List (List Char) := s.heading :: s.registers.map fun r => r.listingRow

def uncovered (s : Section) : Section := { s with registers := Register.uncovered s.registers }

end Section

namespace Machine

def sectionOf (m : Machine) (c : RegClass) : Section :=
  ⟨'[' :: c.keyword.toList ++ "] ".toList ++ Text.decimal (m.live c).length ++ " bytes".toList, m.inBank c⟩

/-- A section for each bank that has registers. -/
def sections (m : Machine) : List Section :=
  (RegClass.all.filter fun c => m.inBank c ≠ []).map m.sectionOf

def closing (m : Machine) : List (List Char) := Role.all.flatMap m.listRole ++ m.listConvention

def textOf (m : Machine) (shown : List Section) : List Char :=
  (shown.flatMap Section.lines ++ m.closing).flatMap fun line => line ++ ['\n']

def shownSections (m : Machine) (uncoveredOnly : Bool) : List Section :=
  if uncoveredOnly then m.sections.map Section.uncovered else m.sections

theorem flatMap_listBank (m : Machine) (uncoveredOnly : Bool) :
    RegClass.all.flatMap (m.listBank uncoveredOnly) = (m.shownSections uncoveredOnly).flatMap Section.lines := by
  have nothing : ∀ c, m.inBank c = [] → m.listBank uncoveredOnly c = [] := fun c none => if_pos none
  rw [shownSections, sections]
  induction RegClass.all with
  | nil => cases uncoveredOnly <;> rfl
  | cons c rest ih =>
      rw [List.flatMap_cons, ih]
      by_cases empty : m.inBank c = []
      · rw [List.filter_cons_of_neg (by simp [empty]), nothing c empty, List.nil_append]
      · rw [List.filter_cons_of_pos (by simp [empty]), listBank, if_neg empty]
        cases uncoveredOnly <;> rfl

theorem listing_eq (m : Machine) (uncoveredOnly : Bool) :
    m.listing uncoveredOnly = m.textOf (m.shownSections uncoveredOnly) := by
  rw [listing, listingLines, flatMap_listBank, List.append_assoc]
  rfl

theorem nodup_index_inBank {m : Machine} (reached : m.Reachable) (c : RegClass) :
    ((m.inBank c).map fun r => r.index).Nodup := by
  rw [List.Nodup, List.pairwise_map]
  exact (ascending_inBank reached c).imp Nat.ne_of_lt

end Machine

theorem Outcome.eq_done {α : Type} {o : Outcome α} {a : α} (accepted : o.answer = .ok a) :
    o = .done a o.machine := by
  rw [done, ← accepted]

theorem Command.reachable_of_load (c : Command) (description : String) :
    (c.load description).machine.Reachable := by
  unfold load
  split
  · exact ⟨c.config, [.installDebuggerRows description], rfl⟩
  · exact ⟨c.config, [.install description], rfl⟩

namespace Register

/-- Of registers with indices of their own, as those of a bank have, just the uncovered ones are a
minimal cover, in whatever order the registers are given; they hold the same bits, and nothing more
can be left out of them.  So the command that leaves out covered registers prints the same headings
and the same closing lines, and below each heading a minimal cover of the registers there. -/
theorem uncovered_minimal :
    (∀ rs : List Register, (rs.map fun r => r.index).Nodup →
        (∀ kept, MinimalCover rs kept ↔ kept = uncovered rs) ∧
          (∀ x, (∃ r ∈ uncovered rs, r.Holds x) ↔ ∃ r ∈ rs, r.Holds x) ∧
          uncovered (uncovered rs) = uncovered rs ∧
          ∀ ss, rs.Perm ss → (uncovered rs).Perm (uncovered ss)) ∧
      (∀ m : Machine, m.Reachable → ∀ c, ((m.inBank c).map fun r => r.index).Nodup) ∧
      (∀ (c : Command) (description : String) (e : RegisterError),
        (c.load description).answer = .error e →
          Command.run { c with uncoveredOnly := true } description =
            Command.run { c with uncoveredOnly := false } description) ∧
      ∀ (c : Command) (description : String) (m : Machine), c.load description = .done () m →
        Command.run { c with uncoveredOnly := false } description =
            ⟨0, String.ofList (m.textOf m.sections), none⟩ ∧
          Command.run { c with uncoveredOnly := true } description =
            ⟨0, String.ofList (m.textOf (m.sections.map Section.uncovered)), none⟩ ∧
          ∀ s ∈ m.sections, s.uncovered.heading = s.heading ∧ s.uncovered.registers ≠ [] ∧
            MinimalCover s.registers s.uncovered.registers := by
  refine ⟨?_, fun m => Machine.nodup_index_inBank, ?_, ?_⟩
  · intro rs distinct
    exact ⟨fun kept => minimalCover_iff distinct, holds_uncovered_iff, uncovered_uncovered rs,
      fun ss => uncovered_perm⟩
  · intro c description e refused
    rw [Command.run_of_error (c := { c with uncoveredOnly := true }) refused,
      Command.run_of_error (c := { c with uncoveredOnly := false }) refused]
  · intro c description m loaded
    have reached : m.Reachable := by
      have reachedByLoad := c.reachable_of_load description
      rw [loaded] at reachedByLoad
      exact reachedByLoad
    have printed : ∀ u, Command.run { c with uncoveredOnly := u } description =
        ⟨0, String.ofList (m.textOf (m.shownSections u)), none⟩ := by
      intro u
      have loadedSo : Command.load { c with uncoveredOnly := u } description = .done () m := loaded
      have accepted := congrArg Outcome.answer loadedSo
      rw [Command.run_of_ok accepted, loadedSo, ← Machine.listing_eq]
      rfl
    refine ⟨printed false, printed true, ?_⟩
    intro s member
    obtain ⟨bank, some_register, rfl⟩ := List.mem_map.mp member
    have nonempty : m.inBank bank ≠ [] := of_decide_eq_true (List.mem_filter.mp some_register).2
    exact ⟨rfl, uncovered_ne_nil nonempty, minimalCover_uncovered (Machine.nodup_index_inBank reached bank)⟩

/-- A register inside one that is itself inside a third, and two names for one span: the third is
kept, and the first of the two names. -/
theorem uncovered_minimal_nested :
    ∃ (description : String) (m : Machine), Command.load {} description = .done () m ∧
      (m.inBank .general).map (fun r => r.name) = ["al", "eax", "rax", "rbx", "alias"] ∧
      ((m.inBank .general).map fun r => r.index).Nodup ∧
      MinimalCover (m.inBank .general) (uncovered (m.inBank .general)) ∧
      (uncovered (m.inBank .general)).map (fun r => r.name) = ["rax", "rbx"] ∧
      Command.run { uncoveredOnly := true } description =
        ⟨0, "[gpr] 16 bytes\n     2 gpr  rax            64 bits @ 0\n     3 gpr  rbx            64 bits @ 64\n=PC rax\n",
          none⟩ := by
  obtain ⟨description, m, reached, loaded, names, kept, text⟩ : ∃ (description : String) (m : Machine),
      m.Reachable ∧ Command.load {} description = .done () m ∧
        (m.inBank .general).map (fun r => r.name) = ["al", "eax", "rax", "rbx", "alias"] ∧
        (uncovered (m.inBank .general)).map (fun r => r.name) = ["rax", "rbx"] ∧
        String.ofList (m.textOf (m.sections.map Section.uncovered)) =
          "[gpr] 16 bytes\n     2 gpr  rax            64 bits @ 0\n     3 gpr  rbx            64 bits @ 64\n=PC rax\n" :=
    ⟨"=PC rax\ngpr al .8 0\ngpr eax 4 0\ngpr rax 8 0\ngpr rbx 8 8\ngpr alias 8 8\n", _,
      Command.reachable_of_load {} _, Outcome.eq_done (by decide +kernel), by decide +kernel, by decide +kernel,
      by decide +kernel⟩
  obtain ⟨lists, banks, -, listings⟩ := uncovered_minimal
  have distinct := banks m reached .general
  obtain ⟨-, short, -⟩ := listings {} description m loaded
  exact ⟨description, m, loaded, names, distinct, ((lists _ distinct).1 _).mpr rfl, kept, text ▸ short⟩

end Register
end MachineRegisters
