import MachineRegisters.Proofs.Storage
import Mathlib.Data.List.Induction

/-! # What a layout is

A definition begins at the offset that it gives, or else behind the last definition of its
bank before it (`Offsets`, `nextFree`).  The layout fails at the first definition that ends
beyond 32 bits.  Otherwise it has one register for each name, in the order in which the names
first occur, and each is what the last definition of its name says (`LaidOut`); nothing else
has any part in it (`layout_meaning`). -/
set_option autoImplicit false
namespace MachineRegisters

/-! ## Where definitions begin -/

/-- The definition `e` at place `j` is the last one of the bank before place `i`. -/
structure LastBefore (ds : List Definition) (c : RegClass) (i j : Nat) (e : Definition) : Prop where
  here : ds[j]? = some e
  earlier : j < i
  bank : e.bank = c
  none_later : ∀ k f, j < k → k < i → ds[k]? = some f → f.bank ≠ c

/-- The definition at place `i` begins at bit `off i`: where it says, or else right behind the last
definition of its bank before it, or at bit zero if there is none. -/
structure Offsets (ds : List Definition) (off : Nat → Nat) : Prop where
  given : ∀ i d n, ds[i]? = some d → d.offset = some n → off i = n
  behind : ∀ i d j e, ds[i]? = some d → d.offset = none → LastBefore ds d.bank i j e →
    off i = off j + e.size
  first : ∀ i d, ds[i]? = some d → d.offset = none →
    (∀ j e, j < i → ds[j]? = some e → e.bank ≠ d.bank) → off i = 0

/-- The first bit behind the last definition of a bank, of definitions that are given latest first. -/
def nextFree (c : RegClass) : List Definition → Nat
  | [] => 0
  | d :: earlier => if d.bank = c then d.offset.getD (nextFree c earlier) + d.size else nextFree c earlier

namespace Definition

def start (d : Definition) (earlier : List Definition) : Nat := d.offset.getD (nextFree d.bank earlier)

end Definition

section Offsets
variable {ds : List Definition} {c : RegClass} {i j k : Nat} {d e f : Definition} {off : Nat → Nat}

/-- Of two definitions neither of which stands before the other each is the other. -/
theorem eq_of_not_apart (here : ds[i]? = some d) (there : ds[j]? = some e) (notBefore : ¬i < j)
    (notBehind : ¬j < i) : i = j ∧ d = e := by
  obtain rfl : i = j := by omega
  exact ⟨rfl, Option.some.inj (here.symm.trans there)⟩

theorem LastBefore.unique (last : LastBefore ds c i j e) (lastToo : LastBefore ds c i k f) :
    j = k ∧ e = f := by
  apply eq_of_not_apart last.here lastToo.here
  · intro before
    exact last.none_later k f before lastToo.earlier lastToo.here lastToo.bank
  · intro behind
    exact lastToo.none_later j e behind last.earlier last.here last.bank

theorem nextFree_concat (c : RegClass) (before : List Definition) (d : Definition) :
    nextFree c (before ++ [d]).reverse =
      if d.bank = c then d.start before.reverse + d.size else nextFree c before.reverse := by
  rw [List.reverse_append, List.reverse_singleton, List.singleton_append, nextFree]
  split
  · rename_i same
    rw [Definition.start, same]
  · rfl

/-- What is free at a place lies right behind the last definition of the bank before it. -/
theorem nextFree_take (ds : List Definition) (c : RegClass) (i : Nat) :
    (∃ j e, LastBefore ds c i j e ∧ nextFree c (ds.take i).reverse = e.start (ds.take j).reverse + e.size) ∨
      (∀ j e, j < i → ds[j]? = some e → e.bank ≠ c) ∧ nextFree c (ds.take i).reverse = 0 := by
  induction i with
  | zero => exact .inr ⟨by simp, rfl⟩
  | succ i ih =>
      by_cases here : ∃ d, ds[i]? = some d ∧ d.bank = c
      · obtain ⟨d, there, rfl⟩ := here
        refine .inl ⟨i, d, ⟨there, Nat.lt_succ_self i, rfl, by omega⟩, ?_⟩
        rw [List.take_add_one, there, Option.toList_some, nextFree_concat, if_pos rfl]
      · have others : ∀ d, ds[i]? = some d → d.bank ≠ c := fun d there same => here ⟨d, there, same⟩
        have kept : nextFree c (ds.take (i + 1)).reverse = nextFree c (ds.take i).reverse := by
          rw [List.take_add_one]
          cases there : ds[i]? with
          | none => simp
          | some d =>
              rw [Option.toList_some, nextFree_concat, if_neg (others d there)]
        rw [kept]
        rcases ih with ⟨j, e, last, free⟩ | ⟨none, free⟩
        · refine .inl ⟨j, e, ⟨last.here, by have := last.earlier; omega, last.bank, ?_⟩, free⟩
          intro k f behind before there
          rcases Nat.lt_succ_iff_lt_or_eq.mp before with earlier | rfl
          · exact last.none_later k f behind earlier there
          · exact others f there
        · refine .inr ⟨?_, free⟩
          intro k f before there
          rcases Nat.lt_succ_iff_lt_or_eq.mp before with earlier | rfl
          · exact none k f earlier there
          · exact others f there

theorem Offsets.eq_start (meant : Offsets ds off) {i : Nat} {d : Definition} (here : ds[i]? = some d) :
    off i = d.start (ds.take i).reverse := by
  -- The last definition of the bank may stand at any earlier place.
  induction i using Nat.strongRecOn generalizing d with
  | _ i ih =>
      cases offset : d.offset with
      | some n => rw [meant.given i d n here offset, Definition.start, offset, Option.getD_some]
      | none =>
          rw [Definition.start, offset, Option.getD_none]
          rcases nextFree_take ds d.bank i with ⟨j, e, last, free⟩ | ⟨none, free⟩
          · rw [meant.behind i d j e here offset last, ih j last.earlier last.here, free]
          · rw [meant.first i d here offset none, free]

theorem exists_offsets (ds : List Definition) : ∃ off, Offsets ds off := by
  refine ⟨fun i => (ds[i]?.map fun d => d.start (ds.take i).reverse).getD 0, ?_, ?_, ?_⟩
  · intro i d n here offset
    simp [here, Definition.start, offset]
  · intro i d j e here offset last
    rcases nextFree_take ds d.bank i with ⟨k, f, lastToo, free⟩ | ⟨none, -⟩
    · obtain ⟨rfl, rfl⟩ := last.unique lastToo
      simp [here, last.here, Definition.start, offset, free]
    · exact absurd last.bank (none j e last.earlier last.here)
  · intro i d here offset none
    rcases nextFree_take ds d.bank i with ⟨k, f, last, -⟩ | ⟨-, free⟩
    · exact absurd last.bank (none k f last.earlier last.here)
    · simp [here, Definition.start, offset, free]

end Offsets

/-! ## What is laid out -/

/-- The definition `d` at place `i` is the last one of its name. -/
structure LastOfName (ds : List Definition) (i : Nat) (d : Definition) : Prop where
  here : ds[i]? = some d
  none_later : ∀ k e, i < k → ds[k]? = some e → e.name ≠ d.name

/-- The registers of definitions: one for each name, in the order in which the names first occur,
numbered in that order, and each as the last definition of its name says. -/
structure LaidOut (ds : List Definition) (off : Nat → Nat) (rs : List Register) : Prop where
  names_eq : rs.map (fun r => r.name) = (ds.map fun d => d.name).eraseDups
  index_eq : ∀ (n : Nat) (r : Register), rs[n]? = some r → r.index = n
  as_defined : ∀ r ∈ rs, ∃ i d, LastOfName ds i d ∧ r = {
    offset := off i, size := d.size, name := d.name, kind := d.kind, bank := d.bank, lane := d.lane,
    flags := d.flags, comment := d.comment, index := r.index }

/-- The definition `d` at place `i` is the first one that ends beyond 32 bits. -/
structure FirstBeyond (ds : List Definition) (off : Nat → Nat) (i : Nat) (d : Definition) : Prop where
  here : ds[i]? = some d
  beyond : 2 ^ 32 ≤ off i + d.size
  before : ∀ j e, j < i → ds[j]? = some e → off j + e.size < 2 ^ 32

theorem getElem?_concat_eq_some {α : Type} {as : List α} {a b : α} {k : Nat}
    (there : (as ++ [a])[k]? = some b) : as[k]? = some b ∨ k = as.length ∧ a = b := by
  rcases Nat.lt_trichotomy k as.length with inside | rfl | beyond
  · rw [List.getElem?_append_left inside] at there
    exact .inl there
  · rw [List.getElem?_concat_length] at there
    exact .inr ⟨rfl, Option.some.inj there⟩
  · rw [List.getElem?_eq_none (by simp; omega)] at there
    cases there

theorem eraseDups_concat {α : Type} [DecidableEq α] (as : List α) (a : α) :
    (as ++ [a]).eraseDups = if a ∈ as then as.eraseDups else as.eraseDups ++ [a] := by
  rw [List.eraseDups_append, List.removeAll]
  by_cases known : a ∈ as
  · simp [known]
  · simp [known, List.eraseDups_cons]

theorem nodup_eraseDups {α : Type} [DecidableEq α] (as : List α) : as.eraseDups.Nodup := by
  induction as using List.reverseRecOn with
  | nil => exact List.nodup_nil
  | append_singleton as a ih =>
      rw [eraseDups_concat]
      split
      · exact ih
      · rename_i fresh
        rw [← List.concat_eq_append]
        exact ih.concat fun known => fresh (List.mem_eraseDups.mp known)

theorem eraseDups_of_nodup {α : Type} [DecidableEq α] {as : List α} (nodup : as.Nodup) :
    as.eraseDups = as := by
  induction as using List.reverseRecOn with
  | nil => rfl
  | append_singleton as a ih =>
      rw [← List.concat_eq_append, List.nodup_concat] at nodup
      obtain ⟨fresh, before⟩ := nodup
      rw [eraseDups_concat, if_neg fresh, ih before]

/-- Where names are unique, no other register of the name stays beside the one that is put in. -/
theorem mem_putRegister_of_nodup (r : Register) {rs : List Register}
    (nodup : (rs.map fun t => t.name).Nodup) {t : Register} (member : t ∈ putRegister r rs) :
    (t ∈ rs ∧ t.name ≠ r.name) ∨ ∃ n, t = { r with index := n } := by
  induction rs with
  | nil =>
      cases List.mem_singleton.mp member
      exact .inr ⟨r.index, rfl⟩
  | cons old rest ih =>
      rw [List.map_cons, List.nodup_cons] at nodup
      rw [putRegister] at member
      split at member
      · rename_i same
        rcases List.mem_cons.mp member with rfl | later
        · exact .inr ⟨old.index, rfl⟩
        · refine .inl ⟨List.mem_cons_of_mem _ later, fun again => nodup.1 ?_⟩
          rw [same, ← again]
          exact List.mem_map_of_mem later
      · rename_i differs
        rcases List.mem_cons.mp member with rfl | later
        · exact .inl ⟨List.mem_cons_self .., differs⟩
        · rcases ih nodup.2 later with ⟨before, other⟩ | put
          · exact .inl ⟨List.mem_cons_of_mem _ before, other⟩
          · exact .inr put

section Layout
variable {before after : List Definition} {ds : List Definition} {off : Nat → Nat} {rs : List Register}

namespace LastOfName
variable {i j : Nat} {d e : Definition}

theorem unique (last : LastOfName ds i d) (lastToo : LastOfName ds j e) (same : d.name = e.name) :
    i = j ∧ d = e := by
  apply eq_of_not_apart last.here lastToo.here
  · intro before
    exact last.none_later j e before lastToo.here same.symm
  · intro behind
    exact lastToo.none_later i d behind last.here same

theorem concat (ds : List Definition) (d : Definition) : LastOfName (ds ++ [d]) ds.length d := by
  refine ⟨List.getElem?_concat_length .., ?_⟩
  intro k e later there
  rw [List.getElem?_eq_none (by simp; omega)] at there
  cases there

theorem append_of_ne (last : LastOfName ds i e) (other : d.name ≠ e.name) : LastOfName (ds ++ [d]) i e := by
  obtain ⟨short, -⟩ := List.getElem?_eq_some_iff.mp last.here
  refine ⟨?_, ?_⟩
  · rw [List.getElem?_append_left short]
    exact last.here
  · intro k f later there
    rcases getElem?_concat_eq_some there with before | ⟨-, rfl⟩
    · exact last.none_later k f later before
    · exact other

end LastOfName

namespace LaidOut

theorem nil (off : Nat → Nat) : LaidOut [] off [] := ⟨rfl, by simp, by simp⟩

theorem names_nodup (laid : LaidOut ds off rs) : (rs.map fun r => r.name).Nodup := by
  rw [laid.names_eq]
  exact nodup_eraseDups _

theorem map_index (laid : LaidOut ds off rs) : rs.map (fun r => r.index) = List.range rs.length := by
  apply List.ext_getElem
  · simp
  · intro n first second
    rw [List.getElem_map, List.getElem_range]
    exact laid.index_eq n _ (List.getElem?_eq_getElem _)

theorem put (laid : LaidOut ds off rs) (d : Definition) :
    LaidOut (ds ++ [d]) off (putRegister (d.toRegister (off ds.length) rs.length) rs) := by
  set r := d.toRegister (off ds.length) rs.length with put
  have known_iff : d.name ∈ rs.map (fun t => t.name) ↔ d.name ∈ ds.map fun e => e.name := by
    rw [laid.names_eq, List.mem_eraseDups]
  refine ⟨?_, ?_, ?_⟩
  · rw [List.map_append, List.map_singleton, eraseDups_concat, ← laid.names_eq]
    split
    · rename_i known
      exact map_putRegister_of_known r rs (fun t => t.name) (fun _ _ same => same.symm) (known_iff.mpr known)
    · rename_i fresh
      rw [putRegister_of_fresh r rs fun known => fresh (known_iff.mp known), List.map_append]
      rfl
  · intro n t there
    have indices := indexed_putRegister r rs laid.map_index rfl
    have index := congrArg (fun ns => ns[n]?) indices
    obtain ⟨short, -⟩ := List.getElem?_eq_some_iff.mp there
    rw [List.getElem?_map, there, Option.map_some, List.getElem?_range short] at index
    exact Option.some.inj index
  · intro t member
    rcases mem_putRegister_of_nodup r laid.names_nodup member with ⟨stays, other⟩ | ⟨n, rfl⟩
    · obtain ⟨i, e, last, described⟩ := laid.as_defined t stays
      rw [described] at other
      exact ⟨i, e, last.append_of_ne (Ne.symm other), described⟩
    · exact ⟨ds.length, d, LastOfName.concat ds d, rfl⟩

theorem unique {others : List Register} (laid : LaidOut ds off rs) (laidToo : LaidOut ds off others) :
    rs = others := by
  have names : rs.map (fun r => r.name) = others.map fun r => r.name :=
    laid.names_eq.trans laidToo.names_eq.symm
  have count : rs.length = others.length := by
    rw [← List.length_map (f := fun r : Register => r.name), names, List.length_map]
  apply List.ext_getElem count
  intro n first second
  have name : rs[n].name = others[n].name := by
    have both := congrArg (fun texts => texts[n]?) names
    simpa [first, second] using both
  obtain ⟨i, d, last, described⟩ := laid.as_defined _ (List.getElem_mem first)
  obtain ⟨j, e, lastToo, describedToo⟩ := laidToo.as_defined _ (List.getElem_mem second)
  have same : d.name = e.name := by
    rw [described, describedToo] at name
    exact name
  obtain ⟨rfl, rfl⟩ := last.unique lastToo same
  rw [described, describedToo, laid.index_eq n _ (List.getElem?_eq_getElem first),
    laidToo.index_eq n _ (List.getElem?_eq_getElem second)]

end LaidOut

theorem FirstBeyond.unique {i j : Nat} {d e : Definition} (first : FirstBeyond ds off i d)
    (firstToo : FirstBeyond ds off j e) : i = j ∧ d = e := by
  apply eq_of_not_apart first.here firstToo.here
  · intro before
    exact Nat.not_le_of_lt (firstToo.before i d before first.here) first.beyond
  · intro behind
    exact Nat.not_le_of_lt (first.before j e behind firstToo.here) firstToo.beyond

/-- Placing what comes `after` behind what is laid out already: all is laid out, or the first
definition that ends too late is refused. -/
theorem Placement.placeAll_meaning (meant : Offsets (before ++ after) off) {p : Placement}
    (laid : LaidOut before off p.registers) (free : ∀ c, p.next.get c = nextFree c before.reverse)
    (fit : ∀ i d, before[i]? = some d → off i + d.size < 2 ^ 32) :
    (∃ q, p.placeAll after = .ok q ∧ LaidOut (before ++ after) off q.registers ∧
        ∀ i d, (before ++ after)[i]? = some d → off i + d.size < 2 ^ 32) ∨
      ∃ i d, FirstBeyond (before ++ after) off i d ∧ p.placeAll after = .error (.layoutOverflow d.name) := by
  induction after generalizing before p with
  | nil =>
      refine .inl ⟨p, rfl, ?_, ?_⟩
      · rw [List.append_nil]
        exact laid
      · rw [List.append_nil]
        exact fit
  | cons d rest ih =>
      have here : (before ++ d :: rest)[before.length]? = some d := by simp
      have began : off before.length = d.start before.reverse := by
        rw [meant.eq_start here, List.take_left' rfl]
      have chosen : d.offset.getD (p.next.get d.bank) = off before.length := by
        rw [free, began]
        rfl
      have split_here : before ++ d :: rest = before ++ [d] ++ rest := by simp
      rw [placeAll, place, chosen]
      by_cases short : off before.length + d.size < UInt32.size
      · rw [if_pos short, split_here]
        rw [split_here] at meant
        refine ih meant (laid.put d) ?_ ?_
        · intro c
          rw [TotalMap.get_set, nextFree_concat, free, began]
        · intro i e there
          rcases getElem?_concat_eq_some there with inside | ⟨rfl, rfl⟩
          · exact fit i e inside
          · exact short
      · rw [if_neg short]
        refine .inr ⟨before.length, d, ⟨here, Nat.le_of_not_lt short, ?_⟩, rfl⟩
        intro j e earlier there
        rw [List.getElem?_append_left earlier] at there
        exact fit j e there

namespace Profile

theorem layout_cases {p : Profile} (meant : Offsets p.definitions off) :
    (∃ rs, p.layout = .ok rs ∧ LaidOut p.definitions off rs ∧
        ∀ i d, p.definitions[i]? = some d → off i + d.size < 2 ^ 32) ∨
      ∃ i d, FirstBeyond p.definitions off i d ∧ p.layout = .error (.layoutOverflow d.name) := by
  have all := @Placement.placeAll_meaning [] p.definitions off meant Placement.start (LaidOut.nil off)
    (fun c => TotalMap.get_const 0 c) (by simp)
  rcases all with ⟨q, placed, laid, fit⟩ | ⟨i, d, first, refused⟩
  · refine .inl ⟨q.registers, ?_, laid, fit⟩
    rw [layout, placed]
    rfl
  · refine .inr ⟨i, d, first, ?_⟩
    rw [layout, refused]
    rfl

theorem layout_eq_error_iff {p : Profile} (meant : Offsets p.definitions off) {e : RegisterError} :
    p.layout = .error e ↔ ∃ i d, FirstBeyond p.definitions off i d ∧ e = .layoutOverflow d.name := by
  constructor
  · intro failed
    rcases layout_cases meant with ⟨rs, laid, -⟩ | ⟨i, d, first, refused⟩
    · rw [laid] at failed
      cases failed
    · rw [refused] at failed
      cases failed
      exact ⟨i, d, first, rfl⟩
  · rintro ⟨i, d, first, rfl⟩
    rcases layout_cases meant with ⟨rs, -, -, fit⟩ | ⟨j, f, firstToo, refused⟩
    · exact absurd first.beyond (Nat.not_le_of_lt (fit i d first.here))
    · rw [refused, (first.unique firstToo).2]

theorem layout_eq_ok_iff {p : Profile} (meant : Offsets p.definitions off) :
    p.layout = .ok rs ↔
      (∀ i d, p.definitions[i]? = some d → off i + d.size < 2 ^ 32) ∧ LaidOut p.definitions off rs := by
  constructor
  · intro done
    rcases layout_cases meant with ⟨others, laid, asMeant, fit⟩ | ⟨i, d, first, refused⟩
    · rw [laid] at done
      cases done
      exact ⟨fit, asMeant⟩
    · rw [refused] at done
      cases done
  · rintro ⟨fit, asMeant⟩
    rcases layout_cases meant with ⟨others, laid, othersToo, -⟩ | ⟨i, d, first, -⟩
    · rw [laid, asMeant.unique othersToo]
    · exact absurd first.beyond (Nat.not_le_of_lt (fit i d first.here))

end Profile

theorem foldr_max_mem {ns : List Nat} (inhabited : ns ≠ []) : ns.foldr max 0 ∈ ns := by
  induction ns with
  | nil => exact absurd rfl inhabited
  | cons n rest ih =>
      rw [List.foldr_cons]
      by_cases alone : rest = []
      · simp [alone]
      · rcases max_choice n (rest.foldr max 0) with first | later
        · rw [first]
          exact List.mem_cons_self ..
        · rw [later]
          exact List.mem_cons_of_mem _ (ih alone)

/-- A bank has the bytes of the register that reaches furthest in it. -/
theorem Register.bytesOfBank_attained (rs : List Register) (c : RegClass) :
    (∃ r ∈ rs, r.bank = c ∧ r.bytesNeeded = bytesOfBank rs c) ∨
      (∀ r ∈ rs, r.bank ≠ c) ∧ bytesOfBank rs c = 0 := by
  by_cases inhabited : ∃ r ∈ rs, r.bank = c
  · obtain ⟨r, member, here⟩ := inhabited
    have inBank : r ∈ rs.filter fun t => t.bank = c := List.mem_filter.mpr ⟨member, decide_eq_true here⟩
    have most := foldr_max_mem (List.ne_nil_of_mem (List.mem_map_of_mem (f := fun t => t.bytesNeeded) inBank))
    obtain ⟨t, found, bytes⟩ := List.mem_map.mp most
    obtain ⟨known, there⟩ := List.mem_filter.mp found
    exact .inl ⟨t, known, of_decide_eq_true there, bytes⟩
  · have none : ∀ r ∈ rs, r.bank ≠ c := fun r member here => inhabited ⟨r, member, here⟩
    have empty : (rs.filter fun t => t.bank = c) = [] := by simpa using none
    refine .inr ⟨none, ?_⟩
    rw [bytesOfBank, empty]
    rfl

/-- The layout is what the definitions mean.  Where each begins is fixed by what is before it; the
layout fails exactly if one ends beyond 32 bits, and names the first that does; otherwise it is
laid out, with one register for each name, and the bytes of a bank are the most that a register
of it needs. -/
theorem Profile.layout_meaning (p : Profile) :
    (∃ off, Offsets p.definitions off) ∧ ∀ off, Offsets p.definitions off →
      (∀ e, p.layout = .error e ↔ ∃ i d, FirstBeyond p.definitions off i d ∧ e = .layoutOverflow d.name) ∧
      (∀ rs, p.layout = .ok rs ↔
        (∀ i d, p.definitions[i]? = some d → off i + d.size < 2 ^ 32) ∧ LaidOut p.definitions off rs) ∧
      ∀ rs, p.layout = .ok rs →
        (∀ r ∈ rs, r.isFloat = true ↔ r.kind = .float) ∧
        ∀ c, (∀ r ∈ rs, r.bank = c → (r.offset + r.size + 7) / 8 ≤ Register.bytesOfBank rs c) ∧
          ((∃ r ∈ rs, r.bank = c ∧ (r.offset + r.size + 7) / 8 = Register.bytesOfBank rs c) ∨
            (∀ r ∈ rs, r.bank ≠ c) ∧ Register.bytesOfBank rs c = 0) := by
  refine ⟨exists_offsets p.definitions, ?_⟩
  intro off meant
  refine ⟨fun e => layout_eq_error_iff meant, fun rs => layout_eq_ok_iff meant, ?_⟩
  intro rs laid
  refine ⟨fun r _ => by simp [Register.isFloat], fun c => ⟨?_, Register.bytesOfBank_attained rs c⟩⟩
  intro r member here
  exact Register.bytesNeeded_le_bytesOfBank member here

/-- A register that is redefined and then moves: what it held keeps the next one away. -/
theorem Profile.layout_meaning_moved :
    ∃ (p : Profile) (off : Nat → Nat) (rs : List Register), Offsets p.definitions off ∧
      p.layout = .ok rs ∧ LaidOut p.definitions off rs ∧
      rs.map (fun r => (r.name, r.bank, r.offset, r.size)) =
        [("a", .float, 0, 8), ("b", .general, 16, 4)] ∧
      (Register.bytesOfBank rs .general, Register.bytesOfBank rs .float) = (3, 1) := by
  let p : Profile := ⟨[], [⟨.general, .general, "a", 8, 0, none, none, none⟩,
    ⟨.general, .general, "a", 8, 0, none, none, none⟩, ⟨.float, .float, "a", 8, 0, none, none, none⟩,
    ⟨.general, .general, "b", 4, 0, none, none, none⟩]⟩
  obtain ⟨⟨off, meant⟩, all⟩ := layout_meaning p
  have laid : p.layout = .ok [⟨⟨0, 8⟩, "a", .float, .float, 0, none, none, 0⟩,
      ⟨⟨16, 4⟩, "b", .general, .general, 0, none, none, 1⟩] := by decide +kernel
  exact ⟨p, off, _, meant, laid, (((all off meant).2.1 _).mp laid).2, rfl, by decide +kernel⟩

end Layout

end MachineRegisters
