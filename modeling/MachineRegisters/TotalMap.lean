/-! # Listed types and total maps

A listed type names all its values in one fixed order without repetition.  The
position in that order numbers the values, and a total map keeps one entry per
value: there is always something to read, and writing one entry leaves the
others alone (`get_set_self`, `get_set_of_ne`). -/
set_option autoImplicit false
namespace MachineRegisters

/-- A type whose values are all named, once each, by one list. -/
class Listed (ι : Type) [DecidableEq ι] where
  all : List ι
  nodup_all : all.Nodup
  mem_all : ∀ i : ι, i ∈ all

namespace Listed
variable {ι : Type} [DecidableEq ι] [Listed ι]

def number (i : ι) : Nat := (all (ι := ι)).idxOf i

theorem number_lt (i : ι) : number i < (all (ι := ι)).length :=
  List.idxOf_lt_length_of_mem (mem_all i)

def place (i : ι) : Fin (all (ι := ι)).length := ⟨number i, number_lt i⟩

theorem get_place (i : ι) : (all (ι := ι)).get (place i) = i :=
  List.getElem_idxOf (number_lt i)

theorem place_get (n : Fin (all (ι := ι)).length) : place ((all (ι := ι)).get n) = n :=
  Fin.ext (nodup_all.idxOf_getElem n.val n.isLt)

theorem place_inj {i j : ι} : place i = place j ↔ i = j := by
  constructor
  · intro same
    rw [← get_place i, same, get_place j]
  · rintro rfl
    rfl

theorem number_inj {i j : ι} : number i = number j ↔ i = j := by
  rw [← place_inj (i := i) (j := j), Fin.ext_iff]
  rfl

end Listed

/-- One entry of type `α` for every value of a listed type, kept in its order. -/
structure TotalMap (ι α : Type) [DecidableEq ι] [Listed ι] where
  slots : Vector α (Listed.all (ι := ι)).length

namespace TotalMap
variable {ι α β : Type} [DecidableEq ι] [Listed ι]

def ofFn (f : ι → α) : TotalMap ι α := ⟨Vector.ofFn fun n => f ((Listed.all (ι := ι)).get n)⟩

def const (a : α) : TotalMap ι α := ofFn fun _ => a

def get (m : TotalMap ι α) (i : ι) : α := m.slots[Listed.place i]

def set (m : TotalMap ι α) (i : ι) (a : α) : TotalMap ι α :=
  ⟨m.slots.set (Listed.place i) a⟩

def map (f : α → β) (m : TotalMap ι α) : TotalMap ι β := ⟨m.slots.map f⟩

def toList (m : TotalMap ι α) : List α := (Listed.all (ι := ι)).map m.get

@[simp] theorem get_ofFn (f : ι → α) (i : ι) : (ofFn f).get i = f i := by
  simpa [ofFn, get] using congrArg f (Listed.get_place i)

@[simp] theorem get_const (a : α) (i : ι) : (const a : TotalMap ι α).get i = a := by
  simp [const]

@[simp] theorem get_map (f : α → β) (m : TotalMap ι α) (i : ι) : (m.map f).get i = f (m.get i) := by
  simp [map, get]

@[simp] theorem get_set_self (m : TotalMap ι α) (i : ι) (a : α) : (m.set i a).get i = a := by
  simp [set, get]

theorem get_set_of_ne (m : TotalMap ι α) {i j : ι} (a : α) (apart : i ≠ j) :
    (m.set i a).get j = m.get j := by
  have placesApart : (Listed.place i).val ≠ (Listed.place j).val :=
    fun same => apart (Listed.place_inj.mp (Fin.ext same))
  simp [set, get, placesApart]

theorem get_set (m : TotalMap ι α) (i j : ι) (a : α) :
    (m.set i a).get j = if i = j then a else m.get j := by
  by_cases same : i = j
  · subst same
    simp
  · rw [if_neg same, get_set_of_ne m a same]

theorem ext_get {m n : TotalMap ι α} (same : ∀ i, m.get i = n.get i) : m = n := by
  cases m with
  | mk slots =>
      cases n with
      | mk others =>
          congr 1
          apply Vector.ext
          intro k inside
          have entry := same ((Listed.all (ι := ι)).get ⟨k, inside⟩)
          simpa only [get, Listed.place_get, Fin.getElem_fin] using entry

theorem set_get (m : TotalMap ι α) (i : ι) : m.set i (m.get i) = m := by
  apply ext_get
  intro j
  rw [get_set]
  split
  · rename_i here
    rw [here]
  · rfl

theorem set_set (m : TotalMap ι α) (i : ι) (a b : α) : (m.set i a).set i b = m.set i b := by
  apply ext_get
  intro j
  rw [get_set, get_set, get_set]
  split <;> rfl

end TotalMap
end MachineRegisters
