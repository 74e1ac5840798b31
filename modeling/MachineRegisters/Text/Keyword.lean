/-! # Keywords without regard to case

Keywords are compared after folding the ASCII letters to lower case; all other
characters count as they are. -/
set_option autoImplicit false
namespace MachineRegisters.Text

/-- Equality up to the case of ASCII letters. -/
def sameLetters (as bs : List Char) : Bool := as.map Char.toLower == bs.map Char.toLower

def findKeyword {ι : Type} (keyword : ι → String) (candidates : List ι) (text : List Char) : Option ι :=
  candidates.find? fun i => sameLetters (keyword i).toList text

theorem sameLetters_iff {as bs : List Char} :
    sameLetters as bs = true ↔ as.map Char.toLower = bs.map Char.toLower := by
  simp [sameLetters]

theorem findKeyword_congr {ι : Type} (keyword : ι → String) (candidates : List ι) {as bs : List Char}
    (same : sameLetters as bs = true) :
    findKeyword keyword candidates as = findKeyword keyword candidates bs := by
  simp only [findKeyword, sameLetters, sameLetters_iff.mp same]

/-- If every keyword finds what it is the keyword of, so does every spelling of it and no other text. -/
theorem findKeyword_eq_some_iff {ι : Type} {keyword : ι → String} {candidates : List ι}
    (own : ∀ i, findKeyword keyword candidates (keyword i).toList = some i) {text : List Char} {i : ι} :
    findKeyword keyword candidates text = some i ↔ sameLetters (keyword i).toList text = true := by
  constructor
  · intro found
    have spells := List.find?_some (p := fun j => sameLetters (keyword j).toList text) found
    exact spells
  · intro spells
    rw [← findKeyword_congr keyword candidates spells]
    exact own i

end MachineRegisters.Text
