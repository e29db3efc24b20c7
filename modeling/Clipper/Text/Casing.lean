/-!
Letter case. The dialect folds the case of the letters A to Z only; every other
character is its own folded form.
-/

namespace Clipper.Text

/-- The characters of a word with A to Z in lower case. -/
def folded (s : String) : List Char := s.toList.map Char.toLower

/-- Two spellings of one word. -/
def sameWord (a b : String) : Bool := folded a == folded b

def lower (s : String) : String := String.ofList (folded s)

def upper (s : String) : String := String.ofList (s.toList.map Char.toUpper)

theorem sameWord_iff {a b : String} : sameWord a b = true ↔ folded a = folded b := by
  simp [sameWord]

@[simp] theorem sameWord_self (a : String) : sameWord a a = true := by
  simp [sameWord]

theorem sameWord_comm (a b : String) : sameWord a b = sameWord b a := by
  simp [sameWord, Bool.beq_comm]

theorem sameWord_trans {a b c : String} (hab : sameWord a b = true)
    (hbc : sameWord b c = true) : sameWord a c = true := by
  simp only [sameWord_iff] at *
  exact hab.trans hbc

end Clipper.Text
