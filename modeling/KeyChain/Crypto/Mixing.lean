/-! Mixing words by fours, which the ChaCha and BLAKE families have in common. Sixteen words stand in
   four rows of four; a round mixes the four columns and then the four diagonals, and each cipher or
   hash brings its own way to mix four words. -/
namespace KeyChain

/-- Sixteen words, row by row. -/
abbrev WordMatrix (α : Type) := Vector α 16

namespace Mixing

variable {α σ : Type} {n : Nat}

/-- Replaces the words at four places by what a function makes of them. -/
@[inline] def mixAt (f : α → α → α → α → α × α × α × α) (v : Vector α n) (i j k l : Fin n) :
    Vector α n :=
  let (a, b, c, d) := f v[i] v[j] v[k] v[l]
  (((v.set i a).set j b).set k c).set l d

/-- Takes the columns from the left and then the diagonals, numbered from 0 to 7, each by its four
    places from the top. -/
@[inline] def columnsAndDiagonals (step : Nat → Fin 16 → Fin 16 → Fin 16 → Fin 16 → σ → σ) (s : σ) :
    σ :=
  let s := step 0 0 4 8 12 s
  let s := step 1 1 5 9 13 s
  let s := step 2 2 6 10 14 s
  let s := step 3 3 7 11 15 s
  let s := step 4 0 5 10 15 s
  let s := step 5 1 6 11 12 s
  let s := step 6 2 7 8 13 s
  step 7 3 4 9 14 s

end Mixing

end KeyChain
