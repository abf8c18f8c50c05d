/-
`test_bsearch.c`: a binary search of its own, like the one of
`test_sparse_array.c` in what it returns.

The `printf` lines print and change nothing; they are left out. `mid` is at
least `low + 1` where the loop computes it, so `mid - 1` does not go below 0.
-/
import SugarNSpice.Loops

namespace SugarNSpice.TestBsearch

open CLang

/-- The locals of `binary_search`. -/
structure Bounds where
  low : Nat
  high : Nat
  mid : Nat

/-- `low + (high - low)/2`. -/
def middle (low high : Nat) : Nat := low + (high - low) / 2

/-- One turn of `binary_search`'s loop, or what follows the loop. -/
def searchTurn (array : List Int) (data : Int) (s : Bounds) : Outcome (Turn Bounds Int) :=
  if s.low + 1 < s.high then do
    let mid := middle s.low s.high
    let x ← load array mid
    if data = x then .ok (.done mid)
    else if data < x then .ok (.next ⟨s.low, mid - 1, mid⟩)
    else .ok (.next ⟨mid, s.high, mid⟩)
  else do
    let x ← load array s.mid
    if data > x then .ok (.done (bitNot (s.mid + 1)))
    else .ok (.done (bitNot s.mid))

def binarySearch (array : List Int) (data : Int) (length : Nat) : Outcome Int :=
  loop (searchTurn array data) (length + 1) ⟨0, length, 0⟩

end SugarNSpice.TestBsearch
