/-
`test_brackets.c`: all balanced strings of brackets, printed one by one.

`gen_brackets` fills one buffer from the front and calls itself on the rest;
both calls work in the same buffer, and a line is printed from it when the
opening brackets are used up. The counters are `int`s that the code never
takes below 0; the index is one that can overflow. `malloc` is taken to
succeed; the code does not check it.
-/
import SugarNSpice.CLang

namespace SugarNSpice.Brackets

open CLang

/-- The end of a string. -/
def nul : Char := Char.ofNat 0

/-- What `printf("%s\n", s)` prints before the newline. -/
def printed : List Char → Outcome (List Char)
  | [] => .error .bounds
  | c :: cs => if c = nul then .ok [] else do .ok (c :: (← printed cs))

/-- `while (nr_right--) bracket_str[i++] = ')'`: the buffer and `i` after it. -/
def closeAll (bracketStr : List Char) (i : Nat) : Nat → Outcome (List Char × Nat)
  | 0 => .ok (bracketStr, i)
  | nrRight + 1 => do
    let bracketStr ← store bracketStr i ')'
    closeAll bracketStr (← nat (i + 1)) nrRight

/-- `gen_brackets`: the buffer afterwards, and the lines it has printed. -/
def genBrackets (bracketStr : List Char) (i nrLeft nrRight : Nat) : Outcome (List Char × List (List Char)) :=
  match nrLeft with
  | 0 => do
    let (bracketStr, i) ← closeAll bracketStr i nrRight
    let bracketStr ← store bracketStr i nul
    let line ← printed bracketStr
    .ok (bracketStr, [line])
  | nrLeft + 1 => do
    let bracketStr ← store bracketStr i '('
    let (bracketStr, lines) ← genBrackets bracketStr (← nat (i + 1)) nrLeft nrRight
    if nrLeft + 1 < nrRight then do
      let bracketStr ← store bracketStr i ')'
      let (bracketStr, more) ← genBrackets bracketStr (← nat (i + 1)) (nrLeft + 1) (nrRight - 1)
      .ok (bracketStr, lines ++ more)
    else .ok (bracketStr, lines)
termination_by nrLeft + nrRight

/-- What `main` does with the number it has read. -/
def run (nrBrackets : Nat) : Outcome (List (List Char)) := do
  let size ← nat ((← nat (nrBrackets * 2)) + 1)
  let (_, lines) ← genBrackets (List.replicate size nul) 0 nrBrackets nrBrackets
  .ok lines

end SugarNSpice.Brackets
