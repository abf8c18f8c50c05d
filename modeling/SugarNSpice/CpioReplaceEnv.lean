/-
`gen_init_cpio.c`, `cpio_replace_env`: the variables in a file's location.

As long as there is a `${` with a `}` behind it, the name between them is
replaced by its value in the environment, and the search starts again from the
beginning of the location. The buffers have `PATH_MAX + 1` bytes. Of `env_var`
and `expanded` only the strings in them matter; `strncpy` leaves the last byte
of the location as it was, so there the whole buffer is modelled.
-/
import SugarNSpice.CpioList
import SugarNSpice.Loops

namespace SugarNSpice.Cpio

open CLang

/-! ## Strings -/

/-- The string in a buffer. -/
def cstr (b : List Byte) : Outcome (List Byte) := if 0 ∈ b then .ok (b.takeWhile (· ≠ 0)) else .error .bounds

/-- `strstr`, as an index. -/
def strstr (needle : List Byte) : List Byte → Option Nat
  | [] => if needle = [] then some 0 else none
  | c :: s => if needle.isPrefixOf (c :: s) then some 0 else (strstr needle s).map (· + 1)

/-- `strchr`, as an index. -/
def strchr (s : List Byte) (c : Byte) : Option Nat := s.findIdx? (· = c)

/-- `strncat` of at most `n` bytes of `src`, onto a string in a buffer of `cap`
bytes. -/
def strncat (cap : Nat) (s src : List Byte) (n : Nat) : Outcome (List Byte) :=
  if (s ++ src.take n).length + 1 ≤ cap then .ok (s ++ src.take n) else .error .bounds

/-- `strncpy`: `n` bytes, zeros behind a shorter string. -/
def strncpy (b src : List Byte) (n : Nat) : Outcome (List Byte) :=
  if n ≤ b.length then .ok (src.take n ++ List.replicate (n - src.length) 0 ++ b.drop n) else .error .bounds

/-! ## Variables -/

abbrev Environment := List Byte → Option (List Byte)

/-- `${`. -/
def opening : List Byte := [36, 123]

/-- What a turn puts together: the location with the variable between `start`
and `end` replaced. -/
def expandAt (getenv : Environment) (s : List Byte) (start stop : Nat) : Outcome (List Byte) := do
  let envVar ← strncat (pathMax + 1) [] (s.drop (start + 2)) (stop - start - 2)
  let expanded ← strncat (pathMax + 1) [] s start
  let value ← deref (getenv envVar)
  let expanded ← strncat (pathMax + 1) expanded value pathMax
  strncat (pathMax + 1) expanded (s.drop (stop + 1)) pathMax

def replaceTurn (getenv : Environment) (newLocation : List Byte) : Outcome (Turn (List Byte) (List Byte)) := do
  let s ← cstr newLocation
  match strstr opening s with
  | none => .ok (.done newLocation)
  | some start =>
    match strchr (s.drop start) 125 with
    | none => .ok (.done newLocation)
    | some k => do
      let expanded ← expandAt getenv s start (start + k)
      let newLocation ← strncpy newLocation expanded pathMax
      .ok (.next newLocation)

/-- `cpio_replace_env`, given a number of turns. -/
def cpioReplaceEnv (getenv : Environment) (turns : Nat) (newLocation : List Byte) : Outcome (List Byte) :=
  loop (replaceTurn getenv) turns newLocation

/-! ## What it is for -/

/-- No `$` is followed by `{`. -/
def VarFree (s : List Byte) : Prop := s.IsChain fun a b => ¬ (a = 36 ∧ b = 123)

/-- A value that is not taken for part of a variable. -/
structure IsPlain (value : List Byte) : Prop where
  ne_nil : value ≠ []
  dollar : 36 ∉ value
  brace : 123 ∉ value
  nulFree : 0 ∉ value

/-- A location behind `k` bytes, and what it stands for: each variable is
replaced by its value, from left to right, and the location is shorter than
`PATH_MAX` after each of them. -/
inductive Expands (getenv : Environment) : Nat → List Byte → List Byte → Prop
  | plain {k s} : VarFree s → Expands getenv k s s
  | unclosed {k pre rest} : VarFree pre → 125 ∉ rest →
      Expands getenv k (pre ++ 36 :: 123 :: rest) (pre ++ 36 :: 123 :: rest)
  | var {k pre name value post out} : VarFree pre → 125 ∉ name → getenv name = some value → IsPlain value →
      k + (pre ++ value ++ post).length < pathMax → Expands getenv (k + (pre ++ value).length) post out →
      Expands getenv k (pre ++ 36 :: 123 :: (name ++ 125 :: post)) (pre ++ value ++ out)

end SugarNSpice.Cpio
