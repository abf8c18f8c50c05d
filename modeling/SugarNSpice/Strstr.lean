/-
`my_strstr.c`: two hand-written substring searches, one over a table of
overlaps of the pattern with itself, one over a rolling hash.

A string is its bytes and the NUL after them; reading past the NUL is out of
bounds. Both functions keep lengths in `int`s, so a length that is none is a
fault; `myStrstrCut` is what compilers make of one, its low 32 bits. `malloc`
is taken to succeed; the code does not check it.
-/
import SugarNSpice.Loops
import Mathlib.Logic.Function.Iterate

namespace SugarNSpice.Strstr

open CLang

/-- A string: bytes up to the first NUL. -/
structure CString where
  bytes : List (BitVec 8)
  nulFree : 0 ∉ bytes

/-- The memory of a string. -/
def CString.mem (s : CString) : List (BitVec 8) := s.bytes ++ [0]

def strlen : List (BitVec 8) → Outcome Nat
  | [] => .error .bounds
  | c :: cs => if c = 0 then .ok 0 else do .ok ((← strlen cs) + 1)

/-- `strncmp(a, b, n) == 0`. -/
def strncmpEq : List (BitVec 8) → List (BitVec 8) → Nat → Outcome Bool
  | _, _, 0 => .ok true
  | c :: cs, d :: ds, n + 1 =>
    if c ≠ d then .ok false else if c = 0 then .ok true else strncmpEq cs ds n
  | _, _, _ + 1 => .error .bounds

/-! ## `my_strstr` -/

/-- The body of the first loop at `i`, on `j` and the table. -/
def overlapTurn (substring : List (BitVec 8)) (i : Nat) (s : Nat × List Nat) : Outcome (Nat × List Nat) := do
  let (j, overlap) := s
  let a ← load substring i
  let b ← load substring j
  if a = b then do
    let o ← load overlap (i - 1)
    let overlap ← store overlap i (o + 1)
    .ok (j + 1, overlap)
  else do
    let overlap ← store overlap i 0
    .ok (0, overlap)

/-- The first loop: the table, in a fresh block that holds `junk`. -/
def overlapTable (substring : List (BitVec 8)) (substrLen : Nat) (junk : Nat → Nat) : Outcome (List Nat) := do
  let overlap ← store ((List.range substrLen).map junk) 0 0
  let (_, overlap) ← forUp (overlapTurn substring) (substrLen - 1) 1 (0, overlap)
  .ok overlap

/-- The locals of the search. -/
structure Scan where
  i : Nat
  j : Nat
  hit : Nat

/-- One turn of the search. `hit` is the source's `match`. On a mismatch with
more than one character matched, `i` is stepped back and forth again: it
stays. -/
def scanTurn (string substring : List (BitVec 8)) (strLen substrLen : Nat) (overlap : List Nat) (s : Scan) :
    Outcome (Turn Scan Int) :=
  if s.i < strLen then
    if s.j = substrLen then .ok (.done (s.i - s.hit))
    else do
      let a ← load string s.i
      let b ← load substring s.j
      if a = b then .ok (.next ⟨s.i + 1, s.j + 1, s.hit + 1⟩)
      else if 1 < s.hit then do
        let o ← load overlap (s.hit - 1)
        .ok (.next ⟨s.i, o, o⟩)
      else .ok (.next ⟨s.i + 1, 0, 0⟩)
  else .ok (.done (-1))

def myStrstr (string substring : List (BitVec 8)) (junk : Nat → Nat) : Outcome Int := do
  let substrLen ← nat (← strlen substring)
  let strLen ← nat (← strlen string)
  if substrLen > strLen then .ok (-1)
  else do
    let overlap ← overlapTable substring substrLen junk
    loop (scanTurn string substring strLen substrLen overlap) (2 * strLen + 1) ⟨0, 0, 0⟩

/-- A `size_t` converted to `int`, where that keeps the low 32 bits. -/
def toInt (n : Nat) : Int := (BitVec.ofNat 32 n).toInt

/-- `my_strstr` with its lengths so converted, which may make them less than
those of the strings, or negative. A block of no more than 0 bytes has no cell
to store to. -/
def myStrstrCut (string substring : List (BitVec 8)) (junk : Nat → Nat) : Outcome Int := do
  let substrLen := toInt (← strlen substring)
  let strLen := toInt (← strlen string)
  if substrLen > strLen then .ok (-1)
  else do
    let overlap ← overlapTable substring substrLen.toNat junk
    loop (scanTurn string substring strLen.toNat substrLen.toNat overlap) (2 * strLen.toNat + 1) ⟨0, 0, 0⟩

/-! ## `my_strstr_hash` -/

/-- A `char` converted to `unsigned long`. -/
def toULong (c : BitVec 8) : BitVec 64 := c.signExtend 64

def prime : BitVec 64 := 11

def hashNew (str : List (BitVec 8)) (len : Nat) : Outcome (BitVec 64) := do
  let c ← load str 0
  forUp (fun i hash => do
    let c ← load str i
    .ok (hash * prime + toULong c)) (len - 1) 1 (0 + toULong c)

def hashAddSub (prevHash : BitVec 64) (sub add : BitVec 8) (len : Nat) : BitVec 64 :=
  let subHash := (fun h => h * prime)^[len - 1] (toULong sub)
  (prevHash - subHash) * prime + toULong add

/-- One turn of `my_strstr_hash`'s loop, on `i` and the window's hash. -/
def hashTurn (string substring : List (BitVec 8)) (strLen substrLen : Nat) (hsub : BitVec 64) (s : Nat × BitVec 64) :
    Outcome (Turn (Nat × BitVec 64) Int) :=
  let (i, hs) := s
  if (i : Int) < (strLen : Int) - substrLen then do
    let same ← (if hs = hsub then strncmpEq (string.drop i) substring substrLen else .ok false : Outcome Bool)
    if same then .ok (.done i)
    else do
      let sub ← load string i
      let add ← load string (i + substrLen)
      .ok (.next (i + 1, hashAddSub hs sub add substrLen))
  else .ok (.done (-1))

def myStrstrHash (string substring : List (BitVec 8)) : Outcome Int := do
  let substrLen ← nat (← strlen substring)
  let strLen ← nat (← strlen string)
  let hsub ← hashNew substring substrLen
  let hs ← hashNew string substrLen
  loop (hashTurn string substring strLen substrLen hsub) (strLen + 1) (0, hs)

end SugarNSpice.Strstr
