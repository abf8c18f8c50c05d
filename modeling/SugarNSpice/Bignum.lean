/-
`test_large_mult.c`: numbers of any length, one decimal digit to a `char`,
least significant first.

`char` is signed, so a digit may be negative; a value that does not fit one
is a fault (`char`), as is an `int` length that overflows. `malloc` is taken
to succeed for the sizes it can be asked for; the code does not check it.
-/
import SugarNSpice.Loops
import Mathlib.Algebra.BigOperators.Group.Finset.Basic

namespace SugarNSpice.Bignum

open CLang

/-- `bignum_t`: `len` and the `len` cells allocated behind it. -/
structure BignumT where
  len : Nat
  num : List Int
  deriving DecidableEq, Repr

/-- `bignum_alloc`. A negative length asks for a block smaller than the
struct, or (below `-sizeof(bignum_t)`, where the size wraps) for one `malloc`
has not got. -/
def bignumAlloc (len : Int) : Outcome BignumT :=
  if 0 ≤ len then .ok ⟨len.toNat, List.replicate len.toNat 0⟩
  else if -4 ≤ len then .error .bounds
  else .error .null

/-- The digits of the result and the `carry` of one row. -/
structure Row where
  res : List Int
  carry : Int

/-- The inner loop's body at `j`, in the row of `n2->num[i]` (`k` is `i`). -/
def multDigit (n1 n2 : List Int) (k j : Nat) (s : Row) : Outcome Row := do
  let a ← load n2 k
  let b ← load n1 j
  let lRes := a * b + s.carry
  let old ← load s.res (k + j)
  let x ← char (old + lRes)
  let res ← store s.res (k + j) x
  let d ← char (x.tmod 10)
  let res ← store res (k + j) d
  .ok ⟨res, x.tdiv 10⟩

/-- The outer loop's body: one row, its last carry added to the next cell. -/
def multRow (n1 : BignumT) (n2 : List Int) (k : Nat) (res : List Int) : Outcome (List Int) := do
  let s ← forUp (multDigit n1.num n2 k) n1.len 0 ⟨res, 0⟩
  let old ← load s.res (k + n1.len)
  let x ← char (old + s.carry)
  store s.res (k + n1.len) x

def bignumMult (n1 n2 : BignumT) : Outcome BignumT := do
  let len ← nat (n1.len + n2.len + 1)
  let res ← bignumAlloc len
  let num ← forUp (multRow n1 n2.num) n2.len 0 res.num
  .ok { res with num }

/-- The locals of `bignum_set`'s first loop. -/
structure Setting where
  i : Nat
  num : Int
  digits : List Int

/-- One turn of `bignum_set`'s first loop. -/
def setTurn (len : Nat) (s : Setting) : Outcome (Turn Setting Setting) :=
  if s.num ≠ 0 ∧ s.i < len then do
    let d ← char (s.num.tmod 10)
    let digits ← store s.digits s.i d
    .ok (.next ⟨s.i + 1, s.num.tdiv 10, digits⟩)
  else .ok (.done s)

/-- `bignum_set`, with its return value: -1 when `num` has digits left over. -/
def bignumSet (b : BignumT) (num : Int) : Outcome (BignumT × Int) := do
  let s ← loop (setTurn b.len) (b.len + 1) ⟨0, num, b.num⟩
  if s.num ≠ 0 then .ok ({ b with num := s.digits }, -1)
  else do
    let digits ← forUp (fun i ds => store ds i 0) (b.len - s.i) s.i s.digits
    .ok ({ b with num := digits }, 0)

/-- `printf("%d", c)`. -/
def printfInt (c : Int) : List Char :=
  if c < 0 then '-' :: Nat.toDigits 10 c.natAbs else Nat.toDigits 10 c.natAbs

/-- What `bignum_print` has put out, and the indices of `num` it has read. -/
structure Printing where
  text : List Char
  reads : List Nat
  deriving DecidableEq, Repr

/-- The body of `bignum_print`'s loop; `mem` is the memory from `num->num[0]`
on, as far as it can be read. -/
def printDigit (mem : List Int) (i : Nat) (p : Printing) : Outcome Printing := do
  let c ← load mem i
  .ok ⟨p.text ++ printfInt c, p.reads ++ [i]⟩

/-- The loop from `i` down to 0. -/
def printDown (mem : List Int) : Nat → Printing → Outcome Printing
  | 0, p => printDigit mem 0 p
  | i + 1, p => printDigit mem (i + 1) p >>= printDown mem i

/-- `bignum_print`, where `behind` follows the bignum's block in memory. -/
def bignumPrint (b : BignumT) (behind : List Int) : Outcome Printing := do
  let p ← printDown (b.num ++ behind) b.len ⟨[], []⟩
  .ok ⟨p.text ++ ['\n'], p.reads⟩

/-- The bignums the three operations build. -/
inductive Built : BignumT → Prop
  | alloc {len b} : IsInt len → bignumAlloc len = .ok b → Built b
  | set {b b' num} : Built b → IsInt num → bignumSet b num = .ok (b', 0) → Built b'
  | mult {n1 n2 r} : Built n1 → Built n2 → bignumMult n1 n2 = .ok r → Built r

/-- Those they build from non-negative numbers. -/
inductive BuiltNat : BignumT → Prop
  | alloc {len b} : IsInt len → bignumAlloc len = .ok b → BuiltNat b
  | set {b b' num} : BuiltNat b → IsInt num → 0 ≤ num → bignumSet b num = .ok (b', 0) → BuiltNat b'
  | mult {n1 n2 r} : BuiltNat n1 → BuiltNat n2 → bignumMult n1 n2 = .ok r → BuiltNat r

/-- The sum of `num[i] * 10^i`. -/
def value (num : List Int) : Int := ∑ i ∈ Finset.range num.length, num.getD i 0 * 10 ^ i

end SugarNSpice.Bignum
