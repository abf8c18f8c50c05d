/-
`test_bitarray.c`: bits packed eight to a byte behind an `nr_bits` field.

`bitarray_shift` reads bytes on both sides of its array, so the memory is
modelled as it lies there: byte `i` of `ba->array` for every integer `i`, with
the `nr_bits` field in bytes -4 to -1 and whatever follows the allocated block
from byte `nr_bits / 8` on. `touched` records the indices read and written,
latest first; nothing the code computes depends on it. `nr_bits` is passed
beside the memory: it is what the field holds when the call is made.
-/
import SugarNSpice.CLang
import Mathlib.Logic.Function.Basic
import Mathlib.Data.List.Range
import Mathlib.Tactic.Linarith

namespace SugarNSpice.BitArray

/-- The bytes around `ba->array`, and the indices accessed so far. -/
structure Mem where
  byte : Int → BitVec 8
  touched : List Int

def Mem.read (m : Mem) (i : Int) : BitVec 8 × Mem := (m.byte i, { m with touched := i :: m.touched })

def Mem.write (m : Mem) (i : Int) (b : BitVec 8) : Mem := ⟨Function.update m.byte i b, i :: m.touched⟩

/-- The indices from `start` on, `n` of them. -/
def span (start n : Nat) : List Int := (List.range n).map fun k => ((start + k : Nat) : Int)

/-- `memset(&array[start], 0, n)`. -/
def Mem.clear (m : Mem) (start n : Nat) : Mem where
  byte i := if start ≤ i ∧ i < start + n then 0 else m.byte i
  touched := span start n ++ m.touched

/-- `memmove(&array[dst], &array[src], n)`. -/
def Mem.move (m : Mem) (dst src n : Nat) : Mem where
  byte i := if dst ≤ i ∧ i < dst + n then m.byte (i - dst + src) else m.byte i
  touched := span dst n ++ span src n ++ m.touched

/-- `BITARRAY_WORD_WIDTH`, and `BIT_IDX` of any bit. -/
def bitIdx (bit : Nat) : Nat := bit / 8

def bitPos (bit : Nat) : Nat := bit % 8

/-- `BITMASK`, for the widths 0 to 7 it is used at. -/
def bitmask (bits : Nat) : BitVec 8 := (1#8 <<< bits) - 1#8

/-- The body of the right shift's loop at `i`. -/
def rightTurn (restShift i : Nat) (m : Mem) : Mem :=
  let (next, m) := m.read (i + 1)
  let bitsShift := next &&& bitmask restShift
  let (b, m) := m.read i
  let m := m.write i (b >>> restShift)
  let (b, m) := m.read i
  let m := m.write i (b &&& bitmask restShift)
  let (b, m) := m.read i
  m.write i (b ||| bitsShift <<< (8 - restShift))

/-- `for (i = i; i < i + n; i++)`. -/
def rightLoop (restShift : Nat) : (n i : Nat) → Mem → Mem
  | 0, _, m => m
  | n + 1, i, m => rightLoop restShift n (i + 1) (rightTurn restShift i m)

/-- The body of the left shift's loop at `i`. -/
def leftTurn (restShift i : Nat) (m : Mem) : Mem :=
  let mask := bitmask restShift <<< (8 - restShift)
  let (prev, m) := m.read (i - 1)
  let bitsShift := prev &&& mask
  let (b, m) := m.read i
  let m := m.write i (b <<< restShift)
  let (b, m) := m.read i
  let m := m.write i (b &&& mask)
  let (b, m) := m.read i
  m.write i (b ||| bitsShift >>> (8 - restShift))

/-- `for (i = n - 1; i >= 0; i--)`. -/
def leftLoop (restShift : Nat) : Nat → Mem → Mem
  | 0, m => m
  | n + 1, m => leftLoop restShift n (leftTurn restShift n m)

/-- `bitarray_shift`, which always returns 0. -/
def bitarrayShift (nrBits : Nat) (dir : Int) (bits : Nat) (m : Mem) : Mem :=
  let width := bitIdx nrBits
  let shiftWidthWords := if bitIdx bits > width then width else bitIdx bits
  let restShift := bitPos bits
  if width ≤ bits then m.clear 0 width
  else if dir = 1 then
    let m := rightLoop restShift (width - shiftWidthWords) shiftWidthWords m
    let m := m.move 0 shiftWidthWords (width - shiftWidthWords)
    m.clear (width - 1 - shiftWidthWords) shiftWidthWords
  else
    let m := leftLoop restShift (width - shiftWidthWords) m
    let m := m.move shiftWidthWords 0 (width - shiftWidthWords)
    m.clear 0 shiftWidthWords

/-- The bit `bitarray_get` answers with, for a position within the array. -/
def bit (m : Mem) (j : Nat) : Bool := (m.byte (bitIdx j)).getLsbD (bitPos j)

/-! ## Single bits -/

/-- Byte `i` of the array and its header as `bitarray_create` leaves them:
the `nr_bits` field, lowest byte first, and zeros. -/
def createdByte (nrBits : Nat) (i : Int) : BitVec 8 :=
  if i < 0 then BitVec.ofNat 8 (nrBits / 256 ^ (i + 4).toNat) else 0

/-- `bitarray_create`, given the memory around the block that `malloc` returns;
its result is not checked before the `memset`. -/
def bitarrayCreate (nrBits : Nat) (block : Option (Int → BitVec 8)) : CLang.Outcome (Option Mem) :=
  if nrBits % 8 ≠ 0 then .ok none
  else
    match block with
    | none => .error .null
    | some byte =>
      .ok (some ⟨fun i => if -4 ≤ i ∧ i < bitIdx nrBits then createdByte nrBits i else byte i, []⟩)

def einval : Int := 22

/-- `BIT_IDX` of an `int`, rounding down. -/
def byteIdx (bit : Int) : Int := bit / 8

/-- `BIT_POS` of an `int`. -/
def bytePos (bit : Int) : Nat := (bit % 8).toNat

def bitarraySet (nrBits : Nat) (bit : Int) (m : Mem) : Int × Mem :=
  if bit > nrBits then (-einval, m)
  else
    let (b, m) := m.read (byteIdx bit)
    (0, m.write (byteIdx bit) (b ||| 1#8 <<< bytePos bit))

def bitarrayGet (nrBits : Nat) (bit : Int) (m : Mem) : Int × Mem :=
  if bit > nrBits then (-einval, m)
  else
    let (b, m) := m.read (byteIdx bit)
    (if b &&& 1#8 <<< bytePos bit ≠ 0 then 1 else 0, m)

/-- A sequence of `bitarray_set` calls, with what they return. -/
def setAll (nrBits : Nat) : List Int → Mem → List Int × Mem
  | [], m => ([], m)
  | b :: bs, m =>
    let (r, m) := bitarraySet nrBits b m
    let (rs, m) := setAll nrBits bs m
    (r :: rs, m)

end SugarNSpice.BitArray
