/-
`test_sparse_array.c`: an array indexed by any `int`, kept as two parallel
buffers, `indices` ascending and `objs[p]` the object at `indices[p]`.

The objects are pointers the code only copies, so their type is a parameter.
A null buffer is the empty list: any access to it is out of bounds. The
`debug_printf` lines print and change nothing; they are left out.
-/
import SugarNSpice.Loops

namespace SugarNSpice.SparseArray

open CLang

/-- The locals of `binary_search`'s loop. -/
structure Bounds where
  low : Nat
  high : Nat
  mid : Nat

/-- One turn of `binary_search`'s loop, which leaves `mid` behind. -/
def searchTurn (array : List Int) (data : Int) (s : Bounds) : Outcome (Turn Bounds Nat) :=
  if s.low < s.high then do
    let mid := s.low + (s.high - s.low) / 2
    let x ← load array mid
    if data = x then .ok (.done mid)
    else if data < x then .ok (.next { s with high := mid, mid := mid })
    else .ok (.next { s with low := mid + 1, mid := mid })
  else .ok (.done s.mid)

/-- `binary_search`: a position of `data`, or `~p` for the place `p` where it
would go. -/
def binarySearch (array : List Int) (data : Int) (length : Nat) : Outcome Int :=
  if length = 0 then .ok (bitNot 0)
  else do
    let mid ← loop (searchTurn array data) (length + 1) ⟨0, length, 0⟩
    let x ← load array mid
    if x = data then .ok mid
    else if data > x then .ok (bitNot (mid + 1))
    else .ok (bitNot mid)

structure SparseArrayT (α : Type) where
  objs : List α
  size : Nat
  indices : List Int
  nrObjs : Nat

/-- `SPARSE_ARRAY_INIT_LEN`. -/
def initLen : Nat := 64

def enomem : Int := 12

section

variable {α : Type}

/-- `sparse_array_create`: `self` is the `malloc` of the struct, the only one
whose result is checked. -/
def sparseArrayCreate (self : Bool) (ao : Alloc α) (ai : Alloc Int) : Option (SparseArrayT α) :=
  if self then
    some { objs := (ao.malloc initLen).getD [], size := initLen,
           indices := (ai.malloc initLen).getD [], nrObjs := 0 }
  else none

/-- The `realloc` part of `sparse_array_set`: the array with the local
`indices_arr` (unset unless the array was full), or the early return. -/
def growIfFull (sa : SparseArrayT α) (ai : Alloc Int) (ao : Alloc α) :
    Outcome (Except (SparseArrayT α × Int) (SparseArrayT α × Option (List Int))) :=
  if sa.nrObjs = sa.size then
    match ai.realloc sa.indices (sa.size * 2) with
    | none => .ok (.error (sa, -enomem))
    | some indicesArr =>
      match ao.realloc sa.objs (sa.size * 2) with
      | none => .ok (.error ({ sa with indices := indicesArr }, -enomem))
      | some objArr => do
        let size ← nat (sa.size * 2)
        .ok (.ok ({ sa with indices := indicesArr, objs := objArr, size }, some indicesArr))
  else .ok (.ok (sa, none))

/-- The rest of `sparse_array_set` for an index that was not found: both
buffers shifted up from `ret` on, the new pair put there. The `else` branch
stores without shifting. -/
def insertAt (sa : SparseArrayT α) (indicesArr : Option (List Int)) (ret : Nat) (index : Int) (obj : α) :
    Outcome (SparseArrayT α) := do
  let sa ←
    if ret < sa.size then do
      let indices ← memmove sa.indices (ret + 1) ret (sa.nrObjs - ret)
      let objs ← memmove sa.objs (ret + 1) ret (sa.nrObjs - ret)
      let indices ← store indices ret index
      let objs ← store objs ret obj
      .ok { sa with indices, objs }
    else
      match indicesArr with
      | none => .error .null
      | some indicesArr => do
        let indices ← store indicesArr ret index
        let objs ← store sa.objs ret obj
        .ok { sa with indices, objs }
  let nrObjs ← nat (sa.nrObjs + 1)
  .ok { sa with nrObjs }

/-- `sparse_array_set`, with its return value. -/
def sparseArraySet (sa : SparseArrayT α) (index : Int) (obj : α) (ai : Alloc Int) (ao : Alloc α) :
    Outcome (SparseArrayT α × Int) := do
  let ret ← binarySearch sa.indices index sa.nrObjs
  if ret < 0 then
    match ← growIfFull sa ai ao with
    | .error early => .ok early
    | .ok (sa, indicesArr) => do
      let sa ← insertAt sa indicesArr (bitNot ret).toNat index obj
      .ok (sa, 0)
  else do
    let objs ← store sa.objs ret.toNat obj
    .ok ({ sa with objs }, 0)

/-- `sparse_array_get`: the return value, and what `*obj` holds after it. -/
def sparseArrayGet (sa : SparseArrayT α) (index : Int) (obj : α) : Outcome (Int × α) := do
  let ret ← binarySearch sa.indices index sa.nrObjs
  if 0 ≤ ret then do
    let x ← load sa.objs ret.toNat
    .ok (0, x)
  else .ok (-1, obj)

/-- One call of `sparse_array_set`, with what the allocator does during it. -/
structure SetCall (α : Type) where
  index : Int
  obj : α
  ai : Alloc Int
  ao : Alloc α

/-- The calls in order, with their return values. -/
def runSets (sa : SparseArrayT α) : List (SetCall α) → Outcome (SparseArrayT α × List Int)
  | [] => .ok (sa, [])
  | c :: cs => do
    let (sa, r) ← sparseArraySet sa c.index c.obj c.ai c.ao
    let (sa, rs) ← runSets sa cs
    .ok (sa, r :: rs)

/-- The object of the most recent set of `q`. -/
def lastSet (cs : List (SetCall α)) (q : Int) : Option α := (cs.reverse.find? (·.index == q)).map (·.obj)

end

end SugarNSpice.SparseArray
