/-
`malloc_stats_hcreate.c`: the allocation tracker again, over the C library's
`hsearch_r` and `tsearch` and an array of tags.

The library is modelled as documented: `hsearch_r` returns 0 where it fails,
for an entry that is not found or a table that is full, and the table
`hcreate_r` makes has room for `room` entries, some number of at least what it
was asked for; `tsearch` and its siblings keep a set of `alloc_data` ordered
by `ptr`. The code takes a negative return for the failure. Messages on
`stderr` are left out, and the tracker's own allocations are taken to succeed;
the code does not check them.
-/
import SugarNSpice.CLang
import SugarNSpice.MallocStats

namespace SugarNSpice.MallocStatsHcreate

open CLang
open MallocStats (Pointer AllocData Row Call)

def htableSz : Nat := 1024

structure AllocString (T : Type) where
  string : List (Option T)
  count : Nat

structure AllocStat where
  nrAllocs : BitVec 64
  nrFrees : BitVec 64

/-- `struct hsearch_data`: the entries, and how many more it has room for. -/
structure HsearchData (T : Type) where
  room : Nat
  data : T → Option AllocStat

structure Tables (T : Type) where
  allocStringTable : AllocString T
  allocTrackTable : Pointer → Option (AllocData T)
  allocStatTable : HsearchData T

variable {T : Type}

/-- `debug_init`, with the room `hcreate_r` has made. -/
def debugInit (room : Nat) : Tables T :=
  ⟨⟨List.replicate htableSz none, 0⟩, fun _ => none, ⟨room, fun _ => none⟩⟩

/-- `hsearch_r` with `FIND`: what it returns, and the entry's data. -/
def hsearchFind (htab : HsearchData T) (key : T) : Int × Option AllocStat :=
  match htab.data key with
  | some as => (1, some as)
  | none => (0, none)

/-- `hsearch_r` with `ENTER`: what it returns, and the table. -/
def hsearchEnter [DecidableEq T] (htab : HsearchData T) (key : T) (as : AllocStat) : Int × HsearchData T :=
  match htab.data key with
  | some _ => (1, htab)
  | none => if 0 < htab.room then (1, ⟨htab.room - 1, Function.update htab.data key (some as)⟩) else (0, htab)

/-- A change of the data an entry points to. -/
def HsearchData.write [DecidableEq T] (htab : HsearchData T) (key : T) (as : AllocStat) : HsearchData T :=
  { htab with data := Function.update htab.data key (some as) }

/-- `tsearch`: an element with the same `ptr` stays. -/
def tsearch (root : Pointer → Option (AllocData T)) (ad : AllocData T) : Pointer → Option (AllocData T) :=
  match root ad.ptr with
  | some _ => root
  | none => Function.update root ad.ptr (some ad)

variable [DecidableEq T]

def debugAlloc (g : Tables T) (ptr : Pointer) (size : Int) (str : T) : Outcome (Tables T) :=
  let (ret, item) := hsearchFind g.allocStatTable str
  if ret < 0 then .ok g else
  match item with
  | none =>
    let (ret, htab) := hsearchEnter g.allocStatTable str ⟨1, 0⟩
    if ret < 0 then .ok g else do
    let string ← store g.allocStringTable.string g.allocStringTable.count (some str)
    let count ← nat (g.allocStringTable.count + 1)
    .ok ⟨⟨string, count⟩, tsearch g.allocTrackTable ⟨str, ptr, size⟩, htab⟩
  | some as =>
    .ok { g with
      allocStatTable := g.allocStatTable.write str { as with nrAllocs := as.nrAllocs + 1 }
      allocTrackTable := tsearch g.allocTrackTable ⟨str, ptr, size⟩ }

def debugFree (g : Tables T) (ptr : Pointer) : Outcome (Tables T) :=
  match g.allocTrackTable ptr with
  | none => .error .abort
  | some ad =>
    let g := { g with allocTrackTable := Function.update g.allocTrackTable ptr none }
    let (ret, item) := hsearchFind g.allocStatTable ad.allocString
    if ret < 0 then .ok g else
    match item with
    | none => .ok g
    | some as =>
      .ok { g with allocStatTable := g.allocStatTable.write ad.allocString { as with nrFrees := as.nrFrees + 1 } }

/-- `print_stats` from its index `i` on, `n` before the count. -/
def printFrom (g : Tables T) : (n i : Nat) → Outcome (List (Row T))
  | 0, _ => .ok []
  | n + 1, i => do
    let allocString ← deref (← load g.allocStringTable.string i)
    let (ret, item) := hsearchFind g.allocStatTable allocString
    if ret < 0 then .ok [] else do
    let rest ← printFrom g n (i + 1)
    match item with
    | some as =>
      .ok (⟨allocString, as.nrAllocs.toNat, as.nrFrees.toNat, (as.nrAllocs - as.nrFrees).toNat⟩ :: rest)
    | none => .ok rest

def printStats (g : Tables T) : Outcome (List (Row T)) := printFrom g g.allocStringTable.count 0

/-- `do_alloc` or `do_free`, as far as the tables are concerned. -/
def call (g : Tables T) : Call T → Outcome (Tables T)
  | .doAlloc size s ptr => debugAlloc g ptr size s
  | .doFree ptr => debugFree g ptr

/-- The tables after a history. -/
def run (room : Nat) : List (Call T) → Outcome (Tables T)
  | [] => .ok (debugInit room)
  | c :: h => do call (← run room h) c

end SugarNSpice.MallocStatsHcreate
