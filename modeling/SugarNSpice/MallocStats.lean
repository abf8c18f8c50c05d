/-
`malloc_stats.c`: a count of allocations and frees under each tag, kept in
GLib tables.

A hash table is a map from its keys, compared as the table compares them (tags
as strings, pointers as they are), and the `GSList` is a list. The tracker's
own allocations are taken to succeed; the code does not check them.

A history is what a program does through `do_alloc` and `do_free`, and what
`malloc` returns to it: latest call first, so that a function of the history
is a recursion over it.
-/
import Mathlib.Logic.Function.Basic
import Mathlib.Data.List.Basic

namespace SugarNSpice.MallocStats

/-- A pointer that is not null. -/
abbrev Pointer := {p : BitVec 64 // p ≠ 0}

structure AllocData (T : Type) where
  allocString : T
  ptr : Pointer
  size : Int

structure AllocStat (T : Type) where
  nrAllocs : BitVec 64
  nrFrees : BitVec 64
  allocString : T

structure Tables (T : Type) where
  allocStringTable : List T
  allocTrackTable : Pointer → Option (AllocData T)
  allocStatTable : T → Option (AllocStat T)

/-- A line of `print_stats`: the tag and the three numbers `printf` is given,
as its conversions read them. -/
structure Row (T : Type) where
  allocString : T
  allocs : Int
  frees : Int
  diff : Int
  deriving DecidableEq

/-- A call, with the pointer `malloc` returns in `do_alloc`. -/
inductive Call (T : Type) where
  | doAlloc (size : Int) (s : T) (ptr : Pointer)
  | doFree (ptr : Pointer)

def debugInit {T : Type} : Tables T := ⟨[], fun _ => none, fun _ => none⟩

section Tracker

variable {T : Type} [DecidableEq T]

def debugAlloc (g : Tables T) (ptr : Pointer) (size : Int) (s : T) : Tables T :=
  match g.allocStatTable s with
  | some as =>
    { g with
      allocStatTable := Function.update g.allocStatTable s (some { as with nrAllocs := as.nrAllocs + 1 })
      allocTrackTable := Function.update g.allocTrackTable ptr (some ⟨as.allocString, ptr, size⟩) }
  | none =>
    { allocStatTable := Function.update g.allocStatTable s (some ⟨0 + 1, 0, s⟩)
      allocStringTable := g.allocStringTable ++ [s]
      allocTrackTable := Function.update g.allocTrackTable ptr (some ⟨s, ptr, size⟩) }

def debugFree (g : Tables T) (ptr : Pointer) : Tables T :=
  match g.allocTrackTable ptr with
  | none => g
  | some ad =>
    let stats := match g.allocStatTable ad.allocString with
      | some as =>
        Function.update g.allocStatTable ad.allocString (some { as with nrFrees := as.nrFrees + 1 })
      | none => g.allocStatTable
    { g with allocStatTable := stats, allocTrackTable := Function.update g.allocTrackTable ptr none }

/-- A 64-bit argument under `%d`: its low half, as an `int`. -/
def percentD (x : BitVec 64) : Int := (x.setWidth 32).toInt

def printStats (g : Tables T) : List (Row T) :=
  g.allocStringTable.filterMap fun allocString => (g.allocStatTable allocString).map fun as =>
    ⟨allocString, percentD as.nrAllocs, percentD as.nrFrees, percentD (as.nrAllocs - as.nrFrees)⟩

/-- `do_alloc` or `do_free`, as far as the tables are concerned. -/
def call (g : Tables T) : Call T → Tables T
  | .doAlloc size s ptr => debugAlloc g ptr size s
  | .doFree ptr => debugFree g ptr

/-- The tables after a history. -/
def run : List (Call T) → Tables T
  | [] => debugInit
  | c :: h => call (run h) c

end Tracker

/-! ## Histories -/

variable {T : Type}

/-- The tag a pointer was last allocated under, if it has not been freed. -/
def live : List (Call T) → Pointer → Option T
  | [] => fun _ => none
  | .doAlloc _ s ptr :: h => Function.update (live h) ptr (some s)
  | .doFree ptr :: h => Function.update (live h) ptr none

/-- `malloc` returns pointers that are not live, and `do_free` is given live
ones. -/
def Valid : List (Call T) → Prop
  | [] => True
  | .doAlloc _ _ ptr :: h => live h ptr = none ∧ Valid h
  | .doFree ptr :: h => live h ptr ≠ none ∧ Valid h

/-- The tags of the `do_alloc` calls, first call first. -/
def tags : List (Call T) → List T
  | [] => []
  | .doAlloc _ s _ :: h => tags h ++ [s]
  | .doFree _ :: h => tags h

/-- How many `do_alloc` calls have been made with `t`. -/
def allocs [DecidableEq T] (t : T) (h : List (Call T)) : Nat := (tags h).count t

/-- How many pointers allocated under `t` have been freed. -/
def frees [DecidableEq T] (t : T) : List (Call T) → Nat
  | [] => 0
  | .doAlloc _ _ _ :: h => frees t h
  | .doFree ptr :: h => frees t h + if live h ptr = some t then 1 else 0

end SugarNSpice.MallocStats
