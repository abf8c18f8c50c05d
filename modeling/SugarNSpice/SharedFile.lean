/-
Files that processes share under a name: one makes the file and gives it its
size, others open and map it.

A process that makes the file looks for the name first, and gives up if there
is one; then it creates it, sets its size, and goes on like the others, who
open the name and map what they find. Each system call is a step of its own.
Nothing keeps two processes from both finding the name absent, and nothing
keeps a process from mapping a file that has no size yet.
-/
import Mathlib.Logic.Basic

namespace SharedFile

/-- What stands under a name: nothing, or a file of so many bytes. -/
abbrev File := Option Nat

/-- How many bytes there are to touch. -/
def File.bytes (f : File) : Nat := f.getD 0

/-- Before which system call a process is. -/
inductive Stage where
  /-- Before the `open` that looks for the name. -/
  | probe
  /-- Before `open` with `O_CREAT`, without `O_EXCL`. -/
  | creat
  /-- Before `ftruncate`. -/
  | truncate
  /-- Before the `open` whose descriptor is mapped. -/
  | reopen
  /-- Before `mmap`. -/
  | map
  deriving DecidableEq, Repr

/-- What a call comes to: the next one, a return of `NULL`, or the mapping. -/
inductive Outcome where
  | next (st : Stage)
  | null
  | mapped

/-- The system calls, for a file of `size` bytes. -/
inductive mapFile (size : Nat) : File → Stage → File → Outcome → Prop
  | probeFinds {f} : f ≠ none → mapFile size f .probe f .null
  | probe {f} : f = none → mapFile size f .probe f (.next .creat)
  | creat {f} : mapFile size f .creat (some f.bytes) (.next .truncate)
  | truncate {f} : mapFile size f .truncate (some size) (.next .reopen)
  | reopenFails {f} : f = none → mapFile size f .reopen f .null
  | reopen {f} : f ≠ none → mapFile size f .reopen f (.next .map)
  | map {f} : mapFile size f .map f .mapped

/-- Where a process begins that is to make the file, or only to open it. -/
def first (create : Bool) : Stage := if create then .probe else .reopen

variable {size : Nat} {f f' : File} {st : Stage} {o : Outcome}

theorem mapFile.bytes_ne_zero (h : mapFile size f st f' o) (hsize : size ≠ 0) (hf : f.bytes ≠ 0) : f'.bytes ≠ 0 := by
  cases h with
  | truncate => exact hsize
  | _ => exact hf

end SharedFile
