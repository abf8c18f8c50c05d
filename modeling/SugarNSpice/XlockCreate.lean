/-
`xlock_create_open`: how a lock comes to be, next to processes that use it.

`xlock_create` makes the file of the lock and maps it, and then stores a 0 in
the word; `xlock_open` only maps it. Whoever gets a lock goes on with the
code of the lock and of a client. A process that touches the word while the
file has no bytes is killed by `SIGBUS`. The word of such a file counts as 0,
which is what `ftruncate` fills it with.

Descriptors 0 to 2 are taken to be open, so that an `open` that succeeds
returns more than 0. `malloc`, `ftruncate` and `mmap` are taken to succeed, and
so is `open` for a file that is there.
-/
import SugarNSpice.Xlock
import SugarNSpice.SharedFile

namespace SugarNSpice.XlockCreate

open Processes Xlock SharedFile

/-- Where a process is. `k` is its client's place, not yet left. -/
inductive Place (κ : Type) where
  /-- In `xlock_create_open`, before a system call. -/
  | call (st : Stage) (k : κ)
  /-- In `xlock_create`, before the store of 0. -/
  | store (k : κ)
  /-- `NULL` was returned. -/
  | null (k : κ)
  /-- The lock was returned. -/
  | ready (l : Local κ)
  | killed (l : Local κ)

/-- What is counted: locks returned by `xlock_create`, and the client's events. -/
inductive Event (ε : Type) where
  | created
  | client (e : ε)

/-- The lock's file, its word, and what else is shared. -/
structure Shared (P σ : Type) where
  file : File
  lock : Xlock.Shared P σ

def mapSz : Nat := 4096

variable {P σ κ ε : Type}

def Shared.clear (s : Shared P σ) : Shared P σ := { s with lock := { s.lock with word := 0 } }

/-- The steps of a process; `create` tells which ones call `xlock_create`. -/
inductive xlockCreateOpen (create : P → Bool) (C : Client P σ κ ε) : Program P (Shared P σ) (Place κ) (Event ε)
  | call {p s f st st' k} : mapFile mapSz s.file st f (.next st') →
      xlockCreateOpen create C p s (.call st k) none { s with file := f } (.call st' k)
  | null {p s f st k} : mapFile mapSz s.file st f .null →
      xlockCreateOpen create C p s (.call st k) none { s with file := f } (.null k)
  | mapped {p s f st k} : mapFile mapSz s.file st f .mapped →
      xlockCreateOpen create C p s (.call st k) none { s with file := f }
        (if create p then .store k else .ready ⟨k, .out⟩)
  | store {p s k} : s.file.bytes ≠ 0 →
      xlockCreateOpen create C p s (.store k) (some .created) s.clear (.ready ⟨k, .out⟩)
  | use {p s l e x l'} : (l.phase ≠ .out → s.file.bytes ≠ 0) → xlock C p s.lock l e x l' →
      xlockCreateOpen create C p s (.ready l) (e.map .client) { s with lock := x } (.ready l')
  | sigbusStore {p s k} : s.file.bytes = 0 → xlockCreateOpen create C p s (.store k) none s (.killed ⟨k, .out⟩)
  | sigbus {p s l} : l.phase ≠ .out → s.file.bytes = 0 →
      xlockCreateOpen create C p s (.ready l) none s (.killed l)

/-- No file yet, and every process about to call `xlock_create` or
`xlock_open`. -/
def absent (create : P → Bool) (rest : σ) (place : P → κ) : State P (Shared P σ) (Place κ) :=
  ⟨⟨none, 0, ∅, rest⟩, fun p => .call (first (create p)) (place p)⟩

def Place.home : Place κ → κ
  | .call _ k | .store k | .null k => k
  | .ready l | .killed l => l.place

/-- Between its swap that took the lock and the one that gives it back. -/
def Inside (C : Client P σ κ ε) (s : State P (Shared P σ) (Place κ)) (p : P) : Prop := C.inside (s.loc p).home

/-- What has to hold before a step, for the lock to work: `open` with
`O_CREAT` finds the name still absent, and the store of 0 finds no process
inside. -/
def Careful (C : Client P σ κ ε) (s : State P (Shared P σ) (Place κ)) (p : P) : Prop :=
  match s.loc p with
  | .call .creat _ => s.shared.file = none
  | .store _ => ∀ q, ¬ Inside C s q
  | _ => True

def Event.isCreated : Event ε → Bool
  | .created => true
  | .client _ => false

/-- How many calls of `xlock_create` have returned a lock. -/
def creates (tr : List (P × Event ε)) : Nat := tr.countP fun x => x.2.isCreated

end SugarNSpice.XlockCreate
