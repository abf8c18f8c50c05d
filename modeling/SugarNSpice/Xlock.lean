/-
`xlock.c`: a lock made of one shared `int` and the kernel's futex calls.

`xlock_lock` tries to swap the word from 0 to 1 and else sleeps while it is
1; `xlock_unlock` swaps it back and wakes. The steps are those of the code:
each compare-and-swap, each futex call. A sleeper may be let go at any time,
and `FUTEX_WAKE`, called with -1, is only taken to wake at least one if there
is one. What the processes do with the lock is a parameter, a `Client`.

The lock exists and is mapped by every process; making it is not modelled
here. The debug hooks are empty as the code is compiled.
-/
import SugarNSpice.Guarded
import Mathlib.Data.Set.Basic

namespace SugarNSpice.Xlock

open Processes

/-- Where a process is in the lock's code. -/
inductive Phase where
  /-- In its own code. -/
  | out
  /-- In `xlock_lock`, before `raw_lock_it`. -/
  | lockCas
  /-- In `xlock_lock`, before `FUTEX_WAIT`. -/
  | lockWait
  /-- In `xlock_lock`'s `FUTEX_WAIT`. -/
  | lockAsleep
  /-- In `xlock_unlock`, before `raw_unlock_it`. -/
  | unlockCas
  /-- In `xlock_unlock`, before `FUTEX_WAKE`. -/
  | unlockWake
  deriving DecidableEq, Repr

/-- A process: its own place, which a call of the lock's functions changes at
the swap that succeeds, and its place in the lock's code. -/
structure Local (κ : Type) where
  place : κ
  phase : Phase

/-- The lock's word, the kernel's queue of sleepers on it, and whatever else
is shared. -/
structure Shared (P σ : Type) where
  word : Int
  queue : Set P
  rest : σ

/-- `FUTEX_WAKE`: some sleepers are let go, at least one if there is one. -/
def FutexWakes {P : Type} (queue queue' : Set P) : Prop := queue' ⊆ queue ∧ (queue.Nonempty → queue' ≠ queue)

variable {P σ κ ε : Type}

/-- The steps of a process that uses the lock. -/
inductive xlock (C : Client P σ κ ε) : Program P (Shared P σ) (Local κ) ε
  | own {p s k e r k'} : C.step p s.rest k e r k' → xlock C p s ⟨k, .out⟩ e { s with rest := r } ⟨k', .out⟩
  | callLock {p s k k'} : C.lock k k' → xlock C p s ⟨k, .out⟩ none s ⟨k, .lockCas⟩
  | rawLockIt {p s k k'} : s.word = 0 → C.lock k k' →
      xlock C p s ⟨k, .lockCas⟩ none { s with word := 1 } ⟨k', .out⟩
  | rawLockItFails {p s k} : s.word ≠ 0 → xlock C p s ⟨k, .lockCas⟩ none s ⟨k, .lockWait⟩
  | futexWait {p s k} : s.word = 1 →
      xlock C p s ⟨k, .lockWait⟩ none { s with queue := insert p s.queue } ⟨k, .lockAsleep⟩
  | futexWaitAgain {p s k} : s.word ≠ 1 → xlock C p s ⟨k, .lockWait⟩ none s ⟨k, .lockCas⟩
  | futexWaitReturns {p s k} : xlock C p s ⟨k, .lockAsleep⟩ none { s with queue := s.queue \ {p} } ⟨k, .lockCas⟩
  | callUnlock {p s k k'} : C.unlock k k' → xlock C p s ⟨k, .out⟩ none s ⟨k, .unlockCas⟩
  | rawUnlockIt {p s k k'} : s.word = 1 → C.unlock k k' →
      xlock C p s ⟨k, .unlockCas⟩ none { s with word := 0 } ⟨k', .unlockWake⟩
  | rawUnlockItFails {p s k} : s.word ≠ 1 → xlock C p s ⟨k, .unlockCas⟩ none s ⟨k, .unlockCas⟩
  | futexWake {p s k q} : FutexWakes s.queue q →
      xlock C p s ⟨k, .unlockWake⟩ none { s with queue := q } ⟨k, .out⟩

/-- A free lock that no process is using. -/
def start (rest : σ) (place : P → κ) : State P (Shared P σ) (Local κ) :=
  ⟨⟨0, ∅, rest⟩, fun p => ⟨place p, .out⟩⟩

/-- In `xlock_lock`'s loop. -/
def Phase.locking : Phase → Prop
  | .lockCas | .lockWait | .lockAsleep => True
  | _ => False

end SugarNSpice.Xlock
