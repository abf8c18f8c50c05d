/-
`xsem.c`: a counting semaphore, an `int` in shared memory behind an `xlock`.

`xsem_down` takes `sem_lock`, decrements the count if it is positive, and
else gives the lock back, sleeps while the count is 0 and starts over.
`xsem_up` increments the count under the lock and wakes after it has given
the lock back. The count is loaded and stored in separate steps, in wrapping
32-bit arithmetic. The semaphore is a client of the lock, and what its own
users do around the two calls is a parameter again.

The semaphore has been created; making it is not modelled here. Debug output
is left out.
-/
import SugarNSpice.Xlock

namespace SugarNSpice.Xsem

open Processes Xlock

/-- A user of the semaphore: its own steps, and where it calls `xsem_down` and
`xsem_up`. -/
structure User (P σ κ ε : Type) where
  step : Program P σ κ ε
  down : κ → κ → Prop
  up : κ → κ → Prop

/-- Where a process is, between calls of the lock. `k` is its user's place,
which `xsem_down` changes at the decrement and `xsem_up` at the increment. -/
inductive Place (κ : Type) where
  /-- In its own code. -/
  | user (k : κ)
  /-- In `xsem_down`, before `xlock_lock`. -/
  | downLock (k : κ)
  /-- Before the test of the count. -/
  | downTest (k : κ)
  | downLoad (k : κ)
  | downStore (v : BitVec 32) (k : κ)
  /-- After the decrement, before `xlock_unlock`. -/
  | downUnlock (k : κ)
  /-- Before the return. -/
  | downReturn (k : κ)
  /-- The count was not positive; before `xlock_unlock`. -/
  | downRelease (k : κ)
  /-- Before `FUTEX_WAIT`. -/
  | downWait (k : κ)
  /-- In `FUTEX_WAIT`. -/
  | downAsleep (k : κ)
  /-- In `xsem_up`, before `xlock_lock`. -/
  | upLock (k : κ)
  | upLoad (k : κ)
  | upStore (v : BitVec 32) (k : κ)
  /-- After the increment, before `xlock_unlock`. -/
  | upUnlock (k : κ)
  /-- Before `FUTEX_WAKE`. -/
  | upWake (k : κ)

/-- What is counted: calls of `xsem_down`, its decrements and returns,
increments, and the user's own events. -/
inductive Event (ε : Type) where
  | callDown
  | decrement
  | returnDown
  | increment
  | user (e : ε)
  deriving DecidableEq

/-- The count, the kernel's queue of sleepers on it, and whatever else the
users share. -/
structure Sem (P σ : Type) where
  count : BitVec 32
  queue : Set P
  rest : σ

variable {P σ κ ε : Type}

/-- The steps of `xsem_down` and `xsem_up`, and of the users. -/
inductive xsemStep (U : User P σ κ ε) : Program P (Sem P σ) (Place κ) (Event ε)
  | own {p s k e r k'} : U.step p s.rest k e r k' →
      xsemStep U p s (.user k) (e.map .user) { s with rest := r } (.user k')
  | callDown {p s k k'} : U.down k k' → xsemStep U p s (.user k) (some .callDown) s (.downLock k)
  | test {p s k} : 0 < s.count.toInt → xsemStep U p s (.downTest k) none s (.downLoad k)
  | testFails {p s k} : ¬ 0 < s.count.toInt → xsemStep U p s (.downTest k) none s (.downRelease k)
  | loadDown {p s k} : xsemStep U p s (.downLoad k) none s (.downStore s.count k)
  | decrement {p s k k' v} : U.down k k' →
      xsemStep U p s (.downStore v k) (some .decrement) { s with count := v - 1 } (.downUnlock k')
  | returnDown {p s k} : xsemStep U p s (.downReturn k) (some .returnDown) s (.user k)
  | futexWait {p s k} : s.count = 0 →
      xsemStep U p s (.downWait k) none { s with queue := insert p s.queue } (.downAsleep k)
  | futexWaitAgain {p s k} : s.count ≠ 0 → xsemStep U p s (.downWait k) none s (.downLock k)
  | futexWaitReturns {p s k} :
      xsemStep U p s (.downAsleep k) none { s with queue := s.queue \ {p} } (.downLock k)
  | callUp {p s k k'} : U.up k k' → xsemStep U p s (.user k) none s (.upLock k)
  | loadUp {p s k} : xsemStep U p s (.upLoad k) none s (.upStore s.count k)
  | increment {p s k k' v} : U.up k k' →
      xsemStep U p s (.upStore v k) (some .increment) { s with count := v + 1 } (.upUnlock k')
  | futexWake {p s k q} : FutexWakes s.queue q → xsemStep U p s (.upWake k) none { s with queue := q } (.user k)

/-- The calls of `xlock_lock(x->sem_lock)`. -/
inductive lockCall : Place κ → Place κ → Prop
  | down {k} : lockCall (.downLock k) (.downTest k)
  | up {k} : lockCall (.upLock k) (.upLoad k)

/-- The calls of `xlock_unlock(x->sem_lock)`. -/
inductive unlockCall : Place κ → Place κ → Prop
  | down {k} : unlockCall (.downUnlock k) (.downReturn k)
  | release {k} : unlockCall (.downRelease k) (.downWait k)
  | up {k} : unlockCall (.upUnlock k) (.upWake k)

/-- With `sem_lock` taken. -/
def Place.inside : Place κ → Prop
  | .downTest _ | .downLoad _ | .downStore _ _ | .downUnlock _ | .downRelease _
  | .upLoad _ | .upStore _ _ | .upUnlock _ => True
  | _ => False

/-- The semaphore as a client of its lock. -/
def xsem (U : User P σ κ ε) : Client P (Sem P σ) (Place κ) (Event ε) where
  step := xsemStep U
  lock := lockCall
  unlock := unlockCall
  inside := Place.inside
  step_inside h := by cases h <;> simp [Place.inside]
  lock_inside h := by cases h <;> simp [Place.inside]
  unlock_inside h := by cases h <;> simp [Place.inside]

/-- A semaphore created with `c`, its lock free, and no process in a call. -/
def created (c : BitVec 32) (rest : σ) (place : P → κ) : State P (Shared P (Sem P σ)) (Local (Place κ)) :=
  start ⟨c, ∅, rest⟩ fun p => .user (place p)

/-- A run of processes that use a semaphore created with `c`. -/
def Runs [DecidableEq P] (U : User P σ κ ε) (c : BitVec 32) (rest : σ) (place : P → κ) (tr : List (P × Event ε))
    (s : State P (Shared P (Sem P σ)) (Local (Place κ))) : Prop :=
  Run (xlock (xsem U)) (created c rest place) tr s

end SugarNSpice.Xsem
