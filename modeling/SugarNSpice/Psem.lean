/-
`psem.c`: the counting semaphore again, over a mutex and a condition variable
of `pthread`.

`psem_down` waits on `sem_cond` until it finds the count positive under
`sem_mutex`; `psem_up` increments it there and broadcasts after it has given
the mutex back. The mutex is taken and given back in one step each.
`pthread_cond_wait` gives it back and falls asleep in one step, may return at
any time, and takes the mutex again before it does; `pthread_cond_broadcast`
lets all sleepers go. The count is loaded and stored in separate steps, in
wrapping 32-bit arithmetic. What the threads do around the two calls is a
parameter, as for `xsem`, and so are the events.

Debug output is left out.
-/
import SugarNSpice.Xsem

namespace SugarNSpice.Psem

open Processes Xsem

/-- Where a thread is. `k` is its user's place, which `psem_down` changes at
the decrement and `psem_up` at the increment. -/
inductive Place (κ : Type) where
  /-- In its own code. -/
  | user (k : κ)
  /-- In `psem_down`, before `pthread_mutex_lock`. -/
  | downLock (k : κ)
  /-- Before the test of the count. -/
  | downTest (k : κ)
  | downLoad (k : κ)
  | downStore (v : BitVec 32) (k : κ)
  /-- After the decrement, before `pthread_mutex_unlock`. -/
  | downUnlock (k : κ)
  /-- Before the return. -/
  | downReturn (k : κ)
  /-- The count was not positive; before `pthread_cond_wait`. -/
  | downWait (k : κ)
  /-- In `pthread_cond_wait`. -/
  | downAsleep (k : κ)
  /-- Let go there, and before the mutex is taken again. -/
  | downRelock (k : κ)
  /-- In `psem_up`, before `pthread_mutex_lock`. -/
  | upLock (k : κ)
  | upLoad (k : κ)
  | upStore (v : BitVec 32) (k : κ)
  /-- After the increment, before `pthread_mutex_unlock`. -/
  | upUnlock (k : κ)
  /-- Before `pthread_cond_broadcast`. -/
  | upBroadcast (k : κ)

/-- `psem_t`: the count, whether `sem_mutex` is held, and the sleepers on
`sem_cond`; and whatever else the threads share. -/
structure Shared (P σ : Type) where
  count : BitVec 32
  held : Bool
  sleepers : Set P
  rest : σ

variable {P σ κ ε : Type}

/-- The steps of `psem_down` and `psem_up`, and of the users. -/
inductive psem (U : User P σ κ ε) : Program P (Shared P σ) (Place κ) (Event ε)
  | own {p s k e r k'} : U.step p s.rest k e r k' →
      psem U p s (.user k) (e.map .user) { s with rest := r } (.user k')
  | callDown {p s k k'} : U.down k k' → psem U p s (.user k) (some .callDown) s (.downLock k)
  | lockDown {p s k} : s.held = false → psem U p s (.downLock k) none { s with held := true } (.downTest k)
  | test {p s k} : 0 < s.count.toInt → psem U p s (.downTest k) none s (.downLoad k)
  | testFails {p s k} : ¬ 0 < s.count.toInt → psem U p s (.downTest k) none s (.downWait k)
  | loadDown {p s k} : psem U p s (.downLoad k) none s (.downStore s.count k)
  | decrement {p s k k' v} : U.down k k' →
      psem U p s (.downStore v k) (some .decrement) { s with count := v - 1 } (.downUnlock k')
  | unlockDown {p s k} : psem U p s (.downUnlock k) none { s with held := false } (.downReturn k)
  | returnDown {p s k} : psem U p s (.downReturn k) (some .returnDown) s (.user k)
  | condWait {p s k} :
      psem U p s (.downWait k) none { s with held := false, sleepers := insert p s.sleepers } (.downAsleep k)
  | condWaitWakes {p s k} :
      psem U p s (.downAsleep k) none { s with sleepers := s.sleepers \ {p} } (.downRelock k)
  | relockDown {p s k} : s.held = false → psem U p s (.downRelock k) none { s with held := true } (.downTest k)
  | callUp {p s k k'} : U.up k k' → psem U p s (.user k) none s (.upLock k)
  | lockUp {p s k} : s.held = false → psem U p s (.upLock k) none { s with held := true } (.upLoad k)
  | loadUp {p s k} : psem U p s (.upLoad k) none s (.upStore s.count k)
  | increment {p s k k' v} : U.up k k' →
      psem U p s (.upStore v k) (some .increment) { s with count := v + 1 } (.upUnlock k')
  | unlockUp {p s k} : psem U p s (.upUnlock k) none { s with held := false } (.upBroadcast k)
  | broadcast {p s k} : psem U p s (.upBroadcast k) none { s with sleepers := ∅ } (.user k)

/-- After `psem_create` with `c`, and no thread in a call. -/
def created (c : BitVec 32) (rest : σ) (place : P → κ) : State P (Shared P σ) (Place κ) :=
  ⟨⟨c, false, ∅, rest⟩, fun p => .user (place p)⟩

/-- A run of threads that use a semaphore created with `c`. -/
def Runs [DecidableEq P] (U : User P σ κ ε) (c : BitVec 32) (rest : σ) (place : P → κ) (tr : List (P × Event ε))
    (s : State P (Shared P σ) (Place κ)) : Prop :=
  Run (psem U) (created c rest place) tr s

end SugarNSpice.Psem
