/-
`test_int_update.c`: threads that count in an `int`, with a mutex around
`update_int++` or without.

`update_int++` is a load and a store. With `WITH_LOCK` the calls around it take
a `pthread_mutex_t` and give it back; without, they are empty and the rest is
the same. `main` starts the threads and joins them, and then compares the
counter with `max_update_iters * nr_threads`. The addition wraps where the
machine's does. `pthread_create` is taken to succeed.
-/
import SugarNSpice.Guarded

namespace SugarNSpice.TestIntUpdate

open Processes

/-- `update_int` and `last_update_int`. -/
structure Ints where
  updateInt : BitVec 32
  lastUpdateInt : Nat

/-- Where a thread is in `update_int_thread`; `i` counts its turns. -/
inductive ThreadPc where
  /-- Before the store to `last_update_int`. -/
  | enter
  /-- At the head of the loop. -/
  | head (i : Nat)
  /-- Before the load of `update_int`. -/
  | load (i : Nat)
  /-- Before the store, with what was loaded. -/
  | store (i : Nat) (v : BitVec 32)
  /-- Before `update_int_unlock`. -/
  | leave (i : Nat)
  | ended

/-- A store to `update_int`. -/
inductive Event where
  | stored

variable {n : Nat}

/-- `update_int_thread`, but for the calls around `update_int++`. -/
inductive updateIntThread (maxUpdateIters : Nat) : Program (Fin n) Ints ThreadPc Event
  | enter {t x} : updateIntThread maxUpdateIters t x .enter none { x with lastUpdateInt := t } (.head 0)
  | load {t x i} : updateIntThread maxUpdateIters t x (.load i) none x (.store i x.updateInt)
  | store {t x i v} :
      updateIntThread maxUpdateIters t x (.store i v) (some .stored) { x with updateInt := v + 1 } (.leave i)
  | exit {t x i} : maxUpdateIters ≤ i → updateIntThread maxUpdateIters t x (.head i) none x .ended

/-- Between `update_int_lock` and `update_int_unlock`. -/
def ThreadPc.inside : ThreadPc → Prop
  | .load _ | .store _ _ | .leave _ => True
  | _ => False

/-- The thread, with where it calls `update_int_lock` and `update_int_unlock`. -/
def thread (n maxUpdateIters : Nat) : Client (Fin n) Ints ThreadPc Event where
  step := updateIntThread maxUpdateIters
  lock k k' := ∃ i, i < maxUpdateIters ∧ k = .head i ∧ k' = .load i
  unlock k k' := ∃ i, k = .leave i ∧ k' = .head (i + 1)
  inside := ThreadPc.inside
  step_inside h := by cases h <;> simp [ThreadPc.inside]
  lock_inside := by rintro k k' ⟨i, -, rfl, rfl⟩; simp [ThreadPc.inside]
  unlock_inside := by rintro k k' ⟨i, rfl, rfl⟩; simp [ThreadPc.inside]

/-- The threads without `WITH_LOCK`: the calls do nothing. -/
inductive unlocked (n maxUpdateIters : Nat) : Program (Fin n) Ints ThreadPc Event
  | own {t x k e x' k'} : (thread n maxUpdateIters).step t x k e x' k' → unlocked n maxUpdateIters t x k e x' k'
  | lock {t x k k'} : (thread n maxUpdateIters).lock k k' → unlocked n maxUpdateIters t x k none x k'
  | unlock {t x k k'} : (thread n maxUpdateIters).unlock k k' → unlocked n maxUpdateIters t x k none x k'

/-- All threads created, and nothing counted. -/
def start (n : Nat) : State (Fin n) Ints ThreadPc := ⟨⟨0, 0⟩, fun _ => .enter⟩

/-- A run with `WITH_LOCK`. -/
def LockedRun (n maxUpdateIters : Nat) : List (Fin n × Event) → State (Fin n) (Bool × Ints) ThreadPc → Prop :=
  Run (thread n maxUpdateIters).guarded ⟨(false, (start n).shared), (start n).loc⟩

/-- A run without it. -/
def UnlockedRun (n maxUpdateIters : Nat) : List (Fin n × Event) → State (Fin n) Ints ThreadPc → Prop :=
  Run (unlocked n maxUpdateIters) (start n)

/-- What `main` prints when all threads are joined. -/
def passed (n maxUpdateIters : Nat) (updateInt : BitVec 32) : Bool :=
  updateInt = BitVec.ofNat 32 maxUpdateIters * BitVec.ofNat 32 n

end SugarNSpice.TestIntUpdate
