/-
`test_sem.c`, with the `xsem` semaphore: processes that count between
`SEM_DOWN` and `SEM_UP`.

`check_count[0]++` is a load and a store of shared memory. The rest of the
section works on the process's own memory or sleeps, and is left out.
-/
import SugarNSpice.Xsem

namespace SugarNSpice.TestSem

open Processes

/-- Where a process is in `sem_test_thread`. -/
inductive Place where
  /-- Before `SEM_DOWN`, or after `SEM_UP`. -/
  | outside
  /-- In the section, before `check_count[0]` is loaded. -/
  | load
  | store (v : BitVec 32)
  /-- Before `SEM_UP`. -/
  | leave
  deriving DecidableEq, Repr

/-- `check_count[0]` was incremented. -/
inductive Event where
  | counted
  deriving DecidableEq, Repr

variable {P : Type}

/-- The section of `sem_test_thread`, on `check_count[0]`. -/
inductive semTestThread : Program P (BitVec 32) Place Event
  | load {p n} : semTestThread p n .load none n (.store n)
  | store {p n v} : semTestThread p n (.store v) (some .counted) (v + 1) .leave

/-- In the section. -/
def Place.inside (k : Place) : Prop := k ≠ .outside

/-- `sem_test_thread`, any number of times. -/
def semTest : Client P (BitVec 32) Place Event where
  step := semTestThread
  lock k k' := k = .outside ∧ k' = .load
  unlock k k' := k = .leave ∧ k' = .outside
  inside := Place.inside
  step_inside h := by cases h <;> simp [Place.inside]
  lock_inside := by rintro k k' ⟨rfl, rfl⟩; simp [Place.inside]
  unlock_inside := by rintro k k' ⟨rfl, rfl⟩; simp [Place.inside]

end SugarNSpice.TestSem
