/-
`wakeup_test.c`: threads that wait on one condition variable, and a `main` that
wakes them all at once, lets them print until the alarm, and then cancels and
joins them.

The steps are the calls of the threads library, of `alarm` and of `printf`, and
the accesses to `main_can_run`. A thread that leaves `pthread_cond_wait` takes
the mutex again first, also when it was cancelled there; it has no cleanup
handler, so it then ends with the mutex. `pthread_create` may fail, and leaves
its element of `my_threads` unset. A wait may end by itself, if the system is
one where that happens.
-/
import Mathlib.Data.Finset.Basic
import Mathlib.Data.Fintype.Basic
import Mathlib.Logic.Relation

namespace SugarNSpice.WakeupTest

inductive ThreadPc where
  | unborn
  /-- `pthread_create` has failed. -/
  | failed
  /-- Before `pthread_mutex_lock`. -/
  | lock
  /-- Before `pthread_cond_wait`, with the mutex. -/
  | wait
  | waiting
  /-- Woken, and about to take the mutex again. -/
  | woken
  /-- Cancelled in the wait, and about to take the mutex again. -/
  | quitting
  /-- Before `pthread_mutex_unlock`, with the mutex. -/
  | unlock
  | testcancel
  | printf
  | ended
deriving DecidableEq

inductive MainPc where
  /-- Before `pthread_create` of thread `i`. -/
  | create (i : Nat)
  | alarm
  | broadcast
  /-- Before the store to `main_can_run`. -/
  | setRun
  | loop
  /-- Before `pthread_cancel` of thread `i`. -/
  | cancel (i : Nat)
  /-- Before `pthread_join` of thread `i`. -/
  | join (i : Nat)
  | ended
  /-- After `pthread_cancel` of an element that was never set. -/
  | undefined (i : Nat)

structure World (n : Nat) where
  main : MainPc
  thread : Fin n → ThreadPc
  /-- The owner of `my_mutex`. -/
  mutex : Option (Fin n)
  cancelled : Finset (Fin n)
  /-- Whether `SIGALRM` is still to come. -/
  alarm : Bool
  canRun : Bool

variable {n : Nat}

/-- Thread `t` goes to another place. -/
def World.goes (w : World n) (t : Fin n) (k : ThreadPc) : World n := { w with thread := Function.update w.thread t k }

@[simp] theorem World.goes_main (w : World n) (t : Fin n) (k : ThreadPc) : (w.goes t k).main = w.main := rfl

@[simp] theorem World.goes_mutex (w : World n) (t : Fin n) (k : ThreadPc) : (w.goes t k).mutex = w.mutex := rfl

@[simp] theorem World.goes_cancelled (w : World n) (t : Fin n) (k : ThreadPc) : (w.goes t k).cancelled = w.cancelled := rfl

/-- All threads in `pthread_cond_wait` are woken. -/
def World.woken (w : World n) : World n :=
  { w with thread := fun t => if w.thread t = .waiting then .woken else w.thread t }

inductive myThreadRoutine (spurious : Bool) (t : Fin n) : World n → World n → Prop
  | lock {w} : w.thread t = .lock → w.mutex = none →
      myThreadRoutine spurious t w { w.goes t .wait with mutex := some t }
  | wait {w} : w.thread t = .wait → myThreadRoutine spurious t w { w.goes t .waiting with mutex := none }
  | spurious {w} : spurious = true → w.thread t = .waiting → myThreadRoutine spurious t w (w.goes t .woken)
  | cancelled {w} : w.thread t = .waiting → t ∈ w.cancelled → myThreadRoutine spurious t w (w.goes t .quitting)
  | relock {w} : w.thread t = .woken → w.mutex = none →
      myThreadRoutine spurious t w { w.goes t .unlock with mutex := some t }
  | quit {w} : w.thread t = .quitting → w.mutex = none →
      myThreadRoutine spurious t w { w.goes t .ended with mutex := some t }
  | unlock {w} : w.thread t = .unlock → myThreadRoutine spurious t w { w.goes t .testcancel with mutex := none }
  | testcancel {w} : w.thread t = .testcancel → t ∈ w.cancelled → myThreadRoutine spurious t w (w.goes t .ended)
  | goOn {w} : w.thread t = .testcancel → t ∉ w.cancelled → myThreadRoutine spurious t w (w.goes t .printf)
  | printf {w} : w.thread t = .printf → myThreadRoutine spurious t w (w.goes t .testcancel)
  /-- `printf` may act on a cancellation too. -/
  | printfCancelled {w} : w.thread t = .printf → t ∈ w.cancelled → myThreadRoutine spurious t w (w.goes t .ended)

/-- The steps of `main`, with `secs` for `my_sleep_time`. -/
inductive mainStep (secs : Nat) : World n → World n → Prop
  | created {w i} (h : i < n) : w.main = .create i →
      mainStep secs w { w.goes ⟨i, h⟩ .lock with main := .create (i + 1) }
  | createFailed {w i} (h : i < n) : w.main = .create i →
      mainStep secs w { w.goes ⟨i, h⟩ .failed with main := .create (i + 1) }
  | createEnd {w i} : w.main = .create i → ¬ i < n → mainStep secs w { w with main := .alarm }
  | alarm {w} : w.main = .alarm → mainStep secs w { w with main := .broadcast, alarm := secs != 0 }
  | broadcast {w} : w.main = .broadcast → mainStep secs w { w.woken with main := .setRun }
  | setRun {w} : w.main = .setRun → mainStep secs w { w with main := .loop, canRun := true }
  | loop {w} : w.main = .loop → w.canRun = true → mainStep secs w w
  | loopEnd {w} : w.main = .loop → w.canRun = false → mainStep secs w { w with main := .cancel 0 }
  | cancel {w i} (h : i < n) : w.main = .cancel i → w.thread ⟨i, h⟩ ≠ .failed →
      mainStep secs w { w with main := .cancel (i + 1), cancelled := insert ⟨i, h⟩ w.cancelled }
  | cancelUnset {w i} (h : i < n) : w.main = .cancel i → w.thread ⟨i, h⟩ = .failed →
      mainStep secs w { w with main := .undefined i }
  | cancelEnd {w i} : w.main = .cancel i → ¬ i < n → mainStep secs w { w with main := .join 0 }
  | join {w i} (h : i < n) : w.main = .join i → w.thread ⟨i, h⟩ = .ended →
      mainStep secs w { w with main := .join (i + 1) }
  | joinEnd {w i} : w.main = .join i → ¬ i < n → mainStep secs w { w with main := .ended }

inductive Step (secs : Nat) (spurious : Bool) : World n → World n → Prop
  | main {w w'} : mainStep secs w w' → Step secs spurious w w'
  | thread {w w'} (t : Fin n) : myThreadRoutine spurious t w w' → Step secs spurious w w'
  /-- `sig_alrm_h`, in whichever thread the signal comes to. -/
  | sigAlrm {w} : w.alarm = true → Step secs spurious w { w with alarm := false, canRun := false }

def Runs (secs : Nat) (spurious : Bool) : World n → World n → Prop := Relation.ReflTransGen (Step secs spurious)

def start (n : Nat) : World n := ⟨.create 0, fun _ => .unborn, none, ∅, false, false⟩

/-! ## When `main` can come to its end -/

/-- Whether `pthread_cond_broadcast` has been called. -/
def MainPc.hasBroadcast : MainPc → Bool
  | .create _ | .alarm | .broadcast => false
  | _ => true

/-- The alarm has not come too early, and is or will be set. -/
def Rings (secs : Nat) (w : World n) : Prop :=
  match w.main with
  | .create _ | .alarm => secs ≠ 0
  | .broadcast | .setRun => w.alarm = true
  | .loop => w.canRun = true → w.alarm = true
  | _ => True

/-- A thread that only cancellation can get out of its wait, or that has been
cancelled in it. -/
def Lost (spurious : Bool) (w : World n) (t : Fin n) : Prop :=
  w.thread t = .quitting ∨ (w.thread t = .ended ∧ w.mutex = some t) ∨
    (spurious = false ∧ w.main.hasBroadcast = true ∧
      (w.thread t = .lock ∨ w.thread t = .wait ∨ w.thread t = .waiting))

/-- A thread that has no more use for the mutex. -/
def ThreadPc.Past : ThreadPc → Prop
  | .testcancel | .printf | .ended => True
  | _ => False

/-- All threads were created, the alarm comes in time, at most one thread is
lost, and once that one has ended with the mutex the others are past it. -/
structure CanEnd (secs : Nat) (spurious : Bool) (w : World n) : Prop where
  created : ∀ t, w.thread t ≠ .failed
  rings : Rings secs w
  lost : ∀ t u, Lost spurious w t → Lost spurious w u → t = u
  past : ∀ t u, w.thread t = .ended → w.mutex = some t → u ≠ t → (w.thread u).Past

end SugarNSpice.WakeupTest
