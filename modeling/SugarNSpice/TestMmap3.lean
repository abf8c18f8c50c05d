/-
`test_mmap3.c`: threads made with `clone`, which `main` starts and ends with
two futexes.

A thread sleeps on `thread_start` until `main` has woken it, then on
`thread_done`; woken there, it adds one to `thread_done` and wakes another
sleeper, trying until there is one. `main` wakes the first, and when it sees
that all but one have counted it wakes once more and sleeps on `thread_done`
itself. The steps are the loads, stores and futex calls; `FUTEX_WAKE` lets one
sleeper go if there is one. A call of `FUTEX_WAIT` fails if the word is not as
expected, and may be interrupted at any time.

`clone` and `mmap` are taken to succeed: all threads are there at the start,
and the loop of `mmap` calls before the first wait is left out.
-/
import SugarNSpice.Processes
import Mathlib.Data.Finset.Card
import Mathlib.Data.Fintype.Basic

namespace SugarNSpice.TestMmap3

open Processes

/-- Where a thread is in `do_inf_mmap`. -/
inductive ThreadPc where
  /-- Before `FUTEX_WAIT` on `thread_start`. -/
  | startWait
  | startAsleep
  /-- Before the load of `thread_done` for `FUTEX_WAIT`. -/
  | load
  /-- Before `FUTEX_WAIT` on `thread_done`. -/
  | wait (v : Int)
  | asleep
  /-- Before the load of `thread_done` for the addition. -/
  | incLoad
  | incStore (v : Int)
  /-- Before `FUTEX_WAKE`. -/
  | wake
  | returned

/-- Where `main` is, with all threads created. -/
inductive MainPc where
  | incLoad
  | incStore (v : Int)
  /-- Before the store to `thread_start`. -/
  | setStart
  /-- Before `FUTEX_WAKE` on `thread_start`. -/
  | wakeStart (nrWoke : Nat)
  /-- Before `FUTEX_WAKE` on `thread_done`, in the loop. -/
  | wakeDone
  /-- Before the load of `thread_done` for the comparison. -/
  | poll
  /-- Before the last `FUTEX_WAKE`. -/
  | lastWake
  | lastLoad
  | lastWait (v : Int)
  | lastAsleep
  | ended

inductive Pc where
  | main (m : MainPc)
  | thread (k : ThreadPc)

/-- What is counted: a wait on `thread_done` that ended without a wake, and a
thread woken by `main`'s last `FUTEX_WAKE`. -/
inductive Event where
  | unwoken
  | lastWoke

/-- The two words, and who sleeps on them. -/
structure Shared (n : Nat) where
  threadStart : Int
  threadDone : Int
  startQueue : Finset (Option (Fin n))
  doneQueue : Finset (Option (Fin n))

variable {n : Nat}

/-- The steps of thread `t`, from the loop of waits on. -/
inductive doInfMmap (t : Fin n) : Shared n → ThreadPc → Option Event → Shared n → ThreadPc → Prop
  | startAgain {sh} : sh.threadStart ≠ 1 → doInfMmap t sh .startWait none sh .startWait
  | startWait {sh} : sh.threadStart = 1 →
      doInfMmap t sh .startWait none { sh with startQueue := insert (some t) sh.startQueue } .startAsleep
  | startInterrupted {sh} : some t ∈ sh.startQueue →
      doInfMmap t sh .startAsleep none { sh with startQueue := sh.startQueue.erase (some t) } .startWait
  | startWoken {sh} : some t ∉ sh.startQueue → doInfMmap t sh .startAsleep none sh .load
  | load {sh} : doInfMmap t sh .load none sh (.wait sh.threadDone)
  | wait {sh v} : sh.threadDone = v →
      doInfMmap t sh (.wait v) none { sh with doneQueue := insert (some t) sh.doneQueue } .asleep
  | waitAgain {sh v} : sh.threadDone ≠ v → doInfMmap t sh (.wait v) (some .unwoken) sh .incLoad
  | interrupted {sh} : some t ∈ sh.doneQueue →
      doInfMmap t sh .asleep (some .unwoken) { sh with doneQueue := sh.doneQueue.erase (some t) } .incLoad
  | woken {sh} : some t ∉ sh.doneQueue → doInfMmap t sh .asleep none sh .incLoad
  | incLoad {sh} : doInfMmap t sh .incLoad none sh (.incStore sh.threadDone)
  | incStore {sh v} : doInfMmap t sh (.incStore v) none { sh with threadDone := v + 1 } .wake
  | wakeNone {sh} : sh.doneQueue = ∅ → doInfMmap t sh .wake none sh .wake
  | wake {sh q} : q ∈ sh.doneQueue → doInfMmap t sh .wake none { sh with doneQueue := sh.doneQueue.erase q } .returned

/-- The steps of `main`, with `n` for `nr_threads`. -/
inductive mainStep : Shared n → MainPc → Option Event → Shared n → MainPc → Prop
  | incLoad {sh} : mainStep sh .incLoad none sh (.incStore sh.threadDone)
  | incStore {sh v} : mainStep sh (.incStore v) none { sh with threadDone := v + 1 } .setStart
  | setStart {sh} : mainStep sh .setStart none { sh with threadStart := 1 } (.wakeStart 0)
  | wakeStartNone {sh k} : sh.startQueue = ∅ →
      mainStep sh (.wakeStart k) none sh (if k < n then .wakeStart k else .wakeDone)
  | wakeStart {sh k q} : q ∈ sh.startQueue →
      mainStep sh (.wakeStart k) none { sh with startQueue := sh.startQueue.erase q }
        (if k + 1 < n then .wakeStart (k + 1) else .wakeDone)
  | wakeDoneNone {sh} : sh.doneQueue = ∅ → mainStep sh .wakeDone none sh .wakeDone
  | wakeDone {sh q} : q ∈ sh.doneQueue →
      mainStep sh .wakeDone none { sh with doneQueue := sh.doneQueue.erase q } .poll
  | pollAgain {sh} : sh.threadDone < (n : Int) → mainStep sh .poll none sh .poll
  | poll {sh} : ¬ sh.threadDone < (n : Int) → mainStep sh .poll none sh .lastWake
  | lastWakeNone {sh} : sh.doneQueue = ∅ → mainStep sh .lastWake none sh .lastLoad
  | lastWake {sh q} : q ∈ sh.doneQueue →
      mainStep sh .lastWake (some .lastWoke) { sh with doneQueue := sh.doneQueue.erase q } .lastLoad
  | lastLoad {sh} : mainStep sh .lastLoad none sh (.lastWait sh.threadDone)
  | lastWait {sh v} : sh.threadDone = v →
      mainStep sh (.lastWait v) none { sh with doneQueue := insert none sh.doneQueue } .lastAsleep
  | lastWaitAgain {sh v} : sh.threadDone ≠ v → mainStep sh (.lastWait v) (some .unwoken) sh .ended
  | lastInterrupted {sh} : none ∈ sh.doneQueue →
      mainStep sh .lastAsleep (some .unwoken) { sh with doneQueue := sh.doneQueue.erase none } .ended
  | lastWoken {sh} : none ∉ sh.doneQueue → mainStep sh .lastAsleep none sh .ended

/-- `main` is `none`, the threads are the others. -/
inductive program : Program (Option (Fin n)) (Shared n) Pc Event
  | main {sh k e sh' k'} : mainStep sh k e sh' k' → program none sh (.main k) e sh' (.main k')
  | thread {t sh k e sh' k'} : doInfMmap t sh k e sh' k' → program (some t) sh (.thread k) e sh' (.thread k')

/-- `main` has created all threads. -/
def start (n : Nat) : State (Option (Fin n)) (Shared n) Pc :=
  ⟨⟨0, 0, ∅, ∅⟩, fun p => if p = none then .main .incLoad else .thread .startWait⟩

def Runs (n : Nat) : List (Option (Fin n) × Event) → State (Option (Fin n)) (Shared n) Pc → Prop := Run program (start n)

/-- `main` has come to its end, and every thread has returned. -/
def Finished (s : State (Option (Fin n)) (Shared n) Pc) : Prop :=
  s.loc none = .main .ended ∧ ∀ t, s.loc (some t) = .thread .returned

end SugarNSpice.TestMmap3
