/-
`gen_init_cpio.c`, from the creation of the workers to `exit`: what becomes of
an error.

A worker has an `ec` of its own, set when a handler fails or a line has no
type or no arguments. It returns no value; `main`'s `pthread_join` puts what
there is into `tret`, not into `ret`, which stays 0. `main` has another `ec`,
which only `pthread_create` sets. `__exit` writes the trailer if that is 0 and
exits with it.

Between `__exit` and the end of the process, workers that have not been joined
run on in memory that `main` is giving back; that is left out.
-/
import SugarNSpice.GenInitCpio

namespace SugarNSpice.GenInitCpio

open Cpio Processes

/-- The worker's `ec` after a line of its own. -/
def lineEc (ec : Int) : Action → Int
  | .stop | .noArgs _ | .fail => -1
  | .skip | .unknown | .emit _ => ec

/-- The worker's `ec` after its next step. -/
def WorkerPc.nextEc (job : Job) (n t : Nat) (ec : Int) : WorkerPc → Int
  | .line i =>
    match job.table[i]? with
    | some text => if owner n i = t then lineEc ec (action job.files text) else ec
    | none => ec
  | _ => ec

/-- Where `main` is, with its `ec`. -/
inductive ExitMain where
  /-- Before `mkstemp` for worker `i`. -/
  | create (i : Nat)
  /-- In the loop of the joins. -/
  | collect (m : MainPc)
  /-- At `__exit`. -/
  | leave (ec : Int)
  /-- The process has exited; whether it wrote the trailer. -/
  | exited (ec : Int) (trailer : Bool)

inductive ExitPc where
  | main (m : ExitMain)
  | worker (w : WorkerPc) (ec : Int)

/-- What the system does to `main`. -/
inductive ExitEvent where
  /-- `mkstemp` or `fdopen` failed. -/
  | tmpFails
  | createFails

/-- What is shared, which workers have been created, and whether the process
has exited. -/
structure ExitShared (n : Nat) where
  base : Shared n
  created : Fin n → Bool
  exited : Bool

variable {n : Nat}

/-- The steps of `main`. An error number of `pthread_create` is a small
positive one. -/
inductive exitMainStep : ExitShared n → ExitMain → Option ExitEvent → ExitShared n → ExitMain → Prop
  | tmpFails {sh i} : i < n → exitMainStep sh (.create i) (some .tmpFails) sh (.leave 0)
  | createFails {sh i} {ec : Int} : i < n → 0 < ec → ec < 256 →
      exitMainStep sh (.create i) (some .createFails) sh (.leave ec)
  | create {sh i} (h : i < n) :
      exitMainStep sh (.create i) none { sh with created := Function.update sh.created ⟨i, h⟩ true } (.create (i + 1))
  | created {sh} : exitMainStep sh (.create n) none sh (.collect (.join 0))
  | collect {sh m e base m'} : mainStep sh.base m e base m' →
      exitMainStep sh (.collect m) none { sh with base } (.collect m')
  | joined {sh} : exitMainStep sh (.collect (.join n)) none sh (.leave 0)
  | trailer {sh} : exitMainStep sh (.leave 0) none
      { sh with
        base := { sh.base with stdout := sh.base.stdout ++ (cpioTrailer ⟨0, TmpFile.empty⟩).fp.data }
        exited := true } (.exited 0 true)
  | noTrailer {sh} {ec : Int} : ec ≠ 0 →
      exitMainStep sh (.leave ec) none { sh with exited := true } (.exited ec false)

/-- The program: `main` is process `none`. -/
inductive exitProgram (job : Job) : Program (Option (Fin n)) (ExitShared n) ExitPc ExitEvent
  | worker {t sh w ec e base w'} : sh.created t = true → sh.exited = false → workerStep job t sh.base w e base w' →
      exitProgram job (some t) sh (.worker w ec) none { sh with base } (.worker w' (w.nextEc job n t ec))
  | main {sh m e sh' m'} : exitMainStep sh m e sh' m' → exitProgram job none sh (.main m) e sh' (.main m')

/-- No worker created yet. -/
def boot (n : Nat) : State (Option (Fin n)) (ExitShared n) ExitPc :=
  ⟨⟨(start n).shared, fun _ => false, false⟩, fun p => if p = none then .main (.create 0) else .worker (.line 0) 0⟩

/-- A run with `n` threads, from the creation of the first. -/
def ExitRuns (job : Job) (n : Nat) (tr : List (Option (Fin n) × ExitEvent))
    (s : State (Option (Fin n)) (ExitShared n) ExitPc) : Prop :=
  Run (exitProgram job) (boot n) tr s

def exitStatus (ec : Int) : Int := ec % 256

end SugarNSpice.GenInitCpio
