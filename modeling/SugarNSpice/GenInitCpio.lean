/-
`gen_init_cpio.c`, the threads: workers that take the lines of the list in
turn, and `main`, which collects what is left.

A worker writes the records of its lines to a temporary file of its own.
After each line it tries the spinlock, and with it copies the file to stdout
and rewinds; without it the next records go behind. `main` joins the workers
in order and copies each one's rest, then writes the trailer. Steps are the
accesses to what is shared: `get_ino`, the lock, stdout. A worker's own file
and offset are only touched by itself and, after the join, by `main`.

`stdio` calls, `malloc` and `pthread_create` are taken to succeed. A worker
also runs `strlen` on the lines of others, which may have been freed; nothing
depends on the result, and the model takes the call to return.
-/
import SugarNSpice.CpioList
import SugarNSpice.Processes

namespace SugarNSpice.GenInitCpio

open Cpio Processes

/-- What a run is about: the table of lines, the files they name, and
`default_mtime`. -/
structure Job where
  table : List (List Byte)
  files : Files
  mtime : BitVec 64

/-- The entry at line `i`, counted from 0, if it is one. -/
def Job.entry (job : Job) (i : Nat) : Option Entry :=
  match job.table[i]?.map (action job.files) with
  | some (.emit e) => some e
  | _ => none

/-- `line_nr % nr_threads`. -/
def owner (n i : Nat) : Nat := (i + 1) % n

/-- Where a worker is; `i` is its line. -/
inductive WorkerPc where
  /-- At the head of the loop. -/
  | line (i : Nat)
  /-- In the handler, with a number for its records. -/
  | emit (i : Nat) (e : Entry) (ino : BitVec 32)
  /-- In `try_dump_to_stdout`, before `pthread_spin_trylock`. -/
  | tryLock (i : Nat)
  /-- In `write_to_stdout`, before `ftell`. -/
  | read (i : Nat)
  /-- Before `fwrite`. -/
  | write (i : Nat) (buf : List Byte)
  /-- Before `rewind`. -/
  | reset (i : Nat)
  /-- Before `pthread_spin_unlock`. -/
  | unlock (i : Nat)
  /-- Returned. -/
  | ended

/-- Where `main` is; `i` is the worker whose turn it is. -/
inductive MainPc where
  /-- Before `pthread_join`. -/
  | join (i : Nat)
  /-- Before `pthread_spin_lock`. -/
  | lock (i : Nat)
  | read (i : Nat)
  | write (i : Nat) (buf : List Byte)
  | unlock (i : Nat)

inductive Pc where
  | main (m : MainPc)
  | worker (w : WorkerPc)

/-- What is counted: a number given to a line, and a call of `write_to_stdout`
with the position it finds. -/
inductive Event where
  | ino (i : Nat) (ino : BitVec 32)
  | dump (pos : Nat)

/-- `stdout`, its lock, `i_no`, and the workers' states; `ended` tells which of
them have returned. -/
structure Shared (n : Nat) where
  stdout : List Byte
  locked : Bool
  iNo : BitVec 32
  states : Fin n → MyState
  ended : Fin n → Bool

variable {n : Nat}

def Shared.setState (sh : Shared n) (t : Fin n) (st : MyState) : Shared n :=
  { sh with states := Function.update sh.states t st }

/-- The first half of `write_to_stdout`: the position, as an `int`, and that
many bytes from the start. None if it is 0, or counts as an error. -/
def readBack (f : TmpFile) : Option (List Byte × TmpFile) :=
  let bytesToRead := (BitVec.ofNat 32 f.pos).toInt
  if 0 < bytesToRead then
    some (f.data.take bytesToRead.toNat, ⟨f.data, min bytesToRead.toNat f.data.length, Nat.min_le_right _ _⟩)
  else none

/-- The steps of worker `t`. -/
inductive workerStep (job : Job) (t : Fin n) : Shared n → WorkerPc → Option Event → Shared n → WorkerPc → Prop
  | other {sh i} : i < job.table.length → owner n i ≠ t → workerStep job t sh (.line i) none sh (.line (i + 1))
  | skip {sh i line} : job.table[i]? = some line → owner n i = t → action job.files line = .skip →
      workerStep job t sh (.line i) none sh (.line (i + 1))
  | stop {sh i line} : job.table[i]? = some line → owner n i = t → action job.files line = .stop →
      workerStep job t sh (.line i) none { sh with ended := Function.update sh.ended t true } .ended
  | nothing {sh i line} : job.table[i]? = some line → owner n i = t →
      action job.files line ∈ [.fail, .unknown, .noArgs false] →
      workerStep job t sh (.line i) none sh (.tryLock i)
  | getIno {sh i line e} : job.table[i]? = some line → owner n i = t → action job.files line = .emit e →
      workerStep job t sh (.line i) (some (.ino i sh.iNo)) { sh with iNo := sh.iNo + 1 } (.emit i e sh.iNo)
  | emit {sh i e ino} :
      workerStep job t sh (.emit i e ino) none (sh.setState t (e.emit job.mtime ino (sh.states t))) (.tryLock i)
  | busy {sh i} : sh.locked = true → workerStep job t sh (.tryLock i) none sh (.line (i + 1))
  | tryLock {sh i} : sh.locked = false →
      workerStep job t sh (.tryLock i) none { sh with locked := true } (.read i)
  | read {sh i buf f} : readBack (sh.states t).fp = some (buf, f) →
      workerStep job t sh (.read i) (some (.dump (sh.states t).fp.pos))
        (sh.setState t { sh.states t with fp := f }) (.write i buf)
  | readNone {sh i} : readBack (sh.states t).fp = none →
      workerStep job t sh (.read i) (some (.dump (sh.states t).fp.pos)) sh (.reset i)
  | write {sh i buf} : workerStep job t sh (.write i buf) none { sh with stdout := sh.stdout ++ buf } (.reset i)
  | reset {sh i} :
      workerStep job t sh (.reset i) none (sh.setState t ⟨0, (sh.states t).fp.rewind⟩) (.unlock i)
  | unlock {sh i} : workerStep job t sh (.unlock i) none { sh with locked := false } (.line (i + 1))
  | finish {sh} : workerStep job t sh (.line job.table.length) none
      { sh with ended := Function.update sh.ended t true } .ended

/-- The steps of `main`, from its first join on. -/
inductive mainStep : Shared n → MainPc → Option Event → Shared n → MainPc → Prop
  | join {sh i} (h : i < n) : sh.ended ⟨i, h⟩ = true → mainStep sh (.join i) none sh (.lock i)
  | lock {sh i} : sh.locked = false → mainStep sh (.lock i) none { sh with locked := true } (.read i)
  | read {sh i buf f} (h : i < n) : readBack (sh.states ⟨i, h⟩).fp = some (buf, f) →
      mainStep sh (.read i) (some (.dump (sh.states ⟨i, h⟩).fp.pos))
        (sh.setState ⟨i, h⟩ { sh.states ⟨i, h⟩ with fp := f }) (.write i buf)
  | readNone {sh i} (h : i < n) : readBack (sh.states ⟨i, h⟩).fp = none →
      mainStep sh (.read i) (some (.dump (sh.states ⟨i, h⟩).fp.pos)) sh (.unlock i)
  | write {sh i buf} : mainStep sh (.write i buf) none { sh with stdout := sh.stdout ++ buf } (.unlock i)
  | unlock {sh i} : mainStep sh (.unlock i) none { sh with locked := false } (.join (i + 1))

/-- The program: `main` is process `none`. -/
inductive program (job : Job) : Program (Option (Fin n)) (Shared n) Pc Event
  | worker {t sh w e sh' w'} : workerStep job t sh w e sh' w' →
      program job (some t) sh (.worker w) e sh' (.worker w')
  | main {sh m e sh' m'} : mainStep sh m e sh' m' → program job none sh (.main m) e sh' (.main m')

/-- All workers created, none of them on its way. -/
def start (n : Nat) : State (Option (Fin n)) (Shared n) Pc :=
  ⟨⟨[], false, 721, fun _ => ⟨0, TmpFile.empty⟩, fun _ => false⟩,
    fun p => if p = none then .main (.join 0) else .worker (.line 0)⟩

def Runs (job : Job) (n : Nat) (tr : List (Option (Fin n) × Event)) (s : State (Option (Fin n)) (Shared n) Pc) : Prop :=
  Run (program job) (start n) tr s

/-- `main` has joined and copied all workers, and goes on to the trailer. -/
def Complete (s : State (Option (Fin n)) (Shared n) Pc) : Prop := s.loc none = .main (.join n)

end SugarNSpice.GenInitCpio
