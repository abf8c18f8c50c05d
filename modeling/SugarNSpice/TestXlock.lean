/-
`test_xlock.c`: processes that count in a file under the lock.

`do_inc_file` reads an `int` from the file, adds one and writes it back, in
separate calls; it creates the file if `stat` does not find it. File calls
are taken to succeed. The addition wraps where the machine's does.
-/
import SugarNSpice.Xlock

namespace SugarNSpice.TestXlock

open Processes Xlock

/-- The file `test_inc`. -/
inductive File where
  | absent
  | empty
  | int (v : BitVec 32)
  deriving DecidableEq, Repr

/-- Where a process is in `test2`'s loop, between calls of the lock. -/
inductive Place where
  /-- Before `xlock_lock`. -/
  | idle
  | stat
  | openFile (doInit : Bool)
  | read (doInit : Bool)
  | write (fint : BitVec 32)
  | close
  /-- Before `xlock_unlock`. -/
  | done
  deriving DecidableEq, Repr

/-- A call of `do_inc_file` completed. -/
inductive Event where
  | incremented
  deriving DecidableEq, Repr

/-- `open` with `O_CREAT`. -/
def File.create : File → File
  | .absent => .empty
  | f => f

variable {P : Type}

/-- `do_inc_file`. A read from an empty file leaves `fint` as the stack had
it. -/
inductive doIncFile : Program P File Place Event
  | stat {p f} : doIncFile p f .stat none f (.openFile (decide (f = .absent)))
  | openFile {p f d} : doIncFile p f (.openFile d) none f.create (.read d)
  | read {p v d} : doIncFile p (.int v) (.read d) none (.int v) (.write ((if d then 0 else v) + 1))
  | readEmpty {p d junk} : doIncFile p .empty (.read d) none .empty (.write ((if d then 0 else junk) + 1))
  | write {p f x} : doIncFile p f (.write x) none (.int x) .close
  | close {p f} : doIncFile p f .close (some .incremented) f .done

/-- Between `xlock_lock` and `xlock_unlock`. -/
def Place.inside (k : Place) : Prop := k ≠ .idle

/-- `test2`'s loop, any number of times. -/
def test2 : Client P File Place Event where
  step := doIncFile
  lock k k' := k = .idle ∧ k' = .stat
  unlock k k' := k = .done ∧ k' = .idle
  inside := Place.inside
  step_inside h := by cases h <;> simp [Place.inside]
  lock_inside := by rintro k k' ⟨rfl, rfl⟩; simp [Place.inside]
  unlock_inside := by rintro k k' ⟨rfl, rfl⟩; simp [Place.inside]

/-- The file at the start: no file, or one that holds an `int`. -/
def File.initial : Option (BitVec 32) → File
  | none => .absent
  | some v => .int v

/-- The number the file stands for. -/
def File.value : File → Option (BitVec 32)
  | .absent => some 0
  | .empty => none
  | .int v => some v

/-- The processes at the start, the lock free. -/
def initially (file : Option (BitVec 32)) : State P (Shared P File) (Local Place) :=
  start (File.initial file) fun _ => .idle

end SugarNSpice.TestXlock
