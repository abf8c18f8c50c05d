/-
`xsem_create_open`: how a semaphore comes to be, next to processes that use it.

One process calls `xsem_create`: it makes and maps the file of the count,
creates `sem_lock`, and then stores the count, without the lock and without a
wake. The others call `xsem_open`, which maps the file of the count and opens
the lock, and go on to call `xsem_down` and `xsem_up`. To the lock, all of
them are clients: the creator's first step as one is the store of the count.

Both files are absent at first. The function ends without a `return`, and
what its callers get is what the last `strcpy` returns, the address of
`x->name`, which is that of `*x`. By the time the lock's file is there the
count's has its four bytes (`count_has_bytes`), so nothing is said here of a
process that touches the count too early.
-/
import SugarNSpice.Xsem
import SugarNSpice.XlockCreate

namespace SugarNSpice.XsemCreate

open Processes Xlock Xsem SharedFile XlockCreate

/-- Where a process is once it calls for the lock: before the store of the
count, or in the semaphore's code or its own. -/
inductive Maker (κ : Type) where
  | store (k : κ)
  | run (l : Xsem.Place κ)

/-- What is counted: the store of the count, and the semaphore's events. -/
inductive Made (ε : Type) where
  | created
  | sem (e : Xsem.Event ε)

variable {P σ κ ε : Type}

/-- The creator's store of the count, and the steps of the semaphore. -/
inductive makerStep (c : BitVec 32) (U : User P σ κ ε) : Program P (Sem P σ) (Maker κ) (Made ε)
  | store {p m k} : makerStep c U p m (.store k) (some .created) { m with count := c } (.run (.user k))
  | run {p m l e m' l'} : xsemStep U p m l e m' l' → makerStep c U p m (.run l) (e.map .sem) m' (.run l')

/-- A call of the semaphore's. -/
inductive Lifted (call : Xsem.Place κ → Xsem.Place κ → Prop) : Maker κ → Maker κ → Prop
  | run {l l'} : call l l' → Lifted call (.run l) (.run l')

def Maker.inside : Maker κ → Prop
  | .store _ => False
  | .run l => l.inside

/-- The processes as clients of the lock. -/
def maker (c : BitVec 32) (U : User P σ κ ε) : Client P (Sem P σ) (Maker κ) (Made ε) where
  step := makerStep c U
  lock := Lifted lockCall
  unlock := Lifted unlockCall
  inside := Maker.inside
  step_inside h := by
    cases h with
    | store => exact Iff.rfl
    | run h => exact (xsem U).step_inside h
  lock_inside h := by
    cases h with
    | run h => cases h <;> simp [Maker.inside, Xsem.Place.inside]
  unlock_inside h := by
    cases h with
    | run h => cases h <;> simp [Maker.inside, Xsem.Place.inside]

inductive Place (κ : Type) where
  /-- In `xsem_create_open`, before a system call for the count's file. -/
  | call (st : Stage) (k : κ)
  /-- `NULL` was returned. -/
  | null (k : κ)
  /-- In `xlock_create_open` or after it. -/
  | lock (l : XlockCreate.Place (Maker κ))

/-- The count's file, and what is shared with the lock. -/
structure Shared (P σ : Type) where
  file : File
  base : XlockCreate.Shared P (Sem P σ)

def sizeofInt : Nat := 4

/-- What a process brings to the lock. -/
def Maker.start (create : Bool) (k : κ) : Maker κ := if create then .store k else .run (.user k)

/-- The steps of a process; `create` tells who calls `xsem_create`. -/
inductive xsemCreateOpen (create : P → Bool) (c : BitVec 32) (U : User P σ κ ε) :
    Program P (Shared P σ) (Place κ) (XlockCreate.Event (Made ε))
  | call {p s f st st' k} : mapFile sizeofInt s.file st f (.next st') →
      xsemCreateOpen create c U p s (.call st k) none { s with file := f } (.call st' k)
  | null {p s f st k} : mapFile sizeofInt s.file st f .null →
      xsemCreateOpen create c U p s (.call st k) none { s with file := f } (.null k)
  | mapped {p s f st k} : mapFile sizeofInt s.file st f .mapped →
      xsemCreateOpen create c U p s (.call st k) none { s with file := f }
        (.lock (.call (first (create p)) (.start (create p) k)))
  | lock {p s l e b l'} : xlockCreateOpen create (maker c U) p s.base l e b l' →
      xsemCreateOpen create c U p s (.lock l) e { s with base := b } (.lock l')

/-- No files yet, and every process about to call `xsem_create` or
`xsem_open`. -/
def absent (create : P → Bool) (rest : σ) (place : P → κ) : State P (Shared P σ) (Place κ) :=
  ⟨⟨none, none, 0, ∅, 0, ∅, rest⟩, fun p => .call (first (create p)) (place p)⟩

end SugarNSpice.XsemCreate
