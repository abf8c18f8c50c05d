/-
A semaphore's name through its whole life.

A semaphore is two files, one for the count and one for the lock, and
`xsem_create`, `xsem_open` and `xsem_destroy` make, open and take away one after
the other. `xsem_create` leaves the count's file behind if it does not get the
lock, so a call that comes between the two calls of `unlink` ends with a file
for the count and soon none for the lock. From then on `xsem_create` finds the
one and `xsem_open` misses the other, for ever (`comesBack_iff`).

Only the names are followed here, whether there is a file under them or not:
what is in the files, and the stores and accesses to it, are left out. Names fit
their arrays.
-/
import SugarNSpice.Processes
import SugarNSpice.SharedFile

namespace SugarNSpice.XsemLife

open Processes SharedFile

inductive Place where
  /-- Without a semaphore. -/
  | idle
  /-- In `xsem_create_open`, before a system call for the count's file. -/
  | count (create : Bool) (st : Stage)
  /-- In `xlock_create_open`, before a system call for the lock's file. -/
  | lock (create : Bool) (st : Stage)
  /-- The semaphore was returned. -/
  | has
  /-- In `xsem_destroy`, before `xlock_destroy`'s `unlink`. -/
  | unlinking

/-- Whether there is a file under the semaphore's name, and under the lock's. -/
structure Names where
  count : Bool
  lock : Bool

/-- What the system calls do to a name. `ftruncate` goes by the descriptor. -/
inductive callName : Bool → Stage → Bool → Outcome → Prop
  | probeFinds : callName true .probe true .null
  | probe : callName false .probe false (.next .creat)
  | creat {f} : callName f .creat true (.next .truncate)
  | truncate {f} : callName f .truncate f (.next .reopen)
  | reopenFails : callName false .reopen false .null
  | reopen : callName true .reopen true (.next .map)
  | map {f} : callName f .map f .mapped

variable {P : Type}

inductive xsemLife : Program P Names Place Empty
  | xsemCreate {p s} : xsemLife p s .idle none s (.count true (first true))
  | xsemOpen {p s} : xsemLife p s .idle none s (.count false (first false))
  | count {p s b st f st'} : callName s.count st f (.next st') →
      xsemLife p s (.count b st) none { s with count := f } (.count b st')
  | countNull {p s b st f} : callName s.count st f .null →
      xsemLife p s (.count b st) none { s with count := f } .idle
  | countMapped {p s b st f} : callName s.count st f .mapped →
      xsemLife p s (.count b st) none { s with count := f } (.lock b (first b))
  | lock {p s b st f st'} : callName s.lock st f (.next st') →
      xsemLife p s (.lock b st) none { s with lock := f } (.lock b st')
  | lockNull {p s b st f} : callName s.lock st f .null →
      xsemLife p s (.lock b st) none { s with lock := f } .idle
  | lockMapped {p s b st f} : callName s.lock st f .mapped →
      xsemLife p s (.lock b st) none { s with lock := f } .has
  | xsemDestroy {p s} : xsemLife p s .has none { s with count := false } .unlinking
  | xlockDestroy {p s} : xsemLife p s .unlinking none { s with lock := false } .idle

/-- A file for the count, and none for the lock. -/
def Names.Dead (s : Names) : Prop := s.count = true ∧ s.lock = false

/-! ## For ever -/

/-- Places from which no file for the lock is made, and none for the count
taken away. -/
def Place.Harmless : Place → Prop
  | .idle | .count true .probe | .count false .reopen | .count false .map | .lock false .reopen => True
  | _ => False

theorem dead_step {p : P} {sh sh' : Names} {l l' : Place} {e : Option Empty} (hdead : sh.Dead) (hl : l.Harmless)
    (h : xsemLife p sh l e sh' l') : sh'.Dead ∧ l'.Harmless := by
  obtain ⟨count, lock⟩ := sh
  obtain ⟨hcount, hlock⟩ := hdead
  simp only at hcount hlock
  subst hcount hlock
  cases h with
  | xsemCreate => exact ⟨⟨rfl, rfl⟩, trivial⟩
  | xsemOpen => exact ⟨⟨rfl, rfl⟩, trivial⟩
  | @count _ _ b st _ _ h =>
    cases h with
    | creat => cases b <;> exact hl.elim
    | truncate => cases b <;> exact hl.elim
    | reopen =>
      cases b with
      | false => exact ⟨⟨rfl, rfl⟩, trivial⟩
      | true => exact hl.elim
  | countNull h =>
    cases h with
    | probeFinds => exact ⟨⟨rfl, rfl⟩, trivial⟩
  | @countMapped _ _ b st _ h =>
    cases h with
    | map =>
      cases b with
      | false => exact ⟨⟨rfl, rfl⟩, trivial⟩
      | true => exact hl.elim
  | @lock _ _ b st _ _ h =>
    cases h with
    | _ => cases b <;> exact hl.elim
  | lockNull h =>
    cases h with
    | reopenFails => exact ⟨⟨rfl, rfl⟩, trivial⟩
  | @lockMapped _ _ b st _ h =>
    cases h with
    | map => cases b <;> exact hl.elim
  | xsemDestroy => exact hl.elim
  | xlockDestroy => exact hl.elim

theorem dead_run [DecidableEq P] {s s' : State P Names Place} {tr : List (P × Empty)} (hidle : ∀ p, s.loc p = .idle)
    (hdead : s.shared.Dead) (h : Run xsemLife s tr s') : s'.shared.Dead ∧ ∀ p, (s'.loc p).Harmless := by
  refine Run.invariant (I := fun _ s => s.shared.Dead ∧ ∀ p, (s.loc p).Harmless) ?_ ?_ h
  · exact ⟨hdead, fun p => by rw [hidle p]; trivial⟩
  · intro tr s p e sh l _ ih hstep
    obtain ⟨hdead, hl⟩ := dead_step ih.1 (ih.2 p) hstep
    exact ⟨hdead, (Function.forall_update_iff s.loc fun _ l => l.Harmless).2 ⟨hl, fun q _ => ih.2 q⟩⟩

/-! ## Unless -/

theorem create_walk (p : P) : Walks xsemLife p (⟨false, false⟩, .idle) (⟨true, true⟩, .has) := by
  refine Walks.step .xsemCreate ?_
  refine Walks.step (.count .probe) ?_
  refine Walks.step (.count .creat) ?_
  refine Walks.step (.count .truncate) ?_
  refine Walks.step (.count .reopen) ?_
  refine Walks.step (.countMapped .map) ?_
  refine Walks.step (.lock .probe) ?_
  refine Walks.step (.lock .creat) ?_
  refine Walks.step (.lock .truncate) ?_
  refine Walks.step (.lock .reopen) ?_
  exact Walks.step (.lockMapped .map) .refl

theorem open_walk (p : P) : Walks xsemLife p (⟨true, true⟩, .idle) (⟨true, true⟩, .has) := by
  refine Walks.step .xsemOpen ?_
  refine Walks.step (.count .reopen) ?_
  refine Walks.step (.countMapped .map) ?_
  refine Walks.step (.lock .reopen) ?_
  exact Walks.step (.lockMapped .map) .refl

/-- With the lock's file still there, `xsem_create` returns `NULL`, and leaves
the count's. -/
theorem create_fails_walk (p : P) : Walks xsemLife p (⟨false, true⟩, .idle) (⟨true, true⟩, .idle) := by
  refine Walks.step .xsemCreate ?_
  refine Walks.step (.count .probe) ?_
  refine Walks.step (.count .creat) ?_
  refine Walks.step (.count .truncate) ?_
  refine Walks.step (.count .reopen) ?_
  refine Walks.step (.countMapped .map) ?_
  exact Walks.step (.lockNull .probeFinds) .refl

theorem alive_walk (p : P) {sh : Names} (h : ¬ sh.Dead) : Walks xsemLife p (sh, .idle) (⟨true, true⟩, .has) := by
  obtain ⟨count, lock⟩ := sh
  cases count with
  | true =>
    have hlock : lock = true := by simpa [Names.Dead] using h
    rw [hlock]
    exact open_walk p
  | false =>
    cases lock with
    | false => exact create_walk p
    | true => exact (create_fails_walk p).trans (open_walk p)

section Runs

variable [DecidableEq P] {s : State P Names Place}

/-- **Whether a name can be used again.** When no process has the semaphore or is
about to get it, some process can get it again, unless there is a file for the
count and none for the lock; then none ever does. -/
theorem comesBack_iff [Nonempty P] (hidle : ∀ p, s.loc p = .idle) :
    (∃ tr s' p, Run xsemLife s tr s' ∧ s'.loc p = .has) ↔ ¬ s.shared.Dead := by
  constructor
  · intro h hdead
    obtain ⟨tr, s', p, hrun, hp⟩ := h
    have hl := (dead_run hidle hdead hrun).2 p
    rw [hp] at hl
    exact hl
  · intro halive
    obtain ⟨p⟩ := ‹Nonempty P›
    have hwalk := alive_walk p halive
    rw [← hidle p] at hwalk
    obtain ⟨tr, hrun⟩ := Run.nil.walk hwalk
    exact ⟨tr, _, p, hrun, State.move_self ..⟩

end Runs

/-- No files yet. -/
def start : State P Names Place := ⟨⟨false, false⟩, fun _ => .idle⟩

/-- A name dies: the first process destroys its semaphore, and the second calls
`xsem_create` between the two calls of `unlink`. -/
theorem comesBack_iff_sample : ∃ tr s, Run xsemLife (start : State (Fin 2) Names Place) tr s ∧
    (∀ p, s.loc p = .idle) ∧ ¬ ∃ tr s' p, Run xsemLife s tr s' ∧ s'.loc p = .has := by
  have h : Run xsemLife (start : State (Fin 2) Names Place) [] start := .nil
  obtain ⟨tr, h⟩ := h.walk (p := 0) (create_walk 0)
  have h := h.next (p := 0) (State.move_self ..) .xsemDestroy
  obtain ⟨tr, h⟩ := h.walk (p := 1) (create_fails_walk 1)
  have h := h.next (p := 0) (show State.loc _ 0 = .unlinking from rfl) .xlockDestroy
  refine ⟨_, _, h, Fin.forall_fin_two.2 ⟨rfl, rfl⟩, fun hback => ?_⟩
  exact (comesBack_iff (Fin.forall_fin_two.2 ⟨rfl, rfl⟩)).1 hback ⟨rfl, rfl⟩

end SugarNSpice.XsemLife
