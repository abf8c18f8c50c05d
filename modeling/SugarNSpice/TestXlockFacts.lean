/-
No increment is lost under the lock.

The file is the resource behind the lock: while the lock is free it holds the
initial value and one for each call completed, and `Counter` says how it
stands at each place of `do_inc_file`. All of it is 32-bit arithmetic; past
`INT_MAX` the count goes on as an `int` does.
-/
import SugarNSpice.TestXlock
import SugarNSpice.XlockFacts
import SugarNSpice.CLang

namespace SugarNSpice.TestXlock

open Processes Xlock CLang

variable {P : Type} [DecidableEq P]

/-- The file, with the holder of the lock at `k`, when the count is `c`. -/
def Counter (c : BitVec 32) : Option Place → File → Prop
  | none, f | some .idle, f | some .stat, f | some .done, f => f.value = some c
  | some (.openFile d), f => f.value = some c ∧ d = decide (f = .absent)
  | some (.read d), f => if d then c = 0 ∧ f = .empty else f = .int c
  | some (.write x), _ => x = c + 1
  | some .close, f => f = .int (c + 1)

omit [DecidableEq P] in
/-- One step of `do_inc_file`: only its end counts. -/
theorem Counter.step {p : P} {f f' : File} {k k' : Place} {e : Option Event} {c : BitVec 32}
    (h : doIncFile p f k e f' k') (hc : Counter c (some k) f) :
    Counter (c + BitVec.ofNat 32 (events p e).length) (some k') f' := by
  cases h with
  | stat => simpa [Counter, events] using hc
  | openFile =>
    obtain ⟨hv, rfl⟩ := hc
    cases f with
    | absent =>
      cases hv
      exact ⟨rfl, rfl⟩
    | empty => cases hv
    | int v =>
      cases hv
      simp [Counter, events, File.create]
  | @read _ v d =>
    cases d with
    | true => cases hc.2
    | false =>
      cases hc
      simp [Counter, events]
  | @readEmpty _ d junk =>
    cases d with
    | true =>
      obtain ⟨rfl, -⟩ := hc
      simp [Counter, events]
    | false => cases hc
  | write => simpa [Counter, events] using hc
  | close =>
    rw [show f = .int (c + 1) from hc]
    rfl

/-- The count after a run: the value at the start and one for each call. -/
def countOf (file : Option (BitVec 32)) (tr : List (P × Event)) : BitVec 32 :=
  file.getD 0 + BitVec.ofNat 32 tr.length

omit [DecidableEq P] in
theorem countOf_append (file : Option (BitVec 32)) (tr tr' : List (P × Event)) :
    countOf file (tr ++ tr') = countOf file tr + BitVec.ofNat 32 tr'.length := by
  rw [countOf, countOf, List.length_append, BitVec.ofNat_add, BitVec.add_assoc]

theorem test2_counter (file : Option (BitVec 32)) {tr : List (P × Event)} {s : State P (Shared P File) (Local Place)}
    (h : Run (xlock test2) (initially file) tr s) (hfree : ∀ p, ¬ (s.loc p).place.inside) :
    Counter (countOf file tr) none s.shared.rest := by
  refine (guarded_resource (R := fun o tr f => Counter (countOf file tr) o f) ?_ ?_ ?_ ?_ ?_ ?_
    (xlock_refines_guarded h)).2 hfree
  · intro k k' tr f hcall hc
    obtain ⟨rfl, rfl⟩ := hcall
    exact hc
  · intro k k' tr f hcall hc
    obtain ⟨rfl, rfl⟩ := hcall
    exact hc
  · intro p f k e f' k' tr _ hstep hc
    simp only [countOf_append]
    exact hc.step hstep
  · intro p f k e f' k' o tr hout hstep
    -- Outside there is nothing to do but to call for the lock.
    cases hstep <;> exact absurd nofun hout
  · exact fun p hp => hp rfl
  · cases file with
    | none => rfl
    | some v => simp [Counter, countOf, File.initial, File.value]

/-- **Mutual exclusion and no lost update.** In every run of any processes
that count under the lock: at most one is between the swap that took the lock
and the one that gives it back, the word is 1 exactly when one is, the swap
that gives it back never fails, and when none is inside, the file holds its
initial value (0 if there was no file) plus the number of completed calls of
`do_inc_file`, in the arithmetic of `int`: exactly, up to `INT_MAX`. -/
theorem test2_counts (file : Option (BitVec 32)) {tr : List (P × Event)} {s : State P (Shared P File) (Local Place)}
    (h : Run (xlock test2) (initially file) tr s) :
    (∀ p q, (s.loc p).place.inside → (s.loc q).place.inside → p = q) ∧
      (s.shared.word = 1 ↔ ∃ p, (s.loc p).place.inside) ∧ (s.shared.word = 0 ↔ ∀ p, ¬ (s.loc p).place.inside) ∧
      (∀ p, (s.loc p).phase = .unlockCas → s.shared.word = 1) ∧
      ((∀ p, ¬ (s.loc p).place.inside) → ∃ v, s.shared.rest.value = some v ∧
        v = file.getD 0 + BitVec.ofNat 32 tr.length ∧
        ((file.getD 0).toInt + tr.length ≤ intMax → v.toInt = (file.getD 0).toInt + tr.length)) := by
  have h0 : ∀ p : P, ¬ (test2 (P := P)).inside .idle := fun _ hp => hp rfl
  have hm := xlock_mutex h0 h
  refine ⟨hm.unique, hm.held_iff, ?_, fun p => xlock_unlock_succeeds h0 h, fun hfree => ?_⟩
  · have hheld : s.shared.word = 1 ↔ ∃ p, (s.loc p).place.inside := hm.held_iff
    have hword := xlock_word h
    rw [← not_exists, ← hheld]
    omega
  · refine ⟨_, test2_counter file h hfree, rfl, fun hle => ?_⟩
    have hlow : -(2 ^ 31 : Int) ≤ (file.getD 0).toInt := BitVec.le_toInt _
    have hsum : countOf file tr = BitVec.ofInt 32 ((file.getD 0).toInt + tr.length) := by
      rw [countOf, BitVec.ofInt_add, BitVec.ofInt_toInt, BitVec.ofInt_natCast]
    rw [hsum, toInt_ofInt_of_isInt ⟨by unfold intMax; omega, hle⟩]

omit [DecidableEq P] in
/-- A process inside counts from `v` and gives the lock back. -/
theorem inc_path (p : P) (v : BitVec 32) :
    Path (xlock test2) p [(p, .incremented)] (⟨1, ∅, .int v⟩, ⟨.stat, .out⟩) (⟨0, ∅, .int (v + 1)⟩, ⟨.idle, .out⟩) := by
  refine Path.quiet (.own .stat) (Path.quiet (.own .openFile) (Path.quiet (.own .read) ?_))
  refine Path.quiet (.own .write) (Path.event (.own .close) ?_)
  refine Path.quiet (.callUnlock ⟨rfl, rfl⟩) (Path.quiet (.rawUnlockIt rfl ⟨rfl, rfl⟩) ?_)
  exact Path.quiet (.futexWake ⟨Set.empty_subset _, fun h => absurd h Set.not_nonempty_empty⟩) .refl

theorem test2_round (v : BitVec 32) :
    ∃ s, Run (xlock (test2 (P := Unit))) (initially (some v)) [((), .incremented)] s ∧
      (∀ p, ¬ (s.loc p).place.inside) ∧ s.shared.rest = .int (v + 1) := by
  have h : Run (xlock (test2 (P := Unit))) (initially (some v)) [] (initially (some v)) := .nil
  have h := h.next (p := ()) rfl (.callLock ⟨rfl, rfl⟩)
  have h := h.next (State.move_self _ _ _ _) (.rawLockIt rfl ⟨rfl, rfl⟩)
  have h := h.path (inc_path () v)
  exact ⟨_, h, fun p hp => hp rfl, rfl⟩

/-- Two processes, of which the second comes while the first is inside. -/
theorem test2_counts_sample :
    ∃ s, Run (xlock (test2 (P := Bool))) (initially (some 41)) [(false, .incremented), (true, .incremented)] s ∧
      ∃ v, s.shared.rest.value = some v ∧ v.toInt = 43 := by
  have h : Run (xlock (test2 (P := Bool))) (initially (some 41)) [] (initially (some 41)) := .nil
  have h := h.next (p := false) rfl (.callLock ⟨rfl, rfl⟩)
  have h := h.next (State.move_self _ _ _ _) (.rawLockIt rfl ⟨rfl, rfl⟩)
  have h := h.next (p := true) rfl (.callLock ⟨rfl, rfl⟩)
  have h := h.next (State.move_self _ _ _ _) (.rawLockItFails (by decide))
  have h := h.path (inc_path false 41)
  have h := h.next (p := true) rfl (.futexWaitAgain (by decide))
  have h := h.next (State.move_self _ _ _ _) (.rawLockIt rfl ⟨rfl, rfl⟩)
  have h := h.path (inc_path true 42)
  obtain ⟨v, hv, -, hint⟩ := (test2_counts (some 41) h).2.2.2.2 fun p => by cases p <;> exact fun hp => hp rfl
  exact ⟨_, h, v, hv, hint (by decide)⟩

/-- A file that holds `INT_MAX` does not hold one more after a call. -/
theorem test2_counter_wraps :
    ∃ s, Run (xlock (test2 (P := Unit))) (initially (some 2147483647)) [((), .incremented)] s ∧
      (∀ p, ¬ (s.loc p).place.inside) ∧
      ¬ ∃ v, s.shared.rest.value = some v ∧ v.toInt = (2147483647 : BitVec 32).toInt + 1 := by
  obtain ⟨s, hrun, hfree, hfile⟩ := test2_round 2147483647
  refine ⟨s, hrun, hfree, ?_⟩
  intro hexists
  obtain ⟨v, hv, hint⟩ := hexists
  rw [hfile] at hv
  cases hv
  exact absurd hint (by decide)

end SugarNSpice.TestXlock
