/-
The semaphore as a counting semaphore, down to the test's own counter.

`check_count` is a resource behind a semaphore of one unit, so the rule for a
lock's resource says what becomes of it.
-/
import SugarNSpice.TestSem
import SugarNSpice.XsemFacts

namespace SugarNSpice.TestSem

open Processes Xlock Xsem CLang

variable {P : Type} [DecidableEq P]

/-- `check_count[0]`, with the holder of the one unit at `o`. -/
def Checked (check : BitVec 32) (o : Option Place) (tr : List (P × Event)) (n : BitVec 32) : Prop :=
  n = check + BitVec.ofNat 32 tr.length ∧ ∀ v, o = some (.store v) → v = n

/-- How often `check_count[0]` was incremented. -/
def counted (tr : List (P × Xsem.Event Event)) : Nat := (rename Event.toUser tr).length

/-- With one unit, no increment of `check_count` is lost. -/
theorem check_count_kept [Finite P] {check : BitVec 32} {tr : List (P × Xsem.Event Event)}
    {s : State P (Shared P (Sem P (BitVec 32))) (Local (Xsem.Place Place))}
    (h : Runs (sections semTest) 1 check (fun _ => .outside) tr s) :
    s.shared.rest.rest = check + BitVec.ofNat 32 (counted tr) := by
  have hout : ∀ p : P, ¬ (semTest (P := P)).inside .outside := fun _ hp => hp rfl
  have hrun := h.guarded.refines_guarded hout
  have hres := guarded_resource (R := Checked check) ?_ ?_ ?_ ?_ hout ?_ hrun
  · by_cases hp : ∃ p, (semTest (P := P)).inside ((s.loc p).place.home)
    · obtain ⟨p, hp⟩ := hp
      exact (hres.1 p hp).1
    · exact (hres.2 (not_exists.1 hp)).1
  · intro k k' tr n hcall hc
    obtain ⟨rfl, rfl⟩ := hcall
    exact ⟨hc.1, fun v hv => by cases hv⟩
  · intro k k' tr n hcall hc
    obtain ⟨rfl, rfl⟩ := hcall
    exact ⟨hc.1, fun v hv => by cases hv⟩
  · intro p n k e n' k' tr _ hstep hc
    cases hstep with
    | load => exact ⟨by simpa [events] using hc.1, fun v hv => by cases hv; rfl⟩
    | @store _ _ v =>
      obtain ⟨hn, hv⟩ := hc
      refine ⟨?_, fun v' hv' => by cases hv'⟩
      rw [hv v rfl, hn, List.length_append, BitVec.ofNat_add, BitVec.add_assoc]
      rfl
  · intro p n k e n' k' o tr hin hstep
    cases hstep <;> exact absurd (fun hk => by cases hk) hin
  · exact ⟨by simp, fun v hv => by cases hv⟩

/-- **A counting semaphore.** For every initial count `c` of at least 0, over
every run of any processes:
- whatever calls they make, the count is `c` plus the increments minus the
  decrements, in 32-bit arithmetic; while that has stayed within `INT_MAX` it
  is so exactly, and not negative; and every `xsem_down` that returned has
  executed one decrement since its call;
- if they bracket a section with the two calls, at most `c` of them are
  between their decrement and their increment, so in their section;
- with one unit, `check_count` holds its initial value and one for each
  increment executed. -/
theorem xsem_counts {c : BitVec 32} (hc : 0 ≤ c.toInt) :
    (∀ {σ κ ε : Type} {U : User P σ κ ε} {rest place tr s}, Runs U c rest place tr s →
      s.shared.rest.count = BitVec.ofInt 32 (balance c tr) ∧
      (InRange c tr → 0 ≤ s.shared.rest.count.toInt ∧ s.shared.rest.count.toInt = balance c tr) ∧
      ∀ a p b, tr = a ++ (p, .returnDown) :: b → decrementsSince p a = 1) ∧
    (∀ {σ κ ε : Type} {C : Client P σ κ ε} {rest place tr s}, Finite P → (∀ p, ¬ C.inside (place p)) →
      Runs (sections C) c rest place tr s → ((Holders C fun p => (s.loc p).place).ncard : Int) ≤ c.toInt) ∧
    (∀ {check tr s}, Finite P → c = 1 → Runs (P := P) (sections semTest) c check (fun _ => .outside) tr s →
      s.shared.rest.rest = check + BitVec.ofNat 32 (counted tr)) := by
  refine ⟨fun h => ?_, fun hfin hplace h => ?_, fun hfin hone h => ?_⟩
  · obtain ⟨o, hcount⟩ := (h.guarded.counted hc).exists_holder
    refine ⟨hcount.count, fun hr => ?_, h.guarded.returned⟩
    have heq := hcount.toInt_eq hr
    exact ⟨heq ▸ hcount.nonneg hr, heq⟩
  · have hunits := h.guarded.units hc hplace
    have hsum := hunits.sum
    have hnonneg := hunits.nonneg
    simp only at hsum hnonneg
    omega
  · subst hone
    exact check_count_kept h

section Sample

omit [DecidableEq P]

/-- `xsem_down` from its call of the lock on, where the unit is there. -/
theorem enter_path (p : P) {c : BitVec 32} (hc : 0 < c.toInt) (n : BitVec 32) :
    Path (xlock (xsem (sections semTest))) p [(p, .decrement), (p, .returnDown)]
      (⟨0, ∅, ⟨c, ∅, n⟩⟩, ⟨.downLock .outside, .out⟩) (⟨0, ∅, ⟨c - 1, ∅, n⟩⟩, ⟨.user .load, .out⟩) := by
  refine Path.quiet (.callLock .down) (Path.quiet (.rawLockIt rfl .down) ?_)
  refine Path.quiet (.own (.test hc)) (Path.quiet (.own .loadDown) ?_)
  refine Path.event (.own (.decrement ⟨rfl, rfl⟩)) ?_
  refine Path.quiet (.callUnlock .down) (Path.quiet (.rawUnlockIt rfl .down) ?_)
  exact Path.quiet (.futexWake futexWakes_empty) (Path.event (.own .returnDown) .refl)

/-- And where it is not. -/
theorem refused_path (p : P) {c : BitVec 32} (hc : ¬ 0 < c.toInt) (n : BitVec 32) :
    Path (xlock (xsem (sections semTest))) p [(p, .callDown)]
      (⟨0, ∅, ⟨c, ∅, n⟩⟩, ⟨.user .outside, .out⟩) (⟨0, ∅, ⟨c, ∅, n⟩⟩, ⟨.downWait .outside, .out⟩) := by
  refine Path.event (.own (.callDown ⟨rfl, rfl⟩)) (Path.quiet (.callLock .down) ?_)
  refine Path.quiet (.rawLockIt rfl .down) (Path.quiet (.own (.testFails hc)) ?_)
  refine Path.quiet (.callUnlock .release) (Path.quiet (.rawUnlockIt rfl .release) ?_)
  exact Path.quiet (.futexWake futexWakes_empty) .refl

/-- The section, and `xsem_up`. -/
theorem leave_path (p : P) (c n : BitVec 32) :
    Path (xlock (xsem (sections semTest))) p [(p, .user .counted), (p, .increment)]
      (⟨0, ∅, ⟨c, ∅, n⟩⟩, ⟨.user .load, .out⟩) (⟨0, ∅, ⟨c + 1, ∅, n + 1⟩⟩, ⟨.user .outside, .out⟩) := by
  have hload : xsemStep (sections semTest) p ⟨c, ∅, n⟩ (.user .load) (Option.map .user none) ⟨c, ∅, n⟩ (.user (.store n)) :=
    .own semTestThread.load
  have hstore : xsemStep (sections semTest) p ⟨c, ∅, n⟩ (.user (.store n)) (Option.map .user (some .counted))
      ⟨c, ∅, n + 1⟩ (.user .leave) := .own semTestThread.store
  refine Path.quiet (.own hload) (Path.event (.own hstore) ?_)
  refine Path.quiet (.own (.callUp ⟨rfl, rfl⟩)) (Path.quiet (.callLock .up) (Path.quiet (.rawLockIt rfl .up) ?_))
  refine Path.quiet (.own .loadUp) (Path.event (.own (.increment ⟨rfl, rfl⟩)) ?_)
  refine Path.quiet (.callUnlock .up) (Path.quiet (.rawUnlockIt rfl .up) ?_)
  exact Path.quiet (.futexWake futexWakes_empty) (Path.quiet (.own (.futexWake futexWakes_empty)) .refl)

end Sample

/-- Two processes with one unit, of which the second comes while the first is
in its section. -/
theorem xsem_counts_sample :
    ∃ tr s, Runs (P := Bool) (sections semTest) 1 0 (fun _ => .outside) tr s ∧ counted tr = 2 ∧
      s.shared.rest.count = BitVec.ofInt 32 (balance 1 tr) ∧
      ((Holders semTest fun p => (s.loc p).place).ncard : Int) ≤ 1 ∧ s.shared.rest.rest = 2 := by
  have h : Runs (P := Bool) (sections semTest) 1 0 (fun _ => .outside) [] _ := .nil
  have h := h.next (p := false) rfl (.own (.callDown ⟨rfl, rfl⟩))
  have h := h.path (enter_path false (by decide) 0)
  have h := h.path (refused_path true (by decide) 0)
  have h := h.path (leave_path false _ 0)
  have h := h.next (p := true) rfl (.own (.futexWaitAgain (by decide)))
  have h := h.path (enter_path true (by decide) 1)
  have h := h.path (leave_path true _ 1)
  have hone : 0 ≤ (1 : BitVec 32).toInt := by decide
  exact ⟨_, _, h, rfl, ((xsem_counts hone).1 h).1, (xsem_counts hone).2.1 inferInstance (fun _ hp => hp rfl) h,
    (xsem_counts hone).2.2 inferInstance rfl h⟩

/-- A count of `INT_MAX` and one `xsem_up`: the count is negative. -/
theorem xsem_count_wraps :
    ∃ tr s, Runs (P := Fin 1) anyCalls 2147483647 () (fun _ => ()) tr s ∧ s.shared.rest.count.toInt < 0 := by
  have h : Run (xlock (xsem anyCalls)) (created 2147483647 () fun _ : Fin 1 => ()) []
      (created 2147483647 () fun _ => ()) := .nil
  have h := h.path (anyCalls_increments (0 : Fin 1) _)
  exact ⟨_, _, h, by decide⟩

end SugarNSpice.TestSem
