/-
`gen_init_cpio` ends: its runs are bounded, and one that cannot go on has
collected everything.

No worker ever waits: `pthread_spin_trylock` returns either way, and a worker
in the lock is on its way out of it. `main` waits for each worker's end and
then for the lock, which no one has by then.
-/
import SugarNSpice.GenInitCpioFacts
import SugarNSpice.RunLength
import Mathlib.Algebra.Group.Action.Defs
import Mathlib.Algebra.Ring.Nat
import Mathlib.Data.Fintype.BigOperators
import Mathlib.Tactic.Ring

namespace SugarNSpice.GenInitCpio

open Cpio Processes

variable {job : Job} {n : Nat}

/-! ## Ranks -/

/-- How many steps are before a worker at the head of its loop. -/
def lineRank (job : Job) (i : Nat) : Nat := 8 * (job.table.length - i) + 1

/-- How many steps a worker has to go, at most. -/
def WorkerPc.rank (job : Job) : WorkerPc → Nat
  | .line i => lineRank job i
  | .emit i _ _ => lineRank job (i + 1) + 6
  | .tryLock i => lineRank job (i + 1) + 5
  | .read i => lineRank job (i + 1) + 4
  | .write i _ => lineRank job (i + 1) + 3
  | .reset i => lineRank job (i + 1) + 2
  | .unlock i => lineRank job (i + 1) + 1
  | .ended => 0

/-- And `main`. -/
def MainPc.rank (n : Nat) : MainPc → Nat
  | .join i => 6 * (n - i)
  | .lock i => 6 * (n - (i + 1)) + 4
  | .read i => 6 * (n - (i + 1)) + 3
  | .write i _ => 6 * (n - (i + 1)) + 2
  | .unlock i => 6 * (n - (i + 1)) + 1

def Pc.rank (job : Job) (n : Nat) : Pc → Nat
  | .main m => m.rank n
  | .worker w => w.rank job

theorem lineRank_succ {i : Nat} (h : i < job.table.length) : lineRank job i = lineRank job (i + 1) + 8 := by
  unfold lineRank
  omega

theorem lt_length_of_getElem? {i : Nat} {line : List Byte} (h : job.table[i]? = some line) : i < job.table.length :=
  (List.getElem?_eq_some_iff.1 h).1

theorem workerStep.rank_lt {t : Fin n} {sh sh' : Shared n} {w w' : WorkerPc} {e : Option Event}
    (h : workerStep job t sh w e sh' w') : w'.rank job < w.rank job := by
  cases h with
  | other hi _ =>
    simp only [WorkerPc.rank, lineRank_succ hi]
    omega
  | skip hi | nothing hi | getIno hi =>
    simp only [WorkerPc.rank, lineRank_succ (lt_length_of_getElem? hi)]
    omega
  | stop | finish => exact Nat.succ_pos _
  | _ =>
    simp only [WorkerPc.rank]
    omega

theorem mainStep.rank_lt {sh sh' : Shared n} {m m' : MainPc} {e : Option Event} (h : mainStep sh m e sh' m') :
    m'.rank n < m.rank n := by
  cases h with
  | join hi _ =>
    simp only [MainPc.rank]
    omega
  | _ =>
    simp only [MainPc.rank]
    omega

theorem program_falls : Falls (program (n := n) job) (Pc.rank job n) := by
  intro p sh l e sh' l' h
  cases h with
  | worker hstep => exact hstep.rank_lt
  | main hstep => exact hstep.rank_lt

theorem total_start : total (Pc.rank job n) (start n) = n * (8 * job.table.length + 7) := by
  have hworkers : ∀ t : Fin n, Pc.rank job n ((start n).loc (some t)) = 8 * job.table.length + 1 := fun _ => rfl
  have hmain : Pc.rank job n ((start n).loc none) = 6 * n := rfl
  rw [total, Fintype.sum_option, hmain, Finset.sum_congr rfl fun t _ => hworkers t, Finset.sum_const, Finset.card_univ,
    Fintype.card_fin, smul_eq_mul]
  ring

/-! ## Progress -/

/-- In the lock. -/
def WorkerPc.Copying : WorkerPc → Prop
  | .read _ | .write _ _ | .reset _ | .unlock _ => True
  | _ => False

def MainPc.Copying : MainPc → Prop
  | .read _ | .write _ _ | .unlock _ => True
  | _ => False

/-- Workers are within the table; those that have returned have said so; and a
lock that is taken is someone's. -/
structure Live (job : Job) (sh : Shared n) (m : MainPc) (w : Fin n → WorkerPc) : Prop where
  within : ∀ t, (w t).reach job ≤ job.table.length
  flag : ∀ t, w t = .ended → sh.ended t = true
  lock : sh.locked = true → (∃ t, (w t).Copying) ∨ m.Copying

theorem workerStep.reach_le {t : Fin n} {sh sh' : Shared n} {w w' : WorkerPc} {e : Option Event}
    (h : workerStep job t sh w e sh' w') (hw : w.reach job ≤ job.table.length) : w'.reach job ≤ job.table.length := by
  cases h with
  | other hi => exact hi
  | skip hi | nothing hi | getIno hi => exact lt_length_of_getElem? hi
  | stop | finish => exact Nat.le_refl _
  | _ => exact hw

/-- A worker's step leaves the lock as it is, and the worker in or out of it;
or it takes it, or gives it back. -/
theorem workerStep.locked_or {t : Fin n} {sh sh' : Shared n} {w w' : WorkerPc} {e : Option Event}
    (h : workerStep job t sh w e sh' w') :
    (sh'.locked = sh.locked ∧ (w.Copying → w'.Copying)) ∨ w'.Copying ∨ sh'.locked = false := by
  cases h with
  | tryLock | read | readNone | write | reset => exact .inr (.inl trivial)
  | unlock => exact .inr (.inr rfl)
  | _ => exact .inl ⟨rfl, False.elim⟩

theorem mainStep.locked_or {sh sh' : Shared n} {m m' : MainPc} {e : Option Event} (h : mainStep sh m e sh' m') :
    (sh'.locked = sh.locked ∧ (m.Copying → m'.Copying)) ∨ m'.Copying ∨ sh'.locked = false := by
  cases h with
  | lock | read | readNone | write => exact .inr (.inl trivial)
  | unlock => exact .inr (.inr rfl)
  | join => exact .inl ⟨rfl, False.elim⟩

theorem workerStep.flag {t : Fin n} {sh sh' : Shared n} {w w' : WorkerPc} {e : Option Event}
    (h : workerStep job t sh w e sh' w') (hw : w' = .ended) : sh'.ended t = true := by
  cases h with
  | stop | finish => exact Function.update_self ..
  | _ => cases hw

theorem Live.worker {sh sh' : Shared n} {m : MainPc} {w : Fin n → WorkerPc} {t : Fin n} {e : Option Event}
    {w' : WorkerPc} (h : Live job sh m w) (hstep : workerStep job t sh (w t) e sh' w') :
    Live job sh' m (Function.update w t w') := by
  refine ⟨fun u => ?_, fun u hu => ?_, fun hlocked => ?_⟩
  · by_cases hut : u = t
    · subst hut
      rw [Function.update_self]
      exact hstep.reach_le (h.within u)
    · rw [Function.update_of_ne hut]
      exact h.within u
  · by_cases hut : u = t
    · subst hut
      rw [Function.update_self] at hu
      exact hstep.flag hu
    · rw [Function.update_of_ne hut] at hu
      have hflag := h.flag u hu
      rcases hstep.ended_or with heq | ⟨heq, -⟩
      · rwa [heq]
      · rwa [heq, Function.update_of_ne hut]
  · have hmember : w'.Copying → ∃ u, (Function.update w t w' u).Copying := fun hc => ⟨t, by rwa [Function.update_self]⟩
    rcases hstep.locked_or with ⟨heq, hkeep⟩ | hc | hfree
    · rcases h.lock (heq ▸ hlocked) with ⟨u, hu⟩ | hm
      · by_cases hut : u = t
        · subst hut
          exact .inl (hmember (hkeep hu))
        · exact .inl ⟨u, by rwa [Function.update_of_ne hut]⟩
      · exact .inr hm
    · exact .inl (hmember hc)
    · rw [hfree] at hlocked
      cases hlocked

theorem Live.main {sh sh' : Shared n} {m m' : MainPc} {w : Fin n → WorkerPc} {e : Option Event} (h : Live job sh m w)
    (hstep : mainStep sh m e sh' m') : Live job sh' m' w := by
  refine ⟨h.within, fun t ht => hstep.ended_eq ▸ h.flag t ht, fun hlocked => ?_⟩
  rcases hstep.locked_or with ⟨heq, hkeep⟩ | hc | hfree
  · exact (h.lock (heq ▸ hlocked)).imp_right hkeep
  · exact .inr hc
  · rw [hfree] at hlocked
    cases hlocked

theorem live_of_runs : ∀ {tr s}, Runs job n tr s → Live job s.shared (mainAt s) (workerAt s) := by
  refine Runs.invariant (I := fun _ => Live job) ?_ ?_ ?_
  · refine ⟨fun _ => Nat.zero_le _, fun _ h => ?_, fun h => ?_⟩
    · cases h
    · cases h
  · exact fun _ ih hstep => ih.worker hstep
  · exact fun _ ih hstep => ih.main hstep

/-- **A worker never waits.** -/
theorem exists_workerStep (hw : job.WellFormed) (t : Fin n) (sh : Shared n) {w : WorkerPc} (halive : w ≠ .ended)
    (hreach : w.reach job ≤ job.table.length) : ∃ e sh' w', workerStep job t sh w e sh' w' := by
  cases w with
  | line i =>
    rcases Nat.lt_or_eq_of_le hreach with hi | rfl
    · replace hi : i < job.table.length := hi
      have hline : job.table[i]? = some job.table[i] := List.getElem?_eq_getElem hi
      by_cases howner : owner n i = t
      · rcases hw i _ hline with ha | ⟨e, ha⟩ | ⟨ha, -⟩
        · exact ⟨_, _, _, .skip hline howner ha⟩
        · exact ⟨_, _, _, .getIno hline howner ha⟩
        · exact ⟨_, _, _, .stop hline howner ha⟩
      · exact ⟨_, _, _, .other hi howner⟩
    · exact ⟨_, _, _, .finish⟩
  | emit i e ino => exact ⟨_, _, _, .emit⟩
  | tryLock i =>
    cases hlocked : sh.locked with
    | true => exact ⟨_, _, _, .busy hlocked⟩
    | false => exact ⟨_, _, _, .tryLock hlocked⟩
  | read i =>
    cases hread : readBack (sh.states t).fp with
    | none => exact ⟨_, _, _, .readNone hread⟩
    | some r => exact ⟨_, _, _, .read hread⟩
  | write i buf => exact ⟨_, _, _, .write⟩
  | reset i => exact ⟨_, _, _, .reset⟩
  | unlock i => exact ⟨_, _, _, .unlock⟩
  | ended => exact absurd rfl halive

theorem exists_mainStep {sh : Shared n} {m : MainPc} {w : Fin n → WorkerPc} (live : Live job sh m w)
    (ctl : Control job sh m w) (hended : ∀ t, w t = .ended) (hmore : m ≠ .join n) :
    ∃ e sh' m', mainStep sh m e sh' m' := by
  have hle := ctl.joined_le
  cases m with
  | join i =>
    have hi : i < n := Nat.lt_of_le_of_ne hle fun heq => hmore (heq ▸ rfl)
    exact ⟨_, _, _, .join hi (live.flag _ (hended _))⟩
  | lock i =>
    cases hlocked : sh.locked with
    | false => exact ⟨_, _, _, .lock hlocked⟩
    | true =>
      rcases live.lock hlocked with ⟨t, ht⟩ | hm
      · rw [hended t] at ht
        exact ht.elim
      · exact hm.elim
  | read i =>
    cases hread : readBack (sh.states ⟨i, hle⟩).fp with
    | none => exact ⟨_, _, _, .readNone hle hread⟩
    | some r => exact ⟨_, _, _, .read hle hread⟩
  | write i buf => exact ⟨_, _, _, .write⟩
  | unlock i => exact ⟨_, _, _, .unlock⟩

theorem loc_eq : ∀ {tr s}, Runs job n tr s →
    s.loc none = .main (mainAt s) ∧ ∀ t, s.loc (some t) = .worker (workerAt s t) := by
  intro tr s h
  have hkinds : ∀ p, (p = none → ∃ m, s.loc p = .main m) ∧ (∀ t, p = some t → ∃ w, s.loc p = .worker w) := by
    refine Run.everyone (I := fun p _ _ l => (p = none → ∃ m, l = .main m) ∧ (∀ t, p = some t → ∃ w, l = .worker w))
      ?_ ?_ ?_ h
    · intro p
      refine ⟨fun hp => ⟨.join 0, by simp [start, hp]⟩, fun t hp => ⟨.line 0, by simp [start, hp]⟩⟩
    · intro _ _ p _ _ _ _ _ hstep
      generalize hl : State.loc _ p = l₀ at hstep
      cases hstep with
      | worker => exact ⟨fun hp => absurd hp (Option.some_ne_none _), fun _ _ => ⟨_, rfl⟩⟩
      | main => exact ⟨fun _ => ⟨_, rfl⟩, fun _ hp => absurd hp.symm (Option.some_ne_none _)⟩
    · exact fun _ _ _ _ _ _ _ _ _ ih _ => ih
  refine ⟨?_, fun t => ?_⟩
  · obtain ⟨m, hm⟩ := (hkinds none).1 rfl
    simp [mainAt, hm]
  · obtain ⟨w, hw⟩ := (hkinds (some t)).2 t rfl
    simp [workerAt, hw]

/-- **No state but a complete one is without a next step.** -/
theorem progress (hw : job.WellFormed) {tr : List (Option (Fin n) × Event)} {s : State (Option (Fin n)) (Shared n) Pc}
    (h : Runs job n tr s) : Complete s ∨ ∃ s', Follows (program job) s s' := by
  have live := live_of_runs h
  obtain ⟨hmain, hworker⟩ := loc_eq h
  by_cases halive : ∃ t, workerAt s t ≠ .ended
  · obtain ⟨t, ht⟩ := halive
    obtain ⟨e, sh', w', hstep⟩ := exists_workerStep hw t s.shared ht (live.within t)
    exact .inr ⟨_, some t, e, sh', .worker w', hworker t ▸ program.worker hstep, rfl⟩
  · have hended : ∀ t, workerAt s t = .ended := fun t => not_not.1 (not_exists.1 halive t)
    by_cases hmore : mainAt s = .join n
    · exact .inl (by rw [Complete, hmain, hmore])
    · obtain ⟨e, sh', m', hstep⟩ := exists_mainStep live (control_of_runs h) hended hmore
      exact .inr ⟨_, none, e, sh', .main m', hmain ▸ program.main hstep, rfl⟩

theorem complete_final {tr : List (Option (Fin n) × Event)} {s s' : State (Option (Fin n)) (Shared n) Pc}
    (h : Runs job n tr s) (hc : Complete s) : ¬ Follows (program job) s s' := by
  intro h
  obtain ⟨p, e, sh, l, hstep, -⟩ := h
  obtain ⟨hmain, hworker⟩ := loc_eq h
  have hjoin : mainAt s = .join n := by
    unfold Complete at hc
    simp [mainAt, hc]
  cases p with
  | none =>
    rw [hmain, hjoin] at hstep
    cases hstep with
    | main hstep =>
      cases hstep with
      | join hi => exact Nat.lt_irrefl _ hi
  | some t =>
    rw [hworker t] at hstep
    cases hstep with
    | worker hstep => exact hstep.alive ((control_of_runs h).joined t (hjoin ▸ t.isLt))

/-- **The program ends**: however its threads are scheduled, a run on a list
without errors has at most `n * (8 * lines + 7)` steps, a state is without a
next step just when everything has been collected, and every run can be
brought there. -/
theorem runs_end (hw : job.WellFormed) :
    (∀ k s, Steps (program job) (start n) k s → k ≤ n * (8 * job.table.length + 7)) ∧
      ∀ tr s, Runs job n tr s → ((¬ ∃ s', Follows (program job) s s') ↔ Complete s) ∧
        ∃ tr' s', Runs job n (tr ++ tr') s' ∧ Complete s' := by
  refine ⟨fun k s h => ?_, fun tr s h => ⟨⟨fun hstuck => ?_, fun hc hnext => ?_⟩, ?_⟩⟩
  · have hbound := h.bounded program_falls
    rw [total_start] at hbound
    exact Nat.le_of_add_right_le hbound
  · exact (progress hw h).resolve_right hstuck
  · obtain ⟨s', hs'⟩ := hnext
    exact complete_final h hc hs'
  · exact Run.reaches_end program_falls (fun _ _ h => progress hw h) h

/-- Two threads and one line. -/
theorem runs_end_dir :
    (∀ k s, Steps (program ⟨[dirLine], fun _ => none, 0⟩) (start 2) k s → k ≤ 2 * (8 * 1 + 7)) ∧
      ∀ tr s, Runs ⟨[dirLine], fun _ => none, 0⟩ 2 tr s →
        ((¬ ∃ s', Follows (program ⟨[dirLine], fun _ => none, 0⟩) s s') ↔ Complete s) ∧
          ∃ tr' s', Runs ⟨[dirLine], fun _ => none, 0⟩ 2 (tr ++ tr') s' ∧ Complete s' :=
  runs_end (wellFormed_of_emit rfl action_dirLine)

end SugarNSpice.GenInitCpio
