/-
The two semaphores are the same one.

A run of `psem` is a run of `xsem` over an atomic lock, with the same events
(`psem_refines_xsem`): a thread asleep on `sem_cond` is one about to call
`FUTEX_WAIT` there, and a return from the sleep is a call that does not
sleep, or sleeps and returns. So what the count is, and that no `psem_down`
returns without its decrement, has been shown already.

Wake-ups are `psem`'s own. While a thread sleeps, the count is not positive
or some `psem_up` has yet to broadcast (`Watched`), however the mutex changes
hands between the increment and the broadcast.
-/
import SugarNSpice.Psem
import SugarNSpice.XsemFacts

namespace SugarNSpice.Psem

open Processes Xsem CLang

variable {P σ κ ε : Type} [DecidableEq P] {U : User P σ κ ε} {c : BitVec 32} {rest : σ} {place : P → κ}
  {tr : List (P × Event ε)} {s : State P (Shared P σ) (Place κ)}

/-- Where a process of `xsem` is that is as far as this thread. -/
def Place.xsem : Place κ → Xsem.Place κ
  | .user k => .user k
  | .downLock k | .downRelock k => .downLock k
  | .downTest k => .downTest k
  | .downLoad k => .downLoad k
  | .downStore v k => .downStore v k
  | .downUnlock k => .downUnlock k
  | .downReturn k => .downReturn k
  | .downWait k => .downRelease k
  | .downAsleep k => .downWait k
  | .upLock k => .upLock k
  | .upLoad k => .upLoad k
  | .upStore v k => .upStore v k
  | .upUnlock k => .upUnlock k
  | .upBroadcast k => .upWake k

/-- What is left without the sleepers. -/
def Shared.view (sh : Shared P σ) : Bool × Sem P σ := (sh.held, ⟨sh.count, ∅, sh.rest⟩)

omit [DecidableEq P] in
theorem xsem_waits (p : P) (held : Bool) (count : BitVec 32) (rest : σ) (k : κ) :
    Path (Xsem.xsem U).guarded p [] ((held, ⟨count, ∅, rest⟩), .downWait k) ((held, ⟨count, ∅, rest⟩), .downLock k) := by
  by_cases hcount : count = 0
  · have hsleep : (Xsem.xsem U).guarded p (held, ⟨count, ∅, rest⟩) (.downWait k) none
        (held, ⟨count, insert p ∅, rest⟩) (.downAsleep k) := .own (.futexWait hcount)
    have hwake : (Xsem.xsem U).guarded p (held, ⟨count, insert p ∅, rest⟩) (.downAsleep k) none
        (held, ⟨count, insert p ∅ \ {p}, rest⟩) (.downLock k) := .own .futexWaitReturns
    have hnone : insert p (∅ : Set P) \ {p} = ∅ := by simp
    rw [hnone] at hwake
    exact .step hsleep (.single hwake)
  · have hagain : (Xsem.xsem U).guarded p (held, ⟨count, ∅, rest⟩) (.downWait k) none
        (held, ⟨count, ∅, rest⟩) (.downLock k) := .own (.futexWaitAgain hcount)
    exact .single hagain

/-- **`psem` refines `xsem`.** -/
theorem psem_refines_xsem (h : Runs U c rest place tr s) :
    Guarded U c rest place tr ⟨s.shared.view, fun p => (s.loc p).xsem⟩ := by
  rw [← rename_some tr]
  refine Run.simulatePath Shared.view Place.xsem some ?_ h
  intro tr s p e sh l _ hstep
  rw [Option.bind_fun_some]
  generalize s.shared = sh₀, s.loc p = l₀ at hstep ⊢
  have hfree : sh₀.held = false → sh₀.view = (false, ⟨sh₀.count, ∅, sh₀.rest⟩) := fun hh => by simp [Shared.view, hh]
  cases hstep with
  | own hs => exact .single (.own (.own hs))
  | callDown hd => exact .single (.own (.callDown hd))
  | lockDown hh =>
    rw [hfree hh]
    exact .single (.acquire .down)
  | test hpos => exact .single (.own (.test hpos))
  | testFails hpos => exact .single (.own (.testFails hpos))
  | loadDown => exact .single (.own .loadDown)
  | decrement hd => exact .single (.own (.decrement hd))
  | unlockDown => exact .single (.release .down)
  | returnDown => exact .single (.own .returnDown)
  | condWait => exact .single (.release .release)
  | condWaitWakes => exact xsem_waits p _ _ _ _
  | relockDown hh =>
    rw [hfree hh]
    exact .single (.acquire .down)
  | callUp hu => exact .single (.own (.callUp hu))
  | lockUp hh =>
    rw [hfree hh]
    exact .single (.acquire .up)
  | loadUp => exact .single (.own .loadUp)
  | increment hu => exact .single (.own (.increment hu))
  | unlockUp => exact .single (.release .up)
  | broadcast => exact .single (.own (.futexWake futexWakes_empty))

/-! ## Wake-ups -/

/-- Before the decrement in `psem_down`. -/
def Place.before : Place κ → Prop
  | .downLock _ | .downTest _ | .downLoad _ | .downStore _ _ | .downWait _ | .downAsleep _ | .downRelock _ => True
  | _ => False

/-- In `psem_up`, between the increment and the broadcast. -/
def Place.pending : Place κ → Prop
  | .upUnlock _ | .upBroadcast _ => True
  | _ => False

/-- Asleep in `psem_down`. -/
def Asleep (s : State P (Shared P σ) (Place κ)) (p : P) : Prop := (∃ k, s.loc p = .downAsleep k) ∧ p ∈ s.shared.sleepers

theorem psem_mutex (h : Runs U c rest place tr s) {p q : P} (hp : (s.loc p).xsem.inside) (hq : (s.loc q).xsem.inside) :
    q = p :=
  (guarded_mutex (fun _ => id) (psem_refines_xsem h)).unique q p hq hp

/-- A thread about to wait has the mutex since it found the count not
positive. -/
theorem psem_about_to_wait (h : Runs U c rest place tr s) {p : P} {k : κ} (hp : s.loc p = .downWait k) :
    ¬ 0 < s.shared.count.toInt := by
  have hall := Run.everyone (I := fun _ _ (sh : Shared P σ) l => ∀ k, l = Place.downWait k → ¬ 0 < sh.count.toInt)
    (by simp [created]) ?_ ?_ h p
  · exact hall k hp
  · intro tr s p e sh l _ _ hstep k hl
    subst hl
    generalize s.shared = sh₀, s.loc p = l₀ at hstep
    cases hstep with
    | testFails hpos => exact hpos
  · intro tr s p q e sh l hqp hrun ih hstep k hq
    have hcount := ih k hq
    have honly : (s.loc p).xsem.inside → q = p := fun hp => psem_mutex hrun hp (by rw [hq]; trivial)
    generalize s.shared = sh₀, s.loc p = l₀ at hstep hcount honly
    cases hstep with
    | decrement | increment => exact absurd (honly trivial) hqp
    | _ => exact hcount

/-- The sleepers are in `pthread_cond_wait`, and as long as there are any the
count is not positive or a broadcast is to come. -/
structure Watched (s : State P (Shared P σ) (Place κ)) : Prop where
  asleep : ∀ p ∈ s.shared.sleepers, ∃ k, s.loc p = .downAsleep k
  watched : s.shared.sleepers.Nonempty → s.shared.count.toInt ≤ 0 ∨ ∃ p, (s.loc p).pending

omit [DecidableEq P] in
theorem Watched.notMem {p : P} (h : Watched s) (hp : ∀ k, s.loc p ≠ .downAsleep k) : p ∉ s.shared.sleepers := by
  intro hmem
  obtain ⟨k, hk⟩ := h.asleep p hmem
  exact hp k hk

/-- A step by which no thread falls asleep, and no broadcast is dropped. -/
theorem Watched.move {p : P} {sh : Shared P σ} {l : Place κ} (h : Watched s) (hsub : sh.sleepers ⊆ s.shared.sleepers)
    (hp : p ∉ sh.sleepers) (hcount : s.shared.count.toInt ≤ 0 → sh.count.toInt ≤ 0 ∨ l.pending)
    (hpending : (s.loc p).pending → l.pending) : Watched (s.move p sh l) := by
  refine ⟨members_leave (A := fun l : Place κ => ∃ k, l = .downAsleep k) h.asleep hsub hp, fun hne => ?_⟩
  rcases h.watched (hne.mono hsub) with hle | ⟨q, hq⟩
  · exact (hcount hle).imp_right fun hl => ⟨p, by simpa using hl⟩
  · refine .inr ⟨q, ?_⟩
    by_cases hqp : q = p
    · subst hqp
      simpa using hpending hq
    · rwa [State.move_other hqp]

theorem psem_watched (hc : 0 ≤ c.toInt) (h : Runs U c rest place tr s) : Watched s := by
  refine Run.invariant (I := fun _ s => Watched s) ⟨fun p hp => absurd hp (Set.notMem_empty p), fun hne =>
    absurd hne Set.not_nonempty_empty⟩ ?_ h
  intro tr s p e sh l hrun ih hstep
  have hloaded : (s.loc p).xsem.inside → Loaded s.shared.count (some (s.loc p).xsem) :=
    fun hp => (((psem_refines_xsem hrun).counted hc).held p hp).loaded
  have hwait := fun k => @psem_about_to_wait P σ κ ε _ U c rest place tr s hrun p k
  have hmove := @Watched.move P σ κ _ s p sh l ih
  have hnot := ih.notMem (p := p)
  generalize hl : s.loc p = l₀ at hstep hmove hloaded hwait hnot
  generalize hsh : s.shared = sh₀ at *
  cases hstep with
  | own | callDown | lockDown | test | testFails | loadDown | unlockDown | returnDown | relockDown | callUp | lockUp
  | loadUp => exact hmove subset_rfl (hnot nofun) .inl nofun
  | decrement =>
    obtain ⟨rfl, hpos⟩ := hloaded trivial
    exact hmove subset_rfl (hnot nofun) (fun hle => absurd hpos (by omega)) nofun
  | increment => exact hmove subset_rfl (hnot nofun) (fun _ => .inr trivial) nofun
  | unlockUp => exact hmove subset_rfl (hnot nofun) .inl fun _ => trivial
  | condWait =>
    have hcount := Int.not_lt.1 (hwait _ rfl)
    exact ⟨members_join (A := fun l : Place κ => ∃ k, l = .downAsleep k) (hsh ▸ ih.asleep) ⟨_, rfl⟩, fun _ => .inl hcount⟩
  | condWaitWakes => exact hmove (fun q hq => hq.1) (fun hq => hq.2 rfl) .inl nofun
  | broadcast => exact ⟨fun q hq => absurd hq (Set.notMem_empty q), fun hne => absurd hne Set.not_nonempty_empty⟩

/-- **The same counting semaphore.** For every initial count `c` of at least 0
and every run of any threads, whatever calls they make:
- at no point have more decrements been executed than `c` and the increments
  before them;
- the count is `c` plus the increments minus the decrements in 32-bit
  arithmetic, and exactly so where that is within `INT_MAX`;
- every `psem_down` that returned has executed one decrement since its call;
- the count is not positive with a thread asleep in `psem_down`, no `psem_up`
  between its increment and its broadcast, and no thread awake in `psem_down`
  before its decrement. -/
theorem psem_counts (hc : 0 ≤ c.toInt) (h : Runs U c rest place tr s) :
    (∀ a, a <+: tr → (decrements a : Int) ≤ c.toInt + increments a) ∧
      s.shared.count = BitVec.ofInt 32 (c.toInt + increments tr - decrements tr) ∧
      (c.toInt + increments tr - decrements tr ≤ intMax →
        s.shared.count.toInt = c.toInt + increments tr - decrements tr) ∧
      (∀ a p b, tr = a ++ (p, .returnDown) :: b → decrementsSince p a = 1) ∧
      ¬ (0 < s.shared.count.toInt ∧ (∃ p, Asleep s p) ∧ (¬ ∃ p, (s.loc p).pending) ∧
        ¬ ∃ p, (s.loc p).before ∧ ¬ Asleep s p) := by
  have hxsem := psem_refines_xsem h
  obtain ⟨o, hcounted⟩ := (hxsem.counted hc).exists_holder
  have hcount : s.shared.count = BitVec.ofInt 32 (balance c tr) := hcounted.count
  have hnonneg := hxsem.balance_nonneg hc
  refine ⟨hxsem.decrements_le hc, hcount, fun hmax => ?_, hxsem.returned, fun hstuck => ?_⟩
  · rw [hcount]
    exact toInt_ofInt_of_isInt ⟨by unfold intMax; omega, hmax⟩
  · obtain ⟨hpos, ⟨p, -, hp⟩, hpending, -⟩ := hstuck
    rcases (psem_watched hc h).watched ⟨p, hp⟩ with hle | hsome
    · omega
    · exact hpending hsome

/-- Threads that bracket a section with the two calls, as the test's do, are in
it at most `c` at a time. -/
theorem psem_sections [Finite P] {C : Client P σ κ ε} (hc : 0 ≤ c.toInt) (hplace : ∀ p, ¬ C.inside (place p))
    (h : Runs (sections C) c rest place tr s) : ((Holders C fun p => (s.loc p).xsem).ncard : Int) ≤ c.toInt := by
  have hunits := (psem_refines_xsem h).units hc hplace
  have hsum := hunits.sum
  have hnonneg := hunits.nonneg
  simp only at hsum hnonneg
  omega

section Walks

omit [DecidableEq P]

variable (p : P)

theorem anyCalls_sleeps (sleepers : Set P) :
    Walks (psem anyCalls) p (⟨0, false, sleepers, ()⟩, .user ())
      (⟨0, false, insert p sleepers, ()⟩, .downAsleep ()) := by
  refine Walks.step (.callDown anyCalls_mayDown) ?_
  refine Walks.step (.lockDown rfl) ?_
  refine Walks.step (.testFails (show ¬ 0 < (0 : BitVec 32).toInt by decide)) ?_
  exact Walks.step .condWait .refl

theorem anyCalls_increments (count : BitVec 32) (sleepers : Set P) :
    Walks (psem anyCalls) p (⟨count, false, sleepers, ()⟩, .user ())
      (⟨count + 1, false, sleepers, ()⟩, .upBroadcast ()) := by
  refine Walks.step (.callUp anyCalls_mayUp) ?_
  refine Walks.step (.lockUp rfl) ?_
  refine Walks.step .loadUp ?_
  refine Walks.step (.increment anyCalls_mayUp) ?_
  exact Walks.step .unlockUp .refl

end Walks

/-- A thread sleeps, and another is about to broadcast. -/
theorem psem_counts_sample :
    ∃ tr s, Runs (P := Fin 2) anyCalls 0 () (fun _ => ()) tr s ∧ s.shared.count = 1 ∧ Asleep s 0 ∧
      s.shared.count = BitVec.ofInt 32 ((0 : BitVec 32).toInt + increments tr - decrements tr) := by
  have h : Run (psem anyCalls) (created 0 () fun _ : Fin 2 => ()) [] (created 0 () fun _ => ()) := .nil
  obtain ⟨_, h⟩ := h.walk (anyCalls_sleeps (0 : Fin 2) ∅)
  obtain ⟨tr, h⟩ := h.walk (anyCalls_increments (1 : Fin 2) 0 _)
  exact ⟨tr, _, h, rfl, ⟨⟨(), rfl⟩, Set.mem_insert 0 ∅⟩, (psem_counts (by decide) h).2.1⟩

/-- A count of `INT_MAX` and one `psem_up`: the count is negative, and not
what was counted. -/
theorem psem_count_wraps :
    ∃ tr s, Runs (P := Fin 1) anyCalls 2147483647 () (fun _ => ()) tr s ∧ s.shared.count.toInt < 0 ∧
      s.shared.count.toInt ≠ (2147483647 : BitVec 32).toInt + increments tr - decrements tr := by
  have h : Run (psem anyCalls) (created 2147483647 () fun _ : Fin 1 => ()) []
      (created 2147483647 () fun _ => ()) := .nil
  obtain ⟨tr, h⟩ := h.walk (anyCalls_increments (0 : Fin 1) 2147483647 ∅)
  have hneg : (2147483647 + 1 : BitVec 32).toInt < 0 := by decide
  refine ⟨tr, _, h, hneg, fun heq => ?_⟩
  have hnonneg := (psem_refines_xsem h).balance_nonneg (by decide)
  have hbalance : balance 2147483647 tr < 0 := lt_of_eq_of_lt heq.symm hneg
  omega

end SugarNSpice.Psem
