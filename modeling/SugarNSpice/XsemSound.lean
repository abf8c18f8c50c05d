/-
A semaphore in use, however it came to be.

`Sound` puts together what holds of it: one holder of `sem_lock`, the count
equal to what was done to it, enough processes to see to the sleepers
(`Tended`), no sleeper on the lock forgotten. Each step in use preserves it
(`Sound.step`), and a sound semaphore is never stuck. Here the count does not
wrap, so it is told as an integer. Two steps from outside preserve it as well:
the end of a process at a time when nothing was done yet, and a store of the
count that finds things `Ready`.
-/
import SugarNSpice.XsemFacts

namespace SugarNSpice.Xsem

open Processes Xlock CLang

variable {P σ κ ε : Type}

/-! ## The count -/

/-- The count, with the holder of `sem_lock` at `o`, where it has not wrapped. -/
structure Tallied (b : BitVec 32) (o : Option (Place κ)) (tr : List (P × Event ε)) (m : Sem P σ) : Prop where
  count : m.count.toInt = balance b tr
  loaded : Loaded m.count o

variable {U : User P σ κ ε} {b c : BitVec 32} {tr : List (P × Event ε)}

theorem Tallied.same {o o' : Option (Place κ)} {m m' : Sem P σ} {p : P} {e : Option (Event ε)}
    (h : Tallied b o tr m) (hcount : m'.count = m.count) (he : (e.map Event.weight).getD 0 = 0)
    (hl : Loaded m.count o') : Tallied b o' (tr ++ events p e) m' := by
  refine ⟨?_, hcount ▸ hl⟩
  rw [hcount, h.count, balance_events, he, Int.add_zero]

theorem Tallied.inner {p : P} {m m' : Sem P σ} {l l' : Place κ} {e : Option (Event ε)} (hin : l.inside)
    (hmax : ∀ v k, l = .upStore v k → v.toInt ≠ intMax) (hstep : xsemStep U p m l e m' l')
    (h : Tallied b (some l) tr m) : Tallied b (some l') (tr ++ events p e) m' := by
  cases hstep with
  | test hpos => exact h.same rfl rfl hpos
  | testFails => exact h.same rfl rfl trivial
  | loadDown => exact h.same rfl rfl ⟨rfl, h.loaded⟩
  | decrement =>
    obtain ⟨rfl, hpos⟩ := h.loaded
    refine ⟨?_, trivial⟩
    rw [balance_events, ← h.count]
    exact toInt_sub_one (by unfold intMax; omega)
  | loadUp => exact h.same rfl rfl rfl
  | @increment _ _ k _ v =>
    have hv : v = m.count := h.loaded
    have hlt : v.toInt < intMax := by
      have hle := (isInt_toInt v).2
      have hne := hmax v k rfl
      omega
    refine ⟨?_, trivial⟩
    rw [balance_events, ← h.count, ← hv]
    exact toInt_add_one hlt
  | _ => exact hin.elim

theorem Tallied.outer {p : P} {m m' : Sem P σ} {l l' : Place κ} {e : Option (Event ε)}
    {o : Option (Place κ)} (hout : ¬ l.inside) (hstep : xsemStep U p m l e m' l') (h : Tallied b o tr m) :
    Tallied b o (tr ++ events p e) m' := by
  obtain ⟨hcount, hweight⟩ := hstep.outer_keeps hout
  exact h.same hcount hweight h.loaded

theorem loaded_of_lockCall {l l' : Place κ} (h : lockCall l l') (v : BitVec 32) : Loaded v (some l') := by
  cases h <;> trivial

/-! ## The sleepers -/

/-- At least as many wakes to come as there are sleepers. -/
def Covered (queue : Set P) (loc : P → Place κ) : Prop := queue.ncard ≤ {p | (loc p).pending}.ncard

/-- The queue holds sleepers only, and as long as there are any the count is
not more than those that help, or each of them has a wake to come. -/
structure Tended (m : Sem P σ) (loc : P → Place κ) : Prop where
  asleep : ∀ p ∈ m.queue, ∃ k, loc p = .downAsleep k
  enough : m.queue.Nonempty → m.count.toInt ≤ (Helps m.queue loc).ncard ∨ Covered m.queue loc

theorem Tended.of_attentive {m : Sem P σ} {loc : P → Place κ} (h : Attentive m loc) : Tended m loc :=
  ⟨h.asleep, fun hne => .inl (h.enough hne)⟩

theorem Covered.mono [Finite P] {queue queue' : Set P} {loc loc' : P → Place κ} (h : Covered queue loc)
    (hqueue : queue' ⊆ queue) (hpending : ∀ p, (loc p).pending → (loc' p).pending) : Covered queue' loc' :=
  calc queue'.ncard
    _ ≤ queue.ncard := Set.ncard_le_ncard hqueue
    _ ≤ {p | (loc p).pending}.ncard := h
    _ ≤ {p | (loc' p).pending}.ncard := Set.ncard_le_ncard hpending

section Tended

variable [DecidableEq P] {p : P} {l : Place κ} {g : State P (Bool × Sem P σ) (Place κ)}

theorem Covered.stay [Finite P] {queue queue' : Set P} {loc : P → Place κ} (h : Covered queue loc)
    (hqueue : queue' ⊆ queue) (hl : (loc p).pending → l.pending) : Covered queue' (Function.update loc p l) := by
  refine h.mono hqueue fun q hq => ?_
  by_cases hqp : q = p
  · subst hqp
    rw [Function.update_self]
    exact hl hq
  · rwa [Function.update_of_ne hqp]

/-- A wake: one sleeper fewer, if there is one. -/
theorem Covered.wake [Finite P] {queue queue' : Set P} {loc : P → Place κ} (h : Covered queue loc)
    (hwakes : FutexWakes queue queue') : Covered queue' (Function.update loc p l) := by
  have hfewer : queue'.ncard ≤ queue.ncard - 1 := by
    by_cases hne : queue.Nonempty
    · have hlt := Set.ncard_lt_ncard (hwakes.1.ssubset_of_ne (hwakes.2 hne))
      omega
    · have hempty := Set.subset_eq_empty hwakes.1 (Set.not_nonempty_iff_eq_empty.1 hne)
      rw [hempty, Set.ncard_empty]
      exact Nat.zero_le _
  have hothers : {q | (loc q).pending} \ {p} ⊆ {q | (Function.update loc p l q).pending} := by
    intro q hq
    have hqp : q ≠ p := hq.2
    rw [Set.mem_ofPred_eq, Function.update_of_ne hqp]
    exact hq.1
  have hcard := Set.ncard_le_ncard hothers
  have hdiff := Set.ncard_le_ncard_sdiff_add_ncard {q | (loc q).pending} {p}
  rw [Set.ncard_singleton] at hdiff
  unfold Covered at h ⊢
  omega

theorem Tended.asleep_step {e : Option (Event ε)} {sh : Bool × Sem P σ} (h : Tended g.shared.2 g.loc)
    (hstep : (xsem U).guarded p g.shared (g.loc p) e sh l) :
    ∀ q ∈ sh.2.queue, ∃ k, (g.move p sh l).loc q = .downAsleep k := by
  have hmove := @members_leave _ _ _ (fun l : Place κ => ∃ k, l = .downAsleep k)
    g.shared.2.queue sh.2.queue g.loc p l h.asleep
  have hjoin := @members_join _ _ _ (fun l : Place κ => ∃ k, l = .downAsleep k) g.shared.2.queue g.loc p l h.asleep
  have hnot : (∀ k, g.loc p ≠ .downAsleep k) → p ∉ g.shared.2.queue := by
    intro hp hq
    obtain ⟨k, hk⟩ := h.asleep p hq
    exact hp k hk
  generalize g.loc p = l₀ at hstep hnot
  generalize g.shared = sh₀ at hstep hnot hmove hjoin
  cases hstep with
  | own hs =>
    cases hs with
    | own | callDown | test | testFails | loadDown | decrement | returnDown | futexWaitAgain | callUp | loadUp
    | increment => exact hmove subset_rfl (hnot nofun)
    | futexWait => exact hjoin ⟨_, rfl⟩
    | futexWaitReturns => exact hmove (fun q hq => hq.1) fun hq => hq.2 rfl
    | futexWake hwakes => exact hmove hwakes.1 fun hq => hnot nofun (hwakes.1 hq)
  | acquire hl => cases hl <;> exact hmove subset_rfl (hnot nofun)
  | release hu => cases hu <;> exact hmove subset_rfl (hnot nofun)

/-- A step where each sleeper has a wake to come: so has each after it, or the
count is 0. -/
theorem Covered.step [Finite P] {e : Option (Event ε)} {sh : Bool × Sem P σ} (h : Covered g.shared.2.queue g.loc)
    (hstep : (xsem U).guarded p g.shared (g.loc p) e sh l) :
    Covered sh.2.queue (g.move p sh l).loc ∨ sh.2.count = 0 := by
  have hstay := @Covered.stay _ _ _ p l _ g.shared.2.queue sh.2.queue g.loc h
  have hwake := @Covered.wake _ _ _ p l _ g.shared.2.queue sh.2.queue g.loc h
  unfold State.move
  generalize g.loc p = l₀ at hstep hstay
  generalize g.shared = sh₀ at hstep hstay hwake
  cases hstep with
  | own hs =>
    cases hs with
    | own | callDown | test | testFails | loadDown | decrement | returnDown | futexWaitAgain | callUp | loadUp =>
      exact .inl (hstay subset_rfl False.elim)
    | increment => exact .inl (hstay subset_rfl fun _ => trivial)
    | futexWait hzero => exact .inr hzero
    | futexWaitReturns => exact .inl (hstay (fun q hq => hq.1) False.elim)
    | futexWake hwakes => exact .inl (hwake hwakes)
  | acquire hl => cases hl <;> exact .inl (hstay subset_rfl False.elim)
  | release hu =>
    cases hu with
    | down | release => exact .inl (hstay subset_rfl False.elim)
    | up => exact .inl (hstay subset_rfl fun _ => trivial)

theorem Tended.step [Finite P] {e : Option (Event ε)} {sh : Bool × Sem P σ} (h : Tended g.shared.2 g.loc)
    (hloaded : (g.loc p).inside → Loaded g.shared.2.count (some (g.loc p)))
    (hstep : (xsem U).guarded p g.shared (g.loc p) e sh l) : Tended sh.2 (g.move p sh l).loc := by
  by_cases hcov : Covered g.shared.2.queue g.loc
  · refine ⟨h.asleep_step hstep, fun _ => ?_⟩
    rcases hcov.step hstep with hcov' | hzero
    · exact .inr hcov'
    · refine .inl ?_
      rw [hzero]
      exact Int.natCast_nonneg _
  · have hatt : Attentive g.shared.2 g.loc := ⟨h.asleep, fun hne => (h.enough hne).resolve_right hcov⟩
    exact .of_attentive (hatt.step hloaded hstep)

end Tended

/-! ## The semaphore -/

/-- A semaphore over an atomic lock. -/
def guardedView (v : State P (Shared P (Sem P σ)) (Local (Place κ))) :
    State P (Bool × Sem P σ) (Place κ) := ⟨v.shared.view, fun p => (v.loc p).place⟩

/-- What holds of a semaphore in use, whose count was `b` before anything was
done to it. -/
structure Sound (U : User P σ κ ε) (b : BitVec 32) (tr : List (P × Event ε))
    (v : State P (Shared P (Sem P σ)) (Local (Place κ))) : Prop where
  word : v.shared.word = 0 ∨ v.shared.word = 1
  mutex : Mutex (xsem U) ((guardedView v).shared.1 = true) (guardedView v).loc
  tallied : Kept (xsem U) (Tallied b) tr (guardedView v)
  tended : Tended (guardedView v).shared.2 (guardedView v).loc
  noneForgotten : NoneForgotten v

section Sound

variable [DecidableEq P] {v : State P (Shared P (Sem P σ)) (Local (Place κ))}

theorem guardedView_move (p : P) (x : Shared P (Sem P σ)) (l : Local (Place κ)) :
    guardedView (v.move p x l) = (guardedView v).move p x.view l.place := by
  rw [guardedView, State.move_shared, State.map_move Local.place]
  rfl

/-- **A step in use** preserves what holds. -/
theorem Sound.step [Finite P] {p : P} {e : Option (Event ε)} {x : Shared P (Sem P σ)}
    {l : Local (Place κ)} (h : Sound U b tr v)
    (hmax : ∀ w k, (v.loc p).place = .upStore w k → w.toInt ≠ intMax)
    (hstep : xlock (xsem U) p v.shared (v.loc p) e x l) : Sound U b (tr ++ events p e) (v.move p x l) := by
  have hword := xlock_step_word hstep h.word
  have hnone := h.noneForgotten.step h.word hstep
  rcases xlock_step_guarded hstep with ⟨rfl, hview, hplace⟩ | hguarded
  · have hsame : guardedView (v.move p x l) = guardedView v := by
      rw [guardedView_move, State.move, hplace, hview]
      exact congrArg _ (Function.update_eq_self p _)
    rw [events, Option.map_none, Option.toList_none, List.append_nil]
    exact ⟨hword, hsame ▸ h.mutex, hsame ▸ h.tallied, hsame ▸ h.tended, hnone⟩
  · refine ⟨hword, ?_, ?_, ?_, hnone⟩
    · rw [guardedView_move]
      exact h.mutex.step hguarded
    · rw [guardedView_move]
      refine h.tallied.step h.mutex ?_ ?_ ?_ ?_ hguarded
      · exact fun hlock ht => ⟨ht.count, loaded_of_lockCall hlock _⟩
      · exact fun _ ht => ⟨ht.count, trivial⟩
      · exact fun hin hs ht => ht.inner hin hmax hs
      · exact fun hout hs o ht => ht.outer hout hs
    · rw [guardedView_move]
      exact h.tended.step (fun hin => (h.tallied.held p hin).loaded) hguarded

omit [DecidableEq P] in
theorem Sound.word_zero (h : Sound U b tr v) (hno : ∀ q, ¬ (v.loc q).place.inside) : v.shared.word = 0 := by
  refine h.word.resolve_right fun hone => ?_
  obtain ⟨q, hq⟩ := h.mutex.held_iff.1 (decide_eq_true hone)
  exact hno q hq

/-- A process is gone, at a time when nothing has been done yet. -/
theorem Sound.kill {p : P} {k : κ} (h : Sound U b tr v) (hp : ¬ (v.loc p).place.inside) (hword : v.shared.word = 0)
    (hqueue : v.shared.queue = ∅) (hsem : v.shared.rest.queue = ∅) :
    Sound U b tr (v.move p v.shared ⟨.user k, .out⟩) := by
  have hfree : ∀ q, ¬ (v.loc q).place.inside := by
    intro q hq
    have hone : v.shared.word = 1 := of_decide_eq_true (h.mutex.held_iff.2 ⟨q, hq⟩)
    omega
  have hfree' : ∀ q, ¬ ((v.move p v.shared ⟨.user k, .out⟩).loc q).place.inside := by
    intro q hq
    by_cases hqp : q = p
    · subst hqp
      rw [State.move_self] at hq
      exact hq
    · rw [State.move_other hqp] at hq
      exact hfree q hq
  have hview : (guardedView (v.move p v.shared ⟨.user k, .out⟩)).shared = (guardedView v).shared := rfl
  refine ⟨h.word, ?_, ⟨fun q hq => absurd hq (hfree' q), fun _ => h.tallied.free hfree⟩, ?_, ?_⟩
  · rw [guardedView_move]
    exact h.mutex.stay (iff_of_false hp id)
  · refine ⟨fun q hq => ?_, fun hne => ?_⟩
    · rw [hview] at hq
      exact absurd hq (hsem ▸ Set.notMem_empty q)
    · rw [hview] at hne
      exact absurd hne (hsem ▸ Set.not_nonempty_empty)
  · refine ⟨fun q hq => ?_, fun hne => ?_⟩
    · exact absurd hq (hqueue ▸ Set.notMem_empty q)
    · exact absurd hne (hqueue ▸ Set.not_nonempty_empty)

/-- What the store of the count finds where nothing is lost by it. -/
structure Ready (c : BitVec 32) (v : State P (Shared P (Sem P σ)) (Local (Place κ))) : Prop where
  count : v.shared.rest.count = 0
  unstored : c ≠ 0 → ∀ p w k, (v.loc p).place ≠ .upStore w k
  enough : v.shared.rest.queue.Nonempty →
    c.toInt ≤ (Helps v.shared.rest.queue fun p => (v.loc p).place).ncard ∨
      Covered v.shared.rest.queue fun p => (v.loc p).place

/-- The shared state after the store of the count. -/
def seeded (c : BitVec 32) (x : Shared P (Sem P σ)) : Shared P (Sem P σ) :=
  { x with rest := { x.rest with count := c } }

omit [DecidableEq P] in
theorem balance_eq_add (c : BitVec 32) (tr : List (P × Event ε)) : balance c tr = c.toInt + balance 0 tr := by
  have hzero : (0 : BitVec 32).toInt = 0 := rfl
  simp only [balance, hzero]
  omega

theorem loaded_of_zero {o : Option (Place κ)} (h : Loaded 0 o)
    (hstore : c ≠ 0 → ∀ w k, o ≠ some (.upStore w k)) : Loaded c o := by
  by_cases hc : c = 0
  · rwa [hc]
  · cases o with
    | none => trivial
    | some l =>
      cases l with
      | downLoad =>
        have hpos : 0 < (0 : BitVec 32).toInt := h
        exact absurd hpos (by decide)
      | downStore => exact absurd h.2 (by decide)
      | upStore w k => exact absurd rfl (hstore hc w k)
      | _ => trivial

omit [DecidableEq P] in
/-- **The store of the count** loses nothing where it should not. -/
theorem Sound.seed (h : Sound U 0 tr v) (hready : Ready c v) : Sound U c tr ⟨seeded c v.shared, v.loc⟩ := by
  have htally : ∀ o : Option (Place κ), Tallied 0 o tr v.shared.rest →
      (c ≠ 0 → ∀ w k, o ≠ some (.upStore w k)) → Tallied c o tr (seeded c v.shared).rest := by
    intro o ho hstore
    have hzero : balance 0 tr = 0 := by
      rw [← ho.count, hready.count]
      rfl
    refine ⟨?_, loaded_of_zero (hready.count ▸ ho.loaded) hstore⟩
    rw [balance_eq_add, hzero, Int.add_zero]
    rfl
  refine ⟨h.word, h.mutex, ⟨fun p hp => ?_, fun hno => ?_⟩, ⟨h.tended.asleep, hready.enough⟩,
    ⟨h.noneForgotten.asleep, h.noneForgotten.attended⟩⟩
  · exact htally _ (h.tallied.held p hp) fun hc w k heq => hready.unstored hc p w k (Option.some.inj heq)
  · exact htally none (h.tallied.free hno) fun _ _ _ => nofun

/-- A wake is to come: from an `xsem_up` between its increment and its
`FUTEX_WAKE`, or, where a process in `xsem_down` sleeps for `sem_lock`, from
those that attend to the lock. -/
def WakePending (v : State P (Shared P (Sem P σ)) (Local (Place κ))) : Prop :=
  (∃ p, (v.loc p).place.pending) ∨ ((∃ p, (v.loc p).place.before ∧ Asleep v p) ∧ Attended v)

/-- Awake in `xsem_down`, before the decrement. -/
def AwakeInDown (v : State P (Shared P (Sem P σ)) (Local (Place κ))) (p : P) : Prop :=
  (v.loc p).place.before ∧ ¬ AsleepInDown v p ∧ ¬ Asleep v p

omit [DecidableEq P] in
theorem Sound.not_stuck [Finite P] (h : Sound U b tr v) :
    ¬ (0 < v.shared.rest.count.toInt ∧ (∃ p, AsleepInDown v p) ∧ ¬ WakePending v ∧ ¬ ∃ p, AwakeInDown v p) := by
  intro hstuck
  obtain ⟨hpos, ⟨p, -, hp⟩, hwake, hawake⟩ := hstuck
  have hnone : ∀ q, ¬ (v.loc q).place.pending := fun q hq => hwake (.inl ⟨q, hq⟩)
  have hsome : (Helps v.shared.rest.queue fun p => (v.loc p).place).Nonempty := by
    rw [Set.nonempty_iff_ne_empty]
    intro hempty
    rcases h.tended.enough ⟨p, hp⟩ with henough | hcov
    · have henough' : v.shared.rest.count.toInt ≤ (Helps v.shared.rest.queue fun p => (v.loc p).place).ncard := henough
      rw [hempty, Set.ncard_empty] at henough'
      omega
    · have hzero : {q | (v.loc q).place.pending} = ∅ := Set.eq_empty_of_forall_notMem hnone
      have hcov' : v.shared.rest.queue.ncard ≤ {q | (v.loc q).place.pending}.ncard := hcov
      rw [hzero, Set.ncard_empty, Nat.le_zero, Set.ncard_eq_zero] at hcov'
      exact absurd hp (hcov' ▸ Set.notMem_empty p)
  obtain ⟨q, hq | ⟨hbefore, hq⟩⟩ := hsome
  · exact hnone q hq
  · by_cases hlock : Asleep v q
    · exact hwake (.inr ⟨⟨q, hbefore, hlock⟩, h.noneForgotten.attended ⟨q, hlock.2⟩⟩)
    · exact hawake ⟨q, hbefore, fun hdown => hq hdown.2, hlock⟩

end Sound

end SugarNSpice.Xsem
