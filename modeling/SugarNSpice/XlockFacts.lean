/-
What the lock gives its clients.

Each run of the lock's code is a run over an atomic lock
(`xlock_refines_guarded`): the swap of 0 to 1 takes it, the swap of 1 to 0
gives it back, and no other step is seen. So mutual exclusion and the rule
for a resource behind the lock come from there. What is left to say of the
code itself is that the holder's swap never fails and that no sleeper is
forgotten.
-/
import SugarNSpice.Xlock

namespace SugarNSpice.Xlock

open Processes

variable {P σ κ ε : Type} [DecidableEq P] {C : Client P σ κ ε} {rest : σ} {place : P → κ} {tr : List (P × ε)}
  {s : State P (Shared P σ) (Local κ)}

/-- The atomic lock's view of the shared state. -/
def Shared.view (sh : Shared P σ) : Bool × σ := (decide (sh.word = 1), sh.rest)

omit [DecidableEq P] in
/-- What a step is to the atomic lock: nothing, or one of its own. -/
theorem xlock_step_guarded {p : P} {sh sh' : Shared P σ} {l l' : Local κ} {e : Option ε}
    (h : xlock C p sh l e sh' l') :
    (e = none ∧ sh'.view = sh.view ∧ l'.place = l.place) ∨ C.guarded p sh.view l.place e sh'.view l'.place := by
  cases h with
  | own hs => exact .inr (.own hs)
  | rawLockIt hw hlock =>
    have hfree : Shared.view sh = (false, sh.rest) := by simp [Shared.view, hw]
    rw [hfree]
    exact .inr (.acquire hlock)
  | rawUnlockIt hw hunlock => exact .inr (.release hunlock)
  | callLock | rawLockItFails | futexWait | futexWaitAgain | futexWaitReturns | callUnlock | rawUnlockItFails
  | futexWake => exact .inl ⟨rfl, rfl, rfl⟩

/-- **The lock refines an atomic one.** -/
theorem xlock_refines_guarded (h : Run (xlock C) (start rest place) tr s) :
    Run C.guarded ⟨(false, rest), place⟩ tr ⟨s.shared.view, fun p => (s.loc p).place⟩ := by
  rw [← rename_some tr]
  refine Run.simulate Shared.view Local.place some ?_ h
  intro tr s p e sh' l _ hstep
  rw [Option.bind_fun_some]
  exact xlock_step_guarded hstep

/-- **Mutual exclusion**, and the word is 1 exactly while a process is between
its swap that took the lock and the one that gives it back. -/
theorem xlock_mutex (h0 : ∀ p, ¬ C.inside (place p)) (h : Run (xlock C) (start rest place) tr s) :
    Mutex C (s.shared.word = 1) fun p => (s.loc p).place :=
  (guarded_mutex h0 (xlock_refines_guarded h)).congr (by simp [Shared.view])

omit [DecidableEq P] in
theorem xlock_step_word {p : P} {sh sh' : Shared P σ} {l l' : Local κ} {e : Option ε} (h : xlock C p sh l e sh' l')
    (hword : sh.word = 0 ∨ sh.word = 1) : sh'.word = 0 ∨ sh'.word = 1 := by
  cases h with
  | rawLockIt => exact .inr rfl
  | rawUnlockIt => exact .inl rfl
  | _ => exact hword

theorem xlock_word (h : Run (xlock C) (start rest place) tr s) : s.shared.word = 0 ∨ s.shared.word = 1 := by
  refine Run.invariant (I := fun _ s => s.shared.word = 0 ∨ s.shared.word = 1) (.inl rfl) ?_ h
  exact fun tr s p e sh l _ ih hstep => xlock_step_word hstep ih

/-- A process in the lock's code came there by a call. -/
def Called (C : Client P σ κ ε) (l : Local κ) : Prop :=
  (l.phase.locking → ∃ k, C.lock l.place k) ∧ (l.phase = .unlockCas → ∃ k, C.unlock l.place k)

theorem xlock_called (h : Run (xlock C) (start rest place) tr s) (p : P) : Called C (s.loc p) := by
  refine Run.everyone (I := fun _ _ _ l => Called C l) ?_ ?_ (fun _ _ _ _ _ _ _ _ _ ih _ => ih) h p
  · exact fun p => ⟨False.elim, nofun⟩
  · intro tr s p e sh l _ ih hstep
    generalize s.shared = sh₀, s.loc p = l₀ at hstep ih
    cases hstep with
    | own | rawLockIt | rawUnlockIt | futexWake => exact ⟨False.elim, nofun⟩
    | callLock hl => exact ⟨fun _ => ⟨_, hl⟩, nofun⟩
    | callUnlock hu => exact ⟨False.elim, fun _ => ⟨_, hu⟩⟩
    | rawLockItFails | futexWait | futexWaitAgain | futexWaitReturns => exact ⟨fun _ => ih.1 trivial, nofun⟩
    | rawUnlockItFails => exact ih

/-- The holder's swap back never fails: the word is 1 whenever a process is
about to make it. -/
theorem xlock_unlock_succeeds (h0 : ∀ p, ¬ C.inside (place p)) (h : Run (xlock C) (start rest place) tr s) {p : P}
    (hp : (s.loc p).phase = .unlockCas) : s.shared.word = 1 := by
  obtain ⟨k, hu⟩ := (xlock_called h p).2 hp
  exact (xlock_mutex h0 h).held_iff.2 ⟨p, (C.unlock_inside hu).1⟩

/-! ## Wake-ups -/

omit [DecidableEq P] in
theorem FutexWakes.exists_woken {queue queue' : Set P} (h : FutexWakes queue queue') (hne : queue'.Nonempty) :
    ∃ q ∈ queue, q ∉ queue' := by
  by_contra hall
  simp only [not_exists, not_and, not_not] at hall
  exact h.2 (hne.mono h.1) (Set.Subset.antisymm h.1 hall)

/-- Asleep in `xlock_lock`. -/
def Asleep (s : State P (Shared P σ) (Local κ)) (p : P) : Prop := (s.loc p).phase = .lockAsleep ∧ p ∈ s.shared.queue

/-- In `xlock_lock`'s loop and not asleep there. -/
def Awake (s : State P (Shared P σ) (Local κ)) (p : P) : Prop := (s.loc p).phase.locking ∧ p ∉ s.shared.queue

/-- Someone will let a sleeper go, or take the lock first: the holder, an
unlocker that has yet to wake, or a process awake in `xlock_lock`. -/
def Attended (s : State P (Shared P σ) (Local κ)) : Prop :=
  s.shared.word = 1 ∨ (∃ p, (s.loc p).phase = .unlockWake) ∨ ∃ p, Awake s p

theorem Attended.move {p : P} {sh : Shared P σ} {l : Local κ} (h : Attended s) (hword : sh.word = s.shared.word)
    (hqueue : sh.queue = s.shared.queue) (hwake : (s.loc p).phase ≠ .unlockWake) (hlock : ¬ (s.loc p).phase.locking) :
    Attended (s.move p sh l) := by
  rcases h with hw | ⟨q, hq⟩ | ⟨q, hq, hnot⟩
  · exact .inl (hword.trans hw)
  · have hqp : q ≠ p := fun he => hwake (he ▸ hq)
    exact .inr (.inl ⟨q, by rwa [State.move_other hqp]⟩)
  · have hqp : q ≠ p := fun he => hlock (he ▸ hq)
    refine .inr (.inr ⟨q, ?_, ?_⟩)
    · rwa [State.move_other hqp]
    · rwa [State.move_shared, hqueue]

/-- The queue holds sleepers only, and no sleeper is forgotten. -/
structure NoneForgotten (s : State P (Shared P σ) (Local κ)) : Prop where
  asleep : ∀ p ∈ s.shared.queue, (s.loc p).phase = .lockAsleep
  attended : s.shared.queue.Nonempty → Attended s

omit [DecidableEq P] in
theorem NoneForgotten.notMem {p : P} (h : NoneForgotten s) (hp : (s.loc p).phase ≠ .lockAsleep) :
    p ∉ s.shared.queue := fun hq => hp (h.asleep p hq)

theorem NoneForgotten.asleep_move {p : P} {sh : Shared P σ} {l : Local κ} (h : NoneForgotten s)
    (hqueue : sh.queue ⊆ s.shared.queue) (hp : p ∉ sh.queue) :
    ∀ q ∈ (s.move p sh l).shared.queue, ((s.move p sh l).loc q).phase = .lockAsleep :=
  members_leave (A := fun l : Local κ => l.phase = .lockAsleep) h.asleep hqueue hp

theorem NoneForgotten.step {p : P} {e : Option ε} {sh : Shared P σ} {l : Local κ} (ih : NoneForgotten s)
    (hword : s.shared.word = 0 ∨ s.shared.word = 1) (hstep : xlock C p s.shared (s.loc p) e sh l) :
    NoneForgotten (s.move p sh l) := by
  have hasleep := @NoneForgotten.asleep_move _ _ _ _ s p sh l ih
  have hnot := ih.notMem (p := p)
  have hmove := fun hne => @Attended.move _ _ _ _ s p sh l (ih.attended hne)
  generalize hl : s.loc p = l₀ at hstep hnot hmove
  generalize hsh : s.shared = sh₀ at *
  cases hstep with
  | own hs =>
    have hp := hnot nofun
    exact ⟨hasleep subset_rfl hp, fun hne => hmove hne rfl rfl nofun nofun⟩
  | callLock hs =>
    have hp := hnot nofun
    exact ⟨hasleep subset_rfl hp, fun _ => .inr (.inr ⟨p, by simp [Phase.locking], hp⟩)⟩
  | rawLockIt hw hs =>
    have hp := hnot nofun
    exact ⟨hasleep subset_rfl hp, fun _ => .inl rfl⟩
  | rawLockItFails hw =>
    have hp := hnot nofun
    exact ⟨hasleep subset_rfl hp, fun _ => .inl (hword.resolve_left hw)⟩
  | futexWait hw =>
    exact ⟨members_join (A := fun l : Local κ => l.phase = .lockAsleep) (hsh ▸ ih.asleep) rfl, fun _ => .inl hw⟩
  | futexWaitAgain hw =>
    have hp := hnot nofun
    exact ⟨hasleep subset_rfl hp, fun _ => .inr (.inr ⟨p, by simp [Phase.locking], hp⟩)⟩
  | futexWaitReturns =>
    have hp : p ∉ sh₀.queue \ {p} := fun hq => hq.2 rfl
    exact ⟨hasleep (fun q hq => hq.1) hp, fun _ => .inr (.inr ⟨p, by simp [Phase.locking], hp⟩)⟩
  | callUnlock hs =>
    have hp := hnot nofun
    exact ⟨hasleep subset_rfl hp, fun hne => hmove hne rfl rfl nofun nofun⟩
  | rawUnlockIt hw hs =>
    have hp := hnot nofun
    exact ⟨hasleep subset_rfl hp, fun _ => .inr (.inl ⟨p, by simp⟩)⟩
  | rawUnlockItFails hw =>
    have hp := hnot nofun
    exact ⟨hasleep subset_rfl hp, fun hne => hmove hne rfl rfl nofun nofun⟩
  | futexWake hwakes =>
    have hp : p ∉ sh₀.queue := hnot nofun
    refine ⟨hasleep hwakes.1 fun hq => hp (hwakes.1 hq), fun hne => ?_⟩
    -- Whoever was let go is awake now.
    obtain ⟨q, hq, hgone⟩ := hwakes.exists_woken hne
    have hqp : q ≠ p := fun he => hp (he ▸ hq)
    refine .inr (.inr ⟨q, ?_, hgone⟩)
    rw [State.move_other hqp, ih.asleep q (hsh ▸ hq)]
    trivial

/-- **No wake-up is lost**: while a process sleeps in `xlock_lock`, the lock is
held, or an unlocker has yet to wake, or another process is awake in the
loop. -/
theorem xlock_noneForgotten (h : Run (xlock C) (start rest place) tr s) : NoneForgotten s := by
  refine Run.invariant (I := fun _ s => NoneForgotten s) ⟨fun p hp => absurd hp (Set.notMem_empty p), fun hne =>
    absurd hne Set.not_nonempty_empty⟩ ?_ h
  exact fun tr s p e sh l hrun ih hstep => ih.step (xlock_word hrun) hstep

/-- **No state is stuck**: a free lock with a sleeper on it has an unlocker
that has yet to wake, or a process awake in `xlock_lock`. -/
theorem xlock_never_stuck (h : Run (xlock C) (start rest place) tr s) :
    ¬ (s.shared.word = 0 ∧ (∃ p, Asleep s p) ∧ (¬ ∃ p, (s.loc p).phase = .unlockWake) ∧ ¬ ∃ p, Awake s p) := by
  intro hstuck
  obtain ⟨hword, ⟨p, -, hp⟩, hwake, hawake⟩ := hstuck
  rcases (xlock_noneForgotten h).attended ⟨p, hp⟩ with hheld | hpending | hother
  · omega
  · exact hwake hpending
  · exact hawake hother

/-- Processes that only take the lock and give it back, again and again. -/
def lockers : Client P Unit Bool Empty where
  step _ _ _ _ _ _ := False
  lock k k' := k = false ∧ k' = true
  unlock k k' := k = true ∧ k' = false
  inside k := k = true
  step_inside := nofun
  lock_inside := by simp
  unlock_inside := by simp

omit [DecidableEq P] in
theorem lockers_lock : (lockers : Client P Unit Bool Empty).lock false true := ⟨rfl, rfl⟩

omit [DecidableEq P] in
theorem lockers_unlock : (lockers : Client P Unit Bool Empty).unlock true false := ⟨rfl, rfl⟩

/-- The second process sleeps while the first holds the lock, and the first
has just given it back. -/
theorem xlock_never_stuck_sample :
    ∃ tr s, Run (xlock lockers) (start () fun _ : Fin 2 => false) tr s ∧ s.shared.word = 0 ∧ Asleep s 1 ∧
      ¬ (s.shared.word = 0 ∧ (∃ p, Asleep s p) ∧ (¬ ∃ p, (s.loc p).phase = .unlockWake) ∧ ¬ ∃ p, Awake s p) := by
  have h : Run (xlock lockers) (start () fun _ : Fin 2 => false) [] (start () fun _ => false) := .nil
  have h := h.step (p := 0) (.callLock lockers_lock)
  have h := h.next (p := 0) (State.move_self ..) (.rawLockIt rfl lockers_lock)
  have h := h.next (p := 1) (l := ⟨false, .lockCas⟩) rfl (.callLock lockers_lock)
  have h := h.next (p := 1) (State.move_self ..) (.rawLockItFails (by decide))
  have h := h.next (p := 1) (State.move_self ..) (.futexWait rfl)
  have h := h.next (p := 0) (l := ⟨true, .unlockCas⟩) rfl (.callUnlock lockers_unlock)
  have h := h.next (p := 0) (State.move_self ..) (.rawUnlockIt rfl lockers_unlock)
  exact ⟨_, _, h, rfl, ⟨rfl, .inl rfl⟩, xlock_never_stuck h⟩

end SugarNSpice.Xlock
