/-
Processes with a critical section, over a lock that is taken and given back
in one step each.

This is what a lock is for: at most one process is inside (`guarded_mutex`),
so a resource only touched inside can be described from one holder's point of
view (`guarded_resource`), whatever the others do meanwhile. A lock made of
smaller steps is used by the same clients once its program is shown to
simulate this one.
-/
import SugarNSpice.Processes

namespace Processes

/-- A client of a lock: its own steps, where it calls for the lock and where
it gives it back, and where it has it. -/
structure Client (P σ κ ε : Type) where
  step : Program P σ κ ε
  lock : κ → κ → Prop
  unlock : κ → κ → Prop
  inside : κ → Prop
  step_inside : ∀ {p s k e s' k'}, step p s k e s' k' → (inside k ↔ inside k')
  lock_inside : ∀ {k k'}, lock k k' → ¬ inside k ∧ inside k'
  unlock_inside : ∀ {k k'}, unlock k k' → inside k ∧ ¬ inside k'

variable {P σ κ ε : Type}

/-- A client over an atomic lock, which is free or held. -/
inductive Client.guarded (C : Client P σ κ ε) : Program P (Bool × σ) κ ε
  | own {p h s k e s' k'} : C.step p s k e s' k' → guarded C p (h, s) k e (h, s') k'
  | acquire {p s k k'} : C.lock k k' → guarded C p (false, s) k none (true, s) k'
  | release {p h s k k'} : C.unlock k k' → guarded C p (h, s) k none (false, s) k'

section Rules

variable [DecidableEq P] {C : Client P σ κ ε}

/-- One process inside while the lock is held, none while it is free. -/
structure Mutex (C : Client P σ κ ε) (held : Prop) (loc : P → κ) : Prop where
  unique : ∀ p q, C.inside (loc p) → C.inside (loc q) → p = q
  held_iff : held ↔ ∃ p, C.inside (loc p)

omit [DecidableEq P] in
theorem Mutex.congr {held held' : Prop} {loc : P → κ} (h : Mutex C held loc) (hh : held ↔ held') :
    Mutex C held' loc := ⟨h.unique, hh.symm.trans h.held_iff⟩

theorem Mutex.stay {held : Prop} {loc : P → κ} {p : P} {k : κ} (h : Mutex C held loc)
    (hk : C.inside (loc p) ↔ C.inside k) : Mutex C held (Function.update loc p k) := by
  have hsame : ∀ q, C.inside (Function.update loc p k q) ↔ C.inside (loc q) := by
    intro q
    by_cases hq : q = p
    · subst hq; simpa using hk.symm
    · rw [Function.update_of_ne hq]
  exact ⟨fun q r hq hr => h.unique q r ((hsame q).1 hq) ((hsame r).1 hr), by simpa only [hsame] using h.held_iff⟩

theorem Mutex.enter {loc : P → κ} {p : P} {k : κ} (h : Mutex C False loc) (hk : C.inside k) :
    Mutex C True (Function.update loc p k) := by
  have hnone : ∀ q, ¬ C.inside (loc q) := fun q hq => h.held_iff.2 ⟨q, hq⟩
  have honly : ∀ q, C.inside (Function.update loc p k q) → q = p := by
    intro q hq
    by_contra hne
    rw [Function.update_of_ne hne] at hq
    exact hnone q hq
  refine ⟨fun q r hq hr => (honly q hq).trans (honly r hr).symm, ⟨fun _ => ⟨p, ?_⟩, fun _ => trivial⟩⟩
  rwa [Function.update_self]

theorem Mutex.leave {held : Prop} {loc : P → κ} {p : P} {k : κ} (h : Mutex C held loc) (hp : C.inside (loc p))
    (hk : ¬ C.inside k) : Mutex C False (Function.update loc p k) := by
  have hnone : ∀ q, ¬ C.inside (Function.update loc p k q) := by
    intro q hq
    by_cases hqp : q = p
    · subst hqp
      rw [Function.update_self] at hq
      exact hk hq
    · rw [Function.update_of_ne hqp] at hq
      exact hqp (h.unique q p hq hp)
  exact ⟨fun q _ hq => absurd hq (hnone q), ⟨False.elim, fun ⟨q, hq⟩ => hnone q hq⟩⟩

theorem Mutex.step {g : State P (Bool × σ) κ} {p : P} {e : Option ε} {sh : Bool × σ} {l : κ}
    (h : Mutex C (g.shared.1 = true) g.loc) (hstep : C.guarded p g.shared (g.loc p) e sh l) :
    Mutex C (sh.1 = true) (g.move p sh l).loc := by
  obtain ⟨⟨held, s⟩, loc⟩ := g
  cases hstep with
  | own hs => exact h.stay (C.step_inside hs)
  | acquire hl => exact (h.congr (by simp)).enter (C.lock_inside hl).2 |>.congr (by simp)
  | release hu => exact (h.leave (C.unlock_inside hu).1 (C.unlock_inside hu).2).congr (by simp)

/-- **Mutual exclusion**, in every state reached from a free lock. -/
theorem guarded_mutex {s₀ : σ} {loc₀ : P → κ} (h0 : ∀ p, ¬ C.inside (loc₀ p)) {tr : List (P × ε)}
    {s : State P (Bool × σ) κ} (h : Run C.guarded ⟨(false, s₀), loc₀⟩ tr s) :
    Mutex C (s.shared.1 = true) s.loc := by
  refine Run.invariant (I := fun _ s => Mutex C (s.shared.1 = true) s.loc) ?_ ?_ h
  · exact ⟨fun p _ hp => absurd hp (h0 p), ⟨Bool.noConfusion, fun ⟨p, hp⟩ => absurd hp (h0 p)⟩⟩
  · exact fun tr s p e sh l _ hm hstep => hm.step hstep

/-- A resource behind the lock: `R none` describes it while the lock is free,
`R (some k)` while the holder is at `k`. -/
structure Kept (C : Client P σ κ ε) (R : Option κ → List (P × ε) → σ → Prop) (tr : List (P × ε))
    (g : State P (Bool × σ) κ) : Prop where
  held : ∀ p, C.inside (g.loc p) → R (some (g.loc p)) tr g.shared.2
  free : (∀ p, ¬ C.inside (g.loc p)) → R none tr g.shared.2

omit [DecidableEq P] in
theorem Kept.exists_holder {R : Option κ → List (P × ε) → σ → Prop} {tr : List (P × ε)} {g : State P (Bool × σ) κ}
    (h : Kept C R tr g) : ∃ o, R o tr g.shared.2 := by
  by_cases hp : ∃ p, C.inside (g.loc p)
  · obtain ⟨p, hp⟩ := hp
    exact ⟨_, h.held p hp⟩
  · exact ⟨none, h.free (not_exists.1 hp)⟩

theorem Kept.only {R : Option κ → List (P × ε) → σ → Prop} {tr : List (P × ε)} {g : State P (Bool × σ) κ} {p : P}
    {sh : Bool × σ} {l : κ} (hl : C.inside l) (hother : ∀ q, C.inside (g.loc q) → q = p) (hR : R (some l) tr sh.2) :
    Kept C R tr (g.move p sh l) := by
  refine ⟨fun q hq => ?_, fun hno => absurd hl (by simpa using hno p)⟩
  have hqp : q = p := by
    by_contra hne
    rw [State.move_other hne] at hq
    exact hne (hother q hq)
  subst hqp
  rwa [State.move_self]

theorem Kept.outside {R : Option κ → List (P × ε) → σ → Prop} {tr : List (P × ε)} {g : State P (Bool × σ) κ} {p : P}
    {sh : Bool × σ} {l : κ} (hl : ¬ C.inside l)
    (hheld : ∀ q, q ≠ p → C.inside (g.loc q) → R (some (g.loc q)) tr sh.2)
    (hfree : (∀ q, q ≠ p → ¬ C.inside (g.loc q)) → R none tr sh.2) : Kept C R tr (g.move p sh l) := by
  refine ⟨fun q hq => ?_, fun hno => hfree fun q hqp => ?_⟩
  · have hqp : q ≠ p := by
      intro heq
      subst heq
      exact hl (by simpa using hq)
    rw [State.move_other hqp] at hq ⊢
    exact hheld q hqp hq
  · have := hno q
    rwa [State.move_other hqp] at this

/-- One step: the holder's takes the resource from its place to the next, and
one made outside leaves it alone. -/
theorem Kept.step {R : Option κ → List (P × ε) → σ → Prop} {tr : List (P × ε)} {g : State P (Bool × σ) κ} {p : P}
    {e : Option ε} {sh : Bool × σ} {l : κ} (h : Kept C R tr g) (hm : Mutex C (g.shared.1 = true) g.loc)
    (acquire : C.lock (g.loc p) l → R none tr g.shared.2 → R (some l) tr g.shared.2)
    (release : C.unlock (g.loc p) l → R (some (g.loc p)) tr g.shared.2 → R none tr g.shared.2)
    (inner : C.inside (g.loc p) → C.step p g.shared.2 (g.loc p) e sh.2 l → R (some (g.loc p)) tr g.shared.2 →
      R (some l) (tr ++ events p e) sh.2)
    (outer : ¬ C.inside (g.loc p) → C.step p g.shared.2 (g.loc p) e sh.2 l → ∀ o, R o tr g.shared.2 →
      R o (tr ++ events p e) sh.2)
    (hstep : C.guarded p g.shared (g.loc p) e sh l) : Kept C R (tr ++ events p e) (g.move p sh l) := by
  obtain ⟨⟨held, s⟩, loc⟩ := g
  obtain ⟨hin, hfree⟩ := h
  cases hstep with
  | own hs =>
    by_cases hp : C.inside (loc p)
    · exact .only ((C.step_inside hs).1 hp) (fun q hq => hm.unique q p hq hp) (inner hp hs (hin p hp))
    · refine .outside (fun hl => hp ((C.step_inside hs).2 hl)) (fun q _ hq => outer hp hs _ (hin q hq)) fun hno => ?_
      refine outer hp hs none (hfree fun q hq => ?_)
      by_cases hqp : q = p
      · exact hp (hqp ▸ hq)
      · exact hno q hqp hq
  | acquire hl =>
    have hnone : ∀ q, ¬ C.inside (loc q) := fun q hq => Bool.noConfusion (hm.held_iff.2 ⟨q, hq⟩)
    have hgot := acquire hl (hfree hnone)
    exact .only (C.lock_inside hl).2 (fun q hq => absurd hq (hnone q)) (by simpa [events] using hgot)
  | release hu =>
    have hp := (C.unlock_inside hu).1
    have hback := release hu (hin p hp)
    refine .outside (C.unlock_inside hu).2 (fun q hqp hq => ?_) fun _ => by simpa [events] using hback
    exact absurd (hm.unique q p hq hp) hqp

/-- **The rule for a resource behind the lock.** The holder's steps take the
resource from one of its places to the next, and steps outside leave it
alone. -/
theorem guarded_resource {R : Option κ → List (P × ε) → σ → Prop}
    (acquire : ∀ {k k' tr s}, C.lock k k' → R none tr s → R (some k') tr s)
    (release : ∀ {k k' tr s}, C.unlock k k' → R (some k) tr s → R none tr s)
    (inner : ∀ {p s k e s' k' tr}, C.inside k → C.step p s k e s' k' → R (some k) tr s →
      R (some k') (tr ++ events p e) s')
    (outer : ∀ {p s k e s' k' o tr}, ¬ C.inside k → C.step p s k e s' k' → R o tr s → R o (tr ++ events p e) s')
    {s₀ : σ} {loc₀ : P → κ} (h0 : ∀ p, ¬ C.inside (loc₀ p)) (start : R none [] s₀) {tr : List (P × ε)}
    {s : State P (Bool × σ) κ} (h : Run C.guarded ⟨(false, s₀), loc₀⟩ tr s) : Kept C R tr s := by
  refine Run.invariant (I := Kept C R) ⟨fun p hp => absurd hp (h0 p), fun _ => start⟩ ?_ h
  intro tr s p e sh l hrun ih hstep
  exact ih.step (guarded_mutex h0 hrun) acquire release inner (fun hp hs _ => outer hp hs) hstep

end Rules

end Processes
