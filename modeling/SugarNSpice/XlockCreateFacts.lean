/-
When creating a lock is safe.

As long as every `open` with `O_CREAT` finds the name absent, only one call of
`xlock_create` gets beyond it (`Making`), and one returns a lock. As long as
the store of 0 finds no process inside, it changes nothing, and everything
after that is a run of the lock as it was studied before
(`create_refines_xlock`). The code checks neither: with two creators, both
return a lock and both get inside.
-/
import SugarNSpice.XlockCreate
import SugarNSpice.XlockFacts

namespace SugarNSpice.XlockCreate

open Processes Xlock SharedFile

variable {P σ κ ε : Type} [DecidableEq P] {create : P → Bool} {C : Client P σ κ ε} {rest : σ} {place : P → κ}
  {tr : List (P × Event ε)} {s : State P (Shared P σ) (Place κ)}

/-! ## One creator -/

/-- In `xlock_create`, after `open` with `O_CREAT`. -/
def Making (create : P → Bool) (p : P) : Place κ → Prop
  | .call .truncate _ | .store _ => True
  | .call .reopen _ | .call .map _ => create p = true
  | _ => False

omit [DecidableEq P] in
/-- Only `open` with `O_CREAT` makes a process a maker. -/
theorem Making.before {p : P} {sh sh' : Shared P σ} {l l' : Place κ} {e : Option (Event ε)}
    (h : xlockCreateOpen create C p sh l e sh' l') (hl : ∀ k, l ≠ .call .creat k) (hm : Making create p l') :
    Making create p l := by
  cases h with
  | call hcall =>
    cases hcall with
    | probe => exact hm.elim
    | creat => exact absurd rfl (hl _)
    | truncate => trivial
    | reopen => exact hm
  | null | store | use | sigbusStore | sigbus => exact hm.elim
  | mapped hcall =>
    cases hcall with
    | map =>
      rw [Making]
      by_contra hp
      rw [if_neg hp] at hm
      exact hm

/-- How far the making of the lock has come, by the number of locks that
`xlock_create` has returned. -/
inductive Progress (create : P → Bool) (s : State P (Shared P σ) (Place κ)) : Nat → Prop
  | absent : s.shared.file = none → (∀ p, ¬ Making create p (s.loc p)) → Progress create s 0
  | making (m : P) : s.shared.file ≠ none → (∀ p, Making create p (s.loc p) → p = m) → Progress create s 0
  | made : s.shared.file ≠ none → (∀ p, ¬ Making create p (s.loc p)) → Progress create s 1

omit [DecidableEq P] in
theorem creates_events (p : P) (e : Option (Event ε)) :
    creates (tr ++ events p e) = creates tr + if e.any Event.isCreated then 1 else 0 := by
  cases e with
  | none => simp [creates, events]
  | some e => cases e <;> simp [creates, events, Event.isCreated]

theorem Progress.stay {n : Nat} {p : P} {sh : Shared P σ} {l : Place κ} (h : Progress create s n)
    (hfile : sh.file = none ↔ s.shared.file = none) (hm : Making create p l → Making create p (s.loc p)) :
    Progress create (s.move p sh l) n := by
  have hmaking : ∀ q, Making create q ((s.move p sh l).loc q) → Making create q (s.loc q) := by
    intro q hq
    by_cases hqp : q = p
    · subst hqp
      rw [State.move_self] at hq
      exact hm hq
    · rwa [State.move_other hqp] at hq
  cases h with
  | absent hf hnone => exact .absent (hfile.2 hf) fun q hq => hnone q (hmaking q hq)
  | making m hf honly => exact .making m (fun hn => hf (hfile.1 hn)) fun q hq => honly q (hmaking q hq)
  | made hf hnone => exact .made (fun hn => hf (hfile.1 hn)) fun q hq => hnone q (hmaking q hq)

omit [DecidableEq P] in
theorem Progress.file_ne_none {n : Nat} {p : P} (h : Progress create s n) (hp : Making create p (s.loc p)) :
    s.shared.file ≠ none := by
  cases h with
  | absent _ hnone => exact absurd hp (hnone p)
  | making m hf => exact hf
  | made hf => exact hf

theorem Progress.creat {n : Nat} {p : P} {sh : Shared P σ} {l : Place κ} (h : Progress create s n)
    (habsent : s.shared.file = none) (hfile : sh.file ≠ none) : Progress create (s.move p sh l) n := by
  cases h with
  | absent _ hnone =>
    refine .making p hfile fun q hq => ?_
    by_contra hqp
    rw [State.move_other hqp] at hq
    exact hnone q hq
  | making m hf => exact absurd habsent hf
  | made hf => exact absurd habsent hf

theorem Progress.store {n : Nat} {p : P} {sh : Shared P σ} {l : Place κ} (h : Progress create s n)
    (hp : Making create p (s.loc p)) (hfile : sh.file = s.shared.file) (hl : ¬ Making create p l) :
    Progress create (s.move p sh l) (n + 1) := by
  cases h with
  | absent _ hnone => exact absurd hp (hnone p)
  | making m hf honly =>
    refine .made (fun hn => hf (hfile.symm.trans hn)) fun q hq => ?_
    by_cases hqp : q = p
    · subst hqp
      rw [State.move_self] at hq
      exact hl hq
    · rw [State.move_other hqp] at hq
      exact hqp ((honly q hq).trans (honly p hp).symm)
  | made _ hnone => exact absurd hp (hnone p)

theorem Progress.step {n : Nat} {p : P} {e : Option (Event ε)} {sh : Shared P σ} {l : Place κ}
    (h : Progress create s n) (meets : Careful C s p)
    (hstep : xlockCreateOpen create C p s.shared (s.loc p) e sh l) :
    Progress create (s.move p sh l) (n + if e.any Event.isCreated then 1 else 0) := by
  have hbefore := Making.before hstep
  have hstay := @Progress.stay _ _ _ _ create s n p sh l h
  have hcreat := @Progress.creat _ _ _ _ create s n p sh l h
  have hsome := @Progress.file_ne_none _ _ _ create s n p h
  have hstore := @Progress.store _ _ _ _ create s n p sh l h
  unfold Careful at meets
  generalize s.loc p = l₀ at *
  cases hstep with
  | call hcall =>
    cases hcall with
    | creat => exact hcreat meets (Option.some_ne_none _)
    | truncate => exact hstay ⟨nofun, fun hn => absurd hn (hsome trivial)⟩ (hbefore nofun)
    | probe | reopen => exact hstay Iff.rfl (hbefore nofun)
  | null hcall => cases hcall <;> exact hstay Iff.rfl (hbefore nofun)
  | mapped hcall =>
    cases hcall with
    | map => exact hstay Iff.rfl (hbefore nofun)
  | store => exact hstore trivial rfl nofun
  | @use _ _ _ e =>
    have hmore : Option.any Event.isCreated (e.map Event.client) = false := by cases e <;> rfl
    rw [hmore]
    exact hstay Iff.rfl (hbefore nofun)
  | sigbusStore | sigbus => exact hstay Iff.rfl (hbefore nofun)

/-- **At most one `xlock_create` returns a lock.** -/
theorem creates_le_one (h : RunIf (xlockCreateOpen create C) (Careful C) (absent create rest place) tr s) :
    creates tr ≤ 1 := by
  have hprogress : Progress create s (creates tr) := by
    refine RunIf.invariant (I := fun tr s => Progress create s (creates tr)) (.absent rfl fun p => ?_) ?_ h
    · cases hp : create p <;> simp [absent, first, Making, hp]
    · intro tr s p e sh l _ ih meets hstep
      rw [creates_events]
      exact ih.step meets hstep
  generalize creates tr = n at hprogress
  cases hprogress with
  | absent | making => exact Nat.zero_le 1
  | made => exact Nat.le_refl 1

/-! ## The lock in use -/

/-- A process as the lock sees it: one that has not got the lock yet is in its
own code. -/
def Place.local : Place κ → Local κ
  | .call _ k | .store k | .null k => ⟨k, .out⟩
  | .ready l | .killed l => l

def Event.toClient : Event ε → Option ε
  | .created => none
  | .client e => some e

omit [DecidableEq P] in
theorem Place.local_place (l : Place κ) : l.local.place = l.home := by cases l <;> rfl

/-- **A lock that was made with care** is one that was there all the time. -/
theorem create_refines_xlock (h0 : ∀ p, ¬ C.inside (place p))
    (h : RunIf (xlockCreateOpen create C) (Careful C) (absent create rest place) tr s) :
    Run (xlock C) (start rest place) (rename Event.toClient tr) ⟨s.shared.lock, fun p => (s.loc p).local⟩ := by
  refine RunIf.simulate Shared.lock Place.local Event.toClient ?_ h
  intro tr s p e sh l hrun meets hstep
  unfold Careful at meets
  generalize hl : s.loc p = l₀ at hstep meets
  cases hstep with
  | call | null | sigbusStore | sigbus => exact .inl ⟨rfl, rfl, rfl⟩
  | mapped => exact .inl ⟨rfl, rfl, by split <;> rfl⟩
  | store =>
    -- No one is inside, so the word is 0 already.
    have hword : s.shared.lock.word = 0 := by
      refine (xlock_word hrun).resolve_right fun hone => ?_
      obtain ⟨q, hq⟩ := (xlock_mutex h0 hrun).held_iff.1 hone
      exact meets q (by rwa [Place.local_place] at hq)
    refine .inl ⟨rfl, ?_, rfl⟩
    rw [Shared.clear, ← hword]
  | @use _ _ _ e _ _ _ hx =>
    have hsame : (e.map Event.client).bind Event.toClient = e := by cases e <;> rfl
    rw [hsame]
    exact .inr hx

/-- **Creating a lock breaks nothing** in the runs whose every `open` with
`O_CREAT` finds the name absent and whose every store of 0 finds no process
inside: at most one call of `xlock_create` returns a lock, and at most one
process is between its swap that took the lock and the one that gives it
back. -/
theorem create_keeps_lock (h0 : ∀ p, ¬ C.inside (place p))
    (h : RunIf (xlockCreateOpen create C) (Careful C) (absent create rest place) tr s) :
    creates tr ≤ 1 ∧ ∀ p q, Inside C s p → Inside C s q → p = q := by
  refine ⟨creates_le_one h, fun p q hp hq => ?_⟩
  have hmutex := xlock_mutex h0 (create_refines_xlock h0 h)
  exact hmutex.unique p q (by rwa [Place.local_place]) (by rwa [Place.local_place])

/-- The first process creates the lock, and the second opens and takes it. -/
theorem create_keeps_lock_sample :
    ∃ tr s, RunIf (xlockCreateOpen (fun p : Fin 2 => p == 0) lockers) (Careful lockers)
        (absent (fun p => p == 0) () fun _ => false) tr s ∧ creates tr = 1 ∧ Inside lockers s 1 ∧
      creates tr ≤ 1 ∧ ∀ p q, Inside lockers s p → Inside lockers s q → p = q := by
  have h : RunIf (xlockCreateOpen (fun p : Fin 2 => p == 0) lockers) (Careful lockers)
      (absent (fun p => p == 0) () fun _ => false) [] (absent (fun p => p == 0) () fun _ => false) := .nil
  have h := h.next (p := 0) (l := .call .creat false) rfl trivial (.call (.probe rfl))
  have h := h.next (p := 0) (State.move_self ..) rfl (.call .creat)
  have h := h.next (p := 0) (State.move_self ..) trivial (.call .truncate)
  have h := h.next (p := 0) (State.move_self ..) trivial (.call (.reopen (Option.some_ne_none _)))
  have h := h.next (p := 0) (State.move_self ..) trivial (.mapped .map)
  have h := h.next (p := 0) (State.move_self ..) (fun | 0 | 1 => Bool.false_ne_true) (.store (by decide))
  have h := h.next (p := 1) (l := .call .map false) rfl trivial (.call (.reopen (Option.some_ne_none _)))
  have h := h.next (p := 1) (State.move_self ..) trivial (.mapped .map)
  have h := h.next (p := 1) (State.move_self ..) trivial (.use (absurd rfl) (.callLock lockers_lock))
  have h := h.next (p := 1) (State.move_self ..) trivial (.use (fun _ => by decide) (.rawLockIt rfl lockers_lock))
  exact ⟨_, _, h, rfl, rfl, create_keeps_lock (fun _ => Bool.false_ne_true) h⟩

/-! ## Two creators -/

omit [DecidableEq P] in
theorem mapped_create {p : P} (hp : create p = true) (sh : Shared P σ) (k : κ) :
    xlockCreateOpen create C p sh (.call .map k) none sh (.store k) := by
  have hstep : xlockCreateOpen create C p sh (.call .map k) none sh
      (if create p then .store k else .ready ⟨k, .out⟩) := .mapped .map
  rwa [if_pos hp] at hstep

omit [DecidableEq P] in
theorem mapped_open {p : P} (hp : create p = false) (sh : Shared P σ) (k : κ) :
    xlockCreateOpen create C p sh (.call .map k) none sh (.ready ⟨k, .out⟩) := by
  have hstep : xlockCreateOpen create C p sh (.call .map k) none sh
      (if create p then .store k else .ready ⟨k, .out⟩) := .mapped .map
  rwa [hp, if_neg Bool.false_ne_true] at hstep

omit [DecidableEq P] in
/-- `xlock_create` from its `open` with `O_CREAT` on, and `xlock_lock`, with no
one in between. -/
theorem create_path {p : P} (hp : create p = true) {k k' : κ} (hk : C.lock k k') (sh : Shared P σ) :
    Path (xlockCreateOpen create C) p [(p, .created)] (sh, .call .creat k)
      (⟨some mapSz, { sh.lock with word := 1 }⟩, .ready ⟨k', .out⟩) := by
  have hbytes : File.bytes (some mapSz) ≠ 0 := by decide
  refine Path.quiet (.call .creat) ?_
  refine Path.quiet (.call .truncate) ?_
  refine Path.quiet (.call (.reopen (Option.some_ne_none _))) ?_
  refine Path.quiet (mapped_create hp _ k) ?_
  refine Path.event (.store hbytes) ?_
  refine Path.quiet (.use (absurd rfl) (.callLock hk)) ?_
  exact Path.quiet (.use (fun _ => hbytes) (.rawLockIt rfl hk)) .refl

/-- **Two creators**: both find the name absent, both return a lock, and both
get inside. -/
theorem create_twice :
    ∃ tr s, Run (xlockCreateOpen (fun _ : Fin 2 => true) lockers) (absent (fun _ => true) () fun _ => false) tr s ∧
      creates tr = 2 ∧ Inside lockers s 0 ∧ Inside lockers s 1 := by
  have h : Run (xlockCreateOpen (fun _ : Fin 2 => true) lockers) (absent (fun _ => true) () fun _ => false) []
      (absent (fun _ => true) () fun _ => false) := .nil
  have h := h.next (p := 0) (l := .call .creat false) rfl (.call (.probe rfl))
  have h := h.next (p := 1) (l := .call .creat false) rfl (.call (.probe rfl))
  have h := h.path (p := 0) (create_path rfl lockers_lock _)
  have h := h.path (p := 1) (create_path rfl lockers_lock _)
  exact ⟨_, _, h, rfl, rfl, rfl⟩

end SugarNSpice.XlockCreate
