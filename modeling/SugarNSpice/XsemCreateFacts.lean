/-
When creating a semaphore loses nothing.

To the semaphore, a process that has not got it yet is in its own code, and so
is one that was killed (`seen`). Seen so, a step of the program is nothing, a
step in use, the end of a process, or one of the creator's two stores
(`SeenStep`). Soundness is kept as long as the lock's store of 0 finds no
holder and the store of the count finds a count of 0 that no one is about to
store to, with enough processes awake for it if there are sleepers. The code
sees to none of this.
-/
import SugarNSpice.XsemCreate
import SugarNSpice.XsemSound
import SugarNSpice.XlockCreateFacts

namespace SugarNSpice.XsemCreate

open Processes Xlock Xsem SharedFile XlockCreate CLang

variable {P σ κ ε : Type} {U : User P σ κ ε} {b c : BitVec 32}

/-! ## As the semaphore sees it -/

/-- The process's place in the semaphore's code. -/
def Maker.place : Maker κ → Xsem.Place κ
  | .store k => .user k
  | .run l => l

def Maker.isStore : Maker κ → Prop
  | .store _ => True
  | .run _ => False

/-- A process that has not got the semaphore yet, and one that was killed, is
in its own code. -/
def Place.seen : Place κ → Local (Xsem.Place κ)
  | .call _ k | .null k => ⟨.user k, .out⟩
  | .lock (.call _ m) | .lock (.store m) | .lock (.null m) => ⟨m.place, .out⟩
  | .lock (.ready l) => ⟨l.place.place, l.phase⟩
  | .lock (.killed l) => ⟨.user l.place.place.home, .out⟩

/-- The semaphore and its users. -/
def seen (s : State P (Shared P σ) (Place κ)) : State P (Xlock.Shared P (Sem P σ)) (Local (Xsem.Place κ)) :=
  ⟨s.shared.base.lock, fun p => (s.loc p).seen⟩

def Made.toSem : Made ε → Option (Xsem.Event ε)
  | .created => none
  | .sem e => some e

def toOp (e : XlockCreate.Event (Made ε)) : Option (Xsem.Event ε) := (Event.toClient e).bind Made.toSem

/-- What is done to the semaphore. -/
def ops (tr : List (P × XlockCreate.Event (Made ε))) : List (P × Xsem.Event ε) := rename toOp tr

def isFinal : XlockCreate.Event (Made ε) → Bool
  | .client .created => true
  | _ => false

/-- `xsem_create` has stored the count. -/
def finished (tr : List (P × XlockCreate.Event (Made ε))) : Bool := tr.any fun x => isFinal x.2

/-- What has to hold before a step, for nothing to be lost: the lock's store of
0 finds no process in the lock, the store of the count finds it `Ready`, and
no increment is made to `INT_MAX`. -/
def Careful (c : BitVec 32) (s : State P (Shared P σ) (Place κ)) (p : P) : Prop :=
  match s.loc p with
  | .lock (.store _) => ∀ q, ¬ ((seen s).loc q).place.inside
  | .lock (.ready ⟨.store _, _⟩) => Ready c (seen s)
  | .lock (.ready ⟨.run (.upStore v _), _⟩) => v.toInt ≠ intMax
  | _ => True

theorem bind_toSem_map (e : Option (Xsem.Event ε)) : (e.map Made.sem).bind Made.toSem = e := by cases e <;> rfl

/-- A client's step is the store of the count, or one of the semaphore's. -/
theorem xlock_maker {p : P} {x x' : Xlock.Shared P (Sem P σ)} {l l' : Local (Maker κ)} {e : Option (Made ε)}
    (h : xlock (maker c U) p x l e x' l') :
    (∃ k, l = ⟨.store k, .out⟩ ∧ e = some .created ∧ x' = seeded c x ∧ l' = ⟨.run (.user k), .out⟩) ∨
      (e ≠ some .created ∧ (l'.place.isStore → l.place.isStore) ∧
        xlock (xsem U) p x ⟨l.place.place, l.phase⟩ (e.bind Made.toSem) x' ⟨l'.place.place, l'.phase⟩) := by
  cases h with
  | own hs =>
    cases hs with
    | store => exact .inl ⟨_, rfl, rfl, rfl, rfl⟩
    | @run _ _ _ e _ _ hs =>
      rw [bind_toSem_map]
      exact .inr ⟨by cases e <;> nofun, id, .own hs⟩
  | callLock hl =>
    cases hl with
    | run hl => exact .inr ⟨nofun, id, .callLock hl⟩
  | rawLockIt hw hl =>
    cases hl with
    | run hl => exact .inr ⟨nofun, id, .rawLockIt hw hl⟩
  | rawLockItFails hw => exact .inr ⟨nofun, id, .rawLockItFails hw⟩
  | futexWait hw => exact .inr ⟨nofun, id, .futexWait hw⟩
  | futexWaitAgain hw => exact .inr ⟨nofun, id, .futexWaitAgain hw⟩
  | futexWaitReturns => exact .inr ⟨nofun, id, .futexWaitReturns⟩
  | callUnlock hu =>
    cases hu with
    | run hu => exact .inr ⟨nofun, id, .callUnlock hu⟩
  | rawUnlockIt hw hu =>
    cases hu with
    | run hu => exact .inr ⟨nofun, id, .rawUnlockIt hw hu⟩
  | rawUnlockItFails hw => exact .inr ⟨nofun, id, .rawUnlockItFails hw⟩
  | futexWake hq => exact .inr ⟨nofun, id, .futexWake hq⟩

/-- What a step of a process is to the semaphore: nothing, one of the creator's
stores, the end of a process, or a step of its own. -/
inductive SeenStep (c : BitVec 32) (U : User P σ κ ε) (p : P) (s : Shared P σ) (l : Place κ)
    (e : Option (XlockCreate.Event (Made ε))) (s' : Shared P σ) (l' : Place κ) : Prop
  | quiet : e = none → s'.base.lock = s.base.lock → l'.seen = l.seen → SeenStep c U p s l e s' l'
  | clear {m} : l = .lock (.store m) → e = some .created → s'.base.lock = s.base.clear.lock → l'.seen = l.seen →
      SeenStep c U p s l e s' l'
  | kill {k} : s.base.file.bytes = 0 → e = none → s'.base.lock = s.base.lock → l'.seen = ⟨.user k, .out⟩ →
      SeenStep c U p s l e s' l'
  | seed {k} : l = .lock (.ready ⟨.store k, .out⟩) → e = some (.client .created) →
      s'.base.lock = seeded c s.base.lock → l'.seen = l.seen → SeenStep c U p s l e s' l'
  | use {x} : l = .lock (.ready x) → e.any isFinal = false →
      xlock (xsem U) p s.base.lock l.seen (e.bind toOp) s'.base.lock l'.seen → SeenStep c U p s l e s' l'

variable {create : P → Bool}

theorem Maker.start_place (create : Bool) (k : κ) : (Maker.start create k).place = .user k := by cases create <;> rfl

theorem any_isFinal_client {e : Option (Made ε)} (h : e ≠ some .created) :
    (e.map XlockCreate.Event.client).any isFinal = false := by
  rcases e with _ | _ | e
  · rfl
  · exact absurd rfl h
  · rfl

theorem seenStep_of_use {p : P} {s : Shared P σ} {x x' : Local (Maker κ)} {lock : Xlock.Shared P (Sem P σ)}
    {e : Option (Made ε)} (h : xlock (maker c U) p s.base.lock x e lock x') :
    SeenStep c U p s (.lock (.ready x)) (e.map .client) { s with base := { s.base with lock } }
      (.lock (.ready x')) := by
  rcases xlock_maker h with ⟨k, rfl, rfl, rfl, rfl⟩ | ⟨he, -, hx⟩
  · exact .seed rfl rfl rfl rfl
  · have hop : (e.map XlockCreate.Event.client).bind toOp = e.bind Made.toSem := by cases e <;> rfl
    exact .use rfl (any_isFinal_client he) (hop ▸ hx)

theorem xsemCreateOpen.seen {p : P} {s s' : Shared P σ} {l l' : Place κ} {e : Option (XlockCreate.Event (Made ε))}
    (h : xsemCreateOpen create c U p s l e s' l') : SeenStep c U p s l e s' l' := by
  cases h with
  | call | null => exact .quiet rfl rfl rfl
  | mapped =>
    refine .quiet rfl rfl ?_
    rw [Place.seen, Place.seen, Maker.start_place]
  | lock h =>
    cases h with
    | call | null => exact .quiet rfl rfl rfl
    | mapped => exact .quiet rfl rfl (by split <;> rfl)
    | store => exact .clear rfl rfl rfl rfl
    | use _ hx => exact seenStep_of_use hx
    | sigbusStore hbytes => exact .kill hbytes rfl rfl rfl
    | sigbus _ hbytes => exact .kill hbytes rfl rfl rfl

/-! ## Before the lock has its file -/

/-- In its own code, or at the call for `sem_lock` that `xsem_down` and
`xsem_up` begin with. -/
def Calling : Xsem.Place κ → Prop
  | .user _ | .downLock _ | .upLock _ => True
  | _ => False

theorem Calling.not_inside {l : Xsem.Place κ} (h : Calling l) : ¬ l.inside := by
  cases l with
  | user | downLock | upLock => exact id
  | _ => exact h.elim

/-- Where processes are before the lock's file has its bytes. -/
def Early (create : P → Bool) (p : P) : Place κ → Prop
  | .lock (.call _ m) => ∃ k, m = .start (create p) k
  | .lock (.store m) | .lock (.null m) => ∃ k, m.place = .user k
  | .lock (.ready l) => ∃ pl, l.place = .run pl ∧ Calling pl
  | _ => True

theorem Early.calling {p : P} {l : Place κ} (h : Early create p l) : Calling l.seen.place := by
  match l, h with
  | .call _ _, _ | .null _, _ | .lock (.killed _), _ => trivial
  | .lock (.call _ _), ⟨k, hk⟩ => rw [Place.seen, hk, Maker.start_place]; trivial
  | .lock (.store _), ⟨k, hk⟩ | .lock (.null _), ⟨k, hk⟩ => rw [Place.seen, hk]; trivial
  | .lock (.ready l), ⟨pl, hpl, hcall⟩ => rw [Place.seen, hpl]; exact hcall

/-- Nothing has been done to the semaphore yet. -/
structure Unborn (create : P → Bool) (s : State P (Shared P σ) (Place κ)) : Prop where
  early : ∀ p, Early create p (s.loc p)
  word : s.shared.base.lock.word = 0
  queue : s.shared.base.lock.queue = ∅
  sem : s.shared.base.lock.rest.queue = ∅

theorem xlock_calling {p : P} {x x' : Xlock.Shared P (Sem P σ)} {pl : Xsem.Place κ} {l' : Local (Maker κ)}
    {e : Option (Made ε)} (h : xlock (maker c U) p x ⟨.run pl, .out⟩ e x' l') (hpl : Calling pl) :
    (∃ pl', l'.place = .run pl' ∧ Calling pl') ∧ x'.word = x.word ∧ x'.queue = x.queue ∧
      x'.rest.queue = x.rest.queue := by
  cases h with
  | own hs =>
    cases hs with
    | run hs =>
      cases hs with
      | own | callDown | callUp => exact ⟨⟨_, rfl, trivial⟩, rfl, rfl, rfl⟩
      | _ => exact hpl.elim
  | callLock => exact ⟨⟨_, rfl, hpl⟩, rfl, rfl, rfl⟩
  | callUnlock hu =>
    cases hu with
    | run hu => cases hu <;> exact hpl.elim

section Runs

variable [DecidableEq P] {s : State P (Shared P σ) (Place κ)}

theorem Unborn.move {p : P} {sh : Shared P σ} {l : Place κ} (h : Unborn create s) (hl : Early create p l)
    (hlock : sh.base.lock.word = s.shared.base.lock.word ∧ sh.base.lock.queue = s.shared.base.lock.queue ∧
      sh.base.lock.rest.queue = s.shared.base.lock.rest.queue) : Unborn create (s.move p sh l) := by
  refine ⟨fun q => ?_, hlock.1.trans h.word, hlock.2.1.trans h.queue, hlock.2.2.trans h.sem⟩
  by_cases hq : q = p
  · subst hq
    rwa [State.move_self]
  · rw [State.move_other hq]
    exact h.early q

/-- It stays so until the file gets its bytes. -/
theorem Unborn.step {p : P} {e : Option (XlockCreate.Event (Made ε))} {sh : Shared P σ} {l : Place κ}
    (h : Unborn create s) (hstep : xsemCreateOpen create c U p s.shared (s.loc p) e sh l)
    (hbytes : s.shared.base.file.bytes = 0) : Unborn create (s.move p sh l) := by
  have hearly := h.early p
  have hmove := @Unborn.move _ _ _ create _ s p sh l h
  generalize s.loc p = l₀ at hstep hearly
  cases hstep with
  | call | null => exact hmove trivial ⟨rfl, rfl, rfl⟩
  | mapped => exact hmove ⟨_, rfl⟩ ⟨rfl, rfl, rfl⟩
  | lock hstep =>
    cases hstep with
    | call => exact hmove hearly ⟨rfl, rfl, rfl⟩
    | null =>
      obtain ⟨k, rfl⟩ := hearly
      exact hmove ⟨k, Maker.start_place _ k⟩ ⟨rfl, rfl, rfl⟩
    | mapped =>
      obtain ⟨k, rfl⟩ := hearly
      refine hmove ?_ ⟨rfl, rfl, rfl⟩
      cases hp : create p with
      | true => exact ⟨k, rfl⟩
      | false => exact ⟨.user k, rfl, trivial⟩
    | store hne => exact absurd hbytes hne
    | @use _ _ x _ _ _ htouch hx =>
      obtain ⟨pl, hpl, hcall⟩ := hearly
      obtain ⟨place, phase⟩ := x
      have hout : phase = .out := by
        by_contra hphase
        exact htouch hphase hbytes
      subst hpl hout
      obtain ⟨hplace, hshared⟩ := xlock_calling hx hcall
      exact hmove hplace hshared
    | sigbusStore | sigbus => exact hmove trivial ⟨rfl, rfl, rfl⟩

omit [DecidableEq P] in
theorem bytes_eq_zero {p : P} {e : Option (XlockCreate.Event (Made ε))} {sh sh' : Shared P σ} {l l' : Place κ}
    (hstep : xsemCreateOpen create c U p sh l e sh' l') (h : sh'.base.file.bytes = 0) : sh.base.file.bytes = 0 := by
  by_contra hne
  cases hstep with
  | call | null | mapped => exact hne h
  | lock hstep =>
    cases hstep with
    | call hf | null hf | mapped hf => exact hf.bytes_ne_zero (by decide) hne h
    | store | use | sigbusStore | sigbus => exact hne h

/-! ## The store of the count -/

/-- With the store of the count ahead of it. -/
def Ahead (create : P → Bool) (p : P) : Place κ → Prop
  | .call _ _ | .null _ => create p = true
  | .lock (.call _ m) | .lock (.store m) | .lock (.null m) => m.isStore
  | .lock (.ready l) | .lock (.killed l) => l.place.isStore

omit [DecidableEq P] in
/-- No step puts the store ahead of a process again. -/
theorem Ahead.before {p : P} {e : Option (XlockCreate.Event (Made ε))} {sh sh' : Shared P σ} {l l' : Place κ}
    (hstep : xsemCreateOpen create c U p sh l e sh' l') (h : Ahead create p l') :
    Ahead create p l ∧ e.any isFinal = false := by
  cases hstep with
  | call | null => exact ⟨h, rfl⟩
  | mapped =>
    refine ⟨?_, rfl⟩
    cases hp : create p with
    | true => exact hp
    | false =>
      rw [hp] at h
      exact h.elim
  | lock hstep =>
    cases hstep with
    | call | null | store | sigbusStore | sigbus => exact ⟨h, rfl⟩
    | mapped =>
      refine ⟨?_, rfl⟩
      split at h
      · exact h
      · exact h
    | @use _ _ x e _ x' _ hx =>
      rcases xlock_maker hx with ⟨k, rfl, rfl, rfl, rfl⟩ | ⟨he, hstore, -⟩
      · exact h.elim
      · exact ⟨hstore h, any_isFinal_client he⟩

omit [DecidableEq P] in
theorem finished_events (tr : List (P × XlockCreate.Event (Made ε))) (p : P)
    (e : Option (XlockCreate.Event (Made ε))) :
    finished (tr ++ events p e) = (finished tr || e.any isFinal) := by
  cases e <;> simp [finished, events]

variable {rest : σ} {place : P → κ} {tr : List (P × XlockCreate.Event (Made ε))}

theorem ahead_create (h : Run (xsemCreateOpen create c U) (absent create rest place) tr s) (p : P) :
    Ahead create p (s.loc p) → create p = true := by
  refine Run.everyone (I := fun p _ _ l => Ahead create p l → create p = true) (fun _ => id) ?_
    (fun _ _ _ _ _ _ _ _ _ ih _ => ih) h p
  exact fun tr s p e sh l _ ih hstep hl => ih (Ahead.before hstep hl).1

/-- With one creator, nothing was stored as long as it has the store ahead. -/
theorem ahead_unfinished (hone : ∀ p q, create p = true → create q = true → p = q)
    (h : Run (xsemCreateOpen create c U) (absent create rest place) tr s) (p : P) :
    Ahead create p (s.loc p) → finished tr = false := by
  refine Run.everyone (I := fun p tr _ l => Ahead create p l → finished tr = false) (fun _ _ => rfl) ?_ ?_ h p
  · intro tr s p e sh l _ ih hstep hl
    obtain ⟨hbefore, he⟩ := Ahead.before hstep hl
    rw [finished_events, ih hbefore, he]
    rfl
  · intro tr s p q e sh l hqp hrun ih hstep hq
    have hother : e.any isFinal = false := by
      cases hstep.seen with
      | quiet he | kill _ he => rw [he]; rfl
      | clear _ he => rw [he]; rfl
      | seed hl =>
        have hp : Ahead create p (s.loc p) := by rw [hl]; trivial
        exact absurd (hone q p (ahead_create hrun q hq) (ahead_create hrun p hp)) hqp
      | use _ he => exact he
    rw [finished_events, ih hq, hother]
    rfl

/-! ## Every run -/

/-- What the count was stored as: 0 by `ftruncate`, and then `c`. -/
def base (c : BitVec 32) (tr : List (P × XlockCreate.Event (Made ε))) : BitVec 32 := if finished tr then c else 0

theorem seen_move (p : P) (sh : Shared P σ) (l : Place κ) :
    seen (s.move p sh l) = (seen s).move p sh.base.lock l.seen := by
  rw [seen, State.move_shared, State.map_move Place.seen]
  rfl

omit [DecidableEq P] in
theorem seen_absent_sound : Sound U 0 [] (seen (absent create rest place)) := by
  have hnone : ∀ p, ¬ ((guardedView (seen (absent create rest place))).loc p).inside := fun _ => id
  refine ⟨.inl rfl, ⟨fun p _ hp => absurd hp (hnone p), ⟨nofun, fun ⟨p, hp⟩ => absurd hp (hnone p)⟩⟩,
    ⟨fun p hp => absurd hp (hnone p), fun _ => ⟨rfl, trivial⟩⟩, ⟨fun p hp => absurd hp (Set.notMem_empty p), fun hne =>
    absurd hne Set.not_nonempty_empty⟩, ⟨fun p hp => absurd hp (Set.notMem_empty p), fun hne =>
    absurd hne Set.not_nonempty_empty⟩⟩

omit [DecidableEq P] in
theorem ops_events (tr : List (P × XlockCreate.Event (Made ε))) (p : P) (e : Option (XlockCreate.Event (Made ε))) :
    ops (tr ++ events p e) = ops tr ++ events p (e.bind toOp) := rename_events toOp tr p e

omit [DecidableEq P] in
theorem ops_unseen {p : P} {e : Option (XlockCreate.Event (Made ε))} (he : e.bind toOp = none) :
    ops (tr ++ events p e) = ops tr := by
  rw [ops_events, he]
  exact List.append_nil _

omit [DecidableEq P] in
theorem base_events {p : P} {e : Option (XlockCreate.Event (Made ε))} (he : e.any isFinal = false) :
    base c (tr ++ events p e) = base c tr := by
  rw [base, finished_events, he, Bool.or_false]
  rfl

omit [DecidableEq P] in
theorem Careful.unsaturated {p : P} {x : Local (Maker κ)} (meets : Careful c s p) (hl : s.loc p = .lock (.ready x)) :
    ∀ w k, ((seen s).loc p).place = .upStore w k → w.toInt ≠ intMax := by
  intro w k hw
  obtain ⟨place, phase⟩ := x
  have hplace : place.place = .upStore w k := by
    have hseen : (s.loc p).seen.place = place.place := by rw [hl]; rfl
    exact hseen.symm.trans hw
  unfold Careful at meets
  rw [hl] at meets
  cases place with
  | store => cases hplace
  | run pl =>
    cases hplace
    exact meets

theorem sound_unseen {p : P} {sh : Shared P σ} {l : Place κ} {o : List (P × Xsem.Event ε)} (h : Sound U b o (seen s))
    (hlock : sh.base.lock = s.shared.base.lock) (hl : l.seen = (s.loc p).seen) :
    Sound U b o (seen (s.move p sh l)) := by
  have hsame : (seen s).move p s.shared.base.lock (s.loc p).seen = seen s := State.move_eq_self (seen s) p
  rwa [seen_move, hlock, hl, hsame]

/-- One step: what holds of the semaphore, from what the step finds. -/
theorem SeenStep.sound [Finite P] {p : P} {e : Option (XlockCreate.Event (Made ε))} {sh : Shared P σ} {l : Place κ}
    (hstep : SeenStep c U p s.shared (s.loc p) e sh l) (h : Sound U (base c tr) (ops tr) (seen s))
    (hunborn : s.shared.base.file.bytes = 0 → Unborn create s)
    (hahead : Ahead create p (s.loc p) → finished tr = false) (meets : Careful c s p) :
    Sound U (base c (tr ++ events p e)) (ops (tr ++ events p e)) (seen (s.move p sh l)) := by
  cases hstep with
  | quiet he hlock hl =>
    subst he
    rw [base_events rfl, ops_unseen rfl]
    exact sound_unseen h hlock hl
  | clear hl he hlock hl' =>
    subst he
    rw [base_events rfl, ops_unseen rfl]
    -- No one is in the lock, so its word is 0 already.
    unfold Careful at meets
    rw [hl] at meets
    have hword : s.shared.base.lock.word = 0 := h.word_zero meets
    rw [XlockCreate.Shared.clear, ← hword] at hlock
    exact sound_unseen h hlock hl'
  | kill hbytes he hlock hl' =>
    subst he
    rw [base_events rfl, ops_unseen rfl, seen_move, hlock, hl']
    have hu := hunborn hbytes
    exact h.kill (hu.early p).calling.not_inside hu.word hu.queue hu.sem
  | seed hl he hlock hl' =>
    subst he
    have hfin : finished tr = false := hahead (by rw [hl]; trivial)
    have hbefore : base c tr = 0 := by rw [base, hfin]; rfl
    have hafter : base c (tr ++ events p (some (.client .created))) = c := by
      rw [base, finished_events, hfin]
      rfl
    unfold Careful at meets
    rw [hl] at meets
    rw [hbefore] at h
    have hmove : (seen s).move p (seeded c s.shared.base.lock) (s.loc p).seen =
        ⟨seeded c (seen s).shared, (seen s).loc⟩ := congrArg _ (Function.update_eq_self p _)
    rw [hafter, ops_unseen rfl, seen_move, hlock, hl', hmove]
    exact h.seed meets
  | use hl he hx =>
    rw [base_events he, ops_events, seen_move]
    exact h.step (meets.unsaturated hl) hx

/-- **What holds of the semaphore**, in every run made with care. -/
theorem create_sound [Finite P] (hone : ∀ p q, create p = true → create q = true → p = q)
    (h : RunIf (xsemCreateOpen create c U) (Careful c) (absent create rest place) tr s) :
    Sound U (base c tr) (ops tr) (seen s) := by
  refine (RunIf.invariant (I := fun tr s => Sound U (base c tr) (ops tr) (seen s) ∧
    (s.shared.base.file.bytes = 0 → Unborn create s)) ⟨seen_absent_sound, fun _ => ?_⟩ ?_ h).1
  · exact ⟨fun _ => trivial, rfl, rfl, rfl⟩
  · intro tr s p e sh l hrun ih meets hstep
    refine ⟨hstep.seen.sound ih.1 ih.2 (ahead_unfinished hone hrun.run p) meets, fun hbytes => ?_⟩
    have hbefore := bytes_eq_zero hstep hbytes
    exact (ih.2 hbefore).step hstep hbefore

/-- **Creating a semaphore loses nothing** in the runs whose every step is made
with care: once `xsem_create` has stored the count, it is `c` and what was
done to it by all processes, and no process sleeps in `xsem_down` on a
positive count with no wake to come and no one awake there. -/
theorem create_loses_nothing [Finite P] (hone : ∀ p q, create p = true → create q = true → p = q)
    (h : RunIf (xsemCreateOpen create c U) (Careful c) (absent create rest place) tr s) (hfin : finished tr = true) :
    (seen s).shared.rest.count.toInt = balance c (ops tr) ∧
      ¬ (0 < (seen s).shared.rest.count.toInt ∧ (∃ p, AsleepInDown (seen s) p) ∧ ¬ WakePending (seen s) ∧
        ¬ ∃ p, AwakeInDown (seen s) p) := by
  have hsound := create_sound hone h
  rw [base, hfin, if_pos rfl] at hsound
  obtain ⟨o, htally⟩ := hsound.tallied.exists_holder
  exact ⟨htally.count, hsound.not_stuck⟩

/-- The first of two processes. -/
def theFirst (p : Fin 2) : Bool := p == 0

/-- The first process creates the semaphore. The second has opened it before the
count is stored: it finds a count of 0 and is about to sleep on it when the
first stores 1, and so it does not sleep and decrements the count. -/
theorem create_loses_nothing_early :
    ∃ tr s, RunIf (xsemCreateOpen theFirst 1 anyCalls) (Careful 1) (absent theFirst () fun _ => ()) tr s ∧
      finished tr = true ∧ (seen s).shared.rest.count.toInt = 0 ∧
      (seen s).shared.rest.count.toInt = balance 1 (ops tr) := by
  have h : RunIf (xsemCreateOpen theFirst 1 anyCalls) (Careful 1) (absent theFirst () fun _ => ()) []
    (absent theFirst () fun _ => ()) := .nil
  have hbytes : File.bytes (some mapSz) ≠ 0 := by decide
  have hzero : ¬ 0 < (0 : BitVec 32).toInt := by decide
  have hpos : 0 < (1 : BitVec 32).toInt := by decide
  have hone : (1 : BitVec 32) ≠ 0 := by decide
  -- The creator, up to its store of the count.
  have h := h.next (p := 0) (l := .call .creat ()) rfl trivial (.call (.probe rfl))
  have h := h.next (p := 0) (State.move_self ..) trivial (.call .creat)
  have h := h.next (p := 0) (State.move_self ..) trivial (.call .truncate)
  have h := h.next (p := 0) (State.move_self ..) trivial (.call (.reopen (Option.some_ne_none _)))
  have h := h.next (p := 0) (State.move_self ..) trivial (.mapped .map)
  have h := h.next (p := 0) (State.move_self ..) trivial (.lock (.call (.probe rfl)))
  have h := h.next (p := 0) (State.move_self ..) trivial (.lock (.call .creat))
  have h := h.next (p := 0) (State.move_self ..) trivial (.lock (.call .truncate))
  have h := h.next (p := 0) (State.move_self ..) trivial (.lock (.call (.reopen (Option.some_ne_none _))))
  have h := h.next (p := 0) (State.move_self ..) trivial (.lock (mapped_create rfl _ _))
  have h := h.next (p := 0) (State.move_self ..) (fun | 0 | 1 => id) (.lock (.store hbytes))
  -- The other opens the semaphore, and goes on up to `FUTEX_WAIT`.
  have h := h.next (p := 1) (l := .call .map ()) rfl trivial (.call (.reopen (Option.some_ne_none _)))
  have h := h.next (p := 1) (State.move_self ..) trivial (.mapped .map)
  have h := h.next (p := 1) (State.move_self ..) trivial (.lock (.call (.reopen (Option.some_ne_none _))))
  have h := h.next (p := 1) (State.move_self ..) trivial (.lock (mapped_open rfl _ _))
  have h := h.next (p := 1) (State.move_self ..) trivial
    (.lock (.use (absurd rfl) (.own (.run (.callDown anyCalls_mayDown)))))
  have h := h.next (p := 1) (State.move_self ..) trivial (.lock (.use (absurd rfl) (.callLock (.run .down))))
  have h := h.next (p := 1) (State.move_self ..) trivial (.lock (.use (fun _ => hbytes) (.rawLockIt rfl (.run .down))))
  have h := h.next (p := 1) (State.move_self ..) trivial (.lock (.use (absurd rfl) (.own (.run (.testFails hzero)))))
  have h := h.next (p := 1) (State.move_self ..) trivial (.lock (.use (absurd rfl) (.callUnlock (.run .release))))
  have h := h.next (p := 1) (State.move_self ..) trivial
    (.lock (.use (fun _ => hbytes) (.rawUnlockIt rfl (.run .release))))
  have h := h.next (p := 1) (State.move_self ..) trivial
    (.lock (.use (fun _ => hbytes) (.futexWake futexWakes_empty)))
  -- The count is stored, and is there to be decremented.
  have h := h.next (p := 0) (rfl : _ = Place.lock (.ready ⟨.store (), .out⟩)) ⟨rfl, fun _ => fun | 0 | 1 => nofun,
    fun hne => absurd hne Set.not_nonempty_empty⟩ (.lock (.use (absurd rfl) (.own .store)))
  have h := h.next (p := 1) (rfl : _ = Place.lock (.ready ⟨.run (.downWait ()), .out⟩)) trivial
    (.lock (.use (absurd rfl) (.own (.run (.futexWaitAgain hone)))))
  have h := h.next (p := 1) (State.move_self ..) trivial (.lock (.use (absurd rfl) (.callLock (.run .down))))
  have h := h.next (p := 1) (State.move_self ..) trivial (.lock (.use (fun _ => hbytes) (.rawLockIt rfl (.run .down))))
  have h := h.next (p := 1) (State.move_self ..) trivial (.lock (.use (absurd rfl) (.own (.run (.test hpos)))))
  have h := h.next (p := 1) (State.move_self ..) trivial (.lock (.use (absurd rfl) (.own (.run .loadDown))))
  have h := h.next (p := 1) (State.move_self ..) trivial
    (.lock (.use (absurd rfl) (.own (.run (.decrement anyCalls_mayDown)))))
  exact ⟨_, _, h, rfl, rfl, (create_loses_nothing (by decide) h rfl).1⟩

/-! ## The count's file -/

omit [DecidableEq P] in
theorem count_bytes_ne_zero {p : P} {e : Option (XlockCreate.Event (Made ε))} {sh sh' : Shared P σ} {l l' : Place κ}
    (hstep : xsemCreateOpen create c U p sh l e sh' l') (h : sh.file.bytes ≠ 0) : sh'.file.bytes ≠ 0 := by
  cases hstep with
  | call hf | null hf | mapped hf => exact hf.bytes_ne_zero (by decide) h
  | lock => exact h

/-- What a process has seen to, before it makes the lock's file. -/
def Prepared (create : P → Bool) (p : P) (f : File) : Place κ → Prop
  | .call .reopen _ | .call .map _ => create p = true → f.bytes ≠ 0
  | .lock (.call .probe _) | .lock (.call .creat _) | .lock (.call .truncate _) => f.bytes ≠ 0
  | _ => True

omit [DecidableEq P] in
theorem Prepared.mono {p : P} {f f' : File} {l : Place κ} (h : Prepared create p f l)
    (hf : f.bytes ≠ 0 → f'.bytes ≠ 0) : Prepared create p f' l := by
  cases l with
  | call st k =>
    cases st with
    | reopen | map => exact fun hp => hf (h hp)
    | probe | creat | truncate => trivial
  | null => trivial
  | lock l =>
    cases l with
    | call st m =>
      cases st with
      | probe | creat | truncate => exact hf h
      | reopen | map => trivial
    | store | null | ready | killed => trivial

omit [DecidableEq P] in
theorem Prepared.step {p : P} {e : Option (XlockCreate.Event (Made ε))} {sh sh' : Shared P σ} {l l' : Place κ}
    (h : Prepared create p sh.file l) (hstep : xsemCreateOpen create c U p sh l e sh' l') :
    Prepared create p sh'.file l' := by
  cases hstep with
  | call hf =>
    cases hf with
    | probe | creat => trivial
    | truncate =>
      have hsize : File.bytes (some sizeofInt) ≠ 0 := by decide
      exact fun _ => hsize
    | reopen => exact h
  | null => trivial
  | mapped hf =>
    cases hf with
    | map =>
      cases hp : create p with
      | true => exact h hp
      | false => trivial
  | lock hstep =>
    cases hstep with
    | call hf =>
      cases hf with
      | probe | creat => exact h
      | truncate | reopen => trivial
    | mapped => split <;> trivial
    | null | store | use | sigbusStore | sigbus => trivial

theorem prepared (h : Run (xsemCreateOpen create c U) (absent create rest place) tr s) (p : P) :
    Prepared create p s.shared.file (s.loc p) := by
  refine Run.everyone (I := fun p _ sh l => Prepared create p sh.file l) (fun p => ?_) ?_ ?_ h p
  · cases hp : create p <;> simp [absent, first, Prepared, hp]
  · exact fun tr s p e sh l _ ih hstep => ih.step hstep
  · intro tr s p q e sh l _ _ ih hstep
    exact ih.mono (count_bytes_ne_zero hstep)

/-- **The count can be touched** by the time there is a lock to open. -/
theorem count_has_bytes (h : Run (xsemCreateOpen create c U) (absent create rest place) tr s) :
    s.shared.base.file ≠ none → s.shared.file.bytes ≠ 0 := by
  refine Run.invariant (I := fun _ s => s.shared.base.file ≠ none → s.shared.file.bytes ≠ 0) (absurd rfl) ?_ h
  intro tr s p e sh l hrun ih hstep hfile
  have hp := prepared hrun p
  have hbytes := count_bytes_ne_zero hstep
  generalize s.loc p = l₀ at hstep hp
  cases hstep with
  | call | null | mapped => exact hbytes (ih hfile)
  | lock hstep =>
    cases hstep with
    | call hf =>
      cases hf with
      | creat | truncate => exact hp
      | probe | reopen => exact ih hfile
    | null hf | mapped hf => cases hf <;> exact ih hfile
    | store | use | sigbusStore | sigbus => exact ih hfile

end Runs

/-! ## Two processes, one of them early -/

theorem xlock_run {p : P} {x x' : Xlock.Shared P (Sem P σ)} {pl pl' : Xsem.Place κ} {ph ph' : Phase}
    {e : Option (Xsem.Event ε)} (h : xlock (xsem U) p x ⟨pl, ph⟩ e x' ⟨pl', ph'⟩) :
    xlock (maker c U) p x ⟨.run pl, ph⟩ (e.map .sem) x' ⟨.run pl', ph'⟩ := by
  cases h with
  | own hs => exact .own (makerStep.run hs)
  | callLock hl => exact .callLock (Lifted.run hl)
  | rawLockIt hw hl => exact .rawLockIt hw (Lifted.run hl)
  | rawLockItFails hw => exact .rawLockItFails hw
  | futexWait hw => exact .futexWait hw
  | futexWaitAgain hw => exact .futexWaitAgain hw
  | futexWaitReturns => exact .futexWaitReturns
  | callUnlock hu => exact .callUnlock (Lifted.run hu)
  | rawUnlockIt hw hu => exact .rawUnlockIt hw (Lifted.run hu)
  | rawUnlockItFails hw => exact .rawUnlockItFails hw
  | futexWake hq => exact .futexWake hq

theorem use_path {p : P} {tr : List (P × Xsem.Event ε)} {y y' : Xlock.Shared P (Sem P σ) × Local (Xsem.Place κ)}
    (h : Path (xlock (xsem U)) p tr y y') {f f' : File} (hf : f'.bytes ≠ 0) :
    Path (xsemCreateOpen create c U) p (tr.map fun x => (x.1, .client (.sem x.2)))
      (⟨f, f', y.1⟩, .lock (.ready ⟨.run y.2.place, y.2.phase⟩))
      (⟨f, f', y'.1⟩, .lock (.ready ⟨.run y'.2.place, y'.2.phase⟩)) := by
  induction h with
  | refl => exact .refl
  | @step x x' l l' e tr y' first rest ih =>
    have hstep : xsemCreateOpen create c U p ⟨f, f', x⟩ (.lock (.ready ⟨.run l.place, l.phase⟩))
        ((e.map Made.sem).map .client) ⟨f, f', x'⟩ (.lock (.ready ⟨.run l'.place, l'.phase⟩)) :=
      .lock (.use (fun _ => hf) (xlock_run first))
    have hpath := Path.step hstep ih
    cases e with
    | none => exact hpath
    | some e => exact hpath

theorem creator_path {p : P} (hp : create p = true) (k : κ) (x : Xlock.Shared P (Sem P σ)) :
    Path (xsemCreateOpen create c U) p [(p, .created)] (⟨none, none, x⟩, .call .probe k)
      (⟨some sizeofInt, some mapSz, { x with word := 0 }⟩, .lock (.ready ⟨.store k, .out⟩)) := by
  have hbytes : File.bytes (some mapSz) ≠ 0 := by decide
  refine Path.quiet (.call (.probe rfl)) ?_
  refine Path.quiet (.call .creat) ?_
  refine Path.quiet (.call .truncate) ?_
  refine Path.quiet (.call (.reopen (Option.some_ne_none _))) ?_
  refine Path.quiet (.mapped .map) ?_
  rw [hp]
  refine Path.quiet (.lock (.call (.probe rfl))) ?_
  refine Path.quiet (.lock (.call .creat)) ?_
  refine Path.quiet (.lock (.call .truncate)) ?_
  refine Path.quiet (.lock (.call (.reopen (Option.some_ne_none _)))) ?_
  refine Path.quiet (.lock (mapped_create hp _ _)) ?_
  exact Path.event (.lock (.store hbytes)) .refl

theorem opener_path {p : P} (hp : create p = false) (k : κ) {n n' : Nat} (x : Xlock.Shared P (Sem P σ)) :
    Path (xsemCreateOpen create c U) p [] (⟨some n, some n', x⟩, .call .reopen k)
      (⟨some n, some n', x⟩, .lock (.ready ⟨.run (.user k), .out⟩)) := by
  refine Path.quiet (.call (.reopen (Option.some_ne_none _))) ?_
  refine Path.quiet (.mapped .map) ?_
  rw [hp]
  refine Path.quiet (.lock (.call (.reopen (Option.some_ne_none _)))) ?_
  exact Path.quiet (.lock (mapped_open hp _ _)) .refl

/-- The runs of a creator with `c` and one other process, which calls as it
likes. -/
def TwoRun (c : BitVec 32) (tr : List (Fin 2 × XlockCreate.Event (Made Empty)))
    (s : State (Fin 2) (Shared (Fin 2) Unit) (Place Unit)) : Prop :=
  Run (xsemCreateOpen theFirst c anyCalls) (absent theFirst () fun _ => ()) tr s

theorem early_opener (c : BitVec 32) :
    ∃ s, TwoRun c [(0, .created)] s ∧ s.loc 0 = .lock (.ready ⟨.store (), .out⟩) ∧
      s.shared = ⟨some sizeofInt, some mapSz, 0, ∅, 0, ∅, ()⟩ ∧ s.loc 1 = .lock (.ready ⟨.run (.user ()), .out⟩) := by
  have h : TwoRun c [] (absent theFirst () fun _ => ()) := .nil
  have h := Run.path h (p := 0) (creator_path rfl () _)
  have h := Run.path h (p := 1) (opener_path rfl () _)
  exact ⟨_, h, rfl, rfl, rfl⟩

theorem TwoRun.store {c : BitVec 32} {tr : List (Fin 2 × XlockCreate.Event (Made Empty))}
    {s : State (Fin 2) (Shared (Fin 2) Unit) (Place Unit)} (h : TwoRun c tr s)
    (h0 : s.loc 0 = .lock (.ready ⟨.store (), .out⟩)) :
    TwoRun c (tr ++ [(0, .client .created)]) (s.move 0
      { s.shared with base := { s.shared.base with lock := seeded c s.shared.base.lock } }
      (.lock (.ready ⟨.run (.user ()), .out⟩))) :=
  Run.next h h0 (.lock (.use (absurd rfl) (.own .store)))

theorem increment_lost :
    ∃ tr s, TwoRun 1 tr s ∧ finished tr = true ∧ (seen s).shared.rest.count.toInt ≠ balance 1 (ops tr) := by
  obtain ⟨⟨shared, loc⟩, h, h0, rfl, h1⟩ := early_opener 1
  have hbytes : File.bytes (some mapSz) ≠ 0 := by decide
  have h := Run.path h (Path.at_eq h1 (use_path (anyCalls_increments (1 : Fin 2) ⟨0, ∅, ()⟩) hbytes))
  have h := TwoRun.store h ((State.move_other (by decide) ..).trans h0)
  have hcounts : (1 : Int) ≠ 2 := by decide
  exact ⟨_, _, h, rfl, hcounts⟩

theorem sleeper_left :
    ∃ tr s, TwoRun 1 tr s ∧ finished tr = true ∧ 0 < (seen s).shared.rest.count.toInt ∧
      (∃ p, AsleepInDown (seen s) p) ∧ ¬ WakePending (seen s) ∧ ¬ ∃ p, AwakeInDown (seen s) p := by
  obtain ⟨⟨shared, loc⟩, h, h0, rfl, h1⟩ := early_opener 1
  obtain ⟨tr, hsleeps⟩ := anyCalls_sleeps (1 : Fin 2) ∅
  have hbytes : File.bytes (some mapSz) ≠ 0 := by decide
  have h := Run.path h (Path.at_eq h1 (use_path hsleeps hbytes))
  have h := TwoRun.store h ((State.move_other (by decide) ..).trans h0)
  refine ⟨_, _, h, by simp [finished, isFinal], Int.one_pos, ⟨1, ⟨(), rfl⟩, Set.mem_insert 1 ∅⟩, fun hwake => ?_,
    fun hawake => ?_⟩
  · rcases hwake with ⟨p, hp⟩ | ⟨⟨p, -, hp, -⟩, -⟩
    · match p, hp with
      | 0, hp | 1, hp => exact hp
    · match p, hp with
      | 0, hp | 1, hp => cases hp
  · obtain ⟨p, hbefore, hdown, -⟩ := hawake
    match p, hbefore, hdown with
    | 0, hbefore, _ => exact hbefore
    | 1, _, hdown => exact hdown ⟨⟨(), rfl⟩, Set.mem_insert 1 ∅⟩

/-- **An increment is lost, and a sleeper is left behind**: the other process
increments the count, or sleeps on it, just before it is stored. -/
theorem create_loses :
    (∃ tr s, TwoRun 1 tr s ∧ finished tr = true ∧ (seen s).shared.rest.count.toInt ≠ balance 1 (ops tr)) ∧
      ∃ tr s, TwoRun 1 tr s ∧ finished tr = true ∧ 0 < (seen s).shared.rest.count.toInt ∧
        (∃ p, AsleepInDown (seen s) p) ∧ ¬ WakePending (seen s) ∧ ¬ ∃ p, AwakeInDown (seen s) p :=
  ⟨increment_lost, sleeper_left⟩

end SugarNSpice.XsemCreate
