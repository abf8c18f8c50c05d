/-
A lock's whole life: made, opened, used, closed and destroyed, and made again
under the same name.

`xlock_destroy` takes the name away and leaves the file to those who still have
it mapped, and the next `xlock_create` makes another file. So what excludes
each other are the processes with one file, and all of them have the same one
as long as nobody destroys a lock that another process has open or is about to
open (`life_exclusion`). `xlock_close` does not close a lock whose word is not
0, be it held by the caller or by another.

A file is known by its inode. As for the creation of a single lock, descriptors
0 to 2 are taken to be open and `malloc`, `ftruncate` and `mmap` to succeed, and
a process that touches a file without bytes is killed. The name has at most 15
bytes, so that `x->name` ends with a NUL.
-/
import SugarNSpice.XlockFacts

namespace SugarNSpice.XlockLife

open Processes Xlock

/-- Before which system call of `xlock_create_open` a process is. -/
inductive Stage where
  /-- Before the `open` that looks for the name. -/
  | probe
  /-- Before `open` with `O_CREAT`. -/
  | creat
  /-- Before `ftruncate`. -/
  | truncate (i : Nat)
  /-- Before the `open` whose descriptor is mapped. -/
  | reopen
  /-- Before `mmap`. -/
  | map (i : Nat)

/-- Where a process is; `k` is its client's place. -/
inductive Place (κ : Type) where
  /-- Without the lock. -/
  | idle (k : κ)
  | call (create : Bool) (st : Stage) (k : κ)
  /-- In `xlock_create`, before the store of 0. -/
  | store (i : Nat) (k : κ)
  | ready (i : Nat) (l : Local κ)
  /-- In `xlock_destroy`, before `unlink`. -/
  | unlinking (k : κ)
  | killed

/-- What stands under the name, the files made so far with their sizes, words
and sleepers, and what else is shared. -/
structure Shared (P σ : Type) where
  name : Option Nat
  inodes : Nat
  bytes : Nat → Nat
  word : Nat → Int
  queue : Nat → Set P
  rest : σ

def mapSz : Nat := 4096

variable {P σ κ ε : Type}

/-- A file as the lock's code sees it. -/
def Shared.lock (s : Shared P σ) (i : Nat) : Xlock.Shared P σ := ⟨s.word i, s.queue i, s.rest⟩

def Shared.setLock (s : Shared P σ) (i : Nat) (x : Xlock.Shared P σ) : Shared P σ :=
  { s with word := Function.update s.word i x.word, queue := Function.update s.queue i x.queue, rest := x.rest }

inductive life (C : Client P σ κ ε) : Program P (Shared P σ) (Place κ) ε
  | own {p s k e r k'} : C.step p s.rest k e r k' → life C p s (.idle k) e { s with rest := r } (.idle k')
  | xlockCreate {p s k} : life C p s (.idle k) none s (.call true .probe k)
  | xlockOpen {p s k} : life C p s (.idle k) none s (.call false .reopen k)
  | probeFinds {p s b i k} : s.name = some i → life C p s (.call b .probe k) none s (.idle k)
  | probe {p s b k} : s.name = none → life C p s (.call b .probe k) none s (.call b .creat k)
  | creatNew {p s b k} : s.name = none →
      life C p s (.call b .creat k) none { s with name := some s.inodes, inodes := s.inodes + 1 }
        (.call b (.truncate s.inodes) k)
  | creat {p s b i k} : s.name = some i → life C p s (.call b .creat k) none s (.call b (.truncate i) k)
  | truncate {p s b i k} :
      life C p s (.call b (.truncate i) k) none { s with bytes := Function.update s.bytes i mapSz } (.call b .reopen k)
  | reopenFails {p s b k} : s.name = none → life C p s (.call b .reopen k) none s (.idle k)
  | reopen {p s b i k} : s.name = some i → life C p s (.call b .reopen k) none s (.call b (.map i) k)
  | mapCreate {p s i k} : life C p s (.call true (.map i) k) none s (.store i k)
  | mapOpen {p s i k} : life C p s (.call false (.map i) k) none s (.ready i ⟨k, .out⟩)
  | store {p s i k} : s.bytes i ≠ 0 →
      life C p s (.store i k) none { s with word := Function.update s.word i 0 } (.ready i ⟨k, .out⟩)
  | sigbusStore {p s i k} : s.bytes i = 0 → life C p s (.store i k) none s .killed
  | use {p s i l e x l'} : (l.phase ≠ .out → s.bytes i ≠ 0) → xlock C p (s.lock i) l e x l' →
      life C p s (.ready i l) e (s.setLock i x) (.ready i l')
  | sigbus {p s i l} : s.bytes i = 0 → life C p s (.ready i l) none s .killed
  | xlockClose {p s i k} : s.bytes i ≠ 0 → s.word i = 0 → life C p s (.ready i ⟨k, .out⟩) none s (.idle k)
  | xlockCloseFails {p s i k} : s.bytes i ≠ 0 → s.word i ≠ 0 →
      life C p s (.ready i ⟨k, .out⟩) none s (.ready i ⟨k, .out⟩)
  | xlockDestroy {p s i k} : life C p s (.ready i ⟨k, .out⟩) none s (.unlinking k)
  | unlink {p s k} : life C p s (.unlinking k) none { s with name := none } (.idle k)

/-- No lock yet. -/
def start (rest : σ) (place : P → κ) : State P (Shared P σ) (Place κ) :=
  ⟨⟨none, 0, fun _ => 0, fun _ => 0, fun _ => ∅, rest⟩, fun p => .idle (place p)⟩

/-- With a lock, and between the swap that took it and the one that gives it
back. -/
def Place.Inside (C : Client P σ κ ε) : Place κ → Prop
  | .ready _ l => C.inside l.place
  | _ => False

/-- The file a process has mapped, or has a descriptor for. -/
def Place.file : Place κ → Option Nat
  | .call _ (.truncate i) _ | .call _ (.map i) _ | .store i _ | .ready i _ => some i
  | _ => none

/-- What has to hold before a step, for the lock to work: `open` with `O_CREAT`
finds the name still absent, the store of 0 finds no process inside, and
`unlink` is called by a process that has given the lock back, when no other one
has the file. -/
def Careful (C : Client P σ κ ε) (s : State P (Shared P σ) (Place κ)) (p : P) : Prop :=
  match s.loc p with
  | .call _ .creat _ => s.shared.name = none
  | .store _ _ => ∀ q, ¬ (s.loc q).Inside C
  | .unlinking k => ¬ C.inside k ∧ ∀ q, q ≠ p → (s.loc q).file = none
  | _ => True

/-! ## One file at a time -/

/-- The client's place of a process that has no lock yet. -/
def Place.home : Place κ → Option κ
  | .idle k | .call _ _ k | .store _ k => some k
  | _ => none

/-- Whoever has a file has the one under the name, and one process is inside
while the word is 1. -/
structure Sound (C : Client P σ κ ε) (s : State P (Shared P σ) (Place κ)) : Prop where
  file : ∀ p i, (s.loc p).file = some i → s.shared.name = some i
  home : ∀ p k, (s.loc p).home = some k → ¬ C.inside k
  word : ∀ p i l, s.loc p = .ready i l → C.inside l.place → s.shared.word i = 1
  unique : ∀ p q, (s.loc p).Inside C → (s.loc q).Inside C → p = q

section Runs

variable [DecidableEq P] {C : Client P σ κ ε} {s : State P (Shared P σ) (Place κ)}

omit [DecidableEq P] in
theorem Sound.word_of_inside {p : P} {i : Nat} (h : Sound C s) (hname : s.shared.name = some i)
    (hp : (s.loc p).Inside C) : s.shared.word i = 1 := by
  cases hl : s.loc p with
  | ready j l =>
    rw [hl] at hp
    have hj := h.file p j (by rw [hl]; rfl)
    obtain rfl : i = j := Option.some.inj (hname.symm.trans hj)
    exact h.word p i l hl hp
  | _ => simp [hl, Place.Inside] at hp

/-- One process goes on: the others still have the file under the name, and the
one that is inside the word. -/
theorem Sound.move {p : P} {sh : Shared P σ} {l : Place κ} (h : Sound C s)
    (hothers : ∀ q, q ≠ p → ∀ i, (s.loc q).file = some i → sh.name = some i ∧ ((s.loc q).Inside C → sh.word i = 1))
    (hfile : ∀ i, l.file = some i → sh.name = some i) (hhome : ∀ k, l.home = some k → ¬ C.inside k)
    (hinside : ∀ i, l.file = some i → l.Inside C → sh.word i = 1 ∧ ∀ q, q ≠ p → ¬ (s.loc q).Inside C) :
    Sound C (s.move p sh l) := by
  have hcases : ∀ {Q : P → Place κ → Prop}, Q p l → (∀ q, q ≠ p → Q q (s.loc q)) →
      ∀ q, Q q ((s.move p sh l).loc q) := fun {Q} hself hother =>
    (Function.forall_update_iff s.loc Q).2 ⟨hself, hother⟩
  have hin : ∀ {l : Place κ}, l.Inside C → ∃ i, l.file = some i := by
    intro l hl
    cases l with
    | ready i l => exact ⟨i, rfl⟩
    | _ => exact hl.elim
  constructor
  · exact @hcases (fun _ l => ∀ i, l.file = some i → sh.name = some i) hfile fun q hq i hi => (hothers q hq i hi).1
  · exact @hcases (fun _ l => ∀ k, l.home = some k → ¬ C.inside k) hhome fun q _ => h.home q
  · refine @hcases (fun _ l => ∀ i l', l = .ready i l' → C.inside l'.place → sh.word i = 1) ?_ fun q hq i l' hl hi => ?_
    · rintro i l' rfl hi
      exact (hinside i rfl hi).1
    · exact (hothers q hq i (by rw [hl]; rfl)).2 (by rwa [hl])
  · refine @hcases (fun q l' => ∀ r, l'.Inside C → ((s.move p sh l).loc r).Inside C → q = r) ?_ fun q hq => ?_
    · intro r hl
      obtain ⟨i, hi⟩ := hin hl
      refine @hcases (fun r l' => l'.Inside C → p = r) (fun _ => rfl) (fun r hr hr' => ?_) r
      exact absurd hr' ((hinside i hi hl).2 r hr)
    · intro r hl
      refine @hcases (fun r l' => l'.Inside C → q = r) (fun hp => ?_) (fun r _ hr => h.unique q r hl hr) r
      obtain ⟨i, hi⟩ := hin hp
      exact absurd hl ((hinside i hi hp).2 q hq)

theorem Sound.stays {p : P} {sh : Shared P σ} {l : Place κ} (h : Sound C s) (hname : sh.name = s.shared.name)
    (hword : sh.word = s.shared.word) (hfile : ∀ i, l.file = some i → s.shared.name = some i)
    (hhome : ∀ k, l.home = some k → ¬ C.inside k) (hout : ¬ l.Inside C) : Sound C (s.move p sh l) := by
  refine h.move (fun q _ i hi => ?_) (fun i hi => hname.trans (hfile i hi)) hhome fun i _ hl => absurd hl hout
  rw [hname, hword]
  exact ⟨h.file q i hi, fun hq => h.word_of_inside (h.file q i hi) hq⟩

theorem Sound.use {p : P} {i : Nat} {l l' : Local κ} {e : Option ε} {x : Xlock.Shared P σ} (h : Sound C s)
    (hl : s.loc p = .ready i l) (hstep : xlock C p (s.shared.lock i) l e x l') :
    Sound C (s.move p (s.shared.setLock i x) (.ready i l')) := by
  have hname : s.shared.name = some i := h.file p i (by rw [hl]; rfl)
  have hp : ∀ {q}, q ≠ p → (s.loc q).Inside C → ¬ C.inside l.place := by
    intro q hqp hq hin
    exact hqp (h.unique q p hq (by rw [hl]; exact hin))
  have hword : (s.shared.setLock i x).word i = x.word := Function.update_self ..
  -- the others keep what they have, if none of them is inside or the word stays 1
  have hmove : ((∃ q, q ≠ p ∧ (s.loc q).Inside C) → x.word = 1) →
      (C.inside l'.place → x.word = 1 ∧ ∀ q, q ≠ p → ¬ (s.loc q).Inside C) →
      Sound C (s.move p (s.shared.setLock i x) (.ready i l')) := by
    intro hothers hself
    refine h.move (fun q hq j hj => ⟨h.file q j hj, fun hin => ?_⟩) (fun j hj => ?_) (by simp [Place.home])
      fun j hj hin => ?_
    · obtain rfl : i = j := Option.some.inj (hname.symm.trans (h.file q j hj))
      exact hword.trans (hothers ⟨q, hq, hin⟩)
    · obtain rfl : i = j := Option.some.inj hj
      exact hname
    · obtain rfl : i = j := Option.some.inj hj
      rw [hword]
      exact hself hin
  have hone : ∀ {q}, (s.loc q).Inside C → s.shared.word i = 1 := fun hq => h.word_of_inside hname hq
  have hsame : (x.word = 1 ↔ s.shared.word i = 1) → (C.inside l.place ↔ C.inside l'.place) →
      Sound C (s.move p (s.shared.setLock i x) (.ready i l')) := by
    intro hw hplace
    refine hmove (fun ⟨q, _, hq⟩ => hw.2 (hone hq)) fun hin => ?_
    exact ⟨hw.2 (h.word p i l hl (hplace.2 hin)), fun q hqp hq => hp hqp hq (hplace.2 hin)⟩
  have hview : ∀ {x y : Xlock.Shared P σ}, x.view.1 = y.view.1 → (x.word = 1 ↔ y.word = 1) := by
    intro x y hxy
    simpa [Xlock.Shared.view] using hxy
  rcases xlock_step_guarded hstep with ⟨-, heq, hplace⟩ | hguarded
  · exact hsame (hview (congrArg Prod.fst heq)) (by rw [hplace])
  · generalize hv : (s.shared.lock i).view = v, hv' : x.view = v' at hguarded
    cases hguarded with
    | own hs => exact hsame (hview ((congrArg Prod.fst hv').trans (congrArg Prod.fst hv).symm)) (C.step_inside hs)
    | acquire hlock =>
      have hfree : s.shared.word i ≠ 1 := of_decide_eq_false (congrArg Prod.fst hv)
      have htaken : x.word = 1 := of_decide_eq_true (congrArg Prod.fst hv')
      refine hmove (fun _ => htaken) fun _ => ⟨htaken, fun q _ hq => hfree (hone hq)⟩
    | release hunlock =>
      obtain ⟨hin, hout⟩ := C.unlock_inside hunlock
      exact hmove (fun ⟨q, hqp, hq⟩ => absurd hin (hp hqp hq)) fun h => absurd h hout

theorem Sound.step {p : P} {e : Option ε} {sh : Shared P σ} {l : Place κ} (h : Sound C s) (meets : Careful C s p)
    (hstep : life C p s.shared (s.loc p) e sh l) : Sound C (s.move p sh l) := by
  have hfile := h.file p
  have hhome := h.home p
  unfold Careful at meets
  generalize hl : s.loc p = l₀ at hstep meets hfile hhome
  cases hstep with
  | own hs =>
    refine h.stays rfl rfl (by simp [Place.file]) ?_ (by simp [Place.Inside])
    intro k hk hin
    obtain rfl := Option.some.inj hk
    exact hhome _ rfl ((C.step_inside hs).2 hin)
  | xlockCreate | xlockOpen | probeFinds | probe | reopenFails =>
    exact h.stays rfl rfl (by simp [Place.file]) hhome (by simp [Place.Inside])
  | creatNew hnone =>
    refine h.move (fun q _ i hi => ?_) (by simp [Place.file]) hhome (by simp [Place.Inside])
    have := h.file q i hi
    simp [hnone] at this
  | creat hsome => exact h.stays rfl rfl (fun i hi => hsome.trans hi) hhome (by simp [Place.Inside])
  | truncate => exact h.stays rfl rfl (by simp [Place.file]) hhome (by simp [Place.Inside])
  | reopen hsome => exact h.stays rfl rfl (fun i hi => hsome.trans hi) hhome (by simp [Place.Inside])
  | mapCreate => exact h.stays rfl rfl hfile hhome (by simp [Place.Inside])
  | mapOpen => exact h.stays rfl rfl hfile (by simp [Place.home]) (hhome _ rfl)
  | store =>
    refine h.move (fun q _ j hj => ⟨h.file q j hj, fun hq => absurd hq (meets q)⟩) hfile (by simp [Place.home]) ?_
    exact fun i _ hin => absurd hin (hhome _ rfl)
  | sigbusStore | sigbus => exact h.stays rfl rfl (by simp [Place.file]) (by simp [Place.home]) (by simp [Place.Inside])
  | use _ hx => exact h.use hl hx
  | xlockClose _ hword =>
    refine h.stays rfl rfl (by simp [Place.file]) ?_ (by simp [Place.Inside])
    intro k hk hin
    obtain rfl := Option.some.inj hk
    have := h.word p _ _ hl hin
    omega
  | xlockCloseFails =>
    have hself := State.move_eq_self s p
    rw [hl] at hself
    rwa [hself]
  | xlockDestroy => exact h.stays rfl rfl (by simp [Place.file]) (by simp [Place.home]) (by simp [Place.Inside])
  | unlink =>
    refine h.move (fun q hq i hi => ?_) (by simp [Place.file]) ?_ (by simp [Place.Inside])
    · simp [meets.2 q hq] at hi
    · intro k hk
      obtain rfl := Option.some.inj hk
      exact meets.1

omit [DecidableEq P] in
theorem sound_start {place : P → κ} (rest : σ) (h0 : ∀ p, ¬ C.inside (place p)) : Sound C (start rest place) where
  file p i hi := by simp [start, Place.file] at hi
  home p k hk := Option.some.inj hk ▸ h0 p
  word p i l hl := by simp [start] at hl
  unique p q hp := hp.elim

/-- **A lock through its whole life.** In every run with the care said above,
however often the lock is made, closed and destroyed, all processes that have it
have the file under the name, and at most one of them is inside. -/
theorem life_exclusion {rest : σ} {place : P → κ} {tr : List (P × ε)} (h0 : ∀ p, ¬ C.inside (place p))
    (h : RunIf (life C) (Careful C) (start rest place) tr s) :
    (∀ p i l, s.loc p = .ready i l → s.shared.name = some i) ∧
      ∀ p q, (s.loc p).Inside C → (s.loc q).Inside C → p = q := by
  have hsound : Sound C s := by
    refine RunIf.invariant (I := fun _ s => Sound C s) (sound_start rest h0) ?_ h
    exact fun tr s p e sh l _ ih meets hstep => ih.step meets hstep
  exact ⟨fun p i l hl => hsound.file p i (by rw [hl]; rfl), hsound.unique⟩

end Runs

/-- The first process makes the lock and destroys it, and the second makes
another one and takes that. -/
theorem life_exclusion_sample : ∃ tr s, RunIf (life lockers) (Careful lockers) (start () fun _ : Fin 2 => false) tr s ∧
    s.loc 1 = .ready 1 ⟨true, .out⟩ ∧ (∀ p i l, s.loc p = .ready i l → s.shared.name = some i) ∧
      ∀ p q, (s.loc p).Inside (lockers : Client (Fin 2) _ _ _) → (s.loc q).Inside (lockers : Client (Fin 2) _ _ _) →
        p = q := by
  have h : RunIf (life lockers) (Careful lockers) (start () fun _ : Fin 2 => false) [] (start () fun _ => false) := .nil
  have h := h.next (p := 0) (l := .call true .probe false) rfl trivial .xlockCreate
  have h := h.next (p := 0) (State.move_self ..) trivial (.probe rfl)
  have h := h.next (p := 0) (State.move_self ..) rfl (.creatNew rfl)
  have h := h.next (p := 0) (State.move_self ..) trivial .truncate
  have h := h.next (p := 0) (State.move_self ..) trivial (.reopen rfl)
  have h := h.next (p := 0) (State.move_self ..) trivial .mapCreate
  have h := h.next (p := 0) (State.move_self ..) (Fin.forall_fin_two.2 ⟨id, id⟩) (.store (by decide))
  have h := h.next (p := 0) (State.move_self ..) trivial .xlockDestroy
  have h := h.next (p := 0) (State.move_self ..)
    ⟨Bool.false_ne_true, Fin.forall_fin_two.2 ⟨fun hq => absurd rfl hq, fun _ => rfl⟩⟩ .unlink
  have h := h.next (p := 1) (l := .call true .probe false) rfl trivial .xlockCreate
  have h := h.next (p := 1) (State.move_self ..) trivial (.probe rfl)
  have h := h.next (p := 1) (State.move_self ..) rfl (.creatNew rfl)
  have h := h.next (p := 1) (State.move_self ..) trivial .truncate
  have h := h.next (p := 1) (State.move_self ..) trivial (.reopen rfl)
  have h := h.next (p := 1) (State.move_self ..) trivial .mapCreate
  have h := h.next (p := 1) (State.move_self ..) (Fin.forall_fin_two.2 ⟨id, id⟩) (.store (by decide))
  have h := h.next (p := 1) (State.move_self ..) trivial (.use (absurd rfl) (.callLock lockers_lock))
  have h := h.next (p := 1) (State.move_self ..) trivial (.use (fun _ => by decide) (.rawLockIt rfl lockers_lock))
  exact ⟨_, _, h, State.move_self .., life_exclusion (fun _ => Bool.false_ne_true) h⟩

end SugarNSpice.XlockLife
