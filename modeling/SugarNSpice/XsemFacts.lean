/-
The semaphore counts, and forgets no sleeper.

The count is the resource behind `sem_lock`: at every moment it is what the
increments and decrements so far make of the initial value, in 32-bit
arithmetic, and the holder's loaded copy is still current when it is stored
(`Counted`). From there: a user that brackets a section with the two calls is
in it at most `c` times at once, and with `c` = 1 the semaphore is a lock.

For wake-ups, the count is at most the number of processes that will see to
it (`Helps`): those between their increment and their wake, and those in
`xsem_down` before their decrement and not asleep there. One wake lets one
sleeper go, which takes the waker's place in the sum.
-/
import SugarNSpice.Xsem
import SugarNSpice.XlockFacts
import SugarNSpice.CLang
import Mathlib.Data.Set.Card

namespace SugarNSpice.Xsem

open Processes Xlock CLang

variable {P σ κ ε : Type}

/-! ## Traces -/

/-- What an event adds to the count. -/
def Event.weight : Event ε → Int
  | .increment => 1
  | .decrement => -1
  | _ => 0

def Event.isIncrement : Event ε → Bool
  | .increment => true
  | _ => false

def Event.isDecrement : Event ε → Bool
  | .decrement => true
  | _ => false

def increments (tr : List (P × Event ε)) : Nat := tr.countP fun x => x.2.isIncrement

def decrements (tr : List (P × Event ε)) : Nat := tr.countP fun x => x.2.isDecrement

/-- What the count should be. -/
def balance (c : BitVec 32) (tr : List (P × Event ε)) : Int := c.toInt + increments tr - decrements tr

theorem balance_events (c : BitVec 32) (tr : List (P × Event ε)) (p : P) (e : Option (Event ε)) :
    balance c (tr ++ events p e) = balance c tr + (e.map Event.weight).getD 0 := by
  simp only [balance, increments, decrements, List.countP_append]
  cases e with
  | none => simp [events]
  | some e =>
    cases e <;> simp [events, Event.weight, Event.isIncrement, Event.isDecrement] <;> omega

/-- The balance of a run never left the range of `int`. -/
def InRange (c : BitVec 32) (tr : List (P × Event ε)) : Prop := ∀ a, a <+: tr → balance c a ≤ intMax

theorem InRange.before {c : BitVec 32} {tr tr' : List (P × Event ε)} (h : InRange c (tr ++ tr')) : InRange c tr :=
  fun a ha => h a (ha.trans (List.prefix_append tr tr'))

/-! ## The count behind the lock -/

/-- What the holder of `sem_lock` knows of the count. -/
def Loaded (count : BitVec 32) : Option (Place κ) → Prop
  | some (.downLoad _) => 0 < count.toInt
  | some (.downStore v _) => v = count ∧ 0 < count.toInt
  | some (.upStore v _) => v = count
  | _ => True

/-- The count, with the holder of `sem_lock` at `o`. -/
structure Counted (c : BitVec 32) (o : Option (Place κ)) (tr : List (P × Event ε)) (s : Sem P σ) : Prop where
  count : s.count = BitVec.ofInt 32 (balance c tr)
  nonneg : InRange c tr → 0 ≤ balance c tr
  loaded : Loaded s.count o

theorem Counted.toInt_eq {c : BitVec 32} {o : Option (Place κ)} {tr : List (P × Event ε)} {s : Sem P σ}
    (h : Counted c o tr s) (hr : InRange c tr) : s.count.toInt = balance c tr := by
  have hlow := h.nonneg hr
  rw [h.count, toInt_ofInt_of_isInt ⟨by unfold intMax; omega, hr tr (List.prefix_rfl)⟩]

theorem Counted.same {c : BitVec 32} {o o' : Option (Place κ)} {tr : List (P × Event ε)} {s s' : Sem P σ} {p : P}
    {e : Option (Event ε)} (h : Counted c o tr s) (hcount : s'.count = s.count)
    (he : (e.map Event.weight).getD 0 = 0) (hl : Loaded s.count o') : Counted c o' (tr ++ events p e) s' := by
  refine ⟨?_, fun hr => ?_, hcount ▸ hl⟩
  · rw [hcount, h.count, balance_events, he, Int.add_zero]
  · rw [balance_events, he, Int.add_zero]
    exact h.nonneg hr.before

theorem Counted.decrement {c : BitVec 32} {k k' : κ} {tr : List (P × Event ε)} {s : Sem P σ} {p : P} {v : BitVec 32}
    (h : Counted c (some (.downStore v k)) tr s) :
    Counted c (some (.downUnlock k')) (tr ++ events p (some .decrement)) { s with count := v - 1 } := by
  obtain ⟨rfl, hpos⟩ := h.loaded
  refine ⟨?_, fun hr => ?_, trivial⟩
  · have hneg : BitVec.ofInt 32 (-1) = -1 := by decide
    rw [balance_events, BitVec.ofInt_add, ← h.count, BitVec.sub_eq_add_neg, ← hneg]
    simp only [Option.map_some, Option.getD_some, Event.weight]
  · have := h.toInt_eq hr.before
    rw [balance_events]
    simp only [Option.map_some, Option.getD_some, Event.weight]
    omega

theorem Counted.increment {c : BitVec 32} {k k' : κ} {tr : List (P × Event ε)} {s : Sem P σ} {p : P} {v : BitVec 32}
    (h : Counted c (some (.upStore v k)) tr s) :
    Counted c (some (.upUnlock k')) (tr ++ events p (some .increment)) { s with count := v + 1 } := by
  have hv : v = s.count := h.loaded
  subst hv
  refine ⟨?_, fun hr => ?_, trivial⟩
  · have hone : BitVec.ofInt 32 1 = 1 := by decide
    rw [balance_events, BitVec.ofInt_add, ← h.count, ← hone]
    simp only [Option.map_some, Option.getD_some, Event.weight]
  · have := h.nonneg hr.before
    rw [balance_events]
    simp only [Option.map_some, Option.getD_some, Event.weight]
    omega

variable {U : User P σ κ ε} {c : BitVec 32} {rest : σ} {place : P → κ} {tr : List (P × Event ε)}

theorem Counted.inner {p : P} {s s' : Sem P σ} {k k' : Place κ} {e : Option (Event ε)} (hin : k.inside)
    (hstep : xsemStep U p s k e s' k') (h : Counted c (some k) tr s) : Counted c (some k') (tr ++ events p e) s' := by
  cases hstep with
  | test hpos => exact h.same rfl rfl hpos
  | testFails => exact h.same rfl rfl trivial
  | loadDown => exact h.same rfl rfl ⟨rfl, h.loaded⟩
  | decrement => exact h.decrement
  | loadUp => exact h.same rfl rfl rfl
  | increment => exact h.increment
  | _ => exact hin.elim

theorem xsemStep.outer_keeps {p : P} {s s' : Sem P σ} {k k' : Place κ} {e : Option (Event ε)} (hout : ¬ k.inside)
    (hstep : xsemStep U p s k e s' k') : s'.count = s.count ∧ (e.map Event.weight).getD 0 = 0 := by
  cases hstep with
  | @own _ _ _ e => exact ⟨rfl, by cases e <;> rfl⟩
  | callDown | returnDown | futexWait | futexWaitAgain | futexWaitReturns | callUp | futexWake => exact ⟨rfl, rfl⟩
  | test | testFails | loadDown | decrement | loadUp | increment => exact absurd trivial hout

theorem Counted.outer {p : P} {s s' : Sem P σ} {k k' : Place κ} {e : Option (Event ε)} {o : Option (Place κ)}
    (hout : ¬ k.inside) (hstep : xsemStep U p s k e s' k') (h : Counted c o tr s) :
    Counted c o (tr ++ events p e) s' := by
  obtain ⟨hcount, hweight⟩ := hstep.outer_keeps hout
  exact h.same hcount hweight h.loaded

section Runs

variable [DecidableEq P] {s : State P (Shared P (Sem P σ)) (Local (Place κ))} {g : State P (Bool × Sem P σ) (Place κ)}

/-- Runs of the semaphore over an atomic lock, which is where they are
studied. -/
def Guarded (U : User P σ κ ε) (c : BitVec 32) (rest : σ) (place : P → κ) (tr : List (P × Event ε))
    (g : State P (Bool × Sem P σ) (Place κ)) : Prop :=
  Run (xsem U).guarded ⟨(false, ⟨c, ∅, rest⟩), fun p => .user (place p)⟩ tr g

theorem Runs.guarded (h : Runs U c rest place tr s) :
    Guarded U c rest place tr ⟨s.shared.view, fun p => (s.loc p).place⟩ := xlock_refines_guarded h

theorem Guarded.counted (hc : 0 ≤ c.toInt) (h : Guarded U c rest place tr g) : Kept (xsem U) (Counted c) tr g := by
  refine guarded_resource ?_ ?_ Counted.inner Counted.outer (fun _ => False.elim) ?_ h
  · intro k k' tr s hlock h
    cases hlock <;> exact ⟨h.count, h.nonneg, trivial⟩
  · intro k k' tr s _ h
    exact ⟨h.count, h.nonneg, trivial⟩
  · refine ⟨?_, fun _ => ?_, trivial⟩
    · simp [balance, increments, decrements]
    · simpa [balance, increments, decrements] using hc

theorem Guarded.balance_nonneg (hc : 0 ≤ c.toInt) (h : Guarded U c rest place tr g) : 0 ≤ balance c tr := by
  refine Run.invariant (I := fun tr _ => 0 ≤ balance c tr) ?_ ?_ h
  · simpa [balance, increments, decrements] using hc
  · intro tr g p e sh l hrun ih hstep
    rw [balance_events]
    have hcounted := (Guarded.counted hc hrun).held p
    generalize g.shared = sh₀, g.loc p = l₀ at hstep hcounted
    cases hstep with
    | own hs =>
      cases hs with
      | decrement =>
        -- The count is positive, so the balance is not 0, whether or not the count has wrapped.
        obtain ⟨hcount, -, -, hpos⟩ := hcounted trivial
        have hne : balance c tr ≠ 0 := by
          intro hzero
          rw [hzero] at hcount
          rw [hcount] at hpos
          exact absurd hpos (by decide)
        simp only [Option.map_some, Option.getD_some, Event.weight]
        omega
      | increment =>
        simp only [Option.map_some, Option.getD_some, Event.weight]
        omega
      | @own _ _ _ e => cases e <;> simpa [Event.weight] using ih
      | _ => simpa [Event.weight] using ih
    | acquire | release => simpa using ih

/-- At no point have more decrements been executed than `c` and the increments
before them allow, also where the count has wrapped. -/
theorem Guarded.decrements_le (hc : 0 ≤ c.toInt) (h : Guarded U c rest place tr g) :
    ∀ a, a <+: tr → (decrements a : Int) ≤ c.toInt + increments a := by
  intro a ha
  obtain ⟨g', h'⟩ := Run.prefix_run h a ha
  have := Guarded.balance_nonneg hc h'
  unfold balance at this
  omega

/-! ## One decrement a call -/

/-- The decrements since the last call of `xsem_down`, `n` of them before. -/
def Event.decrementsAfter (n : Nat) : Event ε → Nat
  | .callDown => 0
  | .decrement => n + 1
  | _ => n

/-- How many decrements `p` has executed since it last called `xsem_down`. -/
def decrementsSince (p : P) (tr : List (P × Event ε)) : Nat :=
  tr.foldl (fun n x => if x.1 = p then x.2.decrementsAfter n else n) 0

theorem decrementsSince_own (p : P) (tr : List (P × Event ε)) (e : Option (Event ε)) :
    decrementsSince p (tr ++ events p e) =
      (e.map (Event.decrementsAfter (decrementsSince p tr))).getD (decrementsSince p tr) := by
  cases e <;> simp [decrementsSince, events]

theorem decrementsSince_other {p q : P} (h : q ≠ p) (tr : List (P × Event ε)) (e : Option (Event ε)) :
    decrementsSince q (tr ++ events p e) = decrementsSince q tr := by
  cases e <;> simp [decrementsSince, events, Ne.symm h]

/-- How many there are at each place of `xsem_down`. -/
def Progress (n : Nat) : Place κ → Prop
  | .downLock _ | .downTest _ | .downLoad _ | .downStore _ _ | .downRelease _ | .downWait _ | .downAsleep _ => n = 0
  | .downUnlock _ | .downReturn _ => n = 1
  | _ => True

theorem Guarded.progress (h : Guarded U c rest place tr g) (p : P) : Progress (decrementsSince p tr) (g.loc p) := by
  refine Run.everyone (I := fun p tr _ l => Progress (decrementsSince p tr) l) ?_ ?_ ?_ h p
  · exact fun _ => trivial
  · intro tr g p e sh l _ ih hstep
    rw [decrementsSince_own]
    generalize g.shared = sh₀, g.loc p = l₀ at hstep ih
    cases hstep with
    | own hs =>
      cases hs with
      | decrement => exact congrArg (· + 1) ih
      | callDown => rfl
      | own | returnDown | callUp | loadUp | increment | futexWake => trivial
      | test | testFails | loadDown | futexWait | futexWaitAgain | futexWaitReturns => exact ih
    | acquire hl =>
      cases hl with
      | down => exact ih
      | up => trivial
    | release hu =>
      cases hu with
      | down | release => exact ih
      | up => trivial
  · intro tr g p q e sh l hq _ ih _
    rwa [decrementsSince_other hq]

omit [DecidableEq P] in
theorem xsemStep_returnDown {p : P} {m m' : Sem P σ} {l l' : Place κ}
    (h : xsemStep U p m l (some .returnDown) m' l') : ∃ k, l = .downReturn k := by
  generalize he : some Event.returnDown = e at h
  cases h with
  | returnDown => exact ⟨_, rfl⟩
  | @own _ _ _ e => cases e <;> cases he
  | _ => cases he

theorem Guarded.returned (h : Guarded U c rest place tr g) :
    ∀ a p b, tr = a ++ (p, .returnDown) :: b → decrementsSince p a = 1 := by
  refine Run.invariant (I := fun tr _ => ∀ a p b, tr = a ++ (p, .returnDown) :: b → decrementsSince p a = 1) ?_ ?_ h
  · intro a p b he
    simp at he
  · intro tr g q e sh l hrun ih hstep a p b he
    rcases List.eq_nil_or_concat b with rfl | ⟨b, x, rfl⟩
    · -- The last event is the return itself.
      cases e with
      | none => exact ih a p [] (by simpa [events] using he)
      | some e =>
        obtain ⟨rfl, hx⟩ : tr = a ∧ ((q, e) : P × Event ε) = (p, .returnDown) := by
          simpa [events] using he
        obtain ⟨rfl, rfl⟩ := Prod.mk.inj hx
        have hp := Guarded.progress hrun q
        generalize g.shared = sh₀, g.loc q = l₀ at hstep hp
        cases hstep with
        | own hs =>
          obtain ⟨k, rfl⟩ := xsemStep_returnDown hs
          exact hp
    · cases e with
      | none => exact ih a p (b ++ [x]) (by simpa [events] using he)
      | some e =>
        refine ih a p b ?_
        simp only [events, Option.map_some, Option.toList_some, List.concat_eq_append] at he
        rw [← List.cons_append, ← List.append_assoc] at he
        exact (List.append_inj' he rfl).1

end Runs

/-! ## Sections between the two calls -/

def Place.home : Place κ → κ
  | .user k | .downLock k | .downTest k | .downLoad k | .downStore _ k | .downUnlock k | .downReturn k
  | .downRelease k | .downWait k | .downAsleep k | .upLock k | .upLoad k | .upStore _ k | .upUnlock k
  | .upWake k => k

def Event.toUser : Event ε → Option ε
  | .user e => some e
  | _ => none

/-- A user that calls `xsem_down`, runs a section and calls `xsem_up`. -/
def sections (C : Client P σ κ ε) : User P σ κ ε := ⟨C.step, C.lock, C.unlock⟩

section Sections

variable [DecidableEq P] {C : Client P σ κ ε} {g : State P (Bool × Sem P σ) (Place κ)}

/-- Those that have a unit of the semaphore: from their decrement to their
increment, with their section in between. -/
def Holders (C : Client P σ κ ε) (loc : P → Place κ) : Set P := {p | C.inside (loc p).home}

/-- The units are in the count or with a holder. -/
structure Units (C : Client P σ κ ε) (c : BitVec 32) (count : BitVec 32) (loc : P → Place κ) : Prop where
  sum : count.toInt + (Holders C loc).ncard = c.toInt
  nonneg : 0 ≤ count.toInt

theorem Units.stay {count : BitVec 32} {loc : P → Place κ} {p : P} {l : Place κ} (h : Units C c count loc)
    (hl : C.inside l.home ↔ C.inside (loc p).home) : Units C c count (Function.update loc p l) := by
  have hsame : Holders C (Function.update loc p l) = Holders C loc := by
    ext q
    by_cases hq : q = p
    · subst hq; simpa [Holders] using hl
    · simp [Holders, hq]
  exact ⟨hsame ▸ h.sum, h.nonneg⟩

theorem Units.take [Finite P] {count : BitVec 32} {loc : P → Place κ} {p : P} {l : Place κ} (h : Units C c count loc)
    (hpos : 0 < count.toInt) (hp : ¬ C.inside (loc p).home) (hl : C.inside l.home) :
    Units C c (count - 1) (Function.update loc p l) := by
  have hmore : Holders C (Function.update loc p l) = insert p (Holders C loc) := by
    ext q
    by_cases hq : q = p
    · subst hq; simpa [Holders] using hl
    · simp [Holders, hq]
  have hcard := Set.ncard_insert_of_notMem (show p ∉ Holders C loc from hp)
  have hsub := toInt_sub_one (v := count) (by unfold intMax; omega)
  have hsum := h.sum
  exact ⟨by rw [hmore, hcard, hsub]; omega, by omega⟩

theorem Units.give [Finite P] {count : BitVec 32} {loc : P → Place κ} {p : P} {l : Place κ} (h : Units C c count loc)
    (hp : C.inside (loc p).home) (hl : ¬ C.inside l.home) :
    Units C c (count + 1) (Function.update loc p l) := by
  have hless : Holders C loc = insert p (Holders C (Function.update loc p l)) := by
    ext q
    by_cases hq : q = p
    · subst hq; simpa [Holders] using hp
    · simp [Holders, hq]
  have hnot : p ∉ Holders C (Function.update loc p l) := by simpa [Holders] using hl
  have hcard := Set.ncard_insert_of_notMem hnot
  have hsum := h.sum
  have hc := (isInt_toInt c).2
  rw [hless, hcard] at hsum
  have hadd := toInt_add_one (v := count) (by omega)
  exact ⟨by rw [hadd]; omega, by have := h.nonneg; omega⟩

/-- **Units are neither lost nor made**, over every run of users with
sections. -/
theorem Guarded.units [Finite P] (hc : 0 ≤ c.toInt) (hplace : ∀ p, ¬ C.inside (place p))
    (h : Guarded (sections C) c rest place tr g) : Units C c g.shared.2.count g.loc := by
  refine Run.invariant (I := fun _ g => Units C c g.shared.2.count g.loc) ?_ ?_ h
  · have hnone : Holders C (fun p => Place.user (place p)) = ∅ := by
      ext p
      simpa [Holders, Place.home] using hplace p
    exact ⟨by rw [hnone, Set.ncard_empty]; simp, hc⟩
  · intro tr g p e sh l hrun ih hstep
    have hloaded := fun hp => ((Guarded.counted hc hrun).held p hp).loaded
    have hstay := @Units.stay P σ κ ε c _ C g.shared.2.count g.loc p
    generalize hl₀ : g.loc p = l₀ at hstep hloaded hstay
    generalize g.shared = sh₀ at hstep hloaded hstay ih
    cases hstep with
    | own hs =>
      cases hs with
      | own hs => exact hstay ih (C.step_inside hs).symm
      | decrement hd =>
        obtain ⟨rfl, hpos⟩ := hloaded trivial
        obtain ⟨hout, hin⟩ := C.lock_inside hd
        exact ih.take hpos (by rwa [hl₀]) hin
      | increment hu =>
        obtain rfl := hloaded trivial
        obtain ⟨hin, hout⟩ := C.unlock_inside hu
        exact ih.give (by rwa [hl₀]) hout
      | _ => exact hstay ih Iff.rfl
    | acquire hl => cases hl <;> exact hstay ih Iff.rfl
    | release hu => cases hu <;> exact hstay ih Iff.rfl

/-- **With one unit the semaphore is a lock**: its users' runs are runs over an
atomic lock, taken at the decrement and given back at the increment. -/
theorem Guarded.refines_guarded [Finite P] (hplace : ∀ p, ¬ C.inside (place p))
    (h : Guarded (sections C) 1 rest place tr g) :
    Run C.guarded ⟨(false, rest), place⟩ (rename Event.toUser tr)
      ⟨(decide (g.shared.2.count = 0), g.shared.2.rest), fun p => (g.loc p).home⟩ := by
  refine Run.simulate (fun sh => (decide (sh.2.count = 0), sh.2.rest)) Place.home _ ?_ h
  intro tr g p e sh l hrun hstep
  have hunits := Guarded.units (by decide) hplace hrun
  have hloaded := fun hp => ((Guarded.counted (by decide) hrun).held p hp).loaded
  generalize hl₀ : g.loc p = l₀ at hstep hloaded ⊢
  generalize g.shared = sh₀ at hstep hloaded hunits ⊢
  obtain ⟨held, m⟩ := sh₀
  have hsum : m.count.toInt + _ = _ := hunits.sum
  have hnonneg : 0 ≤ m.count.toInt := hunits.nonneg
  have hone : (1 : BitVec 32).toInt = 1 := by decide
  cases hstep with
  | own hs =>
    cases hs with
    | @own _ _ _ e r k' hs =>
      have he : (e.map Event.user).bind Event.toUser = e := by cases e <;> rfl
      rw [he]
      exact .inr (.own hs)
    | decrement hd =>
      obtain ⟨rfl, hpos⟩ : _ ∧ 0 < m.count.toInt := hloaded trivial
      have hcount : m.count = 1 := BitVec.eq_of_toInt_eq (by omega)
      right
      simp only [hcount]
      exact .acquire hd
    | increment hu =>
      obtain rfl := hloaded trivial
      -- The holder has the one unit, so the count is 0.
      have hmem : p ∈ Holders C g.loc := by
        simpa [Holders, hl₀, Place.home] using (C.unlock_inside hu).1
      have hpos : 0 < (Holders C g.loc).ncard := (Set.ncard_pos (Set.toFinite _)).2 ⟨p, hmem⟩
      have hzero : (0 : BitVec 32).toInt = 0 := by decide
      have hcount : m.count = 0 := BitVec.eq_of_toInt_eq (by omega)
      right
      simp only [hcount]
      exact .release hu
    | _ => exact .inl ⟨rfl, rfl, rfl⟩
  | acquire hl => cases hl <;> exact .inl ⟨rfl, rfl, rfl⟩
  | release hu => cases hu <;> exact .inl ⟨rfl, rfl, rfl⟩

end Sections

/-! ## Wake-ups -/

/-- In `xsem_down`, before the decrement. -/
def Place.before : Place κ → Prop
  | .downLock _ | .downTest _ | .downLoad _ | .downStore _ _ | .downRelease _ | .downWait _ | .downAsleep _ => True
  | _ => False

/-- In `xsem_up`, between the increment and `FUTEX_WAKE`. -/
def Place.pending : Place κ → Prop
  | .upUnlock _ | .upWake _ => True
  | _ => False

/-- Those that will see to a positive count: they have yet to wake, or to test
it again. -/
def Helps (queue : Set P) (loc : P → Place κ) : Set P := {p | (loc p).pending ∨ (loc p).before ∧ p ∉ queue}

/-- The queue holds sleepers only, and as long as there are any the count is
not more than those that help. -/
structure Attentive (m : Sem P σ) (loc : P → Place κ) : Prop where
  asleep : ∀ p ∈ m.queue, ∃ k, loc p = .downAsleep k
  enough : m.queue.Nonempty → m.count.toInt ≤ (Helps m.queue loc).ncard

section Wakes

variable [DecidableEq P] {m m' : Sem P σ} {loc : P → Place κ} {p : P} {l : Place κ}

omit [DecidableEq P] in
theorem Attentive.notMem (h : Attentive m loc) (hp : ∀ k, loc p ≠ .downAsleep k) : p ∉ m.queue := fun hq => by
  obtain ⟨k, hk⟩ := h.asleep p hq
  exact hp k hk

theorem Attentive.asleep_move (h : Attentive m loc) (hsub : m'.queue ⊆ m.queue) (hp : p ∉ m'.queue) :
    ∀ q ∈ m'.queue, ∃ k, Function.update loc p l q = .downAsleep k :=
  members_leave (A := fun l : Place κ => ∃ k, l = .downAsleep k) h.asleep hsub hp

omit [DecidableEq P] in
/-- No fewer help, and the count is no more. -/
theorem Attentive.mono [Finite P] {loc' : P → Place κ} (h : Attentive m loc) (hsub : m'.queue ⊆ m.queue)
    (hcount : m'.count = m.count) (hhelps : Helps m.queue loc ⊆ Helps m'.queue loc') :
    m'.queue.Nonempty → m'.count.toInt ≤ (Helps m'.queue loc').ncard := by
  intro hne
  have hle := h.enough (hne.mono hsub)
  have hcard := Set.ncard_le_ncard hhelps
  rw [hcount]
  omega

theorem Attentive.stay [Finite P] (h : Attentive m loc) (hqueue : m'.queue = m.queue) (hcount : m'.count = m.count)
    (hp : p ∉ m.queue) (hl : (loc p).pending ∨ (loc p).before → l.pending ∨ l.before) :
    Attentive m' (Function.update loc p l) := by
  refine ⟨h.asleep_move hqueue.subset (hqueue ▸ hp), h.mono hqueue.subset hcount fun q hq => ?_⟩
  rw [hqueue]
  by_cases hqp : q = p
  · subst hqp
    have hhelp := hl (hq.imp_right And.left)
    simpa [Helps, hp] using hhelp
  · simpa [Helps, hqp] using hq

/-- A decrement: one less, and one that helped is gone. -/
theorem Attentive.decrement [Finite P] (h : Attentive m loc) (hp : p ∉ m.queue) (hbefore : (loc p).before)
    (hpos : 0 < m.count.toInt) (hl : ¬ (l.pending ∨ l.before)) :
    Attentive { m with count := m.count - 1 } (Function.update loc p l) := by
  refine ⟨h.asleep_move subset_rfl hp, fun hne => ?_⟩
  have hhelps : Helps m.queue loc = insert p (Helps m.queue (Function.update loc p l)) := by
    ext q
    by_cases hqp : q = p
    · subst hqp; simp [Helps, hbefore, hp]
    · simp [Helps, hqp]
  have hnot : p ∉ Helps m.queue (Function.update loc p l) := by
    intro hor
    obtain (hx | ⟨hx, -⟩) := hor
    · exact hl (.inl (by simpa using hx))
    · exact hl (.inr (by simpa using hx))
  have hcard := Set.ncard_insert_of_notMem hnot
  have hle := h.enough hne
  have hsub := toInt_sub_one (v := m.count) (by unfold intMax; omega)
  rw [hhelps, hcard] at hle
  simp only [hsub]
  omega

/-- An increment: one more, and one that helps. Past `INT_MAX` the count only
gets smaller. -/
theorem Attentive.increment [Finite P] (h : Attentive m loc) (hp : p ∉ m.queue)
    (hbefore : ¬ ((loc p).pending ∨ (loc p).before)) (hl : l.pending) :
    Attentive { m with count := m.count + 1 } (Function.update loc p l) := by
  refine ⟨h.asleep_move subset_rfl hp, fun hne => ?_⟩
  have hhelps : Helps m.queue (Function.update loc p l) = insert p (Helps m.queue loc) := by
    ext q
    by_cases hqp : q = p
    · subst hqp; simp [Helps, hl]
    · simp [Helps, hqp]
  have hnot : p ∉ Helps m.queue loc := fun hx => hbefore (hx.imp_right And.left)
  have hcard := Set.ncard_insert_of_notMem hnot
  have hle := h.enough hne
  have hint := isInt_toInt m.count
  have hadd : (m.count + 1).toInt ≤ m.count.toInt + 1 := by
    by_cases hmax : m.count.toInt < intMax
    · exact (toInt_add_one hmax).le
    · have := (isInt_toInt (m.count + 1)).2
      omega
  simp only [hhelps, hcard]
  omega

/-- A process falls asleep: it may, for the count is 0. -/
theorem Attentive.sleep (h : Attentive m loc) (hzero : m.count = 0) (hl : ∃ k, l = .downAsleep k) :
    Attentive { m with queue := insert p m.queue } (Function.update loc p l) := by
  refine ⟨members_join (A := fun l : Place κ => ∃ k, l = .downAsleep k) h.asleep hl, fun _ => ?_⟩
  simp [hzero]

/-- A sleeper is let go, and helps. -/
theorem Attentive.return [Finite P] (h : Attentive m loc) (hl : l.before) :
    Attentive { m with queue := m.queue \ {p} } (Function.update loc p l) := by
  have hsub : m.queue \ {p} ⊆ m.queue := fun q hq => hq.1
  refine ⟨h.asleep_move hsub fun hq => hq.2 rfl, h.mono hsub rfl fun q hq => ?_⟩
  by_cases hqp : q = p
  · subst hqp
    exact .inr ⟨by simpa using hl, fun hq => hq.2 rfl⟩
  · have hq' : (loc q).pending ∨ (loc q).before ∧ q ∉ m.queue := hq
    simpa [Helps, hqp] using hq'

/-- A wake: the waker helps no more, but one it has let go does. -/
theorem Attentive.wake [Finite P] {queue : Set P} (h : Attentive m loc) (hp : p ∉ m.queue)
    (hwakes : FutexWakes m.queue queue) : Attentive { m with queue } (Function.update loc p l) := by
  have hsub := hwakes.1
  refine ⟨h.asleep_move hsub fun hq => hp (hsub hq), fun hne => ?_⟩
  obtain ⟨q, hq, hout⟩ := hwakes.exists_woken hne
  obtain ⟨k, hk⟩ := h.asleep q hq
  have hqp : q ≠ p := fun he => hp (he ▸ hq)
  have hnot : q ∉ Helps m.queue loc \ {p} := by
    intro hmem
    obtain ⟨hx | ⟨-, hx⟩, -⟩ := hmem
    · rw [hk] at hx; exact hx
    · exact hx hq
  have hmore : insert q (Helps m.queue loc \ {p}) ⊆ Helps queue (Function.update loc p l) := by
    intro r h
    rcases h with rfl | ⟨hr, hrp⟩
    · refine .inr ⟨?_, hout⟩
      rw [Function.update_of_ne hqp, hk]
      trivial
    · refine (hr.imp ?_ ?_)
      · rw [Function.update_of_ne hrp]; exact id
      · rw [Function.update_of_ne hrp]; exact And.imp_right fun hx hy => hx (hsub hy)
  have hle := h.enough (hne.mono hsub)
  have hcard := Set.ncard_le_ncard hmore
  rw [Set.ncard_insert_of_notMem hnot] at hcard
  have hdiff := Set.ncard_le_ncard_sdiff_add_ncard (Helps m.queue loc) {p}
  rw [Set.ncard_singleton] at hdiff
  simp only
  omega

theorem Attentive.step [Finite P] {g : State P (Bool × Sem P σ) (Place κ)} {e : Option (Event ε)} {sh : Bool × Sem P σ}
    (h : Attentive g.shared.2 g.loc) (hloaded : (g.loc p).inside → Loaded g.shared.2.count (some (g.loc p)))
    (hstep : (xsem U).guarded p g.shared (g.loc p) e sh l) : Attentive sh.2 (g.move p sh l).loc := by
  have hnot := h.notMem (p := p)
  have hstay := @Attentive.stay P σ κ _ g.shared.2 sh.2 g.loc p l
  unfold State.move
  generalize hl₀ : g.loc p = l₀ at hstep hloaded hstay hnot
  generalize g.shared = sh₀ at hstep hloaded hstay hnot h
  cases hstep with
  | own hs =>
    cases hs with
    | own | callDown | test | testFails | loadDown | returnDown | futexWaitAgain | callUp | loadUp =>
      exact hstay h rfl rfl (hnot nofun) (by simp [Place.before, Place.pending])
    | decrement =>
      obtain ⟨rfl, hpos⟩ := hloaded trivial
      exact h.decrement (hnot nofun) (by rw [hl₀]; trivial) hpos (by simp [Place.before, Place.pending])
    | increment =>
      obtain rfl := hloaded trivial
      exact h.increment (hnot nofun) (by rw [hl₀]; simp [Place.before, Place.pending]) trivial
    | futexWait hzero => exact h.sleep hzero ⟨_, rfl⟩
    | futexWaitReturns => exact h.return trivial
    | futexWake hwakes => exact h.wake (hnot nofun) hwakes
  | acquire hl =>
    cases hl <;> exact hstay h rfl rfl (hnot nofun) (by simp [Place.before, Place.pending])
  | release hu =>
    cases hu <;> exact hstay h rfl rfl (hnot nofun) (by simp [Place.before, Place.pending])

/-- **The count is attended to**, over every run. -/
theorem Guarded.attentive [Finite P] (hc : 0 ≤ c.toInt) {g : State P (Bool × Sem P σ) (Place κ)}
    (h : Guarded U c rest place tr g) : Attentive g.shared.2 g.loc := by
  refine Run.invariant (I := fun _ g => Attentive g.shared.2 g.loc) ?_ ?_ h
  · exact ⟨fun p hp => absurd hp (Set.notMem_empty p), fun hne => absurd hne Set.not_nonempty_empty⟩
  · intro tr g p e sh l hrun ih hstep
    exact ih.step (fun hp => ((Guarded.counted hc hrun).held p hp).loaded) hstep

variable {s : State P (Shared P (Sem P σ)) (Local (Place κ))}

/-- Asleep in `xsem_down`'s futex wait. -/
def AsleepInDown (s : State P (Shared P (Sem P σ)) (Local (Place κ))) (p : P) : Prop :=
  (∃ k, (s.loc p).place = .downAsleep k) ∧ p ∈ s.shared.rest.queue

/-- **No wake-up is lost.** In no state of any run is the count positive and a
process asleep in `xsem_down` while no `xsem_up` is between its increment and
its wake and all that are in `xsem_down` before their decrement are asleep
there. Those that are asleep for `sem_lock` instead are not forgotten
either: it is held, or an unlocker has yet to wake, or a process is awake in
`xlock_lock`. -/
theorem xsem_wakes [Finite P] (hc : 0 ≤ c.toInt) (h : Runs U c rest place tr s) :
    ¬ (0 < s.shared.rest.count.toInt ∧ (∃ p, AsleepInDown s p) ∧ (∀ p, ¬ (s.loc p).place.pending) ∧
        ∀ p, (s.loc p).place.before → AsleepInDown s p) ∧
      ((∃ p, Asleep s p) → Attended s) := by
  constructor
  · intro hstuck
    obtain ⟨hpos, ⟨p, -, hp⟩, hpending, hbefore⟩ := hstuck
    have hle := (h.guarded.attentive hc).enough ⟨p, hp⟩
    have hnone : Helps s.shared.rest.queue (fun p => (s.loc p).place) = ∅ := by
      ext q
      simp only [Helps, Set.mem_ofPred_eq, Set.mem_empty_iff_false, iff_false, not_or, not_and, not_not]
      exact ⟨hpending q, fun hq => (hbefore q hq).2⟩
    have hle' : s.shared.rest.count.toInt ≤ (Helps s.shared.rest.queue fun p => (s.loc p).place).ncard := hle
    rw [hnone, Set.ncard_empty] at hle'
    omega
  · intro hasleep
    obtain ⟨p, -, hp⟩ := hasleep
    exact (xlock_noneForgotten h).attended ⟨p, hp⟩

end Wakes

/-! ## A user that calls as it likes -/

/-- Any sequence of calls. -/
def anyCalls : User P Unit Unit Empty := ⟨fun _ _ _ _ _ _ => False, fun _ _ => True, fun _ _ => True⟩

section Walks

theorem anyCalls_mayDown : (anyCalls : User P Unit Unit Empty).down () () := trivial

theorem anyCalls_mayUp : (anyCalls : User P Unit Unit Empty).up () () := trivial

theorem futexWakes_empty : FutexWakes (∅ : Set P) ∅ := ⟨subset_rfl, fun h => absurd h Set.not_nonempty_empty⟩

variable (p : P)

theorem anyCalls_sleeps (queue : Set P) :
    Walks (xlock (xsem anyCalls)) p (⟨0, ∅, ⟨0, queue, ()⟩⟩, ⟨.user (), .out⟩)
      (⟨0, ∅, ⟨0, insert p queue, ()⟩⟩, ⟨.downAsleep (), .out⟩) := by
  refine Walks.step (.own (.callDown anyCalls_mayDown)) ?_
  refine Walks.step (.callLock .down) ?_
  refine Walks.step (.rawLockIt rfl .down) ?_
  refine Walks.step (.own (.testFails (show ¬ 0 < (0 : BitVec 32).toInt by decide))) ?_
  refine Walks.step (.callUnlock .release) ?_
  refine Walks.step (.rawUnlockIt rfl .release) ?_
  refine Walks.step (.futexWake futexWakes_empty) ?_
  exact Walks.step (.own (.futexWait rfl)) .refl

theorem anyCalls_upHolds (m : Sem P Unit) :
    Path (xlock (xsem anyCalls)) p [] (⟨0, ∅, m⟩, ⟨.user (), .out⟩) (⟨1, ∅, m⟩, ⟨.upLoad (), .out⟩) := by
  refine Path.quiet (.own (.callUp anyCalls_mayUp)) ?_
  refine Path.quiet (.callLock .up) ?_
  exact Path.quiet (.rawLockIt rfl .up) .refl

theorem anyCalls_increments (m : Sem P Unit) :
    Path (xlock (xsem anyCalls)) p [(p, .increment)] (⟨0, ∅, m⟩, ⟨.user (), .out⟩)
      (⟨1, ∅, { m with count := m.count + 1 }⟩, ⟨.upUnlock (), .out⟩) := by
  refine (anyCalls_upHolds p m).trans ?_
  refine Path.quiet (.own .loadUp) ?_
  exact Path.event (.own (.increment anyCalls_mayUp)) .refl

theorem anyCalls_up {m : Sem P Unit} {queue : Set P} (hwakes : FutexWakes m.queue queue) :
    Walks (xlock (xsem anyCalls)) p (⟨0, ∅, m⟩, ⟨.user (), .out⟩)
      (⟨0, ∅, ⟨m.count + 1, queue, m.rest⟩⟩, ⟨.user (), .out⟩) := by
  refine Walks.trans ⟨_, anyCalls_increments p m⟩ ?_
  refine Walks.step (.callUnlock .up) ?_
  refine Walks.step (.rawUnlockIt rfl .up) ?_
  refine Walks.step (.futexWake futexWakes_empty) ?_
  exact Walks.step (.own (.futexWake hwakes)) .refl

/-- A process let go from its sleep on the count finds the lock held, and
sleeps there. -/
theorem anyCalls_resleeps (m : Sem P Unit) :
    Walks (xlock (xsem anyCalls)) p (⟨1, ∅, m⟩, ⟨.downAsleep (), .out⟩)
      (⟨1, insert p ∅, { m with queue := m.queue \ {p} }⟩, ⟨.downLock (), .lockAsleep⟩) := by
  refine Walks.step (.own .futexWaitReturns) ?_
  refine Walks.step (.callLock .down) ?_
  refine Walks.step (.rawLockItFails (show (1 : Int) ≠ 0 by decide)) ?_
  exact Walks.step (.futexWait rfl) .refl

end Walks

theorem xsem_wakes_sample :
    ∃ tr s, Runs (P := Fin 2) anyCalls 0 () (fun _ => ()) tr s ∧ s.shared.rest.count.toInt = 1 ∧
      (∃ p, AsleepInDown s p) ∧
      ¬ ((∀ p, ¬ (s.loc p).place.pending) ∧ ∀ p, (s.loc p).place.before → AsleepInDown s p) := by
  have h : Run (xlock (xsem anyCalls)) (created 0 () fun _ : Fin 2 => ()) [] (created 0 () fun _ => ()) := .nil
  obtain ⟨_, h⟩ := h.walk (anyCalls_sleeps (0 : Fin 2) ∅)
  have h := h.path (anyCalls_increments (1 : Fin 2) _)
  refine ⟨_, _, h, rfl, ⟨0, ⟨(), rfl⟩, Set.mem_insert 0 ∅⟩, fun hno => ?_⟩
  exact (xsem_wakes (by decide) h).1 ⟨Int.one_pos, ⟨0, ⟨(), rfl⟩, Set.mem_insert 0 ∅⟩, hno.1, hno.2⟩

/-- Two processes sleep on a count of 0, an `xsem_up` lets one of them go, and
that one finds `sem_lock` held by a second `xsem_up` and sleeps there: the
count is 1, the other still sleeps on it, and no process is awake in
`xsem_down` before its decrement. -/
theorem xsem_awake_contender :
    ∃ tr s, Runs (P := Fin 4) anyCalls 0 () (fun _ => ()) tr s ∧ 0 < s.shared.rest.count.toInt ∧
      (∃ p, AsleepInDown s p) ∧ (∀ p, ¬ (s.loc p).place.pending) ∧
      ∀ p, (s.loc p).place.before → AsleepInDown s p ∨ Asleep s p := by
  have h : Run (xlock (xsem anyCalls)) (created 0 () fun _ : Fin 4 => ()) [] (created 0 () fun _ => ()) := .nil
  obtain ⟨_, h⟩ := h.walk (anyCalls_sleeps (0 : Fin 4) ∅)
  obtain ⟨_, h⟩ := h.walk (anyCalls_sleeps (1 : Fin 4) _)
  have hwakes : FutexWakes (insert 1 (insert 0 ∅) : Set (Fin 4)) (insert 0 ∅) := by
    refine ⟨Set.subset_insert 1 _, fun _ he => ?_⟩
    have h1 : (1 : Fin 4) ∈ (insert 0 ∅ : Set (Fin 4)) := he ▸ Set.mem_insert 1 _
    simp at h1
  obtain ⟨_, h⟩ := h.walk (anyCalls_up (2 : Fin 4) hwakes)
  have h := h.path (anyCalls_upHolds (3 : Fin 4) _)
  obtain ⟨tr, h⟩ := h.walk (anyCalls_resleeps (1 : Fin 4) _)
  refine ⟨tr, _, h, Int.one_pos, ⟨0, ⟨(), rfl⟩, Set.mem_insert 0 ∅, nofun⟩, fun p => ?_, fun p hp => ?_⟩
  · match p with
    | 0 | 1 | 2 | 3 => exact id
  · match p, hp with
    | 0, _ => exact .inl ⟨⟨(), rfl⟩, Set.mem_insert 0 ∅, nofun⟩
    | 1, _ => exact .inr ⟨rfl, Set.mem_insert 1 ∅⟩
    | 2, hp | 3, hp => exact absurd hp id

end SugarNSpice.Xsem
