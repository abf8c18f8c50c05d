/-
Every wake is needed.

On `thread_done` each of the threads and `main` waits once, and each of them
has to wake one sleeper to get on. So there are as many waits as wakes to be
made, and none to spare (`ledger`): a wait that ends by itself, or a sleeper
`main` wakes besides, leaves some thread without one to wake, calling
`FUTEX_WAKE` forever. In a run without either, one thread at a time is awake,
and no addition to `thread_done` is lost.
-/
import SugarNSpice.TestMmap3
import SugarNSpice.RunLength
import Mathlib.Data.Fintype.Option
import Mathlib.Algebra.BigOperators.Fin

namespace SugarNSpice.TestMmap3

open Processes

variable {n : Nat}

/-- Whether a process has called `FUTEX_WAIT` on `thread_done`. -/
def Pc.waited : Pc → Nat
  | .thread .asleep | .thread .incLoad | .thread (.incStore _) | .thread .wake | .thread .returned => 1
  | .main .lastAsleep | .main .ended => 1
  | _ => 0

/-- Whether it has woken the sleeper it has to wake. -/
def Pc.hasWoken : Pc → Nat
  | .thread .returned => 1
  | .main .poll | .main .lastWake | .main .lastLoad | .main (.lastWait _) | .main .lastAsleep | .main .ended => 1
  | _ => 0

/-- In `FUTEX_WAIT` on `thread_done`. -/
def Pc.Asleep : Pc → Prop
  | .thread .asleep | .main .lastAsleep => True
  | _ => False

/-- One step: a call of `FUTEX_WAIT` puts a process into the queue, and one
that leaves it again was woken by another, or by none. -/
theorem ledger_step {p : Option (Fin n)} {sh sh' : Shared n} {l l' : Pc} {e : Option Event} (h : program p sh l e sh' l')
    (hp : p ∈ sh.doneQueue → l.Asleep) :
    sh'.doneQueue.card + l'.hasWoken + (events p e).length + l.waited = sh.doneQueue.card + l.hasWoken + l'.waited := by
  cases h with
  | main h =>
    cases h with
    | incLoad => rfl
    | incStore => rfl
    | setStart => rfl
    | wakeStartNone => split <;> rfl
    | wakeStart => split <;> rfl
    | wakeDoneNone => rfl
    | wakeDone hq => simp [Pc.hasWoken, Pc.waited, events, Finset.card_erase_add_one hq]
    | pollAgain => rfl
    | poll => rfl
    | lastWakeNone => rfl
    | lastWake hq => simp [Pc.hasWoken, Pc.waited, events, ← Finset.card_erase_add_one hq]
    | lastLoad => rfl
    | lastWait => simp [Pc.hasWoken, Pc.waited, events, Finset.card_insert_of_notMem hp]
    | lastWaitAgain => rfl
    | lastInterrupted hq => simp [Pc.hasWoken, Pc.waited, events, ← Finset.card_erase_add_one hq]
    | lastWoken => rfl
  | thread h =>
    cases h with
    | startAgain => rfl
    | startWait => rfl
    | startInterrupted => rfl
    | startWoken => rfl
    | load => rfl
    | wait => simp [Pc.hasWoken, Pc.waited, events, Finset.card_insert_of_notMem hp]
    | waitAgain => rfl
    | interrupted hq => simp [Pc.hasWoken, Pc.waited, events, Finset.card_erase_add_one hq]
    | woken => rfl
    | incLoad => rfl
    | incStore => rfl
    | wakeNone => rfl
    | wake hq => simp [Pc.hasWoken, Pc.waited, events, Finset.card_erase_add_one hq]

theorem mem_doneQueue_of_step {p q : Option (Fin n)} {sh sh' : Shared n} {l l' : Pc} {e : Option Event} (hqp : q ≠ p)
    (h : program p sh l e sh' l') (hq : q ∈ sh'.doneQueue) : q ∈ sh.doneQueue := by
  cases h with
  | main h =>
    cases h with
    | wakeDone => exact Finset.mem_of_mem_erase hq
    | lastWake => exact Finset.mem_of_mem_erase hq
    | lastWait => exact Finset.mem_of_mem_insert_of_ne hq hqp
    | lastInterrupted => exact Finset.mem_of_mem_erase hq
    | _ => exact hq
  | thread h =>
    cases h with
    | wait => exact Finset.mem_of_mem_insert_of_ne hq hqp
    | interrupted => exact Finset.mem_of_mem_erase hq
    | wake => exact Finset.mem_of_mem_erase hq
    | _ => exact hq

theorem asleep_of_step {p : Option (Fin n)} {sh sh' : Shared n} {l l' : Pc} {e : Option Event}
    (h : program p sh l e sh' l') (hl : p ∈ sh.doneQueue → l.Asleep) (hp : p ∈ sh'.doneQueue) : l'.Asleep := by
  cases h with
  | main h =>
    cases h with
    | wakeDone => exact hl (Finset.mem_of_mem_erase hp)
    | lastWake => exact hl (Finset.mem_of_mem_erase hp)
    | lastWait => trivial
    | lastInterrupted => exact absurd hp (Finset.notMem_erase _ _)
    | lastWoken hnot => exact absurd hp hnot
    | _ => exact (hl hp).elim
  | thread h =>
    cases h with
    | wait => trivial
    | interrupted => exact absurd hp (Finset.notMem_erase _ _)
    | woken hnot => exact absurd hp hnot
    | wake => exact hl (Finset.mem_of_mem_erase hp)
    | _ => exact (hl hp).elim

variable {tr : List (Option (Fin n) × Event)} {s : State (Option (Fin n)) (Shared n) Pc}

theorem Runs.asleep (h : Runs n tr s) (p : Option (Fin n)) : p ∈ s.shared.doneQueue → (s.loc p).Asleep := by
  refine Run.everyone (I := fun p _ sh l => p ∈ sh.doneQueue → l.Asleep) ?_ ?_ ?_ h p
  · exact fun p hp => absurd hp (Finset.notMem_empty p)
  · exact fun tr s p e sh l _ ih hstep => asleep_of_step hstep ih
  · exact fun tr s p q e sh l hqp _ ih hstep hq => ih (mem_doneQueue_of_step hqp hstep hq)

/-- **The ledger of `thread_done`.** Whoever has waited is asleep, or was woken
by one that had to wake, or is a stray. -/
theorem Runs.ledger (h : Runs n tr s) :
    total Pc.waited s = s.shared.doneQueue.card + total Pc.hasWoken s + tr.length := by
  refine Run.invariant (I := fun tr s => total Pc.waited s = s.shared.doneQueue.card + total Pc.hasWoken s + tr.length)
    ?_ ?_ h
  · simp [total, start, Pc.waited, Pc.hasWoken]
  · intro tr s p e sh l hrun ih hstep
    have hone := ledger_step hstep (Runs.asleep hrun p)
    have hwaited := total_move Pc.waited s p sh l
    have hwoken := total_move Pc.hasWoken s p sh l
    rw [State.move_shared, List.length_append]
    omega

theorem Pc.waited_le (l : Pc) : l.waited ≤ 1 := by
  rcases l with m | k
  · cases m <;> simp [waited]
  · cases k <;> simp [waited]

theorem Runs.calm (h : Runs n tr s) (hf : Finished s) : tr = [] := by
  have hwoken : ∀ p, (s.loc p).hasWoken = 1 := by
    intro p
    rcases p with _ | t
    · rw [hf.1]
      rfl
    · rw [hf.2 t]
      rfl
  have hle : total Pc.waited s ≤ total Pc.hasWoken s :=
    Finset.sum_le_sum fun p _ => (hwoken p).symm ▸ Pc.waited_le _
  have hledger := h.ledger
  exact List.eq_nil_of_length_eq_zero (by omega)

/-! ## One thread at a time -/

/-- The code a process runs. -/
def Pc.Of (p : Option (Fin n)) (l : Pc) : Prop := p.elim (∃ m, l = .main m) fun _ => ∃ k, l = .thread k

theorem Runs.kind (h : Runs n tr s) : (∃ m, s.loc none = .main m) ∧ ∀ t, ∃ k, s.loc (some t) = .thread k := by
  have hkind : ∀ p, (s.loc p).Of p := by
    refine Run.everyone (I := fun p _ _ l => l.Of p) ?_ ?_ ?_ h
    · intro p
      rcases p with _ | t
      · exact ⟨_, rfl⟩
      · exact ⟨_, rfl⟩
    · intro tr s p e sh l _ _ hstep
      generalize s.loc p = l₀ at hstep
      cases hstep with
      | main => exact ⟨_, rfl⟩
      | thread => exact ⟨_, rfl⟩
    · exact fun tr s p q e sh l _ _ ih _ => ih
  exact ⟨hkind none, fun t => hkind (some t)⟩

/-- Between its wait on `thread_done` and its wake. -/
def Pc.Counting : Pc → Prop
  | .thread .incLoad | .thread (.incStore _) | .thread .wake => True
  | _ => False

/-- In the queue, or done with its wake. -/
def settled (s : State (Option (Fin n)) (Shared n) Pc) (p : Option (Fin n)) : Nat :=
  (if p ∈ s.shared.doneQueue then 1 else 0) + (s.loc p).hasWoken

theorem Runs.settled_le (h : Runs n tr s) (t : Fin n) : settled s (some t) ≤ (s.loc (some t)).waited := by
  obtain ⟨k, hk⟩ := h.kind.2 t
  have hasleep := h.asleep (some t)
  rw [hk] at hasleep
  rw [settled, hk]
  split
  · next hq =>
    have := hasleep hq
    cases k <;> simp [Pc.Asleep] at this
    rfl
  · cases k <;> simp [Pc.hasWoken, Pc.waited]

theorem Runs.settled_lt (h : Runs n tr s) {t : Fin n} (ht : (s.loc (some t)).Counting) :
    settled s (some t) + 1 ≤ (s.loc (some t)).waited := by
  obtain ⟨k, hk⟩ := h.kind.2 t
  have hasleep := h.asleep (some t)
  rw [hk] at hasleep ht
  rw [settled, hk]
  split
  · next hq =>
    have := hasleep hq
    cases k <;> simp [Pc.Asleep] at this
    exact ht.elim
  · cases k <;> simp [Pc.Counting] at ht <;> simp [Pc.hasWoken, Pc.waited]

theorem Runs.settled_main (h : Runs n tr s) : settled s none ≤ (s.loc none).waited + 1 := by
  obtain ⟨m, hm⟩ := h.kind.1
  have hasleep := h.asleep none
  rw [hm] at hasleep
  rw [settled, hm]
  split
  · next hq =>
    have := hasleep hq
    cases m <;> simp [Pc.Asleep] at this
    rfl
  · cases m <;> simp [Pc.hasWoken]

theorem sum_settled (s : State (Option (Fin n)) (Shared n) Pc) :
    ∑ p, settled s p = s.shared.doneQueue.card + total Pc.hasWoken s := by
  simp [settled, total, Finset.sum_add_distrib]

theorem Runs.counting_unique (h : Runs n [] s) {t t' : Fin n} (ht : (s.loc (some t)).Counting)
    (ht' : (s.loc (some t')).Counting) : t = t' := by
  by_contra hne
  -- each of the two has waited and settled nothing; only `main` can have one to spare
  have hle : ∑ p, (settled s p + ((if p = some t then 1 else 0) + if p = some t' then 1 else 0)) ≤
      ∑ p, ((s.loc p).waited + if p = none then 1 else 0) := by
    refine Finset.sum_le_sum fun p _ => ?_
    rcases p with _ | q
    · simpa using h.settled_main
    · by_cases hq : q = t
      · subst hq
        simpa [hne] using h.settled_lt ht
      · by_cases hq' : q = t'
        · subst hq'
          simpa [hq] using h.settled_lt ht'
        · simpa [hq, hq'] using h.settled_le q
  have hledger := h.ledger
  simp only [Finset.sum_add_distrib, sum_settled, Finset.sum_ite_eq', Finset.mem_univ, if_true] at hle
  rw [show ∑ p, (s.loc p).waited = total Pc.waited s from rfl, hledger] at hle
  simp at hle

/-! ## The count -/

/-- `main` before it lets the threads go. -/
def MainPc.early : MainPc → Prop
  | .incLoad | .incStore _ | .setStart => True
  | _ => False

/-- Until then they are all where they began. -/
theorem Runs.early (h : Runs n tr s) {m : MainPc} (hm : s.loc none = .main m) (he : m.early) :
    s.shared.threadStart ≠ 1 ∧ ∀ t, s.loc (some t) = .thread .startWait := by
  refine Run.invariant (I := fun _ s => ∀ m, s.loc none = .main m → m.early →
    s.shared.threadStart ≠ 1 ∧ ∀ t, s.loc (some t) = .thread .startWait) ?_ ?_ h m hm he
  · exact fun m _ _ => ⟨by simp [start], fun t => rfl⟩
  · intro tr s p e sh l hrun ih hstep m hm he
    rcases p with _ | t
    · have hothers : ∀ t, (s.move none sh l).loc (some t) = s.loc (some t) := fun t => State.move_other (by simp) _ _ _
      rw [State.move_self] at hm
      subst hm
      generalize hl : s.loc none = l₀ at hstep
      cases hstep with
      | main hmain =>
        cases hmain with
        | incLoad => exact (ih _ hl trivial).imp id fun h t => (hothers t).trans (h t)
        | incStore => exact (ih _ hl trivial).imp id fun h t => (hothers t).trans (h t)
        | wakeStartNone => split at he <;> exact he.elim
        | wakeStart => split at he <;> exact he.elim
        | _ => exact he.elim
    · rw [State.move_other (by simp)] at hm
      obtain ⟨hstart, hthreads⟩ := ih m hm he
      rw [hthreads t] at hstep
      cases hstep with
      | thread hthread =>
        cases hthread with
        | startWait h1 => exact absurd h1 hstart
        | startAgain =>
          refine ⟨hstart, fun q => ?_⟩
          by_cases hq : q = t
          · rw [hq, State.move_self]
          · rw [State.move_other (by simpa using hq)]
            exact hthreads q

/-- Whether a process has made its addition. -/
def Pc.added : Pc → Nat
  | .thread .wake | .thread .returned => 1
  | .main .incLoad | .main (.incStore _) => 0
  | .main _ => 1
  | _ => 0

/-- About to store, with what it has loaded. -/
def Pc.Storing (v : Int) : Pc → Prop
  | .thread (.incStore w) | .main (.incStore w) => w = v
  | _ => False

theorem count_step {p : Option (Fin n)} {sh sh' : Shared n} {l l' : Pc} {e : Option Event} (h : program p sh l e sh' l') :
    (sh'.threadDone = sh.threadDone ∧ l'.added = l.added ∧ ∀ v, l'.Storing v → v = sh.threadDone) ∨
      ∃ v, l.Storing v ∧ sh'.threadDone = v + 1 ∧ l'.added = l.added + 1 ∧ ∀ w, ¬ l'.Storing w := by
  cases h with
  | main h =>
    cases h with
    | incLoad => exact .inl ⟨rfl, rfl, fun v hv => hv.symm⟩
    | incStore => exact .inr ⟨_, rfl, rfl, rfl, fun w hw => hw⟩
    | wakeStartNone => split <;> exact .inl ⟨rfl, rfl, fun v hv => hv.elim⟩
    | wakeStart => split <;> exact .inl ⟨rfl, rfl, fun v hv => hv.elim⟩
    | _ => exact .inl ⟨rfl, rfl, fun v hv => hv.elim⟩
  | thread h =>
    cases h with
    | incLoad => exact .inl ⟨rfl, rfl, fun v hv => hv.symm⟩
    | incStore => exact .inr ⟨_, rfl, rfl, rfl, fun w hw => hw⟩
    | _ => exact .inl ⟨rfl, rfl, fun v hv => hv.elim⟩

theorem Runs.not_storing_main (h : Runs n tr s) {t : Fin n} {v w : Int} (hm : (s.loc none).Storing v)
    (ht : (s.loc (some t)).Storing w) : False := by
  obtain ⟨m, hloc⟩ := h.kind.1
  have hearly : m.early := by
    rw [hloc] at hm
    cases m with
    | incStore => trivial
    | _ => exact hm.elim
  rw [(h.early hloc hearly).2 t] at ht
  exact ht

theorem Runs.storing_unique (h : Runs n [] s) {p q : Option (Fin n)} {v w : Int} (hp : (s.loc p).Storing v)
    (hq : (s.loc q).Storing w) : p = q := by
  have hcounting : ∀ {t : Fin n} {v : Int}, (s.loc (some t)).Storing v → (s.loc (some t)).Counting := by
    intro t v ht
    obtain ⟨k, hk⟩ := h.kind.2 t
    rw [hk] at ht ⊢
    cases k with
    | incStore => trivial
    | _ => exact ht.elim
  rcases p with _ | t
  · rcases q with _ | t'
    · rfl
    · exact (h.not_storing_main hp hq).elim
  · rcases q with _ | t'
    · exact (h.not_storing_main hq hp).elim
    · rw [h.counting_unique (hcounting hp) (hcounting hq)]

/-- `thread_done` is what has been added, and nothing else is about to be
stored on. -/
structure Counted (s : State (Option (Fin n)) (Shared n) Pc) : Prop where
  done : s.shared.threadDone = (total Pc.added s : Int)
  storing : ∀ p v, (s.loc p).Storing v → v = s.shared.threadDone

theorem Runs.counted (h : Runs n [] s) : Counted s := by
  refine Run.invariant (I := fun tr s => tr = [] → Counted s) ?_ ?_ h rfl
  · refine fun _ => ⟨by simp [total, start, Pc.added], ?_⟩
    rintro (_ | t) v hv <;> exact hv.elim
  · intro tr s p e sh l hrun ih hstep htr
    obtain ⟨rfl, he⟩ := List.append_eq_nil_iff.1 htr
    obtain ⟨hdone, hstoring⟩ := ih rfl
    have hmove := total_move Pc.added s p sh l
    rcases count_step hstep with ⟨hsame, hadded, hl⟩ | ⟨v, hv, hsh, hadded, hl⟩
    · refine ⟨?_, fun q w hw => ?_⟩
      · rw [State.move_shared, hsame, hdone]
        exact_mod_cast by omega
      · rw [State.move_shared, hsame]
        by_cases hq : q = p
        · subst hq
          rw [State.move_self] at hw
          exact hl w hw
        · rw [State.move_other hq] at hw
          exact hstoring q w hw
    · refine ⟨?_, fun q w hw => ?_⟩
      · rw [State.move_shared, hsh, hstoring p v hv, hdone]
        exact_mod_cast by omega
      · by_cases hq : q = p
        · subst hq
          rw [State.move_self] at hw
          exact absurd hw (hl w)
        · rw [State.move_other hq] at hw
          exact absurd (Runs.storing_unique hrun hw hv) hq

/-- **A run that comes to its end.** No wait on `thread_done` has failed or
been interrupted, `main`'s last call has woken no one, no one is left asleep,
and the count is the number of threads and one. So where one of these things
goes wrong, no continuation of the run lets all threads return. -/
theorem finished_calm (h : Runs n tr s) (hf : Finished s) :
    tr = [] ∧ s.shared.doneQueue = ∅ ∧ s.shared.threadDone = n + 1 := by
  have hcalm := h.calm hf
  subst hcalm
  refine ⟨rfl, ?_, ?_⟩
  · refine Finset.eq_empty_of_forall_notMem fun p hp => ?_
    have hasleep := h.asleep p hp
    rcases p with _ | t
    · rw [hf.1] at hasleep
      exact hasleep
    · rw [hf.2 t] at hasleep
      exact hasleep
  · rw [h.counted.done, total, Fintype.sum_option, hf.1, Finset.sum_congr rfl fun t _ => by rw [hf.2 t]]
    simp [Pc.added, Int.add_comm]

/-! ## A run that does -/

def Reached (s : State (Option (Fin n)) (Shared n) Pc) : Prop := ∃ tr, Runs n tr s

theorem Reached.next {p : Option (Fin n)} {l₀ l : Pc} {e : Option Event} {sh : Shared n} (h : Reached s)
    (hl : s.loc p = l₀) (hstep : program p s.shared l₀ e sh l) : Reached (s.move p sh l) := by
  obtain ⟨tr, hrun⟩ := h
  exact ⟨_, Run.next hrun hl hstep⟩

theorem move_some_ne {t q : Fin n} (h : q ≠ t) (s : State (Option (Fin n)) (Shared n) Pc) (sh : Shared n) (l : Pc) :
    (s.move (some t) sh l).loc (some q) = s.loc (some q) := State.move_other (by simpa using h) s sh l

@[simp] theorem move_some_none (t : Fin n) (s : State (Option (Fin n)) (Shared n) Pc) (sh : Shared n) (l : Pc) :
    (s.move (some t) sh l).loc none = s.loc none := State.move_other (by simp) s sh l

@[simp] theorem move_none_some (q : Fin n) (s : State (Option (Fin n)) (Shared n) Pc) (sh : Shared n) (l : Pc) :
    (s.move none sh l).loc (some q) = s.loc (some q) := State.move_other (by simp) s sh l

/-- The first `k` threads have been woken on `thread_start` and sleep on
`thread_done`. -/
structure Lined (k : Nat) (s : State (Option (Fin n)) (Shared n) Pc) : Prop where
  start : s.shared.threadStart = 1
  done : s.shared.threadDone = 1
  startQueue : s.shared.startQueue = ∅
  main : s.loc none = .main (if k < n then .wakeStart k else .wakeDone)
  before : ∀ t : Fin n, t < k → some t ∈ s.shared.doneQueue ∧ s.loc (some t) = .thread .asleep
  after : ∀ t : Fin n, k ≤ t → s.loc (some t) = .thread .startWait
  awake : none ∉ s.shared.doneQueue

theorem lined_zero (hn : 0 < n) : ∃ s : State (Option (Fin n)) (Shared n) Pc, Reached s ∧ Lined 0 s := by
  have h0 : Reached (start n) := ⟨[], .nil⟩
  have h1 := h0.next (p := none) rfl (.main .incLoad)
  have h2 := h1.next (State.move_self _ _ _ _) (.main .incStore)
  have h3 := h2.next (State.move_self _ _ _ _) (.main .setStart)
  refine ⟨_, h3, rfl, by simp [TestMmap3.start], rfl, by simp [hn], fun t ht => absurd ht (Nat.not_lt_zero _), ?_, ?_⟩
  · intro t _
    simp [TestMmap3.start]
  · simp [TestMmap3.start]

theorem Lined.next {k : Nat} (hk : k < n) (hr : Reached s) (h : Lined k s) :
    ∃ s' : State (Option (Fin n)) (Shared n) Pc, Reached s' ∧ Lined (k + 1) s' := by
  obtain ⟨hstart, hdone, hqueue, hmain, hbefore, hafter, hawake⟩ := h
  have h1 := hr.next (hafter ⟨k, hk⟩ (Nat.le_refl k)) (.thread (.startWait hstart))
  rw [if_pos hk] at hmain
  have h2 := h1.next (by rw [move_some_none, hmain]) (.main (.wakeStart (Finset.mem_insert_self _ _)))
  have h3 := h2.next (by rw [move_none_some, State.move_self]) (.thread (.startWoken (Finset.notMem_erase _ _)))
  have h4 := h3.next (State.move_self _ _ _ _) (.thread .load)
  have h5 := h4.next (State.move_self _ _ _ _) (.thread (.wait rfl))
  refine ⟨_, h5, hstart, hdone, ?_, ?_, fun t ht => ?_, fun t ht => ?_, ?_⟩
  · simp [hqueue]
  · simp
  · by_cases htk : t = ⟨k, hk⟩
    · subst htk
      simp
    · have hlt : t < k := by
        have : t.val ≠ k := fun heq => htk (Fin.ext heq)
        omega
      simp [move_some_ne htk, hbefore t hlt]
  · have htk : t ≠ ⟨k, hk⟩ := by
      rintro rfl
      exact absurd ht (Nat.not_succ_le_self k)
    simp [move_some_ne htk, hafter t (Nat.le_of_succ_le ht)]
  · simp [hawake]

theorem lined_all (hn : 0 < n) : ∃ s : State (Option (Fin n)) (Shared n) Pc, Reached s ∧ Lined n s := by
  have hall : ∀ k, k ≤ n → ∃ s : State (Option (Fin n)) (Shared n) Pc, Reached s ∧ Lined k s := by
    intro k
    induction k with
    | zero => exact fun _ => lined_zero hn
    | succ k ih =>
      intro hk
      obtain ⟨s, hr, hs⟩ := ih (Nat.le_of_succ_le hk)
      exact hs.next hk hr
  exact hall n (Nat.le_refl n)

/-- Thread `k` has been woken on `thread_done`, those before it have
returned, and those behind it sleep. -/
structure Passing (k : Nat) (s : State (Option (Fin n)) (Shared n) Pc) : Prop where
  done : s.shared.threadDone = k + 1
  main : s.loc none = .main .poll
  before : ∀ t : Fin n, t < k → s.loc (some t) = .thread .returned
  woken : ∀ t : Fin n, t.val = k → some t ∉ s.shared.doneQueue ∧ s.loc (some t) = .thread .asleep
  after : ∀ t : Fin n, k < t → some t ∈ s.shared.doneQueue ∧ s.loc (some t) = .thread .asleep
  queue : ∀ p ∈ s.shared.doneQueue, ∃ t : Fin n, p = some t ∧ k < t

theorem Lined.wakeDone (hn : 0 < n) (hr : Reached s) (h : Lined n s) :
    ∃ s' : State (Option (Fin n)) (Shared n) Pc, Reached s' ∧ Passing 0 s' := by
  obtain ⟨-, hdone, -, hmain, hbefore, -, hawake⟩ := h
  rw [if_neg (Nat.lt_irrefl n)] at hmain
  have h1 := hr.next hmain (.main (.wakeDone (hbefore ⟨0, hn⟩ hn).1))
  refine ⟨_, h1, by simpa using hdone, State.move_self _ _ _ _, fun t ht => absurd ht (Nat.not_lt_zero _), ?_, ?_, ?_⟩
  · intro t ht
    have ht0 : t = ⟨0, hn⟩ := Fin.ext ht
    subst ht0
    simp [(hbefore ⟨0, hn⟩ hn).2]
  · intro t ht
    have hne : t ≠ ⟨0, hn⟩ := fun heq => by simp [heq] at ht
    simp [hbefore t t.isLt, hne]
  · intro p hp
    obtain ⟨hne, hp⟩ := Finset.mem_erase.1 hp
    cases p with
    | none => exact absurd hp hawake
    | some t =>
      refine ⟨t, rfl, Nat.pos_of_ne_zero fun h0 => hne ?_⟩
      rw [show t = ⟨0, hn⟩ from Fin.ext h0]

theorem Passing.counts {k : Nat} (hk : k < n) (hr : Reached s) (h : Passing k s) :
    Reached (s.move (some ⟨k, hk⟩) { s.shared with threadDone := s.shared.threadDone + 1 } (.thread .wake)) := by
  obtain ⟨hnot, hasleep⟩ := h.woken ⟨k, hk⟩ rfl
  have h1 := hr.next hasleep (.thread (.woken hnot))
  have h2 := h1.next (State.move_self _ _ _ _) (.thread .incLoad)
  have h3 := h2.next (State.move_self _ _ _ _) (.thread .incStore)
  simpa [State.move_move] using h3

theorem Passing.next {k : Nat} (hk : k + 1 < n) (hr : Reached s) (h : Passing k s) :
    ∃ s' : State (Option (Fin n)) (Shared n) Pc, Reached s' ∧ Passing (k + 1) s' := by
  have hk' : k < n := Nat.lt_of_succ_lt hk
  have h1 := (h.counts hk' hr).next (State.move_self _ _ _ _) (.thread (.wake (h.after ⟨k + 1, hk⟩ (Nat.lt_succ_self k)).1))
  have hother : ∀ t : Fin n, t.val ≠ k → t ≠ ⟨k, hk'⟩ := fun t ht heq => ht (by rw [heq])
  refine ⟨_, h1, by simp [h.done], by simp [h.main], fun t ht => ?_, fun t ht => ?_, fun t ht => ?_, fun p hp => ?_⟩
  · by_cases htk : t.val = k
    · rw [show t = ⟨k, hk'⟩ from Fin.ext htk, State.move_self]
    · rw [move_some_ne (hother t htk), move_some_ne (hother t htk)]
      exact h.before t (by omega)
  · rw [move_some_ne (hother t (by omega)), move_some_ne (hother t (by omega)),
      show t = ⟨k + 1, hk⟩ from Fin.ext ht]
    exact ⟨Finset.notMem_erase _ _, (h.after ⟨k + 1, hk⟩ (Nat.lt_succ_self k)).2⟩
  · rw [move_some_ne (hother t (by omega)), move_some_ne (hother t (by omega))]
    obtain ⟨hmem, hasleep⟩ := h.after t (by omega)
    refine ⟨Finset.mem_erase.2 ⟨fun heq => ?_, hmem⟩, hasleep⟩
    have : t.val = k + 1 := congrArg Fin.val (Option.some.inj heq)
    omega
  · obtain ⟨hne, hp⟩ := Finset.mem_erase.1 hp
    obtain ⟨t, rfl, ht⟩ := h.queue p hp
    refine ⟨t, rfl, Nat.lt_of_le_of_ne ht fun heq => hne ?_⟩
    rw [show t = ⟨k + 1, hk⟩ from Fin.ext heq.symm]

theorem Passing.finish {k : Nat} (hk : k + 1 = n) (hr : Reached s) (h : Passing k s) :
    ∃ s' : State (Option (Fin n)) (Shared n) Pc, Reached s' ∧ Finished s' := by
  have hk' : k < n := by omega
  have hqueue : s.shared.doneQueue = ∅ := by
    refine Finset.eq_empty_of_forall_notMem fun p hp => ?_
    obtain ⟨t, -, ht⟩ := h.queue p hp
    exact absurd t.isLt (by omega)
  have h1 := hr.next h.main (.main (.poll (by rw [h.done]; omega)))
  have h2 := h1.next (State.move_self _ _ _ _) (.main (.lastWakeNone hqueue))
  have h3 := h2.next (State.move_self _ _ _ _) (.main .lastLoad)
  have h4 := h3.next (State.move_self _ _ _ _) (.main (.lastWait rfl))
  obtain ⟨hnot, hasleep⟩ := h.woken ⟨k, hk'⟩ rfl
  have h5 := h4.next (by simpa using hasleep) (.thread (.woken (by simpa using hnot)))
  have h6 := h5.next (State.move_self _ _ _ _) (.thread .incLoad)
  have h7 := h6.next (State.move_self _ _ _ _) (.thread .incStore)
  have h8 := h7.next (State.move_self _ _ _ _) (.thread (.wake (Finset.mem_insert_self _ _)))
  have h9 := h8.next (by simp) (.main (.lastWoken (Finset.notMem_erase _ _)))
  refine ⟨_, h9, State.move_self _ _ _ _, fun t => ?_⟩
  by_cases htk : t.val = k
  · rw [show t = ⟨k, hk'⟩ from Fin.ext htk]
    simp
  · have hne : t ≠ ⟨k, hk'⟩ := fun heq => htk (by rw [heq])
    have hlt := t.isLt
    simp [move_some_ne hne, h.before t (by omega)]

theorem finishes (hn : 0 < n) : ∃ tr s, Runs n tr s ∧ Finished s := by
  have hall : ∀ k, k < n → ∃ s : State (Option (Fin n)) (Shared n) Pc, Reached s ∧ Passing k s := by
    intro k
    induction k with
    | zero =>
      intro _
      obtain ⟨s, hr, hs⟩ := lined_all hn
      exact hs.wakeDone hn hr
    | succ k ih =>
      intro hk
      obtain ⟨s, hr, hs⟩ := ih (Nat.lt_of_succ_lt hk)
      exact hs.next hk hr
  obtain ⟨s, hr, hs⟩ := hall (n - 1) (by omega)
  obtain ⟨s', ⟨tr, hrun⟩, hf⟩ := hs.finish (by omega) hr
  exact ⟨tr, s', hrun, hf⟩

theorem finished_calm_sample : ∃ s, Runs 8 [] s ∧ Finished s ∧ s.shared.threadDone = 9 := by
  obtain ⟨tr, s, hrun, hf⟩ := finishes (n := 8) (by simp)
  obtain ⟨rfl, -, hdone⟩ := finished_calm hrun hf
  exact ⟨s, hrun, hf, hdone⟩

end SugarNSpice.TestMmap3
