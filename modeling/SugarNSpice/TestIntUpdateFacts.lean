/-
What the threads count.

A thread makes `max_update_iters` stores, lock or no lock, so a finished run
has `max_update_iters * nr_threads` of them. Under the lock the counter is the
number of stores made (`Behind`), and `main` prints PASSED. Without it the
counter can fall back to what any thread loaded before: the outcomes of two
threads or more are all numbers from two (or one, if there is one turn each)
up to the product, and no others.
-/
import SugarNSpice.TestIntUpdate
import SugarNSpice.RunLength
import SugarNSpice.CLang
import Mathlib.Tactic.Ring

namespace SugarNSpice.TestIntUpdate

open Processes

variable {n k : Nat}

/-- What one step of a thread does, without the lock. -/
theorem unlocked_cases {t : Fin n} {x x' : Ints} {l l' : ThreadPc} {e : Option Event} (h : unlocked n k t x l e x' l') :
    (l = .enter ∧ e = none ∧ x' = { x with lastUpdateInt := t } ∧ l' = .head 0) ∨
    (∃ i, i < k ∧ l = .head i ∧ e = none ∧ x' = x ∧ l' = .load i) ∨
    (∃ i, l = .load i ∧ e = none ∧ x' = x ∧ l' = .store i x.updateInt) ∨
    (∃ i v, l = .store i v ∧ e = some .stored ∧ x' = { x with updateInt := v + 1 } ∧ l' = .leave i) ∨
    (∃ i, l = .leave i ∧ e = none ∧ x' = x ∧ l' = .head (i + 1)) ∨
    (∃ i, k ≤ i ∧ l = .head i ∧ e = none ∧ x' = x ∧ l' = .ended) := by
  cases h with
  | own h =>
    cases h with
    | enter => exact .inl ⟨rfl, rfl, rfl, rfl⟩
    | load => exact .inr (.inr (.inl ⟨_, rfl, rfl, rfl, rfl⟩))
    | store => exact .inr (.inr (.inr (.inl ⟨_, _, rfl, rfl, rfl, rfl⟩)))
    | exit hi => exact .inr (.inr (.inr (.inr (.inr ⟨_, hi, rfl, rfl, rfl, rfl⟩))))
  | lock h =>
    obtain ⟨i, hi, rfl, rfl⟩ := h
    exact .inr (.inl ⟨i, hi, rfl, rfl, rfl, rfl⟩)
  | unlock h =>
    obtain ⟨i, rfl, rfl⟩ := h
    exact .inr (.inr (.inr (.inr (.inl ⟨i, rfl, rfl, rfl, rfl⟩))))

theorem LockedRun.unlocked {tr : List (Fin n × Event)} {s : State (Fin n) (Bool × Ints) ThreadPc} (h : LockedRun n k tr s) :
    UnlockedRun n k tr ⟨s.shared.2, s.loc⟩ := by
  have hsim : UnlockedRun n k (rename some tr) ⟨s.shared.2, s.loc⟩ := by
    refine Run.simulate Prod.snd id some ?_ h
    rintro tr ⟨⟨held, x⟩, loc⟩ p e sh l - hstep
    refine .inr ?_
    rw [Option.bind_fun_some]
    cases hstep with
    | own h => exact .own h
    | acquire h => exact .lock h
    | release h => exact .unlock h
  rwa [rename_some] at hsim

/-! ## How many stores -/

/-- The stores a thread has made. -/
def ThreadPc.turns (k : Nat) : ThreadPc → Nat
  | .enter => 0
  | .head i | .load i | .store i _ => i
  | .leave i => i + 1
  | .ended => k

/-- A thread makes no turn too many. -/
def ThreadPc.Within (k : Nat) : ThreadPc → Prop
  | .head i => i ≤ k
  | .load i | .store i _ | .leave i => i < k
  | _ => True

theorem ThreadPc.Within.turns_le {l : ThreadPc} (h : l.Within k) : l.turns k ≤ k := by
  cases l <;> simp only [turns, Within] at h ⊢ <;> omega

variable {tr : List (Fin n × Event)} {s : State (Fin n) Ints ThreadPc}

theorem UnlockedRun.within (h : UnlockedRun n k tr s) (t : Fin n) : (s.loc t).Within k := by
  refine Run.everyone (I := fun _ _ _ l => l.Within k) ?_ ?_ ?_ h t
  · intro t
    trivial
  · intro tr s t e sh l _ ih hstep
    rcases unlocked_cases hstep with ⟨-, -, -, rfl⟩ | ⟨i, hi, -, -, -, rfl⟩ | ⟨i, hl, -, -, rfl⟩ | ⟨i, v, hl, -, -, rfl⟩ |
      ⟨i, hl, -, -, rfl⟩ | ⟨i, -, -, -, -, rfl⟩
    · exact Nat.zero_le k
    · exact hi
    · rwa [hl] at ih
    · rwa [hl] at ih
    · rw [hl] at ih
      exact ih
    · trivial
  · exact fun tr s p q e sh l _ _ ih _ => ih

theorem turns_step {t : Fin n} {x x' : Ints} {l l' : ThreadPc} {e : Option Event} (h : unlocked n k t x l e x' l')
    (hw : l.Within k) : l'.turns k = l.turns k + (events t e).length := by
  rcases unlocked_cases h with ⟨rfl, rfl, -, rfl⟩ | ⟨i, -, rfl, rfl, -, rfl⟩ | ⟨i, rfl, rfl, -, rfl⟩ |
    ⟨i, v, rfl, rfl, -, rfl⟩ | ⟨i, rfl, rfl, -, rfl⟩ | ⟨i, hi, rfl, rfl, -, rfl⟩
  · rfl
  · rfl
  · rfl
  · rfl
  · rfl
  · exact Nat.le_antisymm hi hw

theorem UnlockedRun.length_eq (h : UnlockedRun n k tr s) : tr.length = total (ThreadPc.turns k) s := by
  refine Run.invariant (I := fun tr s => tr.length = total (ThreadPc.turns k) s) ?_ ?_ h
  · simp [start, total_const, ThreadPc.turns]
  · intro tr s t e sh l hrun ih hstep
    have hturns := turns_step hstep (UnlockedRun.within hrun t)
    have hmove := total_move (ThreadPc.turns k) s t sh l
    rw [List.length_append]
    omega

theorem UnlockedRun.length_le (h : UnlockedRun n k tr s) : tr.length ≤ k * n := by
  rw [h.length_eq, total]
  calc ∑ t, (s.loc t).turns k ≤ ∑ _ : Fin n, k := Finset.sum_le_sum fun t _ => (h.within t).turns_le
    _ = k * n := by simp [Nat.mul_comm]

/-- Every thread has ended. -/
def Joined (loc : Fin n → ThreadPc) : Prop := ∀ t, loc t = .ended

theorem UnlockedRun.length_of_joined (h : UnlockedRun n k tr s) (hj : Joined s.loc) : tr.length = k * n := by
  rw [h.length_eq, total, Finset.sum_congr rfl fun t _ => by rw [hj t]]
  simp [ThreadPc.turns, Nat.mul_comm]

/-! ## With the lock -/

/-- The counter, with the holder of the lock at `l`, when `c` stores are made. -/
def Behind (c : Nat) : Option ThreadPc → Ints → Prop
  | some (.store _ v), x => x.updateInt = BitVec.ofNat 32 c ∧ v = x.updateInt
  | _, x => x.updateInt = BitVec.ofNat 32 c

theorem Behind.counter {c : Nat} {o : Option ThreadPc} {x : Ints} (h : Behind c o x) : x.updateInt = BitVec.ofNat 32 c := by
  rcases o with _ | (_ | i | i | ⟨i, v⟩ | i | _)
  case some.store => exact h.1
  all_goals exact h

theorem lockedRun_counter {tr : List (Fin n × Event)} {s : State (Fin n) (Bool × Ints) ThreadPc} (h : LockedRun n k tr s) :
    s.shared.2.updateInt = BitVec.ofNat 32 tr.length := by
  have hkept : Kept (thread n k) (fun o tr x => Behind tr.length o x) tr s := by
    refine guarded_resource ?_ ?_ ?_ ?_ (fun _ hin => hin) rfl h
    · intro l l' tr x h hb
      obtain ⟨i, -, rfl, rfl⟩ := h
      exact hb
    · intro l l' tr x h hb
      obtain ⟨i, rfl, rfl⟩ := h
      exact hb
    · intro t x l e x' l' tr hin hstep hb
      cases hstep with
      | enter => exact hin.elim
      | load =>
        rw [append_events_none]
        exact ⟨hb, rfl⟩
      | store =>
        obtain ⟨hx, rfl⟩ := hb
        simp [Behind, events, hx, BitVec.ofNat_add]
      | exit => exact hin.elim
    · intro t x l e x' l' o tr hin hstep hb
      cases hstep with
      | enter =>
        rw [append_events_none]
        rcases o with _ | (_ | i | i | ⟨i, v⟩ | i | _) <;> exact hb
      | load => exact absurd trivial hin
      | store => exact absurd trivial hin
      | exit => rwa [append_events_none]
  obtain ⟨o, ho⟩ := hkept.exists_holder
  exact ho.counter

/-- With `WITH_LOCK` the test passes, however the threads are scheduled. -/
theorem locked_passes {tr : List (Fin n × Event)} {s : State (Fin n) (Bool × Ints) ThreadPc} (h : LockedRun n k tr s)
    (hj : Joined s.loc) : passed n k s.shared.2.updateInt = true := by
  rw [passed, lockedRun_counter h, h.unlocked.length_of_joined hj, decide_eq_true_iff, BitVec.ofNat_mul]

theorem thread_walks {t : Fin n} {j i : Nat} (hi : k = i + j) (x : Ints) :
    ∃ x', Walks (thread n k).guarded t ((false, x), .head i) ((false, x'), .ended) := by
  induction j generalizing i x with
  | zero => exact ⟨x, .step (.own (.exit (Nat.le_of_eq hi))) .refl⟩
  | succ j ih =>
    obtain ⟨x', hrest⟩ := ih (i := i + 1) (by omega) { x with updateInt := x.updateInt + 1 }
    exact ⟨x', .step (.acquire ⟨i, by omega, rfl, rfl⟩) (.step (.own .load) (.step (.own .store)
      (.step (.release ⟨i, rfl, rfl⟩) hrest)))⟩

theorem locked_finishes : ∃ tr s, LockedRun n k tr s ∧ Joined s.loc := by
  have hrun : LockedRun n k [] ⟨(false, (start n).shared), (start n).loc⟩ := .nil
  obtain ⟨tr, s, hrun, hloc, -⟩ := Run.each (A := (· = .enter)) (B := (· = .ended)) (Q := fun sh => sh.1 = false) (by
    rintro t ⟨_, x⟩ l rfl rfl
    obtain ⟨x', hwalk⟩ := thread_walks (n := n) (t := t) (Nat.zero_add k).symm { x with lastUpdateInt := t }
    exact ⟨(false, x'), .ended, .step (.own .enter) hwalk, rfl, rfl⟩) hrun (fun _ => rfl) rfl
  exact ⟨tr, s, hrun, hloc⟩

theorem locked_passes_sample :
    ∃ tr s, LockedRun 2 1000 tr s ∧ Joined s.loc ∧ passed 2 1000 s.shared.2.updateInt = true := by
  obtain ⟨tr, s, hrun, hj⟩ := locked_finishes (n := 2) (k := 1000)
  exact ⟨tr, s, hrun, hj, locked_passes hrun hj⟩

/-! ## Without it: how far the counter can be off -/

theorem quiet_or_store {t : Fin n} {x x' : Ints} {l l' : ThreadPc} {e : Option Event} (h : unlocked n k t x l e x' l') :
    (e = none ∧ x'.updateInt = x.updateInt) ∨
      ∃ i v, l = .store i v ∧ e = some .stored ∧ x'.updateInt = v + 1 ∧ l' = .leave i := by
  rcases unlocked_cases h with ⟨-, rfl, rfl, -⟩ | ⟨i, -, -, rfl, rfl, -⟩ | ⟨i, -, rfl, rfl, -⟩ |
    ⟨i, v, hl, he, rfl, hl'⟩ | ⟨i, -, rfl, rfl, -⟩ | ⟨i, -, -, rfl, rfl, -⟩
  case inr.inr.inr.inl => exact .inr ⟨i, v, hl, he, rfl, hl'⟩
  all_goals exact .inl ⟨rfl, rfl⟩

theorem loaded {t : Fin n} {x x' : Ints} {l : ThreadPc} {e : Option Event} {i : Nat} {v : BitVec 32}
    (h : unlocked n k t x l e x' (.store i v)) : v = x.updateInt := by
  rcases unlocked_cases h with ⟨-, -, -, hl⟩ | ⟨j, -, -, -, -, hl⟩ | ⟨j, -, -, -, hl⟩ | ⟨j, w, -, -, -, hl⟩ |
    ⟨j, -, -, -, hl⟩ | ⟨j, -, -, -, -, hl⟩
  case inr.inr.inl =>
    cases hl
    rfl
  all_goals cases hl

theorem UnlockedRun.le_length (h : UnlockedRun n k tr s) :
    s.shared.updateInt.toNat ≤ tr.length ∧ ∀ t i v, s.loc t = .store i v → v.toNat ≤ tr.length := by
  refine Run.invariant (I := fun tr (s : State (Fin n) Ints ThreadPc) => s.shared.updateInt.toNat ≤ tr.length ∧
    ∀ t i v, s.loc t = .store i v → v.toNat ≤ tr.length) ?_ ?_ h
  · exact ⟨Nat.le_refl 0, fun t i v hl => by cases hl⟩
  · intro tr s p e sh l _ ih hstep
    obtain ⟨hx, hv⟩ := ih
    have hlen : tr.length ≤ (tr ++ events p e).length := by simp
    constructor
    · rw [State.move_shared]
      rcases quiet_or_store hstep with ⟨-, hsame⟩ | ⟨i, v, hl, rfl, hstored, -⟩
      · rw [hsame]
        exact hx.trans hlen
      · have hadd : (v + 1).toNat ≤ v.toNat + 1 := by
          rw [BitVec.toNat_add]
          exact Nat.mod_le _ _
        rw [hstored]
        simpa [events] using hadd.trans (Nat.add_le_add_right (hv p i v hl) 1)
    · intro t i v ht
      by_cases htp : t = p
      · subst htp
        rw [State.move_self] at ht
        subst ht
        rw [loaded hstep]
        exact hx.trans hlen
      · rw [State.move_other htp] at ht
        exact (hv t i v ht).trans hlen

/-- As long as the product is an `int`, a store adds one to what was loaded. -/
theorem UnlockedRun.toNat_store (h : UnlockedRun n k tr s) (hk : k * n < 2 ^ 31) {t : Fin n} {i : Nat} {v : BitVec 32}
    (hl : s.loc t = .store i v) : (v + 1).toNat = v.toNat + 1 := by
  have hlt := h.le_length.2 t i v hl
  have hle := h.length_le
  rw [BitVec.toNat_add]
  exact Nat.mod_eq_of_lt (by simp; omega)

/-- After its first turn a thread sees its own count or another's. -/
theorem UnlockedRun.seen (h : UnlockedRun n k tr s) (hk : k * n < 2 ^ 31) (t : Fin n) :
    (0 < (s.loc t).turns k → 0 < s.shared.updateInt.toNat) ∧ ∀ i v, s.loc t = .store i v → 0 < i → 0 < v.toNat := by
  refine Run.everyone (I := fun _ _ x l => (0 < ThreadPc.turns k l → 0 < x.updateInt.toNat) ∧
    ∀ i v, l = .store i v → 0 < i → 0 < v.toNat) ?_ ?_ ?_ h t
  · exact fun t => ⟨fun h => absurd h (Nat.lt_irrefl 0), fun i v hl => by cases hl⟩
  · intro tr s t e sh l hrun ih hstep
    have hturns := turns_step hstep (UnlockedRun.within hrun t)
    constructor
    · rcases quiet_or_store hstep with ⟨rfl, hsame⟩ | ⟨i, v, hl, -, hstored, -⟩
      · rw [hturns, hsame]
        exact ih.1
      · rw [hstored, UnlockedRun.toNat_store hrun hk hl]
        exact fun _ => Nat.succ_pos _
    · intro i v hl hi
      subst hl
      rcases quiet_or_store hstep with ⟨rfl, -⟩ | ⟨j, w, -, -, -, hl⟩
      · have hij : i = (s.loc t).turns k := hturns
        rw [loaded hstep]
        exact ih.1 (hij ▸ hi)
      · cases hl
  · intro tr s p q e sh l _ hrun ih hstep
    refine ⟨?_, ih.2⟩
    rcases quiet_or_store hstep with ⟨-, hsame⟩ | ⟨i, v, hl, -, hstored, -⟩
    · rw [hsame]
      exact ih.1
    · rw [hstored, UnlockedRun.toNat_store hrun hk hl]
      exact fun _ => Nat.succ_pos _

/-- A counter below the least outcome is going to be stored to again. -/
theorem UnlockedRun.least (h : UnlockedRun n k tr s) (hk : k * n < 2 ^ 31) (hn : 0 < n) :
    min 2 k ≤ s.shared.updateInt.toNat ∨ ∃ t, (s.loc t).turns k < k := by
  refine Run.invariant (I := fun _ s => min 2 k ≤ s.shared.updateInt.toNat ∨ ∃ t : Fin n, (s.loc t).turns k < k)
    ?_ ?_ h
  · rcases Nat.eq_zero_or_pos k with rfl | hpos
    · exact .inl (Nat.zero_le _)
    · exact .inr ⟨⟨0, hn⟩, hpos⟩
  · intro tr s p e sh l hrun ih hstep
    have hturns := turns_step hstep (UnlockedRun.within hrun p)
    rcases quiet_or_store hstep with ⟨rfl, hsame⟩ | ⟨i, v, hl, rfl, hstored, rfl⟩
    · refine ih.imp (fun hx => ?_) fun ⟨t, ht⟩ => ⟨t, ?_⟩
      · rwa [State.move_shared, hsame]
      · by_cases htp : t = p
        · subst htp
          rw [State.move_self, hturns]
          exact ht
        · rwa [State.move_other htp]
    -- a thread's last store is of one more than it saw of its earlier ones
    · rcases Nat.lt_or_ge (i + 1) k with hlt | hge
      · refine .inr ⟨p, ?_⟩
        rw [State.move_self]
        exact hlt
      · have hseen := (UnlockedRun.seen hrun hk p).2 i v hl
        have hstore := UnlockedRun.toNat_store hrun hk hl
        refine .inl ?_
        rw [State.move_shared, hstored]
        omega

theorem UnlockedRun.bounds (h : UnlockedRun n k tr s) (hk : k * n < 2 ^ 31) (hn : 0 < n) (hj : Joined s.loc) :
    min 2 k ≤ s.shared.updateInt.toNat ∧ s.shared.updateInt.toNat ≤ k * n := by
  constructor
  · rcases h.least hk hn with hle | ⟨t, ht⟩
    · exact hle
    · rw [hj t] at ht
      exact absurd ht (Nat.lt_irrefl k)
  · rw [← h.length_of_joined hj]
    exact h.le_length.1

/-! ## And every outcome in between -/

/-- A state some run without the lock gets to. -/
def Reached (n k : Nat) (s : State (Fin n) Ints ThreadPc) : Prop := ∃ tr, UnlockedRun n k tr s

/-- These threads are all at the head of their loops. -/
def Idle (k : Nat) (S : Finset (Fin n)) (s : State (Fin n) Ints ThreadPc) : Prop :=
  ∀ t ∈ S, ∃ i, i ≤ k ∧ s.loc t = .head i

/-- The turns these threads have yet to make. -/
def left (k : Nat) (S : Finset (Fin n)) (s : State (Fin n) Ints ThreadPc) : Nat := ∑ t ∈ S, (k - (s.loc t).turns k)

variable {S : Finset (Fin n)}

theorem left_move {t : Fin n} (ht : t ∈ S) (x : Ints) (l : ThreadPc) :
    left k S (s.move t x l) + (k - (s.loc t).turns k) = left k S s + (k - l.turns k) := by
  have hrest : ∑ q ∈ S.erase t, (k - ((s.move t x l).loc q).turns k) = ∑ q ∈ S.erase t, (k - (s.loc q).turns k) :=
    Finset.sum_congr rfl fun q hq => by rw [State.move_other (Finset.ne_of_mem_erase hq)]
  rw [left, left, ← Finset.add_sum_erase _ _ ht, hrest, State.move_self,
    ← Finset.add_sum_erase S (fun q => k - (s.loc q).turns k) ht]
  omega

theorem left_move_of_notMem {t : Fin n} (ht : t ∉ S) (x : Ints) (l : ThreadPc) : left k S (s.move t x l) = left k S s :=
  Finset.sum_congr rfl fun q hq => by rw [State.move_other (ne_of_mem_of_not_mem hq ht)]

theorem Idle.move {t : Fin n} {x : Ints} {i : Nat} (h : Idle k S s) (hi : i ≤ k) : Idle k S (s.move t x (.head i)) := by
  intro q hq
  by_cases hqt : q = t
  · subst hqt
    exact ⟨i, hi, State.move_self _ _ _ _⟩
  · rw [State.move_other hqt]
    exact h q hq

theorem Idle.move_of_notMem {t : Fin n} {x : Ints} {l : ThreadPc} (h : Idle k S s) (ht : t ∉ S) :
    Idle k S (s.move t x l) := by
  intro q hq
  rw [State.move_other (ne_of_mem_of_not_mem hq ht)]
  exact h q hq

theorem lock_walks {t : Fin n} {x : Ints} {i : Nat} (hi : i < k) :
    Walks (unlocked n k) t (x, .head i) (x, .store i x.updateInt) :=
  .step (.lock ⟨i, hi, rfl, rfl⟩) (.step (.own .load) .refl)

theorem store_walks {t : Fin n} {x : Ints} {i : Nat} {v : BitVec 32} :
    Walks (unlocked n k) t (x, .store i v) ({ x with updateInt := v + 1 }, .head (i + 1)) :=
  .step (.own .store) (.step (.unlock ⟨i, rfl, rfl⟩) .refl)

theorem Reached.walk {t : Fin n} {l : ThreadPc} {x : Ints × ThreadPc} (h : Reached n k s) (hl : s.loc t = l)
    (hw : Walks (unlocked n k) t (s.shared, l) x) : Reached n k (s.move t x.1 x.2) := by
  obtain ⟨tr, hrun⟩ := h
  exact Run.walk hrun (hl ▸ hw)

/-- Where some threads have turns left, they can make any number of them with
the others standing still. -/
theorem Reached.turns (h : Reached n k s) (hi : Idle k S s) {j : Nat} (hj : j ≤ left k S s) :
    ∃ s', Reached n k s' ∧ Idle k S s' ∧ left k S s' + j = left k S s ∧
      s'.shared.updateInt = s.shared.updateInt + BitVec.ofNat 32 j ∧ ∀ t, t ∉ S → s'.loc t = s.loc t := by
  induction j with
  | zero => exact ⟨s, h, hi, rfl, by simp, fun _ _ => rfl⟩
  | succ j ih =>
    obtain ⟨s', hr, hi', hleft, hx, hloc⟩ := ih (Nat.le_of_succ_le hj)
    have hpos : left k S s' ≠ 0 := by omega
    obtain ⟨t, ht, hturns⟩ := Finset.exists_ne_zero_of_sum_ne_zero hpos
    obtain ⟨i, -, hhead⟩ := hi' t ht
    rw [hhead] at hturns
    have hik : i < k := Nat.lt_of_sub_ne_zero hturns
    have hmove := left_move ht { s'.shared with updateInt := s'.shared.updateInt + 1 } (.head (i + 1)) (k := k) (s := s')
    rw [hhead] at hmove
    simp only [ThreadPc.turns] at hmove
    refine ⟨_, hr.walk hhead ((lock_walks hik).trans store_walks), hi'.move hik, by simp only; omega, ?_, fun q hq => ?_⟩
    · simp [hx, BitVec.ofNat_add, BitVec.add_assoc]
    · rw [State.move_other (ne_of_mem_of_not_mem ht hq).symm]
      exact hloc q hq

theorem Idle.mono {S' : Finset (Fin n)} (h : Idle k S s) (hsub : S' ⊆ S) : Idle k S' s := fun t ht => h t (hsub ht)

theorem left_eq_add (s : State (Fin n) Ints ThreadPc) (t : Fin n) :
    left k Finset.univ s = (k - (s.loc t).turns k) + left k (Finset.univ.erase t) s :=
  (Finset.add_sum_erase _ _ (Finset.mem_univ t)).symm

/-- The race: a thread loads, the others make some of their turns, and it
stores over all of them. -/
theorem Reached.overlap {t : Fin n} {j : Nat} (h : Reached n k s) (hi : Idle k Finset.univ s)
    (ht : k - (s.loc t).turns k ≠ 0) (hj : j ≤ left k (Finset.univ.erase t) s) :
    ∃ s', Reached n k s' ∧ Idle k Finset.univ s' ∧ left k (Finset.univ.erase t) s' + j = left k (Finset.univ.erase t) s ∧
      left k Finset.univ s' + j + 1 = left k Finset.univ s ∧ s'.shared.updateInt = s.shared.updateInt + 1 := by
  obtain ⟨i, -, hhead⟩ := hi t (Finset.mem_univ t)
  have hnot : t ∉ Finset.univ.erase t := Finset.notMem_erase t _
  rw [hhead] at ht
  have hik : i < k := Nat.lt_of_sub_ne_zero ht
  have hloaded := h.walk hhead (lock_walks hik)
  have hothers : Idle k (Finset.univ.erase t) (s.move t s.shared (.store i s.shared.updateInt)) :=
    (hi.mono (Finset.erase_subset _ _)).move_of_notMem hnot
  rw [← left_move_of_notMem hnot s.shared (.store i s.shared.updateInt)] at hj
  obtain ⟨s', hr, hi', hleft, -, hloc⟩ := hloaded.turns hothers hj
  rw [left_move_of_notMem hnot] at hleft
  have hstore : s'.loc t = .store i s.shared.updateInt := by rw [hloc t hnot, State.move_self]
  have hlater := left_move_of_notMem (k := k) (s := s') hnot
    { s'.shared with updateInt := s.shared.updateInt + 1 } (.head (i + 1))
  refine ⟨_, hr.walk hstore store_walks, ?_, ?_, ?_, rfl⟩
  · intro q _
    by_cases hq : q = t
    · subst hq
      exact ⟨i + 1, hik, State.move_self _ _ _ _⟩
    · rw [State.move_other hq]
      exact hi' q (Finset.mem_erase.2 ⟨hq, Finset.mem_univ q⟩)
  · rw [hlater]
    exact hleft
  · rw [left_eq_add _ t, left_eq_add s t, hlater, State.move_self, hhead]
    simp only [ThreadPc.turns]
    omega

theorem ready : ∃ s, Reached n k s ∧ (∀ t, s.loc t = .head 0) ∧ s.shared.updateInt = 0 := by
  have hrun : UnlockedRun n k [] (start n) := .nil
  obtain ⟨tr, s, hrun, hloc, hx⟩ := Run.each (A := (· = .enter)) (B := (· = .head 0)) (Q := fun x => x.updateInt = 0) (by
    rintro t x l rfl hx
    exact ⟨{ x with lastUpdateInt := t }, .head 0, .step (.own .enter) .refl, rfl, hx⟩) hrun (fun _ => rfl) rfl
  exact ⟨s, ⟨tr, hrun⟩, hloc, hx⟩

theorem Reached.finish (h : Reached n k s) (hi : Idle k Finset.univ s) :
    ∃ s', Reached n k s' ∧ Joined s'.loc ∧
      s'.shared.updateInt = s.shared.updateInt + BitVec.ofNat 32 (left k Finset.univ s) := by
  obtain ⟨s', ⟨tr, hrun⟩, hi', hleft, hx, -⟩ := h.turns hi (Nat.le_refl _)
  have hnone : left k Finset.univ s' = 0 := by omega
  have hdone : ∀ t, ∃ i, k ≤ i ∧ s'.loc t = .head i := by
    intro t
    obtain ⟨i, -, hhead⟩ := hi' t (Finset.mem_univ t)
    have hzero : k - (s'.loc t).turns k = 0 := Finset.sum_eq_zero_iff.1 hnone t (Finset.mem_univ t)
    rw [hhead] at hzero
    exact ⟨i, Nat.le_of_sub_eq_zero hzero, hhead⟩
  obtain ⟨tr', s'', hrun', hloc, hx'⟩ := Run.each (A := fun l => ∃ i, k ≤ i ∧ l = .head i) (B := (· = .ended))
    (Q := fun x => x.updateInt = s'.shared.updateInt) (by
      intro t x l h hxs
      obtain ⟨i, hki, rfl⟩ := h
      exact ⟨x, .ended, .step (.own (.exit hki)) .refl, rfl, hxs⟩) hrun hdone rfl
  exact ⟨s'', ⟨tr', hrun'⟩, hloc, hx'.trans hx⟩

theorem left_ready (h : ∀ t, s.loc t = .head 0) (S : Finset (Fin n)) : left k S s = S.card * k := by
  rw [left, Finset.sum_congr rfl fun t _ => by rw [h t]]
  simp [ThreadPc.turns]

theorem Idle.ready (h : ∀ t, s.loc t = .head 0) (S : Finset (Fin n)) : Idle k S s := fun t _ => ⟨0, Nat.zero_le k, h t⟩

/-- One load early and one store late: the counter ends at `k` or anything above. -/
theorem outcome_above {v : Nat} (hk : 0 < k) (t : Fin n) (hkv : k ≤ v) (hv : v ≤ k * n) :
    ∃ s, Reached n k s ∧ Joined s.loc ∧ s.shared.updateInt = BitVec.ofNat 32 v := by
  obtain ⟨s, hr, hhead, hx⟩ := ready (n := n) (k := k)
  have hall : left k Finset.univ s = n * k := by rw [left_ready hhead, Finset.card_univ, Fintype.card_fin]
  have hmine : k - (s.loc t).turns k = k := by rw [hhead t, ThreadPc.turns, Nat.sub_zero]
  have hsplit := left_eq_add (k := k) s t
  rw [Nat.mul_comm] at hv
  obtain ⟨s', hr', hi', -, hleft, hx'⟩ := hr.overlap (t := t) (j := n * k - v) (Idle.ready hhead _) (by omega) (by omega)
  obtain ⟨s'', hr'', hjoined, hx''⟩ := hr'.finish hi'
  refine ⟨s'', hr'', hjoined, ?_⟩
  calc s''.shared.updateInt = 0 + 1 + BitVec.ofNat 32 (left k Finset.univ s') := by rw [hx'', hx', hx]
    _ = BitVec.ofNat 32 (1 + left k Finset.univ s') := by simp [BitVec.ofNat_add]
    _ = BitVec.ofNat 32 v := by rw [show 1 + left k Finset.univ s' = v by omega]

/-- One thread stores over all the turns of the others but one, and that one
over all that the first has done since. -/
theorem outcome_below {v : Nat} (hn : 2 ≤ n) (hv : 2 ≤ v) (hvk : v ≤ k) :
    ∃ s, Reached n k s ∧ Joined s.loc ∧ s.shared.updateInt = BitVec.ofNat 32 v := by
  obtain ⟨s, hr, hhead, hx⟩ := ready (n := n) (k := k)
  let a : Fin n := ⟨0, by omega⟩
  have hmine : k - (s.loc a).turns k = k := by rw [hhead a, ThreadPc.turns, Nat.sub_zero]
  have hothers : left k (Finset.univ.erase a) s = (n - 1) * k := by
    rw [left_ready hhead, Finset.card_erase_of_mem (Finset.mem_univ a), Finset.card_univ, Fintype.card_fin]
  have hmany : k ≤ (n - 1) * k := Nat.le_mul_of_pos_left k (by omega)
  have hsplit := left_eq_add (k := k) s a
  -- `a` loads nought, and only one turn is left to the others when it stores
  obtain ⟨s₁, hr₁, hi₁, hone, hleft₁, hx₁⟩ :=
    hr.overlap (t := a) (j := (n - 1) * k - 1) (Idle.ready hhead _) (by omega) (by omega)
  have hone' : left k (Finset.univ.erase a) s₁ = 1 := by omega
  obtain ⟨b, hb, hlast⟩ := Finset.exists_ne_zero_of_sum_ne_zero (Nat.ne_of_gt (hone' ▸ Nat.one_pos))
  have hb1 : k - (s₁.loc b).turns k ≤ 1 := hone' ▸
    Finset.single_le_sum (f := fun t => k - (s₁.loc t).turns k) (fun _ _ => Nat.zero_le _) hb
  have hsplit₁ := left_eq_add (k := k) s₁ b
  -- `a` counts up to what `b` is going to load
  obtain ⟨s₂, hr₂, hi₂, hleft₂, hx₂, hloc⟩ :=
    hr₁.turns (hi₁.mono (Finset.erase_subset b _)) (j := v - 2) (by omega)
  have hstill := hloc b (Finset.notMem_erase b _)
  have hi₂' : Idle k Finset.univ s₂ := by
    intro t _
    by_cases ht : t = b
    · rw [ht, hstill]
      exact hi₁ b (Finset.mem_univ b)
    · exact hi₂ t (Finset.mem_erase.2 ⟨ht, Finset.mem_univ t⟩)
  have hsplit₂ := left_eq_add (k := k) s₂ b
  rw [hstill] at hsplit₂
  -- and makes all its other turns before `b` stores
  obtain ⟨s₃, hr₃, hi₃, -, hleft₃, hx₃⟩ := hr₂.overlap (t := b) hi₂' (by rwa [hstill]) (Nat.le_refl _)
  obtain ⟨s', hr', hjoined, hx'⟩ := hr₃.finish hi₃
  refine ⟨s', hr', hjoined, ?_⟩
  calc s'.shared.updateInt = 0 + 1 + BitVec.ofNat 32 (v - 2) + 1 + BitVec.ofNat 32 (left k Finset.univ s₃) := by
        rw [hx', hx₃, hx₂, hx₁, hx]
    _ = BitVec.ofNat 32 (1 + (v - 2) + 1 + left k Finset.univ s₃) := by simp [BitVec.ofNat_add]
    _ = BitVec.ofNat 32 v := by rw [show 1 + (v - 2) + 1 + left k Finset.univ s₃ = v by omega]

/-- **The race without `WITH_LOCK`**: what two or more threads can end with. -/
theorem unlocked_outcomes (hn : 2 ≤ n) (hk : k * n < 2 ^ 31) (c : BitVec 32) :
    (∃ tr s, UnlockedRun n k tr s ∧ Joined s.loc ∧ s.shared.updateInt = c) ↔ min 2 k ≤ c.toNat ∧ c.toNat ≤ k * n := by
  constructor
  · intro h
    obtain ⟨tr, s, h, hj, rfl⟩ := h
    exact h.bounds hk (by omega) hj
  · intro h
    obtain ⟨hmin, hmax⟩ := h
    have hc : BitVec.ofNat 32 c.toNat = c := by simp
    obtain ⟨s, ⟨tr, hrun⟩, hj, hx⟩ : ∃ s, Reached n k s ∧ Joined s.loc ∧ s.shared.updateInt = BitVec.ofNat 32 c.toNat := by
      rcases Nat.eq_zero_or_pos k with rfl | hpos
      · obtain ⟨s, hr, hhead, hx⟩ := ready (n := n) (k := 0)
        obtain ⟨s', hr', hj, hx'⟩ := hr.finish (Idle.ready hhead _)
        refine ⟨s', hr', hj, ?_⟩
        rw [hx', hx, left_ready hhead, show c.toNat = 0 by omega]
        rfl
      · rcases Nat.le_total k c.toNat with hle | hle
        · exact outcome_above hpos ⟨0, by omega⟩ hle hmax
        · rcases Nat.lt_or_ge 1 k with hone | hone
          · exact outcome_below hn (by omega) hle
          · exact outcome_above hpos ⟨0, by omega⟩ (by omega) hmax
    exact ⟨tr, s, hrun, hj, hx.trans hc⟩

/-- Two threads of a thousand turns each, and a counter of two. -/
theorem unlocked_outcomes_sample :
    ∃ tr s, UnlockedRun 2 1000 tr s ∧ Joined s.loc ∧ s.shared.updateInt = 2 ∧ passed 2 1000 s.shared.updateInt = false := by
  obtain ⟨tr, s, hrun, hj, hx⟩ := (unlocked_outcomes (n := 2) (k := 1000) (by simp) (by simp) 2).2 (by simp)
  exact ⟨tr, s, hrun, hj, hx, by rw [hx]; rfl⟩

end SugarNSpice.TestIntUpdate
