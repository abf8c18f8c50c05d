/-
When `wakeup_test` can come to its end.

A thread cancelled in its wait ends with the mutex, and none of the others gets
past its own wait after that. So `main` can join them all if at most one is
left for the cancellation to find there, and then only after the others have
gone on (`ends_iff`). That is decided by the broadcast, which wakes the threads
that are waiting by then and no others.
-/
import SugarNSpice.WakeupTest
import SugarNSpice.RunLength
import Mathlib.Algebra.BigOperators.Fin

namespace SugarNSpice.WakeupTest

open Processes

variable {n secs : Nat} {spurious : Bool} {w w' : World n}

def MainPc.made (n : Nat) : MainPc → Nat
  | .create i => i
  | _ => n

def MainPc.asked (n : Nat) : MainPc → Nat
  | .cancel i | .undefined i => i
  | .join _ | .ended => n
  | _ => 0

def MainPc.joined (n : Nat) : MainPc → Nat
  | .join i => i
  | .ended => n
  | _ => 0

/-- What holds in every state reached. -/
structure Inv (w : World n) : Prop where
  unborn : ∀ t, w.thread t = .unborn ↔ w.main.made n ≤ t
  cancelled : ∀ t, t ∈ w.cancelled ↔ t.val < w.main.asked n
  valid : ∀ t, t.val < w.main.asked n → w.thread t ≠ .failed
  undefined : ∀ i, w.main = .undefined i → ∃ t, w.thread t = .failed
  joined : ∀ t, t.val < w.main.joined n → w.thread t = .ended
  quits : ∀ t, w.thread t = .quitting ∨ w.thread t = .ended → t ∈ w.cancelled
  inside : ∀ t, w.thread t = .wait ∨ w.thread t = .unlock → w.mutex = some t
  owner : ∀ t, w.mutex = some t → w.thread t = .wait ∨ w.thread t = .unlock ∨ w.thread t = .ended

theorem inv_start (n : Nat) : Inv (start n) := by
  constructor <;> simp [start, MainPc.made, MainPc.asked, MainPc.joined]

/-- Places a thread has been created for and has not ended in. -/
def ThreadPc.Alive (k : ThreadPc) : Prop := k ≠ .unborn ∧ k ≠ .failed ∧ k ≠ .ended

theorem goes_self (w : World n) (t : Fin n) (k : ThreadPc) : (w.goes t k).thread t = k := Function.update_self ..

theorem goes_other {t u : Fin n} (hu : u ≠ t) (w : World n) (k : ThreadPc) : (w.goes t k).thread u = w.thread u :=
  Function.update_of_ne hu ..

theorem Inv.goes {t : Fin n} {k : ThreadPc} {m : Option (Fin n)} (hi : Inv w) (ht : (w.thread t).Alive)
    (hk : k ≠ .unborn ∧ k ≠ .failed) (hquits : k = .quitting ∨ k = .ended → t ∈ w.cancelled)
    (hin : k = .wait ∨ k = .unlock → m = some t) (hown : m = some t → k = .wait ∨ k = .unlock ∨ k = .ended)
    (hothers : ∀ u, u ≠ t → (m = some u ↔ w.mutex = some u)) : Inv { w.goes t k with mutex := m } := by
  obtain ⟨hunborn, hfailed, hended⟩ := ht
  constructor
  · refine (Function.forall_update_iff w.thread fun u k => k = .unborn ↔ w.main.made n ≤ u).2 ⟨?_, fun u _ => hi.unborn u⟩
    exact ⟨fun h => absurd h hk.1, fun h => absurd ((hi.unborn t).2 h) hunborn⟩
  · exact hi.cancelled
  · exact (Function.forall_update_iff w.thread fun u k => u.val < w.main.asked n → k ≠ .failed).2
      ⟨fun _ => hk.2, fun u _ => hi.valid u⟩
  · intro i hmain
    obtain ⟨u, hu⟩ := hi.undefined i hmain
    refine ⟨u, (goes_other ?_ w k).trans hu⟩
    rintro rfl
    exact hfailed hu
  · exact (Function.forall_update_iff w.thread fun u k => u.val < w.main.joined n → k = .ended).2
      ⟨fun h => absurd (hi.joined t h) hended, fun u _ => hi.joined u⟩
  · exact (Function.forall_update_iff w.thread fun u k => k = .quitting ∨ k = .ended → u ∈ w.cancelled).2
      ⟨hquits, fun u _ => hi.quits u⟩
  · exact (Function.forall_update_iff w.thread fun u k => k = .wait ∨ k = .unlock → m = some u).2
      ⟨hin, fun u hu h => (hothers u hu).2 (hi.inside u h)⟩
  · exact (Function.forall_update_iff w.thread fun u k => m = some u → k = .wait ∨ k = .unlock ∨ k = .ended).2
      ⟨hown, fun u hu h => hi.owner u ((hothers u hu).1 h)⟩

theorem Inv.thread {t : Fin n} (hi : Inv w) (h : myThreadRoutine spurious t w w') : Inv w' := by
  have hfree : w.mutex = none → ∀ u, u ≠ t → (some t = some u ↔ w.mutex = some u) := by
    intro hm u hu
    simp [hm, Ne.symm hu]
  have hrelease : w.thread t = .wait ∨ w.thread t = .unlock → ∀ u, u ≠ t →
      ((none : Option (Fin n)) = some u ↔ w.mutex = some u) := by
    intro hin u hu
    simp [hi.inside t hin, Ne.symm hu]
  -- the steps that leave the mutex alone are those of a thread that has not got it
  have hidle : ∀ k, (w.thread t).Alive → w.thread t ≠ .wait → w.thread t ≠ .unlock → k ≠ .unborn ∧ k ≠ .failed →
      (k = .quitting ∨ k = .ended → t ∈ w.cancelled) → k ≠ .wait ∧ k ≠ .unlock → Inv (w.goes t k) := by
    intro k halive hwait hunlock hk hquits hin
    refine hi.goes halive hk hquits (fun h => ?_) (fun hm => ?_) fun u _ => .rfl
    · rcases h with h | h
      · exact absurd h hin.1
      · exact absurd h hin.2
    · rcases hi.owner t hm with h | h | h
      · exact absurd h hwait
      · exact absurd h hunlock
      · exact absurd h halive.2.2
  cases h with
  | lock hl hm => exact hi.goes (by simp [hl, ThreadPc.Alive]) (by simp) (by simp) (by simp) (by simp) (hfree hm)
  | wait hl =>
    exact hi.goes (by simp [hl, ThreadPc.Alive]) (by simp) (by simp) (by simp) (by simp) (hrelease (.inl hl))
  | spurious _ hl =>
    exact hidle _ (by simp [hl, ThreadPc.Alive]) (by simp [hl]) (by simp [hl]) (by simp) (by simp) (by simp)
  | cancelled hl hc =>
    exact hidle _ (by simp [hl, ThreadPc.Alive]) (by simp [hl]) (by simp [hl]) (by simp) (fun _ => hc) (by simp)
  | relock hl hm => exact hi.goes (by simp [hl, ThreadPc.Alive]) (by simp) (by simp) (by simp) (by simp) (hfree hm)
  | quit hl hm =>
    exact hi.goes (by simp [hl, ThreadPc.Alive]) (by simp) (fun _ => hi.quits t (.inl hl)) (by simp) (by simp)
      (hfree hm)
  | unlock hl =>
    exact hi.goes (by simp [hl, ThreadPc.Alive]) (by simp) (by simp) (by simp) (by simp) (hrelease (.inr hl))
  | testcancel hl hc =>
    exact hidle _ (by simp [hl, ThreadPc.Alive]) (by simp [hl]) (by simp [hl]) (by simp) (fun _ => hc) (by simp)
  | goOn hl _ =>
    exact hidle _ (by simp [hl, ThreadPc.Alive]) (by simp [hl]) (by simp [hl]) (by simp) (by simp) (by simp)
  | printf hl =>
    exact hidle _ (by simp [hl, ThreadPc.Alive]) (by simp [hl]) (by simp [hl]) (by simp) (by simp) (by simp)
  | printfCancelled hl hc =>
    exact hidle _ (by simp [hl, ThreadPc.Alive]) (by simp [hl]) (by simp [hl]) (by simp) (fun _ => hc) (by simp)

theorem Inv.moves {m : MainPc} (hi : Inv w) (hmade : ∀ t : Fin n, m.made n ≤ t ↔ w.main.made n ≤ t)
    (hasked : ∀ t : Fin n, t.val < m.asked n ↔ t.val < w.main.asked n)
    (hundefined : ∀ i, m = .undefined i → ∃ t, w.thread t = .failed)
    (hjoined : ∀ t : Fin n, t.val < m.joined n → w.thread t = .ended) (a r : Bool) :
    Inv { w with main := m, alarm := a, canRun := r } where
  unborn t := (hi.unborn t).trans (hmade t).symm
  cancelled t := (hi.cancelled t).trans (hasked t).symm
  valid t ht := hi.valid t ((hasked t).1 ht)
  undefined := hundefined
  joined := hjoined
  quits := hi.quits
  inside := hi.inside
  owner := hi.owner

theorem Inv.create {i : Nat} {k : ThreadPc} (hi : Inv w) (h : i < n) (hmain : w.main = .create i)
    (hk : k = .lock ∨ k = .failed) : Inv { w.goes ⟨i, h⟩ k with main := .create (i + 1) } := by
  have hone : w.thread ⟨i, h⟩ = .unborn := (hi.unborn _).2 (by simp [hmain, MainPc.made])
  have hcancelled : ∀ t, t ∉ w.cancelled := by
    intro t ht
    have := (hi.cancelled t).1 ht
    simp [hmain, MainPc.asked] at this
  have hplaces : k ≠ .unborn ∧ k ≠ .quitting ∧ k ≠ .ended ∧ k ≠ .wait ∧ k ≠ .unlock := by
    rcases hk with rfl | rfl <;> simp
  obtain ⟨hunborn, hquitting, hended, hwait, hunlock⟩ := hplaces
  constructor
  · refine (Function.forall_update_iff w.thread fun u k => k = .unborn ↔ i + 1 ≤ u).2 ⟨by simp [hunborn], ?_⟩
    intro u hu
    have hne : u.val ≠ i := fun heq => hu (Fin.ext heq)
    rw [hi.unborn u, hmain, MainPc.made]
    omega
  · intro t
    simpa [MainPc.asked] using hcancelled t
  · simp [MainPc.asked]
  · simp
  · simp [MainPc.joined]
  · refine (Function.forall_update_iff w.thread fun u k => k = .quitting ∨ k = .ended → u ∈ w.cancelled).2
      ⟨by simp [hquitting, hended], fun u _ => hi.quits u⟩
  · exact (Function.forall_update_iff w.thread fun u k => k = .wait ∨ k = .unlock → w.mutex = some u).2
      ⟨by simp [hwait, hunlock], fun u _ => hi.inside u⟩
  · refine (Function.forall_update_iff w.thread fun u k => w.mutex = some u → k = .wait ∨ k = .unlock ∨ k = .ended).2
      ⟨fun hm => ?_, fun u _ => hi.owner u⟩
    have := hi.owner _ hm
    simp [hone] at this

theorem woken_thread_eq (w : World n) (t : Fin n) {k : ThreadPc} (h1 : k ≠ .waiting) (h2 : k ≠ .woken) :
    w.woken.thread t = k ↔ w.thread t = k := by
  by_cases ht : w.thread t = .waiting
  · simp [World.woken, ht, Ne.symm h1, Ne.symm h2]
  · simp [World.woken, ht]

theorem Inv.broadcast (hi : Inv w) (hmain : w.main = .broadcast) : Inv { w.woken with main := .setRun } := by
  have hsame := fun t k => @woken_thread_eq n w t k
  constructor <;> simp only [hsame, MainPc.made, MainPc.asked, MainPc.joined, ne_eq, reduceCtorEq, not_false_eq_true,
    not_lt_zero, false_implies, implies_true]
  · simpa [hmain, MainPc.made] using hi.unborn
  · simpa [hmain, MainPc.asked, World.woken] using hi.cancelled
  · exact hi.quits
  · exact hi.inside
  · exact hi.owner

theorem Inv.main (hi : Inv w) (h : mainStep secs w w') : Inv w' := by
  cases h with
  | created h hmain => exact hi.create h hmain (.inl rfl)
  | createFailed h hmain => exact hi.create h hmain (.inr rfl)
  | createEnd hmain h =>
    refine hi.moves (fun t => ?_) (by simp [hmain, MainPc.asked]) (by simp) (by simp [MainPc.joined]) _ _
    simp only [hmain, MainPc.made]
    omega
  | alarm hmain =>
    exact hi.moves (by simp [hmain, MainPc.made]) (by simp [hmain, MainPc.asked]) (by simp) (by simp [MainPc.joined]) _ _
  | broadcast hmain => exact hi.broadcast hmain
  | setRun hmain =>
    exact hi.moves (by simp [hmain, MainPc.made]) (by simp [hmain, MainPc.asked]) (by simp) (by simp [MainPc.joined]) _ _
  | loop => exact hi
  | loopEnd hmain =>
    exact hi.moves (by simp [hmain, MainPc.made]) (by simp [hmain, MainPc.asked]) (by simp) (by simp [MainPc.joined]) _ _
  | @cancel i h hmain hvalid =>
    have hlt : ∀ t : Fin n, t.val < i + 1 ↔ t = ⟨i, h⟩ ∨ t.val < i := by
      intro t
      rw [Fin.ext_iff]
      simp only
      omega
    constructor
    · simpa [hmain, MainPc.made] using hi.unborn
    · intro t
      simp [MainPc.asked, hlt, hi.cancelled, hmain]
    · intro t ht
      rcases (hlt t).1 ht with rfl | ht
      · exact hvalid
      · exact hi.valid t (by rwa [hmain])
    · simp
    · simp [MainPc.joined]
    · exact fun t ht => Finset.mem_insert_of_mem (hi.quits t ht)
    · exact hi.inside
    · exact hi.owner
  | cancelUnset h hmain hfailed =>
    exact hi.moves (by simp [hmain, MainPc.made]) (by simp [hmain, MainPc.asked]) (fun _ _ => ⟨_, hfailed⟩)
      (by simp [MainPc.joined]) _ _
  | cancelEnd hmain h =>
    refine hi.moves (by simp [hmain, MainPc.made]) (fun t => ?_) (by simp) (by simp [MainPc.joined]) _ _
    simp only [hmain, MainPc.asked]
    omega
  | @join i h hmain hended =>
    refine hi.moves (by simp [hmain, MainPc.made]) (by simp [hmain, MainPc.asked]) (by simp) (fun t ht => ?_) _ _
    by_cases heq : t.val = i
    · obtain rfl : t = ⟨i, h⟩ := Fin.ext heq
      exact hended
    · refine hi.joined t ?_
      simp only [hmain, MainPc.joined] at ht ⊢
      omega
  | joinEnd hmain h =>
    refine hi.moves (by simp [hmain, MainPc.made]) (by simp [hmain, MainPc.asked]) (by simp) (fun t _ => ?_) _ _
    refine hi.joined t ?_
    simp only [hmain, MainPc.joined]
    omega

theorem Inv.step (hi : Inv w) (h : Step secs spurious w w') : Inv w' := by
  cases h with
  | main h => exact hi.main h
  | thread t h => exact hi.thread h
  | sigAlrm => exact hi.moves (fun _ => .rfl) (fun _ => .rfl) hi.undefined hi.joined _ _

theorem Runs.inv (h : Runs secs spurious w w') (hi : Inv w) : Inv w' := by
  induction h with
  | refl => exact hi
  | tail _ hstep ih => exact ih.step hstep

/-! ## What is lost stays lost -/

theorem goes_thread_eq {t u : Fin n} {k k' : ThreadPc} (hk : w.thread t ≠ k') (hu : w.thread u = k') :
    (w.goes t k).thread u = k' := by
  rw [goes_other, hu]
  rintro rfl
  exact hk hu

/-- A thread that has ended with the mutex keeps it. -/
theorem abandoned_thread {t u : Fin n} (hi : Inv w) (h : myThreadRoutine spurious t w w') (hu : w.thread u = .ended)
    (hm : w.mutex = some u) : w'.thread u = .ended ∧ w'.mutex = some u := by
  have hinside : w.thread t = .wait ∨ w.thread t = .unlock → False := by
    intro hin
    have htu := (hi.inside t hin).symm.trans hm
    obtain rfl : t = u := Option.some.inj htu
    simp [hu] at hin
  cases h with
  | lock _ hnone => simp [hnone] at hm
  | wait hl => exact (hinside (.inl hl)).elim
  | spurious _ hl => exact ⟨goes_thread_eq (by simp [hl]) hu, hm⟩
  | cancelled hl => exact ⟨goes_thread_eq (by simp [hl]) hu, hm⟩
  | relock _ hnone => simp [hnone] at hm
  | quit _ hnone => simp [hnone] at hm
  | unlock hl => exact (hinside (.inr hl)).elim
  | testcancel hl => exact ⟨goes_thread_eq (by simp [hl]) hu, hm⟩
  | goOn hl => exact ⟨goes_thread_eq (by simp [hl]) hu, hm⟩
  | printf hl => exact ⟨goes_thread_eq (by simp [hl]) hu, hm⟩
  | printfCancelled hl => exact ⟨goes_thread_eq (by simp [hl]) hu, hm⟩

/-- And no thread gets past its wait without the mutex. -/
theorem past_thread {t u : Fin n} (hi : Inv w) (h : myThreadRoutine spurious t w w') {v : Fin n} (hm : w.mutex = some v)
    (hv : w.thread v = .ended) (hpast : (w'.thread u).Past) : (w.thread u).Past := by
  by_cases hu : u = t
  · subst hu
    have hinside : w.thread u = .wait ∨ w.thread u = .unlock → False := by
      intro hin
      have huv := (hi.inside u hin).symm.trans hm
      obtain rfl : u = v := Option.some.inj huv
      simp [hv] at hin
    cases h with
    | lock _ hnone => simp [hnone] at hm
    | wait hl => exact (hinside (.inl hl)).elim
    | spurious => simp [goes_self, ThreadPc.Past] at hpast
    | cancelled => simp [goes_self, ThreadPc.Past] at hpast
    | relock _ hnone => simp [hnone] at hm
    | quit _ hnone => simp [hnone] at hm
    | unlock hl => exact (hinside (.inr hl)).elim
    | testcancel hl => simp [hl, ThreadPc.Past]
    | goOn hl => simp [hl, ThreadPc.Past]
    | printf hl => simp [hl, ThreadPc.Past]
    | printfCancelled hl => simp [hl, ThreadPc.Past]
  · cases h <;> simpa [goes_other hu] using hpast

theorem lost_thread {t u : Fin n} (hi : Inv w) (h : myThreadRoutine spurious t w w') (hu : Lost spurious w u) :
    Lost spurious w' u := by
  rcases hu with hu | ⟨hu, hm⟩ | ⟨hsp, hmain, hu⟩
  · by_cases heq : u = t
    · subst heq
      cases h with
      | quit => exact .inr (.inl ⟨goes_self .., rfl⟩)
      | _ => simp_all
    · refine .inl ?_
      cases h <;> simpa [goes_other heq] using hu
  · exact .inr (.inl (abandoned_thread hi h hu hm))
  · by_cases heq : u = t
    · subst heq
      cases h with
      | lock => exact .inr (.inr ⟨hsp, hmain, .inr (.inl (goes_self ..))⟩)
      | wait => exact .inr (.inr ⟨hsp, hmain, .inr (.inr (goes_self ..))⟩)
      | spurious hyes => simp [hsp] at hyes
      | cancelled => exact .inl (goes_self ..)
      | _ => simp_all
    · refine .inr (.inr ⟨hsp, ?_, ?_⟩)
      · cases h <;> exact hmain
      · cases h <;> simpa [goes_other heq] using hu

theorem failed_thread {t u : Fin n} (h : myThreadRoutine spurious t w w') (hu : w.thread u = .failed) :
    w'.thread u = .failed := by
  cases h <;> exact goes_thread_eq (by simp_all) hu

theorem CanEnd.before_thread {t : Fin n} (hi : Inv w) (h : myThreadRoutine spurious t w w')
    (hend : CanEnd secs spurious w') : CanEnd secs spurious w where
  created u hu := hend.created u (failed_thread h hu)
  rings := by cases h <;> exact hend.rings
  lost u v hu hv := hend.lost u v (lost_thread hi h hu) (lost_thread hi h hv)
  past u v hu hm hv := by
    obtain ⟨hu', hm'⟩ := abandoned_thread hi h hu hm
    exact past_thread hi h hm hu (hend.past u v hu' hm' hv)

theorem CanEnd.before_moves {m : MainPc} {c : Finset (Fin n)} {a r : Bool}
    (hend : CanEnd secs spurious { w with main := m, cancelled := c, alarm := a, canRun := r })
    (hcast : w.main.hasBroadcast = true → m.hasBroadcast = true) (hrings : Rings secs w) : CanEnd secs spurious w where
  created := hend.created
  rings := hrings
  lost := by
    have hlost : ∀ t, Lost spurious w t → Lost spurious { w with main := m, cancelled := c, alarm := a, canRun := r } t :=
      fun t => Or.imp_right (Or.imp_right fun ⟨hsp, hmain, ht⟩ => ⟨hsp, hcast hmain, ht⟩)
    exact fun t u ht hu => hend.lost t u (hlost t ht) (hlost u hu)
  past := hend.past

theorem CanEnd.before_created {i : Nat} (h : i < n) (hi : Inv w) (hmain : w.main = .create i)
    (hend : CanEnd secs spurious { w.goes ⟨i, h⟩ .lock with main := .create (i + 1) }) : CanEnd secs spurious w := by
  have hone : w.thread ⟨i, h⟩ = .unborn := (hi.unborn _).2 (by simp [hmain, MainPc.made])
  have hsame : ∀ {u k}, w.thread u = k → k ≠ .unborn → (w.goes ⟨i, h⟩ .lock).thread u = k := by
    intro u k hu hk
    refine goes_thread_eq (fun heq => hk ?_) hu
    exact heq.symm.trans hone
  have hlost : ∀ u, Lost spurious w u → Lost spurious { w.goes ⟨i, h⟩ .lock with main := .create (i + 1) } u := by
    intro u h
    rcases h with hu | ⟨hu, hm⟩ | ⟨-, hcast, -⟩
    · exact .inl (hsame hu (by simp))
    · exact .inr (.inl ⟨hsame hu (by simp), hm⟩)
    · simp [hmain, MainPc.hasBroadcast] at hcast
  refine ⟨fun u hu => hend.created u (hsame hu (by simp)), ?_, fun u v hu hv => hend.lost u v (hlost u hu) (hlost v hv),
    fun u v hu hm hv => ?_⟩
  · have hrings := hend.rings
    simp only [Rings] at hrings
    simpa only [Rings, hmain] using hrings
  · have hpast := hend.past u v (hsame hu (by simp)) hm hv
    by_cases heq : v = ⟨i, h⟩
    · subst heq
      simp [goes_self, ThreadPc.Past] at hpast
    · simpa [goes_other heq] using hpast

theorem CanEnd.before_broadcast (hmain : w.main = .broadcast)
    (hend : CanEnd secs spurious { w.woken with main := .setRun }) : CanEnd secs spurious w := by
  have hsame := fun t k => @woken_thread_eq n w t k
  have hlost : ∀ u, Lost spurious w u → Lost spurious { w.woken with main := .setRun } u := by
    intro u h
    rcases h with hu | ⟨hu, hm⟩ | ⟨-, hcast, -⟩
    · exact .inl ((hsame u _ (by simp) (by simp)).2 hu)
    · exact .inr (.inl ⟨(hsame u _ (by simp) (by simp)).2 hu, hm⟩)
    · simp [hmain, MainPc.hasBroadcast] at hcast
  refine ⟨fun u hu => hend.created u ((hsame u _ (by simp) (by simp)).2 hu), ?_,
    fun u v hu hv => hend.lost u v (hlost u hu) (hlost v hv), fun u v hu hm hv => ?_⟩
  · have hrings := hend.rings
    simp only [Rings, World.woken] at hrings
    simpa only [Rings, hmain] using hrings
  · have hpast := hend.past u v ((hsame u _ (by simp) (by simp)).2 hu) hm hv
    by_cases hwait : w.thread v = .waiting
    · simp [World.woken, hwait, ThreadPc.Past] at hpast
    · simpa [World.woken, hwait] using hpast

theorem CanEnd.before_main (hi : Inv w) (h : mainStep secs w w') (hend : CanEnd secs spurious w') :
    CanEnd secs spurious w := by
  have hrings := hend.rings
  cases h with
  | created h hmain => exact hend.before_created h hi hmain
  | createFailed h hmain => exact absurd (goes_self ..) (hend.created ⟨_, h⟩)
  | createEnd hmain =>
    refine hend.before_moves (by simp [hmain, MainPc.hasBroadcast]) ?_
    simpa only [Rings, hmain] using hrings
  | alarm hmain =>
    refine hend.before_moves (by simp [hmain, MainPc.hasBroadcast]) ?_
    simpa [Rings, hmain] using hrings
  | broadcast hmain => exact hend.before_broadcast hmain
  | setRun hmain =>
    refine hend.before_moves (fun _ => rfl) ?_
    simpa [Rings, hmain] using hrings
  | loop => exact hend
  | loopEnd hmain hrun =>
    refine hend.before_moves (fun _ => rfl) ?_
    simp [Rings, hmain, hrun]
  | cancel h hmain => exact hend.before_moves (fun _ => rfl) (by simp [Rings, hmain])
  | cancelUnset h hmain hfailed => exact absurd hfailed (hend.created _)
  | cancelEnd hmain => exact hend.before_moves (fun _ => rfl) (by simp [Rings, hmain])
  | join h hmain => exact hend.before_moves (fun _ => rfl) (by simp [Rings, hmain])
  | joinEnd hmain => exact hend.before_moves (fun _ => rfl) (by simp [Rings, hmain])

/-- **No way back**: from a state where `main` cannot end, no step leads to one
where it can. -/
theorem CanEnd.before (hi : Inv w) (h : Step secs spurious w w') (hend : CanEnd secs spurious w') :
    CanEnd secs spurious w := by
  cases h with
  | main h => exact hend.before_main hi h
  | thread t h => exact hend.before_thread hi h
  | sigAlrm halarm =>
    refine hend.before_moves id ?_
    have hrings := hend.rings
    cases hmain : w.main <;> simp_all [Rings]

theorem canEnd_ended (hi : Inv w) (hmain : w.main = .ended) : CanEnd secs spurious w := by
  have hended : ∀ t, w.thread t = .ended := fun t => hi.joined t (by simp [hmain, MainPc.joined])
  refine ⟨fun t => by simp [hended], by simp [Rings, hmain], fun t u ht hu => ?_, fun t u _ _ _ => ?_⟩
  · have hm : ∀ t, Lost spurious w t → w.mutex = some t := by
      intro t ht
      simpa [Lost, hended] using ht
    exact Option.some.inj ((hm t ht).symm.trans (hm u hu))
  · simp [hended, ThreadPc.Past]

theorem Runs.canEnd (h : Runs secs spurious w w') (hi : Inv w) (hmain : w'.main = .ended) : CanEnd secs spurious w := by
  induction h using Relation.ReflTransGen.head_induction_on with
  | refl => exact canEnd_ended hi hmain
  | head hstep _ ih => exact (ih (hi.step hstep)).before hi hstep

/-! ## The way to the end -/

/-- How far a thread has to go. -/
def ThreadPc.rank : ThreadPc → Nat
  | .unborn => 9
  | .lock => 8
  | .wait => 7
  | .waiting => 6
  | .woken => 5
  | .quitting => 4
  | .unlock => 3
  | .printf => 2
  | .testcancel => 1
  | .failed | .ended => 0

/-- And `main`. -/
def MainPc.rank (n : Nat) : MainPc → Nat
  | .create i => (n - i) + 2 * n + 8
  | .alarm => 2 * n + 7
  | .broadcast => 2 * n + 5
  | .setRun => 2 * n + 4
  | .loop => 2 * n + 3
  | .cancel i => (n - i) + n + 2
  | .join i => (n - i) + 1
  | .ended | .undefined _ => 0

def World.measure (w : World n) : Nat := ∑ t, (w.thread t).rank + w.main.rank n + w.alarm.toNat

theorem measure_goes_lt {t : Fin n} {k : ThreadPc} (h : k.rank < (w.thread t).rank) (m : Option (Fin n)) :
    ({ w.goes t k with mutex := m } : World n).measure < w.measure := by
  have hsum := sum_update ThreadPc.rank w.thread t k
  simp only [World.measure, World.goes]
  omega

theorem measure_woken_le (w : World n) : ∑ t, (w.woken.thread t).rank ≤ ∑ t, (w.thread t).rank := by
  refine Finset.sum_le_sum fun t _ => ?_
  by_cases ht : w.thread t = .waiting
  · simp [World.woken, ht, ThreadPc.rank]
  · simp [World.woken, ht]

/-- A step from which `main` can still end, and nearer to it. -/
def Nearer (secs : Nat) (spurious : Bool) (w : World n) : Prop :=
  ∃ w', Step secs spurious w w' ∧ (Inv w' ∧ CanEnd secs spurious w') ∧ w'.measure < w.measure

/-- One thread goes on: nobody else is lost by it, and nobody is shut out. -/
theorem CanEnd.nearer {t : Fin n} {k : ThreadPc} {m : Option (Fin n)} (hend : CanEnd secs spurious w) (hi : Inv w)
    (hstep : myThreadRoutine spurious t w { w.goes t k with mutex := m }) (hrank : k.rank < (w.thread t).rank)
    (hfailed : k ≠ .failed) (hself : Lost spurious { w.goes t k with mutex := m } t → Lost spurious w t)
    (hothers : ∀ u, u ≠ t → m = some u → w.mutex = some u)
    (hpast : ∀ u v, (w.goes t k).thread u = .ended → m = some u → v ≠ u → ((w.goes t k).thread v).Past) :
    Nearer secs spurious w := by
  have hlost : ∀ u, Lost spurious { w.goes t k with mutex := m } u → Lost spurious w u := by
    intro u hu
    by_cases heq : u = t
    · subst heq
      exact hself hu
    · simp only [Lost, goes_other heq] at hu
      exact hu.imp_right (Or.imp_left fun ⟨h, hm⟩ => ⟨h, hothers u heq hm⟩)
  refine ⟨_, .thread t hstep, ⟨hi.thread hstep, ?_, hend.rings, ?_, hpast⟩, measure_goes_lt hrank m⟩
  · exact (Function.forall_update_iff w.thread fun _ k => k ≠ .failed).2 ⟨hfailed, fun u _ => hend.created u⟩
  · exact fun u v hu hv => hend.lost u v (hlost u hu) (hlost v hv)

theorem CanEnd.nearer_release {t : Fin n} (hend : CanEnd secs spurious w) (hi : Inv w)
    (ht : w.thread t = .wait ∨ w.thread t = .unlock) : Nearer secs spurious w := by
  have hnone : ∀ {P : Prop} {u : Fin n}, (none : Option (Fin n)) = some u → P := by
    intro P u h
    cases h
  rcases ht with ht | ht
  · refine hend.nearer hi (.wait ht) (by simp [ht, ThreadPc.rank]) (by simp) ?_ (fun u _ h => hnone h)
      fun u v _ h => hnone h
    intro h
    rcases h with h | ⟨h, -⟩ | ⟨hsp, hmain, -⟩
    · simp [goes_self] at h
    · simp [goes_self] at h
    · exact .inr (.inr ⟨hsp, hmain, .inr (.inl ht)⟩)
  · refine hend.nearer hi (.unlock ht) (by simp [ht, ThreadPc.rank]) (by simp) ?_ (fun u _ h => hnone h)
      fun u v _ h => hnone h
    intro h
    simp [Lost, goes_self] at h

/-- A thread takes the mutex, and is not about to end with it. -/
theorem CanEnd.nearer_take {t : Fin n} {k : ThreadPc} (hend : CanEnd secs spurious w) (hi : Inv w)
    (hstep : myThreadRoutine spurious t w { w.goes t k with mutex := some t }) (hrank : k.rank < (w.thread t).rank)
    (hfailed : k ≠ .failed) (hended : k ≠ .ended)
    (hself : Lost spurious { w.goes t k with mutex := some t } t → Lost spurious w t) : Nearer secs spurious w := by
  refine hend.nearer hi hstep hrank hfailed hself (fun u hu h => absurd (Option.some.inj h).symm hu) fun u v hu h _ => ?_
  obtain rfl := Option.some.inj h
  rw [goes_self] at hu
  exact absurd hu hended

/-- A thread goes on without the mutex, to where it is not past it yet. -/
theorem CanEnd.nearer_apart {t : Fin n} {k : ThreadPc} (hend : CanEnd secs spurious w) (hi : Inv w)
    (hstep : myThreadRoutine spurious t w (w.goes t k)) (hrank : k.rank < (w.thread t).rank) (hfailed : k ≠ .failed)
    (hself : Lost spurious (w.goes t k) t → Lost spurious w t) (ht : ¬ (w.thread t).Past) (hended : k ≠ .ended) :
    Nearer secs spurious w := by
  refine hend.nearer hi hstep hrank hfailed hself (fun u _ h => h) fun u v hu hm hv => ?_
  have hut : u ≠ t := by
    rintro rfl
    rw [goes_self] at hu
    exact hended hu
  rw [goes_other hut] at hu
  exact absurd (hend.past u t hu hm hut.symm) ht

theorem hasBroadcast_of_cancelled {t : Fin n} (hi : Inv w) (ht : t ∈ w.cancelled) : w.main.hasBroadcast = true := by
  have hasked := (hi.cancelled t).1 ht
  cases hmain : w.main <;> simp_all [MainPc.asked, MainPc.hasBroadcast]

/-- A thread that is not past its wait and has not been cancelled in it goes on,
or the owner of the mutex does. -/
theorem CanEnd.nearer_thread {t : Fin n} (hend : CanEnd secs spurious w) (hi : Inv w) (hpast : ¬ (w.thread t).Past)
    (hunborn : w.thread t ≠ .unborn) (hquit : w.thread t ≠ .quitting)
    (hwaiting : w.thread t = .waiting → t ∈ w.cancelled) : Nearer secs spurious w := by
  have howner : ∀ {u}, w.mutex = some u → Nearer secs spurious w := by
    intro u hm
    rcases hi.owner u hm with h | h | h
    · exact hend.nearer_release hi (.inl h)
    · exact hend.nearer_release hi (.inr h)
    · have htu : t ≠ u := by
        rintro rfl
        exact hpast (by simp [h, ThreadPc.Past])
      exact absurd (hend.past u t h hm htu) hpast
  cases ht : w.thread t with
  | unborn => exact absurd ht hunborn
  | failed => exact absurd ht (hend.created t)
  | lock =>
    cases hm : w.mutex with
    | some u => exact howner hm
    | none =>
      refine hend.nearer_take hi (.lock ht hm) (by simp [ht, ThreadPc.rank]) (by simp) (by simp) ?_
      intro h
      rcases h with h | ⟨h, -⟩ | ⟨hsp, hmain, -⟩
      · simp [goes_self] at h
      · simp [goes_self] at h
      · exact .inr (.inr ⟨hsp, hmain, .inl ht⟩)
  | wait => exact hend.nearer_release hi (.inl ht)
  | waiting =>
    cases hsp : spurious with
    | true =>
      subst hsp
      refine hend.nearer_apart hi (.spurious rfl ht) (by simp [ht, ThreadPc.rank]) (by simp) ?_ hpast (by simp)
      intro h
      simp [Lost, goes_self] at h
    | false =>
      subst hsp
      refine hend.nearer_apart hi (.cancelled ht (hwaiting ht)) (by simp [ht, ThreadPc.rank]) (by simp) ?_ hpast (by simp)
      intro _
      exact .inr (.inr ⟨rfl, hasBroadcast_of_cancelled hi (hwaiting ht), .inr (.inr ht)⟩)
  | woken =>
    cases hm : w.mutex with
    | some u => exact howner hm
    | none =>
      refine hend.nearer_take hi (.relock ht hm) (by simp [ht, ThreadPc.rank]) (by simp) (by simp) ?_
      intro h
      simp [Lost, goes_self] at h
  | quitting => exact absurd ht hquit
  | unlock => exact hend.nearer_release hi (.inr ht)
  | testcancel => simp [ht, ThreadPc.Past] at hpast
  | printf => simp [ht, ThreadPc.Past] at hpast
  | ended => simp [ht, ThreadPc.Past] at hpast

/-- The thread `main` is to join goes on, or one that has to go before it. -/
theorem CanEnd.nearer_join {t : Fin n} {i : Nat} (hend : CanEnd secs spurious w) (hi : Inv w) (hmain : w.main = .join i)
    (ht : w.thread t ≠ .ended) : Nearer secs spurious w := by
  have hcancelled : ∀ u, u ∈ w.cancelled := fun u => (hi.cancelled u).2 (by simp [hmain, MainPc.asked])
  have hunborn : ∀ u, w.thread u ≠ .unborn := by
    intro u hu
    have := (hi.unborn u).1 hu
    simp only [hmain, MainPc.made] at this
    omega
  have howner : w.thread t ≠ .wait → w.thread t ≠ .unlock → w.mutex ≠ some t := by
    intro h1 h2 hm
    rcases hi.owner t hm with h | h | h <;> contradiction
  cases hplace : w.thread t with
  | testcancel =>
    have hmutex := howner (by simp [hplace]) (by simp [hplace])
    refine hend.nearer hi (.testcancel hplace (hcancelled t)) (by simp [hplace, ThreadPc.rank]) (by simp) ?_
      (fun u _ h => h) fun u v hu hm hv => ?_
    · intro h
      simp [Lost, goes_self, hmutex] at h
    · have hut : u ≠ t := by
        rintro rfl
        exact hmutex hm
      rw [goes_other hut] at hu
      by_cases hvt : v = t
      · simp [hvt, goes_self, ThreadPc.Past]
      · rw [goes_other hvt]
        exact hend.past u v hu hm hv
  | printf =>
    refine hend.nearer hi (.printf hplace) (by simp [hplace, ThreadPc.rank]) (by simp) ?_
      (fun u _ h => h) fun u v hu hm hv => ?_
    · intro h
      simp [Lost, goes_self] at h
    · have hut : u ≠ t := by
        rintro rfl
        simp [goes_self] at hu
      rw [goes_other hut] at hu
      by_cases hvt : v = t
      · simp [hvt, goes_self, ThreadPc.Past]
      · rw [goes_other hvt]
        exact hend.past u v hu hm hv
  | quitting =>
    by_cases hothers : ∀ u, u ≠ t → (w.thread u).Past
    · have hm : w.mutex = none := by
        by_contra hm
        obtain ⟨u, hm⟩ := Option.ne_none_iff_exists'.1 hm
        have hut : u ≠ t := by
          rintro rfl
          exact howner (by simp [hplace]) (by simp [hplace]) hm
        rcases hi.owner u hm with h | h | h
        · simpa [h, ThreadPc.Past] using hothers u hut
        · simpa [h, ThreadPc.Past] using hothers u hut
        · simpa [hplace, ThreadPc.Past] using hend.past u t h hm hut.symm
      refine hend.nearer hi (.quit hplace hm) (by simp [hplace, ThreadPc.rank]) (by simp) (fun _ => .inl hplace)
        (fun u hu h => absurd (Option.some.inj h).symm hu) fun u v _ h hv => ?_
      obtain rfl := Option.some.inj h
      rw [goes_other hv]
      exact hothers v hv
    · -- it is the only one that is lost
      obtain ⟨u, hu, hpast⟩ : ∃ u, u ≠ t ∧ ¬ (w.thread u).Past := by simpa using hothers
      have hquit : w.thread u ≠ .quitting := fun h => hu (hend.lost u t (.inl h) (.inl hplace))
      exact hend.nearer_thread hi hpast (hunborn u) hquit fun _ => hcancelled u
  | ended => exact absurd hplace ht
  | _ => exact hend.nearer_thread hi (by simp [hplace, ThreadPc.Past]) (hunborn t) (by simp [hplace]) fun _ => hcancelled t

theorem CanEnd.nearer_main {m : MainPc} {c : Finset (Fin n)} {a r : Bool} (hend : CanEnd secs spurious w) (hi : Inv w)
    (hstep : Step secs spurious w { w with main := m, cancelled := c, alarm := a, canRun := r })
    (hcast : m.hasBroadcast = true → w.main.hasBroadcast = true)
    (hrings : Rings secs { w with main := m, cancelled := c, alarm := a, canRun := r })
    (hrank : m.rank n + a.toNat < w.main.rank n + w.alarm.toNat) : Nearer secs spurious w := by
  have hlost : ∀ t, Lost spurious { w with main := m, cancelled := c, alarm := a, canRun := r } t → Lost spurious w t :=
    fun t => Or.imp_right (Or.imp_right fun ⟨hsp, hmain, ht⟩ => ⟨hsp, hcast hmain, ht⟩)
  refine ⟨_, hstep, ⟨hi.step hstep, hend.created, hrings, ?_, hend.past⟩, ?_⟩
  · exact fun t u ht hu => hend.lost t u (hlost t ht) (hlost u hu)
  · simp only [World.measure]
    omega

/-- Before the broadcast no thread has been cancelled. -/
theorem Inv.calm (hi : Inv w) (hasked : w.main.asked n = 0) (t : Fin n) :
    w.thread t ≠ .quitting ∧ w.thread t ≠ .ended := by
  have hnot : t ∉ w.cancelled := by
    rw [hi.cancelled, hasked]
    omega
  exact ⟨fun h => hnot (hi.quits t (.inl h)), fun h => hnot (hi.quits t (.inr h))⟩

theorem CanEnd.nearer_create {i : Nat} (hend : CanEnd secs spurious w) (hi : Inv w) (hmain : w.main = .create i)
    (h : i < n) : Nearer secs spurious w := by
  have hone : w.thread ⟨i, h⟩ = .unborn := (hi.unborn _).2 (by simp [hmain, MainPc.made])
  have hstep : mainStep secs w { w.goes ⟨i, h⟩ .lock with main := .create (i + 1) } := .created h hmain
  have hcalm := (hi.main hstep).calm rfl
  refine ⟨_, .main hstep, ⟨hi.main hstep, ?_, ?_, ?_, ?_⟩, ?_⟩
  · exact (Function.forall_update_iff w.thread fun _ k => k ≠ .failed).2 ⟨by simp, fun u _ => hend.created u⟩
  · have hrings := hend.rings
    simp only [Rings, hmain] at hrings
    exact hrings
  · intro u v h
    rcases h with hu | ⟨hu, -⟩ | ⟨-, hcast, -⟩
    · exact absurd hu (hcalm u).1
    · exact absurd hu (hcalm u).2
    · simp [MainPc.hasBroadcast] at hcast
  · exact fun u v hu => absurd hu (hcalm u).2
  · have hsum := sum_update ThreadPc.rank w.thread ⟨i, h⟩ .lock
    rw [hone] at hsum
    simp only [World.measure, World.goes, hmain, MainPc.rank, ThreadPc.rank] at hsum ⊢
    omega

/-- The broadcast comes when every thread is waiting, or past it. -/
theorem CanEnd.nearer_broadcast (hend : CanEnd secs spurious w) (hi : Inv w) (hmain : w.main = .broadcast) :
    Nearer secs spurious w := by
  have hcalm := hi.calm (by simp [hmain, MainPc.asked])
  by_cases hlate : ∃ t, w.thread t = .lock ∨ w.thread t = .wait
  · obtain ⟨t, ht⟩ := hlate
    refine hend.nearer_thread hi (t := t) ?_ ?_ (hcalm t).1 ?_
    all_goals rcases ht with ht | ht <;> simp [ht, ThreadPc.Past]
  · have hsame := fun t k => @woken_thread_eq n w t k
    have hstep : mainStep secs w { w.woken with main := .setRun } := .broadcast hmain
    refine ⟨_, .main hstep, ⟨hi.main hstep, ?_, ?_, ?_, ?_⟩, ?_⟩
    · exact fun t ht => hend.created t ((hsame t _ (by simp) (by simp)).1 ht)
    · have hrings := hend.rings
      simp only [Rings, hmain] at hrings
      exact hrings
    · have hnobody : ∀ t, ¬ Lost spurious { w.woken with main := .setRun } t := by
        intro t h
        rcases h with ht | ⟨ht, -⟩ | ⟨-, -, ht | ht | ht⟩
        · exact (hcalm t).1 ((hsame t _ (by simp) (by simp)).1 ht)
        · exact (hcalm t).2 ((hsame t _ (by simp) (by simp)).1 ht)
        · exact hlate ⟨t, .inl ((hsame t _ (by simp) (by simp)).1 ht)⟩
        · exact hlate ⟨t, .inr ((hsame t _ (by simp) (by simp)).1 ht)⟩
        · by_cases hwait : w.thread t = .waiting <;> simp [World.woken, hwait] at ht
      exact fun t u ht => absurd ht (hnobody t)
    · exact fun t u ht => absurd ((hsame t _ (by simp) (by simp)).1 ht) (hcalm t).2
    · have hsum := measure_woken_le w
      simp only [World.measure, hmain, MainPc.rank]
      have halarm : w.woken.alarm = w.alarm := rfl
      rw [halarm]
      omega

theorem CanEnd.ended_or_nearer (hend : CanEnd secs spurious w) (hi : Inv w) :
    w.main = .ended ∨ Nearer secs spurious w := by
  have hrings := hend.rings
  cases hmain : w.main with
  | create i =>
    right
    by_cases h : i < n
    · exact hend.nearer_create hi hmain h
    · refine hend.nearer_main hi (.main (.createEnd hmain h)) (by simp [MainPc.hasBroadcast]) ?_ ?_
      · simpa only [Rings, hmain] using hrings
      · simp only [hmain, MainPc.rank]
        omega
  | alarm =>
    right
    refine hend.nearer_main hi (.main (.alarm hmain)) (by simp [MainPc.hasBroadcast]) ?_ ?_
    · simpa [Rings, hmain] using hrings
    · have := Bool.toNat_le (secs != 0)
      simp only [hmain, MainPc.rank]
      omega
  | broadcast => exact .inr (hend.nearer_broadcast hi hmain)
  | setRun =>
    right
    refine hend.nearer_main hi (.main (.setRun hmain)) (by simp [hmain, MainPc.hasBroadcast]) ?_ ?_
    · simpa [Rings, hmain] using hrings
    · simp [hmain, MainPc.rank]
  | loop =>
    right
    cases hrun : w.canRun with
    | true =>
      have halarm : w.alarm = true := by simpa [Rings, hmain, hrun] using hrings
      refine hend.nearer_main hi (.sigAlrm halarm) id ?_ (by simp [halarm])
      simp [Rings, hmain]
    | false =>
      refine hend.nearer_main hi (.main (.loopEnd hmain hrun)) (by simp [hmain, MainPc.hasBroadcast]) (by simp [Rings]) ?_
      simp only [hmain, MainPc.rank]
      omega
  | cancel i =>
    right
    by_cases h : i < n
    · refine hend.nearer_main hi (.main (.cancel h hmain (hend.created _))) (by simp [hmain, MainPc.hasBroadcast])
        (by simp [Rings]) ?_
      simp only [hmain, MainPc.rank]
      omega
    · refine hend.nearer_main hi (.main (.cancelEnd hmain h)) (by simp [hmain, MainPc.hasBroadcast]) (by simp [Rings]) ?_
      simp only [hmain, MainPc.rank]
      omega
  | join i =>
    right
    by_cases h : i < n
    · by_cases ht : w.thread ⟨i, h⟩ = .ended
      · refine hend.nearer_main hi (.main (.join h hmain ht)) (by simp [hmain, MainPc.hasBroadcast]) (by simp [Rings]) ?_
        simp only [hmain, MainPc.rank]
        omega
      · exact hend.nearer_join hi hmain ht
    · refine hend.nearer_main hi (.main (.joinEnd hmain h)) (by simp [hmain, MainPc.hasBroadcast]) (by simp [Rings]) ?_
      simp only [hmain, MainPc.rank]
      omega
  | ended => exact .inl rfl
  | undefined i =>
    obtain ⟨t, ht⟩ := hi.undefined i hmain
    exact absurd ht (hend.created t)

/-- **When `main` can come to its end**, in any state of any run: all threads
have been created, the alarm comes after `main_can_run` is set, and the
cancellation finds at most one thread in its wait, with the mutex to be had for
the others before it ends with it. -/
theorem ends_iff (h : Runs secs spurious (start n) w) :
    (∃ w', Runs secs spurious w w' ∧ w'.main = .ended) ↔ CanEnd secs spurious w := by
  have hi := h.inv (inv_start n)
  constructor
  · intro h
    obtain ⟨w', hruns, hmain⟩ := h
    exact hruns.canEnd hi hmain
  · intro hend
    have hnearer : ∀ w : World n, Inv w ∧ CanEnd secs spurious w → w.main = .ended ∨ Nearer secs spurious w :=
      fun w hw => hw.2.ended_or_nearer hw.1
    exact exists_final_of_falls World.measure hnearer ⟨hi, hend⟩

/-- Two threads, and a system where waits do not end by themselves: `main` can
end, but not any more once it has made the broadcast before the first of them
has taken the mutex. -/
theorem ends_iff_sample : (∃ w', Runs 5 false (start 2) w' ∧ w'.main = .ended) ∧
    ∃ w : World 2, Runs 5 false (start 2) w ∧ ¬ ∃ w', Runs 5 false w w' ∧ w'.main = .ended := by
  refine ⟨(ends_iff .refl).2 ?_, ?_⟩
  · refine ⟨by simp [start], by simp [start, Rings], ?_, by simp [start]⟩
    rintro t u (ht | ⟨ht, -⟩ | ⟨-, ht, -⟩) <;> simp [start, MainPc.hasBroadcast] at ht
  · have hfirst : Runs 5 false (start 2) { (start 2).goes 0 .lock with main := .create 1 } :=
      .single (.main (.created (by simp) rfl))
    have hcreated := hfirst.tail (.main (.created (i := 1) (by simp) rfl))
    have hcast := ((hcreated.tail (.main (.createEnd rfl (by simp)))).tail (.main (.alarm rfl))).tail
      (.main (.broadcast rfl))
    refine ⟨_, hcast, fun h => ?_⟩
    have hlost := ((ends_iff hcast).1 h).lost 0 1 ?_ ?_
    · simp at hlost
    · exact .inr (.inr ⟨rfl, rfl, .inl rfl⟩)
    · exact .inr (.inr ⟨rfl, rfl, .inl rfl⟩)

end SugarNSpice.WakeupTest
