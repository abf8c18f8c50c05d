/-
How long runs go on, for processes that each come nearer to their end with
every step of their own.

A rank tells how far a process has to go, by its own place. If it falls with
each of the process's steps, a run has no more steps than the ranks add up to
at the start (`Steps.bounded`); if moreover no state but a final one is
without a next step, every run can be brought to a final state
(`Run.reaches_end`), and one that goes on as long as it can ends in one.
`Run.each` takes the processes to their places one after the other. Where only
some steps come nearer, `exists_final_of_falls` is for those that do.
-/
import SugarNSpice.Processes
import Mathlib.Logic.Relation
import Mathlib.Algebra.BigOperators.Group.Finset.Basic
import Mathlib.Algebra.Order.BigOperators.Group.Finset
import Mathlib.Data.Fintype.Basic

namespace Processes

variable {P σ τ ε : Type} [DecidableEq P]

/-- One step of some process. -/
def Follows (prog : Program P σ τ ε) (s s' : State P σ τ) : Prop :=
  ∃ p e sh l, prog p s.shared (s.loc p) e sh l ∧ s' = s.move p sh l

/-- A run of `k` steps. -/
inductive Steps (prog : Program P σ τ ε) (init : State P σ τ) : Nat → State P σ τ → Prop
  | zero : Steps prog init 0 init
  | succ {k : Nat} {s s' : State P σ τ} (before : Steps prog init k s) (last : Follows prog s s') :
      Steps prog init (k + 1) s'

variable {prog : Program P σ τ ε} {init : State P σ τ}

theorem Steps.run {k : Nat} {s : State P σ τ} (h : Steps prog init k s) : ∃ tr, Run prog init tr s := by
  induction h with
  | zero => exact ⟨[], .nil⟩
  | succ _ last ih =>
    obtain ⟨tr, hrun⟩ := ih
    obtain ⟨p, e, sh, l, hstep, rfl⟩ := last
    exact ⟨_, hrun.step hstep⟩

/-- **An end that can be reached**: from every good state there is a good one a
step nearer. -/
theorem exists_final_of_falls {α : Type} {step : α → α → Prop} {good final : α → Prop} (measure : α → Nat)
    (nearer : ∀ a, good a → final a ∨ ∃ b, step a b ∧ good b ∧ measure b < measure a) {a : α} (h : good a) :
    ∃ b, Relation.ReflTransGen step a b ∧ final b := by
  induction hk : measure a using Nat.strongRecOn generalizing a with
  | _ k ih =>
    subst hk
    rcases nearer a h with hfinal | ⟨b, hstep, hgood, hlt⟩
    · exact ⟨a, .refl, hfinal⟩
    · obtain ⟨c, hruns, hfinal⟩ := ih _ hlt hgood rfl
      exact ⟨c, .head hstep hruns, hfinal⟩

section Rank

variable [Fintype P] {rank : τ → Nat}

theorem sum_update (rank : τ → Nat) (f : P → τ) (p : P) (l : τ) :
    ∑ q, rank (Function.update f p l q) + rank (f p) = ∑ q, rank (f q) + rank l := by
  have hrest : ∑ q ∈ Finset.univ.erase p, rank (Function.update f p l q) = ∑ q ∈ Finset.univ.erase p, rank (f q) :=
    Finset.sum_congr rfl fun q hq => by rw [Function.update_of_ne (Finset.ne_of_mem_erase hq)]
  rw [← Finset.add_sum_erase _ _ (Finset.mem_univ p), hrest, Function.update_self,
    ← Finset.add_sum_erase Finset.univ (fun q => rank (f q)) (Finset.mem_univ p)]
  omega

/-- How far all processes have to go. -/
def total (rank : τ → Nat) (s : State P σ τ) : Nat := ∑ p, rank (s.loc p)

omit [DecidableEq P] in
theorem total_const (sh : σ) (l : τ) : total rank (⟨sh, fun _ => l⟩ : State P σ τ) = Fintype.card P * rank l := by
  simp [total]

theorem total_move (rank : τ → Nat) (s : State P σ τ) (p : P) (sh : σ) (l : τ) :
    total rank (s.move p sh l) + rank (s.loc p) = total rank s + rank l := sum_update rank s.loc p l

theorem total_move_lt {s : State P σ τ} {p : P} (sh : σ) {l : τ} (h : rank l < rank (s.loc p)) :
    total rank (s.move p sh l) < total rank s := by
  have := total_move rank s p sh l
  omega

/-- Each step brings its process nearer to the end. -/
def Falls (prog : Program P σ τ ε) (rank : τ → Nat) : Prop := ∀ p sh l e sh' l', prog p sh l e sh' l' → rank l' < rank l

/-- **A bound on runs**, from ranks that fall. -/
theorem Steps.bounded (falls : Falls prog rank) {k : Nat} {s : State P σ τ} (h : Steps prog init k s) :
    k + total rank s ≤ total rank init := by
  induction h with
  | zero => exact Nat.le_of_eq (Nat.zero_add _)
  | succ _ last ih =>
    obtain ⟨p, e, sh, l, hstep, rfl⟩ := last
    have hlt := total_move_lt sh (falls _ _ _ _ _ _ hstep)
    omega

/-- **Runs can be brought to their end**, where only final states have no
next step. -/
theorem Run.reaches_end {final : State P σ τ → Prop} (falls : Falls prog rank)
    (progress : ∀ tr s, Run prog init tr s → final s ∨ ∃ s', Follows prog s s') {tr : List (P × ε)} {s : State P σ τ}
    (h : Run prog init tr s) : ∃ tr' s', Run prog init (tr ++ tr') s' ∧ final s' := by
  induction hk : total rank s using Nat.strongRecOn generalizing tr s with
  | _ k ih =>
    subst hk
    rcases progress tr s h with hfinal | ⟨_, p, e, sh, l, hstep, rfl⟩
    · exact ⟨[], s, by rwa [List.append_nil], hfinal⟩
    · obtain ⟨tr', s', hrun, hfinal⟩ := ih _ (total_move_lt sh (falls _ _ _ _ _ _ hstep)) (h.step hstep) rfl
      exact ⟨events p e ++ tr', s', by rwa [← List.append_assoc], hfinal⟩

/-- **One process after the other** goes from a place of one kind to one of
another, each on its own and in whatever state the others have left it. -/
theorem Run.each {A B : τ → Prop} {Q : σ → Prop}
    (walk : ∀ p sh l, A l → Q sh → ∃ sh' l', Walks prog p (sh, l) (sh', l') ∧ B l' ∧ Q sh')
    {tr : List (P × ε)} {s : State P σ τ} (h : Run prog init tr s) (hA : ∀ p, A (s.loc p)) (hQ : Q s.shared) :
    ∃ tr' s', Run prog init tr' s' ∧ (∀ p, B (s'.loc p)) ∧ Q s'.shared := by
  have hsome : ∀ S : Finset P, ∃ tr' s', Run prog init tr' s' ∧ (∀ p ∈ S, B (s'.loc p)) ∧ (∀ p, p ∉ S → A (s'.loc p)) ∧
      Q s'.shared := by
    intro S
    induction S using Finset.induction_on with
    | empty => exact ⟨tr, s, h, fun p hp => absurd hp (Finset.notMem_empty p), fun p _ => hA p, hQ⟩
    | insert p S hp ih =>
      obtain ⟨tr', s', hrun, hB, hA', hQ'⟩ := ih
      obtain ⟨sh, l, hwalk, hl, hsh⟩ := walk p s'.shared (s'.loc p) (hA' p hp) hQ'
      obtain ⟨tr'', hrun'⟩ := hrun.walk hwalk
      refine ⟨tr'', _, hrun', fun q hq => ?_, fun q hq => ?_, hsh⟩
      · by_cases hqp : q = p
        · subst hqp
          rwa [State.move_self]
        · rw [State.move_other hqp]
          exact hB q (Finset.mem_of_mem_insert_of_ne hq hqp)
      · rw [Finset.mem_insert, not_or] at hq
        rw [State.move_other hq.1]
        exact hA' q hq.2
  obtain ⟨tr', s', hrun, hB, -, hQ'⟩ := hsome Finset.univ
  exact ⟨tr', s', hrun, fun p => hB p (Finset.mem_univ p), hQ'⟩

end Rank

end Processes
