/-
Processes over shared state, interleaved step by step.

A program tells what one process can do next: from the shared state and its
own local state, to both of them afterwards, with an event if the step is one
to be counted. A run is any sequence of steps of any processes; its trace is
the list of events. Three rules carry every proof about runs:
`Run.invariant`, for what each step preserves; `Run.everyone`, for what each
process keeps of itself; and `Run.simulate`, for a program whose steps are
those of a simpler one, or none (`Run.simulatePath` where they are several).
`RunIf` is for programs that only work as long as their steps come in some
order: its runs are those whose every step meets a condition.
-/
import Mathlib.Logic.Function.Basic
import Mathlib.Data.List.Basic
import Mathlib.Data.Set.Defs

namespace Processes

variable {P σ τ ε : Type} [DecidableEq P]

/-- The shared state, and each process's own. -/
structure State (P σ τ : Type) where
  shared : σ
  loc : P → τ

/-- The atomic steps of one process. -/
abbrev Program (P σ τ ε : Type) := P → σ → τ → Option ε → σ → τ → Prop

/-- The state after process `p` has made a step. -/
def State.move (s : State P σ τ) (p : P) (sh : σ) (l : τ) : State P σ τ :=
  ⟨sh, Function.update s.loc p l⟩

@[simp] theorem State.move_shared (s : State P σ τ) (p : P) (sh : σ) (l : τ) : (s.move p sh l).shared = sh := rfl

@[simp] theorem State.move_self (s : State P σ τ) (p : P) (sh : σ) (l : τ) : (s.move p sh l).loc p = l := by
  simp [State.move]

theorem State.move_other {p q : P} (h : q ≠ p) (s : State P σ τ) (sh : σ) (l : τ) :
    (s.move p sh l).loc q = s.loc q := by simp [State.move, h]

theorem State.move_move (s : State P σ τ) (p : P) (sh sh' : σ) (l l' : τ) :
    (s.move p sh l).move p sh' l' = s.move p sh' l' := by simp [State.move]

theorem State.move_eq_self (s : State P σ τ) (p : P) : s.move p s.shared (s.loc p) = s := by simp [State.move]

theorem State.map_move {τ' : Type} (f : τ → τ') (s : State P σ τ) (p : P) (sh : σ) (l : τ) :
    (fun q => f ((s.move p sh l).loc q)) = Function.update (fun q => f (s.loc q)) p (f l) := by
  funext q
  by_cases hq : q = p
  · subst hq; simp
  · rw [State.move_other hq, Function.update_of_ne hq]

/-- A set of processes at places of one kind, such as a queue of sleepers, after
a step of a process that is not in it. -/
theorem members_leave {A : τ → Prop} {S S' : Set P} {loc : P → τ} {p : P} {l : τ} (h : ∀ q ∈ S, A (loc q))
    (hsub : S' ⊆ S) (hp : p ∉ S') : ∀ q ∈ S', A (Function.update loc p l q) := by
  intro q hq
  have hqp : q ≠ p := fun heq => hp (heq ▸ hq)
  rw [Function.update_of_ne hqp]
  exact h q (hsub hq)

/-- And after a step by which a process joins it. -/
theorem members_join {A : τ → Prop} {S : Set P} {loc : P → τ} {p : P} {l : τ} (h : ∀ q ∈ S, A (loc q)) (hl : A l) :
    ∀ q ∈ insert p S, A (Function.update loc p l q) := by
  intro q hq
  by_cases hqp : q = p
  · rwa [hqp, Function.update_self]
  · rw [Function.update_of_ne hqp]
    exact h q (hq.resolve_left hqp)

/-- What a step adds to the trace. -/
def events (p : P) (e : Option ε) : List (P × ε) := (e.map (p, ·)).toList

omit [DecidableEq P] in
theorem append_events_none (tr : List (P × ε)) (p : P) : tr ++ events p none = tr := List.append_nil tr

omit [DecidableEq P] in
theorem mem_events {p q : P} {e : Option ε} {a : ε} : (q, a) ∈ events p e ↔ q = p ∧ e = some a := by
  cases e with
  | none => simp [events]
  | some b => simp [events, eq_comm]

/-- A run and its trace. -/
inductive Run (prog : Program P σ τ ε) (init : State P σ τ) : List (P × ε) → State P σ τ → Prop
  | nil : Run prog init [] init
  | step {tr : List (P × ε)} {s : State P σ τ} {p : P} {e : Option ε} {sh : σ} {l : τ} (before : Run prog init tr s)
      (last : prog p s.shared (s.loc p) e sh l) : Run prog init (tr ++ events p e) (s.move p sh l)

/-- A run goes on with a process whose place is known. -/
theorem Run.next {prog : Program P σ τ ε} {init s : State P σ τ} {tr : List (P × ε)} {p : P} {l₀ l : τ}
    {e : Option ε} {sh : σ} (before : Run prog init tr s) (hl : s.loc p = l₀) (last : prog p s.shared l₀ e sh l) :
    Run prog init (tr ++ events p e) (s.move p sh l) := .step before (hl ▸ last)

/-- One process on its own for a while, and its part of the trace. -/
inductive Path (prog : Program P σ τ ε) (p : P) : List (P × ε) → σ × τ → σ × τ → Prop
  | refl {x : σ × τ} : Path prog p [] x x
  | step {sh sh' : σ} {l l' : τ} {e : Option ε} {tr : List (P × ε)} {x : σ × τ} (first : prog p sh l e sh' l')
      (rest : Path prog p tr (sh', l') x) : Path prog p (events p e ++ tr) (sh, l) x

theorem Run.path {prog : Program P σ τ ε} {init s : State P σ τ} {tr tr' : List (P × ε)} {p : P} {x : σ × τ}
    (h : Run prog init tr s) (hp : Path prog p tr' (s.shared, s.loc p) x) :
    Run prog init (tr ++ tr') (s.move p x.1 x.2) := by
  generalize hy : (s.shared, s.loc p) = y at hp
  induction hp generalizing tr s with
  | refl =>
    subst hy
    simpa [State.move] using h
  | step first rest ih =>
    obtain ⟨rfl, rfl⟩ := Prod.mk.inj hy
    have hrest := ih (h.step first) (by simp)
    rwa [State.move_move, List.append_assoc] at hrest

omit [DecidableEq P] in
theorem Path.trans {prog : Program P σ τ ε} {p : P} {tr tr' : List (P × ε)} {x y z : σ × τ}
    (h : Path prog p tr x y) (h' : Path prog p tr' y z) : Path prog p (tr ++ tr') x z := by
  induction h with
  | refl => exact h'
  | step first _ ih =>
    rw [List.append_assoc]
    exact .step first (ih h')

omit [DecidableEq P] in
theorem Path.quiet {prog : Program P σ τ ε} {p : P} {sh sh' : σ} {l l' : τ} {tr : List (P × ε)} {x : σ × τ}
    (first : prog p sh l none sh' l') (rest : Path prog p tr (sh', l') x) : Path prog p tr (sh, l) x :=
  .step first rest

omit [DecidableEq P] in
theorem Path.event {prog : Program P σ τ ε} {p : P} {sh sh' : σ} {l l' : τ} {e : ε} {tr : List (P × ε)} {x : σ × τ}
    (first : prog p sh l (some e) sh' l') (rest : Path prog p tr (sh', l') x) : Path prog p ((p, e) :: tr) (sh, l) x :=
  .step first rest

omit [DecidableEq P] in
theorem Path.single {prog : Program P σ τ ε} {p : P} {sh sh' : σ} {l l' : τ} {e : Option ε}
    (h : prog p sh l e sh' l') : Path prog p (events p e) (sh, l) (sh', l') := by
  have := Path.step h .refl
  rwa [List.append_nil] at this

omit [DecidableEq P] in
theorem Path.at_eq {prog : Program P σ τ ε} {p : P} {sh : σ} {l l₀ : τ} {tr : List (P × ε)} {x : σ × τ} (hl : l₀ = l)
    (h : Path prog p tr (sh, l) x) : Path prog p tr (sh, l₀) x := hl ▸ h

/-- One process on its own, whatever it adds to the trace. -/
def Walks (prog : Program P σ τ ε) (p : P) (x y : σ × τ) : Prop := ∃ tr, Path prog p tr x y

omit [DecidableEq P] in
theorem Walks.refl {prog : Program P σ τ ε} {p : P} {x : σ × τ} : Walks prog p x x := ⟨[], .refl⟩

omit [DecidableEq P] in
theorem Walks.step {prog : Program P σ τ ε} {p : P} {sh sh' : σ} {l l' : τ} {e : Option ε} {x : σ × τ}
    (h : prog p sh l e sh' l') (rest : Walks prog p (sh', l') x) : Walks prog p (sh, l) x := by
  obtain ⟨tr, rest⟩ := rest
  exact ⟨_, .step h rest⟩

omit [DecidableEq P] in
theorem Walks.trans {prog : Program P σ τ ε} {p : P} {x y z : σ × τ} (h : Walks prog p x y) (h' : Walks prog p y z) :
    Walks prog p x z := by
  obtain ⟨tr, h⟩ := h
  obtain ⟨tr', h'⟩ := h'
  exact ⟨_, h.trans h'⟩

theorem Run.walk {prog : Program P σ τ ε} {init s : State P σ τ} {tr : List (P × ε)} {p : P} {x : σ × τ}
    (h : Run prog init tr s) (hw : Walks prog p (s.shared, s.loc p) x) :
    ∃ tr', Run prog init tr' (s.move p x.1 x.2) := by
  obtain ⟨tr', hp⟩ := hw
  exact ⟨_, h.path hp⟩

/-- **Invariants**: what holds at the start and is preserved by each step
holds in every state reached. -/
theorem Run.invariant {prog : Program P σ τ ε} {init : State P σ τ} {I : List (P × ε) → State P σ τ → Prop}
    (start : I [] init)
    (step : ∀ tr s p e sh l, Run prog init tr s → I tr s → prog p s.shared (s.loc p) e sh l →
      I (tr ++ events p e) (s.move p sh l)) :
    ∀ {tr s}, Run prog init tr s → I tr s := by
  intro tr s h
  induction h with
  | nil => exact start
  | step before last ih => exact step _ _ _ _ _ _ before ih last

/-- What a run has done by any point of its trace is a run too. -/
theorem Run.prefix_run {prog : Program P σ τ ε} {init s : State P σ τ} {tr : List (P × ε)} (h : Run prog init tr s) :
    ∀ a, a <+: tr → ∃ t, Run prog init a t := by
  induction h with
  | nil =>
    intro a ha
    rw [List.prefix_nil.1 ha]
    exact ⟨_, .nil⟩
  | @step tr s p e sh l before last ih =>
    intro a ha
    cases e with
    | none => exact ih a (by simpa [events] using ha)
    | some e =>
      rcases List.prefix_concat_iff.1 ha with rfl | ha
      · exact ⟨_, before.step last⟩
      · exact ih a ha

/-- **What every process keeps**, of itself and the shared state: its own
steps preserve it, and so do those of the others. -/
theorem Run.everyone {prog : Program P σ τ ε} {init : State P σ τ} {I : P → List (P × ε) → σ → τ → Prop}
    (start : ∀ p, I p [] init.shared (init.loc p))
    (own : ∀ tr s p e sh l, Run prog init tr s → I p tr s.shared (s.loc p) →
      prog p s.shared (s.loc p) e sh l → I p (tr ++ events p e) sh l)
    (other : ∀ tr s p q e sh l, q ≠ p → Run prog init tr s → I q tr s.shared (s.loc q) →
      prog p s.shared (s.loc p) e sh l → I q (tr ++ events p e) sh (s.loc q)) :
    ∀ {tr s}, Run prog init tr s → ∀ p, I p tr s.shared (s.loc p) := by
  intro tr s h
  refine Run.invariant (I := fun tr s => ∀ p, I p tr s.shared (s.loc p)) start ?_ h
  intro tr s p e sh l hrun ih hstep q
  by_cases hq : q = p
  · subst hq
    simpa using own tr s q e sh l hrun (ih q) hstep
  · rw [State.move_other hq]
    exact other tr s p q e sh l hq hrun (ih q) hstep

/-- A trace as the abstract program has it: some events, some under another
name. -/
def rename {ε' : Type} (ev : ε → Option ε') (tr : List (P × ε)) : List (P × ε') :=
  tr.filterMap fun x => (ev x.2).map (x.1, ·)

omit [DecidableEq P] in
theorem rename_some (tr : List (P × ε)) : rename some tr = tr := by
  simp [rename]

omit [DecidableEq P] in
theorem rename_events {ε' : Type} (ev : ε → Option ε') (tr : List (P × ε)) (p : P) (e : Option ε) :
    rename ev (tr ++ events p e) = rename ev tr ++ events p (e.bind ev) := by
  cases e with
  | none => simp [rename, events]
  | some e =>
    rw [rename, List.filterMap_append]
    cases h : ev e <;> simp [rename, events, h]

/-- **Simulation by paths**: what a process does in one step, the abstract one
does in any number of them, with the same events. -/
theorem Run.simulatePath {σ' τ' ε' : Type} {prog : Program P σ τ ε} {init : State P σ τ} {abs : Program P σ' τ' ε'}
    (shared : σ → σ') (loc : τ → τ') (ev : ε → Option ε')
    (step : ∀ tr s p e sh l, Run prog init tr s → prog p s.shared (s.loc p) e sh l →
      Path abs p (events p (e.bind ev)) (shared s.shared, loc (s.loc p)) (shared sh, loc l)) :
    ∀ {tr s}, Run prog init tr s → Run abs ⟨shared init.shared, fun p => loc (init.loc p)⟩ (rename ev tr)
      ⟨shared s.shared, fun p => loc (s.loc p)⟩ := by
  intro tr s h
  induction h with
  | nil => exact .nil
  | @step tr s p e sh l before last ih =>
    rw [State.move_shared, State.map_move, rename_events]
    exact ih.path (step tr s p e sh l before last)

/-- **Simulation**: each step of a process is one of the abstract program, or
is not seen there at all. Runs then map to runs with the same events. -/
theorem Run.simulate {σ' τ' ε' : Type} {prog : Program P σ τ ε} {init : State P σ τ} {abs : Program P σ' τ' ε'}
    (shared : σ → σ') (loc : τ → τ') (ev : ε → Option ε')
    (step : ∀ tr s p e sh l, Run prog init tr s → prog p s.shared (s.loc p) e sh l →
      (e.bind ev = none ∧ shared sh = shared s.shared ∧ loc l = loc (s.loc p)) ∨
        abs p (shared s.shared) (loc (s.loc p)) (e.bind ev) (shared sh) (loc l)) :
    ∀ {tr s}, Run prog init tr s → Run abs ⟨shared init.shared, fun p => loc (init.loc p)⟩ (rename ev tr)
      ⟨shared s.shared, fun p => loc (s.loc p)⟩ := by
  intro tr s h
  refine Run.simulatePath shared loc ev ?_ h
  intro tr s p e sh l before last
  rcases step tr s p e sh l before last with ⟨he, hsh, hl⟩ | habs
  · rw [he, hsh, hl]
    exact .refl
  · exact .single habs

/-! ## Runs under a condition -/

/-- A run whose every step meets a condition on the state before it. -/
inductive RunIf (prog : Program P σ τ ε) (ok : State P σ τ → P → Prop) (init : State P σ τ) :
    List (P × ε) → State P σ τ → Prop
  | nil : RunIf prog ok init [] init
  | step {tr : List (P × ε)} {s : State P σ τ} {p : P} {e : Option ε} {sh : σ} {l : τ}
      (before : RunIf prog ok init tr s) (meets : ok s p) (last : prog p s.shared (s.loc p) e sh l) :
      RunIf prog ok init (tr ++ events p e) (s.move p sh l)

variable {prog : Program P σ τ ε} {ok : State P σ τ → P → Prop} {init : State P σ τ}

theorem RunIf.next {s : State P σ τ} {tr : List (P × ε)} {p : P} {l₀ l : τ} {e : Option ε} {sh : σ}
    (before : RunIf prog ok init tr s) (hl : s.loc p = l₀) (meets : ok s p) (last : prog p s.shared l₀ e sh l) :
    RunIf prog ok init (tr ++ events p e) (s.move p sh l) := .step before meets (hl ▸ last)

theorem RunIf.run {s : State P σ τ} {tr : List (P × ε)} (h : RunIf prog ok init tr s) : Run prog init tr s := by
  induction h with
  | nil => exact .nil
  | step _ _ last ih => exact ih.step last

theorem RunIf.invariant {I : List (P × ε) → State P σ τ → Prop} (start : I [] init)
    (step : ∀ tr s p e sh l, RunIf prog ok init tr s → I tr s → ok s p → prog p s.shared (s.loc p) e sh l →
      I (tr ++ events p e) (s.move p sh l)) :
    ∀ {tr s}, RunIf prog ok init tr s → I tr s := by
  intro tr s h
  induction h with
  | nil => exact start
  | step before meets last ih => exact step _ _ _ _ _ _ before ih meets last

/-- **Simulation under the condition.** What the abstract program has done so
far can be used for the next step. -/
theorem RunIf.simulate {σ' τ' ε' : Type} {abs : Program P σ' τ' ε'} (shared : σ → σ') (loc : τ → τ')
    (ev : ε → Option ε')
    (step : ∀ tr s p e sh l, Run abs ⟨shared init.shared, fun p => loc (init.loc p)⟩ (rename ev tr)
        ⟨shared s.shared, fun p => loc (s.loc p)⟩ → ok s p → prog p s.shared (s.loc p) e sh l →
      (e.bind ev = none ∧ shared sh = shared s.shared ∧ loc l = loc (s.loc p)) ∨
        abs p (shared s.shared) (loc (s.loc p)) (e.bind ev) (shared sh) (loc l)) :
    ∀ {tr s}, RunIf prog ok init tr s → Run abs ⟨shared init.shared, fun p => loc (init.loc p)⟩ (rename ev tr)
      ⟨shared s.shared, fun p => loc (s.loc p)⟩ := by
  refine RunIf.invariant (I := fun tr s => Run abs ⟨shared init.shared, fun p => loc (init.loc p)⟩ (rename ev tr)
    ⟨shared s.shared, fun p => loc (s.loc p)⟩) .nil ?_
  intro tr s p e sh l _ ih meets last
  rw [State.move_shared, State.map_move, rename_events]
  rcases step tr s p e sh l ih meets last with ⟨he, hsh, hl⟩ | habs
  · rw [he, hsh, hl, Function.update_eq_self]
    simpa [events] using ih
  · exact ih.step habs

end Processes
