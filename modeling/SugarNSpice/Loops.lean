/-
Loops over `Outcome`, and the rules their proofs use: `loop_total` for a
`while` with an invariant and a variant, `forUp_total` for a counted `for`.
Both rules are of total correctness: they prove that the loop ends without a
fault, in a state the invariant describes. `loop_never` is for a `while` that
does not. `begun` lists the states in which a `while` begins its turns.
-/
import SugarNSpice.CLang

namespace CLang

/-- One turn of a loop: round again, or out with a result. -/
inductive Turn (σ ρ : Type) where
  | next (s : σ)
  | done (r : ρ)
  deriving DecidableEq, Repr

section While

variable {σ ρ : Type}

/-- `while`, given the number of turns it may take. -/
def loop (body : σ → Outcome (Turn σ ρ)) : Nat → σ → Outcome ρ
  | 0, _ => .error .fuel
  | n + 1, s => body s >>= fun
    | .next s' => loop body n s'
    | .done r => .ok r

theorem loop_next {body : σ → Outcome (Turn σ ρ)} {s s' : σ} (h : body s = .ok (.next s')) (n : Nat) :
    loop body (n + 1) s = loop body n s' := by simp [loop, h]

theorem loop_done {body : σ → Outcome (Turn σ ρ)} {s : σ} {r : ρ} (h : body s = .ok (.done r)) (n : Nat) :
    loop body (n + 1) s = .ok r := by simp [loop, h]

theorem loop_fault {body : σ → Outcome (Turn σ ρ)} {s : σ} {f : Fault} (h : body s = .error f) (n : Nat) :
    loop body (n + 1) s = .error f := by simp [loop, h]

/-- **The rule for `while`.** Each turn keeps `Inv` and makes `var` smaller,
or leaves the loop with a result `Post` describes; so more turns than `var`
says are enough. -/
theorem loop_total {body : σ → Outcome (Turn σ ρ)} {Inv : σ → Prop} (var : σ → Nat) {Post : ρ → Prop}
    (turn : ∀ s, Inv s → (∃ s', body s = .ok (.next s') ∧ Inv s' ∧ var s' < var s) ∨
      ∃ r, body s = .ok (.done r) ∧ Post r) :
    ∀ {n : Nat} {s : σ}, Inv s → var s < n → ∃ r, loop body n s = .ok r ∧ Post r := by
  intro n
  induction n with
  | zero => intro s _ hn; omega
  | succ n ih =>
    intro s hs hn
    rcases turn s hs with ⟨s', hb, hs', hlt⟩ | ⟨r, hb, hr⟩
    · rw [loop_next hb]
      exact ih hs' (by omega)
    · exact ⟨r, loop_done hb n, hr⟩

/-- **A loop that has no way out**: each turn keeps `Inv` or stops at a
fault, so no number of turns gives a result. -/
theorem loop_never {body : σ → Outcome (Turn σ ρ)} {Inv : σ → Prop}
    (turn : ∀ s, Inv s → (∃ s', body s = .ok (.next s') ∧ Inv s') ∨ ∃ f, body s = .error f) :
    ∀ {n : Nat} {s : σ}, Inv s → ∀ r, loop body n s ≠ .ok r := by
  intro n
  induction n with
  | zero => exact fun _ r => nofun
  | succ n ih =>
    intro s hs r
    rcases turn s hs with ⟨s', hb, hs'⟩ | ⟨f, hb⟩
    · rw [loop_next hb]
      exact ih hs' r
    · rw [loop_fault hb]
      exact nofun

/-- The states in which a loop begins its turns, in order. -/
def begun (body : σ → Outcome (Turn σ ρ)) : Nat → σ → List σ
  | 0, _ => []
  | n + 1, s => s :: match body s with
    | .ok (.next s') => begun body n s'
    | _ => []

theorem begun_next {body : σ → Outcome (Turn σ ρ)} {s s' : σ} (h : body s = .ok (.next s')) (n : Nat) :
    begun body (n + 1) s = s :: begun body n s' := by simp [begun, h]

theorem begun_done {body : σ → Outcome (Turn σ ρ)} {s : σ} {r : ρ} (h : body s = .ok (.done r)) (n : Nat) :
    begun body (n + 1) s = [s] := by simp [begun, h]

/-- What every turn keeps holds whenever one begins. The hypothesis is that
of `loop_total`. -/
theorem begun_keeps {body : σ → Outcome (Turn σ ρ)} {Inv : σ → Prop} {var : σ → Nat} {Post : ρ → Prop}
    (turn : ∀ s, Inv s → (∃ s', body s = .ok (.next s') ∧ Inv s' ∧ var s' < var s) ∨
      ∃ r, body s = .ok (.done r) ∧ Post r) {n : Nat} {s t : σ} (ht : t ∈ begun body n s) (hs : Inv s) : Inv t := by
  induction n generalizing s with
  | zero => simp [begun] at ht
  | succ n ih =>
    rcases turn s hs with ⟨s', hb, hs', -⟩ | ⟨r, hb, -⟩
    · rw [begun_next hb, List.mem_cons] at ht
      rcases ht with rfl | ht
      · exact hs
      · exact ih ht hs'
    · rw [begun_done hb, List.mem_singleton] at ht
      exact ht ▸ hs

end While

section For

variable {σ : Type}

/-- `for (i = a; i < a + n; i++)`. -/
def forUp (body : Nat → σ → Outcome σ) : (n a : Nat) → σ → Outcome σ
  | 0, _, s => .ok s
  | n + 1, a, s => body a s >>= forUp body n (a + 1)

/-- **The rule for `for`.** `Inv i` holds when the loop is about to run its
body at `i`. -/
theorem forUp_total {body : Nat → σ → Outcome σ} {Inv : Nat → σ → Prop} :
    ∀ {n a : Nat} {s : σ}, (∀ i s, a ≤ i → i < a + n → Inv i s → ∃ s', body i s = .ok s' ∧ Inv (i + 1) s') →
      Inv a s → ∃ s', forUp body n a s = .ok s' ∧ Inv (a + n) s' := by
  intro n
  induction n with
  | zero => intro a s _ hs; exact ⟨s, rfl, hs⟩
  | succ n ih =>
    intro a s turn hs
    obtain ⟨s₁, hb, h₁⟩ := turn a s (Nat.le_refl a) (by omega) hs
    obtain ⟨s', hr, h'⟩ := ih (a := a + 1) (fun i t hi hlt => turn i t (by omega) (by omega)) h₁
    refine ⟨s', ?_, ?_⟩
    · rw [forUp, hb]; exact hr
    · rwa [show a + (n + 1) = a + 1 + n by omega]

/-- What the body keeps, of a `for` that ends. -/
theorem forUp_keeps {body : Nat → σ → Outcome σ} {Inv : Nat → σ → Prop} :
    ∀ {n a : Nat} {s r : σ}, (∀ i s s', a ≤ i → i < a + n → Inv i s → body i s = .ok s' → Inv (i + 1) s') →
      Inv a s → forUp body n a s = .ok r → Inv (a + n) r := by
  intro n
  induction n with
  | zero => intro a s r _ hs h; cases h; exact hs
  | succ n ih =>
    intro a s r keeps hs h
    obtain ⟨s₁, hb, hr⟩ := bind_ok_iff.1 h
    have h₁ := keeps a s s₁ (Nat.le_refl a) (by omega) hs hb
    rw [show a + (n + 1) = a + 1 + n by omega]
    exact ih (fun i t t' hi hlt => keeps i t t' (by omega) (by omega)) h₁ hr

/-- A `for` that ends has run its body at every index. -/
theorem forUp_body_ok {body : Nat → σ → Outcome σ} :
    ∀ {n a : Nat} {s r : σ}, forUp body n a s = .ok r → ∀ i, a ≤ i → i < a + n → ∃ t t', body i t = .ok t' := by
  intro n
  induction n with
  | zero => intro a s r _ i h1 h2; omega
  | succ n ih =>
    intro a s r h i h1 h2
    rw [forUp, bind_ok_iff] at h
    obtain ⟨s', hb, hr⟩ := h
    rcases Nat.eq_or_lt_of_le h1 with rfl | hlt
    · exact ⟨s, s', hb⟩
    · exact ih hr i hlt (by omega)

end For

end CLang
