/-
Occurrences of one list in another, and how far a list agrees with another
from a given place on: what a substring search is to find, and what it sees
while it compares.
-/
import Mathlib.Data.List.Basic
import Mathlib.Data.List.TakeDrop
import Mathlib.Data.Nat.Find
import Mathlib.Order.Monotone.Basic
import Mathlib.Logic.Function.Iterate

namespace Matching

variable {α : Type} [DecidableEq α]

/-- `t` occurs in `s` at `p`. -/
def OccursAt (s t : List α) (p : Nat) : Prop := t <+: s.drop p

instance (s t : List α) (p : Nat) : Decidable (OccursAt s t p) := inferInstanceAs (Decidable (_ <+: _))

/-- `p` is the first place where `t` occurs. -/
def FirstAt (s t : List α) (p : Nat) : Prop := OccursAt s t p ∧ ∀ q < p, ¬ OccursAt s t q

/-- The answer of a substring search: the first place, or -1. -/
def Finds (s t : List α) (r : Int) : Prop :=
  (∃ p : Nat, r = p ∧ FirstAt s t p) ∨ (r = -1 ∧ ∀ p, ¬ OccursAt s t p)

omit [DecidableEq α] in
theorem OccursAt.le {s t : List α} {p : Nat} (h : OccursAt s t p) (ht : t ≠ []) : p + t.length ≤ s.length := by
  have hl := h.length_le
  have : 0 < t.length := List.length_pos_iff.2 ht
  rw [List.length_drop] at hl
  omega

omit [DecidableEq α] in
theorem occursAt_iff {s t : List α} {p : Nat} : OccursAt s t p ↔ (s.drop p).take t.length = t := by
  unfold OccursAt
  rw [List.prefix_iff_eq_take, eq_comm]

theorem exists_firstAt {s t : List α} {p : Nat} (h : OccursAt s t p) : ∃ q ≤ p, FirstAt s t q := by
  have hexists : ∃ q, OccursAt s t q := ⟨p, h⟩
  exact ⟨Nat.find hexists, Nat.find_min' hexists h, Nat.find_spec hexists, fun q hq => Nat.find_min hexists hq⟩

theorem finds_iff {s t : List α} {r : Int} :
    Finds s t r ↔ (∀ p, FirstAt s t p → r = p) ∧ ((∀ p, ¬ OccursAt s t p) → r = -1) := by
  constructor
  · intro hor
    obtain (⟨p, rfl, hp⟩ | ⟨rfl, hno⟩) := hor
    · refine ⟨fun q hq => ?_, fun hno => absurd hp.1 (hno p)⟩
      have h1 : ¬ p < q := fun h => hq.2 p h hp.1
      have h2 : ¬ q < p := fun h => hp.2 q h hq.1
      omega
    · exact ⟨fun p hp => absurd hp.1 (hno p), fun _ => rfl⟩
  · intro hboth
    obtain ⟨h1, h2⟩ := hboth
    by_cases hno : ∀ p, ¬ OccursAt s t p
    · exact .inr ⟨h2 hno, hno⟩
    · simp only [not_forall, not_not] at hno
      obtain ⟨p, hp⟩ := hno
      obtain ⟨q, -, hq⟩ := exists_firstAt hp
      exact .inl ⟨q, h1 q hq, hq⟩

/-! ## Borders -/

/-- The `i + 1` elements of `t` up to `i` begin and end with the same `k`, and
are more than these. -/
def IsBorder (t : List α) (i k : Nat) : Prop := k ≤ i ∧ t.take k <:+ t.take (i + 1)

/-- `k` is the longest border there. -/
structure LongestBorder (t : List α) (i k : Nat) : Prop where
  border : IsBorder t i k
  longest : ∀ j, IsBorder t i j → j ≤ k

omit [DecidableEq α] in
theorem isBorder_zero (t : List α) (i : Nat) : IsBorder t i 0 := ⟨Nat.zero_le i, List.nil_suffix⟩

omit [DecidableEq α] in
/-- A border one element further on is one here, extended. -/
theorem isBorder_succ_iff {t : List α} {i k : Nat} (h : i + 1 < t.length) :
    IsBorder t (i + 1) (k + 1) ↔ IsBorder t i k ∧ t[k]? = t[i + 1]? := by
  unfold IsBorder
  rw [Nat.add_le_add_iff_right, and_assoc]
  refine and_congr_right fun hk => ?_
  have hk' : k < t.length := by omega
  rw [List.take_succ_eq_append_getElem hk', List.take_succ_eq_append_getElem h, List.getElem?_eq_getElem hk',
    List.getElem?_eq_getElem h, Option.some.injEq, List.suffix_concat_iff]
  constructor
  · intro h
    rcases h with hnil | ⟨u, hu, hsuf⟩
    · exact absurd (List.append_eq_nil_iff.1 hnil).2 (List.cons_ne_nil _ _)
    · obtain ⟨rfl, hlast⟩ := List.append_inj' hu rfl
      exact ⟨hsuf, by simpa using hlast⟩
  · intro h
    obtain ⟨hsuf, hlast⟩ := h
    exact .inr ⟨_, by rw [hlast], hsuf⟩

omit [DecidableEq α] in
theorem LongestBorder.unique {t : List α} {i j k : Nat} (hj : LongestBorder t i j) (hk : LongestBorder t i k) : j = k :=
  Nat.le_antisymm (hk.longest j hj.border) (hj.longest k hk.border)

/-- Where a border of a prefix can be extended by the next element, the longest
one can: no shorter border is needed to go on with. -/
def NeedsNoShorter (t : List α) : Prop :=
  ∀ i b k, i + 1 < t.length → LongestBorder t i b → IsBorder t i k → t[k]? = t[i + 1]? → t[b]? = t[i + 1]?

/-! ## Agreement -/

/-- The length of the longest common prefix. -/
def lcp : List α → List α → Nat
  | a :: as, b :: bs => if a = b then lcp as bs + 1 else 0
  | _, _ => 0

theorem lcp_eq {u v : List α} {k : Nat} (hu : k < u.length) (hv : k < v.length) (he : u.take k = v.take k)
    (hne : u[k] ≠ v[k]) : lcp u v = k := by
  induction k generalizing u v with
  | zero =>
    cases u with
    | nil => simp at hu
    | cons a u => cases v with
      | nil => simp at hv
      | cons b v => simpa [lcp] using hne
  | succ k ih =>
    cases u with
    | nil => simp at hu
    | cons a u => cases v with
      | nil => simp at hv
      | cons b v =>
        simp only [List.take_succ_cons, List.cons.injEq] at he
        obtain ⟨rfl, he⟩ := he
        simp only [lcp, if_true, Nat.add_right_cancel_iff]
        exact ih (by simpa using hu) (by simpa using hv) he (by simpa using hne)

end Matching
