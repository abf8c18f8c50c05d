/-
A finite map kept as two parallel lists, its keys strictly ascending and each
value beside its key: the relation `Rep`, and how it is kept when a key is
given a new value (`Rep.replace`) and when a new key is put at the place the
order asks for (`Rep.insert`). There is one such pair of lists for a map
(`Rep.unique`).
-/
import Mathlib.Data.List.Basic
import Mathlib.Data.List.TakeDrop
import Mathlib.Data.Finset.Card
import Mathlib.Data.Finset.Dedup
import Mathlib.Logic.Function.Basic
import Mathlib.Order.Defs.LinearOrder

namespace SortedMap

variable {κ α : Type} [LinearOrder κ]

/-- `k` belongs at `p`: smaller keys before it, larger ones from there on. -/
structure Place (ks : List κ) (k : κ) (p : Nat) : Prop where
  le : p ≤ ks.length
  before : ∀ x ∈ ks.take p, x < k
  after : ∀ x ∈ ks.drop p, k < x

theorem Place.not_mem {ks : List κ} {k : κ} {p : Nat} (h : Place ks k p) : k ∉ ks := by
  rw [← List.take_append_drop p ks, List.mem_append, not_or]
  exact ⟨fun hk => lt_irrefl _ (h.before k hk), fun hk => lt_irrefl _ (h.after k hk)⟩

theorem Place.countP_eq {ks : List κ} {k : κ} {p : Nat} (h : Place ks k p) : ks.countP (· < k) = p := by
  rw [← List.take_append_drop p ks, List.countP_append, List.countP_eq_length.2, List.countP_eq_zero.2,
    List.length_take, Nat.min_eq_left h.le, Nat.add_zero]
  · exact fun x hx => by simpa using le_of_lt (h.after x hx)
  · exact fun x hx => decide_eq_true (h.before x hx)

/-- `ks` and `vs` hold the finite map `m`. -/
structure Rep (ks : List κ) (vs : List α) (m : κ → Option α) : Prop where
  sorted : ks.Pairwise (· < ·)
  length : vs.length = ks.length
  value : ∀ {p : Nat} {k}, ks[p]? = some k → m k = vs[p]?
  only : ∀ {k}, k ∉ ks → m k = none

theorem Rep.nil : Rep ([] : List κ) ([] : List α) fun _ => none := ⟨.nil, rfl, by simp, by simp⟩

theorem Rep.isSome_iff {ks : List κ} {vs : List α} {m : κ → Option α} (h : Rep ks vs m) (k : κ) :
    (m k).isSome ↔ k ∈ ks := by
  constructor
  · intro hk
    by_contra hn
    simp [h.only hn] at hk
  · intro hk
    obtain ⟨p, hp, rfl⟩ := List.getElem_of_mem hk
    rw [h.value (List.getElem?_eq_getElem hp), List.getElem?_eq_getElem (by rw [h.length]; exact hp)]
    rfl

theorem Rep.nodup {ks : List κ} {vs : List α} {m : κ → Option α} (h : Rep ks vs m) : ks.Nodup :=
  h.sorted.imp fun hlt => ne_of_lt hlt

theorem Rep.length_eq_card {ks : List κ} {vs : List α} {m : κ → Option α} (h : Rep ks vs m) {s : Finset κ}
    (hs : ∀ k, k ∈ s ↔ (m k).isSome) : ks.length = s.card := by
  rw [← List.toFinset_card_of_nodup h.nodup]
  congr 1
  ext k
  rw [hs, h.isSome_iff, List.mem_toFinset]

/-- **Canonical**: two representations of one map are the same lists. -/
theorem Rep.unique {ks ks' : List κ} {vs vs' : List α} {m : κ → Option α} (h : Rep ks vs m) (h' : Rep ks' vs' m) :
    ks = ks' ∧ vs = vs' := by
  have hperm : ks.Perm ks' := (List.perm_ext_iff_of_nodup h.nodup h'.nodup).2 fun k => by
    rw [← h.isSome_iff, ← h'.isSome_iff]
  obtain rfl : ks = ks' :=
    List.Perm.eq_of_pairwise (fun a b _ _ hab hba => absurd hba (lt_asymm hab)) h.sorted h'.sorted hperm
  refine ⟨rfl, List.ext_getElem? fun p => ?_⟩
  by_cases hp : p < ks.length
  · have hk := List.getElem?_eq_getElem hp
    rw [← h.value hk, ← h'.value hk]
  · rw [List.getElem?_eq_none (by rw [h.length]; omega), List.getElem?_eq_none (by rw [h'.length]; omega)]

theorem Rep.replace {ks : List κ} {vs : List α} {m : κ → Option α} (h : Rep ks vs m) {p : Nat} {k : κ}
    (hp : ks[p]? = some k) (v : α) : Rep ks (vs.set p v) (Function.update m k (some v)) := by
  obtain ⟨hlt, hk⟩ := List.getElem?_eq_some_iff.1 hp
  refine ⟨h.sorted, by simp [h.length], ?_, ?_⟩
  · intro q x hq
    obtain ⟨hq', hx⟩ := List.getElem?_eq_some_iff.1 hq
    rw [List.getElem?_set]
    by_cases hpq : p = q
    · subst hpq
      have : x = k := hx.symm.trans hk
      subst this
      simp [h.length, hlt]
    · have : x ≠ k := fun he => hpq ((h.nodup.getElem_inj_iff).1 (hk.trans (he.symm.trans hx.symm)))
      rw [if_neg hpq, Function.update_of_ne this, h.value hq]
  · intro x hx
    have : x ≠ k := fun he => hx (he ▸ List.mem_of_getElem? hp)
    rw [Function.update_of_ne this, h.only hx]

/-- Before a gap the positions are the old ones, after it they are one up. -/
theorem getElem?_gap {β : Type} {l : List β} {p : Nat} (hp : p ≤ l.length) (x : β) (q : Nat) :
    (l.take p ++ x :: l.drop p)[q]? = if q < p then l[q]? else if q = p then some x else l[q - 1]? := by
  rw [List.getElem?_append, List.length_take, Nat.min_eq_left hp, List.getElem?_take]
  split
  · rfl
  next hge =>
    by_cases hq : q = p
    · simp [hq]
    · obtain ⟨d, rfl⟩ : ∃ d, q = p + 1 + d := ⟨q - (p + 1), by omega⟩
      rw [if_neg hq, show p + 1 + d - p = d + 1 by omega, List.getElem?_cons_succ, List.getElem?_drop,
        show p + 1 + d - 1 = p + d by omega]

/-- A new key goes to its place, and its value to the same place. -/
theorem Rep.insert {ks : List κ} {vs : List α} {m : κ → Option α} (h : Rep ks vs m) {p : Nat} {k : κ}
    (hp : Place ks k p) (v : α) :
    Rep (ks.take p ++ k :: ks.drop p) (vs.take p ++ v :: vs.drop p) (Function.update m k (some v)) := by
  have hlen := h.length
  have hle := hp.le
  refine ⟨?_, ?_, ?_, ?_⟩
  · have hs := h.sorted
    rw [← List.take_append_drop p ks, List.pairwise_append] at hs
    refine List.pairwise_append.2 ⟨hs.1, List.pairwise_cons.2 ⟨hp.after, hs.2.1⟩, ?_⟩
    intro a ha b hb
    rcases List.mem_cons.1 hb with rfl | hb
    · exact hp.before a ha
    · exact hs.2.2 a ha b hb
  · simp only [List.length_append, List.length_take, List.length_cons, List.length_drop]
    omega
  · intro q x hq
    have hold : ∀ {r : Nat}, ks[r]? = some x → Function.update m k (some v) x = vs[r]? := by
      intro r hr
      have : x ≠ k := fun he => hp.not_mem (he ▸ List.mem_of_getElem? hr)
      rw [Function.update_of_ne this, h.value hr]
    rw [getElem?_gap hle] at hq
    rw [getElem?_gap (by omega)]
    rcases Nat.lt_trichotomy q p with hlt | rfl | hgt
    · rw [if_pos hlt] at hq ⊢
      exact hold hq
    · rw [if_neg (Nat.lt_irrefl q), if_pos rfl] at hq ⊢
      cases hq
      exact Function.update_self ..
    · rw [if_neg (by omega), if_neg (by omega)] at hq ⊢
      exact hold hq
  · intro x hx
    simp only [List.mem_append, List.mem_cons, not_or] at hx
    rw [Function.update_of_ne hx.2.1, h.only]
    rw [← List.take_append_drop p ks, List.mem_append, not_or]
    exact ⟨hx.1, hx.2.2⟩

end SortedMap
