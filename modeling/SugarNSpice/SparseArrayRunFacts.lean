/-
Whole runs of `test_sparse_array.c`: runs in which calls fail, and two runs
beside each other.

A failed call leaves the array as it was to every caller, though one of the
buffers may have grown, and a run with failures is a finite map of the calls
that returned 0 (`failed_sets_change_nothing`). What a run leaves depends on
the map alone: on the indices and objects set, not on the order or on what was
overwritten (`sparseArray_canonical`).
-/
import SugarNSpice.SparseArrayFacts
import Mathlib.Order.Bounds.Defs

namespace SugarNSpice.SparseArray

open CLang SortedMap

variable {α : Type}

/-! ## Runs with failures -/

/-- The calls that returned 0. -/
def stored : List (SetCall α) → List Int → List (SetCall α)
  | c :: cs, r :: rs => if r = 0 then c :: stored cs rs else stored cs rs
  | _, _ => []

/-- How many different indices the calls name. -/
def distinct (cs : List (SetCall α)) : Nat := (cs.map (·.index)).toFinset.card

/-- The run stores at most `n` different indices: a call that would store one
more does not get its memory. -/
def StoresAtMost (n : Nat) (sa₀ : SparseArrayT α) (cs : List (SetCall α)) : Prop :=
  ∀ pre c, pre ++ [c] <+: cs → ∀ sa rs, runSets sa₀ pre = .ok (sa, rs) →
    distinct (stored pre rs ++ [c]) ≤ n ∨ (c.ai.ok && c.ao.ok) = false

/-- `sa'` is `sa` to every caller, with room for `size` pairs as before. -/
structure Unchanged (sa sa' : SparseArrayT α) : Prop where
  nrObjs : sa'.nrObjs = sa.nrObjs
  size : sa'.size = sa.size
  keys : sa'.indices.take sa'.nrObjs = sa.indices.take sa.nrObjs
  values : sa'.objs.take sa'.nrObjs = sa.objs.take sa.nrObjs
  get : ∀ q obj, sparseArrayGet sa' q obj = sparseArrayGet sa q obj
  indices : sa'.size ≤ sa'.indices.length
  objs : sa'.size ≤ sa'.objs.length

theorem Holds.unchanged {sa sa' : SparseArrayT α} {m : Int → Option α} (h : Holds sa m) (h' : Holds sa' m)
    (hn : sa'.nrObjs = sa.nrObjs) (hs : sa'.size = sa.size) : Unchanged sa sa' := by
  obtain ⟨hkeys, hvalues⟩ := h'.rep.unique h.rep
  refine ⟨hn, hs, hkeys, hvalues, fun q obj => ?_, h'.indices, h'.objs⟩
  rw [sparseArrayGet_spec h', sparseArrayGet_spec h]

theorem Holds.full {sa : SparseArrayT α} {m : Int → Option α} (h : Holds sa m) (hn : sa.nrObjs = 2 ^ 30) :
    sa.nrObjs = sa.size := by
  obtain ⟨k, hk, hc⟩ := h.capacity
  have hle := h.le
  unfold initLen at hk
  have hlow : 24 ≤ k := by
    by_contra hlt
    have : 2 ^ k ≤ 2 ^ 23 := Nat.pow_le_pow_right (by decide) (by omega)
    omega
  have hhigh : k ≤ 24 := by
    by_contra hgt
    have : 2 ^ 25 ≤ 2 ^ k := Nat.pow_le_pow_right (by decide) (by omega)
    omega
  obtain rfl : k = 24 := by omega
  omega

theorem runSets_concat (sa : SparseArrayT α) (cs : List (SetCall α)) (c : SetCall α) :
    runSets sa (cs ++ [c]) = (do
      let (sa', rs) ← runSets sa cs
      let (sa'', r) ← sparseArraySet sa' c.index c.obj c.ai c.ao
      .ok (sa'', rs ++ [r])) := by
  induction cs generalizing sa with
  | nil => simp [runSets]
  | cons d cs ih =>
    simp only [List.cons_append, runSets, ih, bind_assoc, ok_bind]

theorem length_of_runSets {cs : List (SetCall α)} {sa sa' : SparseArrayT α} {rs : List Int}
    (h : runSets sa cs = .ok (sa', rs)) : rs.length = cs.length := by
  induction cs generalizing sa rs with
  | nil => cases h; rfl
  | cons c cs ih =>
    obtain ⟨⟨sa₁, r⟩, -, h⟩ := bind_ok_iff.1 h
    obtain ⟨⟨sa₂, rs'⟩, hrest, h⟩ := bind_ok_iff.1 h
    cases h
    rw [List.length_cons, List.length_cons, ih hrest]

theorem stored_concat {cs : List (SetCall α)} {rs : List Int} (h : rs.length = cs.length) (c : SetCall α) (r : Int) :
    stored (cs ++ [c]) (rs ++ [r]) = stored cs rs ++ if r = 0 then [c] else [] := by
  induction cs generalizing rs with
  | nil =>
    obtain rfl := List.length_eq_zero_iff.1 h
    rfl
  | cons d cs ih =>
    obtain ⟨s, rs, rfl⟩ := List.exists_cons_of_length_eq_add_one h
    have hrest := ih (Nat.succ.inj h)
    simp only [List.cons_append, stored, hrest]
    split <;> simp

theorem stored_sublist (cs : List (SetCall α)) (rs : List Int) : (stored cs rs).Sublist cs := by
  induction cs generalizing rs with
  | nil => exact List.nil_sublist _
  | cons c cs ih =>
    cases rs with
    | nil => exact List.nil_sublist _
    | cons r rs =>
      rw [stored]
      split
      · exact (ih rs).cons_cons c
      · exact (ih rs).cons c

theorem distinct_concat_le (cs : List (SetCall α)) (c : SetCall α) : distinct (cs ++ [c]) ≤ distinct cs + 1 := by
  have hone : [c.index].toFinset.card = 1 := rfl
  rw [distinct, List.map_append, List.map_singleton, List.toFinset_append, ← hone]
  exact Finset.card_union_le _ _

/-- One call of a run, with the map of the calls that have returned 0. -/
theorem Holds.set_stored {sa : SparseArrayT α} {pre : List (SetCall α)} (h : Holds sa (lastSet pre))
    (hle : distinct pre ≤ 2 ^ 30) {c : SetCall α}
    (hc : distinct (pre ++ [c]) ≤ 2 ^ 30 ∨ (c.ai.ok && c.ao.ok) = false) :
    ∃ sa' r, sparseArraySet sa c.index c.obj c.ai c.ao = .ok (sa', r) ∧
      Holds sa' (lastSet (pre ++ if r = 0 then [c] else [])) ∧
      distinct (pre ++ if r = 0 then [c] else []) ≤ 2 ^ 30 ∧ (r < 0 → Unchanged sa sa') := by
  have hneg : ¬ -enomem = 0 := by decide
  by_cases hd : distinct (pre ++ [c]) ≤ 2 ^ 30
  · rcases sparseArraySet_spec h (h.room hd) c.obj c.ai c.ao with ⟨sa', hset, hh⟩ | ⟨sa', hset, -, hh, hn, hs⟩
    · refine ⟨sa', 0, hset, ?_, ?_, fun hlt => absurd hlt (Int.lt_irrefl 0)⟩
      · rwa [if_pos rfl, lastSet_append]
      · rwa [if_pos rfl]
    · refine ⟨sa', -enomem, hset, ?_, ?_, fun _ => h.unchanged hh hn hs⟩
      · rwa [if_neg hneg, List.append_nil]
      · rwa [if_neg hneg, List.append_nil]
  · -- The array is full of `2^30` pairs, and this would be one more.
    have hnr : sa.nrObjs = distinct pre := h.nrObjs_eq
    have hmore := distinct_concat_le pre c
    have hnone : lastSet pre c.index = none := by
      by_contra hne
      have hmem := lastSet_isSome.1 (Option.isSome_iff_ne_none.2 hne)
      refine hd ?_
      rw [distinct, List.map_append, List.map_singleton, List.toFinset_append, Finset.union_eq_left.2 (by simpa using hmem)]
      exact hle
    obtain ⟨sa', hset, hh, hn, hs⟩ := sparseArraySet_fails h hnone (h.full (by omega)) c.obj (hc.resolve_left hd)
    refine ⟨sa', -enomem, hset, ?_, ?_, fun _ => h.unchanged hh hn hs⟩
    · rwa [if_neg hneg, List.append_nil]
    · rwa [if_neg hneg, List.append_nil]

theorem StoresAtMost.before {n : Nat} {sa₀ : SparseArrayT α} {cs ds : List (SetCall α)} (h : StoresAtMost n sa₀ ds)
    (hpre : cs <+: ds) : StoresAtMost n sa₀ cs := fun pre c hc => h pre c (hc.trans hpre)

/-- **A run with failures** is a finite map of the calls that returned 0. -/
theorem runSets_stored {sa₀ : SparseArrayT α} (h₀ : Holds sa₀ fun _ => none) {cs : List (SetCall α)}
    (hc : StoresAtMost (2 ^ 30) sa₀ cs) :
    ∃ sa rs, runSets sa₀ cs = .ok (sa, rs) ∧ Holds sa (lastSet (stored cs rs)) ∧ distinct (stored cs rs) ≤ 2 ^ 30 := by
  induction cs using List.reverseRecOn with
  | nil => exact ⟨sa₀, [], rfl, h₀, Nat.zero_le _⟩
  | append_singleton cs c ih =>
    obtain ⟨sa, rs, hrun, hh, hle⟩ := ih (hc.before (List.prefix_append cs [c]))
    obtain ⟨sa', r, hset, hh', hle', -⟩ := hh.set_stored hle (hc cs c List.prefix_rfl sa rs hrun)
    have hstored := stored_concat (length_of_runSets hrun) c r
    refine ⟨sa', rs ++ [r], ?_, by rwa [hstored], by rwa [hstored]⟩
    simp [runSets_concat, hrun, hset]

/-- **A failed `sparse_array_set` changes nothing.** In every run from a fresh
array that stores at most `2^30` different indices, whichever `realloc` fails
in whichever calls: every call returns; one that returns a negative value
leaves the array as it was to every caller; and at the end, as at every point
before, the array is the finite map of the calls that returned 0. -/
theorem failed_sets_change_nothing (ao : Alloc α) (ai : Alloc Int) (ho : ao.ok = true) (hi : ai.ok = true) :
    ∃ sa₀, sparseArrayCreate true ao ai = some sa₀ ∧ ∀ cs, StoresAtMost (2 ^ 30) sa₀ cs →
      (∃ sa rs, runSets sa₀ cs = .ok (sa, rs) ∧ ∀ q obj, sparseArrayGet sa q obj =
        .ok (match lastSet (stored cs rs) q with | some o => (0, o) | none => (-1, obj))) ∧
      ∀ pre c, pre ++ [c] <+: cs → ∃ sa rs sa' r, runSets sa₀ pre = .ok (sa, rs) ∧
        sparseArraySet sa c.index c.obj c.ai c.ao = .ok (sa', r) ∧ (r < 0 → Unchanged sa sa') := by
  obtain ⟨sa₀, h₀, hh₀⟩ := sparseArrayCreate_holds ho hi
  refine ⟨sa₀, h₀, fun cs hc => ⟨?_, fun pre c hpre => ?_⟩⟩
  · obtain ⟨sa, rs, hrun, hh, -⟩ := runSets_stored hh₀ hc
    exact ⟨sa, rs, hrun, sparseArrayGet_spec hh⟩
  · obtain ⟨sa, rs, hrun, hh, hle⟩ := runSets_stored hh₀ (hc.before ((List.prefix_append pre [c]).trans hpre))
    obtain ⟨sa', r, hset, -, -, hun⟩ := hh.set_stored hle (hc pre c hpre sa rs hrun)
    exact ⟨sa, rs, sa', r, hrun, hset, hun⟩

theorem storesAtMost_of_distinct {n : Nat} {cs : List (SetCall α)} (h : distinct cs ≤ n) (sa₀ : SparseArrayT α) :
    StoresAtMost n sa₀ cs := by
  intro pre c hpre sa rs _
  refine .inl (Nat.le_trans (card_index_mono fun d hd => hpre.subset ?_) h)
  exact ((stored_sublist pre rs).append_right [c]).subset hd

/-- The index `i`, for an array that may or may not get the memory for its
objects. -/
def sampleCall (ok : Bool) (i : Nat) : SetCall Nat := ⟨i, i, calm, ⟨ok, fun _ => 0⟩⟩

/-- Sixty-four indices and one more: `indices` grows, `objs` does not, and the
call returns `-ENOMEM`. -/
theorem failed_sets_change_nothing_sample :
    ∃ sa₀, sparseArrayCreate true calm calm = some sa₀ ∧
      ∃ sa rs sa', runSets sa₀ ((List.range 64).map (sampleCall true)) = .ok (sa, rs) ∧
        sparseArraySet sa 64 64 calm ⟨false, fun _ => 0⟩ = .ok (sa', -enomem) ∧ Unchanged sa sa' := by
  obtain ⟨sa₀, h₀, hruns⟩ := failed_sets_change_nothing (calm : Alloc Nat) calm rfl rfl
  have hfew : distinct ((List.range 64).map (sampleCall true) ++ [sampleCall false 64]) ≤ 2 ^ 30 :=
    Nat.le_trans (List.toFinset_card_le _) (by simp)
  obtain ⟨-, hlast⟩ := hruns _ (storesAtMost_of_distinct hfew sa₀)
  obtain ⟨sa, rs, sa', r, hrun, hset, hun⟩ := hlast _ _ List.prefix_rfl
  -- The array is full: it holds 64 pairs, and it has not grown.
  have hcalm : (calm : Alloc Nat).ok = true ∧ (calm : Alloc Int).ok = true := ⟨rfl, rfl⟩
  obtain ⟨sa₁, h₁, hempty⟩ := sparseArrayCreate_holds hcalm.1 hcalm.2
  obtain rfl : sa₀ = sa₁ := Option.some.inj (h₀.symm.trans h₁)
  have hok : ∀ c ∈ (List.range 64).map (sampleCall true), (c.ai.ok && c.ao.ok) = true := by simp [sampleCall, calm]
  obtain ⟨sa₂, hrun₂, hh⟩ := runSets_holds hok [] hempty (Nat.le_trans (List.toFinset_card_le _) (by simp))
  obtain ⟨rfl, -⟩ : sa = sa₂ ∧ rs = _ := by simpa [hrun] using hrun₂
  have hnr : sa.nrObjs = 64 := hh.nrObjs_eq.trans rfl
  have hfull : sa.nrObjs = sa.size := by
    obtain ⟨k, hk, hc⟩ := hh.capacity
    have hle := hh.le
    unfold initLen at hk
    rcases Nat.eq_zero_or_pos k with rfl | hpos
    · omega
    · have : 2 ^ 1 ≤ 2 ^ k := Nat.pow_le_pow_right (by decide) hpos
      omega
  have hnone : lastSet ((List.range 64).map (sampleCall true)) 64 = none := rfl
  have hnomem : ((calm : Alloc Int).ok && (⟨false, fun _ => 0⟩ : Alloc Nat).ok) = false := rfl
  obtain ⟨sa₃, hfail, -⟩ := sparseArraySet_fails hh hnone hfull 64 hnomem
  obtain ⟨rfl, rfl⟩ : sa' = sa₃ ∧ r = -enomem := by simpa [sampleCall] using hset.symm.trans hfail
  exact ⟨sa₀, h₀, sa, rs, sa', hrun, hset, hun (by decide)⟩

/-! ## Two runs -/

/-- `sa` comes from a fresh array by these calls, which all returned 0 and name
at most `2^30` different indices. -/
structure Built (cs : List (SetCall α)) (sa : SparseArrayT α) : Prop where
  run : ∃ ao ai sa₀, sparseArrayCreate true ao ai = some sa₀ ∧ runSets sa₀ cs = .ok (sa, cs.map fun _ => 0)
  distinct : distinct cs ≤ 2 ^ 30

/-- Two arrays with the same contents and capacity. -/
structure Same (sa sb : SparseArrayT α) : Prop where
  nrObjs : sa.nrObjs = sb.nrObjs
  indices : sa.indices.take sa.nrObjs = sb.indices.take sb.nrObjs
  objs : sa.objs.take sa.nrObjs = sb.objs.take sb.nrObjs
  size : sa.size = sb.size

/-- The capacities there are, from `n` on. -/
def capacities (n : Nat) : Set Nat := {s | n ≤ s ∧ ∃ k, s = initLen * 2 ^ k}

theorem stored_all (cs : List (SetCall α)) : stored cs (cs.map fun _ => 0) = cs := by
  induction cs with
  | nil => rfl
  | cons c cs ih => rw [List.map_cons, stored, if_pos rfl, ih]

theorem length_of_memmove {β : Type} {b c : List β} {dst src n : Nat} (h : memmove b dst src n = .ok c) :
    dst + n ≤ b.length := by
  unfold memmove at h
  split at h
  · next hle => exact hle.1
  · cases h

theorem sparseArrayCreate_unusable {ao : Alloc α} {ai : Alloc Int} {sa₀ : SparseArrayT α}
    (h₀ : sparseArrayCreate true ao ai = some sa₀) {c : SetCall α} {x : SparseArrayT α × Int}
    (h : sparseArraySet sa₀ c.index c.obj c.ai c.ao = .ok x) : ao.ok = true ∧ ai.ok = true := by
  cases h₀
  have hinsert : (bitNot 0 : Int) < 0 := by decide
  obtain ⟨ret, hsearch, h⟩ := bind_ok_iff.1 h
  cases hsearch
  rw [if_pos hinsert] at h
  obtain ⟨g, hgrow, h⟩ := bind_ok_iff.1 h
  cases hgrow
  obtain ⟨sa, hsa, -⟩ := bind_ok_iff.1 h
  obtain ⟨bi, hbi, hsa⟩ := bind_ok_iff.1 hsa
  obtain ⟨bo, hbo, -⟩ := bind_ok_iff.1 hsa
  have hi := length_of_memmove hbi
  have ho := length_of_memmove hbo
  constructor
  · by_contra hfail
    simp [Alloc.malloc, hfail] at ho
  · by_contra hfail
    simp [Alloc.malloc, hfail] at hi

theorem Built.contents {cs : List (SetCall α)} {sa : SparseArrayT α} (h : Built cs sa) :
    Rep (sa.indices.take sa.nrObjs) (sa.objs.take sa.nrObjs) (lastSet cs) ∧
      (sa.indices.take sa.nrObjs).length = sa.nrObjs ∧ sa.nrObjs ≤ sa.size ∧ Capacity sa.size sa.nrObjs := by
  obtain ⟨ao, ai, sa₀, h₀, hrun⟩ := h.run
  cases cs with
  | nil =>
    cases hrun
    cases h₀
    exact ⟨Rep.nil, rfl, Nat.zero_le _, 0, rfl, .inl rfl⟩
  | cons c cs =>
    have hbuffers : ao.ok = true ∧ ai.ok = true := by
      obtain ⟨x, hset, -⟩ := bind_ok_iff.1 hrun
      exact sparseArrayCreate_unusable h₀ hset
    obtain ⟨sa₁, h₁, hempty⟩ := sparseArrayCreate_holds hbuffers.1 hbuffers.2
    obtain rfl : sa₀ = sa₁ := Option.some.inj (h₀.symm.trans h₁)
    obtain ⟨sb, rs, hrun', hh, -⟩ := runSets_stored hempty (storesAtMost_of_distinct h.distinct sa₀)
    obtain ⟨rfl, rfl⟩ := Prod.mk.inj (Except.ok.inj (hrun'.symm.trans hrun))
    rw [stored_all] at hh
    refine ⟨hh.rep, ?_, hh.le, hh.capacity⟩
    rw [List.length_take, Nat.min_eq_left (Nat.le_trans hh.le hh.indices)]

theorem Capacity.isLeast {size n : Nat} (h : Capacity size n) (hle : n ≤ size) : IsLeast (capacities n) size := by
  obtain ⟨k, rfl, hk⟩ := h
  refine ⟨⟨hle, k, rfl⟩, ?_⟩
  intro s h
  obtain ⟨hs, j, rfl⟩ := h
  rcases hk with rfl | hlt
  · exact Nat.mul_le_mul_left _ (Nat.pow_le_pow_right (by decide) (Nat.zero_le j))
  · -- The next smaller one would not do.
    have hkj : k ≤ j := by
      by_contra hgt
      have hpow : initLen * 2 ^ (j + 1) ≤ initLen * 2 ^ k :=
        Nat.mul_le_mul_left _ (Nat.pow_le_pow_right (by decide) (by omega))
      rw [Nat.pow_succ, ← Nat.mul_assoc] at hpow
      omega
    exact Nat.mul_le_mul_left _ (Nat.pow_le_pow_right (by decide) hkj)

theorem lastSet_append_list (cs ds : List (SetCall α)) (q : Int) :
    lastSet (cs ++ ds) q = (lastSet ds q).or (lastSet cs q) := by
  simp only [lastSet, List.reverse_append, List.find?_append, Option.map_or]

/-- Sets of different indices commute, as far as the map goes. -/
theorem lastSet_swap {c d : SetCall α} (hne : c.index ≠ d.index) (pre post : List (SetCall α)) :
    lastSet (pre ++ c :: d :: post) = lastSet (pre ++ d :: c :: post) := by
  have hpair : lastSet [c, d] = lastSet [d, c] := by
    have hsets : ∀ x y : SetCall α, lastSet [x, y] =
        Function.update (Function.update (lastSet []) x.index (some x.obj)) y.index (some y.obj) := by
      intro x y
      rw [← lastSet_append, ← lastSet_append]
      rfl
    rw [hsets, hsets, Function.update_comm hne]
  have hsplit : ∀ x y : SetCall α, pre ++ x :: y :: post = pre ++ [x, y] ++ post := by simp
  funext q
  rw [hsplit, hsplit, lastSet_append_list, lastSet_append_list _ post, lastSet_append_list pre,
    lastSet_append_list pre, hpair]

/-- **The representation is canonical.** Two runs of successful calls that
define the same map leave the same number of pairs, the same pairs in the same
places, and the same capacity, the least that holds them; so do two runs that
differ in the order of two calls of different indices. -/
theorem sparseArray_canonical {cs ds : List (SetCall α)} {sa sb : SparseArrayT α} (ha : Built cs sa) (hb : Built ds sb) :
    (lastSet cs = lastSet ds → Same sa sb) ∧
      (∀ pre c d post, cs = pre ++ c :: d :: post → ds = pre ++ d :: c :: post → c.index ≠ d.index → Same sa sb) ∧
      IsLeast (capacities sa.nrObjs) sa.size := by
  obtain ⟨hrep, hlen, hle, hcap⟩ := ha.contents
  obtain ⟨hrep', hlen', hle', hcap'⟩ := hb.contents
  have hsame : lastSet cs = lastSet ds → Same sa sb := by
    intro hmap
    rw [← hmap] at hrep'
    obtain ⟨hkeys, hvalues⟩ := hrep.unique hrep'
    have hnr : sa.nrObjs = sb.nrObjs := by rw [← hlen, ← hlen', hkeys]
    refine ⟨hnr, hkeys, hvalues, (hcap.isLeast hle).unique ?_⟩
    rw [hnr]
    exact hcap'.isLeast hle'
  refine ⟨hsame, fun pre c d post hcs hds hne => hsame ?_, hcap.isLeast hle⟩
  rw [hcs, hds, lastSet_swap hne]

theorem exists_built {cs : List (SetCall α)} (hok : ∀ c ∈ cs, (c.ai.ok && c.ao.ok) = true) (hd : distinct cs ≤ 2 ^ 30)
    (junk : α) : ∃ sa, Built cs sa := by
  have hjunk : (⟨true, fun _ => junk⟩ : Alloc α).ok = true := rfl
  have hcalm : (calm : Alloc Int).ok = true := rfl
  obtain ⟨sa₀, h₀, hempty⟩ := sparseArrayCreate_holds hjunk hcalm
  obtain ⟨sa, hrun, -⟩ := runSets_holds hok [] hempty hd
  exact ⟨sa, ⟨_, _, sa₀, h₀, hrun⟩, hd⟩

theorem sparseArray_canonical_sample :
    ∃ sa sb, Built [⟨5, 'a', calm, calm⟩, ⟨-3, 'b', calm, calm⟩, ⟨5, 'c', calm, calm⟩] sa ∧
      Built [⟨5, 'c', calm, calm⟩, ⟨-3, 'b', calm, calm⟩] sb ∧ Same sa sb := by
  obtain ⟨sa, ha⟩ : ∃ sa, Built [⟨5, 'a', calm, calm⟩, ⟨-3, 'b', calm, calm⟩, ⟨5, 'c', calm, calm⟩] sa :=
    exists_built (by simp [calm]) (by decide) 'z'
  obtain ⟨sb, hb⟩ : ∃ sb, Built [⟨5, 'c', calm, calm⟩, ⟨-3, 'b', calm, calm⟩] sb :=
    exists_built (by simp [calm]) (by decide) 'z'
  refine ⟨sa, sb, ha, hb, (sparseArray_canonical ha hb).1 ?_⟩
  funext q
  by_cases h5 : 5 = q
  · subst h5
    rfl
  · have hbeq : ((5 : Int) == q) = false := by simpa using h5
    cases h3 : ((-3 : Int) == q) <;> simp [lastSet, List.find?, hbeq, h3]

end SugarNSpice.SparseArray
