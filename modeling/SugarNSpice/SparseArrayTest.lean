/-
`test_sparse_array.c`'s `run_test1`: random pairs are stored, each read back
at once, and the first thing that is not as expected aborts the program.

The pairs and what the allocator does are those of a list of calls; the source
has 10000 of them, with indices below 20000. `test_failed` ends the test with
the message it was called with (`Verdict`).
-/
import SugarNSpice.SparseArrayRunFacts

namespace SugarNSpice.SparseArray

open CLang

/-- How `run_test1` ends: with a 0, or in one of its calls of `test_failed`. -/
inductive Verdict where
  | passed
  | createFailed
  | setFailed (ret : Int)
  | getFailed (ret : Int)
  | verifyFailed (index set get : Int)

/-- The loop; `objp` has whatever the last turn left in it. -/
def testLoop (sa : SparseArrayT Int) (objp : Int) : List (SetCall Int) → Outcome Verdict
  | [] => .ok .passed
  | c :: cs => do
    let (sa, ret) ← sparseArraySet sa c.index c.obj c.ai c.ao
    if ret < 0 then .ok (.setFailed ret)
    else do
      let (ret, objp) ← sparseArrayGet sa c.index objp
      if ret < 0 then .ok (.getFailed ret)
      else if objp ≠ c.obj then .ok (.verifyFailed c.index c.obj objp)
      else testLoop sa objp cs

def runTest1 (self : Bool) (ao ai : Alloc Int) (objp : Int) (cs : List (SetCall Int)) : Outcome Verdict :=
  match sparseArrayCreate self ao ai with
  | none => .ok .createFailed
  | some sa => testLoop sa objp cs

/-- From an array that holds the pairs so far, only the allocator can stop the
test. -/
theorem testLoop_verdict {pre cs : List (SetCall Int)} {sa : SparseArrayT Int} (h : Holds sa (lastSet pre))
    (hd : distinct (pre ++ cs) ≤ 2 ^ 30) (objp : Int) :
    ∃ v, testLoop sa objp cs = .ok v ∧ (v = .passed ∨ v = .setFailed (-enomem)) ∧
      ((∀ c ∈ cs, (c.ai.ok && c.ao.ok) = true) → v = .passed) := by
  induction cs generalizing pre sa objp with
  | nil => exact ⟨.passed, rfl, .inl rfl, fun _ => rfl⟩
  | cons c cs ih =>
    rcases sparseArraySet_spec h (h.room hd) c.obj c.ai c.ao with ⟨sa', hset, hh⟩ | ⟨sa', hset, hfail, -, -, -⟩
    · have hget := sparseArrayGet_spec hh c.index objp
      rw [Function.update_self] at hget
      rw [← lastSet_append] at hh
      obtain ⟨v, hv, hkinds, hall⟩ := ih hh (by simpa using hd) c.obj
      refine ⟨v, ?_, hkinds, fun hok => hall fun d hd => hok d (List.mem_cons_of_mem c hd)⟩
      simp [testLoop, hset, hget, hv]
    · refine ⟨.setFailed (-enomem), ?_, .inr rfl, fun hok => ?_⟩
      · have hneg : -enomem < 0 := by simp [enomem]
        rw [testLoop, hset, ok_bind]
        exact if_pos hneg
      · rw [hok c List.mem_cons_self] at hfail
        cases hfail

theorem distinct_le_length (cs : List (SetCall Int)) : distinct cs ≤ cs.length := by
  rw [distinct, ← List.length_map (f := (·.index))]
  exact List.toFinset_card_le _

/-- **`run_test1` finds nothing wrong**, whatever is random. With memory it
passes. With the buffers that `sparse_array_create` does not check allocated it
ends, and whatever else fails it never reports a pair that is missing or has
another value. Without one of them it stops at its first pair, out of
bounds. -/
theorem runTest1_passes {cs : List (SetCall Int)} (hlen : cs.length ≤ 2 ^ 30) (self : Bool) (ao ai : Alloc Int)
    (objp : Int) :
    ((self && ao.ok && ai.ok) = true → (∀ c ∈ cs, (c.ai.ok && c.ao.ok) = true) →
      runTest1 self ao ai objp cs = .ok .passed) ∧
      ((ao.ok && ai.ok) = true →
        ∃ v, runTest1 self ao ai objp cs = .ok v ∧ (v = .passed ∨ v = .createFailed ∨ v = .setFailed (-enomem))) ∧
        (self = true → (ao.ok && ai.ok) = false → cs ≠ [] → ∀ v, runTest1 self ao ai objp cs ≠ .ok v) := by
  have hd : distinct ([] ++ cs) ≤ 2 ^ 30 := (distinct_le_length cs).trans hlen
  have hverdict : ao.ok = true → ai.ok = true → ∃ v, runTest1 true ao ai objp cs = .ok v ∧
      (v = .passed ∨ v = .setFailed (-enomem)) ∧ ((∀ c ∈ cs, (c.ai.ok && c.ao.ok) = true) → v = .passed) := by
    intro ho hi
    obtain ⟨sa, hcreate, hh⟩ := sparseArrayCreate_holds ho hi
    obtain ⟨v, hv, hrest⟩ := @testLoop_verdict [] cs sa hh hd objp
    exact ⟨v, by rw [runTest1, hcreate]; exact hv, hrest⟩
  refine ⟨fun hok hcs => ?_, fun hok => ?_, fun hself hno hne v hv => ?_⟩
  · simp only [Bool.and_eq_true] at hok
    obtain ⟨⟨rfl, ho⟩, hi⟩ := hok
    obtain ⟨v, hv, -, hall⟩ := hverdict ho hi
    rw [hv, hall hcs]
  · rw [Bool.and_eq_true] at hok
    cases self with
    | false => exact ⟨.createFailed, rfl, .inr (.inl rfl)⟩
    | true =>
      obtain ⟨v, hv, hkinds, -⟩ := hverdict hok.1 hok.2
      exact ⟨v, hv, hkinds.imp id .inr⟩
  · subst hself
    cases cs with
    | nil => exact hne rfl
    | cons c cs =>
      -- A first call of `sparse_array_set` that returned has found both buffers.
      obtain ⟨x, hset, -⟩ := bind_ok_iff.1 hv
      obtain ⟨ho, hi⟩ := sparseArrayCreate_unusable rfl hset
      rw [ho, hi] at hno
      cases hno

/-- Nothing to be had. -/
def starved : Alloc Int := ⟨false, fun _ => 0⟩

/-- An index stored twice, and one in between: with memory, without it, and
without the buffer of the objects. -/
theorem runTest1_passes_sample :
    runTest1 true calm calm 0 [⟨5, 7, calm, calm⟩, ⟨-3, 1, calm, calm⟩, ⟨5, 8, calm, calm⟩] = .ok .passed ∧
      (∃ v, runTest1 true calm calm 0 [⟨5, 7, starved, starved⟩, ⟨-3, 1, starved, calm⟩] = .ok v ∧
        (v = .passed ∨ v = .createFailed ∨ v = .setFailed (-enomem))) ∧
      ∀ v, runTest1 true starved calm 0 [⟨5, 7, calm, calm⟩] ≠ .ok v := by
  refine ⟨(runTest1_passes (by simp) true calm calm 0).1 rfl fun c hc => ?_,
    (runTest1_passes (by simp) true calm calm 0).2.1 rfl,
    (runTest1_passes (by simp) true starved calm 0).2.2 rfl rfl (List.cons_ne_nil _ _)⟩
  simp only [List.mem_cons, List.not_mem_nil, or_false] at hc
  rcases hc with rfl | rfl | rfl <;> rfl

end SugarNSpice.SparseArray
