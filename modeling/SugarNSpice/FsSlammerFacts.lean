/-
When the total is what the threads wrote.

An update adds `bytes_wrote`, all that the thread has written in this pass, and
not what the last `write` returned. The two agree for the first bytes of a pass
only; so the total is right exactly as long as no thread updates it with bytes
of the pass already counted (`FirstOfPass`).
-/
import SugarNSpice.FsSlammer
import Mathlib.Algebra.BigOperators.Group.List.Basic
import Mathlib.Algebra.Ring.Nat

namespace SugarNSpice.FsSlammer

open Processes

variable {P : Type} [DecidableEq P] {maxPages : BitVec 32}

/-- The sum of what the `write`s of the trace returned. -/
def bytesWritten (tr : List (P × Event)) : Nat := (tr.map fun x => match x.2 with | .updated ret => ret).sum

omit [DecidableEq P] in
theorem bytesWritten_update (tr : List (P × Event)) (p : P) (ret : Nat) :
    bytesWritten (tr ++ events p (some (.updated ret))) = bytesWritten tr + ret := by
  simp [bytesWritten, events]

/-- `total_bytes_written` is that sum, as far as an `unsigned long` holds it. -/
def TotalExact (tr : List (P × Event)) (total : BitVec 64) : Prop := total = BitVec.ofNat 64 (bytesWritten tr)

omit [DecidableEq P] in
theorem totalExact_started : TotalExact ([] : List (P × Event)) (started (P := P)).shared := rfl

/-- If the thread is about to update the total, it has written nothing in this
pass before. -/
def FirstOfPass (s : State P (BitVec 64) Pc) (p : P) : Prop :=
  ∀ pages bytesWrote ret, s.loc p = .update pages bytesWrote ret → bytesWrote = 0

/-- What a `write` returns is at most a page. -/
def Pc.Bounded : Pc → Prop
  | .write _ _ n => n ≤ buffSize
  | .update _ _ ret => ret ≤ buffSize
  | _ => True

theorem slamJunk_bounded {tr : List (P × Event)} {s : State P (BitVec 64) Pc} (h : Run (slamJunk maxPages) started tr s)
    (p : P) : (s.loc p).Bounded := by
  refine Run.everyone (I := fun _ _ _ l => l.Bounded) (fun _ => trivial) ?_ ?_ h p
  · intro tr s p e sh l _ hl hstep
    generalize s.loc p = l₀ at hl hstep
    cases hstep with
    | reads hn => exact hn
    | writes hret => exact Nat.le_trans hret hl
    | _ => trivial
  · intro tr s p q e sh l _ _ hq _
    exact hq

theorem signExtend_ofNat {ret : Nat} (h : ret ≤ buffSize) :
    (BitVec.ofNat 32 ret).signExtend 64 = BitVec.ofNat 64 ret := by
  unfold buffSize at h
  apply BitVec.eq_of_toInt_eq
  rw [BitVec.toInt_signExtend_of_le (by decide), BitVec.toInt_ofNat', BitVec.toInt_ofNat',
    Int.bmod_eq_of_le (by omega) (by omega), Int.bmod_eq_of_le (by omega) (by omega)]

/-- An update adds `ret` exactly when `bytes_wrote` was 0. -/
theorem update_exact_iff {total : BitVec 64} {bytesWrote : BitVec 32} {ret : Nat} (h : ret ≤ buffSize) :
    total + (bytesWrote + BitVec.ofNat 32 ret).signExtend 64 = total + BitVec.ofNat 64 ret ↔ bytesWrote = 0 := by
  rw [BitVec.add_right_inj, ← signExtend_ofNat h]
  constructor
  · intro heq
    have hint := congrArg BitVec.toInt heq
    rw [BitVec.toInt_signExtend_of_le (by decide), BitVec.toInt_signExtend_of_le (by decide)] at hint
    exact BitVec.add_left_eq_self.1 (BitVec.eq_of_toInt_eq hint)
  · rintro rfl
    exact congrArg _ (BitVec.zero_add _)

/-- **One step**: it keeps the total exact if and only if it is not an update
with bytes of the pass already counted. -/
theorem step_exact_iff {tr : List (P × Event)} {s : State P (BitVec 64) Pc} (h : Run (slamJunk maxPages) started tr s)
    (hexact : TotalExact tr s.shared) {p : P} {e : Option Event} {sh : BitVec 64} {l : Pc}
    (hstep : slamJunk maxPages p s.shared (s.loc p) e sh l) :
    TotalExact (tr ++ events p e) sh ↔ FirstOfPass s p := by
  have hbounded := slamJunk_bounded h p
  unfold FirstOfPass
  generalize s.loc p = l₀ at hbounded hstep
  cases hstep with
  | @update _ _ pages bytesWrote ret =>
    rw [TotalExact, bytesWritten_update, BitVec.ofNat_add, ← hexact, update_exact_iff hbounded]
    constructor
    · intro h0 pages' bytesWrote' ret' heq
      cases heq
      exact h0
    · intro hfirst
      exact hfirst pages bytesWrote ret rfl
  | _ =>
    rw [append_events_none]
    exact ⟨fun _ _ _ _ heq => (by cases heq), fun _ => hexact⟩

/-- **When the total is what the threads wrote.** For any number of threads,
any `max_pages` and any results of their calls: in every run whose updates are
each the first of their thread's pass to come with bytes, the total is the sum
of what the counted `write`s returned, in every state reached; and from such a
state, an update that is not breaks it. -/
theorem total_exact_of_firstOfPass {tr : List (P × Event)} {s : State P (BitVec 64) Pc}
    (h : RunIf (slamJunk maxPages) FirstOfPass started tr s) :
    TotalExact tr s.shared ∧
      ∀ p e sh l, slamJunk maxPages p s.shared (s.loc p) e sh l →
        (TotalExact (tr ++ events p e) sh ↔ FirstOfPass s p) := by
  have hexact : TotalExact tr s.shared := by
    refine RunIf.invariant (I := fun tr s => TotalExact tr s.shared) totalExact_started ?_ h
    intro tr s p e sh l hrun ih hfirst hstep
    exact (step_exact_iff hrun.run ih hstep).2 hfirst
  exact ⟨hexact, fun p e sh l hstep => step_exact_iff h.run hexact hstep⟩

/-! ## One page to a pass -/

/-- With one page to a pass, a thread has written nothing before its update. -/
def Pc.OnePage : Pc → Prop
  | .pages k n => k = 0 ∨ k = 1 ∧ n = 0
  | .read k n | .write k n _ | .update k n _ => k = 0 ∧ n = 0
  | _ => True

omit [DecidableEq P] in
theorem Pc.OnePage.step {p : P} {total sh : BitVec 64} {e : Option Event} {l l' : Pc} (h : l.OnePage)
    (hstep : slamJunk 1 p total l e sh l') : l'.OnePage := by
  cases hstep with
  | opens => exact .inr ⟨rfl, rfl⟩
  | page hne =>
    obtain ⟨rfl, rfl⟩ := h.resolve_left hne
    exact ⟨by decide, rfl⟩
  | reads | writes => exact h
  | update => exact .inl h.1
  | _ => trivial

/-- **With `max_pages` 1 the total is always exact.** -/
theorem total_exact_onePage {tr : List (P × Event)} {s : State P (BitVec 64) Pc} (h : Run (slamJunk 1) started tr s) :
    TotalExact tr s.shared := by
  have hone : ∀ {tr s}, Run (slamJunk 1) (started (P := P)) tr s → ∀ p, (s.loc p).OnePage := by
    intro tr s hrun
    refine Run.everyone (I := fun _ _ _ l => l.OnePage) (fun _ => trivial) ?_ ?_ hrun
    · intro tr s p e sh l _ hl hstep
      exact hl.step hstep
    · intro tr s p q e sh l _ _ hq _
      exact hq
  refine Run.invariant (I := fun tr s => TotalExact tr s.shared) totalExact_started ?_ h
  intro tr s p e sh l hrun ih hstep
  refine (step_exact_iff hrun ih hstep).2 fun pages bytesWrote ret hl => ?_
  have hp := hone hrun p
  rw [hl] at hp
  exact hp.2

/-! ## Two pages -/

omit [DecidableEq P] in
theorem page_path {p : P} {total : BitVec 64} {pages bytesWrote : BitVec 32} (h : pages ≠ 0) :
    Path (slamJunk maxPages) p [(p, .updated 4096)] (total, .pages pages bytesWrote)
      (total + (bytesWrote + BitVec.ofNat 32 4096).signExtend 64,
        .pages (pages - 1) (bytesWrote + BitVec.ofNat 32 4096)) := by
  refine Path.quiet (.page h) ?_
  refine Path.quiet (.reads (show 4096 ≤ buffSize by decide)) ?_
  refine Path.quiet (.writes (Nat.le_refl 4096)) ?_
  exact Path.event .update .refl

/-- **A second page counts the first one again**: 12288 bytes for 8192. -/
theorem total_counts_twice :
    ∃ tr s, Run (slamJunk (P := Fin 1) 2) started tr s ∧ bytesWritten tr = 8192 ∧ s.shared = 12288 ∧
      ¬ TotalExact tr s.shared := by
  have h : Run (slamJunk (P := Fin 1) 2) started [] started := .nil
  have h := h.path (p := 0) (Path.quiet .opens (page_path (by decide)))
  have h := h.path (p := 0) (page_path (by decide))
  refine ⟨_, _, h, rfl, by decide, ?_⟩
  unfold TotalExact
  decide

omit [DecidableEq P] in
theorem firstOfPass_of_loc {s : State P (BitVec 64) Pc} {p : P} {l : Pc} (hl : s.loc p = l)
    (h : ∀ pages bytesWrote ret, l = .update pages bytesWrote ret → bytesWrote = 0) : FirstOfPass s p := by
  intro pages bytesWrote ret hu
  exact h pages bytesWrote ret (hl.symm.trans hu)

/-- One of two threads has written a page. -/
theorem total_exact_of_firstOfPass_sample :
    ∃ tr s, RunIf (slamJunk (P := Fin 2) 2) FirstOfPass started tr s ∧ bytesWritten tr = 4096 ∧
      TotalExact tr s.shared := by
  have h : RunIf (slamJunk (P := Fin 2) 2) FirstOfPass started [] started := .nil
  have h := h.next (p := 0) (l := .pages 2 0) rfl (firstOfPass_of_loc rfl nofun) .opens
  have h := h.next (p := 0) (l := .read 1 0) rfl (firstOfPass_of_loc rfl nofun) (.page (by decide))
  have h := h.next (p := 0) (l := .write 1 0 4096) rfl (firstOfPass_of_loc rfl nofun) (.reads (by decide))
  have h := h.next (p := 0) (l := .update 1 0 4096) rfl (firstOfPass_of_loc rfl nofun) (.writes (by decide))
  have h := h.next (p := 0) rfl (firstOfPass_of_loc rfl fun _ _ _ hu => by cases hu; rfl) .update
  exact ⟨_, _, h, rfl, (total_exact_of_firstOfPass h).1⟩

end SugarNSpice.FsSlammer
