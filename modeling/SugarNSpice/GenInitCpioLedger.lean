/-
The books of `gen_init_cpio`'s threads, over every run.

A group is known by its line and the inode number the line got. Beside the
run goes a ledger: the groups that are on stdout, and for each worker those
that are not there yet, in its file or in a buffer on the way. A handler adds
to its worker's part, a copy to stdout empties it. As long as every copy finds
less than 2^31 bytes (`ftell`'s result goes into an `int`), the ledger
accounts for all bytes (`ledger_of_runs`).
-/
import SugarNSpice.CpioFacts
import SugarNSpice.GenInitCpio
import Mathlib.Data.List.Count
import Mathlib.Data.List.Nodup
import Mathlib.Data.List.Range
import Mathlib.Data.BitVec

namespace SugarNSpice.GenInitCpio

open Cpio Processes

variable {job : Job} {n : Nat}

/-! ## Places -/

def mainAt (s : State (Option (Fin n)) (Shared n) Pc) : MainPc :=
  match s.loc none with
  | .main m => m
  | .worker _ => .join 0

def workerAt (s : State (Option (Fin n)) (Shared n) Pc) (t : Fin n) : WorkerPc :=
  match s.loc (some t) with
  | .worker w => w
  | .main _ => .line 0

/-- A state that a run reaches, by its places. -/
def Reaches (job : Job) (tr : List (Option (Fin n) × Event)) (sh : Shared n) (m : MainPc) (w : Fin n → WorkerPc) :
    Prop :=
  ∃ s, Runs job n tr s ∧ s.shared = sh ∧ mainAt s = m ∧ workerAt s = w

theorem workerAt_move (s : State (Option (Fin n)) (Shared n) Pc) (t : Fin n) (sh : Shared n) (w : WorkerPc) :
    workerAt (s.move (some t) sh (.worker w)) = Function.update (workerAt s) t w := by
  funext u
  by_cases hu : u = t
  · subst hu
    simp [workerAt]
  · simp [workerAt, State.move, hu]

theorem mainAt_move (s : State (Option (Fin n)) (Shared n) Pc) (t : Fin n) (sh : Shared n) (l : Pc) :
    mainAt (s.move (some t) sh l) = mainAt s := by simp [mainAt, State.move]

theorem mainAt_move_none (s : State (Option (Fin n)) (Shared n) Pc) (sh : Shared n) (m : MainPc) :
    mainAt (s.move none sh (.main m)) = m := by simp [mainAt]

theorem workerAt_move_none (s : State (Option (Fin n)) (Shared n) Pc) (sh : Shared n) (l : Pc) :
    workerAt (s.move none sh l) = workerAt s := by
  funext u
  simp [workerAt, State.move]

/-- Invariants on places: one case for a step of a worker, one for `main`. -/
theorem Runs.invariant
    {I : List (Option (Fin n) × Event) → Shared n → MainPc → (Fin n → WorkerPc) → Prop}
    (init : I [] (start n).shared (.join 0) fun _ => .line 0)
    (worker : ∀ {tr sh m w t e sh' w'}, Reaches job tr sh m w → I tr sh m w → workerStep job t sh (w t) e sh' w' →
      I (tr ++ events (some t) e) sh' m (Function.update w t w'))
    (main : ∀ {tr sh m w e sh' m'}, Reaches job tr sh m w → I tr sh m w → mainStep sh m e sh' m' →
      I (tr ++ events none e) sh' m' w) :
    ∀ {tr s}, Runs job n tr s → I tr s.shared (mainAt s) (workerAt s) := by
  intro tr s h
  refine Run.invariant (I := fun tr s => I tr s.shared (mainAt s) (workerAt s)) ?_ ?_ h
  · have hw : workerAt (start n) = fun _ => .line 0 := by
      funext t
      simp [workerAt, start]
    rw [hw]
    exact init
  · intro tr s p e sh l hrun ih hstep
    have hreach : Reaches job tr s.shared (mainAt s) (workerAt s) := ⟨s, hrun, rfl, rfl, rfl⟩
    generalize hl₀ : s.loc p = l₀ at hstep
    cases hstep with
    | @worker t _ w _ _ w' hstep =>
      have hat : workerAt s t = w := by simp [workerAt, hl₀]
      rw [workerAt_move, mainAt_move]
      exact worker hreach ih (hat ▸ hstep)
    | @main _ m _ _ m' hstep =>
      have hat : mainAt s = m := by simp [mainAt, hl₀]
      rw [workerAt_move_none, mainAt_move_none]
      exact main hreach ih (hat ▸ hstep)

/-! ## Joins -/

/-- How many workers `main` has joined. -/
def MainPc.joined : MainPc → Nat
  | .join i => i
  | .lock i | .read i | .write i _ | .unlock i => i + 1

/-- What `main` has joined has returned; a worker in a handler is there for its
line's entry. -/
structure Control (job : Job) (sh : Shared n) (m : MainPc) (w : Fin n → WorkerPc) : Prop where
  ended : ∀ t, sh.ended t = true → w t = .ended
  joined : ∀ t : Fin n, t.val < m.joined → w t = .ended
  joined_le : m.joined ≤ n
  emit : ∀ t i e ino, w t = .emit i e ino → job.entry i = some e

theorem workerStep.alive {t : Fin n} {sh sh' : Shared n} {w w' : WorkerPc} {e : Option Event}
    (h : workerStep job t sh w e sh' w') : w ≠ .ended := by
  intro heq
  subst heq
  cases h

/-- The flag goes up with the last step, and only then. -/
theorem workerStep.ended_or {t : Fin n} {sh sh' : Shared n} {w w' : WorkerPc} {e : Option Event}
    (h : workerStep job t sh w e sh' w') :
    sh'.ended = sh.ended ∨ (sh'.ended = Function.update sh.ended t true ∧ w' = .ended) := by
  cases h with
  | stop | finish => exact .inr ⟨rfl, rfl⟩
  | _ => exact .inl rfl

theorem Job.entry_eq {i : Nat} {line : List Byte} {e : Entry} (hi : job.table[i]? = some line)
    (ha : action job.files line = .emit e) : job.entry i = some e := by simp [Job.entry, hi, ha]

theorem workerStep.emit_entry {t : Fin n} {sh sh' : Shared n} {w w' : WorkerPc} {ev : Option Event} {i : Nat}
    {e : Entry} {ino : BitVec 32} (h : workerStep job t sh w ev sh' w') (hw : w' = .emit i e ino) :
    job.entry i = some e := by
  cases h with
  | getIno hi _ ha =>
    cases hw
    exact Job.entry_eq hi ha
  | _ => cases hw

theorem mainStep.ended_eq {sh sh' : Shared n} {m m' : MainPc} {e : Option Event} (h : mainStep sh m e sh' m') :
    sh'.ended = sh.ended := by cases h <;> rfl

theorem mainStep.joined_or {sh sh' : Shared n} {m m' : MainPc} {e : Option Event} (h : mainStep sh m e sh' m')
    (t : Fin n) (ht : t.val < m'.joined) : t.val < m.joined ∨ sh.ended t = true := by
  cases h with
  | @join i hi hended =>
    rcases Nat.lt_succ_iff_lt_or_eq.1 ht with h | h
    · exact .inl h
    · obtain rfl : t = ⟨i, hi⟩ := Fin.ext h
      exact .inr hended
  | _ => exact .inl ht

theorem mainStep.joined_le {sh sh' : Shared n} {m m' : MainPc} {e : Option Event} (h : mainStep sh m e sh' m')
    (hm : m.joined ≤ n) : m'.joined ≤ n := by
  cases h with
  | join hi _ => exact hi
  | _ => exact hm

/-- A worker's step: its flag is up only when it has returned, and a worker
that was joined takes none. -/
theorem Control.worker {sh sh' : Shared n} {m : MainPc} {w : Fin n → WorkerPc} {t : Fin n} {e : Option Event}
    {w' : WorkerPc} (h : Control job sh m w) (hstep : workerStep job t sh (w t) e sh' w') :
    Control job sh' m (Function.update w t w') := by
  refine ⟨fun u hu => ?_, fun u hu => ?_, h.joined_le, fun u i e ino hu => ?_⟩
  · by_cases hut : u = t
    · subst hut
      rw [Function.update_self]
      rcases hstep.ended_or with heq | ⟨-, hw'⟩
      · exact absurd (h.ended u (heq ▸ hu)) hstep.alive
      · exact hw'
    · rw [Function.update_of_ne hut]
      rcases hstep.ended_or with heq | ⟨heq, -⟩
      · exact h.ended u (heq ▸ hu)
      · rw [heq, Function.update_of_ne hut] at hu
        exact h.ended u hu
  · have hw := h.joined u hu
    have hut : u ≠ t := fun heq => hstep.alive (heq ▸ hw)
    rw [Function.update_of_ne hut]
    exact hw
  · by_cases hut : u = t
    · subst hut
      rw [Function.update_self] at hu
      exact hstep.emit_entry hu
    · rw [Function.update_of_ne hut] at hu
      exact h.emit u i e ino hu

theorem Control.main {sh sh' : Shared n} {m m' : MainPc} {w : Fin n → WorkerPc} {e : Option Event}
    (h : Control job sh m w) (hstep : mainStep sh m e sh' m') : Control job sh' m' w := by
  refine ⟨fun t ht => h.ended t (hstep.ended_eq ▸ ht), fun t ht => ?_, hstep.joined_le h.joined_le, h.emit⟩
  rcases hstep.joined_or t ht with hj | hj
  · exact h.joined t hj
  · exact h.ended t hj

theorem control_of_runs : ∀ {tr s}, Runs job n tr s → Control job s.shared (mainAt s) (workerAt s) := by
  refine Runs.invariant (I := fun _ => Control job) ?_ ?_ ?_
  · refine ⟨fun t h => ?_, fun t h => absurd h (Nat.not_lt_zero _), Nat.zero_le n, fun t i e ino h => ?_⟩
    · cases h
    · cases h
  · exact fun _ ih hstep => ih.worker hstep
  · exact fun _ ih hstep => ih.main hstep

theorem Reaches.control {tr : List (Option (Fin n) × Event)} {sh : Shared n} {m : MainPc} {w : Fin n → WorkerPc}
    (h : Reaches job tr sh m w) : Control job sh m w := by
  obtain ⟨s, hrun, rfl, rfl, rfl⟩ := h
  exact control_of_runs hrun

/-! ## Numbers -/

/-- A group, by its line and number. -/
abbrev Mark := Nat × BitVec 32

def Event.mark : Event → Option Mark
  | .ino i v => some (i, v)
  | .dump _ => none

/-- The numbers given so far, in order. -/
def issued (tr : List (Option (Fin n) × Event)) : List Mark := tr.filterMap fun x => x.2.mark

theorem issued_events (tr : List (Option (Fin n) × Event)) (p : Option (Fin n)) (e : Option Event) :
    issued (tr ++ events p e) = issued tr ++ (e.bind Event.mark).toList := by
  rcases e with _ | ⟨i, v⟩ | pos <;> simp [issued, events, Event.mark]

/-- A step gives no number, or the next one to the line it takes up. -/
theorem workerStep.mark_or {t : Fin n} {sh sh' : Shared n} {w w' : WorkerPc} {e : Option Event}
    (h : workerStep job t sh w e sh' w') :
    ((e.bind Event.mark).toList = [] ∧ sh'.iNo = sh.iNo) ∨
      ∃ i, (e.bind Event.mark).toList = [(i, sh.iNo)] ∧ sh'.iNo = sh.iNo + 1 ∧ owner n i = t := by
  cases h with
  | getIno _ howner _ => exact .inr ⟨_, rfl, rfl, howner⟩
  | _ => exact .inl ⟨rfl, rfl⟩

theorem mainStep.mark_eq {sh sh' : Shared n} {m m' : MainPc} {e : Option Event} (h : mainStep sh m e sh' m') :
    (e.bind Event.mark).toList = [] ∧ sh'.iNo = sh.iNo := by cases h <;> exact ⟨rfl, rfl⟩

theorem mainStep.issued_eq {sh sh' : Shared n} {m m' : MainPc} {e : Option Event} (h : mainStep sh m e sh' m')
    (tr : List (Option (Fin n) × Event)) : issued (tr ++ events none e) = issued tr := by
  rw [issued_events, h.mark_eq.1, List.append_nil]

/-- The `k`th result of `get_ino`. -/
def nthIno (k : Nat) : BitVec 32 := 721 + BitVec.ofNat 32 k

theorem issued_numbers : ∀ {tr s}, Runs job n tr s →
    s.shared.iNo = nthIno (issued tr).length ∧
      (issued tr).map Prod.snd = (List.range (issued tr).length).map nthIno := by
  refine Runs.invariant (I := fun tr sh _ _ => sh.iNo = nthIno (issued tr).length ∧
    (issued tr).map Prod.snd = (List.range (issued tr).length).map nthIno) ⟨rfl, rfl⟩ ?_ ?_
  · intro tr sh m w t e sh' w' _ ih hstep
    rw [issued_events]
    rcases hstep.mark_or with ⟨heq, hino⟩ | ⟨i, heq, hino, _⟩
    · rw [heq, hino, List.append_nil]
      exact ih
    · obtain ⟨hnext, hall⟩ := ih
      rw [heq, hino, List.length_append, List.length_singleton]
      refine ⟨?_, ?_⟩
      · rw [hnext, nthIno, nthIno, BitVec.ofNat_add, BitVec.add_assoc]
        rfl
      · rw [List.range_succ, List.map_append, List.map_append, hall, List.map_singleton, List.map_singleton, hnext]
  · intro tr sh m w e sh' m' _ ih hstep
    rw [hstep.issued_eq, hstep.mark_eq.2]
    exact ih

theorem nodup_map_nthIno {k : Nat} (hk : k ≤ 2 ^ 32) : ((List.range k).map nthIno).Nodup := by
  refine List.Nodup.map_on (fun a ha b hb hab => ?_) List.nodup_range
  have ha := List.mem_range.1 ha
  have hb := List.mem_range.1 hb
  have hnat := congrArg BitVec.toNat (add_left_cancel hab)
  rw [BitVec.toNat_ofNat, BitVec.toNat_ofNat, Nat.mod_eq_of_lt (by omega), Nat.mod_eq_of_lt (by omega)] at hnat
  exact hnat

/-! ## Lines -/

/-- The lines of the list that are entries. -/
def Job.lines (job : Job) : List Nat := (List.range job.table.length).filter fun i => (job.entry i).isSome

/-- Those before line `k` that are worker `t`'s. -/
def Job.linesOf (job : Job) (n t k : Nat) : List Nat :=
  (List.range k).filter fun i => (job.entry i).isSome ∧ owner n i = t

/-- Comments, blank lines and entries. Blanks without a newline stand at the
end. -/
def Job.WellFormed (job : Job) : Prop :=
  ∀ i line, job.table[i]? = some line →
    action job.files line = .skip ∨ (∃ e, action job.files line = .emit e) ∨
      (action job.files line = .stop ∧ i + 1 = job.table.length)

/-- How far a worker has taken up its lines. -/
def WorkerPc.reach (job : Job) : WorkerPc → Nat
  | .line i => i
  | .emit i _ _ | .tryLock i | .read i | .write i _ | .reset i | .unlock i => i + 1
  | .ended => job.table.length

/-- The part of a list that is worker `t`'s. -/
def own (n t : Nat) (gs : List Mark) : List Mark := gs.filter fun g => owner n g.1 = t

theorem own_append (t : Nat) (gs gs' : List Mark) : own n t (gs ++ gs') = own n t gs ++ own n t gs' :=
  List.filter_append _ _

theorem own_eq_self {t : Nat} {gs : List Mark} (h : ∀ g ∈ gs, owner n g.1 = t) : own n t gs = gs :=
  List.filter_eq_self.2 fun g hg => decide_eq_true (h g hg)

theorem own_eq_nil {t u : Nat} {gs : List Mark} (h : ∀ g ∈ gs, owner n g.1 = t) (hu : u ≠ t) : own n u gs = [] :=
  List.filter_eq_nil_iff.2 fun g hg => by simpa [h g hg] using Ne.symm hu

theorem owner_of_mem_own {t : Nat} {gs : List Mark} {g : Mark} (h : g ∈ own n t gs) : owner n g.1 = t :=
  of_decide_eq_true (List.mem_filter.1 h).2

theorem Job.linesOf_skip {t i : Nat} (h : job.entry i = none ∨ owner n i ≠ t) :
    job.linesOf n t (i + 1) = job.linesOf n t i := by
  rcases h with h | h <;> simp [Job.linesOf, List.range_succ, List.filter_append, h]

theorem Job.linesOf_take {t i : Nat} {e : Entry} (he : job.entry i = some e) (ht : owner n i = t) :
    job.linesOf n t (i + 1) = job.linesOf n t i ++ [i] := by
  simp [Job.linesOf, List.range_succ, List.filter_append, he, ht]

theorem Job.entry_none {i : Nat} {line : List Byte} (hi : job.table[i]? = some line)
    (ha : ∀ e, action job.files line ≠ .emit e) : job.entry i = none := by
  rw [Job.entry, hi, Option.map_some]
  split
  · next e he => exact absurd (Option.some.inj he) (ha e)
  · rfl

theorem workerStep.owner_mark {t : Fin n} {sh sh' : Shared n} {w w' : WorkerPc} {e : Option Event}
    (h : workerStep job t sh w e sh' w') : ∀ g ∈ (e.bind Event.mark).toList, owner n g.1 = t := by
  rcases h.mark_or with ⟨heq, _⟩ | ⟨i, heq, _, howner⟩
  · simp [heq]
  · simpa [heq] using howner

theorem workerStep.own_issued {t : Fin n} {sh sh' : Shared n} {w w' : WorkerPc} {e : Option Event}
    (h : workerStep job t sh w e sh' w') (tr : List (Option (Fin n) × Event)) :
    own n t (issued (tr ++ events (some t) e)) = own n t (issued tr) ++ (e.bind Event.mark).toList := by
  rw [issued_events, own_append, own_eq_self h.owner_mark]

theorem workerStep.own_issued_of_ne {t u : Fin n} {sh sh' : Shared n} {w w' : WorkerPc} {e : Option Event}
    (h : workerStep job t sh w e sh' w') (hu : u ≠ t) (tr : List (Option (Fin n) × Event)) :
    own n u (issued (tr ++ events (some t) e)) = own n u (issued tr) := by
  rw [issued_events, own_append, own_eq_nil h.owner_mark fun heq => hu (Fin.ext heq), List.append_nil]

theorem workerStep.linesOf_eq {t : Fin n} {sh sh' : Shared n} {w w' : WorkerPc} {e : Option Event}
    (hw : job.WellFormed) (h : workerStep job t sh w e sh' w') :
    job.linesOf n t (w'.reach job) = job.linesOf n t (w.reach job) ++ ((e.bind Event.mark).toList).map Prod.fst := by
  cases h with
  | other _ howner => exact (Job.linesOf_skip (.inr howner)).trans (List.append_nil _).symm
  | skip hi _ ha => exact (Job.linesOf_skip (.inl (Job.entry_none hi (by simp [ha])))).trans (List.append_nil _).symm
  | @stop i line hi _ ha =>
    have hlast : i + 1 = job.table.length := by simpa [ha] using hw i line hi
    rw [WorkerPc.reach, WorkerPc.reach, ← hlast]
    exact (Job.linesOf_skip (.inl (Job.entry_none hi (by simp [ha])))).trans (List.append_nil _).symm
  | @nothing i line hi _ ha =>
    refine (Job.linesOf_skip (.inl (Job.entry_none hi fun e he => ?_))).trans (List.append_nil _).symm
    rw [he] at ha
    simp at ha
  | getIno hi howner ha => exact Job.linesOf_take (Job.entry_eq hi ha) howner
  | _ => exact (List.append_nil _).symm

theorem issued_lines (hw : job.WellFormed) : ∀ {tr s}, Runs job n tr s →
    ∀ t : Fin n, (own n t (issued tr)).map Prod.fst = job.linesOf n t ((workerAt s t).reach job) := by
  refine Runs.invariant (I := fun tr _ _ w => ∀ t : Fin n,
    (own n t (issued tr)).map Prod.fst = job.linesOf n t ((w t).reach job)) (fun _ => rfl) ?_ ?_
  · intro tr sh m w t e sh' w' _ ih hstep u
    by_cases hut : u = t
    · subst hut
      rw [Function.update_self, hstep.own_issued, List.map_append, ih u, hstep.linesOf_eq hw]
    · rw [Function.update_of_ne hut, hstep.own_issued_of_ne hut, ih u]
  · intro tr sh m w e sh' m' _ ih hstep u
    rw [hstep.issued_eq]
    exact ih u

/-! ## The ledger -/

/-- The records of line `i`, for whatever number it gets. -/
def Job.template (job : Job) (i : Nat) (ino : BitVec 32) : List (List Byte) :=
  ((job.entry i).map (Entry.records job.mtime ino)).getD []

/-- The bytes of a group: its records, one after the other. -/
def Job.group (job : Job) (g : Mark) : List Byte := (job.template g.1 g.2).flatten

/-- The bytes of groups, one after the other. -/
def Job.bytes (job : Job) (gs : List Mark) : List Byte := gs.flatMap job.group

/-- What a worker has not got to stdout: in its file, in a buffer, or nothing. -/
inductive View where
  | waiting
  | copied (buf : List Byte)
  | flushed

/-- Worker `t`'s part as `main` has it, after the join. -/
def MainPc.view (t : Nat) : MainPc → View
  | .join i | .lock i | .read i => if t < i then .flushed else .waiting
  | .write i buf => if t < i then .flushed else if t = i then .copied buf else .waiting
  | .unlock i => if t < i + 1 then .flushed else .waiting

/-- Worker `t`'s part. -/
def view (t : Nat) (m : MainPc) : WorkerPc → View
  | .write _ buf => .copied buf
  | .reset _ => .flushed
  | .ended => m.view t
  | _ => .waiting

/-- `gs` is what is in the file, or in the buffer. -/
def Held (job : Job) (f : TmpFile) (gs : List Mark) : View → Prop
  | .waiting => f.written = job.bytes gs
  | .copied buf => buf = job.bytes gs
  | .flushed => gs = []

/-- The group a worker has a number for but has not written. -/
def WorkerPc.holding : WorkerPc → List Mark
  | .emit i _ ino => [(i, ino)]
  | _ => []

/-- Each number that was given belongs to a group on stdout, a group that is
pending, or a worker in its handler; the bytes are where the ledger says. -/
structure Ledger (job : Job) (tr : List (Option (Fin n) × Event)) (sh : Shared n) (m : MainPc) (w : Fin n → WorkerPc)
    (out : List Mark) (pend : Fin n → List Mark) : Prop where
  stdout : sh.stdout = job.bytes out
  aligned : ∀ t, (sh.states t).offset.toNat % 4 = 0
  held : ∀ t : Fin n, Held job (sh.states t).fp (pend t) (view t m (w t))
  marks : ∀ t : Fin n, own n t (issued tr) = own n t out ++ pend t ++ (w t).holding

section Step

variable {tr tr' : List (Option (Fin n) × Event)} {sh sh' : Shared n} {m m' : MainPc} {w w' : Fin n → WorkerPc}
  {out : List Mark} {pend : Fin n → List Mark}

theorem Ledger.owner_pend (h : Ledger job tr sh m w out pend) {t : Fin n} {g : Mark} (hg : g ∈ pend t) :
    owner n g.1 = t := by
  have hmem : g ∈ own n t (issued tr) := by
    rw [h.marks t]
    exact List.mem_append_left _ (List.mem_append_right _ hg)
  exact owner_of_mem_own hmem

/-- A step on worker `t`'s part: the groups `gone` go to stdout, `left` is
pending afterwards, and nothing else changes. -/
theorem Ledger.step (h : Ledger job tr sh m w out pend) (t : Fin n) (gone left : List Mark)
    (others : ∀ u ≠ t, sh'.states u = sh.states u ∧ view u m' (w' u) = view u m (w u) ∧
      (w' u).holding = (w u).holding ∧ own n u (issued tr') = own n u (issued tr))
    (stdout : sh'.stdout = sh.stdout ++ job.bytes gone) (aligned : (sh'.states t).offset.toNat % 4 = 0)
    (held : Held job (sh'.states t).fp left (view t m' (w' t))) (owned : ∀ g ∈ gone, owner n g.1 = t)
    (marks : own n t (issued tr') = own n t out ++ gone ++ left ++ (w' t).holding) :
    Ledger job tr' sh' m' w' (out ++ gone) (Function.update pend t left) := by
  refine ⟨?_, fun u => ?_, fun u => ?_, fun u => ?_⟩
  · rw [stdout, h.stdout, Job.bytes, Job.bytes, Job.bytes, List.flatMap_append]
  · by_cases hu : u = t
    · exact hu ▸ aligned
    · rw [(others u hu).1]
      exact h.aligned u
  · by_cases hu : u = t
    · subst hu
      rw [Function.update_self]
      exact held
    · rw [Function.update_of_ne hu, (others u hu).1, (others u hu).2.1]
      exact h.held u
  · rw [own_append]
    by_cases hu : u = t
    · subst hu
      rw [Function.update_self, own_eq_self owned]
      exact marks
    · have hnil : own n u gone = [] := own_eq_nil owned fun h => hu (Fin.ext h)
      rw [Function.update_of_ne hu, hnil, List.append_nil, (others u hu).2.2.1, (others u hu).2.2.2]
      exact h.marks u

theorem Ledger.quiet (h : Ledger job tr sh m w out pend) (stdout : sh'.stdout = sh.stdout)
    (states : sh'.states = sh.states) (views : ∀ u : Fin n, m'.view u = m.view u) (marks : issued tr' = issued tr) :
    Ledger job tr' sh' m' w out pend := by
  refine ⟨stdout.trans h.stdout, fun u => ?_, fun u => ?_, fun u => ?_⟩
  · rw [states]
    exact h.aligned u
  · have hview : view u m' (w u) = view u m (w u) := by
      cases w u with
      | ended => exact views u
      | _ => rfl
    rw [states, hview]
    exact h.held u
  · rw [marks]
    exact h.marks u

end Step

/-! ## Copies -/

/-- Every copy finds less than 2^31 bytes. -/
def Small (tr : List (Option (Fin n) × Event)) : Prop := ∀ p pos, (p, .dump pos) ∈ tr → pos < 2 ^ 31

theorem Small.before {tr tr' : List (Option (Fin n) × Event)} (h : Small (tr ++ tr')) : Small tr :=
  fun p pos hp => h p pos (List.mem_append_left _ hp)

theorem Small.last {tr : List (Option (Fin n) × Event)} {p : Option (Fin n)} {pos : Nat}
    (h : Small (tr ++ events p (some (.dump pos)))) : pos < 2 ^ 31 :=
  h p pos (List.mem_append_right _ (List.mem_singleton.2 rfl))

theorem readBack_of_lt {f : TmpFile} (h : f.pos < 2 ^ 31) :
    readBack f = if f.pos = 0 then none else some (f.written, f) := by
  obtain ⟨data, pos, hle⟩ := f
  replace h : pos < 2 ^ 31 := h
  have hint : (BitVec.ofNat 32 pos).toInt = pos := by
    have hnat : (BitVec.ofNat 32 pos).toNat = pos := by
      rw [BitVec.toNat_ofNat, Nat.mod_eq_of_lt (Nat.lt_trans h (by decide))]
    rw [BitVec.toInt_eq_toNat_of_lt (by omega), hnat]
  unfold readBack
  simp only [hint, TmpFile.written]
  by_cases h0 : pos = 0
  · simp [h0]
  · simp [h0, Nat.pos_of_ne_zero h0, Nat.min_eq_left hle]

theorem readBack_some {f f' : TmpFile} {buf : List Byte} (hf : f.pos < 2 ^ 31) (h : readBack f = some (buf, f')) :
    buf = f.written ∧ f' = f := by
  rw [readBack_of_lt hf] at h
  split at h
  · cases h
  · cases h
    exact ⟨rfl, rfl⟩

theorem readBack_none {f : TmpFile} (hf : f.pos < 2 ^ 31) (h : readBack f = none) : f.written = [] := by
  rw [readBack_of_lt hf] at h
  split at h
  · next h0 => rw [TmpFile.written, h0, List.take_zero]
  · cases h

theorem Job.bytes_append (gs gs' : List Mark) : job.bytes (gs ++ gs') = job.bytes gs ++ job.bytes gs' :=
  List.flatMap_append

@[simp] theorem Job.bytes_nil : job.bytes [] = [] := rfl

theorem Job.bytes_singleton {i : Nat} {e : Entry} (h : job.entry i = some e) (ino : BitVec 32) :
    job.bytes [(i, ino)] = e.group job.mtime ino := by
  simp [Job.bytes, Job.group, Job.template, Entry.group, h]

/-- What `write_to_stdout` and the steps around it do to worker `t`'s part:
`gone` goes to stdout, `left` stays. -/
structure Moves (job : Job) (sh sh' : Shared n) (t : Fin n) (v' : View) (gone left : List Mark) : Prop where
  stdout : sh'.stdout = sh.stdout ++ job.bytes gone
  aligned : (sh'.states t).offset.toNat % 4 = 0
  held : Held job (sh'.states t).fp left v'

@[simp] theorem Shared.setState_self (sh : Shared n) (t : Fin n) (st : MyState) : (sh.setState t st).states t = st := by
  simp [Shared.setState]

/-- **A worker's step on its part**. -/
theorem workerStep.moves {t : Fin n} {sh sh' : Shared n} {m : MainPc} {w w' : WorkerPc} {ev : Option Event}
    {p : List Mark} (h : workerStep job t sh w ev sh' w') (aligned : (sh.states t).offset.toNat % 4 = 0)
    (held : Held job (sh.states t).fp p (view t m w)) (waits : m.view t = .waiting)
    (entry : ∀ i e ino, w = .emit i e ino → job.entry i = some e)
    (small : ∀ pos, ev = some (.dump pos) → pos < 2 ^ 31) :
    ∃ gone left, Moves job sh sh' t (view t m w') gone left ∧ (∀ g ∈ gone, g ∈ p) ∧
      p ++ w.holding ++ (ev.bind Event.mark).toList = gone ++ left ++ w'.holding := by
  have hstill : ∀ {sh' v'}, sh'.stdout = sh.stdout → sh'.states t = sh.states t → Held job (sh.states t).fp p v' →
      Moves job sh sh' t v' [] p := by
    intro sh' v' hout hst hheld
    refine ⟨?_, ?_, ?_⟩
    · rw [hout, Job.bytes_nil, List.append_nil]
    · rw [hst]
      exact aligned
    · rw [hst]
      exact hheld
  cases h with
  | stop | finish =>
    refine ⟨[], p, hstill rfl rfl ?_, by simp, by simp [WorkerPc.holding]⟩
    rw [view, waits]
    exact held
  | getIno =>
    exact ⟨[], p, hstill rfl rfl held, by simp, by simp [WorkerPc.holding, Event.mark]⟩
  | @emit i e ino =>
    have he := entry i e ino rfl
    obtain ⟨hwritten, hoffset⟩ := e.emit_appends job.mtime ino (sh.states t) aligned
    refine ⟨[], p ++ [(i, ino)], ⟨by simp [Shared.setState], ?_, ?_⟩, by simp, by simp [WorkerPc.holding]⟩
    · rw [Shared.setState_self]
      exact hoffset
    · rw [Shared.setState_self]
      exact hwritten.trans (by rw [Job.bytes_append, Job.bytes_singleton he]; exact congrArg (· ++ _) held)
  | @read i buf f hread =>
    obtain ⟨rfl, rfl⟩ := readBack_some (small _ rfl) hread
    refine ⟨[], p, hstill rfl ?_ held, by simp, by simp [WorkerPc.holding, Event.mark]⟩
    rw [Shared.setState_self]
  | readNone hread =>
    have hnil := readBack_none (small _ rfl) hread
    refine ⟨p, [], ⟨?_, aligned, rfl⟩, fun g hg => hg, by simp [WorkerPc.holding, Event.mark]⟩
    have hbytes : (sh.states t).fp.written = job.bytes p := held
    rw [← hbytes, hnil, List.append_nil]
  | @write i buf =>
    have hbytes : buf = job.bytes p := held
    exact ⟨p, [], ⟨by rw [← hbytes], aligned, rfl⟩, fun g hg => hg, by simp [WorkerPc.holding]⟩
  | reset =>
    obtain rfl : p = [] := held
    refine ⟨[], [], ⟨by simp [Shared.setState], ?_, ?_⟩, by simp, by simp [WorkerPc.holding]⟩
    · rw [Shared.setState_self]
      rfl
    · rw [Shared.setState_self]
      exact TmpFile.written_rewind _
  | _ => exact ⟨[], p, hstill rfl rfl held, by simp, by simp [WorkerPc.holding]⟩

theorem MainPc.view_waiting {t : Nat} {m : MainPc} (h : m.joined ≤ t) : m.view t = .waiting := by
  cases m with
  | join i => exact if_neg (Nat.not_lt.2 h)
  | lock i | read i => exact if_neg (fun hlt => absurd h (by simp only [MainPc.joined]; omega))
  | write i buf =>
    simp only [MainPc.joined] at h
    rw [MainPc.view, if_neg (by omega), if_neg (by omega)]
  | unlock i => exact if_neg (Nat.not_lt.2 h)

theorem workerStep.states_of_ne {t u : Fin n} {sh sh' : Shared n} {w w' : WorkerPc} {e : Option Event}
    (h : workerStep job t sh w e sh' w') (hu : u ≠ t) : sh'.states u = sh.states u := by
  cases h with
  | emit | read | reset => exact Function.update_of_ne hu _ _
  | _ => rfl

theorem Ledger.worker {tr : List (Option (Fin n) × Event)} {sh sh' : Shared n} {m : MainPc} {w : Fin n → WorkerPc}
    {out : List Mark} {pend : Fin n → List Mark} {t : Fin n} {e : Option Event} {w' : WorkerPc}
    (h : Ledger job tr sh m w out pend) (ctl : Control job sh m w) (small : Small (tr ++ events (some t) e))
    (hstep : workerStep job t sh (w t) e sh' w') :
    ∃ out' pend', Ledger job (tr ++ events (some t) e) sh' m (Function.update w t w') out' pend' := by
  have hjoined : m.joined ≤ t := Nat.not_lt.1 fun hlt => hstep.alive (ctl.joined t hlt)
  have hsmall : ∀ pos, e = some (.dump pos) → pos < 2 ^ 31 := by
    intro pos hev
    subst hev
    exact small.last
  obtain ⟨gone, left, hmoves, hgone, hmarks⟩ :=
    hstep.moves (h.aligned t) (h.held t) (MainPc.view_waiting hjoined) (ctl.emit t) hsmall
  refine ⟨_, _, h.step t gone left (fun u hu => ?_) hmoves.stdout hmoves.aligned ?_
    (fun g hg => h.owner_pend (hgone g hg)) ?_⟩
  · rw [Function.update_of_ne hu]
    exact ⟨hstep.states_of_ne hu, rfl, rfl, hstep.own_issued_of_ne hu tr⟩
  · rw [Function.update_self]
    exact hmoves.held
  · rw [Function.update_self, hstep.own_issued, h.marks t]
    simp only [List.append_assoc] at hmarks ⊢
    rw [hmarks]

/-- A worker's part is seen by `main` as before, unless it is the one whose
turn it is. -/
theorem mainStep.view_of_ne {sh sh' : Shared n} {m m' : MainPc} {e : Option Event} {t u : Fin n}
    (h : mainStep sh m e sh' m') (ht : m.joined = t + 1) (hu : u ≠ t) : m'.view u = m.view u := by
  have hne : u.val ≠ t.val := fun heq => hu (Fin.ext heq)
  cases h with
  | join | lock | unlock => rfl
  | @read i =>
    obtain rfl : i = t := Nat.succ.inj ht
    simp only [MainPc.view, hne, if_false]
  | @readNone i | @write i =>
    obtain rfl : i = t := Nat.succ.inj ht
    have hiff : u.val < t.val + 1 ↔ u.val < t.val := by omega
    simp only [MainPc.view, hne, if_false, hiff]

theorem mainStep.states_of_ne {sh sh' : Shared n} {m m' : MainPc} {e : Option Event} {t u : Fin n}
    (h : mainStep sh m e sh' m') (ht : m.joined = t + 1) (hu : u ≠ t) : sh'.states u = sh.states u := by
  cases h with
  | @read i _ _ hi =>
    obtain rfl : t = ⟨i, hi⟩ := Fin.ext (Nat.succ.inj ht).symm
    exact Function.update_of_ne hu _ _
  | _ => rfl

/-- **A step of `main` on the part of the worker whose turn it is**. -/
theorem mainStep.moves {sh sh' : Shared n} {m m' : MainPc} {ev : Option Event} {t : Fin n} {p : List Mark}
    (h : mainStep sh m ev sh' m') (ht : m.joined = t + 1) (aligned : (sh.states t).offset.toNat % 4 = 0)
    (held : Held job (sh.states t).fp p (m.view t)) (small : ∀ pos, ev = some (.dump pos) → pos < 2 ^ 31) :
    ∃ gone left, Moves job sh sh' t (m'.view t) gone left ∧ p = gone ++ left := by
  cases h with
  | @join i => exact ⟨[], p, ⟨by simp, aligned, held⟩, rfl⟩
  | @lock i | @unlock i => exact ⟨[], p, ⟨by simp, aligned, held⟩, rfl⟩
  | @read i buf f hi hread =>
    obtain rfl : t = ⟨i, hi⟩ := Fin.ext (Nat.succ.inj ht).symm
    obtain ⟨rfl, rfl⟩ := readBack_some (small _ rfl) hread
    simp only [MainPc.view, Nat.lt_irrefl, if_false] at held
    refine ⟨[], p, ⟨by simp [Shared.setState], ?_, ?_⟩, rfl⟩
    · rw [Shared.setState_self]
      exact aligned
    · simp only [MainPc.view, Nat.lt_irrefl, if_false, if_true]
      exact held
  | @readNone i hi hread =>
    obtain rfl : t = ⟨i, hi⟩ := Fin.ext (Nat.succ.inj ht).symm
    have hnil := readBack_none (small _ rfl) hread
    simp only [MainPc.view, Nat.lt_irrefl, if_false] at held
    refine ⟨p, [], ⟨?_, aligned, ?_⟩, (List.append_nil p).symm⟩
    · have hbytes : (sh.states _).fp.written = job.bytes p := held
      rw [← hbytes, hnil, List.append_nil]
    · simp [MainPc.view, Held]
  | @write i buf =>
    obtain rfl : i = t := Nat.succ.inj ht
    simp only [MainPc.view, Nat.lt_irrefl, if_false, if_true] at held
    have hbytes : buf = job.bytes p := held
    refine ⟨p, [], ⟨by rw [← hbytes], aligned, ?_⟩, (List.append_nil p).symm⟩
    simp [MainPc.view, Held]

theorem Ledger.main {tr : List (Option (Fin n) × Event)} {sh sh' : Shared n} {m m' : MainPc} {w : Fin n → WorkerPc}
    {out : List Mark} {pend : Fin n → List Mark} {e : Option Event} (h : Ledger job tr sh m w out pend)
    (ctl : Control job sh m w) (small : Small (tr ++ events none e)) (hstep : mainStep sh m e sh' m') :
    ∃ out' pend', Ledger job (tr ++ events none e) sh' m' w out' pend' := by
  have hissued := hstep.issued_eq tr
  by_cases hjoin : ∃ i, m = .join i
  · obtain ⟨i, rfl⟩ := hjoin
    cases hstep with
    | join => exact ⟨out, pend, h.quiet rfl rfl (fun u => rfl) hissued⟩
  · obtain ⟨t, ht⟩ : ∃ t : Fin n, m.joined = t + 1 := by
      have hle := ctl.joined_le
      cases m with
      | join i => exact absurd ⟨i, rfl⟩ hjoin
      | lock i | read i | write i | unlock i => exact ⟨⟨i, hle⟩, rfl⟩
    have hended := ctl.joined t (by omega)
    have hheld := h.held t
    rw [hended] at hheld
    have hsmall : ∀ pos, e = some (.dump pos) → pos < 2 ^ 31 := by
      intro pos hev
      subst hev
      exact small.last
    obtain ⟨gone, left, hmoves, hpend⟩ := hstep.moves ht (h.aligned t) hheld hsmall
    have howned : ∀ g ∈ gone, owner n g.1 = t := fun g hg => h.owner_pend (hpend ▸ List.mem_append_left _ hg)
    refine ⟨_, _, h.step t gone left (fun u hu => ?_) hmoves.stdout hmoves.aligned ?_ howned ?_⟩
    · refine ⟨hstep.states_of_ne ht hu, ?_, rfl, by rw [hissued]⟩
      cases w u with
      | ended => exact hstep.view_of_ne ht hu
      | _ => rfl
    · rw [hended]
      exact hmoves.held
    · rw [hissued, h.marks t, hpend, ← List.append_assoc]

/-- **The ledger of a run** whose copies are small. -/
theorem ledger_of_runs : ∀ {tr s}, Runs job n tr s → Small tr →
    ∃ out pend, Ledger job tr s.shared (mainAt s) (workerAt s) out pend := by
  refine Runs.invariant (I := fun tr sh m w => Small tr → ∃ out pend, Ledger job tr sh m w out pend) ?_ ?_ ?_
  · intro _
    exact ⟨[], fun _ => [], rfl, fun _ => rfl, fun _ => rfl, fun _ => rfl⟩
  · intro tr sh m w t e sh' w' hreach ih hstep hsmall
    obtain ⟨out, pend, h⟩ := ih hsmall.before
    exact h.worker hreach.control hsmall hstep
  · intro tr sh m w e sh' m' hreach ih hstep hsmall
    obtain ⟨out, pend, h⟩ := ih hsmall.before
    exact h.main hreach.control hsmall hstep

end SugarNSpice.GenInitCpio
