/-
Which errors `gen_init_cpio` reports: those of `pthread_create`, and no other.

A worker's `ec` tells whether it has met a bad line (`workerStep.nextEc_iff`),
but nothing reads it. So where every thread is created, the status is 0 and
the trailer is there whatever the workers or `mkstemp` met, and the program
does what it should exactly on lists without a bad line.
-/
import SugarNSpice.GenInitCpioExit
import SugarNSpice.GenInitCpioLedger

namespace SugarNSpice.GenInitCpio

open Cpio Processes
open CLang (ascii)

variable {job : Job} {n : Nat}

/-! ## Workers -/

/-- The handler fails, or the line has no type or no arguments. -/
def BadLine (files : Files) (line : List Byte) : Prop :=
  action files line = .fail ∨ action files line = .stop ∨ ∃ known, action files line = .noArgs known

/-- A bad line among worker `t`'s before line `k`. -/
def BadBefore (job : Job) (n t k : Nat) : Prop :=
  ∃ i < k, owner n i = t ∧ ∃ line, job.table[i]? = some line ∧ BadLine job.files line

theorem lineEc_ne_zero {ec : Int} {files : Files} {line : List Byte} :
    lineEc ec (action files line) ≠ 0 ↔ ec ≠ 0 ∨ BadLine files line := by
  unfold BadLine
  cases action files line <;> simp [lineEc]

theorem badBefore_succ {t i : Nat} : BadBefore job n t (i + 1) ↔ BadBefore job n t i ∨
    (owner n i = t ∧ ∃ line, job.table[i]? = some line ∧ BadLine job.files line) := by
  constructor
  · intro h
    obtain ⟨j, hj, hbad⟩ := h
    rcases Nat.lt_succ_iff_lt_or_eq.1 hj with hlt | rfl
    · exact .inl ⟨j, hlt, hbad⟩
    · exact .inr hbad
  · intro h
    rcases h with ⟨j, hj, hbad⟩ | hbad
    · exact ⟨j, by omega, hbad⟩
    · exact ⟨i, by omega, hbad⟩

theorem badBefore_other {t i : Nat} (h : owner n i ≠ t) : BadBefore job n t (i + 1) ↔ BadBefore job n t i := by
  rw [badBefore_succ]
  simp [h]

theorem nextEc_own {t i : Nat} {ec : Int} {line : List Byte} (hi : job.table[i]? = some line) (ht : owner n i = t)
    (h : ec ≠ 0 ↔ BadBefore job n t i) :
    (WorkerPc.line i).nextEc job n t ec ≠ 0 ↔ BadBefore job n t (i + 1) := by
  rw [badBefore_succ, WorkerPc.nextEc, hi]
  simp only [ht, if_true]
  rw [lineEc_ne_zero, h]
  simp

/-- **A worker's `ec`** tells whether there was a bad line. -/
theorem workerStep.nextEc_iff {t : Fin n} {sh sh' : Shared n} {w w' : WorkerPc} {e : Option Event} {ec : Int}
    (hstep : workerStep job t sh w e sh' w') (h : ec ≠ 0 ↔ BadBefore job n t (w.reach job)) :
    w.nextEc job n t ec ≠ 0 ↔ BadBefore job n t (w'.reach job) := by
  cases hstep with
  | @other i _ ht =>
    have hsame : (WorkerPc.line i).nextEc job n t ec = ec := by
      rw [WorkerPc.nextEc]
      cases job.table[i]? with
      | none => rfl
      | some line => exact if_neg ht
    rw [hsame]
    exact h.trans (badBefore_other ht).symm
  | skip hi ht | nothing hi ht | getIno hi ht => exact nextEc_own hi ht h
  | @stop i line hi ht ha =>
    have hbad : BadLine job.files line := .inr (.inl ha)
    have hlt := (List.getElem?_eq_some_iff.1 hi).1
    refine ⟨fun _ => ⟨i, hlt, ht, line, hi, hbad⟩, fun _ => (nextEc_own hi ht h).2 ?_⟩
    exact badBefore_succ.2 (.inr ⟨ht, line, hi, hbad⟩)
  | finish =>
    have hnone : job.table[job.table.length]? = none := List.getElem?_eq_none (Nat.le_refl _)
    simp only [WorkerPc.nextEc, hnone]
    exact h
  | emit | busy | tryLock | read | readNone | write | reset | unlock => exact h

/-! ## `main` -/

section Main

variable {tr : List (Option (Fin n) × ExitEvent)} {s : State (Option (Fin n)) (ExitShared n) ExitPc}

/-- How `main` came to `__exit`. -/
def Leaves (tr : List (Option (Fin n) × ExitEvent)) (sh : ExitShared n) (ec : Int) : Prop :=
  (0 < ec ∧ ec < 256 ∧ tr = [(none, .createFails)]) ∨ (ec = 0 ∧ tr = [(none, .tmpFails)]) ∨
    (ec = 0 ∧ tr = [] ∧ ∀ t, sh.base.ended t = true)

/-- What is known of `main`, place by place. -/
def MainBooks (tr : List (Option (Fin n) × ExitEvent)) (sh : ExitShared n) : ExitMain → Prop
  | .create _ => tr = []
  | .collect m => tr = [] ∧ ∀ t : Fin n, t.val < m.joined → sh.base.ended t = true
  | .leave ec => Leaves tr sh ec
  | .exited ec trailer => Leaves tr sh ec ∧ trailer = decide (ec = 0)

theorem MainBooks.mono {sh sh' : ExitShared n} {m : ExitMain} (h : MainBooks tr sh m)
    (hended : ∀ t, sh.base.ended t = true → sh'.base.ended t = true) : MainBooks tr sh' m := by
  have hleaves : ∀ {ec}, Leaves tr sh ec → Leaves tr sh' ec := fun h =>
    h.imp_right (Or.imp_right fun ⟨hec, htr, hall⟩ => ⟨hec, htr, fun t => hended t (hall t)⟩)
  cases m with
  | create i => exact h
  | collect m => exact ⟨h.1, fun t ht => hended t (h.2 t ht)⟩
  | leave ec => exact hleaves h
  | exited ec trailer => exact ⟨hleaves h.1, h.2⟩

theorem exitMainStep.ended_eq {sh sh' : ExitShared n} {m m' : ExitMain} {e : Option ExitEvent}
    (h : exitMainStep sh m e sh' m') : sh'.base.ended = sh.base.ended := by
  cases h with
  | collect h => exact h.ended_eq
  | _ => rfl

theorem exitMainStep.books {sh sh' : ExitShared n} {m m' : ExitMain} {e : Option ExitEvent}
    (hstep : exitMainStep sh m e sh' m') (h : MainBooks tr sh m) : MainBooks (tr ++ events none e) sh' m' := by
  have hquiet : tr ++ events none (none : Option ExitEvent) = tr := List.append_nil tr
  cases hstep with
  | tmpFails =>
    have htr : tr = [] := h
    subst htr
    exact .inr (.inl ⟨rfl, rfl⟩)
  | createFails _ hpos hlt =>
    have htr : tr = [] := h
    subst htr
    exact .inl ⟨hpos, hlt, rfl⟩
  | create => exact hquiet.trans h
  | created => exact ⟨hquiet.trans h, fun t ht => absurd ht (Nat.not_lt_zero _)⟩
  | collect hm =>
    obtain ⟨htr, hjoined⟩ := h
    refine ⟨hquiet.trans htr, fun t ht => ?_⟩
    have hended : sh.base.ended t = true := (hm.joined_or t ht).elim (hjoined t) id
    exact congrFun hm.ended_eq t ▸ hended
  | joined =>
    rw [hquiet]
    exact .inr (.inr ⟨rfl, h.1, fun t => h.2 t t.isLt⟩)
  | trailer =>
    rw [hquiet]
    exact ⟨h, rfl⟩
  | noTrailer hne =>
    rw [hquiet]
    exact ⟨h, by simp [hne]⟩

/-- What is known of each process. -/
def Books (job : Job) : Option (Fin n) → List (Option (Fin n) × ExitEvent) → ExitShared n → ExitPc → Prop
  | none, tr, sh, .main m => MainBooks tr sh m
  | some t, _, sh, .worker w ec =>
    (ec ≠ 0 ↔ BadBefore job n t (w.reach job)) ∧ (sh.base.ended t = true → w = .ended)
  | _, _, _, _ => False

theorem workerStep.ended_mono {t u : Fin n} {sh sh' : Shared n} {w w' : WorkerPc} {e : Option Event}
    (h : workerStep job t sh w e sh' w') (hu : sh.ended u = true) : sh'.ended u = true := by
  rcases h.ended_or with heq | ⟨heq, -⟩
  · rwa [heq]
  · rw [heq]
    by_cases hut : u = t
    · rw [hut, Function.update_self]
    · rwa [Function.update_of_ne hut]

theorem workerStep.ended_other {t u : Fin n} {sh sh' : Shared n} {w w' : WorkerPc} {e : Option Event}
    (h : workerStep job t sh w e sh' w') (hu : u ≠ t) : sh'.ended u = sh.ended u := by
  rcases h.ended_or with heq | ⟨heq, -⟩
  · rw [heq]
  · rw [heq, Function.update_of_ne hu]

theorem books_of_runs (h : ExitRuns job n tr s) (p : Option (Fin n)) : Books job p tr s.shared (s.loc p) := by
  refine Run.everyone (I := Books job) ?_ ?_ ?_ h p
  · intro p
    cases p with
    | none => exact rfl
    | some t =>
      refine ⟨⟨fun h => absurd rfl h, fun h => ?_⟩, fun h => nomatch h⟩
      obtain ⟨i, hi, -⟩ := h
      exact absurd hi (Nat.not_lt_zero i)
  · intro tr s p e sh l _ ih hstep
    generalize s.shared = sh₀, s.loc p = l₀ at hstep ih
    cases hstep with
    | worker _ _ hstep =>
      refine ⟨hstep.nextEc_iff ih.1, fun hended => ?_⟩
      rcases hstep.ended_or with heq | ⟨-, hw⟩
      · exact absurd (ih.2 (heq ▸ hended)) hstep.alive
      · exact hw
    | main hstep => exact hstep.books ih
  · intro tr s p q e sh l hqp _ ih hstep
    generalize s.shared = sh₀, s.loc p = l₀, s.loc q = l₁ at hstep ih ⊢
    cases hstep with
    | @worker t _ _ _ _ _ _ _ _ hstep =>
      match q, l₁, ih with
      | none, .main m, ih =>
        have hquiet : tr ++ events (some t) (none : Option ExitEvent) = tr := List.append_nil tr
        rw [hquiet]
        exact MainBooks.mono ih fun u hu => hstep.ended_mono hu
      | some u, .worker w ec, ih =>
        have hut : u ≠ t := fun h => hqp (congrArg some h)
        exact ⟨ih.1, fun hended => ih.2 (hstep.ended_other hut ▸ hended)⟩
    | main hstep =>
      match q, l₁, ih with
      | none, _, _ => exact absurd rfl hqp
      | some u, .worker w ec, ih => exact ⟨ih.1, fun hended => ih.2 (congrFun hstep.ended_eq u ▸ hended)⟩

/-- A worker's handler has failed or it has met a malformed line, or a
temporary file could not be made. -/
def Failed (tr : List (Option (Fin n) × ExitEvent)) (s : State (Option (Fin n)) (ExitShared n) ExitPc) : Prop :=
  (∃ t w ec, s.loc (some t) = .worker w ec ∧ ec ≠ 0) ∨ (none, .tmpFails) ∈ tr

/-- A failure makes for a status that is not 0 and no trailer; and status 0
with a trailer says that all lines have been handled without one. -/
def Reports (tr : List (Option (Fin n) × ExitEvent)) (s : State (Option (Fin n)) (ExitShared n) ExitPc) (ec : Int)
    (trailer : Bool) : Prop :=
  (Failed tr s → exitStatus ec ≠ 0 ∧ trailer = false) ∧
    (exitStatus ec = 0 ∧ trailer = true → ¬ Failed tr s ∧ ∀ t, ∃ ec, s.loc (some t) = .worker .ended ec)

theorem worker_ended (h : ExitRuns job n tr s) {t : Fin n} (hended : s.shared.base.ended t = true) :
    ∃ ec, s.loc (some t) = .worker .ended ec ∧ (ec ≠ 0 ↔ BadBefore job n t job.table.length) := by
  have hbooks := books_of_runs h (some t)
  cases hl : s.loc (some t) with
  | main m =>
    rw [hl] at hbooks
    exact hbooks.elim
  | worker w ec =>
    rw [hl] at hbooks
    obtain ⟨hec, hw⟩ := hbooks
    obtain rfl := hw hended
    exact ⟨ec, rfl, hec⟩

/-- Where all workers have returned, one has failed if there is a bad line. -/
theorem worker_failed_iff (hn : 0 < n) (h : ExitRuns job n tr s) (hended : ∀ t, s.shared.base.ended t = true) :
    (∃ t w ec, s.loc (some t) = .worker w ec ∧ ec ≠ 0) ↔ ∃ line ∈ job.table, BadLine job.files line := by
  constructor
  · intro hfailed
    obtain ⟨t, w, ec, hl, hne⟩ := hfailed
    obtain ⟨ec', hl', hec⟩ := worker_ended h (hended t)
    rw [hl] at hl'
    cases hl'
    obtain ⟨i, -, -, line, hi, hbad⟩ := hec.1 hne
    exact ⟨line, List.mem_of_getElem? hi, hbad⟩
  · intro hline
    obtain ⟨line, hmem, hbad⟩ := hline
    obtain ⟨i, hi⟩ := List.mem_iff_getElem?.1 hmem
    have hlt := (List.getElem?_eq_some_iff.1 hi).1
    obtain ⟨ec, hl, hec⟩ := worker_ended h (hended ⟨owner n i, Nat.mod_lt _ hn⟩)
    exact ⟨_, _, ec, hl, hec.2 ⟨i, hlt, rfl, line, hi, hbad⟩⟩

/-- **When failures are reported**: in a run that has come to its exit, exactly
when a thread could not be created, or all temporary files were made and no
line of the list is bad. -/
theorem exit_reports_iff (hn : 0 < n) (h : ExitRuns job n tr s) {ec : Int} {trailer : Bool}
    (hexit : s.loc none = .main (.exited ec trailer)) :
    Reports tr s ec trailer ↔ (none, .createFails) ∈ tr ∨
      ((none, .tmpFails) ∉ tr ∧ ∀ line ∈ job.table, ¬ BadLine job.files line) := by
  have hbooks := books_of_runs h none
  rw [hexit] at hbooks
  obtain ⟨hleaves, rfl⟩ := hbooks
  rcases hleaves with ⟨hpos, hlt, rfl⟩ | ⟨rfl, rfl⟩ | ⟨rfl, rfl, hended⟩
  · have hstatus : exitStatus ec ≠ 0 := by
      unfold exitStatus
      omega
    have hno : decide (ec = 0) = false := decide_eq_false (by omega)
    refine iff_of_true ⟨fun _ => ⟨hstatus, hno⟩, fun hzero => absurd hzero.1 hstatus⟩ (.inl (.head _))
  · refine iff_of_false (fun hreports => ?_) (by simp)
    exact (hreports.1 (.inr (.head _))).1 rfl
  · have hworkers := worker_failed_iff hn h hended
    have hfailed : Failed ([] : List (Option (Fin n) × ExitEvent)) s ↔ ∃ line ∈ job.table, BadLine job.files line := by
      rw [← hworkers, Failed]
      simp
    constructor
    · intro hreports
      refine .inr ⟨List.not_mem_nil, fun line hline hbad => ?_⟩
      exact (hreports.1 (hfailed.2 ⟨line, hline, hbad⟩)).1 rfl
    · intro hcond
      have hgood := hcond.resolve_left List.not_mem_nil
      have hnone : ¬ Failed ([] : List (Option (Fin n) × ExitEvent)) s := by
        rw [hfailed]
        intro hbad
        obtain ⟨line, hline, hbad⟩ := hbad
        exact hgood.2 line hline hbad
      refine ⟨fun hf => absurd hf hnone, fun _ => ⟨hnone, fun t => ?_⟩⟩
      obtain ⟨ec, hl, -⟩ := worker_ended h (hended t)
      exact ⟨ec, hl⟩

end Main

/-! ## Runs with one line and one thread -/

def created : ExitShared 1 := ⟨(start 1).shared, fun _ => true, false⟩

theorem solo_created (job : Job) :
    ExitRuns job 1 [] ⟨created, fun p => if p = none then .main (.create 1) else .worker (.line 0) 0⟩ := by
  have hboot : ExitRuns job 1 [] (boot 1) := .nil
  have hstep := hboot.step (p := none) (.main (.create Nat.one_pos))
  have hcreated : Function.update (boot 1).shared.created ⟨0, Nat.one_pos⟩ true = fun _ => true := by
    funext t
    rw [Fin.fin_one_eq_zero t]
    exact Function.update_self ..
  have hloc : Function.update (boot 1).loc none (.main (.create 1)) =
      fun p => if p = none then .main (.create 1) else .worker (.line 0) 0 := by
    funext p
    cases p <;> simp [boot]
  rw [State.move, hcreated, hloc] at hstep
  exact hstep

/-- `main`, from the creation of the last thread to its exit, where the worker
has left nothing. -/
theorem solo_exits (job : Job) {sh : ExitShared 1} (hended : sh.base.ended 0 = true) (hlocked : sh.base.locked = false)
    (hpos : (sh.base.states 0).fp.pos = 0) :
    ∃ sh', Path (exitProgram job) none [] (sh, .main (.create 1)) (sh', .main (.exited 0 true)) := by
  have hread : mainStep { sh.base with locked := true } (.read 0) (some (.dump (sh.base.states 0).fp.pos))
      { sh.base with locked := true } (.unlock 0) := .readNone Nat.one_pos (by simp [readBack, hpos])
  refine ⟨⟨⟨sh.base.stdout ++ (cpioTrailer ⟨0, TmpFile.empty⟩).fp.data, false, sh.base.iNo, sh.base.states,
    sh.base.ended⟩, sh.created, true⟩, ?_⟩
  refine Path.step (exitProgram.main exitMainStep.created) ?_
  refine Path.step (exitProgram.main (exitMainStep.collect (mainStep.join Nat.one_pos hended))) ?_
  refine Path.step (exitProgram.main (exitMainStep.collect (mainStep.lock hlocked))) ?_
  refine Path.step (exitProgram.main (exitMainStep.collect hread)) ?_
  refine Path.step (exitProgram.main (exitMainStep.collect mainStep.unlock)) ?_
  refine Path.step (exitProgram.main exitMainStep.joined) ?_
  exact Path.step (exitProgram.main exitMainStep.trailer) .refl

theorem solo_exit_run (job : Job) {sh : ExitShared 1} {ec : Int} (hended : sh.base.ended 0 = true)
    (hlocked : sh.base.locked = false) (hpos : (sh.base.states 0).fp.pos = 0)
    (hworker : Path (exitProgram job) (some (0 : Fin 1)) [] (created, .worker (.line 0) 0) (sh, .worker .ended ec)) :
    ∃ s, ExitRuns job 1 [] s ∧ s.loc none = .main (.exited 0 true) ∧ s.loc (some 0) = .worker .ended ec := by
  obtain ⟨sh', hmain⟩ := solo_exits job hended hlocked hpos
  have hreturned := (solo_created job).path hworker
  have hexited := hreturned.path hmain
  exact ⟨_, hexited, rfl, rfl⟩

def commentLine : List Byte := ascii ['#', '\n']

theorem exit_comment :
    ∃ s, ExitRuns ⟨[commentLine], fun _ => none, 0⟩ 1 [] s ∧ s.loc none = .main (.exited 0 true) := by
  let job : Job := ⟨[commentLine], fun _ => none, 0⟩
  have hworker : Path (exitProgram job) (some (0 : Fin 1)) [] (created, .worker (.line 0) 0)
      (⟨{ created.base with ended := Function.update created.base.ended 0 true }, created.created, false⟩,
        .worker .ended 0) := by
    have hfinish : workerStep job 0 created.base (.line 1) none _ .ended := .finish
    refine Path.quiet (.worker rfl rfl (.skip rfl rfl rfl)) ?_
    exact Path.quiet (.worker rfl rfl hfinish) .refl
  obtain ⟨s, h, hexit, -⟩ := solo_exit_run job rfl rfl rfl hworker
  exact ⟨s, h, hexit⟩

/-- `file a b 0 0 0`. -/
def fileLine : List Byte :=
  ascii ['f', 'i', 'l', 'e', ' ', 'a', ' ', 'b', ' ', '0', ' ', '0', ' ', '0', '\n']

/-- The second of two threads cannot be created. -/
theorem exit_createFails (job : Job) :
    ∃ s, ExitRuns job 2 [(none, .createFails)] s ∧ s.loc none = .main (.exited 11 false) := by
  have hboot : ExitRuns job 2 [] (boot 2) := .nil
  have hcreate := hboot.next rfl (exitProgram.main (exitMainStep.create Nat.two_pos))
  have hfails := hcreate.next rfl
    (exitProgram.main (@exitMainStep.createFails 2 _ 1 11 (by decide) (by decide) (by decide)))
  exact ⟨_, hfails.next rfl (exitProgram.main (exitMainStep.noTrailer (by decide))), rfl⟩

/-- A list without a bad line is reported as good, and one with a file that is
missing as bad, since a thread could not be created. -/
theorem exit_reports_sample :
    (∃ s, ExitRuns ⟨[commentLine], fun _ => none, 0⟩ 1 [] s ∧ Reports [] s 0 true) ∧
      ∃ s, ExitRuns ⟨[commentLine, fileLine], fun _ => none, 0⟩ 2 [(none, .createFails)] s ∧
        Reports [(none, .createFails)] s 11 false := by
  obtain ⟨s, h, hexit⟩ := exit_comment
  obtain ⟨s', h', hexit'⟩ := exit_createFails ⟨[commentLine, fileLine], fun _ => none, 0⟩
  refine ⟨⟨s, h, (exit_reports_iff Nat.one_pos h hexit).2 (.inr ⟨List.not_mem_nil, fun line hline hbad => ?_⟩)⟩,
    s', h', (exit_reports_iff Nat.two_pos h' hexit').2 (.inl (.head _))⟩
  have haction : action (fun _ => none) commentLine = .skip := rfl
  rw [List.mem_singleton.1 hline] at hbad
  simp [BadLine, haction] at hbad

/-- The file is missing, its handler has failed, and the program exits with 0
and a trailer. -/
theorem exit_hides_failure :
    ∃ s, ExitRuns ⟨[fileLine], fun _ => none, 0⟩ 1 [] s ∧ s.loc none = .main (.exited 0 true) ∧
      s.loc (some 0) = .worker .ended (-1) ∧ ¬ Reports [] s 0 true := by
  let job : Job := ⟨[fileLine], fun _ => none, 0⟩
  have haction : action job.files fileLine = .fail := rfl
  have hworker : Path (exitProgram job) (some (0 : Fin 1)) [] (created, .worker (.line 0) 0)
      (⟨⟨[], false, 721, Function.update created.base.states 0 ⟨0, TmpFile.empty.rewind⟩,
        Function.update created.base.ended 0 true⟩, created.created, false⟩, .worker .ended (-1)) := by
    have hnothing : workerStep job 0 created.base (.line 0) none created.base (.tryLock 0) :=
      .nothing rfl rfl (haction ▸ .head _)
    refine Path.step (exitProgram.worker rfl rfl hnothing) ?_
    refine Path.step (exitProgram.worker rfl rfl (workerStep.tryLock rfl)) ?_
    refine Path.step (exitProgram.worker rfl rfl (workerStep.readNone rfl)) ?_
    refine Path.step (exitProgram.worker rfl rfl workerStep.reset) ?_
    refine Path.step (exitProgram.worker rfl rfl workerStep.unlock) ?_
    exact Path.step (exitProgram.worker rfl rfl (@workerStep.finish _ job ..)) .refl
  obtain ⟨s, h, hexit, hw⟩ := solo_exit_run job rfl rfl rfl hworker
  refine ⟨s, h, hexit, hw, fun hreports => ?_⟩
  exact (hreports.1 (.inl ⟨0, _, _, hw, by decide⟩)).1 rfl

end SugarNSpice.GenInitCpio
