/-
The order of the archive.

Each worker's groups come out in the order of the list, so a directory comes
before what lies in it where both lines go to one worker (`directories_first`).
Between workers nothing is kept: any of them may run first, from its first
line to its last (`sequential_run`).
-/
import SugarNSpice.GenInitCpioFacts
import Mathlib.Data.List.Permutation

namespace SugarNSpice.GenInitCpio

open Cpio Processes
open CLang (ascii)

variable {job : Job} {n : Nat}

/-! ## Directories -/

def namesOf : Entry → List (List Byte)
  | .slink name _ _ _ _ | .generic name _ _ _ | .nod name _ _ _ _ _ _ => [name]
  | .file _ names _ _ _ => names

/-- A path that goes through directory `d`. -/
def Below (d name : List Byte) : Prop := ∃ rest, skipSlash name = skipSlash d ++ 47 :: rest

/-- Line `i` is a directory, and line `j` an entry below it. -/
def Job.Contains (job : Job) (i j : Nat) : Prop :=
  ∃ d mode uid gid e, job.entry i = some (.generic d mode uid gid) ∧ mode &&& 0xF000 = 0x4000 ∧
    job.entry j = some e ∧ ∃ name ∈ namesOf e, Below d name

theorem Job.mem_lines {i : Nat} {e : Entry} (h : job.entry i = some e) : i ∈ job.lines := by
  have hlt : i < job.table.length := by
    by_contra hge
    rw [Job.entry, List.getElem?_eq_none (by omega)] at h
    cases h
  rw [Job.lines, List.mem_filter, List.mem_range, h]
  exact ⟨hlt, rfl⟩

/-- In an ascending list the smaller of two members comes first. -/
theorem pair_sublist {l : List Nat} (h : l.Pairwise (· < ·)) {i j : Nat} (hi : i ∈ l) (hj : j ∈ l) (hij : i < j) :
    [i, j].Sublist l := by
  induction l with
  | nil => cases hi
  | cons a l ih =>
    obtain ⟨ha, hl⟩ := List.pairwise_cons.1 h
    rcases List.mem_cons.1 hi with rfl | hi
    · have hjl : j ∈ l := (List.mem_cons.1 hj).resolve_left (by omega)
      exact (List.singleton_sublist.2 hjl).cons_cons i
    · have hjl : j ∈ l := (List.mem_cons.1 hj).resolve_left fun heq => by
        have := ha i hi
        omega
      exact (ih hl hi hjl).cons a

/-- **Within one worker the order of the list is kept.** -/
theorem Intact.sublist {stdout : List Byte} {out : List Mark} (h : Intact job n stdout out) (hn : 0 < n) {i j : Nat}
    (hi : i ∈ job.lines) (hj : j ∈ job.lines) (hij : i < j) (hown : owner n i = owner n j) :
    [i, j].Sublist (out.map Prod.fst) := by
  have horder := h.order ⟨owner n i, Nat.mod_lt _ hn⟩
  rw [own_map_fst] at horder
  have hmem : ∀ k ∈ job.lines, owner n k = owner n i →
      k ∈ (out.map Prod.fst).filter fun k => owner n k = owner n i := fun k hk howner =>
    List.mem_filter.2 ⟨h.lines.mem_iff.2 hk, decide_eq_true howner⟩
  exact (pair_sublist horder (hmem i hi rfl) (hmem j hj hown.symm) hij).trans List.filter_sublist

/-- **A directory comes before what lies in it**, where its line does and both
go to the same worker; so with one thread always. -/
theorem directories_first {tr : List (Option (Fin n) × Event)} {s : State (Option (Fin n)) (Shared n) Pc}
    (hw : job.WellFormed) (hn : 0 < n) (h : Runs job n tr s) (hc : Complete s) (small : Small tr) :
    ∃ out, Intact job n s.shared.stdout out ∧ ∀ i j, job.Contains i j → i < j → owner n i = owner n j →
      [i, j].Sublist (out.map Prod.fst) := by
  obtain ⟨out, hout⟩ := intact_of_complete hw hn h hc small
  refine ⟨out, hout, fun i j hcontains hij hown => ?_⟩
  obtain ⟨d, mode, uid, gid, e, hi, -, hj, -⟩ := hcontains
  exact hout.sublist hn (Job.mem_lines hi) (Job.mem_lines hj) hij hown

/-! ## One worker after the other -/

/-- No one is at work: the lock is free and every file has been copied. -/
structure Shared.Idle (sh : Shared n) : Prop where
  locked : sh.locked = false
  offset : ∀ t, (sh.states t).offset = 0
  pos : ∀ t, (sh.states t).fp.pos = 0

/-- Every group fits an `int`. -/
def Job.Light (job : Job) : Prop :=
  ∀ i e, job.entry i = some e → ∀ ino, (e.group job.mtime ino).length < 2 ^ 31

/-- A turn of worker `t`, from line `i` to its end, with no one else at work. -/
structure Turn (job : Job) (t : Fin n) (i : Nat) (sh : Shared n) (tr : List (Option (Fin n) × Event))
    (sh' : Shared n) : Prop where
  path : Path (program job) (some t) tr (sh, .worker (.line i)) (sh', .worker .ended)
  idle : sh'.Idle
  ended : sh'.ended = Function.update sh.ended t true
  stdout : sh'.stdout = sh.stdout ++ job.bytes (issued tr)
  small : Small tr
  lines : job.linesOf n t job.table.length = job.linesOf n t i ++ (issued tr).map Prod.fst

theorem Turn.last {t : Fin n} {i : Nat} {sh : Shared n} (hidle : sh.Idle)
    (hstep : workerStep job t sh (.line i) none { sh with ended := Function.update sh.ended t true } .ended)
    (hlines : job.linesOf n t job.table.length = job.linesOf n t i) :
    Turn job t i sh [] { sh with ended := Function.update sh.ended t true } where
  path := .single (program.worker hstep)
  idle := ⟨hidle.locked, hidle.offset, hidle.pos⟩
  ended := rfl
  stdout := (List.append_nil _).symm
  small := nofun
  lines := hlines.trans (List.append_nil _).symm

theorem Turn.pass {t : Fin n} {i : Nat} {sh sh' : Shared n} {tr : List (Option (Fin n) × Event)}
    (h : Turn job t (i + 1) sh tr sh') (hstep : workerStep job t sh (.line i) none sh (.line (i + 1)))
    (hlines : job.linesOf n t (i + 1) = job.linesOf n t i) : Turn job t i sh tr sh' where
  path := .step (program.worker hstep) h.path
  idle := h.idle
  ended := h.ended
  stdout := h.stdout
  small := h.small
  lines := hlines ▸ h.lines

theorem written_emit {e : Entry} {ino : BitVec 32} {st : MyState} (hoffset : st.offset = 0) (hpos : st.fp.pos = 0) :
    (e.emit job.mtime ino st).fp.written = e.group job.mtime ino := by
  have hempty : st.fp.written = [] := by rw [TmpFile.written, hpos, List.take_zero]
  rw [(e.emit_appends job.mtime ino st (by rw [hoffset]; rfl)).1, hempty, List.nil_append]

theorem copied_of_lt {f : TmpFile} (h : f.pos < 2 ^ 31) : copied f = f.written := by
  rw [copied, readBack_of_lt h]
  split
  · next hpos => rw [TmpFile.written, hpos, List.take_zero]; rfl
  · rfl

theorem Job.bytes_cons {i : Nat} {e : Entry} (h : job.entry i = some e) (ino : BitVec 32) (gs : List Mark) :
    job.bytes ((i, ino) :: gs) = e.group job.mtime ino ++ job.bytes gs := by
  rw [← List.singleton_append, Job.bytes_append, Job.bytes_singleton h]

theorem Turn.serve {t : Fin n} {i : Nat} {sh : Shared n} {line : List Byte} {e : Entry} (hlight : job.Light)
    (hidle : sh.Idle) (hi : job.table[i]? = some line) (ht : owner n i = t) (ha : action job.files line = .emit e)
    (rest : ∀ sh' : Shared n, sh'.Idle → ∃ tr sh'', Turn job t (i + 1) sh' tr sh'') :
    ∃ tr sh', Turn job t i sh tr sh' := by
  have hentry := Job.entry_eq hi ha
  have hwritten : (e.emit job.mtime sh.iNo (sh.states t)).fp.written = e.group job.mtime sh.iNo :=
    written_emit (hidle.offset t) (hidle.pos t)
  have hpos : (e.emit job.mtime sh.iNo (sh.states t)).fp.pos < 2 ^ 31 := by
    rw [← TmpFile.length_written, hwritten]
    exact hlight i e hentry _
  have hserve := serve_path hi ht ha hidle.locked
  generalize hfp : (e.emit job.mtime sh.iNo (sh.states t)).fp = f at hserve hwritten hpos
  have hidle' : (sh.served t f).Idle := by
    refine ⟨rfl, fun u => ?_, fun u => ?_⟩
    · by_cases hu : u = t
      · subst hu; simp [Shared.served]
      · simp [Shared.served, hu, hidle.offset]
    · by_cases hu : u = t
      · subst hu; simp [Shared.served, TmpFile.rewind]
      · simp [Shared.served, hu, hidle.pos]
  obtain ⟨tr, sh', hrest⟩ := rest _ hidle'
  have hissued : issued ([(some t, .ino i sh.iNo), (some t, .dump f.pos)] ++ tr) = (i, sh.iNo) :: issued tr := rfl
  refine ⟨_, sh', hserve.trans hrest.path, hrest.idle, hrest.ended, ?_, ?_, ?_⟩
  · rw [hissued, hrest.stdout, Job.bytes_cons hentry, ← hwritten, ← copied_of_lt hpos, ← List.append_assoc]
    rfl
  · intro p k hp
    rcases List.mem_append.1 hp with hp | hp
    · simp only [List.mem_cons, Prod.mk.injEq, reduceCtorEq, and_false, Event.dump.injEq, List.not_mem_nil, or_false,
        false_or] at hp
      exact hp.2 ▸ hpos
    · exact hrest.small p k hp
  · rw [hissued, hrest.lines, Job.linesOf_take hentry ht, List.append_assoc]
    rfl

/-- **A worker on its own** gets through its lines. -/
theorem exists_turn (hw : job.WellFormed) (hlight : job.Light) (t : Fin n) (k : Nat) :
    ∀ i (sh : Shared n), i + k = job.table.length → sh.Idle → ∃ tr sh', Turn job t i sh tr sh' := by
  induction k with
  | zero =>
    intro i sh hk hidle
    have hi : i = job.table.length := hk
    subst hi
    exact ⟨_, _, .last hidle .finish rfl⟩
  | succ k ih =>
    intro i sh hk hidle
    have hlt : i < job.table.length := by omega
    have hnext := fun sh' hidle' => ih (i + 1) sh' (by omega) hidle'
    have hline : job.table[i]? = some job.table[i] := List.getElem?_eq_getElem hlt
    by_cases ht : owner n i = t
    · rcases hw i _ hline with ha | ⟨e, ha⟩ | ⟨ha, hlast⟩
      · obtain ⟨tr, sh', h⟩ := hnext sh hidle
        exact ⟨tr, sh', h.pass (.skip hline ht ha) (Job.linesOf_skip (.inl (Job.entry_none hline (by simp [ha]))))⟩
      · exact Turn.serve hlight hidle hline ht ha hnext
      · have hlines := Job.linesOf_skip (n := n) (t := t) (.inl (Job.entry_none hline (by simp [ha])))
        rw [hlast] at hlines
        exact ⟨_, _, .last hidle (.stop hline ht ha) hlines⟩
    · obtain ⟨tr, sh', h⟩ := hnext sh hidle
      exact ⟨tr, sh', h.pass (.other hlt ht) (Job.linesOf_skip (.inr ht))⟩

/-- What workers have done that went one after the other. -/
structure Turns (job : Job) (ts : List (Fin n)) (s : State (Option (Fin n)) (Shared n) Pc)
    (tr : List (Option (Fin n) × Event)) (s' : State (Option (Fin n)) (Shared n) Pc) : Prop where
  idle : s'.shared.Idle
  ended : ∀ t, t ∈ ts ∨ s.shared.ended t = true → s'.shared.ended t = true
  main : s'.loc none = s.loc none
  stdout : s'.shared.stdout = s.shared.stdout ++ job.bytes (issued tr)
  small : Small tr
  lines : (issued tr).map Prod.fst = ts.flatMap fun t : Fin n => job.linesOf n t job.table.length

theorem issued_append (tr tr' : List (Option (Fin n) × Event)) : issued (tr ++ tr') = issued tr ++ issued tr' :=
  List.filterMap_append

theorem Small.append {tr tr' : List (Option (Fin n) × Event)} (h : Small tr) (h' : Small tr') : Small (tr ++ tr') :=
  fun p pos hp => (List.mem_append.1 hp).elim (h p pos) (h' p pos)

theorem exists_turns (hw : job.WellFormed) (hlight : job.Light) (ts : List (Fin n)) :
    ∀ {tr} {s : State (Option (Fin n)) (Shared n) Pc}, ts.Nodup → Runs job n tr s → s.shared.Idle →
      (∀ t ∈ ts, s.loc (some t) = .worker (.line 0)) → ∃ tr' s', Runs job n (tr ++ tr') s' ∧ Turns job ts s tr' s' := by
  induction ts with
  | nil =>
    intro tr s _ h hidle _
    exact ⟨[], s, by rwa [List.append_nil], hidle, by simp, rfl, (List.append_nil _).symm, nofun, rfl⟩
  | cons t ts ih =>
    intro tr s hnodup h hidle hloc
    obtain ⟨ht, hnodup⟩ := List.nodup_cons.1 hnodup
    obtain ⟨tr₁, sh, hturn⟩ := exists_turn hw hlight t job.table.length 0 s.shared (Nat.zero_add _) hidle
    have hpath := hturn.path
    rw [← hloc t List.mem_cons_self] at hpath
    have hrun := Run.path h hpath
    have hloc' : ∀ u ∈ ts, (s.move (some t) sh (.worker .ended)).loc (some u) = .worker (.line 0) := by
      intro u hu
      rw [State.move_other (by simpa using ne_of_mem_of_not_mem hu ht)]
      exact hloc u (List.mem_cons_of_mem t hu)
    obtain ⟨tr₂, s', hrun', hturns⟩ := ih hnodup hrun hturn.idle hloc'
    refine ⟨tr₁ ++ tr₂, s', by rwa [← List.append_assoc], hturns.idle, fun u hu => hturns.ended u ?_,
      hturns.main.trans (State.move_other (Option.some_ne_none t).symm ..), ?_, hturn.small.append hturns.small, ?_⟩
    · rw [State.move_shared, hturn.ended]
      by_cases hut : u = t
      · subst hut
        exact .inr (Function.update_self ..)
      · rw [Function.update_of_ne hut]
        exact hu.imp_left fun hmem => (List.mem_cons.1 hmem).resolve_left hut
    · rw [hturns.stdout, State.move_shared, hturn.stdout, issued_append, Job.bytes_append, List.append_assoc]
    · rw [issued_append, List.map_append, hturns.lines, List.flatMap_cons, hturn.lines]
      rfl

theorem main_turns {sh : Shared n} (hidle : sh.Idle) (hended : ∀ t, sh.ended t = true) (k : Nat) :
    ∀ i, i + k = n → Path (program job) none (List.replicate k (none, .dump 0)) (sh, .main (.join i))
      (sh, .main (.join n)) := by
  induction k with
  | zero =>
    intro i hi
    have hin : i = n := hi
    subst hin
    exact .refl
  | succ k ih =>
    intro i hi
    have hlt : i < n := by omega
    exact (main_path hlt (hended _) hidle.locked (hidle.pos _)).trans (ih (i + 1) (by omega))

/-- **Any order of the workers** is one that a complete run can have. -/
theorem sequential_run (hw : job.WellFormed) (hlight : job.Light) {ts : List (Fin n)} (hnodup : ts.Nodup)
    (hall : ∀ t, t ∈ ts) :
    ∃ tr s, Runs job n tr s ∧ Complete s ∧ Small tr ∧ s.shared.stdout = job.bytes (issued tr) ∧
      (issued tr).map Prod.fst = ts.flatMap fun t : Fin n => job.linesOf n t job.table.length := by
  have hidle : (start n).shared.Idle := ⟨rfl, fun _ => rfl, fun _ => rfl⟩
  obtain ⟨tr, s, hrun, h⟩ := exists_turns hw hlight ts hnodup .nil hidle fun _ _ => rfl
  have hpath : Path (program job) none _ (s.shared, .main (.join 0)) _ :=
    main_turns h.idle (fun t => h.ended t (.inl (hall t))) n 0 (Nat.zero_add n)
  have hmain : s.loc none = .main (.join 0) := h.main
  rw [← hmain] at hpath
  have hdumps : issued (List.replicate n ((none : Option (Fin n)), Event.dump 0)) = [] := by
    simp [issued, Event.mark]
  refine ⟨_, _, Run.path hrun hpath, State.move_self .., ?_, ?_, ?_⟩
  · refine h.small.append fun p pos hp => ?_
    rw [List.mem_replicate] at hp
    cases hp.2
    exact Nat.two_pow_pos 31
  · rw [issued_append, issued_append, hdumps, List.append_nil]
    exact h.stdout
  · rw [issued_append, issued_append, hdumps, List.append_nil]
    exact h.lines

theorem Job.mem_linesOf {i : Nat} {e : Entry} (h : job.entry i = some e) :
    i ∈ job.linesOf n (owner n i) job.table.length := by
  rw [Job.linesOf_eq]
  exact List.mem_filter.2 ⟨Job.mem_lines h, decide_eq_true rfl⟩

/-- **Between workers no order is kept**: of two entries whose lines go to
different workers the later one can come first. -/
theorem order_lost (hw : job.WellFormed) (hlight : job.Light) (hn : 0 < n) {i j : Nat} {e e' : Entry}
    (hi : job.entry i = some e) (hj : job.entry j = some e') (hown : owner n i ≠ owner n j) :
    ∃ tr s, Runs job n tr s ∧ Complete s ∧ Small tr ∧ s.shared.stdout = job.bytes (issued tr) ∧
      [j, i].Sublist ((issued tr).map Prod.fst) := by
  let u : Fin n := ⟨owner n j, Nat.mod_lt _ hn⟩
  let ts := (List.finRange n).erase u
  have hts : (List.finRange n).Perm (u :: ts) := List.perm_cons_erase (List.mem_finRange u)
  obtain ⟨tr, s, hrun, hc, small, hstdout, hlines⟩ :=
    sequential_run hw hlight (hts.nodup_iff.1 (List.nodup_finRange n)) fun t => hts.mem_iff.1 (List.mem_finRange t)
  refine ⟨tr, s, hrun, hc, small, hstdout, ?_⟩
  have htmem : ⟨owner n i, Nat.mod_lt _ hn⟩ ∈ ts :=
    (List.mem_erase_of_ne fun heq => hown (congrArg Fin.val heq)).2 (List.mem_finRange _)
  have hrest : [i].Sublist (ts.flatMap fun t : Fin n => job.linesOf n t job.table.length) :=
    List.singleton_sublist.2 (List.mem_flatMap.2 ⟨_, htmem, Job.mem_linesOf hi⟩)
  rw [hlines, List.flatMap_cons]
  exact (List.singleton_sublist.2 (Job.mem_linesOf hj)).append hrest

/-! ## A directory in a directory -/

/-- `dir d/e 0 0 0`. -/
def subdirLine : List Byte := ascii ['d', 'i', 'r', ' ', 'd', '/', 'e', ' ', '0', ' ', '0', ' ', '0', '\n']

/-- A directory, and one below it. -/
def nestedJob : Job := ⟨[dirLine, subdirLine], fun _ => none, 0⟩

theorem nestedJob_entry_zero : nestedJob.entry 0 = some (.generic [100] 0x4000 0 0) := rfl

theorem nestedJob_entry_one : nestedJob.entry 1 = some (.generic [100, 47, 101] 0x4000 0 0) := rfl

theorem nestedJob_cases {i : Nat} {line : List Byte} (h : nestedJob.table[i]? = some line) :
    (i = 0 ∧ line = dirLine) ∨ (i = 1 ∧ line = subdirLine) := by
  match i with
  | 0 => exact .inl ⟨rfl, (Option.some.inj h).symm⟩
  | 1 => exact .inr ⟨rfl, (Option.some.inj h).symm⟩
  | i + 2 => exact absurd h nofun

theorem nestedJob_wellFormed : nestedJob.WellFormed := by
  intro i line hi
  rcases nestedJob_cases hi with ⟨-, rfl⟩ | ⟨-, rfl⟩
  · exact .inr (.inl ⟨_, rfl⟩)
  · exact .inr (.inl ⟨_, rfl⟩)

theorem nestedJob_light : nestedJob.Light := by
  intro i e he ino
  match i with
  | 0 =>
    cases Option.some.inj (nestedJob_entry_zero.symm.trans he)
    rw [Entry.length_group, Entry.size, headSize_of_lt (by decide) (by decide)]
    decide
  | 1 =>
    cases Option.some.inj (nestedJob_entry_one.symm.trans he)
    rw [Entry.length_group, Entry.size, headSize_of_lt (by decide) (by decide)]
    decide
  | i + 2 => cases he

theorem nestedJob_contains : nestedJob.Contains 0 1 :=
  ⟨_, _, _, _, _, nestedJob_entry_zero, rfl, nestedJob_entry_one, _, List.mem_singleton_self _, [101], rfl⟩

/-- Two workers with a directory each, and both on stdout. -/
theorem stdout_intact_nested :
    ∃ tr s, Runs nestedJob 2 tr s ∧ Complete s ∧ Small tr ∧
      ∃ out, Intact nestedJob 2 s.shared.stdout out ∧
        ∀ tr₁ s₁, Runs nestedJob 1 tr₁ s₁ → Complete s₁ → Small tr₁ →
          ∃ out₁, Intact nestedJob 1 s₁.shared.stdout out₁ ∧
            (out.map fun g => nestedJob.template g.1).Perm (out₁.map fun g => nestedJob.template g.1) := by
  obtain ⟨tr, s, hrun, hc, small, -⟩ := sequential_run (n := 2) nestedJob_wellFormed nestedJob_light
    (List.nodup_finRange 2) List.mem_finRange
  exact ⟨tr, s, hrun, hc, small, stdout_intact nestedJob_wellFormed Nat.two_pos hrun hc small⟩

/-- The two with a comment between them, so that with two threads both are the
same worker's. -/
def apartJob : Job := ⟨[dirLine, ascii ['#', '\n'], subdirLine], fun _ => none, 0⟩

theorem apartJob_wellFormed : apartJob.WellFormed := by
  intro i line hi
  rcases List.mem_cons.1 (List.mem_of_getElem? hi) with rfl | hmem
  · exact .inr (.inl ⟨_, rfl⟩)
  · rcases List.mem_cons.1 hmem with rfl | hmem
    · exact .inl rfl
    · rw [List.mem_singleton.1 hmem]
      exact .inr (.inl ⟨_, rfl⟩)

theorem apartJob_light : apartJob.Light := by
  intro i e he ino
  match i with
  | 0 => exact nestedJob_light 0 e he ino
  | 1 => cases he
  | 2 => exact nestedJob_light 1 e he ino
  | i + 3 => cases he

theorem apartJob_contains : apartJob.Contains 0 2 :=
  ⟨_, _, _, _, _, nestedJob_entry_zero, rfl, nestedJob_entry_one, _, List.mem_singleton_self _, [101], rfl⟩

/-- With two threads, of which one does both, the directory comes first. -/
theorem directories_first_apart :
    ∃ tr s, Runs apartJob 2 tr s ∧ Complete s ∧ Small tr ∧
      ∃ out, Intact apartJob 2 s.shared.stdout out ∧ [0, 2].Sublist (out.map Prod.fst) := by
  obtain ⟨tr, s, hrun, hc, small, -⟩ := sequential_run (n := 2) apartJob_wellFormed apartJob_light
    (List.nodup_finRange 2) List.mem_finRange
  obtain ⟨out, hout, horder⟩ := directories_first apartJob_wellFormed Nat.two_pos hrun hc small
  exact ⟨tr, s, hrun, hc, small, out, hout, horder 0 2 apartJob_contains (by decide) rfl⟩

/-- The second byte of a directory's name stands at 111, whatever its number. -/
theorem directory_byte {name : List Byte} (hname : 1 < (skipSlash name ++ [0]).length) (mode uid gid ino : BitVec 32)
    {mtime : BitVec 64} (hmtime : mtime.toNat < 2 ^ 32) (bs : List Byte) :
    ((Entry.generic name mode uid gid).group mtime ino ++ bs)[111]? = (skipSlash name ++ [0])[1]? := by
  have hlen := (Header.length_eq_iff ⟨ino, mode, uid, gid, 2, mtime, 0, 3, 1, 0, 0, strSize (skipSlash name)⟩).2
    ⟨hmtime, by simp⟩
  rw [Entry.group, Entry.records, List.flatten_singleton, recordHead, List.append_assoc, List.append_assoc,
    List.getElem?_append_right (hlen.trans_le (by decide)), hlen, List.getElem?_append_left hname]

/-- **A directory after what lies in it**: with two threads the second one may
be done before the first has begun. -/
theorem directory_comes_late : nestedJob.WellFormed ∧ nestedJob.Contains 0 1 ∧
    ∃ tr s, Runs nestedJob 2 tr s ∧ Complete s ∧ Small tr ∧ (∃ out, Intact nestedJob 2 s.shared.stdout out) ∧
      ∀ out, Intact nestedJob 2 s.shared.stdout out → out.map Prod.fst = [1, 0] := by
  obtain ⟨tr, s, hrun, hc, small, hstdout, hlines⟩ := sequential_run (n := 2) nestedJob_wellFormed nestedJob_light
    (List.nodup_finRange 2) List.mem_finRange
  have hissued : (issued tr).map Prod.fst = [1, 0] := hlines
  obtain ⟨⟨i, ino⟩, gs, hgs, rfl, -⟩ := List.map_eq_cons_iff.1 hissued
  refine ⟨nestedJob_wellFormed, nestedJob_contains, tr, s, hrun, hc, small,
    intact_of_complete nestedJob_wellFormed Nat.two_pos hrun hc small, fun out hout => ?_⟩
  have hslash : s.shared.stdout[111]? = some 47 := by
    rw [hstdout, hgs, Job.bytes_cons nestedJob_entry_one, directory_byte (by decide) _ _ _ _ (by decide)]
    rfl
  have hperm : (out.map Prod.fst).Perm [0, 1] := hout.lines
  have hcases : out.map Prod.fst = [0, 1] ∨ out.map Prod.fst = [1, 0] := by
    simpa [List.permutations] using List.mem_permutations.2 hperm
  rcases hcases with heq | heq
  · obtain ⟨⟨i, ino'⟩, gs', hgs', rfl, -⟩ := List.map_eq_cons_iff.1 heq
    rw [hout.bytes, hgs', Job.bytes_cons nestedJob_entry_zero, directory_byte (by decide) _ _ _ _ (by decide)] at hslash
    exact absurd hslash (by decide)
  · exact heq

end SugarNSpice.GenInitCpio
