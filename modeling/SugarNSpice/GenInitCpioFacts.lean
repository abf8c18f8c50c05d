/-
What the threads leave on stdout.

With the ledger closed, that is, with all workers joined and copied, every
entry's group is on stdout once, if every copy on the way was small enough. A
single line can be too large for that: then its records are gone, and the
program does not notice.
-/
import SugarNSpice.GenInitCpioLedger
import Mathlib.Data.List.Count
import Mathlib.Data.List.Nodup

namespace SugarNSpice.GenInitCpio

open Cpio Processes
open CLang (ascii)

variable {job : Job} {n : Nat}

/-! ## The end of a run -/

/-- What is on stdout: whole groups, one for each entry of the list, each
worker's in the order of the list. Two records have the same number just when
they are of the same line. -/
structure Intact (job : Job) (n : Nat) (stdout : List Byte) (out : List Mark) : Prop where
  bytes : stdout = job.bytes out
  lines : (out.map Prod.fst).Perm job.lines
  order : ∀ t : Fin n, ((own n t out).map Prod.fst).Pairwise (· < ·)
  numbers : job.lines.length < 2 ^ 32 → ∀ g ∈ out, ∀ g' ∈ out,
    ∀ r ∈ job.template g.1 g.2, ∀ r' ∈ job.template g'.1 g'.2, (inoField r = inoField r' ↔ g.1 = g'.1)

/-- Lists with the same classes have the same members. -/
theorem perm_of_filter_eq {α β : Type} [DecidableEq α] [DecidableEq β] (c : α → β) {l l' : List α}
    (h : ∀ a, l.filter (fun x => c x = c a) = l'.filter (fun x => c x = c a)) : l.Perm l' := by
  rw [List.perm_iff_count]
  intro a
  have hcount := congrArg (List.count a) (h a)
  rwa [List.count_filter (by simp), List.count_filter (by simp)] at hcount

theorem Job.linesOf_eq (t : Nat) : job.linesOf n t job.table.length = job.lines.filter fun i => owner n i = t := by
  rw [Job.linesOf, Job.lines, List.filter_filter]
  congr 1
  funext i
  simp [Bool.and_comm]

theorem own_map_fst (t : Nat) (gs : List Mark) :
    (own n t gs).map Prod.fst = (gs.map Prod.fst).filter fun i => owner n i = t := by
  rw [own, List.filter_map]
  rfl

theorem issued_perm {tr : List (Option (Fin n) × Event)} {s : State (Option (Fin n)) (Shared n) Pc}
    (hw : job.WellFormed) (hn : 0 < n) (h : Runs job n tr s) (hended : ∀ t, workerAt s t = .ended) :
    ((issued tr).map Prod.fst).Perm job.lines := by
  refine perm_of_filter_eq (owner n) fun i => ?_
  have hlines := issued_lines hw h ⟨owner n i, Nat.mod_lt _ hn⟩
  rw [hended, own_map_fst] at hlines
  rw [hlines]
  exact Job.linesOf_eq _

theorem issued_inj {tr : List (Option (Fin n) × Event)} {s : State (Option (Fin n)) (Shared n) Pc}
    (h : Runs job n tr s) (hp : ((issued tr).map Prod.fst).Perm job.lines) (hlt : job.lines.length < 2 ^ 32)
    {g g' : Mark} (hg : g ∈ issued tr) (hg' : g' ∈ issued tr) : g.2 = g'.2 ↔ g.1 = g'.1 := by
  have hlines : ((issued tr).map Prod.fst).Nodup := hp.nodup_iff.2 (List.nodup_range.filter _)
  have hlength : (issued tr).length ≤ 2 ^ 32 := by
    rw [← List.length_map (f := Prod.fst), hp.length_eq]
    exact Nat.le_of_lt hlt
  have hnumbers : ((issued tr).map Prod.snd).Nodup := by
    rw [(issued_numbers h).2]
    exact nodup_map_nthIno hlength
  constructor
  · intro heq
    rw [List.inj_on_of_nodup_map hnumbers hg hg' heq]
  · intro heq
    rw [List.inj_on_of_nodup_map hlines hg hg' heq]

theorem inoField_template {i : Nat} {ino : BitVec 32} {r : List Byte} (h : r ∈ job.template i ino) :
    inoField r = hexInt ino := by
  unfold Job.template at h
  cases he : job.entry i with
  | none => simp [he] at h
  | some e =>
    rw [he] at h
    exact Entry.inoField_records h

/-- With all workers joined and copied, the ledger has on stdout what each of
them has got numbers for. -/
theorem settled_of_complete {tr : List (Option (Fin n) × Event)} {s : State (Option (Fin n)) (Shared n) Pc}
    (h : Runs job n tr s) (hc : Complete s) (small : Small tr) :
    (∀ t, workerAt s t = .ended) ∧
      ∃ out, s.shared.stdout = job.bytes out ∧ ∀ t : Fin n, own n t out = own n t (issued tr) := by
  obtain ⟨out, pend, hl⟩ := ledger_of_runs h small
  have hmain : mainAt s = .join n := by
    unfold Complete at hc
    simp [mainAt, hc]
  have hended : ∀ t, workerAt s t = .ended := fun t => (control_of_runs h).joined t (hmain ▸ t.isLt)
  refine ⟨hended, out, hl.stdout, fun t => ?_⟩
  have hpend : pend t = [] := by
    have hheld := hl.held t
    rw [hended, hmain, view, MainPc.view, if_pos t.isLt] at hheld
    exact hheld
  rw [hl.marks t, hpend, hended]
  simp [WorkerPc.holding]

theorem perm_of_own (hn : 0 < n) {gs gs' : List Mark} (h : ∀ t : Fin n, own n t gs = own n t gs') : gs.Perm gs' :=
  perm_of_filter_eq (fun g : Mark => owner n g.1) fun g => h ⟨owner n g.1, Nat.mod_lt _ hn⟩

/-- **A complete run** with small copies leaves everything on stdout. -/
theorem intact_of_complete {tr : List (Option (Fin n) × Event)} {s : State (Option (Fin n)) (Shared n) Pc}
    (hw : job.WellFormed) (hn : 0 < n) (h : Runs job n tr s) (hc : Complete s) (small : Small tr) :
    ∃ out, Intact job n s.shared.stdout out := by
  obtain ⟨hended, out, hbytes, hown⟩ := settled_of_complete h hc small
  have hout : out.Perm (issued tr) := perm_of_own hn hown
  have hp := issued_perm hw hn h hended
  refine ⟨out, hbytes, (hout.map _).trans hp, fun t => ?_, fun hlt g hg g' hg' r hr r' hr' => ?_⟩
  · rw [hown, issued_lines hw h t]
    exact List.pairwise_lt_range.filter _
  · rw [inoField_template hr, inoField_template hr', ← issued_inj h hp hlt (hout.mem_iff.1 hg) (hout.mem_iff.1 hg')]
    exact ⟨hexInt_inj, fun heq => by rw [heq]⟩

/-- **No group is lost, doubled or torn**: in every complete run with small
copies stdout holds each entry's group once, and apart from the numbers the
groups are those of a run with one thread. -/
theorem stdout_intact {tr : List (Option (Fin n) × Event)} {s : State (Option (Fin n)) (Shared n) Pc}
    (hw : job.WellFormed) (hn : 0 < n) (h : Runs job n tr s) (hc : Complete s) (small : Small tr) :
    ∃ out, Intact job n s.shared.stdout out ∧
      ∀ tr₁ s₁, Runs job 1 tr₁ s₁ → Complete s₁ → Small tr₁ →
        ∃ out₁, Intact job 1 s₁.shared.stdout out₁ ∧
          (out.map fun g => job.template g.1).Perm (out₁.map fun g => job.template g.1) := by
  obtain ⟨out, hout⟩ := intact_of_complete hw hn h hc small
  refine ⟨out, hout, fun tr₁ s₁ h₁ hc₁ small₁ => ?_⟩
  obtain ⟨out₁, hout₁⟩ := intact_of_complete hw Nat.one_pos h₁ hc₁ small₁
  have htemplates := (hout.lines.trans hout₁.lines.symm).map job.template
  rw [List.map_map, List.map_map] at htemplates
  exact ⟨out₁, hout₁, htemplates⟩

/-! ## A worker with the lock to itself -/

/-- What a copy brings to stdout. -/
def copied (f : TmpFile) : List Byte := ((readBack f).map Prod.fst).getD []

/-- After a line of worker `t` that leaves its file at `f`, and a copy. -/
def Shared.served (sh : Shared n) (t : Fin n) (f : TmpFile) : Shared n :=
  ⟨sh.stdout ++ copied f, false, sh.iNo + 1, Function.update sh.states t ⟨0, f.rewind⟩, sh.ended⟩

theorem copy_path {t : Fin n} {sh : Shared n} {i : Nat} :
    Path (program job) (some t) [(some t, .dump (sh.states t).fp.pos)] (sh, .worker (.read i))
      (⟨sh.stdout ++ copied (sh.states t).fp, false, sh.iNo,
        Function.update sh.states t ⟨0, (sh.states t).fp.rewind⟩, sh.ended⟩, .worker (.line (i + 1))) := by
  have hrest : ∀ sh : Shared n, Path (program job) (some t) [] (sh, .worker (.reset i))
      (⟨sh.stdout, false, sh.iNo, Function.update sh.states t ⟨0, (sh.states t).fp.rewind⟩, sh.ended⟩,
        .worker (.line (i + 1))) := by
    intro sh
    refine Path.step (program.worker workerStep.reset) ?_
    exact Path.step (program.worker workerStep.unlock) .refl
  cases hread : readBack (sh.states t).fp with
  | none =>
    have hcopied : copied (sh.states t).fp = [] := by simp [copied, hread]
    rw [hcopied, List.append_nil]
    exact Path.step (program.worker (workerStep.readNone hread)) (hrest _)
  | some r =>
    obtain ⟨buf, f⟩ := r
    have hcopied : copied (sh.states t).fp = buf := by simp [copied, hread]
    have hdata : f.rewind = (sh.states t).fp.rewind := by
      rw [readBack, Option.ite_none_right_eq_some] at hread
      obtain ⟨-, hread⟩ := hread
      obtain ⟨-, rfl⟩ := Prod.mk.inj (Option.some.inj hread)
      rfl
    have hpath := Path.step (program.worker (workerStep.read hread))
      (Path.step (program.worker workerStep.write) (hrest _))
    simpa [Shared.setState, hcopied, hdata, events] using hpath

/-- **A line of its own**: the handler, and a copy of what it has written. -/
theorem serve_path {t : Fin n} {sh : Shared n} {i : Nat} {line : List Byte} {e : Entry}
    (hi : job.table[i]? = some line) (ht : owner n i = t) (ha : action job.files line = .emit e)
    (hlocked : sh.locked = false) :
    Path (program job) (some t)
      [(some t, .ino i sh.iNo), (some t, .dump (e.emit job.mtime sh.iNo (sh.states t)).fp.pos)]
      (sh, .worker (.line i))
      (sh.served t (e.emit job.mtime sh.iNo (sh.states t)).fp, .worker (.line (i + 1))) := by
  let st := e.emit job.mtime sh.iNo (sh.states t)
  let sh₁ : Shared n := { sh with iNo := sh.iNo + 1 }
  have hemit : workerStep job t sh₁ (.emit i e sh.iNo) none (sh₁.setState t st) (.tryLock i) := .emit
  have htry : workerStep job t (sh₁.setState t st) (.tryLock i) none { sh₁.setState t st with locked := true }
      (.read i) := .tryLock hlocked
  have hcopy : Path (program job) (some t) _ ({ sh₁.setState t st with locked := true }, .worker (.read i)) _ :=
    copy_path
  simp only [Shared.setState, Function.update_self, Function.update_idem] at hcopy
  refine Path.step (program.worker (workerStep.getIno hi ht ha)) ?_
  exact Path.step (program.worker hemit) (Path.step (program.worker htry) hcopy)

theorem main_path {sh : Shared n} {i : Nat} (h : i < n) (hended : sh.ended ⟨i, h⟩ = true) (hlocked : sh.locked = false)
    (hpos : (sh.states ⟨i, h⟩).fp.pos = 0) :
    Path (program job) none [(none, .dump 0)] (sh, .main (.join i)) (sh, .main (.join (i + 1))) := by
  have hread : mainStep { sh with locked := true } (.read i) (some (.dump (sh.states ⟨i, h⟩).fp.pos))
      { sh with locked := true } (.unlock i) := .readNone h (by simp [readBack_of_lt, hpos])
  have hunlock : mainStep { sh with locked := true } (.unlock i) none { sh with locked := false } (.join (i + 1)) :=
    .unlock
  rw [hpos] at hread
  rw [← hlocked] at hunlock
  refine Path.step (program.main (mainStep.join h hended)) ?_
  refine Path.step (program.main (mainStep.lock hlocked)) ?_
  exact Path.step (program.main hread) (Path.single (program.main hunlock))

/-! ## Runs with one line and one thread -/

/-- **A list of one entry**, with one thread: the complete run, and what is on
stdout in the end. -/
theorem solo_run (job : Job) {line : List Byte} {e : Entry} (htable : job.table = [line])
    (ha : action job.files line = .emit e) :
    ∃ s : State (Option (Fin 1)) (Shared 1) Pc,
      Runs job 1 [(some 0, .ino 0 721), (some 0, .dump (e.emit job.mtime 721 ⟨0, TmpFile.empty⟩).fp.pos),
        (none, .dump 0)] s ∧ Complete s ∧
        s.shared.stdout = copied (e.emit job.mtime 721 ⟨0, TmpFile.empty⟩).fp := by
  have hi : job.table[0]? = some line := by simp [htable]
  have hlen : job.table.length = 1 := by simp [htable]
  have hstart : Runs job 1 [] (start 1) := .nil
  have hserved := Run.path hstart (serve_path (t := 0) hi rfl ha rfl)
  let sh : Shared 1 := (start 1).shared.served 0 (e.emit job.mtime 721 ⟨0, TmpFile.empty⟩).fp
  let sh' : Shared 1 := { sh with ended := Function.update sh.ended 0 true }
  have hfinish : workerStep job 0 sh (.line job.table.length) none sh' .ended := .finish
  rw [hlen] at hfinish
  have hreturn := hserved.next (State.move_self ..) (program.worker hfinish)
  have hended : sh'.ended 0 = true := by simp [sh']
  have hpos : (sh'.states 0).fp.pos = 0 := by simp [sh', sh, Shared.served, TmpFile.rewind]
  exact ⟨_, Run.path hreturn (main_path Nat.one_pos hended rfl hpos), State.move_self .., rfl⟩

theorem pos_emit (mtime : BitVec 64) (ino : BitVec 32) (e : Entry) :
    (e.emit mtime ino ⟨0, TmpFile.empty⟩).fp.pos = (e.group mtime ino).length := by
  rw [← TmpFile.length_written, (e.emit_appends mtime ino ⟨0, TmpFile.empty⟩ rfl).1]
  simp

theorem wellFormed_of_emit {line : List Byte} {e : Entry} (htable : job.table = [line])
    (ha : action job.files line = .emit e) : job.WellFormed := by
  intro i line' hi
  rw [htable] at hi
  have hline : line' = line := List.mem_singleton.1 (List.mem_of_getElem? hi)
  exact .inr (.inl ⟨e, hline ▸ ha⟩)

/-- `dir d 0 0 0`. -/
def dirLine : List Byte := ascii ['d', 'i', 'r', ' ', 'd', ' ', '0', ' ', '0', ' ', '0', '\n']

theorem action_dirLine : action (fun _ => none) dirLine = .emit (.generic [100] 0x4000 0 0) := rfl

theorem small_solo {k : Nat} (hk : k < 2 ^ 31) :
    Small [(some (0 : Fin 1), .ino 0 721), (some 0, .dump k), (none, .dump 0)] := by
  intro p pos hp
  simp only [List.mem_cons, Prod.mk.injEq, reduceCtorEq, and_false, Event.dump.injEq, List.not_mem_nil, or_false,
    false_or] at hp
  rcases hp with ⟨_, rfl⟩ | ⟨_, rfl⟩
  · exact hk
  · exact Nat.two_pow_pos 31

/-! ## A file that is too large -/

/-- `file a f 0 0 0 b b ...`, with `k` links. -/
def linksLine (k : Nat) : List Byte :=
  ascii ['f', 'i', 'l', 'e', ' ', 'a', ' ', 'f', ' ', '0', ' ', '0', ' ', '0'] ++
    (List.replicate k (ascii [' ', 'b'])).flatten ++ [10]

theorem action_linksLine (src : Source) : action (fun _ => some src) (linksLine 36) =
    .emit (.file src ([97] :: List.replicate 36 [98]) 0 0 0) := rfl

/-- A list with one file of `size` bytes and its links. -/
def linksJob (size : Nat) : Job := ⟨[linksLine 36], fun _ => some ⟨List.replicate size 0, 0⟩, 0⟩

/-- Position and error share the sign of an `int`. -/
theorem readBack_negative {f : TmpFile} (h : 2 ^ 31 ≤ f.pos) (hlt : f.pos < 2 ^ 32) : readBack f = none := by
  have hint : (BitVec.ofNat 32 f.pos).toInt < 0 := by
    rw [BitVec.toInt_eq_toNat_cond, BitVec.toNat_ofNat, Nat.mod_eq_of_lt hlt]
    split
    · omega
    · omega
  simp only [readBack, if_neg (Int.not_lt.2 (Int.le_of_lt hint))]

theorem length_linksGroup (size : Nat) (hsize : size < 2 ^ 32) (h4 : size % 4 = 0) (ino : BitVec 32) :
    (Entry.group 0 ino (.file ⟨List.replicate size 0, 0⟩ ([97] :: List.replicate 36 [98]) 0 0 0)).length =
      4144 + size := by
  have hround : roundUp size = size := by simp [roundUp, h4]
  have hname : roundUp (110 + ((skipSlash [97]).length + 1)) = 112 ∧
      roundUp (110 + ((skipSlash [98]).length + 1)) = 112 := by decide
  rw [Entry.length_group, Entry.size, linksSize_of_lt (by simp) (by simpa using hsize) (List.cons_ne_nil _ _),
    List.length_replicate, hround, List.map_cons, List.map_replicate, hname.1, hname.2, List.sum_cons]
  rfl

/-- **A file that reads whole, and is lost**: 0x7ffff000 bytes and 37 headers
are more than an `int` holds, and nothing of them is on stdout. -/
theorem links_lost : (linksJob 0x7ffff000).WellFormed ∧
    ∃ tr s, Runs (linksJob 0x7ffff000) 1 tr s ∧ Complete s ∧
      ¬ ∃ out, Intact (linksJob 0x7ffff000) 1 s.shared.stdout out := by
  have ha := action_linksLine ⟨List.replicate 0x7ffff000 0, 0⟩
  have hlen := length_linksGroup 0x7ffff000 (by decide) (by decide)
  obtain ⟨s, hrun, hc, hout⟩ := solo_run (linksJob 0x7ffff000) rfl ha
  refine ⟨wellFormed_of_emit rfl ha, _, s, hrun, hc, ?_⟩
  intro hexists
  obtain ⟨out, hintact⟩ := hexists
  have hnothing : s.shared.stdout = [] := by
    rw [hout, copied, readBack_negative]
    · rfl
    · rw [pos_emit]
      exact (hlen 721).symm ▸ by decide
    · rw [pos_emit]
      exact (hlen 721).symm ▸ by decide
  have hentry : (linksJob 0x7ffff000).entry 0 = some _ := Job.entry_eq rfl ha
  have hlines : (linksJob 0x7ffff000).lines = [0] := by
    refine List.filter_eq_self.2 fun i hi => ?_
    rw [Nat.lt_one_iff.1 (List.mem_range.1 hi), hentry]
    rfl
  have hperm := hintact.lines
  rw [hlines, List.perm_singleton, List.map_eq_singleton_iff] at hperm
  obtain ⟨⟨i, ino⟩, rfl, rfl⟩ := hperm
  have hbytes := congrArg List.length (hnothing.symm.trans hintact.bytes)
  rw [Job.bytes_singleton hentry] at hbytes
  exact absurd (hbytes.trans (hlen ino)) (by decide)

end SugarNSpice.GenInitCpio
