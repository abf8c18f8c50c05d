/-
From the list to the archive, whatever the threads do.

`main` reads the list into its table, the workers take the lines and write
the records of their entries, and what is on stdout in the end is an archive.
A list as `usage` describes it (`IsList`) asks for entries; a reader of the
archive gets their records, each entry's once and with a number of its own,
and then the trailer (`archive_of_list`).

That every copy is small (`Small`) need not be assumed of the run: a file
never holds more than all records of the list.
-/
import SugarNSpice.CpioArchiveFacts
import SugarNSpice.CpioListFacts
import SugarNSpice.FileTableFacts
import SugarNSpice.GenInitCpioBlocks
import SugarNSpice.GenInitCpioEnd
import Mathlib.Algebra.Order.BigOperators.Group.List
import Mathlib.Algebra.Order.Group.Nat

namespace SugarNSpice.GenInitCpio

open Cpio Processes
open CLang (ascii)

variable {job : Job} {n : Nat}

/-! ## Copies are small -/

theorem Job.length_bytes (gs : List Mark) : (job.bytes gs).length = ((gs.map Prod.fst).map job.lineSize).sum := by
  rw [Job.bytes, List.length_flatMap, List.map_map]
  exact congrArg List.sum (List.map_congr_left fun g _ => Job.length_group g)

theorem Job.linesBefore_sublist (k : Nat) :
    ((List.range k).filter fun i => (job.entry i).isSome).Sublist job.lines := by
  induction k with
  | zero => exact List.nil_sublist _
  | succ k ih =>
    rcases Nat.lt_or_ge k job.table.length with hlt | hge
    · exact (List.range_sublist.2 hlt).filter _
    · have hnone : (job.entry k).isSome = false := by
        rw [Job.entry, List.getElem?_eq_none hge]
        rfl
      rw [List.range_succ, List.filter_append, List.filter_singleton, hnone]
      simpa using ih

theorem Job.linesOf_sublist (t k : Nat) : (job.linesOf n t k).Sublist job.lines := by
  refine (List.monotone_filter_right _ fun i hi => ?_).trans (Job.linesBefore_sublist k)
  simp only [decide_eq_true_eq] at hi
  exact hi.1

theorem Ledger.length_pend_le (hw : job.WellFormed) {tr : List (Option (Fin n) × Event)} {sh : Shared n} {m : MainPc}
    {w : Fin n → WorkerPc} {out : List Mark} {pend : Fin n → List Mark} (h : Ledger job tr sh m w out pend)
    (hreach : Reaches job tr sh m w) (t : Fin n) : (job.bytes (pend t)).length ≤ job.size := by
  obtain ⟨s, hrun, -, -, -⟩ := hreach
  have hpend : (pend t).Sublist (own n t (issued tr)) := by
    rw [h.marks t]
    exact ((List.sublist_append_right _ _).trans (List.sublist_append_left _ _))
  have hlines : ((pend t).map Prod.fst).Sublist job.lines := by
    refine (hpend.map Prod.fst).trans ?_
    rw [issued_lines hw hrun t]
    exact Job.linesOf_sublist _ _
  rw [Job.length_bytes, Job.size]
  exact (hlines.map job.lineSize).sum_le_sum fun _ _ => Nat.zero_le _

theorem workerStep.dump_eq {t : Fin n} {sh sh' : Shared n} {w w' : WorkerPc} {pos : Nat}
    (h : workerStep job t sh w (some (.dump pos)) sh' w') (m : MainPc) :
    pos = (sh.states t).fp.pos ∧ view t m w = .waiting := by
  cases h with
  | read | readNone => exact ⟨rfl, rfl⟩

theorem mainStep.dump_eq {sh sh' : Shared n} {m m' : MainPc} {pos : Nat}
    (h : mainStep sh m (some (.dump pos)) sh' m') :
    ∃ t : Fin n, pos = (sh.states t).fp.pos ∧ t.val < m.joined ∧ m.view t = .waiting := by
  cases h with
  | @read i _ _ hi | @readNone i hi => exact ⟨⟨i, hi⟩, rfl, Nat.lt_succ_self i, if_neg (Nat.lt_irrefl i)⟩

/-- **A list of less than 2^31 bytes of records** makes small copies, in every
run. -/
theorem small_of_runs (hw : job.WellFormed) (hsize : job.size < 2 ^ 31) : ∀ {tr s}, Runs job n tr s → Small tr := by
  have hadd : ∀ {tr : List (Option (Fin n) × Event)} {p e}, Small tr → (∀ pos, e = some (.dump pos) → pos < 2 ^ 31) →
      Small (tr ++ events p e) := by
    intro tr p e hsmall hlast q pos hmem
    rcases List.mem_append.1 hmem with hq | hq
    · exact hsmall q pos hq
    · exact hlast pos (mem_events.1 hq).2
  -- What a copy finds in a file is what the ledger has pending there.
  have hfound : ∀ {tr sh m w} (t : Fin n), Reaches job tr sh m w → Small tr → view t m (w t) = .waiting →
      (sh.states t).fp.pos < 2 ^ 31 := by
    intro tr sh m w t hreach hsmall hview
    have hwhole := hreach
    obtain ⟨s, hrun, rfl, rfl, rfl⟩ := hreach
    obtain ⟨out, pend, hl⟩ := ledger_of_runs hrun hsmall
    have hheld := hl.held t
    rw [hview] at hheld
    have hlength := congrArg List.length hheld
    rw [TmpFile.length_written] at hlength
    have hle := hl.length_pend_le hw hwhole t
    omega
  intro tr s h
  refine Runs.invariant (I := fun tr _ _ _ => Small tr) (fun p pos hp => absurd hp List.not_mem_nil) ?_ ?_ h
  · intro tr sh m w t e sh' w' hreach ih hstep
    refine hadd ih fun pos he => ?_
    subst he
    obtain ⟨rfl, hview⟩ := hstep.dump_eq m
    exact hfound t hreach ih hview
  · intro tr sh m w e sh' m' hreach ih hstep
    refine hadd ih fun pos he => ?_
    subst he
    obtain ⟨t, rfl, hjoined, hview⟩ := hstep.dump_eq
    refine hfound t hreach ih ?_
    rw [hreach.control.joined t hjoined]
    exact hview

/-! ## The entries of the list -/

def lineEntry (files : Files) (line : List Byte) : Option Entry :=
  match action files line with
  | .emit e => some e
  | _ => none

/-- The entries of the list, in its order. -/
def Job.entries (job : Job) : List Entry := job.table.filterMap (lineEntry job.files)

theorem Job.entry_eq_bind (i : Nat) : job.entry i = job.table[i]?.bind (lineEntry job.files) := by
  unfold Job.entry
  cases job.table[i]? with
  | none => rfl
  | some line =>
    simp only [Option.map_some, Option.bind_some, lineEntry]
    cases action job.files line <;> rfl

theorem map_getElem?_range (l : List (List Byte)) : (List.range l.length).map (fun i => l[i]?) = l.map some := by
  refine List.ext_getElem (by simp) fun i h₁ h₂ => ?_
  simp at h₁
  simp [h₁]

theorem Job.filterMap_entry_lines : job.lines.filterMap job.entry = job.entries := by
  have hall : job.lines.filterMap job.entry = (List.range job.table.length).filterMap job.entry := by
    rw [Job.lines, List.filterMap_filter]
    refine List.filterMap_congr fun i _ => ?_
    cases job.entry i <;> rfl
  have hbind : job.entry = fun i => job.table[i]?.bind (lineEntry job.files) := funext Job.entry_eq_bind
  rw [hall, hbind, Job.entries]
  have hmap := congrArg (List.filterMap fun o => o.bind (lineEntry job.files)) (map_getElem?_range job.table)
  rw [List.filterMap_map, List.filterMap_map] at hmap
  exact hmap

theorem Job.length_entries : job.entries.length = job.lines.length := by
  rw [← Job.filterMap_entry_lines]
  exact List.filterMap_length_eq_length.2 fun i hi => (List.mem_filter.1 hi).2

theorem Job.size_eq : job.size = (job.entries.map (Entry.size job.mtime)).sum := by
  rw [Job.size, ← Job.filterMap_entry_lines, Job.lines]
  induction List.range job.table.length with
  | nil => rfl
  | cons i is ih =>
    cases hi : job.entry i with
    | none => simpa [List.filter_cons, hi] using ih
    | some e => simpa [List.filter_cons, hi, Job.lineSize] using ih

/-! ## What is on stdout -/

/-- Entries with their numbers, as groups stand for them. -/
def Job.numbered (job : Job) (gs : List Mark) : List (Entry × BitVec 32) :=
  gs.filterMap fun g => (job.entry g.1).map (·, g.2)

/-- The records of entries with numbers. -/
def contents (mtime : BitVec 64) (es : List (Entry × BitVec 32)) : List Newc.Record :=
  es.flatMap fun x => x.1.contents mtime x.2

theorem Job.map_fst_numbered (gs : List Mark) : (job.numbered gs).map Prod.fst = (gs.map Prod.fst).filterMap job.entry := by
  rw [Job.numbered, List.map_filterMap, List.filterMap_map]
  refine List.filterMap_congr fun g _ => ?_
  cases h : job.entry g.1 <;> simp [h]

theorem Job.map_snd_numbered {gs : List Mark} (h : ∀ g ∈ gs, (job.entry g.1).isSome) :
    (job.numbered gs).map Prod.snd = gs.map Prod.snd := by
  induction gs with
  | nil => rfl
  | cons g gs ih =>
    obtain ⟨e, he⟩ := Option.isSome_iff_exists.1 (h g (.head _))
    have hrest := ih fun x hx => h x (.tail _ hx)
    simp only [Job.numbered] at hrest ⊢
    simp [he, hrest]

theorem Job.bytes_numbered (gs : List Mark) :
    job.bytes gs = ((job.numbered gs).flatMap fun x => x.1.records job.mtime x.2).flatten := by
  induction gs with
  | nil => rfl
  | cons g gs ih =>
    have hcons : job.bytes (g :: gs) = job.group g ++ job.bytes gs := rfl
    rw [hcons, ih, Job.group, Job.template]
    cases he : job.entry g.1 with
    | none => simp [Job.numbered, he]
    | some e => simp [Job.numbered, he]

/-- **A complete run leaves the entries of the list**, in some order and with
the first numbers from 721 on. -/
theorem numbered_of_complete (hw : job.WellFormed) (hn : 0 < n) (hsize : job.size < 2 ^ 31)
    {tr : List (Option (Fin n) × Event)} {s : State (Option (Fin n)) (Shared n) Pc} (h : Runs job n tr s)
    (hc : Complete s) :
    ∃ es : List (Entry × BitVec 32), s.shared.stdout = (es.flatMap fun x => x.1.records job.mtime x.2).flatten ∧
      (es.map Prod.fst).Perm job.entries ∧ (es.map Prod.snd).Perm ((List.range job.entries.length).map nthIno) := by
  obtain ⟨hended, out, hout, hown⟩ := settled_of_complete h hc (small_of_runs hw hsize h)
  have hperm := perm_of_own hn hown
  have hlines : (out.map Prod.fst).Perm job.lines := (hperm.map _).trans (issued_perm hw hn h hended)
  refine ⟨job.numbered out, by rw [hout, Job.bytes_numbered], ?_, ?_⟩
  · rw [Job.map_fst_numbered, ← Job.filterMap_entry_lines]
    exact hlines.filterMap _
  · have hsome : ∀ g ∈ out, (job.entry g.1).isSome := fun g hg =>
      (List.mem_filter.1 (hlines.mem_iff.1 (List.mem_map_of_mem hg))).2
    have hcount : (issued tr).length = job.entries.length := by
      rw [Job.length_entries, ← hperm.length_eq, ← hlines.length_eq, List.length_map]
    rw [Job.map_snd_numbered hsome, ← hcount, ← (issued_numbers h).2]
    exact hperm.map _

theorem lays_numbered {mtime : BitVec 64} (hmtime : mtime.toNat < 2 ^ 32) {es : List (Entry × BitVec 32)}
    (hfits : ∀ x ∈ es, x.1.Fits) :
    List.Forall₂ Newc.Lays (contents mtime es) (es.flatMap fun x => x.1.records mtime x.2) := by
  induction es with
  | nil => exact .nil
  | cons x es ih =>
    exact List.rel_append (x.1.lays hmtime x.2 (hfits x (.head _))) (ih fun y hy => hfits y (.tail _ hy))

theorem read_complete (hw : job.WellFormed) (hn : 0 < n) (hsize : job.size < 2 ^ 31) (hmtime : job.mtime.toNat < 2 ^ 32)
    (hfits : ∀ e ∈ job.entries, e.Fits) {tr : List (Option (Fin n) × Event)}
    {s : State (Option (Fin n)) (Shared n) Pc} (h : Runs job n tr s) (hc : Complete s) :
    ∃ es recs, (es.map Prod.fst).Perm job.entries ∧
      (es.map Prod.snd).Perm ((List.range job.entries.length).map nthIno) ∧
      Newc.read (output s) = some recs ∧ recs.map Prod.snd = contents job.mtime es ++ [trailer] := by
  obtain ⟨es, hstdout, hentries, hnumbers⟩ := numbered_of_complete hw hn hsize h hc
  have hall : ∀ x ∈ es, x.1.Fits := fun x hx => hfits _ (hentries.mem_iff.1 (List.mem_map_of_mem hx))
  obtain ⟨bytes, rest, htrailer, hlays⟩ := cpioTrailer_written
  have hnames : ∀ r ∈ contents job.mtime es, r.name ≠ Newc.trailerName := by
    intro r hr
    obtain ⟨x, hx, hr⟩ := List.mem_flatMap.1 hr
    exact Entry.name_ne (hall x hx) r hr
  obtain ⟨recs, hread, hmap, -⟩ := Newc.read_laid (lays_numbered hmtime hall) hnames hlays rfl rest
  exact ⟨es, recs, hentries, hnumbers, by rw [output, hstdout, htrailer, hread], hmap⟩

/-! ## Lists -/

/-- The lines of a list, without their newlines, and the entries they ask
for. -/
inductive IsList (files : Files) : List (List Byte) → List Entry → Prop
  | nil : IsList files [] []
  | comment {text ls es} : IsList files ls es → IsList files ((35 :: text) :: ls) es
  | blank {l ls es} : Blanks l → IsList files ls es → IsList files (l :: ls) es
  | entry {words l ls e es} : Describes files words e → IsLine words (l ++ [10]) → IsList files ls es →
      IsList files (l :: ls) (e :: es)

/-- A line that `fgets` and `strdup` take as a whole. -/
structure IsShort (l : List Byte) : Prop where
  newlineFree : 10 ∉ l
  nulFree : 0 ∉ l
  length : l.length + 1 ≤ lineSize - 1

theorem IsShort.strdup_eq {l : List Byte} (h : IsShort l) : strdup (l ++ [10]) = l ++ [10] := by
  refine List.takeWhile_eq_self_iff.2 fun c hc => decide_eq_true fun heq => ?_
  subst heq
  rcases List.mem_append.1 hc with hc | hc
  · exact h.nulFree hc
  · exact absurd (List.mem_singleton.1 hc) (by decide)

theorem action_comment (files : Files) (text : List Byte) : action files (35 :: text) = .skip := if_pos rfl

theorem action_blank (files : Files) {l : List Byte} (h : Blanks l) : action files (l ++ [10]) = .skip := by
  have hhead : (l ++ [10]).head? ≠ some 35 := by
    cases l with
    | nil => decide
    | cons c l =>
      intro heq
      cases heq
      exact absurd (h 35 (.head _)) (by decide)
  have hdrop : (l ++ [10]).dropWhile isBlank = [10] := by rw [List.dropWhile_append_of_pos h]; rfl
  have hcut : strtok isBlank (l ++ [10]) = some ([10], []) := by
    unfold strtok
    rw [hdrop]
    rfl
  simp only [action, if_neg hhead, hcut]
  rfl

theorem IsList.action_or {files : Files} {ls : List (List Byte)} {es : List Entry} (h : IsList files ls es) :
    ∀ l ∈ ls, action files (l ++ [10]) = .skip ∨ ∃ e, action files (l ++ [10]) = .emit e := by
  induction h with
  | nil => exact fun l hl => absurd hl List.not_mem_nil
  | comment _ ih =>
    intro l hl
    rcases List.mem_cons.1 hl with rfl | hl
    · exact .inl (action_comment files _)
    · exact ih l hl
  | blank hblank _ ih =>
    intro l hl
    rcases List.mem_cons.1 hl with rfl | hl
    · exact .inl (action_blank files hblank)
    · exact ih l hl
  | entry hdesc hline _ ih =>
    intro l hl
    rcases List.mem_cons.1 hl with rfl | hl
    · exact .inr ⟨_, hdesc.emits hline⟩
    · exact ih l hl

theorem IsList.filterMap_eq {files : Files} {ls : List (List Byte)} {es : List Entry} (h : IsList files ls es) :
    (ls.map (· ++ [10])).filterMap (lineEntry files) = es := by
  induction h with
  | nil => rfl
  | @comment text ls es _ ih =>
    have hnone : lineEntry files (35 :: text ++ [10]) = none := by
      rw [lineEntry, List.cons_append, action_comment]
    rw [List.map_cons, List.filterMap_cons_none hnone, ih]
  | @blank l ls es hblank _ ih =>
    have hnone : lineEntry files (l ++ [10]) = none := by rw [lineEntry, action_blank files hblank]
    rw [List.map_cons, List.filterMap_cons_none hnone, ih]
  | @entry words l ls e es hdesc hline _ ih =>
    have hsome : lineEntry files (l ++ [10]) = some e := by rw [lineEntry, hdesc.emits hline]
    rw [List.map_cons, List.filterMap_cons_some hsome, ih]

theorem IsList.wellFormed {files : Files} {ls : List (List Byte)} {es : List Entry} (h : IsList files ls es)
    (mtime : BitVec 64) : Job.WellFormed ⟨ls.map (· ++ [10]), files, mtime⟩ := by
  intro i line hline
  obtain ⟨l, hl, rfl⟩ := List.mem_map.1 (List.mem_of_getElem? hline)
  exact (h.action_or l hl).imp_right .inl

/-- **From the list to the archive.** `main` reads a list in the format of
`usage` into its table, and then, for any number of threads and whatever their
steps come between each other, there is a complete run, and after each of them
stdout is an archive of the entries the list asks for: a reader gets the
records of each entry once, under the numbers from 721 on, and the trailer. -/
theorem archive_of_list {mem : Memory} (hmem : mem.Plenty) {files : Files} {ls : List (List Byte)} {es : List Entry}
    (hlist : IsList files ls es) (hshort : ∀ l ∈ ls, IsShort l) (hcount : ls.length ≤ 2 ^ 30) {mtime : BitVec 64}
    (hmtime : mtime.toNat < 2 ^ 32) (hfits : ∀ e ∈ es, e.Fits) (hsize : (es.map (Entry.size mtime)).sum < 2 ^ 31)
    {n : Nat} (hn : 0 < n) :
    ∃ t, readTable mem (ls.map (· ++ [10])).flatten = .ok (some t) ∧
      (∃ tr s, Runs ⟨t.lines, files, mtime⟩ n tr s ∧ Complete s) ∧
      ∀ tr s, Runs ⟨t.lines, files, mtime⟩ n tr s → Complete s →
        ∃ out recs, (out.map Prod.fst).Perm es ∧ (out.map Prod.snd).Perm ((List.range es.length).map nthIno) ∧
          Newc.read (output s) = some recs ∧ recs.map Prod.snd = contents mtime out ++ [trailer] := by
  have hcut : Cut lineSize (ls.map (· ++ [10])).flatten (ls.map (· ++ [10])) :=
    cut_lines fun l hl => ⟨(hshort l hl).newlineFree, (hshort l hl).length⟩
  have htable := readTable_eq hmem hcut
  rw [if_pos (by simpa using hcount)] at htable
  obtain ⟨t, hread, -, hlines⟩ := htable
  have hdup : (ls.map (· ++ [10])).map strdup = ls.map (· ++ [10]) := by
    rw [List.map_map]
    exact List.map_congr_left fun l hl => (hshort l hl).strdup_eq
  rw [hdup] at hlines
  have hw := hlist.wellFormed mtime
  have hentries : Job.entries ⟨ls.map (· ++ [10]), files, mtime⟩ = es := hlist.filterMap_eq
  refine ⟨t, hread, ?_, fun tr s h hc => ?_⟩
  · rw [hlines]
    have hstart : Run (program ⟨ls.map (· ++ [10]), files, mtime⟩) (start n) [] (start n) := .nil
    obtain ⟨tr, s, hrun, hc⟩ := hstart.reaches_end program_falls fun _ _ h => progress hw h
    exact ⟨_, s, hrun, hc⟩
  · rw [hlines] at h
    have hsmall : Job.size ⟨ls.map (· ++ [10]), files, mtime⟩ < 2 ^ 31 := by rwa [Job.size_eq, hentries]
    have hall := read_complete hw hn hsmall hmtime (by rwa [hentries]) h hc
    rwa [hentries] at hall

/-- `# a`, and `dir d 0755 0 0`. -/
def sampleList : List (List Byte) :=
  [ascii ['#', ' ', 'a'], ascii ['d', 'i', 'r', ' ', 'd', ' ', '0', '7', '5', '5', ' ', '0', ' ', '0']]

theorem isList_sampleList : IsList (fun _ => none) sampleList [.generic [100] 0x41ED 0 0] := by
  have hname : IsWord [100] := ⟨by decide, by decide, by decide, by decide⟩
  have howner : Owner [[48, 55, 53, 53], [48], [48]] 0x1ED 0 0 :=
    .mk ⟨by decide, by decide, by decide⟩ ⟨by decide, by decide, by decide⟩ (by decide)
      ⟨by decide, by decide, by decide⟩ (by decide)
  have hspace : Blanks [32] := by simp [Blanks, isBlank]
  have hspaced := Spaced.cons (w := [100]) (by decide) hspace <| .cons (w := [48, 55, 53, 53]) (by decide) hspace <|
    .cons (w := [48]) (by decide) hspace <| .cons (w := [48]) (by decide) hspace <| .nil blanks_nil
  exact .comment <| .entry (.dir hname howner) ⟨ascii ['d', 'i', 'r'], _, _, [10], rfl, hspaced, .inr rfl, rfl⟩ .nil

/-- Two threads, of which one has nothing to do. -/
theorem archive_of_sampleList :
    ∃ t, readTable plenty (sampleList.map (· ++ [10])).flatten = .ok (some t) ∧
      (∃ tr s, Runs ⟨t.lines, fun _ => none, 0⟩ 2 tr s ∧ Complete s) ∧
      ∀ tr s, Runs ⟨t.lines, fun _ => none, 0⟩ 2 tr s → Complete s →
        ∃ out recs, (out.map Prod.fst).Perm [.generic [100] 0x41ED 0 0] ∧
          (out.map Prod.snd).Perm ((List.range 1).map nthIno) ∧
          Newc.read (output s) = some recs ∧ recs.map Prod.snd = contents 0 out ++ [trailer] := by
  refine archive_of_list plenty_plenty isList_sampleList ?_ (by decide) (by decide) ?_ ?_ (by decide)
  · intro l hl
    simp only [sampleList, List.mem_cons, List.not_mem_nil, or_false] at hl
    rcases hl with rfl | rfl
    · exact ⟨by decide, by decide, by decide⟩
    · exact ⟨by decide, by decide, by decide⟩
  · intro e he
    rw [List.mem_singleton.1 he]
    exact ⟨by decide, by decide, by decide⟩
  · have hsize : Entry.size 0 (.generic [100] 0x41ED 0 0) = 112 := headSize_of_lt (by decide) (by decide) _
    rw [List.map_singleton, List.sum_singleton, hsize]
    decide

end SugarNSpice.GenInitCpio
