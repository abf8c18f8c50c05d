/-
Where the two trackers agree, and where they do not.

While no more tags have been used than the array has cells, the tables hold
what those of `malloc_stats.c` hold (`Kept`): the library has room for as
many, so no call fails and the wrong reading of its returns is never tried.
The tag after that is stored past the end of the array. And the other tracker
prints its 64-bit counts through `%d`, so the rows are the same while they
fit.
-/
import SugarNSpice.MallocStatsHcreate
import SugarNSpice.MallocStatsFacts

namespace SugarNSpice.MallocStatsHcreate

open CLang
open MallocStats (Pointer AllocData Row Call Valid live tags allocs frees liveUnder counts percentD)

variable {T : Type} [DecidableEq T] {room : Nat} {h : List (Call T)} {g : Tables T}

/-- What the tables hold after a history. -/
structure Kept (room : Nat) (h : List (Call T)) (g : Tables T) : Prop where
  string : g.allocStringTable.string =
    (tags h).eraseDups.map some ++ List.replicate (htableSz - (tags h).eraseDups.length) none
  count : g.allocStringTable.count = (tags h).eraseDups.length
  track : ∀ p, (g.allocTrackTable p).map AllocData.allocString = live h p
  data : ∀ t, g.allocStatTable.data t = (counts h t).map fun c => ⟨c.1, c.2⟩
  room : g.allocStatTable.room + (tags h).eraseDups.length = room

omit [DecidableEq T] in
theorem hsearchFind_some {htab : HsearchData T} {key : T} {as : AllocStat} (hk : htab.data key = some as) :
    hsearchFind htab key = (1, some as) := by rw [hsearchFind, hk]

omit [DecidableEq T] in
theorem hsearchFind_none {htab : HsearchData T} {key : T} (hk : htab.data key = none) :
    hsearchFind htab key = (0, none) := by rw [hsearchFind, hk]

theorem hsearchEnter_new {htab : HsearchData T} {key : T} (hk : htab.data key = none) (hroom : 0 < htab.room)
    (as : AllocStat) :
    hsearchEnter htab key as = (1, ⟨htab.room - 1, Function.update htab.data key (some as)⟩) := by
  rw [hsearchEnter, hk]
  exact if_pos hroom

theorem hsearchEnter_nonneg (htab : HsearchData T) (key : T) (as : AllocStat) :
    ¬ (hsearchEnter htab key as).1 < 0 := by
  unfold hsearchEnter
  split
  · simp
  · split <;> simp

theorem Kept.tsearch {room : Nat} (hg : Kept room h g) {ptr : Pointer} (hfresh : live h ptr = none) (size : Int) (s : T)
    (p : Pointer) : (tsearch g.allocTrackTable ⟨s, ptr, size⟩ p).map AllocData.allocString =
      live (.doAlloc size s ptr :: h) p := by
  have hnone : g.allocTrackTable ptr = none := by simpa [hfresh] using hg.track ptr
  simp only [MallocStatsHcreate.tsearch, hnone, live, Function.update_apply]
  split
  next => rfl
  next => exact hg.track p

theorem Kept.debugAlloc_known (hg : Kept room h g) (hv : Valid h) {s : T} (hs : s ∈ tags h) {ptr : Pointer}
    (hfresh : live h ptr = none) (size : Int) :
    ∃ g', debugAlloc g ptr size s = .ok g' ∧ Kept room (.doAlloc size s ptr :: h) g' := by
  have hdata := hg.data s
  have hself := MallocStats.counts_doAlloc_self hv size s ptr
  have hsame : (tags (.doAlloc size s ptr :: h)).eraseDups = (tags h).eraseDups := by
    rw [tags, MallocStats.eraseDups_concat, if_pos hs]
  rw [MallocStats.counts_of_mem hs] at hdata hself
  rw [debugAlloc, hsearchFind_some hdata]
  refine ⟨_, rfl, ?_, ?_, hg.tsearch hfresh size s, fun t => ?_, ?_⟩
  · rw [hsame]
    exact hg.string
  · rw [hsame]
    exact hg.count
  · by_cases ht : t = s
    · subst ht
      simp [HsearchData.write, hself]
    · rw [MallocStats.counts_doAlloc_other ht, ← hg.data t]
      exact Function.update_of_ne ht _ _
  · rw [hsame]
    exact hg.room

theorem eraseDups_new {s : T} (hs : s ∉ tags h) (size : Int) (ptr : Pointer) :
    (tags (.doAlloc size s ptr :: h)).eraseDups = (tags h).eraseDups ++ [s] := by
  rw [tags, MallocStats.eraseDups_concat, if_neg hs]

/-- The cell behind the known tags is the new tag's. -/
theorem Kept.store_tag (hg : Kept room h g) {s : T} (hs : s ∉ tags h) (size : Int) (ptr : Pointer)
    (hcell : (tags h).eraseDups.length < htableSz) :
    store g.allocStringTable.string g.allocStringTable.count (some s) =
      .ok ((tags (.doAlloc size s ptr :: h)).eraseDups.map some ++
        List.replicate (htableSz - (tags (.doAlloc size s ptr :: h)).eraseDups.length) none) := by
  obtain ⟨k, hk⟩ : ∃ k, htableSz - (tags h).eraseDups.length = k + 1 :=
    ⟨htableSz - (tags h).eraseDups.length - 1, by omega⟩
  have hk' : htableSz - ((tags h).eraseDups.length + 1) = k := by omega
  rw [hg.string, hg.count, eraseDups_new hs size ptr, store_ok (by simp [hk])]
  simp [hk, hk', List.replicate_succ]

theorem Kept.debugAlloc_new (hg : Kept room h g) (hv : Valid h) {s : T} (hs : s ∉ tags h) {ptr : Pointer}
    (hfresh : live h ptr = none) (size : Int) (hcell : (tags h).eraseDups.length < htableSz)
    (hroom : htableSz ≤ room) :
    ∃ g', debugAlloc g ptr size s = .ok g' ∧ Kept room (.doAlloc size s ptr :: h) g' := by
  have hdata := hg.data s
  have hself := MallocStats.counts_doAlloc_self hv size s ptr
  have hmore := eraseDups_new hs size ptr
  rw [MallocStats.counts_of_notMem hs] at hdata hself
  have hleft : 0 < g.allocStatTable.room := by
    have := hg.room
    omega
  have hstore := hg.store_tag hs size ptr hcell
  have hcount : nat (g.allocStringTable.count + 1) = .ok (g.allocStringTable.count + 1) := by
    refine nat_ok_of_lt ?_
    have := hg.count
    unfold htableSz at hcell
    omega
  rw [debugAlloc, hsearchFind_none hdata]
  simp only [hsearchEnter_new hdata hleft, hstore, hcount, ok_bind]
  refine ⟨_, rfl, rfl, ?_, hg.tsearch hfresh size s, fun t => ?_, ?_⟩
  · rw [hmore, hg.count, List.length_append]
    rfl
  · by_cases ht : t = s
    · subst ht
      simp [hself]
    · rw [MallocStats.counts_doAlloc_other ht, ← hg.data t]
      exact Function.update_of_ne ht _ _
  · have := hg.room
    rw [hmore, List.length_append]
    simp only [List.length_singleton]
    omega

theorem Kept.debugAlloc_full (hg : Kept room h g) {s : T} (hs : s ∉ tags h) (ptr : Pointer) (size : Int)
    (hfull : (tags h).eraseDups.length = htableSz) : debugAlloc g ptr size s = .error .bounds := by
  have hdata := hg.data s
  rw [MallocStats.counts_of_notMem hs] at hdata
  have hstore : store g.allocStringTable.string g.allocStringTable.count (some s) = .error .bounds := by
    refine if_neg ?_
    rw [hg.string, hg.count, hfull]
    simp [hfull]
  rw [debugAlloc, hsearchFind_none hdata]
  simp only [hstore, error_bind]
  exact if_neg (hsearchEnter_nonneg _ _ _)

theorem Kept.debugFree (hg : Kept room h g) {ptr : Pointer} (hlive : live h ptr ≠ none) :
    ∃ g', debugFree g ptr = .ok g' ∧ Kept room (.doFree ptr :: h) g' := by
  obtain ⟨s, hs⟩ := Option.ne_none_iff_exists'.1 hlive
  obtain ⟨ad, had, rfl⟩ := Option.map_eq_some_iff.1 ((hg.track ptr).trans hs)
  have hdata := hg.data ad.allocString
  rw [MallocStats.counts_of_mem (MallocStats.mem_tags_of_live hs)] at hdata
  simp only [MallocStatsHcreate.debugFree, had, hsearchFind_some hdata]
  refine ⟨_, rfl, hg.string, hg.count, fun p => ?_, fun t => ?_, hg.room⟩
  · simp only [live, Function.update_apply]
    split
    next => rfl
    next => exact hg.track p
  · by_cases ht : t = ad.allocString
    · subst ht
      simp [HsearchData.write, MallocStats.counts_doFree_self hs]
    · rw [MallocStats.counts_doFree_other hs ht, ← hg.data t]
      exact Function.update_of_ne ht _ _

/-- **The tables after any valid history**, as long as the array has a cell for
each tag. -/
theorem run_kept (hroom : htableSz ≤ room) (hv : Valid h) (hfew : (tags h).eraseDups.length ≤ htableSz) :
    ∃ g, run room h = .ok g ∧ Kept room h g := by
  induction h with
  | nil => exact ⟨_, rfl, rfl, rfl, fun _ => rfl, fun _ => rfl, rfl⟩
  | cons c h ih =>
    cases c with
    | doAlloc size s ptr =>
      obtain ⟨hfresh, hv⟩ := hv
      by_cases hs : s ∈ tags h
      · have hsame : (tags (.doAlloc size s ptr :: h)).eraseDups = (tags h).eraseDups := by
          rw [tags, MallocStats.eraseDups_concat, if_pos hs]
        obtain ⟨g, hrun, hg⟩ := ih hv (hsame ▸ hfew)
        rw [run, hrun, ok_bind]
        exact hg.debugAlloc_known hv hs hfresh size
      · rw [eraseDups_new hs, List.length_append, List.length_singleton] at hfew
        obtain ⟨g, hrun, hg⟩ := ih hv (by omega)
        rw [run, hrun, ok_bind]
        exact hg.debugAlloc_new hv hs hfresh size (by omega) hroom
    | doFree ptr =>
      obtain ⟨hlive, hv⟩ := hv
      obtain ⟨g, hrun, hg⟩ := ih hv hfew
      rw [run, hrun, ok_bind]
      exact hg.debugFree hlive

/-- With more tags the array is written past its end. -/
theorem run_bounds (hroom : htableSz ≤ room) (hv : Valid h) (hmany : htableSz < (tags h).eraseDups.length) :
    run room h = .error .bounds := by
  induction h with
  | nil => exact absurd hmany (Nat.not_lt_zero _)
  | cons c h ih =>
    cases c with
    | doAlloc size s ptr =>
      obtain ⟨-, hv⟩ := hv
      by_cases hlater : htableSz < (tags h).eraseDups.length
      · rw [run, ih hv hlater, error_bind]
      · have hs : s ∉ tags h := by
          intro hs
          rw [tags, MallocStats.eraseDups_concat, if_pos hs] at hmany
          exact hlater hmany
        rw [eraseDups_new hs, List.length_append, List.length_singleton] at hmany
        obtain ⟨g, hrun, hg⟩ := run_kept hroom hv (by omega)
        rw [run, hrun, ok_bind]
        exact hg.debugAlloc_full hs ptr size (by omega)
    | doFree ptr => rw [run, ih hv.2 hmany, error_bind]

/-- The row of a tag. -/
def row (h : List (Call T)) (t : T) : Row T :=
  ⟨t, (BitVec.ofNat 64 (allocs t h)).toNat, (BitVec.ofNat 64 (frees t h)).toNat,
    (BitVec.ofNat 64 (allocs t h) - BitVec.ofNat 64 (frees t h)).toNat⟩

theorem Kept.printFrom_eq (hg : Kept room h g) {n i : Nat} (hi : i + n = (tags h).eraseDups.length) :
    printFrom g n i = .ok (((tags h).eraseDups.drop i).map (row h)) := by
  induction n generalizing i with
  | zero => rw [printFrom, List.drop_eq_nil_of_le (by omega), List.map_nil]
  | succ n ih =>
    have hlt : i < (tags h).eraseDups.length := by omega
    obtain ⟨t, ht⟩ : ∃ t, (tags h).eraseDups[i]? = some t := ⟨_, List.getElem?_eq_getElem hlt⟩
    have hload : load g.allocStringTable.string i = .ok (some t) := by
      rw [load_ok_iff, hg.string, List.getElem?_append_left (by simpa using hlt), List.getElem?_map, ht]
      rfl
    have hdata := hg.data t
    rw [MallocStats.counts_of_mem (List.mem_eraseDups.1 (List.mem_of_getElem? ht))] at hdata
    rw [printFrom, hload, ok_bind, deref, ok_bind]
    simp only [hsearchFind_some hdata, ih (i := i + 1) (by omega), ok_bind]
    rw [List.drop_eq_getElem_cons hlt, List.map_cons]
    rw [List.getElem?_eq_getElem hlt] at ht
    rw [Option.some.inj ht]
    rfl

theorem Kept.printStats_eq (hg : Kept room h g) : printStats g = .ok ((tags h).eraseDups.map (row h)) := by
  rw [printStats, hg.printFrom_eq (by rw [hg.count]; omega), List.drop_zero]

theorem percentD_eq_iff (x : BitVec 64) : percentD x = x.toNat ↔ x.toNat < 2 ^ 31 := by
  have hlow : (x.setWidth 32).toNat = x.toNat % 2 ^ 32 := BitVec.toNat_setWidth ..
  have hmod := Nat.mod_lt x.toNat (show 0 < 2 ^ 32 by decide)
  have hint : percentD x = if 2 * (x.setWidth 32).toNat < 2 ^ 32 then ((x.setWidth 32).toNat : Int)
      else ((x.setWidth 32).toNat : Int) - (2 ^ 32 : Nat) := BitVec.toInt_eq_toNat_cond _
  rw [hint, hlow]
  constructor
  · intro h
    split at h <;> omega
  · intro h
    rw [Nat.mod_eq_of_lt (by omega), if_pos (by omega)]

/-- **Where the trackers agree**: `print_stats` prints the same rows here and in
`malloc_stats.c` exactly when at most `HTABLE_SZ` tags have been used and each
number in the rows is one that `%d` prints. -/
theorem print_stats_agree_iff (hroom : htableSz ≤ room) (hv : Valid h) :
    (run room h >>= printStats) = .ok (MallocStats.printStats (MallocStats.run h)) ↔
      (tags h).eraseDups.length ≤ htableSz ∧ ∀ t ∈ tags h, allocs t h % 2 ^ 64 < 2 ^ 31 ∧
        frees t h % 2 ^ 64 < 2 ^ 31 ∧ (liveUnder t h).ncard < 2 ^ 31 := by
  by_cases hfew : (tags h).eraseDups.length ≤ htableSz
  · obtain ⟨g, hrun, hg⟩ := run_kept hroom hv hfew
    rw [hrun, ok_bind, hg.printStats_eq, (MallocStats.run_kept hv).printStats_eq, and_iff_right hfew,
      Except.ok.injEq, List.map_inj_left]
    simp only [List.mem_eraseDups]
    refine forall₂_congr fun t _ => ?_
    rw [row, Row.mk.injEq, eq_comm (b := percentD _), eq_comm (b := percentD _), eq_comm (b := percentD _),
      percentD_eq_iff, percentD_eq_iff, percentD_eq_iff, MallocStats.ofNat_allocs_sub_frees hv, BitVec.toNat_ofNat,
      BitVec.toNat_ofNat, and_iff_right rfl]
  · rw [run_bounds hroom hv (by omega), error_bind]
    simp [hfew]

/-- Few calls, under few tags. -/
theorem print_stats_agree_reused :
    (run htableSz MallocStats.reused >>= printStats) =
      .ok (MallocStats.printStats (MallocStats.run MallocStats.reused)) := by
  have hv : Valid MallocStats.reused := by simp [MallocStats.reused, Valid, live]
  refine (print_stats_agree_iff (Nat.le_refl _) hv).2 ⟨by decide, fun t _ => ?_⟩
  have hle : allocs t MallocStats.reused ≤ 2 := List.count_le_length
  have hsum := MallocStats.allocs_eq hv t
  refine ⟨?_, ?_, ?_⟩ <;> omega

/-! ## Many tags -/

/-- The tag "a...a" of `n` letters. -/
def letters (n : Nat) : String := String.ofList (List.replicate n 'a')

theorem letters_inj {m n : Nat} (h : letters m = letters n) : m = n := by
  have := congrArg List.length (String.ofList_injective h)
  simpa using this

/-- The addresses from 1 on. -/
def address (n : Nat) : Pointer := ⟨BitVec.ofNat 64 (n % 2 ^ 63 + 1), by
  intro h
  have := congrArg BitVec.toNat h
  simp only [BitVec.toNat_ofNat, BitVec.ofNat_eq_ofNat, Nat.zero_mod] at this
  omega⟩

theorem address_inj {m n : Nat} (hm : m < 2 ^ 63) (hn : n < 2 ^ 63) (h : address m = address n) : m = n := by
  have := congrArg (fun p : Pointer => p.1.toNat) h
  simp only [address, BitVec.toNat_ofNat] at this
  omega

/-- `n` allocations, each under a tag of its own. -/
def distinctly : Nat → List (Call String)
  | 0 => []
  | n + 1 => .doAlloc 20 (letters n) (address n) :: distinctly n

theorem live_distinctly {m n : Nat} (hmn : n ≤ m) (hm : m < 2 ^ 63) : live (distinctly n) (address m) = none := by
  induction n with
  | zero => rfl
  | succ n ih =>
    have hne : address m ≠ address n := fun h => by
      have := address_inj hm (by omega) h
      omega
    rw [distinctly, live, Function.update_of_ne hne]
    exact ih (by omega)

theorem distinctly_valid {n : Nat} (hn : n ≤ 2 ^ 63) : Valid (distinctly n) := by
  induction n with
  | zero => trivial
  | succ n ih => exact ⟨live_distinctly (Nat.le_refl n) (by omega), ih (by omega)⟩

theorem lt_of_mem_distinctly {m n : Nat} (h : letters m ∈ tags (distinctly n)) : m < n := by
  induction n with
  | zero => cases h
  | succ n ih =>
    rw [distinctly, tags, List.mem_append, List.mem_singleton] at h
    rcases h with h | h
    · have := ih h
      omega
    · have := letters_inj h
      omega

theorem length_distinctly (n : Nat) : (tags (distinctly n)).eraseDups.length = n := by
  induction n with
  | zero => rfl
  | succ n ih =>
    have hnew : letters n ∉ tags (distinctly n) := fun h => Nat.lt_irrefl n (lt_of_mem_distinctly h)
    rw [distinctly, eraseDups_new hnew, List.length_append, ih, List.length_singleton]

theorem print_stats_disagree :
    ∃ h : List (Call String), Valid h ∧ (tags h).eraseDups.length = 1025 ∧ run htableSz h = .error .bounds ∧
      (run htableSz h >>= printStats) ≠ .ok (MallocStats.printStats (MallocStats.run h)) := by
  have hv := distinctly_valid (n := 1025) (by omega)
  have hlen := length_distinctly 1025
  have hrun : run htableSz (distinctly 1025) = .error .bounds :=
    run_bounds (Nat.le_refl _) hv (by rw [hlen]; decide)
  refine ⟨distinctly 1025, hv, hlen, hrun, ?_⟩
  rw [hrun, error_bind]
  exact nofun

end SugarNSpice.MallocStatsHcreate
