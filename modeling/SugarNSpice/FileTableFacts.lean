/-
The table holds the text, piece by piece.

`fgets` takes the pieces `Cut` describes, one a turn, and every text has such
pieces. The table's `size` is a power of two between 2^12 and 2^30, and there
is always room for the next line; one doubling more would not fit an `int`.
-/
import SugarNSpice.FileTable
import Mathlib.Data.List.TakeWhile

namespace SugarNSpice.Cpio

open CLang

/-! ## Pieces -/

theorem readUpTo_line {l text : List Byte} {n : Nat} (hl : 10 ∉ l) (hn : l.length + 1 ≤ n) :
    readUpTo n (l ++ 10 :: text) = (l ++ [10], text) := by
  induction l generalizing n with
  | nil =>
    obtain ⟨k, rfl⟩ : ∃ k, n = k + 1 := ⟨n - 1, by simp only [List.length_nil] at hn; omega⟩
    simp [readUpTo]
  | cons c l ih =>
    obtain ⟨k, rfl⟩ : ∃ k, n = k + 1 := ⟨n - 1, by omega⟩
    have hc : c ≠ 10 := fun heq => hl (heq ▸ .head _)
    rw [List.cons_append, readUpTo, if_neg hc, ih (fun h => hl (.tail _ h)) (Nat.le_of_succ_le_succ hn)]
    rfl

theorem readUpTo_full {l text : List Byte} (hl : 10 ∉ l) : readUpTo l.length (l ++ text) = (l, text) := by
  induction l with
  | nil => rfl
  | cons c l ih =>
    have hc : c ≠ 10 := fun heq => hl (heq ▸ .head _)
    rw [List.length_cons, List.cons_append, readUpTo, if_neg hc, ih fun h => hl (.tail _ h)]
    rfl

theorem readUpTo_last {l : List Byte} {n : Nat} (hl : 10 ∉ l) (hn : l.length ≤ n) : readUpTo n l = (l, []) := by
  induction l generalizing n with
  | nil => cases n <;> rfl
  | cons c l ih =>
    obtain ⟨k, rfl⟩ : ∃ k, n = k + 1 := ⟨n - 1, by simp only [List.length_cons] at hn; omega⟩
    have hc : c ≠ 10 := fun heq => hl (heq ▸ .head _)
    rw [readUpTo, if_neg hc, ih (fun h => hl (.tail _ h)) (Nat.le_of_succ_le_succ hn)]
    rfl

theorem Cut.fgets_eq {size : Nat} {text p : List Byte} {ps : List (List Byte)} (hsize : 2 ≤ size)
    (h : Cut size text (p :: ps)) :
    ∃ text', fgets size text = some (p, text') ∧ Cut size text' ps ∧ text'.length < text.length := by
  cases h with
  | @line l text _ hl hlen hrest =>
    refine ⟨text, ?_, hrest, by simp only [List.length_append, List.length_cons]; omega⟩
    rw [fgets, if_neg (by simp), readUpTo_line hl hlen]
  | @full _ text _ hl hlen hrest =>
    have hne : p ++ text ≠ [] := by
      intro heq
      rw [(List.append_eq_nil_iff.1 heq).1, List.length_nil] at hlen
      omega
    refine ⟨text, ?_, hrest, by simp only [List.length_append]; omega⟩
    rw [fgets, if_neg hne, ← hlen, readUpTo_full hl]
  | last hne hl hlen =>
    refine ⟨[], ?_, .nil, List.length_pos_iff.2 hne⟩
    rw [fgets, if_neg hne, readUpTo_last hl (Nat.le_of_lt hlen)]

theorem Cut.fgets_nil {size : Nat} {text : List Byte} (h : Cut size text []) : fgets size text = none := by
  cases h with
  | nil => rfl

/-- **Every text comes apart**, into pieces that together are the text. -/
theorem cut_exists {size : Nat} (hsize : 2 ≤ size) (text : List Byte) : ∃ ps, Cut size text ps ∧ ps.flatten = text := by
  induction hk : text.length using Nat.strongRecOn generalizing text with
  | _ k ih =>
    subst hk
    -- The first line, and what follows it.
    obtain ⟨l, rest, rfl, hl, hrest⟩ : ∃ l rest, text = l ++ rest ∧ 10 ∉ l ∧ (rest = [] ∨ ∃ r, rest = 10 :: r) := by
      refine ⟨text.takeWhile (· ≠ 10), text.dropWhile (· ≠ 10), (List.takeWhile_append_dropWhile).symm, ?_, ?_⟩
      · intro hmem
        simpa using List.mem_takeWhile_imp hmem
      · cases hd : text.dropWhile (· ≠ 10) with
        | nil => exact .inl rfl
        | cons c r =>
          have hc : c = 10 := by
            have hhead := List.head?_dropWhile_not (fun x : Byte => decide (x ≠ 10)) text
            rw [hd] at hhead
            simpa using hhead
          exact .inr ⟨r, by rw [hc]⟩
    by_cases hlong : size - 1 ≤ l.length
    · have hlen : (l.take (size - 1)).length = size - 1 := by
        rw [List.length_take]
        omega
      obtain ⟨ps, hps, hflat⟩ := ih (l.drop (size - 1) ++ rest).length
        (by simp only [List.length_append, List.length_drop]; omega) _ rfl
      refine ⟨l.take (size - 1) :: ps, ?_, ?_⟩
      · have hcut := Cut.full (fun hmem => hl (List.mem_of_mem_take hmem)) hlen hps
        rwa [← List.append_assoc, List.take_append_drop] at hcut
      · rw [List.flatten_cons, hflat, ← List.append_assoc, List.take_append_drop]
    · rcases hrest with rfl | ⟨r, rfl⟩
      · rw [List.append_nil]
        cases l with
        | nil => exact ⟨[], .nil, rfl⟩
        | cons c l => exact ⟨[c :: l], .last (List.cons_ne_nil _ _) hl (by omega), by simp⟩
      · obtain ⟨ps, hps, hflat⟩ := ih r.length (by simp only [List.length_append, List.length_cons]; omega) _ rfl
        exact ⟨_, .line hl (by omega) hps, by simp [hflat]⟩

theorem cut_lines {size : Nat} {ls : List (List Byte)} (h : ∀ l ∈ ls, 10 ∉ l ∧ l.length + 1 ≤ size - 1) :
    Cut size (ls.map (· ++ [10])).flatten (ls.map (· ++ [10])) := by
  induction ls with
  | nil => exact .nil
  | cons l ls ih =>
    obtain ⟨hl, hlen⟩ := h l (.head _)
    have hcut := Cut.line hl hlen (ih fun x hx => h x (.tail _ hx))
    rw [List.map_cons, List.flatten_cons, List.append_assoc]
    exact hcut

/-! ## The table -/

/-- The table after some lines: its size, and the lines in their order. -/
structure Filled (t : FileTable) (done : List (List Byte)) : Prop where
  nrItems : t.nrItems = done.length
  size : ∃ k, 12 ≤ k ∧ k ≤ 30 ∧ t.size = 2 ^ k
  room : done.length ≤ t.size
  cells : ∃ cells, t.table = some cells ∧ cells.length = t.size ∧ cells.take done.length = done

theorem Filled.lines_eq {t : FileTable} {done : List (List Byte)} (h : Filled t done) : t.lines = done := by
  obtain ⟨cells, htable, -, htake⟩ := h.cells
  rw [FileTable.lines, htable, h.nrItems]
  exact htake

/-- Room for one more, up to 2^30 lines. -/
theorem growTable_filled {mem : Memory} (hmem : mem.Plenty) {t : FileTable} {done : List (List Byte)}
    (h : Filled t done) (hlt : done.length < 2 ^ 30) :
    ∃ t', growTable mem t = .ok (some t') ∧ Filled t' done ∧ done.length < t'.size := by
  obtain ⟨k, hk, hk30, hsize⟩ := h.size
  obtain ⟨cells, htable, hlen, htake⟩ := h.cells
  unfold growTable
  by_cases hfull : t.nrItems = t.size
  · have hlen2 : done.length = t.size := h.nrItems.symm.trans hfull
    obtain ⟨cells', hrealloc, hlen', htake'⟩ := Alloc.realloc_ok (hmem.grow t.nrItems) cells (t.size * 2)
    have hk29 : k < 30 := by
      refine (Nat.pow_lt_pow_iff_right (a := 2) (by decide)).1 ?_
      omega
    have hdouble : t.size * 2 = 2 ^ (k + 1) := by rw [hsize, Nat.pow_succ]
    have hfits : nat (t.size * 2) = .ok (t.size * 2) := nat_ok_of_lt (by omega)
    refine ⟨{ t with size := t.size * 2, table := some cells' }, ?_, ?_, ?_⟩
    · simp only [if_pos hfull, htable, deref, ok_bind, hrealloc, hfits]
    · refine ⟨h.nrItems, ⟨k + 1, by omega, hk29, hdouble⟩, ?_, cells', rfl, hlen', ?_⟩
      · simp only
        omega
      · rw [htake' _ (by omega) (by omega), htake]
    · have hpos : 0 < t.size := hsize ▸ Nat.two_pow_pos k
      simp only
      omega
  · have hroom := h.room
    have hn := h.nrItems
    exact ⟨t, if_neg hfull, h, by omega⟩

/-- At 2^30 lines the doubled size does not fit an `int`. -/
theorem growTable_overflow {mem : Memory} (hmem : mem.Plenty) {t : FileTable} {done : List (List Byte)}
    (h : Filled t done) (hlen : done.length = 2 ^ 30) : growTable mem t = .error .overflow := by
  obtain ⟨k, hk, hk30, hsize⟩ := h.size
  obtain ⟨cells, htable, -, -⟩ := h.cells
  have hroom := h.room
  have hle : t.size ≤ 2 ^ 30 := hsize ▸ Nat.pow_le_pow_right (by decide) hk30
  have hfull : t.nrItems = t.size := by rw [h.nrItems]; omega
  obtain ⟨cells', hrealloc, -, -⟩ := Alloc.realloc_ok (hmem.grow t.nrItems) cells (t.size * 2)
  have hover : nat (t.size * 2) = .error .overflow := nat_overflow (by unfold intMax; omega)
  unfold growTable
  simp only [if_pos hfull, htable, deref, ok_bind, hrealloc, hover, error_bind]

theorem tableTurn_next {mem : Memory} (hmem : mem.Plenty) {t : FileTable} {done : List (List Byte)} (h : Filled t done)
    (hlt : done.length < 2 ^ 30) {text text' p : List Byte} (hget : fgets lineSize text = some (p, text')) :
    ∃ t', tableTurn mem (text, t) = .ok (.next (text', t')) ∧ Filled t' (done ++ [strdup p]) := by
  obtain ⟨t₁, hgrow, h₁, hroom⟩ := growTable_filled hmem h hlt
  obtain ⟨cells, htable, hlen, htake⟩ := h₁.cells
  have hn := h₁.nrItems
  have hstore : store cells t₁.nrItems (strdup p) = .ok (cells.set t₁.nrItems (strdup p)) := store_ok (by omega) _
  have hcount : nat (t₁.nrItems + 1) = .ok (t₁.nrItems + 1) := nat_ok_of_lt (by omega)
  refine ⟨{ t₁ with nrItems := t₁.nrItems + 1, table := some (cells.set t₁.nrItems (strdup p)) }, ?_, ?_⟩
  · simp only [tableTurn, hget, hgrow, ok_bind, hmem.dup, if_true, htable, deref, hstore, hcount]
  · refine ⟨by simp [hn], h₁.size, by simp only [List.length_append, List.length_singleton]; omega, _, rfl,
      by simpa using hlen, ?_⟩
    rw [List.length_append, List.length_singleton, hn, List.take_set, List.take_add_one, htake,
      List.getElem?_eq_getElem (by omega), Option.toList_some, List.set_append_right _ _ (Nat.le_refl _), Nat.sub_self]
    rfl

/-- **The loop**: from a table with some lines on, it adds the pieces of the
text, or runs over the end of an `int`. -/
theorem loop_tableTurn {mem : Memory} (hmem : mem.Plenty) {ps : List (List Byte)} : ∀ {text : List Byte}
    {done : List (List Byte)} {t : FileTable} {fuel : Nat}, Cut lineSize text ps → Filled t done →
    done.length ≤ 2 ^ 30 → ps.length < fuel →
      if done.length + ps.length ≤ 2 ^ 30 then
        ∃ t', loop (tableTurn mem) fuel (text, t) = .ok (some t') ∧ Filled t' (done ++ ps.map strdup)
      else loop (tableTurn mem) fuel (text, t) = .error .overflow := by
  induction ps with
  | nil =>
    intro text done t fuel hcut hfilled hle hfuel
    obtain ⟨n, rfl⟩ : ∃ n, fuel = n + 1 := ⟨fuel - 1, by omega⟩
    have hturn : tableTurn mem (text, t) = .ok (.done (some t)) := by simp only [tableTurn, hcut.fgets_nil]
    rw [if_pos (by simpa using hle)]
    exact ⟨t, loop_done hturn n, by simpa using hfilled⟩
  | cons p ps ih =>
    intro text done t fuel hcut hfilled hle hfuel
    obtain ⟨n, rfl⟩ : ∃ n, fuel = n + 1 := ⟨fuel - 1, by omega⟩
    obtain ⟨text', hget, hrest, -⟩ := hcut.fgets_eq (by decide)
    by_cases hlt : done.length < 2 ^ 30
    · obtain ⟨t', hturn, hfilled'⟩ := tableTurn_next hmem hfilled hlt hget
      have hn : ps.length < n := by
        simp only [List.length_cons] at hfuel
        omega
      have hgoal := ih hrest hfilled' (by simp only [List.length_append, List.length_singleton]; omega) hn
      rw [List.length_append, List.length_singleton, List.append_assoc, Nat.add_assoc, Nat.add_comm 1] at hgoal
      rw [loop_next hturn]
      exact hgoal
    · have hover : tableTurn mem (text, t) = .error .overflow := by
        simp only [tableTurn, hget, growTable_overflow hmem hfilled (by omega), error_bind]
      rw [if_neg (by simp only [List.length_cons]; omega)]
      exact loop_fault hover n

theorem filled_empty {mem : Memory} (hmem : mem.Plenty) : Filled ⟨0, 4096, mem.first.malloc 4096⟩ [] :=
  ⟨rfl, ⟨12, by decide, by decide, rfl⟩, Nat.zero_le _, _, Alloc.malloc_ok hmem.first 4096, by simp, rfl⟩

theorem Cut.length_le {size : Nat} (hsize : 2 ≤ size) {ps : List (List Byte)} : ∀ {text : List Byte}, Cut size text ps →
    ps.length ≤ text.length := by
  induction ps with
  | nil => exact fun _ => Nat.zero_le _
  | cons p ps ih =>
    intro text hcut
    obtain ⟨text', -, hrest, hlt⟩ := hcut.fgets_eq hsize
    have := ih hrest
    simp only [List.length_cons]
    omega

theorem readTable_eq {mem : Memory} (hmem : mem.Plenty) {text : List Byte} {ps : List (List Byte)}
    (h : Cut lineSize text ps) :
    if ps.length ≤ 2 ^ 30 then ∃ t, readTable mem text = .ok (some t) ∧ t.nrItems = ps.length ∧ t.lines = ps.map strdup
    else readTable mem text = .error .overflow := by
  have hfuel : ps.length < text.length + 1 := Nat.lt_succ_of_le (h.length_le (by decide))
  have hloop := loop_tableTurn hmem h (filled_empty hmem) (Nat.zero_le _) hfuel
  simp only [List.length_nil, Nat.zero_add, List.nil_append] at hloop
  by_cases hle : ps.length ≤ 2 ^ 30
  · rw [if_pos hle] at hloop ⊢
    obtain ⟨t, ht, hfilled⟩ := hloop
    exact ⟨t, ht, by simpa using hfilled.nrItems, hfilled.lines_eq⟩
  · rw [if_neg hle] at hloop ⊢
    exact hloop

/-- **The table is the text**: every text falls into pieces that joined give it
back, each a line with its newline as far as `LINE_SIZE` allows, and the table
holds copies of them in order; or there are more than 2^30, and doubling the
size overflows. -/
theorem readTable_pieces {mem : Memory} (hmem : mem.Plenty) (text : List Byte) :
    ∃ ps, Cut lineSize text ps ∧ ps.flatten = text ∧
      if ps.length ≤ 2 ^ 30 then
        ∃ t, readTable mem text = .ok (some t) ∧ t.nrItems = ps.length ∧ t.lines = ps.map strdup
      else readTable mem text = .error .overflow := by
  obtain ⟨ps, hcut, hflat⟩ := cut_exists (show 2 ≤ lineSize by decide) text
  exact ⟨ps, hcut, hflat, readTable_eq hmem hcut⟩

/-- Memory that does not run out. -/
def plenty : Memory := ⟨⟨true, fun _ => []⟩, fun _ => ⟨true, fun _ => []⟩, fun _ => true⟩

theorem plenty_plenty : plenty.Plenty := ⟨rfl, fun _ => rfl, fun _ => rfl⟩

/-- A line and a half. -/
theorem readTable_pieces_two :
    ∃ ps, Cut lineSize [97, 10, 98] ps ∧ ps.flatten = [97, 10, 98] ∧
      if ps.length ≤ 2 ^ 30 then
        ∃ t, readTable plenty [97, 10, 98] = .ok (some t) ∧ t.nrItems = ps.length ∧ t.lines = ps.map strdup
      else readTable plenty [97, 10, 98] = .error .overflow := readTable_pieces plenty_plenty _

end SugarNSpice.Cpio
