/-
`hist.c`: a histogram in characters, a column for each number.

`print_hist` puts the axes and the bars into a plot of 121 columns and 26 rows
and prints it from the top row down. A bar has `data[k] / 4` rows, the axis
counted, and goes into column `k + 1`; nothing checks that it has room there.
-/
import SugarNSpice.Loops

namespace SugarNSpice.Hist

open CLang

def nCols : Nat := 120

def nRows : Nat := 25

/-- `plot`, by columns. -/
abbrev Plot := List (List Char)

/-- `plot[i][j] = c`. -/
def put (plot : Plot) (i j : Nat) (c : Char) : Outcome Plot := do
  let col ← load plot i
  let col ← store col j c
  store plot i col

def nrDots (x : Int) : Int := x.tdiv (100 / nRows : Nat)

/-- The bar of `data[k]`. -/
def bar (data : List Int) (k : Nat) (plot : Plot) : Outcome Plot := do
  let x ← load data k
  forUp (fun i plot => put plot (k + 1) i '*') ((nrDots x).toNat - 1) 1 plot

/-- `plot` with everything in it. -/
def draw (data : List Int) : Outcome Plot := do
  let plot := List.replicate (nCols + 1) (List.replicate (nRows + 1) ' ')
  let plot ← forUp (fun i plot => put plot 0 i '+') (nRows + 1) 0 plot
  let plot ← forUp (fun i plot => put plot i 0 '+') (nCols + 1) 0 plot
  forUp (bar data) data.length 0 plot

def printRow (plot : Plot) (i : Nat) (text : List Char) : Outcome (List Char) := do
  let text ← forUp (fun j text => do
    let col ← load plot j
    let c ← load col (nRows - i)
    .ok (text ++ [c])) (nCols + 1) 0 text
  .ok (text ++ ['\n'])

/-- `print_hist`: what it prints. -/
def printHist (data : List Int) : Outcome (List Char) := do
  let plot ← draw data
  forUp (printRow plot) (nRows + 1) 0 []

/-! ## The picture -/

/-- What is to be seen in column `j` and row `r`. -/
def cell (data : List Int) (j r : Nat) : Char :=
  if j = 0 ∨ r = 0 then '+' else if (r : Int) < nrDots (data.getD (j - 1) 0) then '*' else ' '

/-- The lines from the top down. -/
def picture (data : List Int) : List Char :=
  (List.range (nRows + 1)).flatMap fun i =>
    (List.range (nCols + 1)).map (cell data · (nRows - i)) ++ ['\n']

/-- A bar that has room, or has nothing to draw. -/
def Fits (k : Nat) (x : Int) : Prop := nrDots x ≤ 1 ∨ k < nCols ∧ nrDots x ≤ nRows + 1

instance instDecidableFits (k : Nat) (x : Int) : Decidable (Fits k x) := inferInstanceAs (Decidable (_ ∨ _ ∧ _))

/-! ## Plots as functions -/

/-- A plot with `f j r` in column `j` and row `r`. -/
def grid (f : Nat → Nat → Char) : Plot :=
  (List.range (nCols + 1)).map fun j => (List.range (nRows + 1)).map (f j)

theorem set_map_range {α : Type} (f : Nat → α) (n i : Nat) (x : α) :
    ((List.range n).map f).set i x = (List.range n).map (Function.update f i x) := by
  refine List.ext_getElem (by simp) fun j h₁ h₂ => ?_
  rw [List.getElem_set]
  by_cases hj : i = j
  · subst hj
    simp
  · rw [if_neg hj]
    simp [Function.update_of_ne (Ne.symm hj)]

/-- `f` with one cell changed. -/
def setCell (f : Nat → Nat → Char) (i j : Nat) (c : Char) : Nat → Nat → Char :=
  Function.update f i (Function.update (f i) j c)

theorem put_grid (f : Nat → Nat → Char) {i j : Nat} (hi : i < nCols + 1) (hj : j < nRows + 1) (c : Char) :
    put (grid f) i j c = .ok (grid (setCell f i j c)) := by
  have hlen : i < (grid f).length := by simpa [grid] using hi
  have hcol : (grid f)[i] = (List.range (nRows + 1)).map (f i) := by simp [grid]
  rw [put, load_ok hlen, ok_bind, hcol, store_ok (by simpa using hj), ok_bind, store_ok hlen, set_map_range, grid,
    set_map_range]
  refine congrArg Except.ok (List.map_congr_left fun k hk => ?_)
  by_cases hk : k = i
  · subst hk
    simp [setCell]
  · simp [setCell, Function.update_of_ne hk]

theorem put_bounds (f : Nat → Nat → Char) {i j : Nat} (h : nCols + 1 ≤ i ∨ nRows + 1 ≤ j) (c : Char) :
    put (grid f) i j c = .error .bounds := by
  by_cases hi : i < (grid f).length
  · have hcol : (grid f)[i] = (List.range (nRows + 1)).map (f i) := by simp [grid]
    have hj : ¬ j < ((List.range (nRows + 1)).map (f i)).length := by
      simp only [grid, List.length_map, List.length_range] at hi ⊢
      omega
    rw [put, load_ok hi, ok_bind, hcol, store, if_neg hj, error_bind]
  · have hnone : (grid f)[i]? = none := List.getElem?_eq_none (by omega)
    rw [put, load, hnone]
    rfl

theorem grid_congr {f g : Nat → Nat → Char} (h : ∀ j r, j < nCols + 1 → r < nRows + 1 → f j r = g j r) :
    grid f = grid g := by
  refine List.map_congr_left fun j hj => List.map_congr_left fun r hr => ?_
  exact h j r (List.mem_range.1 hj) (List.mem_range.1 hr)

/-- A loop that puts one character into a row of cells, and nothing into the
others. -/
theorem puts_grid (x y : Nat → Nat) (c : Char) (f : Nat → Nat → Char) {n a : Nat}
    (h : ∀ i, a ≤ i → i < a + n → x i < nCols + 1 ∧ y i < nRows + 1) :
    ∃ g, forUp (fun i plot => put plot (x i) (y i) c) n a (grid f) = .ok (grid g) ∧
      (∀ i, a ≤ i → i < a + n → g (x i) (y i) = c) ∧
      ∀ j r, (∀ i, a ≤ i → i < a + n → ¬ (j = x i ∧ r = y i)) → g j r = f j r := by
  induction n generalizing a f with
  | zero => exact ⟨f, rfl, fun i h₁ h₂ => absurd h₂ (by omega), fun _ _ _ => rfl⟩
  | succ n ih =>
    obtain ⟨hx, hy⟩ := h a (Nat.le_refl a) (by omega)
    obtain ⟨g, hrest, hset, hother⟩ := ih (setCell f (x a) (y a) c) (a := a + 1) fun i h₁ h₂ => h i (by omega) (by omega)
    refine ⟨g, by rw [forUp, put_grid f hx hy, ok_bind, hrest], fun i h₁ h₂ => ?_, fun j r hjr => ?_⟩
    · by_cases hlater : ∃ i', a + 1 ≤ i' ∧ i' < a + 1 + n ∧ x i = x i' ∧ y i = y i'
      · obtain ⟨i', h₁', h₂', hxi, hyi⟩ := hlater
        rw [hxi, hyi]
        exact hset i' h₁' h₂'
      · obtain rfl : i = a := by
          by_contra hne
          exact hlater ⟨i, by omega, by omega, rfl, rfl⟩
        rw [hother _ _ fun i' h₁' h₂' hsame => hlater ⟨i', h₁', h₂', hsame⟩]
        simp [setCell]
    · rw [hother j r fun i h₁ h₂ => hjr i (by omega) (by omega)]
      have hne := hjr a (Nat.le_refl a) (by omega)
      by_cases hj : j = x a
      · subst hj
        have hr : r ≠ y a := fun hr => hne ⟨rfl, hr⟩
        simp [setCell, Function.update_of_ne hr]
      · simp [setCell, Function.update_of_ne hj]

/-- And one that leaves the plot. -/
theorem puts_bounds (x y : Nat → Nat) (c : Char) (f : Nat → Nat → Char) {n a i : Nat} (h₁ : a ≤ i) (h₂ : i < a + n)
    (h : nCols + 1 ≤ x i ∨ nRows + 1 ≤ y i) :
    forUp (fun i plot => put plot (x i) (y i) c) n a (grid f) = .error .bounds := by
  induction n generalizing a f with
  | zero => omega
  | succ n ih =>
    by_cases hout : nCols + 1 ≤ x a ∨ nRows + 1 ≤ y a
    · rw [forUp, put_bounds f hout, error_bind]
    · rw [not_or, Nat.not_le, Nat.not_le] at hout
      rw [forUp, put_grid f hout.1 hout.2, ok_bind]
      refine ih _ ?_ (by omega)
      refine Nat.succ_le_of_lt (Nat.lt_of_le_of_ne h₁ ?_)
      rintro rfl
      omega

/-! ## Drawing -/

variable {data : List Int}

/-- The cells when the first `k` bars are drawn. -/
def Drawn (data : List Int) (k : Nat) (f : Nat → Nat → Char) : Prop :=
  ∀ j r, j < nCols + 1 → r < nRows + 1 → f j r =
    if j = 0 ∨ r = 0 then '+' else if j ≤ k ∧ (r : Int) < nrDots (data.getD (j - 1) 0) then '*' else ' '

theorem axes_drawn (data : List Int) :
    ∃ g, (do
      let plot ← forUp (fun i plot => put plot 0 i '+') (nRows + 1) 0
        (List.replicate (nCols + 1) (List.replicate (nRows + 1) ' '))
      forUp (fun i plot => put plot i 0 '+') (nCols + 1) 0 plot) = .ok (grid g) ∧ Drawn data 0 g := by
  have hblank : List.replicate (nCols + 1) (List.replicate (nRows + 1) ' ') = grid fun _ _ => ' ' := by
    simp [grid, List.map_const']
  obtain ⟨f, hf, hleft, hrest⟩ := puts_grid (fun _ => 0) id '+' (fun _ _ => ' ') (n := nRows + 1) (a := 0)
    fun i _ h₂ => ⟨Nat.succ_pos _, by simpa using h₂⟩
  obtain ⟨g, hg, hbottom, hrest'⟩ := puts_grid id (fun _ => 0) '+' f (n := nCols + 1) (a := 0)
    fun i _ h₂ => ⟨by simpa using h₂, Nat.succ_pos _⟩
  refine ⟨g, ?_, fun j r hj hr => ?_⟩
  · have hf' : forUp (fun i plot => put plot 0 i '+') (nRows + 1) 0 (grid fun _ _ => ' ') = .ok (grid f) := hf
    rw [hblank, hf', ok_bind]
    exact hg
  · by_cases hr0 : r = 0
    · subst hr0
      rw [if_pos (.inr rfl)]
      exact hbottom j (Nat.zero_le j) (by omega)
    · rw [hrest' j r fun i _ _ hsame => hr0 hsame.2]
      by_cases hj0 : j = 0
      · subst hj0
        rw [if_pos (.inl rfl)]
        exact hleft r (Nat.zero_le r) (by omega)
      · rw [hrest j r fun i _ _ hsame => hj0 hsame.1, if_neg (not_or.2 ⟨hj0, hr0⟩), if_neg (by omega)]

theorem bar_drawn {k : Nat} {x : Int} {f : Nat → Nat → Char} (hx : data[k]? = some x) (hfits : Fits k x)
    (h : Drawn data k f) : ∃ g, bar data k (grid f) = .ok (grid g) ∧ Drawn data (k + 1) g := by
  obtain ⟨g, hg, hset, hrest⟩ := puts_grid (fun _ => k + 1) id '*' f (n := (nrDots x).toNat - 1) (a := 1)
    fun i h₁ h₂ => by
      simp only [id]
      rcases hfits with hsmall | ⟨hk, hroom⟩ <;> omega
  refine ⟨g, ?_, fun j r hj hr => ?_⟩
  · rw [bar, load_ok_iff.2 hx, ok_bind]
    exact hg
  · by_cases hbar : j = k + 1 ∧ 1 ≤ r ∧ (r : Int) < nrDots x
    · obtain ⟨rfl, hr1, hdots⟩ := hbar
      have hget : data.getD (k + 1 - 1) 0 = x := by simp [List.getD_eq_getElem?_getD, hx]
      rw [if_neg (by omega), hget, if_pos ⟨Nat.le_refl _, hdots⟩]
      exact hset r hr1 (by omega)
    · rw [hrest j r fun i h₁ h₂ hsame => hbar ⟨hsame.1, by simp only [id] at hsame; omega, by
        simp only [id] at hsame; omega⟩, h j r hj hr]
      by_cases hjk : j = k + 1
      · subst hjk
        have hget : data.getD (k + 1 - 1) 0 = x := by simp [List.getD_eq_getElem?_getD, hx]
        rw [hget]
        by_cases hr0 : r = 0
        · simp [hr0]
        · rw [if_neg (by omega), if_neg (by omega), if_neg (by omega), if_neg (by omega)]
      · have hiff : j ≤ k + 1 ↔ j ≤ k := by omega
        simp only [hiff]

theorem bar_bounds {k : Nat} {x : Int} (hx : data[k]? = some x) (hfits : ¬ Fits k x) (f : Nat → Nat → Char) :
    bar data k (grid f) = .error .bounds := by
  rw [Fits, not_or, not_and_or] at hfits
  rw [bar, load_ok_iff.2 hx, ok_bind]
  rcases Nat.lt_or_ge k nCols with hk | hk
  · exact puts_bounds (fun _ => k + 1) id '*' f (i := nRows + 1) (by omega) (by simp only [nRows] at *; omega)
      (.inr (Nat.le_refl _))
  · exact puts_bounds (fun _ => k + 1) id '*' f (i := 1) (Nat.le_refl 1) (by omega) (.inl (by omega))

/-- The bars from `a` on: all of them, or a fault at the first without room. -/
theorem bars_drawn {n a : Nat} (hn : a + n = data.length) {f : Nat → Nat → Char} (h : Drawn data a f) :
    ((∀ k x, a ≤ k → data[k]? = some x → Fits k x) →
      ∃ g, forUp (bar data) n a (grid f) = .ok (grid g) ∧ Drawn data data.length g) ∧
    ((∃ k x, a ≤ k ∧ data[k]? = some x ∧ ¬ Fits k x) → forUp (bar data) n a (grid f) = .error .bounds) := by
  induction n generalizing a f with
  | zero =>
    refine ⟨fun _ => ⟨f, rfl, by rwa [← hn, Nat.add_zero]⟩, fun ⟨k, x, hk, hx, _⟩ => ?_⟩
    have := (List.getElem?_eq_some_iff.1 hx).1
    omega
  | succ n ih =>
    have ha : a < data.length := by omega
    have hx : data[a]? = some data[a] := List.getElem?_eq_getElem ha
    by_cases hfits : Fits a data[a]
    · obtain ⟨g, hg, hdrawn⟩ := bar_drawn hx hfits h
      obtain ⟨hok, hbad⟩ := ih (a := a + 1) (by omega) hdrawn
      rw [forUp, hg, ok_bind]
      refine ⟨fun hall => hok fun k x hk => hall k x (by omega), fun ⟨k, x, hk, hxk, hno⟩ => hbad ⟨k, x, ?_, hxk, hno⟩⟩
      refine Nat.succ_le_of_lt (Nat.lt_of_le_of_ne hk ?_)
      rintro rfl
      rw [hx] at hxk
      cases hxk
      exact hno hfits
    · rw [forUp, bar_bounds hx hfits, error_bind]
      exact ⟨fun hall => absurd (hall a _ (Nat.le_refl a) hx) hfits, fun _ => rfl⟩

/-! ## Printing -/

theorem printRow_grid (f : Nat → Nat → Char) {i : Nat} (text : List Char) :
    printRow (grid f) i text = .ok (text ++ ((List.range (nCols + 1)).map (f · (nRows - i)) ++ ['\n'])) := by
  have hturn : ∀ j t, 0 ≤ j → j < 0 + (nCols + 1) → t = text ++ (List.range j).map (f · (nRows - i)) →
      ∃ t', (do
        let col ← load (grid f) j
        let c ← load col (nRows - i)
        .ok (t ++ [c])) = .ok t' ∧ t' = text ++ (List.range (j + 1)).map (f · (nRows - i)) := by
    rintro j t - hj rfl
    have hlen : j < (grid f).length := by simpa [grid] using hj
    have hcol : (grid f)[j] = (List.range (nRows + 1)).map (f j) := by simp [grid]
    have hrow : nRows - i < ((List.range (nRows + 1)).map (f j)).length := by
      simp only [List.length_map, List.length_range]
      omega
    refine ⟨_, ?_, rfl⟩
    rw [load_ok hlen, ok_bind, hcol, load_ok hrow, ok_bind, @List.range_succ j]
    simp
  obtain ⟨t, ht, rfl⟩ := forUp_total hturn (a := 0) (s := text) (by simp)
  rw [printRow, ht, ok_bind, List.append_assoc, Nat.zero_add]

theorem print_grid (f : Nat → Nat → Char) :
    forUp (printRow (grid f)) (nRows + 1) 0 [] = .ok ((List.range (nRows + 1)).flatMap fun i =>
      (List.range (nCols + 1)).map (f · (nRows - i)) ++ ['\n']) := by
  have hturn : ∀ i t, 0 ≤ i → i < 0 + (nRows + 1) → t = ((List.range i).flatMap fun i =>
      (List.range (nCols + 1)).map (f · (nRows - i)) ++ ['\n']) →
      ∃ t', printRow (grid f) i t = .ok t' ∧ t' = (List.range (i + 1)).flatMap fun i =>
        (List.range (nCols + 1)).map (f · (nRows - i)) ++ ['\n'] := by
    rintro i t - - rfl
    refine ⟨_, printRow_grid f _, ?_⟩
    rw [@List.range_succ i, List.flatMap_append, List.flatMap_singleton]
  obtain ⟨t, ht, rfl⟩ := forUp_total hturn (a := 0) (s := []) rfl
  rw [ht, Nat.zero_add]

theorem draw_eq (data : List Int) : ∃ f, draw data = forUp (bar data) data.length 0 (grid f) ∧ Drawn data 0 f := by
  obtain ⟨f, hf, haxes⟩ := axes_drawn data
  obtain ⟨plot, hleft, hbottom⟩ := bind_ok_iff.1 hf
  exact ⟨f, by rw [draw, hleft, ok_bind, hbottom, ok_bind], haxes⟩

theorem Drawn.grid_eq {f : Nat → Nat → Char} (h : Drawn data data.length f) : grid f = grid (cell data) := by
  refine grid_congr fun j r hj hr => ?_
  rw [h j r hj hr, cell]
  by_cases haxis : j = 0 ∨ r = 0
  · rw [if_pos haxis, if_pos haxis]
  · rw [if_neg haxis, if_neg haxis]
    by_cases hlen : j ≤ data.length
    · simp only [hlen, true_and]
    · -- no number, no bar
      have hnone : data.getD (j - 1) 0 = 0 := by
        rw [List.getD_eq_getElem?_getD, List.getElem?_eq_none (by omega)]
        rfl
      have hr0 : ¬ (r : Int) < nrDots 0 := by
        have : nrDots 0 = 0 := rfl
        omega
      rw [hnone, if_neg (fun h => hlen h.1), if_neg hr0]

theorem printHist_picture (h : ∀ k x, data[k]? = some x → Fits k x) : printHist data = .ok (picture data) := by
  obtain ⟨f, hdraw, haxes⟩ := draw_eq data
  obtain ⟨g, hg, hdrawn⟩ := (bars_drawn (Nat.zero_add _) haxes).1 fun k x _ => h k x
  rw [printHist, hdraw, hg, ok_bind, hdrawn.grid_eq, print_grid]
  rfl

theorem printHist_bounds {k : Nat} {x : Int} (hx : data[k]? = some x) (h : ¬ Fits k x) :
    printHist data = .error .bounds := by
  obtain ⟨f, hdraw, haxes⟩ := draw_eq data
  rw [printHist, hdraw, (bars_drawn (Nat.zero_add _) haxes).2 ⟨k, x, Nat.zero_le k, hx, h⟩, error_bind]

/-- What `main` passes has room: 118 numbers below 100. -/
theorem fits_main {data : List Int} (hlen : data.length ≤ nCols - 2) (hdata : ∀ x ∈ data, 0 ≤ x ∧ x < 100) :
    ∀ k x, data[k]? = some x → Fits k x := by
  intro k x hx
  obtain ⟨hk, rfl⟩ := List.getElem?_eq_some_iff.1 hx
  obtain ⟨h0, h100⟩ := hdata _ (List.getElem_mem hk)
  have hdots : nrDots data[k] = data[k] / 4 := Int.tdiv_eq_ediv_of_nonneg h0
  simp only [nCols] at hlen
  refine .inr ⟨by simp only [nCols]; omega, ?_⟩
  rw [hdots]
  simp only [nRows]
  omega

/-- **What `print_hist` prints**: the axes and, for each number, a bar of a
quarter of it, if all bars have room; one that has none is drawn past the end of
its column or in a column that is not there. `main`'s all have. -/
theorem printHist_draws (data : List Int) :
    ((∀ k x, data[k]? = some x → Fits k x) → printHist data = .ok (picture data)) ∧
      ((∃ k x, data[k]? = some x ∧ ¬ Fits k x) → printHist data = .error .bounds) ∧
      (data.length ≤ nCols - 2 → (∀ x ∈ data, 0 ≤ x ∧ x < 100) → printHist data = .ok (picture data)) :=
  ⟨printHist_picture, fun ⟨_, _, hx, h⟩ => printHist_bounds hx h,
    fun hlen hdata => printHist_picture (fits_main hlen hdata)⟩

/-- A bar of 26 rows has room, and one of 27 has not. -/
theorem printHist_draws_sample :
    printHist [107] = .ok (picture [107]) ∧ printHist [50, 108] = .error .bounds := by
  refine ⟨(printHist_draws [107]).1 fun k x hx => ?_, (printHist_draws [50, 108]).2.1 ⟨1, 108, rfl, by decide⟩⟩
  obtain ⟨hk, rfl⟩ := List.getElem?_eq_some_iff.1 hx
  obtain rfl : k = 0 := by simpa using hk
  show Fits 0 107
  decide

end SugarNSpice.Hist
