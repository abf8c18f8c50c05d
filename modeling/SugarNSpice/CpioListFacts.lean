/-
The list's format, and that the handlers understand it.

`usage` tells it: a line is a type and its words, with blanks between them.
`Describes` is that text as a grammar, with the numbers as any digits that
stand for them. A line of the grammar is understood as the entry it describes,
however its words are spaced (`action_of_describes`). What the text does not
tell is in the rule for files: hard links are taken up to the first that does
not start with a character `isgraph` knows.
-/
import SugarNSpice.CpioList
import Mathlib.Data.List.Basic
import Mathlib.Data.List.TakeWhile
import Mathlib.Data.List.Induction
import Mathlib.Data.Nat.Digits.Defs

namespace SugarNSpice.Cpio

open CLang (ascii)

/-! ## The format -/

/-- Spaces and tabs. -/
def Blanks (s : List Byte) : Prop := ∀ c ∈ s, isBlank c = true

/-- Words, with blanks before each of them and perhaps behind the last. -/
inductive Spaced : List (List Byte) → List Byte → Prop
  | nil {s} : Blanks s → Spaced [] s
  | cons {gap w ws s} : gap ≠ [] → Blanks gap → Spaced ws s → Spaced (w :: ws) (gap ++ (w ++ s))

/-- A word: no white space, no NUL, and no longer than a path. -/
structure IsWord (w : List Byte) : Prop where
  ne_nil : w ≠ []
  solid : ∀ c ∈ w, isSpace c = false
  nulFree : 0 ∉ w
  length_le : w.length ≤ pathMax

/-- Digits, with as many zeros before them as one likes. -/
structure Numeral (base : Nat) (w : List Byte) (n : Nat) : Prop where
  ne_nil : w ≠ []
  digits : ∀ c ∈ w, 48 ≤ c.toNat ∧ c.toNat < 48 + base
  value : Nat.ofDigits base (w.reverse.map fun c => c.toNat - 48) = n

/-- `<mode> <uid> <gid>`. The mode is octal, and the others fit an `int`. -/
inductive Owner : List (List Byte) → BitVec 32 → BitVec 32 → BitVec 32 → Prop
  | mk {m u g} {mode uid gid : BitVec 32} : Numeral 8 m mode.toNat → Numeral 10 u uid.toNat → uid.toNat < 2 ^ 31 →
      Numeral 10 g gid.toNat → gid.toNat < 2 ^ 31 → Owner [m, u, g] mode uid gid

/-- Whether `isgraph` knows a word's first character. -/
def startsGraph (w : List Byte) : Bool := (w.head?.map isGraph).getD false

/-- The words of a line, and the entry they describe. -/
inductive Describes (files : Files) : List (List Byte) → Entry → Prop
  | file {name location owner mode uid gid src links} : IsWord name → IsWord location → Owner owner mode uid gid →
      files location = some src → (∀ link ∈ links, IsWord link) →
      Describes files (ascii ['f', 'i', 'l', 'e'] :: name :: location :: (owner ++ links))
        (.file src (name :: links.takeWhile startsGraph) mode uid gid)
  | dir {name owner mode uid gid} : IsWord name → Owner owner mode uid gid →
      Describes files (ascii ['d', 'i', 'r'] :: name :: owner) (.generic name (mode ||| 0x4000) uid gid)
  | nod {name owner mode uid gid devType maj min} {a b : BitVec 32} : IsWord name → Owner owner mode uid gid →
      isSpace devType = false → devType ≠ 0 → Numeral 10 maj a.toNat → Numeral 10 min b.toNat →
      Describes files (ascii ['n', 'o', 'd'] :: name :: (owner ++ [[devType], maj, min]))
        (.nod name mode uid gid devType a b)
  | slink {name target owner mode uid gid} : IsWord name → IsWord target → Owner owner mode uid gid →
      Describes files (ascii ['s', 'l', 'i', 'n', 'k'] :: name :: target :: owner) (.slink name target mode uid gid)
  | pipe {name owner mode uid gid} : IsWord name → Owner owner mode uid gid →
      Describes files (ascii ['p', 'i', 'p', 'e'] :: name :: owner) (.generic name (mode ||| 0x1000) uid gid)
  | sock {name owner mode uid gid} : IsWord name → Owner owner mode uid gid →
      Describes files (ascii ['s', 'o', 'c', 'k'] :: name :: owner) (.generic name (mode ||| 0xC000) uid gid)

/-- A line with these words: the first at its start, and a newline at its end
unless the list ends there. -/
def IsLine (words : List (List Byte)) (line : List Byte) : Prop :=
  ∃ type args s nl, words = type :: args ∧ Spaced args s ∧ (nl = [] ∨ nl = [10]) ∧ line = type ++ s ++ nl

/-! ## Words -/

/-- Where characters of a class end. -/
def Stops (p : Byte → Bool) (s : List Byte) : Prop := ∀ c, s.head? = some c → p c = false

theorem Stops.takeWhile_eq {p : Byte → Bool} {s : List Byte} (h : Stops p s) : s.takeWhile p = [] := by
  cases s with
  | nil => rfl
  | cons c s => simp [h c rfl]

theorem Stops.dropWhile_eq {p : Byte → Bool} {s : List Byte} (h : Stops p s) : s.dropWhile p = s := by
  cases s with
  | nil => rfl
  | cons c s => simp [h c rfl]

theorem takeWhile_until {p : Byte → Bool} {w s : List Byte} (hw : ∀ c ∈ w, p c = true) (hs : Stops p s) :
    (w ++ s).takeWhile p = w := by
  rw [List.takeWhile_append_of_pos hw, hs.takeWhile_eq, List.append_nil]

theorem dropWhile_until {p : Byte → Bool} {w s : List Byte} (hw : ∀ c ∈ w, p c = true) (hs : Stops p s) :
    (w ++ s).dropWhile p = s := by
  rw [List.dropWhile_append_of_pos hw, hs.dropWhile_eq]

theorem stops_word {p : Byte → Bool} {w s : List Byte} (hne : w ≠ []) (hw : ∀ c ∈ w, p c = false) :
    Stops p (w ++ s) := by
  intro c hc
  rw [List.head?_append_of_ne_nil _ hne] at hc
  exact hw c (List.mem_of_head? hc)

theorem isSpace_of_isBlank {c : Byte} (h : isBlank c = true) : isSpace c = true := by
  simp only [isBlank, Bool.or_eq_true, decide_eq_true_eq] at h
  rcases h with rfl | rfl
  · rfl
  · rfl

theorem digit_of_isSpace {base : Nat} {c : Byte} (h : isSpace c = true) : digit base c = none := by
  have hlt : c.toNat < 48 := by
    simp only [isSpace, Bool.or_eq_true, Bool.and_eq_true, decide_eq_true_eq] at h
    rcases h with rfl | ⟨-, hle⟩
    · exact Nat.lt_of_sub_eq_succ rfl
    · omega
  exact if_neg fun hd => by omega

theorem Spaced.head_isBlank {ws : List (List Byte)} {s : List Byte} (h : Spaced ws s) :
    ∀ c, s.head? = some c → isBlank c = true := by
  intro c hc
  cases h with
  | nil hs => exact hs c (List.mem_of_head? hc)
  | @cons gap w ws s hne hgap _ =>
    rw [List.head?_append_of_ne_nil _ hne] at hc
    exact hgap c (List.mem_of_head? hc)

theorem Spaced.stops {ws : List (List Byte)} {s : List Byte} (h : Spaced ws s) : Stops (!isSpace ·) s := by
  intro c hc
  simp [isSpace_of_isBlank (h.head_isBlank c hc)]

theorem Spaced.stops_digit {ws : List (List Byte)} {s : List Byte} (h : Spaced ws s) (base : Nat) :
    Stops (fun c => (digit base c).isSome) s := by
  intro c hc
  simp [digit_of_isSpace (isSpace_of_isBlank (h.head_isBlank c hc))]

theorem blanks_nil : Blanks [] := fun _ hc => absurd hc List.not_mem_nil

theorem Blanks.isSpace {gap : List Byte} (h : Blanks gap) : ∀ c ∈ gap, Cpio.isSpace c = true :=
  fun c hc => isSpace_of_isBlank (h c hc)

theorem scanSpace_blanks {gap : List Byte} (h : Blanks gap) : scanSpace gap = [] :=
  List.dropWhile_eq_nil_iff.2 h.isSpace

theorem scanSpace_word {gap w s : List Byte} (hgap : Blanks gap) (hne : w ≠ [])
    (hw : ∀ c ∈ w, isSpace c = false) : scanSpace (gap ++ (w ++ s)) = w ++ s :=
  dropWhile_until hgap.isSpace (stops_word hne hw)

theorem scanStr_word {gap w s : List Byte} {ws : List (List Byte)} (hgap : Blanks gap) (hw : IsWord w)
    (hs : Spaced ws s) : scanStr (gap ++ (w ++ s)) = some (w, s) := by
  have hspace : scanSpace (gap ++ (w ++ s)) = w ++ s := scanSpace_word hgap hw.ne_nil hw.solid
  have hword : ((w ++ s).takeWhile (!isSpace ·)).take pathMax = w := by
    rw [takeWhile_until (fun c hc => by simp [hw.solid c hc]) hs.stops]
    exact List.take_of_length_le hw.length_le
  simp only [scanStr, hspace, hword, if_neg hw.ne_nil, List.drop_left]

/-! ## Numbers -/

section Numeral

variable {base n : Nat} {w : List Byte}

theorem Numeral.digit_eq (h : Numeral base w n) {c : Byte} (hc : c ∈ w) : digit base c = some (c.toNat - 48) :=
  if_pos (h.digits c hc)

theorem Numeral.solid (h : Numeral base w n) : ∀ c ∈ w, isSpace c = false := by
  intro c hc
  cases hs : isSpace c with
  | false => rfl
  | true =>
    have hd := h.digit_eq hc
    rw [digit_of_isSpace hs] at hd
    cases hd

theorem foldl_digit (h : ∀ c ∈ w, digit base c = some (c.toNat - 48)) :
    w.foldl (fun n c => n * base + (digit base c).getD 0) 0 =
      Nat.ofDigits base (w.reverse.map fun c => c.toNat - 48) := by
  induction w using List.reverseRecOn with
  | nil => rfl
  | append_singleton w c ih =>
    have hw : ∀ x ∈ w, digit base x = some (x.toNat - 48) := fun x hx => h x (List.mem_append_left _ hx)
    have hc : digit base c = some (c.toNat - 48) := h c (List.mem_append_right _ (List.mem_singleton.2 rfl))
    rw [List.foldl_append, List.foldl_cons, List.foldl_nil, ih hw, hc, List.reverse_append, List.reverse_singleton,
      List.singleton_append, List.map_cons, Nat.ofDigits_cons, Option.getD_some, Nat.mul_comm, Nat.add_comm]

theorem Numeral.scanSign_eq (h : Numeral base w n) (s : List Byte) : scanSign (w ++ s) = (false, w ++ s) := by
  cases w with
  | nil => exact absurd rfl h.ne_nil
  | cons c w =>
    have hc := (h.digits c (.head _)).1
    have hminus : c ≠ 45 := by
      rintro rfl
      exact absurd hc (by decide)
    have hplus : c ≠ 43 := by
      rintro rfl
      exact absurd hc (by decide)
    rw [List.cons_append, scanSign, if_neg hminus, if_neg hplus]

theorem scanDigits_of_sign {t s : List Byte} {neg : Bool} (hsign : scanSign (scanSpace t) = (neg, w ++ s))
    (h : Numeral base w n) (hs : Stops (fun c => (digit base c).isSome) s) : scanDigits base t = some (neg, n, s) := by
  have hdigits : (w ++ s).takeWhile (fun c => (digit base c).isSome) = w :=
    takeWhile_until (fun c hc => by simp [h.digit_eq hc]) hs
  have hvalue := foldl_digit fun c hc => h.digit_eq hc
  simp only [scanDigits, hsign, hdigits, if_neg h.ne_nil, hvalue, h.value, List.drop_left]

theorem scanDigits_numeral {gap s : List Byte} {ws : List (List Byte)} (hgap : Blanks gap) (h : Numeral base w n)
    (hs : Spaced ws s) : scanDigits base (gap ++ (w ++ s)) = some (false, n, s) := by
  refine scanDigits_of_sign ?_ h (hs.stops_digit base)
  rw [scanSpace_word hgap h.ne_nil h.solid, h.scanSign_eq]

theorem scanUnsigned_numeral {gap s : List Byte} {ws : List (List Byte)} {v : BitVec 32} (hgap : Blanks gap)
    (h : Numeral base w v.toNat) (hs : Spaced ws s) : scanUnsigned base (gap ++ (w ++ s)) = some (v, s) := by
  have hlt : ¬ 2 ^ 64 ≤ v.toNat := by
    have := v.isLt
    omega
  simp only [scanUnsigned, scanDigits_numeral hgap h hs, Option.bind_eq_bind, Option.bind_some, if_neg hlt]
  simp

theorem scanInt_numeral {gap s : List Byte} {ws : List (List Byte)} {v : BitVec 32} (hgap : Blanks gap)
    (h : Numeral 10 w v.toNat) (hv : v.toNat < 2 ^ 31) (hs : Spaced ws s) :
    scanInt (gap ++ (w ++ s)) = some (v, s) := by
  have hmin : min (v.toNat : Int) (2 ^ 63 - 1) = v.toNat := by omega
  simp only [scanInt, scanDigits_numeral hgap h hs, Option.bind_eq_bind, Option.bind_some, hmin]
  simp

end Numeral

/-! ## Handlers -/

theorem scanOwner_owner {ws rest : List (List Byte)} {s : List Byte} {mode uid gid : BitVec 32}
    (h : Owner ws mode uid gid) (hs : Spaced (ws ++ rest) s) :
    ∃ s', scanOwner s = some (mode, uid, gid, s') ∧ Spaced rest s' := by
  cases h with
  | mk hm hu huid hg hgid =>
    cases hs with
    | cons _ hgap₁ hs₁ =>
      have hmode := scanUnsigned_numeral hgap₁ hm hs₁
      cases hs₁ with
      | cons _ hgap₂ hs₂ =>
        have huser := scanInt_numeral hgap₂ hu huid hs₂
        cases hs₂ with
        | @cons _ _ _ s' _ hgap₃ hs₃ =>
          have hgroup := scanInt_numeral hgap₃ hg hgid hs₃
          exact ⟨s', by simp only [scanOwner, hmode, huser, hgroup, Option.bind_eq_bind, Option.bind_some], hs₃⟩

theorem Spaced.length_le {ws : List (List Byte)} {s : List Byte} (h : Spaced ws s) : ws.length ≤ s.length := by
  induction h with
  | nil => exact Nat.zero_le _
  | cons hne _ _ ih =>
    have := List.length_pos_iff.2 hne
    simp only [List.length_cons, List.length_append]
    omega

/-- **Hard links**: as far as `isgraph` knows their first characters. -/
theorem scanLinks_spaced {links : List (List Byte)} {s : List Byte} (h : Spaced links s)
    (hlinks : ∀ link ∈ links, IsWord link) {fuel : Nat} (hfuel : links.length ≤ fuel) :
    scanLinks fuel (scanSpace s) = links.takeWhile startsGraph := by
  induction h generalizing fuel with
  | nil hs =>
    rw [scanSpace_blanks hs]
    cases fuel <;> simp [scanLinks]
  | @cons gap w ws s _ hgap hs ih =>
    obtain ⟨fuel, rfl⟩ : ∃ k, fuel = k + 1 := ⟨fuel - 1, by simp only [List.length_cons] at hfuel; omega⟩
    have hw := hlinks w (.head _)
    have hscan : scanStr (w ++ s) = some (w, s) := scanStr_word blanks_nil hw hs
    have hhead : (w ++ s).head? = w.head? := List.head?_append_of_ne_nil _ hw.ne_nil
    rw [scanSpace_word hgap hw.ne_nil hw.solid, scanLinks, hhead, List.takeWhile_cons, startsGraph]
    split
    · have hrest := ih (fun x hx => hlinks x (.tail _ hx)) (Nat.le_of_succ_le_succ hfuel)
      simp only [hscan, hrest]
    · rfl

section Handlers

variable {files : Files} {gap name s : List Byte} {owner : List (List Byte)} {mode uid gid : BitVec 32}

theorem cpioMkgenericLine_words (gt : BitVec 32) (hgap : Blanks gap) (hname : IsWord name)
    (howner : Owner owner mode uid gid) (hs : Spaced owner s) :
    cpioMkgenericLine gt (gap ++ (name ++ s)) = some (.generic name (mode ||| gt) uid gid) := by
  obtain ⟨s', hscan, -⟩ := scanOwner_owner howner ((List.append_nil owner).symm ▸ hs)
  simp only [cpioMkgenericLine, scanStr_word hgap hname hs, hscan, Option.bind_eq_bind, Option.bind_some]

theorem cpioMkslinkLine_words {target : List Byte} (hgap : Blanks gap) (hname : IsWord name) (htarget : IsWord target)
    (howner : Owner owner mode uid gid) (hs : Spaced (target :: owner) s) :
    cpioMkslinkLine (gap ++ (name ++ s)) = some (.slink name target mode uid gid) := by
  have hfirst := scanStr_word hgap hname hs
  cases hs with
  | cons _ hgap' hs' =>
    obtain ⟨s', hscan, -⟩ := scanOwner_owner howner ((List.append_nil owner).symm ▸ hs')
    simp only [cpioMkslinkLine, hfirst, scanStr_word hgap' htarget hs', hscan, Option.bind_eq_bind, Option.bind_some]

theorem cpioMknodLine_words {devType : Byte} {maj min : List Byte} {a b : BitVec 32} (hgap : Blanks gap)
    (hname : IsWord name) (howner : Owner owner mode uid gid) (hdev : isSpace devType = false)
    (hmaj : Numeral 10 maj a.toNat) (hmin : Numeral 10 min b.toNat) (hs : Spaced (owner ++ [[devType], maj, min]) s) :
    cpioMknodLine (gap ++ (name ++ s)) = some (.nod name mode uid gid devType a b) := by
  have hfirst := scanStr_word hgap hname hs
  obtain ⟨s', hscan, hs'⟩ := scanOwner_owner howner hs
  cases hs' with
  | @cons gap₁ _ _ s₁ _ hgap₁ hs₁ =>
    have htype : scanChar (gap₁ ++ ([devType] ++ s₁)) = some (devType, s₁) := by
      rw [scanChar, scanSpace_word hgap₁ (List.cons_ne_nil _ _) (by simpa using hdev)]
      rfl
    cases hs₁ with
    | cons _ hgap₂ hs₂ =>
      have hmajor := scanUnsigned_numeral hgap₂ hmaj hs₂
      cases hs₂ with
      | cons _ hgap₃ hs₃ =>
        have hminor := scanUnsigned_numeral hgap₃ hmin hs₃
        simp only [cpioMknodLine, hfirst, hscan, htype, hmajor, hminor, Option.bind_eq_bind, Option.bind_some]

theorem cpioMkfileLine_words {location : List Byte} {links : List (List Byte)} {src : Source} (hgap : Blanks gap)
    (hname : IsWord name) (hlocation : IsWord location) (howner : Owner owner mode uid gid)
    (hsrc : files location = some src) (hlinks : ∀ link ∈ links, IsWord link)
    (hs : Spaced (location :: (owner ++ links)) s) :
    cpioMkfileLine files (gap ++ (name ++ s)) =
      some (.file src (name :: links.takeWhile startsGraph) mode uid gid) := by
  have hfirst := scanStr_word hgap hname hs
  cases hs with
  | cons _ hgap' hs' =>
    obtain ⟨s', hscan, hrest⟩ := scanOwner_owner howner hs'
    have hnames := scanLinks_spaced hrest hlinks hrest.length_le
    simp only [cpioMkfileLine, hfirst, scanStr_word hgap' hlocation hs', hscan, hsrc, hnames, Option.bind_eq_bind,
      Option.bind_some]

end Handlers

/-! ## Lines -/

theorem strtok_token {delim : Byte → Bool} {w s : List Byte} (hne : w ≠ []) (hw : ∀ c ∈ w, delim c = false)
    (hs : Stops (!delim ·) s) : strtok delim (w ++ s) = some (w, s.drop 1) := by
  have hnot : ∀ c ∈ w, (!delim c) = true := fun c hc => by simp [hw c hc]
  have hstart : (w ++ s).dropWhile delim = w ++ s := (stops_word hne hw).dropWhile_eq
  unfold strtok
  rw [hstart]
  split
  · next heq => exact absurd (List.append_eq_nil_iff.1 heq).1 hne
  · rw [takeWhile_until hnot hs, dropWhile_until hnot hs]

/-- What the loop does with a line that has a type and a rest: the lookup is
for the type with the blanks before it, and the handler found gets the rest. -/
theorem action_eq {files : Files} {indent type body nl : List Byte} {b : Byte} (hindent : Blanks indent)
    (htype : ∀ c ∈ type, isSpace c = false) (hne : type ≠ []) (hhash : type.head? ≠ some 35) (hb : isBlank b = true)
    (hbody : body ≠ []) (hnewline : 10 ∉ body) (hnl : nl = [] ∨ nl = [10]) :
    action files (indent ++ (type ++ (b :: (body ++ nl)))) =
      ((fileHandlerTable files).lookup (indent ++ type)).elim .unknown fun h => (h body).elim .fail .emit := by
  have hsolid : ∀ c ∈ type, isBlank c = false := by
    intro c hc
    cases hblank : isBlank c with
    | false => rfl
    | true => rw [← htype c hc, isSpace_of_isBlank hblank]
  have hcomment : (indent ++ (type ++ (b :: (body ++ nl)))).head? ≠ some 35 := by
    cases indent with
    | nil => rwa [List.nil_append, List.head?_append_of_ne_nil _ hne]
    | cons c indent =>
      intro heq
      cases heq
      exact absurd (hindent 35 (.head _)) (by decide)
  have hcut : strtok isBlank (indent ++ (type ++ (b :: (body ++ nl)))) = some (type, body ++ nl) := by
    have hskip : strtok isBlank (indent ++ (type ++ (b :: (body ++ nl)))) =
        strtok isBlank (type ++ (b :: (body ++ nl))) := by
      rw [strtok, List.dropWhile_append_of_pos hindent]
      rfl
    rw [hskip]
    refine strtok_token hne hsolid fun c hc => ?_
    cases hc
    simp [hb]
  have hargs : strtok isNewline (body ++ nl) = some (body, nl.drop 1) := by
    refine strtok_token hbody (fun c hc => ?_) fun c hc => ?_
    · exact decide_eq_false fun heq => hnewline (heq ▸ hc)
    · rcases hnl with rfl | rfl
      · cases hc
      · cases hc
        rfl
  have hblank : type.head? ≠ some 10 := by
    intro heq
    exact absurd (htype 10 (List.mem_of_head? heq)) (by decide)
  have hlength : (indent ++ (type ++ (b :: (body ++ nl)))).length ≠ type.length := by
    simp only [List.length_append, List.length_cons]
    omega
  have hhandler : handler files (indent ++ (type ++ (b :: (body ++ nl)))) type =
      (fileHandlerTable files).lookup (indent ++ type) := by
    rw [handler, takeWhile_until hindent (stops_word hne hsolid)]
  simp only [action, if_neg hcomment, hcut, if_neg hblank, if_neg hlength, hargs, hhandler]
  cases (fileHandlerTable files).lookup (indent ++ type) with
  | none => rfl
  | some h =>
    simp only [Option.elim_some]
    cases h body with
    | none => rfl
    | some e => rfl

theorem Spaced.newline_not_mem {ws : List (List Byte)} {s : List Byte} (h : Spaced ws s)
    (hws : ∀ w ∈ ws, ∀ c ∈ w, isSpace c = false) : 10 ∉ s := by
  have hblanks : ∀ {gap : List Byte}, Blanks gap → 10 ∉ gap := fun hgap hc => absurd (hgap 10 hc) (by decide)
  induction h with
  | nil hs => exact hblanks hs
  | @cons gap w ws s _ hgap _ ih =>
    intro hmem
    rcases List.mem_append.1 hmem with hc | hc
    · exact hblanks hgap hc
    · rcases List.mem_append.1 hc with hc | hc
      · exact absurd (hws w (.head _) 10 hc) (by decide)
      · exact ih (fun x hx => hws x (.tail _ hx)) hc

theorem Owner.solid {ws : List (List Byte)} {mode uid gid : BitVec 32} (h : Owner ws mode uid gid) :
    ∀ w ∈ ws, ∀ c ∈ w, isSpace c = false := by
  cases h with
  | mk hm hu _ hg _ =>
    intro w hw
    simp only [List.mem_cons, List.not_mem_nil, or_false] at hw
    rcases hw with rfl | rfl | rfl
    · exact hm.solid
    · exact hu.solid
    · exact hg.solid

theorem Describes.solid {files : Files} {words : List (List Byte)} {e : Entry} (h : Describes files words e) :
    ∀ w ∈ words, ∀ c ∈ w, isSpace c = false := by
  intro w hw
  cases h with
  | file hname hlocation howner _ hlinks =>
    simp only [List.mem_cons, List.mem_append] at hw
    rcases hw with rfl | rfl | rfl | hw | hw
    · decide
    · exact hname.solid
    · exact hlocation.solid
    · exact howner.solid w hw
    · exact (hlinks w hw).solid
  | nod hname howner hdev _ hmaj hmin =>
    simp only [List.mem_cons, List.mem_append, List.not_mem_nil, or_false] at hw
    rcases hw with rfl | rfl | hw | rfl | rfl | rfl
    · decide
    · exact hname.solid
    · exact howner.solid w hw
    · simpa using hdev
    · exact hmaj.solid
    · exact hmin.solid
  | slink hname htarget howner =>
    simp only [List.mem_cons] at hw
    rcases hw with rfl | rfl | rfl | hw
    · decide
    · exact hname.solid
    · exact htarget.solid
    · exact howner.solid w hw
  | dir hname howner | pipe hname howner | sock hname howner =>
    simp only [List.mem_cons] at hw
    rcases hw with rfl | rfl | hw
    · decide
    · exact hname.solid
    · exact howner.solid w hw

theorem Describes.handler_eq {files : Files} {type name : List Byte} {args : List (List Byte)} {e : Entry}
    (h : Describes files (type :: name :: args) e) {gap s : List Byte} (hgap : Blanks gap) (hs : Spaced args s) :
    ∃ f, (fileHandlerTable files).lookup type = some f ∧ f (gap ++ (name ++ s)) = some e := by
  cases h with
  | file hname hlocation howner hsrc hlinks =>
    exact ⟨_, rfl, cpioMkfileLine_words hgap hname hlocation howner hsrc hlinks hs⟩
  | nod hname howner hdev _ hmaj hmin => exact ⟨_, rfl, cpioMknodLine_words hgap hname howner hdev hmaj hmin hs⟩
  | slink hname htarget howner => exact ⟨_, rfl, cpioMkslinkLine_words hgap hname htarget howner hs⟩
  | dir hname howner | pipe hname howner | sock hname howner =>
    exact ⟨_, rfl, cpioMkgenericLine_words _ hgap hname howner hs⟩

theorem Describes.words {files : Files} {words : List (List Byte)} {e : Entry} (h : Describes files words e) :
    ∃ type name args, words = type :: name :: args ∧ type ≠ [] ∧ type.head? ≠ some 35 ∧ name ≠ [] := by
  cases h with
  | file hname | nod hname | slink hname | dir hname | pipe hname | sock hname =>
    exact ⟨_, _, _, rfl, by decide, by decide, hname.ne_nil⟩

/-- A line of the format as the loop sees it: a type that has a handler, and
what the handler takes. -/
theorem Describes.parsed {files : Files} {words : List (List Byte)} {e : Entry} {line : List Byte}
    (h : Describes files words e) (hline : IsLine words line) :
    ∃ type f body, (fileHandlerTable files).lookup type = some f ∧ f body = some e ∧
      ∀ indent, Blanks indent → action files (indent ++ line) =
        ((fileHandlerTable files).lookup (indent ++ type)).elim .unknown fun h => (h body).elim .fail .emit := by
  obtain ⟨type, name, args, rfl, hne, hhash, hname⟩ := h.words
  obtain ⟨_, _, s, nl, hwords, hs, hnl, rfl⟩ := hline
  obtain ⟨rfl, rfl⟩ := List.cons.inj hwords
  have hsolid := h.solid
  have hnewline := hs.newline_not_mem fun w hw => hsolid w (.tail _ hw)
  cases hs with
  | @cons gap _ _ s hgapne hgap hs =>
    cases gap with
    | nil => exact absurd rfl hgapne
    | cons b gap =>
      have hgap' : Blanks gap := fun c hc => hgap c (.tail _ hc)
      obtain ⟨f, hlookup, hf⟩ := h.handler_eq hgap' hs
      refine ⟨type, f, gap ++ (name ++ s), hlookup, hf, fun indent hindent => ?_⟩
      have hbody : gap ++ (name ++ s) ≠ [] := by simp [hname]
      rw [List.cons_append, List.append_assoc type, List.cons_append]
      exact action_eq hindent (hsolid _ (.head _)) hne hhash (hgap b (.head _)) hbody
        (fun hmem => hnewline (.tail _ hmem)) hnl

theorem Describes.emits {files : Files} {words : List (List Byte)} {e : Entry} {line : List Byte}
    (h : Describes files words e) (hline : IsLine words line) : action files line = .emit e := by
  obtain ⟨type, f, body, hlookup, hf, haction⟩ := h.parsed hline
  have hstart := haction [] blanks_nil
  rw [List.nil_append, List.nil_append, hlookup, Option.elim_some, hf] at hstart
  exact hstart

theorem lookup_blank (files : Files) {b : Byte} (hb : isBlank b = true) (s : List Byte) :
    (fileHandlerTable files).lookup (b :: s) = none := by
  have hspace : ∀ (c : Char) (cs : List Char), isBlank (BitVec.ofNat 8 c.toNat) = false →
      (b :: s == ascii (c :: cs)) = false := by
    intro c cs hc
    refine beq_eq_false_iff_ne.2 fun heq => ?_
    rw [(List.cons.inj heq).1, hc] at hb
    cases hb
  simp only [fileHandlerTable, List.lookup_cons, hspace 'f' _ rfl, hspace 'n' _ rfl, hspace 'd' _ rfl,
    hspace 's' _ rfl, hspace 'p' _ rfl, List.lookup_nil]

/-- **A line of the format is understood**, however its words are spaced, if
its type is at the very start; with blanks before it the type is unknown, and
nothing is written for it. -/
theorem format_understood {files : Files} {words : List (List Byte)} {e : Entry} {indent line : List Byte}
    (h : Describes files words e) (hline : IsLine words line) (hindent : Blanks indent) :
    action files (indent ++ line) = if indent = [] then .emit e else .unknown := by
  cases indent with
  | nil => exact h.emits hline
  | cons b indent =>
    obtain ⟨type, f, body, -, -, haction⟩ := h.parsed hline
    rw [haction _ hindent, List.cons_append, lookup_blank files (hindent b (.head _))]
    rfl

/-- A file with two links. -/
def twoLinksLine : List Byte :=
  ascii ['f', 'i', 'l', 'e', ' ', 'a', ' ', 'f', ' ', '0', '7', '5', '5', ' ', '0', ' ', '0', ' ', 'b', '\t', 'é', '\n']

/-- The second link does not start with a character `isgraph` knows. -/
theorem format_understood_links :
    action (fun _ => some ⟨[1], 0⟩) ([9] ++ twoLinksLine) = .unknown ∧
      action (fun _ => some ⟨[1], 0⟩) ([] ++ twoLinksLine) = .emit (.file ⟨[1], 0⟩ [[97], [98]] 0x1ED 0 0) := by
  have hword : ∀ c : Byte, isSpace c = false → c ≠ 0 → IsWord [c] := fun c hc h0 =>
    ⟨List.cons_ne_nil _ _, by simpa using hc, by simpa using h0.symm, by simp [pathMax]⟩
  have howner : Owner [[48, 55, 53, 53], [48], [48]] 0x1ED 0 0 :=
    .mk ⟨by decide, by decide, by decide⟩ ⟨by decide, by decide, by decide⟩ (by decide)
      ⟨by decide, by decide, by decide⟩ (by decide)
  have hlinks : ∀ link ∈ [[98], [233]], IsWord link := by
    intro link hlink
    simp only [List.mem_cons, List.not_mem_nil, or_false] at hlink
    rcases hlink with rfl | rfl
    · exact hword 98 rfl (by decide)
    · exact hword 233 rfl (by decide)
  have hdesc : Describes (fun _ => some ⟨[1], 0⟩) _ _ :=
    .file (hword 97 rfl (by decide)) (hword 102 rfl (by decide)) howner rfl hlinks
  have hspace : Blanks [32] := by simp [Blanks, isBlank]
  have htab : Blanks [9] := by simp [Blanks, isBlank]
  have hspaced := Spaced.cons (w := [97]) (by decide) hspace <| .cons (w := [102]) (by decide) hspace <|
    .cons (w := [48, 55, 53, 53]) (by decide) hspace <| .cons (w := [48]) (by decide) hspace <|
    .cons (w := [48]) (by decide) hspace <| .cons (w := [98]) (by decide) hspace <|
    .cons (w := [233]) (by decide) htab <| .nil blanks_nil
  have hline : IsLine _ twoLinksLine := ⟨ascii ['f', 'i', 'l', 'e'], _, _, [10], rfl, hspaced, .inr rfl, rfl⟩
  exact ⟨format_understood hdesc hline htab, format_understood hdesc hline blanks_nil⟩

end SugarNSpice.Cpio
