/-
What `cpio_replace_env` makes of a location.

Where the values are plain (no `$`, no `{`, not empty) what has been replaced
is never looked at again, so the loop ends with each variable replaced once,
from left to right. A variable whose own value mentions it is replaced again
and again, until `expanded` overflows or without an end.
-/
import SugarNSpice.CpioReplaceEnv
import Mathlib.Data.List.Chain
import Mathlib.Data.List.TakeWhile

namespace SugarNSpice.Cpio

open CLang

/-! ## Strings in buffers -/

theorem cstr_append {s rest : List Byte} (h : 0 ∉ s) : cstr (s ++ 0 :: rest) = .ok s := by
  have hs : ∀ c ∈ s, decide (c ≠ 0) = true := fun c hc => decide_eq_true fun heq => h (heq ▸ hc)
  rw [cstr, if_pos (List.mem_append_right _ (.head _)), List.takeWhile_append_of_pos hs]
  simp

/-- A buffer of `PATH_MAX + 1` bytes with a string in it. -/
structure Holds (loc s : List Byte) : Prop where
  nulFree : 0 ∉ s
  length : loc.length = pathMax + 1
  layout : ∃ rest, loc = s ++ 0 :: rest

theorem Holds.cstr_eq {loc s : List Byte} (h : Holds loc s) : cstr loc = .ok s := by
  obtain ⟨rest, rfl⟩ := h.layout
  exact cstr_append h.nulFree

theorem Holds.length_le {loc s : List Byte} (h : Holds loc s) : s.length ≤ pathMax := by
  obtain ⟨rest, hloc⟩ := h.layout
  have hlength := h.length
  rw [hloc, List.length_append, List.length_cons] at hlength
  omega

theorem strncpy_eq {loc s : List Byte} (hloc : loc.length = pathMax + 1) (hs : s.length ≤ pathMax) :
    strncpy loc s pathMax = .ok (s ++ List.replicate (pathMax - s.length) 0 ++ loc.drop pathMax) := by
  rw [strncpy, if_pos (by omega), List.take_of_length_le hs]

theorem length_strncpy {loc s : List Byte} (hloc : loc.length = pathMax + 1) (hs : s.length ≤ pathMax) :
    (s ++ List.replicate (pathMax - s.length) 0 ++ loc.drop pathMax).length = pathMax + 1 := by
  simp only [List.length_append, List.length_replicate, List.length_drop]
  omega

/-- A string that is shorter than `PATH_MAX` gets its NUL. -/
theorem holds_strncpy {loc s : List Byte} (hloc : loc.length = pathMax + 1) (hs : s.length < pathMax) (h0 : 0 ∉ s) :
    Holds (s ++ List.replicate (pathMax - s.length) 0 ++ loc.drop pathMax) s := by
  refine ⟨h0, length_strncpy hloc (Nat.le_of_lt hs), ?_⟩
  obtain ⟨k, hk⟩ : ∃ k, pathMax - s.length = k + 1 := ⟨pathMax - s.length - 1, by omega⟩
  exact ⟨List.replicate k 0 ++ loc.drop pathMax, by rw [hk, List.replicate_succ]; simp⟩

/-- One of just `PATH_MAX` bytes leaves it to the byte behind. -/
theorem strncpy_holds_or {loc s : List Byte} (hloc : loc.length = pathMax + 1) (hs : s.length ≤ pathMax) (h0 : 0 ∉ s) :
    0 ∉ s ++ List.replicate (pathMax - s.length) 0 ++ loc.drop pathMax ∨
      Holds (s ++ List.replicate (pathMax - s.length) 0 ++ loc.drop pathMax) s := by
  rcases Nat.lt_or_eq_of_le hs with hlt | heq
  · exact .inr (holds_strncpy hloc hlt h0)
  · obtain ⟨x, hx⟩ : ∃ x, loc.drop pathMax = [x] := List.length_eq_one_iff.1 (by rw [List.length_drop]; omega)
    have hnone : s ++ List.replicate (pathMax - s.length) 0 ++ loc.drop pathMax = s ++ [x] := by simp [hx, heq]
    have hlength := length_strncpy hloc hs
    rw [hnone] at hlength ⊢
    by_cases hx0 : x = 0
    · exact .inr ⟨h0, hlength, [], by rw [hx0]⟩
    · refine .inl fun hmem => ?_
      rcases List.mem_append.1 hmem with hmem | hmem
      · exact h0 hmem
      · exact hx0 (List.mem_singleton.1 hmem).symm

/-! ## The next variable -/

theorem strstr_cons {needle s : List Byte} {c : Byte} (h : needle.isPrefixOf (c :: s) = false) :
    strstr needle (c :: s) = (strstr needle s).map (· + 1) := by simp [strstr, h]

theorem VarFree.tail {s : List Byte} {c : Byte} (h : VarFree (c :: s)) : VarFree s := List.IsChain.tail h

theorem VarFree.not_opening {s : List Byte} {c : Byte} (h : VarFree (c :: s)) : opening.isPrefixOf (c :: s) = false := by
  cases s with
  | nil => simp [opening, List.isPrefixOf]
  | cons d s =>
    have hpair : ¬ (c = 36 ∧ d = 123) := (List.isChain_cons_cons.1 h).1
    rw [Bool.eq_false_iff]
    intro heq
    obtain ⟨t, ht⟩ := List.isPrefixOf_iff_prefix.1 heq
    obtain ⟨hc, ht⟩ := List.cons.inj ht
    exact hpair ⟨hc.symm, (List.cons.inj ht).1.symm⟩

theorem strstr_varFree {s : List Byte} (h : VarFree s) : strstr opening s = none := by
  induction s with
  | nil => rfl
  | cons c s ih => rw [strstr_cons h.not_opening, ih h.tail, Option.map_none]

theorem varFree_concat {pre : List Byte} (h : VarFree pre) : VarFree (pre ++ [36]) := by
  refine List.IsChain.append h (.singleton _) fun x _ y hy => ?_
  cases hy
  exact fun heq => absurd heq.2 (by decide)

theorem strstr_opening {pre rest : List Byte} (h : VarFree pre) :
    strstr opening (pre ++ 36 :: 123 :: rest) = some pre.length := by
  induction pre with
  | nil => simp [strstr, opening, List.isPrefixOf]
  | cons c pre ih =>
    have hfirst : opening.isPrefixOf (c :: (pre ++ 36 :: 123 :: rest)) = false := by
      have hconcat := varFree_concat h
      rw [List.cons_append] at hconcat
      have hnot := hconcat.not_opening
      cases pre with
      | nil => simp [opening, List.isPrefixOf]
      | cons d pre => simpa [opening, List.isPrefixOf] using hnot
    rw [List.cons_append, strstr_cons hfirst, ih h.tail, Option.map_some, List.length_cons]

theorem strchr_none {s : List Byte} {c : Byte} (h : c ∉ s) : strchr s c = none := by
  rw [strchr, List.findIdx?_eq_none_iff]
  exact fun x hx => decide_eq_false fun heq => h (heq ▸ hx)

theorem strchr_some {name post : List Byte} {c : Byte} (h : c ∉ name) :
    strchr (name ++ c :: post) c = some name.length := by
  induction name with
  | nil => simp [strchr, List.findIdx?_cons]
  | cons d name ih =>
    have hd : d ≠ c := fun heq => h (heq ▸ .head _)
    have hrest := ih fun hmem => h (.tail _ hmem)
    simp only [strchr] at hrest ⊢
    simp [List.findIdx?_cons, hd, hrest]

theorem not_mem_opening {s : List Byte} (h : 125 ∉ s) : (125 : Byte) ∉ 36 :: 123 :: s := by
  intro hmem
  rcases List.mem_cons.1 hmem with heq | hmem
  · exact absurd heq (by decide)
  · rcases List.mem_cons.1 hmem with heq | hmem
    · exact absurd heq (by decide)
    · exact h hmem

/-! ## One turn -/

section Turn

variable {getenv : Environment} {pre name value post : List Byte}

theorem expandAt_eq (hvalue : getenv name = some value)
    (hlen : (pre ++ 36 :: 123 :: (name ++ 125 :: post)).length ≤ pathMax) (hshort : value.length ≤ pathMax) :
    expandAt getenv (pre ++ 36 :: 123 :: (name ++ 125 :: post)) pre.length (pre.length + (name.length + 2)) =
      if (pre ++ value ++ post).length ≤ pathMax then .ok (pre ++ value ++ post) else .error .bounds := by
  simp only [List.length_append, List.length_cons] at hlen
  have hvar : (pre ++ 36 :: 123 :: (name ++ 125 :: post)).drop (pre.length + 2) = name ++ 125 :: post := by
    have hsplit : pre ++ 36 :: 123 :: (name ++ 125 :: post) = (pre ++ [36, 123]) ++ (name ++ 125 :: post) := by simp
    rw [hsplit, List.drop_left' (by simp)]
  have hrest : (pre ++ 36 :: 123 :: (name ++ 125 :: post)).drop (pre.length + (name.length + 2) + 1) = post := by
    have hsplit : pre ++ 36 :: 123 :: (name ++ 125 :: post) = (pre ++ 36 :: 123 :: (name ++ [125])) ++ post := by simp
    rw [hsplit, List.drop_left' (by simp; omega)]
  have hcount : pre.length + (name.length + 2) - pre.length - 2 = name.length := by omega
  have htakeValue : value.take pathMax = value := List.take_of_length_le hshort
  have htakePost : post.take pathMax = post := List.take_of_length_le (by omega)
  have hfitName : name.length ≤ pathMax := by omega
  have hfitPre : pre.length ≤ pathMax := by omega
  unfold expandAt
  simp only [hvar, hrest, hcount, strncat, List.nil_append, List.take_left, if_pos hfitName, if_pos hfitPre, ok_bind,
    hvalue, deref, htakeValue, htakePost, Nat.add_le_add_iff_right]
  by_cases hfit : (pre ++ value ++ post).length ≤ pathMax
  · have hpart : (pre ++ value).length ≤ pathMax := by
      rw [List.length_append] at hfit
      omega
    simp only [if_pos hpart, ok_bind]
  · by_cases hpart : (pre ++ value).length ≤ pathMax
    · simp only [if_pos hpart, ok_bind]
    · simp only [if_neg hpart, if_neg hfit, error_bind]

/-- **A turn that replaces a variable**, if the result is short enough. -/
theorem replaceTurn_eq {loc : List Byte} (hloc : Holds loc (pre ++ 36 :: 123 :: (name ++ 125 :: post)))
    (hpre : VarFree pre) (hname : 125 ∉ name) (hvalue : getenv name = some value) (hshort : value.length ≤ pathMax) :
    replaceTurn getenv loc =
      if (pre ++ value ++ post).length ≤ pathMax then
        .ok (.next (pre ++ value ++ post ++ List.replicate (pathMax - (pre ++ value ++ post).length) 0 ++ loc.drop pathMax))
      else .error .bounds := by
  have hdrop : (pre ++ 36 :: 123 :: (name ++ 125 :: post)).drop pre.length = (36 :: 123 :: name) ++ 125 :: post :=
    List.drop_left
  have hchr : strchr ((pre ++ 36 :: 123 :: (name ++ 125 :: post)).drop pre.length) 125 = some (name.length + 2) := by
    rw [hdrop, strchr_some (not_mem_opening hname)]
    rfl
  simp only [replaceTurn, hloc.cstr_eq, ok_bind, strstr_opening hpre, hchr, expandAt_eq hvalue hloc.length_le hshort]
  by_cases hfit : (pre ++ value ++ post).length ≤ pathMax
  · simp only [if_pos hfit, ok_bind, strncpy_eq hloc.length hfit]
  · simp only [if_neg hfit, error_bind]

theorem replaceTurn_done {loc s : List Byte} (hloc : Holds loc s)
    (h : VarFree s ∨ ∃ pre rest, s = pre ++ 36 :: 123 :: rest ∧ VarFree pre ∧ 125 ∉ rest) :
    replaceTurn getenv loc = .ok (.done loc) := by
  rcases h with hfree | ⟨pre, rest, rfl, hpre, hrest⟩
  · simp only [replaceTurn, hloc.cstr_eq, ok_bind, strstr_varFree hfree]
  · simp only [replaceTurn, hloc.cstr_eq, ok_bind, strstr_opening hpre, List.drop_left,
      strchr_none (not_mem_opening hrest)]

end Turn

/-! ## Plain values -/

/-- What has been replaced so far: no variable starts in it, whatever comes
behind. -/
structure Settled (done : List Byte) : Prop where
  varFree : VarFree done
  last : ∀ c ∈ done.getLast?, c ≠ 36

theorem Settled.append {done s : List Byte} (h : Settled done) (hs : VarFree s) : VarFree (done ++ s) :=
  List.IsChain.append h.varFree hs fun c hc _ _ heq => h.last c hc heq.1

theorem IsPlain.varFree {value : List Byte} (h : IsPlain value) : VarFree value := by
  refine List.isChain_iff_getElem.2 fun i hi heq => ?_
  exact h.dollar (heq.1 ▸ List.getElem_mem _)

theorem Settled.value {done value : List Byte} (h : VarFree done) (hv : IsPlain value) : Settled (done ++ value) := by
  refine ⟨List.IsChain.append h hv.varFree fun _ _ c hc heq => ?_, fun c hc => ?_⟩
  · exact hv.brace (heq.2 ▸ List.mem_of_mem_head? hc)
  · rw [List.getLast?_append_of_ne_nil _ hv.ne_nil] at hc
    exact fun heq => hv.dollar (heq ▸ List.mem_of_mem_getLast? hc)

/-- **The loop on what is left**: behind what has been replaced, the rest is
expanded. -/
theorem loop_replaceTurn {getenv : Environment} {k : Nat} {s out : List Byte} (h : Expands getenv k s out) :
    ∀ {done loc : List Byte} {turns : Nat}, k = done.length → Settled done → Holds loc (done ++ s) → s.length < turns →
      ∃ loc', loop (replaceTurn getenv) turns loc = .ok loc' ∧ Holds loc' (done ++ out) := by
  induction h with
  | plain hfree =>
    intro done loc turns _ hdone hloc hturns
    obtain ⟨n, rfl⟩ : ∃ n, turns = n + 1 := ⟨turns - 1, by omega⟩
    exact ⟨loc, loop_done (replaceTurn_done hloc (.inl (hdone.append hfree))) n, hloc⟩
  | @unclosed _ pre rest hpre hrest =>
    intro done loc turns _ hdone hloc hturns
    obtain ⟨n, rfl⟩ : ∃ n, turns = n + 1 := ⟨turns - 1, by omega⟩
    have hform : done ++ (pre ++ 36 :: 123 :: rest) = (done ++ pre) ++ 36 :: 123 :: rest := by simp
    exact ⟨loc, loop_done (replaceTurn_done hloc (.inr ⟨_, rest, hform, hdone.append hpre, hrest⟩)) n, hloc⟩
  | @var _ pre name value post out hpre hname hvalue hplain hfit hrest ih =>
    intro done loc turns hk hdone hloc hturns
    obtain ⟨n, rfl⟩ : ∃ n, turns = n + 1 := ⟨turns - 1, by omega⟩
    subst hk
    rw [← List.append_assoc] at hloc
    have hfit' : (done ++ pre ++ value ++ post).length < pathMax := by
      simp only [List.length_append] at hfit ⊢
      omega
    have hshort : value.length ≤ pathMax := by
      simp only [List.length_append] at hfit
      omega
    have hturn := replaceTurn_eq hloc (hdone.append hpre) hname hvalue hshort
    rw [if_pos (Nat.le_of_lt hfit')] at hturn
    have h0 : 0 ∉ done ++ pre ++ value ++ post := by
      have hold := hloc.nulFree
      have hnew := hplain.nulFree
      simp only [List.mem_append, List.mem_cons, not_or] at hold ⊢
      exact ⟨⟨hold.1, hnew⟩, hold.2.2.2.2.2⟩
    have hnext := holds_strncpy hloc.length hfit' h0
    have hlen : post.length < n := by
      simp only [List.length_append, List.length_cons] at hturns
      omega
    have hcount : done.length + (pre ++ value).length = (done ++ pre ++ value).length := by simp
    obtain ⟨loc', hloop, hout⟩ := ih hcount (Settled.value (hdone.append hpre) hplain) hnext hlen
    refine ⟨loc', by rw [loop_next hturn]; exact hloop, ?_⟩
    simpa using hout

/-- **Each variable is replaced once, from left to right**, and what was put in
its place is left alone, as long as values are plain and there is room. -/
theorem cpioReplaceEnv_expands {getenv : Environment} {s out loc : List Byte} (h : Expands getenv 0 s out)
    (hloc : Holds loc s) : ∃ loc', cpioReplaceEnv getenv (s.length + 1) loc = .ok loc' ∧ Holds loc' out := by
  have hnil : Settled [] := ⟨.nil, nofun⟩
  obtain ⟨loc', hloop, hout⟩ := loop_replaceTurn h rfl hnil hloc (Nat.lt_succ_self _)
  exact ⟨loc', hloop, hout⟩

/-- A location in a buffer of zeros. -/
def buffer (s : List Byte) : List Byte := s ++ List.replicate (pathMax + 1 - s.length) 0

theorem holds_buffer {s : List Byte} (h0 : 0 ∉ s) (hs : s.length ≤ pathMax) : Holds (buffer s) s := by
  obtain ⟨k, hk⟩ : ∃ k, pathMax + 1 - s.length = k + 1 := ⟨pathMax - s.length, by omega⟩
  refine ⟨h0, ?_, List.replicate k 0, by rw [buffer, hk, List.replicate_succ]⟩
  rw [buffer, List.length_append, List.length_replicate]
  omega

/-- `${A}/c`, where `A` is `b`. -/
theorem cpioReplaceEnv_expands_one :
    ∃ loc', cpioReplaceEnv (fun name => if name = [65] then some [98] else none) 7 (buffer [36, 123, 65, 125, 47, 99]) =
      .ok loc' ∧ Holds loc' [98, 47, 99] := by
  have hplain : IsPlain [98] := ⟨by decide, by decide, by decide, by decide⟩
  have hrest : VarFree [47, 99] := by simp [VarFree]
  have hname : (125 : Byte) ∉ [65] := by decide
  have hroom : 0 + ([] ++ [98] ++ [47, 99] : List Byte).length < pathMax := by decide
  have hvalue : (fun name => if name = [65] then some [98] else none : Environment) [65] = some [98] := rfl
  have hloc : Holds (buffer [36, 123, 65, 125, 47, 99]) [36, 123, 65, 125, 47, 99] :=
    holds_buffer (by decide) (by decide)
  have hexpands : Expands (fun name => if name = [65] then some [98] else none) 0 [36, 123, 65, 125, 47, 99]
      [98, 47, 99] := .var .nil hname hvalue hplain hroom (.plain hrest)
  have hlen : ([36, 123, 65, 125, 47, 99] : List Byte).length + 1 = 7 := rfl
  have hend := cpioReplaceEnv_expands hexpands hloc
  rw [hlen] at hend
  exact hend

/-! ## A value that mentions its own variable -/

/-- What each turn finds: the variable again, or no string at all. -/
def Recurs (name loc : List Byte) : Prop :=
  loc.length = pathMax + 1 ∧
    (0 ∉ loc ∨ ∃ pre post, VarFree pre ∧ Holds loc (pre ++ 36 :: 123 :: (name ++ 125 :: post)))

theorem replaceTurn_recurs {getenv : Environment} {name a b : List Byte} (hname : 125 ∉ name)
    (hvalue : getenv name = some (a ++ 36 :: 123 :: (name ++ 125 :: b))) (ha : 36 ∉ a ∧ 123 ∉ a)
    (h0 : 0 ∉ a ++ 36 :: 123 :: (name ++ 125 :: b)) (hshort : (a ++ 36 :: 123 :: (name ++ 125 :: b)).length ≤ pathMax)
    (loc : List Byte) (h : Recurs name loc) :
    (∃ loc', replaceTurn getenv loc = .ok (.next loc') ∧ Recurs name loc') ∨ ∃ f, replaceTurn getenv loc = .error f := by
  obtain ⟨hlen, hnone | ⟨pre, post, hpre, hloc⟩⟩ := h
  · exact .inr ⟨.bounds, by simp only [replaceTurn, cstr, if_neg hnone, error_bind]⟩
  · let value := a ++ 36 :: 123 :: (name ++ 125 :: b)
    have hturn := replaceTurn_eq hloc hpre hname hvalue hshort
    by_cases hfit : (pre ++ value ++ post).length ≤ pathMax
    · rw [if_pos hfit] at hturn
      refine .inl ⟨_, hturn, length_strncpy hlen hfit, ?_⟩
      have hnul : 0 ∉ pre ++ value ++ post := by
        have hold := hloc.nulFree
        simp only [List.mem_append, List.mem_cons, not_or] at hold ⊢
        simp only [value, List.mem_append, List.mem_cons, not_or] at h0 ⊢
        exact ⟨⟨hold.1, h0⟩, hold.2.2.2.2.2⟩
      have hfree : VarFree (pre ++ a) := by
        have haFree : VarFree a := List.isChain_iff_getElem.2 fun i hi heq => ha.1 (heq.1 ▸ List.getElem_mem _)
        exact List.IsChain.append hpre haFree fun _ _ c hc heq => ha.2 (heq.2 ▸ List.mem_of_mem_head? hc)
      have hform : pre ++ value ++ post = (pre ++ a) ++ 36 :: 123 :: (name ++ 125 :: (b ++ post)) := by simp [value]
      refine (strncpy_holds_or hlen hfit hnul).imp_right fun hnext => ⟨pre ++ a, b ++ post, hfree, ?_⟩
      rw [← hform]
      exact hnext
    · rw [if_neg hfit] at hturn
      exact .inr ⟨_, hturn⟩

/-- **A variable whose value mentions it**: the call does not return, however
many turns it is given. -/
theorem cpioReplaceEnv_forever {getenv : Environment} {name a b pre post loc : List Byte} (hname : 125 ∉ name)
    (hvalue : getenv name = some (a ++ 36 :: 123 :: (name ++ 125 :: b))) (ha : 36 ∉ a ∧ 123 ∉ a)
    (h0 : 0 ∉ a ++ 36 :: 123 :: (name ++ 125 :: b)) (hshort : (a ++ 36 :: 123 :: (name ++ 125 :: b)).length ≤ pathMax)
    (hpre : VarFree pre) (hloc : Holds loc (pre ++ 36 :: 123 :: (name ++ 125 :: post))) (turns : Nat) (r : List Byte) :
    cpioReplaceEnv getenv turns loc ≠ .ok r :=
  loop_never (replaceTurn_recurs hname hvalue ha h0 hshort) ⟨hloc.length, .inr ⟨pre, post, hpre, hloc⟩⟩ r

/-- `${A}`, where `A` is `/${A}`. -/
theorem cpioReplaceEnv_forever_one :
    ¬ ∃ turns r, cpioReplaceEnv (fun _ => some [47, 36, 123, 65, 125]) turns (buffer [36, 123, 65, 125]) = .ok r := by
  intro h
  obtain ⟨turns, r, hr⟩ := h
  have hname : (125 : Byte) ∉ [65] := by decide
  have hvalue : (fun _ => some [47, 36, 123, 65, 125] : Environment) [65] =
      some ([47] ++ 36 :: 123 :: ([65] ++ 125 :: [])) :=
    rfl
  have hloc : Holds (buffer [36, 123, 65, 125]) ([] ++ 36 :: 123 :: ([65] ++ 125 :: [])) :=
    holds_buffer (by decide) (by decide)
  exact cpioReplaceEnv_forever hname hvalue (by decide) (by decide) (by decide) .nil hloc turns r hr

end SugarNSpice.Cpio
