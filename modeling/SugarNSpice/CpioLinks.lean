/-
`gen_init_cpio.c`, the names of a file: the buffer that `cpio_mkfile_line`
fills with them, and the walk through it in `cpio_mkfile`.

With hard links the names go one behind the other, each with its NUL, into a
buffer as long as the arguments are. `cpio_mkfile` steps from one to the next,
past a leading slash. Elsewhere the names are a list (`scanLinks`); here it is
shown that the buffer always has room for them, and that the walk finds them.
A link is cut after `PATH_MAX` bytes and then takes one byte more than the
line has for it; a line is too short for this to happen often enough.
-/
import SugarNSpice.CpioListFacts
import SugarNSpice.CpioReplaceEnvFacts
import SugarNSpice.FileTable

namespace SugarNSpice.Cpio

open CLang

/-! ## The buffer -/

/-- `memcpy` to an offset. -/
def memcpy (b : List Byte) (off : Nat) (src : List Byte) : Outcome (List Byte) :=
  if off + src.length ≤ b.length then .ok (b.take off ++ src ++ b.drop (off + src.length)) else .error .bounds

/-- `dname`, `dname_len` and `nlinks`. -/
structure Names where
  dname : List Byte
  dnameLen : Nat
  nlinks : Nat

/-- The body of the loop over the links; the line from `end` on goes with it. -/
def linkTurn (x : List Byte × Names) : Outcome (Turn (List Byte × Names) Names) :=
  match scanStr x.1 with
  | none => .ok (.done x.2)
  | some (name, s) => do
    let dname ← memcpy x.2.dname x.2.dnameLen (name ++ [0])
    let names : Names := ⟨dname, x.2.dnameLen + (name.length + 1), x.2.nlinks + 1⟩
    if startsGraph (scanSpace s) then .ok (.next (scanSpace s, names)) else .ok (.done names)

/-- The names for `cpio_mkfile`, where the line goes on with `s` behind the
group; none if `malloc` fails. `nameBuf` is the array `name`. -/
def mkfileNames (alloc : Alloc Byte) (line nameBuf name s : List Byte) : Outcome (Option Names) :=
  if startsGraph s then
    match alloc.malloc line.length with
    | none => .ok none
    | some dname => do
      let dname ← memcpy dname 0 (name ++ [0])
      some <$> loop linkTurn (s.length + 1) (s, ⟨dname, name.length + 1, 1⟩)
  else .ok (some ⟨nameBuf, 0, 1⟩)

/-- The names `cpio_mkfile` comes to, from a position on. -/
def walkNames (buf : List Byte) : (nlinks pos : Nat) → Outcome (List (List Byte))
  | 0, _ => .ok []
  | n + 1, pos => do
    let c ← load buf pos
    let pos := if c = 47 then pos + 1 else pos
    let name ← cstr (buf.drop pos)
    let names ← walkNames buf n (pos + (name.length + 1))
    .ok (name :: names)

/-! ## The walk -/

/-- Names with their NULs. -/
def packed (names : List (List Byte)) : List Byte := names.flatMap (· ++ [0])

theorem walk_step {buf name rest : List Byte} {pos : Nat} (h0 : 0 ∉ name) (hbuf : buf.drop pos = name ++ 0 :: rest) :
    ∃ c, load buf pos = .ok c ∧ cstr (buf.drop (if c = 47 then pos + 1 else pos)) = .ok (skipSlash name) ∧
      (if c = 47 then pos + 1 else pos) + ((skipSlash name).length + 1) = pos + (name.length + 1) := by
  have hload : ∀ c, (name ++ 0 :: rest).head? = some c → load buf pos = .ok c := by
    intro c hc
    rw [load_ok_iff, ← List.head?_drop, hbuf, hc]
  cases name with
  | nil =>
    have hzero : ¬ (0 : Byte) = 47 := by decide
    refine ⟨0, hload 0 rfl, ?_, by rw [if_neg hzero]; rfl⟩
    rw [if_neg hzero, hbuf]
    exact cstr_append h0
  | cons c cs =>
    refine ⟨c, hload c rfl, ?_⟩
    by_cases hc : c = 47
    · have hskip : skipSlash (c :: cs) = cs := if_pos hc
      have htail : buf.drop (pos + 1) = cs ++ 0 :: rest := by
        rw [← List.drop_drop, hbuf]
        rfl
      rw [if_pos hc, htail, hskip, cstr_append fun hmem => h0 (.tail _ hmem), List.length_cons]
      exact ⟨rfl, by omega⟩
    · have hskip : skipSlash (c :: cs) = c :: cs := if_neg hc
      rw [if_neg hc, hbuf, hskip, cstr_append h0]
      exact ⟨rfl, rfl⟩

/-- **The walk** through packed names finds them, without their slashes. -/
theorem walkNames_packed {names : List (List Byte)} (h : ∀ name ∈ names, 0 ∉ name) {buf rest : List Byte} {pos : Nat}
    (hbuf : buf.drop pos = packed names ++ rest) : walkNames buf names.length pos = .ok (names.map skipSlash) := by
  induction names generalizing pos with
  | nil => rfl
  | cons name names ih =>
    have hdrop : buf.drop pos = name ++ 0 :: (packed names ++ rest) := by simpa [packed] using hbuf
    obtain ⟨c, hload, hname, hend⟩ := walk_step (h name (.head _)) hdrop
    have hnext : buf.drop (pos + (name.length + 1)) = packed names ++ rest := by
      have hsplit : name ++ 0 :: (packed names ++ rest) = (name ++ [0]) ++ (packed names ++ rest) := by simp
      rw [← List.drop_drop, hdrop, hsplit, List.drop_left' (by simp)]
    simp only [List.length_cons, walkNames, hload, ok_bind, hname, hend, ih (fun x hx => h x (.tail _ hx)) hnext,
      List.map_cons]

/-! ## Room -/

theorem memcpy_eq {b src : List Byte} {off : Nat} (h : off + src.length ≤ b.length) :
    memcpy b off src = .ok (b.take off ++ src ++ b.drop (off + src.length)) := if_pos h

/-- What the buffer has to hold for the rest of the line: one byte for each,
one for the last NUL, and one for each cut. -/
def room (s : List Byte) : Nat := s.length + 1 + s.length / pathMax

theorem scanSpace_length_le (s : List Byte) : (scanSpace s).length ≤ s.length := List.length_dropWhile_le _ _

theorem scanSpace_of_startsGraph {s : List Byte} (h : startsGraph s = true) : scanSpace s = s := by
  cases s with
  | nil => rfl
  | cons c s =>
    have hc : isSpace c = false := by
      simp only [startsGraph, List.head?_cons, Option.map_some, Option.getD_some, isGraph, Bool.and_eq_true,
        decide_eq_true_eq] at h
      simp only [isSpace, Bool.or_eq_false_iff, decide_eq_false_iff_not, Bool.and_eq_false_imp, decide_eq_true_eq]
      refine ⟨?_, fun _ => by omega⟩
      rintro rfl
      exact absurd h.1 (by decide)
    simp [scanSpace, hc]

theorem scanStr_some {s name s' : List Byte} (h : scanStr s = some (name, s')) :
    name ≠ [] ∧ name = ((scanSpace s).takeWhile (!isSpace ·)).take pathMax ∧ s' = (scanSpace s).drop name.length := by
  simp only [scanStr, Option.ite_none_left_eq_some, Option.some.injEq, Prod.mk.injEq] at h
  obtain ⟨hne, rfl, rfl⟩ := h
  exact ⟨hne, rfl, rfl⟩

theorem scanStr_append {s name s' : List Byte} (h : scanStr s = some (name, s')) : scanSpace s = name ++ s' := by
  obtain ⟨-, hname, rfl⟩ := scanStr_some h
  have hprefix : name <+: scanSpace s := hname ▸ (List.take_prefix pathMax _).trans (List.takeWhile_prefix _)
  obtain ⟨t, ht⟩ := hprefix
  rw [← ht, List.drop_left]

/-- Behind a word that was not cut comes white space, or nothing. -/
theorem scanStr_rest {s name s' : List Byte} (h : scanStr s = some (name, s')) (hshort : name.length < pathMax) :
    ∀ c, s'.head? = some c → isSpace c = true := by
  obtain ⟨-, hname, rfl⟩ := scanStr_some h
  have hwhole : name = (scanSpace s).takeWhile (!isSpace ·) := by
    rw [hname, List.length_take] at hshort
    rw [hname, List.take_of_length_le (by omega)]
  have hdrop : (scanSpace s).drop name.length = (scanSpace s).dropWhile (!isSpace ·) := by
    have hsplit : name ++ (scanSpace s).dropWhile (!isSpace ·) = scanSpace s := by
      rw [hwhole, List.takeWhile_append_dropWhile]
    have hleft : (name ++ (scanSpace s).dropWhile (!isSpace ·)).drop name.length = _ := List.drop_left
    rwa [hsplit] at hleft
  intro c hc
  have hhead := List.head?_dropWhile_not (!isSpace ·) (scanSpace s)
  rw [← hdrop, hc] at hhead
  simpa using hhead

theorem scanStr_room {s name s' : List Byte} (hgraph : startsGraph s = true) (h : scanStr s = some (name, s'))
    (hnext : startsGraph (scanSpace s') = true) : name.length + 1 + room (scanSpace s') ≤ room s := by
  have hsplit := congrArg List.length (scanStr_append h)
  rw [scanSpace_of_startsGraph hgraph, List.length_append] at hsplit
  have hle := scanSpace_length_le s'
  unfold room pathMax
  by_cases hshort : name.length < pathMax
  · have hlt : (scanSpace s').length < s'.length := by
      cases hs : s' with
      | nil =>
        rw [hs] at hnext
        cases hnext
      | cons c t =>
        have hc := scanStr_rest h hshort c (by rw [hs]; rfl)
        have ht := scanSpace_length_le t
        have hskip : scanSpace (c :: t) = scanSpace t := by simp [scanSpace, hc]
        rw [hskip, List.length_cons]
        omega
    omega
  · unfold pathMax at hshort
    omega

/-! ## The links -/

/-- The buffer after some names. -/
structure Filling (x : Names) (names : List (List Byte)) (cap : Nat) : Prop where
  length : x.dname.length = cap
  dnameLen : x.dnameLen = (packed names).length
  nlinks : x.nlinks = names.length
  content : x.dname.take x.dnameLen = packed names

theorem packed_concat (names : List (List Byte)) (name : List Byte) :
    packed (names ++ [name]) = packed names ++ (name ++ [0]) := by simp [packed]

theorem memcpy_filling {x : Names} {names : List (List Byte)} {cap : Nat} (h : Filling x names cap) (name : List Byte)
    (hroom : x.dnameLen + (name.length + 1) ≤ cap) :
    ∃ dname, memcpy x.dname x.dnameLen (name ++ [0]) = .ok dname ∧
      Filling ⟨dname, x.dnameLen + (name.length + 1), x.nlinks + 1⟩ (names ++ [name]) cap := by
  have hlen : (name ++ [0]).length = name.length + 1 := by simp
  have hfits : x.dnameLen + (name ++ [0]).length ≤ x.dname.length := by rw [hlen, h.length]; exact hroom
  refine ⟨_, memcpy_eq hfits, ?_, ?_, ?_, ?_⟩
  · have := h.length
    simp only [List.length_append, List.length_take, List.length_drop, hlen]
    omega
  · simp only [packed_concat, List.length_append, h.dnameLen, List.length_singleton]
  · simp only [List.length_append, h.nlinks, List.length_singleton]
  · have htake : (x.dname.take x.dnameLen ++ (name ++ [0])).length = x.dnameLen + (name.length + 1) := by
      rw [List.length_append, hlen, List.length_take, Nat.min_eq_left (by omega)]
    rw [List.take_left' htake, h.content, packed_concat]

/-- **The loop over the links** has room for all of them. -/
theorem loop_linkTurn {fuel : Nat} : ∀ {s : List Byte} {x : Names} {names : List (List Byte)} {cap turns : Nat},
    startsGraph s = true → s.length ≤ fuel → s.length < turns → Filling x names cap → x.dnameLen + room s ≤ cap →
      ∃ x', loop linkTurn turns (s, x) = .ok x' ∧ Filling x' (names ++ scanLinks fuel s) cap := by
  induction fuel with
  | zero =>
    intro s x names cap turns hgraph hlen
    rw [List.length_eq_zero_iff.1 (Nat.le_zero.1 hlen)] at hgraph
    cases hgraph
  | succ fuel ih =>
    intro s x names cap turns hgraph hlen hturns hx hroom
    obtain ⟨n, rfl⟩ : ∃ n, turns = n + 1 := ⟨turns - 1, by omega⟩
    cases hscan : scanStr s with
    | none =>
      have hturn : linkTurn (s, x) = .ok (.done x) := by simp only [linkTurn, hscan]
      have hnone : scanLinks (fuel + 1) s = [] := by simp only [scanLinks, hscan, ite_self]
      refine ⟨x, loop_done hturn n, ?_⟩
      rw [hnone, List.append_nil]
      exact hx
    | some r =>
      obtain ⟨name, s'⟩ := r
      have hlength := congrArg List.length (scanStr_append hscan)
      rw [scanSpace_of_startsGraph hgraph, List.length_append] at hlength
      have hpos := List.length_pos_iff.2 (scanStr_some hscan).1
      have hle := scanSpace_length_le s'
      have hfit : x.dnameLen + (name.length + 1) ≤ cap := by
        unfold room pathMax at hroom
        omega
      obtain ⟨dname, hcopy, hx'⟩ := memcpy_filling hx name hfit
      have hall : names ++ scanLinks (fuel + 1) s = (names ++ [name]) ++ scanLinks fuel (scanSpace s') := by
        have hcons : scanLinks (fuel + 1) s = name :: scanLinks fuel (scanSpace s') := by
          rw [scanLinks, hscan]
          exact if_pos hgraph
        rw [hcons, List.append_cons]
      rw [hall]
      by_cases hnext : startsGraph (scanSpace s') = true
      · have hturn : linkTurn (s, x) =
            .ok (.next (scanSpace s', ⟨dname, x.dnameLen + (name.length + 1), x.nlinks + 1⟩)) := by
          simp only [linkTurn, hscan, hcopy, ok_bind, if_pos hnext]
        have hspare := scanStr_room hgraph hscan hnext
        rw [loop_next hturn]
        exact ih hnext (by omega) (by omega) hx' (by simp only; omega)
      · have hturn : linkTurn (s, x) = .ok (.done ⟨dname, x.dnameLen + (name.length + 1), x.nlinks + 1⟩) := by
          simp only [linkTurn, hscan, hcopy, ok_bind, if_neg hnext]
        have hnone : scanLinks fuel (scanSpace s') = [] := by
          cases fuel with
          | zero => rfl
          | succ fuel =>
            rw [scanLinks]
            exact if_neg hnext
        rw [loop_done hturn, hnone, List.append_nil]
        exact ⟨_, rfl, hx'⟩

/-! ## The line -/

theorem scanSpace_suffix (s : List Byte) : scanSpace s <:+ s := List.dropWhile_suffix _

theorem scanSign_suffix (s : List Byte) : (scanSign s).2 <:+ s := by
  cases s with
  | nil => exact List.suffix_refl _
  | cons c s =>
    rw [scanSign]
    split
    · exact List.suffix_cons c s
    · split
      · exact List.suffix_cons c s
      · exact List.suffix_refl _

/-- `s'` is an end of `s`, at least `k` bytes on. -/
def Behind (k : Nat) (s s' : List Byte) : Prop := s' <:+ s ∧ s'.length + k ≤ s.length

theorem Behind.trans {j k : Nat} {s s' s'' : List Byte} (h : Behind j s s') (h' : Behind k s' s'') :
    Behind (j + k) s s'' :=
  ⟨h'.1.trans h.1, by have := h.2; have := h'.2; omega⟩

theorem scanDigits_behind {base : Nat} {s s' : List Byte} {neg : Bool} {n : Nat}
    (h : scanDigits base s = some (neg, n, s')) : Behind 1 s s' := by
  simp only [scanDigits, Option.ite_none_left_eq_some, Option.some.injEq, Prod.mk.injEq] at h
  obtain ⟨hne, -, -, rfl⟩ := h
  have hsuffix : (scanSign (scanSpace s)).2 <:+ s := (scanSign_suffix _).trans (scanSpace_suffix s)
  have hprefix := (List.takeWhile_prefix (l := (scanSign (scanSpace s)).2) fun c => (digit base c).isSome).length_le
  have hpos := List.length_pos_iff.2 hne
  have hle := hsuffix.length_le
  refine ⟨(List.drop_suffix _ _).trans hsuffix, ?_⟩
  rw [List.length_drop]
  omega

theorem scanUnsigned_behind {base : Nat} {s s' : List Byte} {v : BitVec 32} (h : scanUnsigned base s = some (v, s')) :
    Behind 1 s s' := by
  simp only [scanUnsigned, Option.bind_eq_bind, Option.bind_eq_some_iff] at h
  obtain ⟨⟨neg, n, s₁⟩, hdigits, hv⟩ := h
  obtain ⟨-, rfl⟩ := Prod.mk.inj (Option.some.inj hv)
  exact scanDigits_behind hdigits

theorem scanInt_behind {s s' : List Byte} {v : BitVec 32} (h : scanInt s = some (v, s')) : Behind 1 s s' := by
  simp only [scanInt, Option.bind_eq_bind, Option.bind_eq_some_iff] at h
  obtain ⟨⟨neg, n, s₁⟩, hdigits, hv⟩ := h
  obtain ⟨-, rfl⟩ := Prod.mk.inj (Option.some.inj hv)
  exact scanDigits_behind hdigits

theorem scanOwner_behind {s s' : List Byte} {mode uid gid : BitVec 32} (h : scanOwner s = some (mode, uid, gid, s')) :
    Behind 3 s s' := by
  simp only [scanOwner, Option.bind_eq_bind, Option.bind_eq_some_iff, Option.some.injEq, Prod.mk.injEq] at h
  obtain ⟨⟨m, s₁⟩, hm, ⟨u, s₂⟩, hu, ⟨g, s₃⟩, hg, -, -, -, rfl⟩ := h
  exact ((scanUnsigned_behind hm).trans (scanInt_behind hu)).trans (scanInt_behind hg)

theorem scanStr_behind {s name s' : List Byte} (h : scanStr s = some (name, s')) :
    Behind name.length s s' ∧ ∀ c ∈ name, c ∈ s := by
  have hsplit := scanStr_append h
  have hsuffix := scanSpace_suffix s
  have hle := hsuffix.length_le
  rw [hsplit] at hsuffix hle
  rw [List.length_append] at hle
  exact ⟨⟨(List.suffix_append name s').trans hsuffix, by omega⟩,
    fun c hc => hsuffix.subset (List.mem_append_left _ hc)⟩

theorem mem_scanLinks {fuel : Nat} {s name : List Byte} (h : name ∈ scanLinks fuel s) : ∀ c ∈ name, c ∈ s := by
  induction fuel generalizing s with
  | zero => cases h
  | succ fuel ih =>
    rw [scanLinks] at h
    split at h
    · cases hscan : scanStr s with
      | none =>
        rw [hscan] at h
        cases h
      | some r =>
        obtain ⟨first, s'⟩ := r
        rw [hscan] at h
        obtain ⟨hrest, hmem⟩ := scanStr_behind hscan
        rcases List.mem_cons.1 h with rfl | h
        · exact hmem
        · exact fun c hc => hrest.1.subset ((scanSpace_suffix s').subset (ih h c hc))
    · cases h

/-- **The names of a file**: for every line that `fgets` can have read, the
buffer has room for the file's names, and the walk through it comes to all of
them, in their order and each without a leading slash. -/
theorem mkfileNames_walked {alloc : Alloc Byte} (halloc : alloc.ok = true) {line nameBuf name location s₁ s₂ s : List Byte}
    {mode uid gid : BitVec 32} (hline : line.length < lineSize) (h0 : 0 ∉ line)
    (hname : scanStr line = some (name, s₁)) (hlocation : scanStr s₁ = some (location, s₂))
    (howner : scanOwner s₂ = some (mode, uid, gid, s)) (hbuf : Holds nameBuf name) :
    ∃ x, mkfileNames alloc line nameBuf name (scanSpace s) = .ok (some x) ∧
      x.nlinks = (name :: scanLinks s.length (scanSpace s)).length ∧
      walkNames x.dname x.nlinks 0 = .ok ((name :: scanLinks s.length (scanSpace s)).map skipSlash) := by
  obtain ⟨hbehind₁, hmem⟩ := scanStr_behind hname
  obtain ⟨hbehind₂, -⟩ := scanStr_behind hlocation
  have hlocationPos := List.length_pos_iff.2 (scanStr_some hlocation).1
  have hbehind := (hbehind₁.trans hbehind₂).trans (scanOwner_behind howner)
  have hnulFree : ∀ x ∈ name :: scanLinks s.length (scanSpace s), 0 ∉ x := by
    intro x hx hzero
    rcases List.mem_cons.1 hx with rfl | hx
    · exact h0 (hmem 0 hzero)
    · exact h0 (hbehind.1.subset ((scanSpace_suffix s).subset (mem_scanLinks hx 0 hzero)))
  by_cases hgraph : startsGraph (scanSpace s) = true
  · have hle := scanSpace_length_le s
    have hlen := hbehind.2
    let first : Names := ⟨(List.range line.length).map alloc.junk, 0, 0⟩
    have hfirst : Filling first [] line.length := ⟨by simp [first], rfl, rfl, rfl⟩
    obtain ⟨dname, hcopy, hfilled⟩ := memcpy_filling hfirst name (by simp only [first]; omega)
    have hroom : 0 + (name.length + 1) + room (scanSpace s) ≤ line.length := by
      unfold room pathMax
      unfold lineSize pathMax at hline
      omega
    obtain ⟨x, hloop, hx⟩ := loop_linkTurn hgraph hle (Nat.lt_succ_self _) hfilled hroom
    refine ⟨x, ?_, hx.nlinks, ?_⟩
    · simp only [mkfileNames, if_pos hgraph, Alloc.malloc_ok halloc]
      simp only [first, Nat.zero_add] at hcopy hloop
      simp only [hcopy, ok_bind, hloop]
      rfl
    · have hdrop : x.dname.drop 0 = packed (name :: scanLinks s.length (scanSpace s)) ++ x.dname.drop x.dnameLen := by
        have hsplit := List.take_append_drop x.dnameLen x.dname
        rw [hx.content] at hsplit
        exact hsplit.symm
      rw [hx.nlinks]
      exact walkNames_packed hnulFree hdrop
  · have hnone : scanLinks s.length (scanSpace s) = [] := by
      cases s with
      | nil => rfl
      | cons c s =>
        rw [List.length_cons, scanLinks]
        exact if_neg hgraph
    obtain ⟨rest, hlayout⟩ := hbuf.layout
    rw [hnone] at hnulFree ⊢
    refine ⟨⟨nameBuf, 0, 1⟩, if_neg hgraph, rfl, ?_⟩
    have hdrop : nameBuf.drop 0 = packed [name] ++ rest := by
      rw [List.drop_zero, hlayout]
      simp [packed]
    exact walkNames_packed hnulFree hdrop

/-- `/a f 0 0 0 b`. -/
theorem mkfileNames_walked_two :
    ∃ x, mkfileNames ⟨true, fun _ => 0⟩ (ascii ['/', 'a', ' ', 'f', ' ', '0', ' ', '0', ' ', '0', ' ', 'b'])
        (buffer [47, 97]) [47, 97] (scanSpace [32, 98]) = .ok (some x) ∧
      x.nlinks = ([47, 97] :: scanLinks 2 (scanSpace [32, 98])).length ∧
      walkNames x.dname x.nlinks 0 = .ok [[97], [98]] := by
  have hname : scanStr (ascii ['/', 'a', ' ', 'f', ' ', '0', ' ', '0', ' ', '0', ' ', 'b']) =
      some ([47, 97], ascii [' ', 'f', ' ', '0', ' ', '0', ' ', '0', ' ', 'b']) := rfl
  have hlocation : scanStr (ascii [' ', 'f', ' ', '0', ' ', '0', ' ', '0', ' ', 'b']) =
      some ([102], ascii [' ', '0', ' ', '0', ' ', '0', ' ', 'b']) := rfl
  have howner : scanOwner (ascii [' ', '0', ' ', '0', ' ', '0', ' ', 'b']) = some (0, 0, 0, [32, 98]) := rfl
  exact mkfileNames_walked rfl (by decide) (by decide) hname hlocation howner (holds_buffer (by decide) (by decide))

end SugarNSpice.Cpio
