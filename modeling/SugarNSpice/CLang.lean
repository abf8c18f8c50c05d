/-
The part of C that sequential code runs on: `int` and `char` values, buffers
with bounds, and what the allocator hands out.

A computation either returns or stops at a fault. A fault is anything C
leaves undefined or to the implementation (an access outside its buffer, a
null pointer, `int` overflow, division by zero, a value narrowed to a `char`
it does not fit), or a failed `assert`; so a function proved to return `ok`
relies on none of these. `fuel` is the model's own: a loop that was not given
enough turns (`loop`, in the loops module) or a recursion cut off, which a
proof of `ok` rules out as well.
-/
import Mathlib.Data.List.Basic
import Mathlib.Data.List.TakeDrop
import Mathlib.Tactic.Linarith

namespace CLang

/-- Where a C computation stops without a defined result. -/
inductive Fault where
  | bounds
  | null
  | overflow
  | divZero
  | narrow
  | abort
  | fuel
  deriving DecidableEq, Repr

/-- What a C computation comes to. -/
abbrev Outcome (α : Type) := Except Fault α

instance {α : Type} [DecidableEq α] : DecidableEq (Outcome α)
  | .ok a, .ok b => if h : a = b then isTrue (h ▸ rfl) else isFalse fun he => h (by cases he; rfl)
  | .error e, .error f => if h : e = f then isTrue (h ▸ rfl) else isFalse fun he => h (by cases he; rfl)
  | .ok _, .error _ | .error _, .ok _ => isFalse nofun

theorem bind_ok_iff {α β : Type} {x : Outcome α} {f : α → Outcome β} {b : β} :
    (x >>= f) = .ok b ↔ ∃ a, x = .ok a ∧ f a = .ok b := by
  cases x with
  | error e => simp [bind, Except.bind]
  | ok a => simp [bind, Except.bind]

@[simp] theorem ok_bind {α β : Type} (a : α) (f : α → Outcome β) : ((Except.ok a : Outcome α) >>= f) = f a := by
  simp only [bind, Except.bind]

@[simp] theorem error_bind {α β : Type} (e : Fault) (f : α → Outcome β) :
    ((Except.error e : Outcome α) >>= f) = .error e := by simp only [bind, Except.bind]

@[simp] theorem pure_eq_ok {α : Type} (a : α) : (pure a : Outcome α) = .ok a := rfl

/-! ## Integers -/

def intMax : Int := 2147483647

/-- The values of an `int`. -/
def IsInt (x : Int) : Prop := -intMax - 1 ≤ x ∧ x ≤ intMax

instance (x : Int) : Decidable (IsInt x) := inferInstanceAs (Decidable (_ ∧ _))

theorem toInt_ofInt_of_isInt {x : Int} (h : IsInt x) : (BitVec.ofInt 32 x).toInt = x := by
  obtain ⟨h1, h2⟩ := h
  unfold intMax at h1 h2
  exact BitVec.toInt_ofInt_eq_self (by decide) (by omega) (by omega)

theorem isInt_toInt (v : BitVec 32) : IsInt v.toInt := by
  have h1 : -(2 ^ 31 : Int) ≤ v.toInt := BitVec.le_toInt v
  have h2 : v.toInt < 2 ^ 31 := BitVec.toInt_lt
  unfold IsInt intMax
  omega

theorem toInt_ofNat_of_lt {k : Nat} (hk : k < 2 ^ 31) : (BitVec.ofNat 32 k).toInt = k := by
  rw [BitVec.toInt_ofNat', Int.bmod_eq_of_le (by omega) (by omega)]

theorem toInt_add_one {v : BitVec 32} (h : v.toInt < intMax) : (v + 1).toInt = v.toInt + 1 := by
  have hv := isInt_toInt v
  have hsum : v + 1 = BitVec.ofInt 32 (v.toInt + 1) := by
    rw [BitVec.ofInt_add, BitVec.ofInt_toInt]
    rfl
  rw [hsum, toInt_ofInt_of_isInt ⟨by have := hv.1; omega, by omega⟩]

theorem toInt_sub_one {v : BitVec 32} (h : -intMax - 1 < v.toInt) : (v - 1).toInt = v.toInt - 1 := by
  have hv := isInt_toInt v
  have hdiff : v - 1 = BitVec.ofInt 32 (v.toInt + -1) := by
    rw [BitVec.ofInt_add, BitVec.ofInt_toInt, BitVec.sub_eq_add_neg]
    rfl
  rw [hdiff, toInt_ofInt_of_isInt ⟨by omega, by have := hv.2; omega⟩]
  omega

/-- The result of signed `int` arithmetic, where it fits. -/
def int (x : Int) : Outcome Int := if IsInt x then .ok x else .error .overflow

theorem int_ok {x : Int} (h : IsInt x) : int x = .ok x := if_pos h

/-- The same for an `int` the code keeps non-negative. -/
def nat (n : Nat) : Outcome Nat := if (n : Int) ≤ intMax then .ok n else .error .overflow

theorem nat_ok {n : Nat} (h : (n : Int) ≤ intMax) : nat n = .ok n := if_pos h

theorem nat_ok_of_lt {n : Nat} (h : n < 2 ^ 31) : nat n = .ok n := nat_ok (by unfold intMax; omega)

theorem nat_overflow {n : Nat} (h : ¬ (n : Int) ≤ intMax) : nat n = .error .overflow := if_neg h

/-- `~x`. -/
def bitNot (x : Int) : Int := -x - 1

@[simp] theorem bitNot_bitNot (x : Int) : bitNot (bitNot x) = x := by unfold bitNot; omega

theorem bitNot_neg_iff {x : Int} : bitNot x < 0 ↔ 0 ≤ x := by unfold bitNot; omega

/-- The values of a (signed) `char`. -/
def IsChar (x : Int) : Prop := -128 ≤ x ∧ x ≤ 127

instance (x : Int) : Decidable (IsChar x) := inferInstanceAs (Decidable (_ ∧ _))

/-- A value stored into a `char`. -/
def char (x : Int) : Outcome Int := if IsChar x then .ok x else .error .narrow

theorem char_ok {x : Int} (h : IsChar x) : char x = .ok x := if_pos h

/-- The bytes of a string literal. -/
def ascii (cs : List Char) : List (BitVec 8) := cs.map fun c => BitVec.ofNat 8 c.toNat

/-- `x / y`. -/
def div (x y : Int) : Outcome Int := if y = 0 then .error .divZero else .ok (x.tdiv y)

/-- An `int` used as an index. -/
def index (x : Int) : Outcome Nat := if 0 ≤ x then .ok x.toNat else .error .bounds

@[simp] theorem index_natCast (n : Nat) : index n = .ok n := if_pos (Int.natCast_nonneg n)

/-- A pointer about to be followed; `none` is one to no live block. -/
def deref {α : Type} : Option α → Outcome α
  | some a => .ok a
  | none => .error .null

/-! ## Buffers -/

section Buffers

variable {α : Type}

/-- `b[i]`. -/
def load (b : List α) (i : Nat) : Outcome α :=
  match b[i]? with
  | some x => .ok x
  | none => .error .bounds

/-- `b[i] = x`. -/
def store (b : List α) (i : Nat) (x : α) : Outcome (List α) :=
  if i < b.length then .ok (b.set i x) else .error .bounds

theorem load_ok {b : List α} {i : Nat} (h : i < b.length) : load b i = .ok b[i] := by
  simp [load, List.getElem?_eq_getElem h]

theorem load_ok_iff {b : List α} {i : Nat} {x : α} : load b i = .ok x ↔ b[i]? = some x := by
  unfold load
  cases b[i]? <;> simp

theorem store_ok {b : List α} {i : Nat} (h : i < b.length) (x : α) : store b i x = .ok (b.set i x) := if_pos h

/-- `memmove(&b[dst], &b[src], n)`, `n` counted in cells: as if through a
copy, so the two ranges may overlap. -/
def memmove (b : List α) (dst src n : Nat) : Outcome (List α) :=
  if dst + n ≤ b.length ∧ src + n ≤ b.length then
    .ok (b.take dst ++ (b.drop src).take n ++ b.drop (dst + n))
  else .error .bounds

theorem memmove_ok {b : List α} {dst src n : Nat} (hd : dst + n ≤ b.length) (hs : src + n ≤ b.length) :
    memmove b dst src n = .ok (b.take dst ++ (b.drop src).take n ++ b.drop (dst + n)) := if_pos ⟨hd, hs⟩

/-- Opening a gap at `p` in the first `n` cells and filling it: what a
`memmove` up by one and a store leave there. -/
theorem memmove_store {b : List α} {p n : Nat} (hp : p ≤ n) (hn : n < b.length) (x : α) :
    ∃ b', (memmove b (p + 1) p (n - p) >>= fun c => store c p x) = .ok b' ∧ b'.length = b.length ∧
      b'.take (n + 1) = b.take p ++ x :: (b.take n).drop p := by
  rw [memmove_ok (by omega) (by omega), ok_bind, store_ok
    (by simp only [List.length_append, List.length_take, List.length_drop]; omega)]
  refine ⟨_, rfl, ?_, ?_⟩
  · simp only [List.length_set, List.length_append, List.length_take, List.length_drop]
    omega
  · apply List.ext_getElem?
    intro i
    simp only [List.getElem?_take, List.getElem?_set, List.getElem?_append, List.getElem?_drop,
      List.length_append, List.length_take, List.length_drop, List.getElem?_cons]
    grind

/-- What one call of the allocator for cells of type `α` comes to: whether
it succeeds, and what fresh cells hold. -/
structure Alloc (α : Type) where
  ok : Bool
  junk : Nat → α

/-- `malloc` of `n` cells. -/
def Alloc.malloc (a : Alloc α) (n : Nat) : Option (List α) :=
  if a.ok then some ((List.range n).map a.junk) else none

/-- `realloc` of `b` to `n` cells: the old cells keep their contents. -/
def Alloc.realloc (a : Alloc α) (b : List α) (n : Nat) : Option (List α) :=
  if a.ok then some (b.take n ++ (List.range (n - b.length)).map a.junk) else none

theorem Alloc.malloc_ok {a : Alloc α} (h : a.ok = true) (n : Nat) :
    a.malloc n = some ((List.range n).map a.junk) := if_pos h

theorem Alloc.realloc_ok {a : Alloc α} (h : a.ok = true) (b : List α) (n : Nat) :
    ∃ b', a.realloc b n = some b' ∧ b'.length = n ∧ ∀ k ≤ b.length, k ≤ n → b'.take k = b.take k := by
  refine ⟨_, if_pos h, ?_, fun k hk hn => ?_⟩
  · simp only [List.length_append, List.length_take, List.length_map, List.length_range]
    omega
  · rw [List.take_append_of_le_length (by simp only [List.length_take]; omega), List.take_take,
      Nat.min_eq_left hn]

theorem Alloc.realloc_fail {a : Alloc α} (h : a.ok = false) (b : List α) (n : Nat) : a.realloc b n = none := by
  simp [Alloc.realloc, h]

end Buffers

end CLang
