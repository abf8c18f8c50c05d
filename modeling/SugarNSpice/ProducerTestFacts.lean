/-
What the ring of `producer_test.c` delivers.

The consumer stops at an empty ring, but nothing stops the producer at a full
one. As long as no store comes when `DATA_SZ` values wait to be printed, the
numbers printed are 0, 1, 2 and so on (`printed_in_order`). The invariant is
that the ring holds the last `DATA_SZ` values stored, and that the consumer is
behind the producer's head by no more than that: so a slot about to be read
has the value that is next, and heads that differ are of a ring that is not
empty. A producer that goes around once more loses values (`overrun`).
-/
import SugarNSpice.CLang
import SugarNSpice.ProducerTest

namespace SugarNSpice.ProducerTest

open Processes CLang

variable {tr : Trace} {s : State Thread Shared Pc}

/-! ## The ring -/

theorem dataSz_pos : 0 < dataSz := Nat.succ_pos _

theorem slot_succ (k : Nat) : slot ((slot k : Nat) + 1) = slot (k + 1) := by
  simp [slot]

theorem slot_wraps (k : Nat) : slot (k + dataSz) = slot k := Fin.ext (Nat.add_mod_right k dataSz)

/-- Values less than a ring apart have slots of their own. -/
theorem slot_ne {v w : Nat} (h : v < w) (hw : w < v + dataSz) : slot v ≠ slot w := by
  intro heq
  have hmod : v % dataSz = w % dataSz := congrArg Fin.val heq
  unfold dataSz at hw hmod
  omega

/-- The ring holds the last `DATA_SZ` of the first `k` values. -/
def Window (data : Fin dataSz → BitVec 32) (k : Nat) : Prop :=
  ∀ v < k, k ≤ v + dataSz → data (slot v) = BitVec.ofNat 32 v

/-- A store takes the place of the oldest value only. -/
theorem Window.store {data : Fin dataSz → BitVec 32} {k : Nat} (h : Window data k) :
    Window (Function.update data (slot k) (BitVec.ofNat 32 k)) (k + 1) := by
  intro v hv hlast
  rcases Nat.lt_or_eq_of_le (Nat.le_of_lt_succ hv) with hlt | rfl
  · rw [Function.update_of_ne (slot_ne hlt (by omega))]
    exact h v hlt (by omega)
  · rw [Function.update_self]

/-! ## Traces -/

theorem produced_append (tr tr' : Trace) : produced (tr ++ tr') = produced tr + produced tr' := List.countP_append

theorem printed_append (tr tr' : Trace) : printed (tr ++ tr') = printed tr ++ printed tr' := List.filterMap_append

theorem produced_store (tr : Trace) (p : Thread) :
    produced (tr ++ events p (some .produced)) = produced tr + 1 := produced_append _ _

theorem printed_store (tr : Trace) (p : Thread) : printed (tr ++ events p (some .produced)) = printed tr :=
  (printed_append _ _).trans (List.append_nil _)

theorem produced_print (tr : Trace) (p : Thread) (v : Int) :
    produced (tr ++ events p (some (.printed v))) = produced tr := produced_append _ _

theorem printed_print (tr : Trace) (p : Thread) (v : Int) :
    printed (tr ++ events p (some (.printed v))) = printed tr ++ [v] := printed_append _ _

/-- No store comes when `DATA_SZ` values are waiting to be printed. -/
def Paced (tr : Trace) : Prop :=
  ∀ pre, pre ++ [(.producer, .produced)] <+: tr → produced pre < (printed pre).length + dataSz

theorem Paced.before {tr' : Trace} (h : Paced (tr ++ tr')) : Paced tr :=
  fun pre hpre => h pre (hpre.trans (List.prefix_append _ _))

/-! ## The invariant -/

/-- What a thread has done of a turn: its head is one behind. -/
def Pc.owed : Pc → Nat
  | .advance | .next _ => 1
  | _ => 0

/-- `a` and `d` count the advances of the two heads. -/
structure Chase (tr : Trace) (sh : Shared) (p c : Pc) (a d : Nat) : Prop where
  made : a + p.owed = produced tr
  shown : d + c.owed = (printed tr).length
  counter : sh.dIProducer = BitVec.ofNat 32 (produced tr)
  producerHead : sh.producerHead = slot a
  consumerHead : sh.consumerHead = slot d
  data : Window sh.data (produced tr)
  order : printed tr = (List.range (printed tr).length).map Int.ofNat
  behind : (printed tr).length ≤ a
  waiting : ∀ i, c = .print i → d < a
  room : produced tr ≤ (printed tr).length + dataSz
  place : c ≠ .store ∧ c ≠ .advance

theorem chase_start : Chase [] start.shared .store (.test 0) 0 0 where
  made := rfl
  shown := rfl
  counter := rfl
  producerHead := rfl
  consumerHead := rfl
  data v hv := absurd hv (Nat.not_lt_zero v)
  order := rfl
  behind := Nat.le_refl 0
  waiting _ hi := nomatch hi
  room := Nat.zero_le _
  place := ⟨nofun, nofun⟩

theorem Chase.producer {sh sh' : Shared} {p p' c : Pc} {e : Option Event} {a d : Nat} (h : Chase tr sh p c a d)
    (hpaced : Paced (tr ++ events .producer e)) (hstep : producerThread sh p e sh' p') :
    ∃ a', Chase (tr ++ events .producer e) sh' p' c a' d := by
  cases hstep with
  | store =>
    have ha : a = produced tr := h.made
    have hroom : produced tr < (printed tr).length + dataSz := hpaced tr List.prefix_rfl
    refine ⟨a, ?_, ?_, ?_, h.producerHead, h.consumerHead, ?_, ?_, ?_, h.waiting, ?_, h.place⟩
    · rw [produced_store, ha, Pc.owed]
    · rw [printed_store, h.shown]
    · rw [produced_store, BitVec.ofNat_add, ← h.counter]
      rfl
    · rw [produced_store, h.producerHead, h.counter, ha]
      exact h.data.store
    · rw [printed_store, ← h.order]
    · rw [printed_store]
      exact h.behind
    · rw [produced_store, printed_store]
      exact hroom
  | advance =>
    have ha : a + 1 = produced tr := h.made
    have hhead : slot (sh.producerHead + 1) = slot (a + 1) := by rw [h.producerHead, slot_succ]
    have hbehind := Nat.le_succ_of_le h.behind
    have hwaiting : ∀ i, c = .print i → d < a + 1 := fun i hi => Nat.lt_succ_of_lt (h.waiting i hi)
    rw [append_events_none]
    exact ⟨a + 1, { h with made := ha, producerHead := hhead, behind := hbehind, waiting := hwaiting }⟩

theorem Chase.consumer {sh sh' : Shared} {p c c' : Pc} {e : Option Event} {a d : Nat} (h : Chase tr sh p c a d)
    (hint : produced tr < 2 ^ 31) (hstep : consumerThread sh c e sh' c') :
    ∃ d', Chase (tr ++ events .consumer e) sh' p c' a d' := by
  cases hstep with
  | test _ hheads =>
    have hd : d = (printed tr).length := h.shown
    have hlt : d < a := by
      refine Nat.lt_of_le_of_ne (hd ▸ h.behind) fun heq => hheads ?_
      rw [h.consumerHead, h.producerHead, heq]
    rw [append_events_none]
    exact ⟨d, { h with shown := h.shown, waiting := fun _ _ => hlt, place := ⟨nofun, nofun⟩ }⟩
  | testFails _ =>
    rw [append_events_none]
    exact ⟨d, { h with shown := h.shown, waiting := nofun, place := ⟨nofun, nofun⟩ }⟩
  | @print i =>
    have hd : d = (printed tr).length := h.shown
    have hlt : d < a := h.waiting i rfl
    have hmade : a ≤ produced tr := h.made ▸ Nat.le_add_right _ _
    have hvalue : (sh.data sh.consumerHead).toInt = d := by
      rw [h.consumerHead, h.data d (Nat.lt_of_lt_of_le hlt hmade) (hd ▸ h.room), toInt_ofNat_of_lt (by omega)]
    rw [hvalue]
    refine ⟨d, ?_, ?_, ?_, h.producerHead, h.consumerHead, ?_, ?_, ?_, nofun, ?_, nofun, nofun⟩
    · rw [produced_print, h.made]
    · rw [printed_print, List.length_append, ← hd, Pc.owed, List.length_singleton]
    · rw [produced_print]
      exact h.counter
    · rw [produced_print]
      exact h.data
    · rw [printed_print, List.length_append, List.length_singleton, List.range_succ, List.map_append, ← h.order, ← hd]
      rfl
    · rw [printed_print, List.length_append, ← hd]
      exact hlt
    · rw [produced_print, printed_print, List.length_append]
      have := h.room
      omega
  | @next i =>
    have hd : d + 1 = (printed tr).length := h.shown
    have hhead : slot (sh.consumerHead + 1) = slot (d + 1) := by rw [h.consumerHead, slot_succ]
    rw [append_events_none]
    exact ⟨d + 1, { h with shown := hd, consumerHead := hhead, waiting := nofun, place := ⟨nofun, nofun⟩ }⟩
  | sleep =>
    rw [append_events_none]
    exact ⟨d, { h with shown := h.shown, waiting := nofun, place := ⟨nofun, nofun⟩ }⟩

/-- **The chase** goes on for as long as the producer is paced. -/
theorem chase_of_run (h : Run producerTest start tr s) (hint : produced tr < 2 ^ 31) (hpaced : Paced tr) :
    ∃ a d, Chase tr s.shared (s.loc .producer) (s.loc .consumer) a d := by
  refine Run.invariant (I := fun tr s => produced tr < 2 ^ 31 → Paced tr →
    ∃ a d, Chase tr s.shared (s.loc .producer) (s.loc .consumer) a d) ?_ ?_ h hint hpaced
  · exact fun _ _ => ⟨0, 0, chase_start⟩
  · intro tr s p e sh l _ ih hstep hint hpaced
    have hmade : produced tr < 2 ^ 31 := by
      rw [produced_append] at hint
      exact Nat.lt_of_add_right_lt hint
    have hother : Thread.producer ≠ .consumer := by decide
    obtain ⟨a, d, hchase⟩ := ih hmade hpaced.before
    cases hstep with
    | producer hstep =>
      obtain ⟨a', hnext⟩ := hchase.producer hpaced hstep
      refine ⟨a', d, ?_⟩
      rwa [State.move_shared, State.move_self, State.move_other hother.symm]
    | consumer hstep =>
      obtain ⟨d', hnext⟩ := hchase.consumer hmade hstep
      refine ⟨a, d', ?_⟩
      rwa [State.move_shared, State.move_self, State.move_other hother]

/-- The numbers printed are 0, 1, 2 and so on, and no more than the values
stored. -/
def InOrder (tr : Trace) : Prop := ∃ k ≤ produced tr, printed tr = (List.range k).map Int.ofNat

/-- **Delivery in order**: in every run in which no store comes to a full
ring. -/
theorem printed_in_order (h : Run producerTest start tr s) (hint : produced tr < 2 ^ 31) (hpaced : Paced tr) :
    InOrder tr := by
  obtain ⟨a, d, hchase⟩ := chase_of_run h hint hpaced
  refine ⟨(printed tr).length, ?_, hchase.order⟩
  calc (printed tr).length
      ≤ a := hchase.behind
    _ ≤ produced tr := hchase.made ▸ Nat.le_add_right _ _

theorem produced_le_length (tr : Trace) : produced tr ≤ tr.length := List.countP_le_length

theorem paced_of_length (h : tr.length ≤ dataSz) : Paced tr := by
  intro pre hpre
  have hlen := hpre.length_le
  rw [List.length_append, List.length_singleton] at hlen
  have hle := produced_le_length pre
  omega

/-- After one turn of the producer. -/
def Shared.turn (sh : Shared) : Shared :=
  ⟨Function.update sh.data sh.producerHead sh.dIProducer, slot (sh.producerHead + 1), sh.dIProducer + 1, sh.consumerHead⟩

theorem Shared.turn_data (sh : Shared) : sh.turn.data sh.producerHead = sh.dIProducer := Function.update_self _ _ _

theorem turn_path (sh : Shared) :
    Path producerTest .producer [(.producer, .produced)] (sh, .store) (sh.turn, .store) :=
  Path.event (producerTest.producer .store) (Path.quiet (producerTest.producer .advance) .refl)

/-- After one turn of the consumer. -/
def Shared.taken (sh : Shared) : Shared := { sh with consumerHead := slot (sh.consumerHead + 1) }

theorem test_path {sh : Shared} {i : Nat} (hi : i < consumeRate) (hheads : sh.consumerHead ≠ sh.producerHead) :
    Path producerTest .consumer [(.consumer, .printed (sh.data sh.consumerHead).toInt)] (sh, .test i)
      (sh.taken, .test (i + 1)) :=
  Path.quiet (producerTest.consumer (.test hi hheads))
    (Path.event (producerTest.consumer .print) (Path.quiet (producerTest.consumer .next) .refl))

/-- Two turns of the producer, a value printed, a third turn, and the other two
values printed. -/
theorem printed_in_order_three :
    ∃ tr s, Run producerTest start tr s ∧ produced tr = 3 ∧ printed tr = [0, 1, 2] ∧ InOrder tr := by
  have hstart : Run producerTest start [] start := .nil
  have hone := hstart.path (turn_path start.shared)
  have htwo := hone.path (p := .producer) (turn_path start.shared.turn)
  have hfirst := htwo.path (p := .consumer) (test_path (i := 0) (by decide) (by decide +kernel))
  have hthree := hfirst.path (p := .producer) (turn_path start.shared.turn.turn.taken)
  have hsecond := hthree.path (p := .consumer) (test_path (i := 1) (by decide) (by decide +kernel))
  have hthird := hsecond.path (p := .consumer) (test_path (i := 2) (by decide) (by decide +kernel))
  exact ⟨_, _, hthird, rfl, by decide +kernel, printed_in_order hthird (by decide) (paced_of_length (by decide))⟩

/-! ## A store into a full ring -/

/-- From its test the consumer goes on to print if the heads differ; a test
that fails for `CONSUME_RATE` is made again after the sleep. -/
theorem test_prints {sh : Shared} (hheads : sh.consumerHead ≠ sh.producerHead) (i : Nat) :
    ∃ x, Path producerTest .consumer [(.consumer, .printed (sh.data sh.consumerHead).toInt)] (sh, .test i) x := by
  by_cases hi : i < consumeRate
  · exact ⟨_, test_path hi hheads⟩
  · have hfails : ¬ (i < consumeRate ∧ sh.consumerHead ≠ sh.producerHead) := fun h => hi h.1
    exact ⟨_, .quiet (.consumer (.testFails hfails)) (.quiet (.consumer .sleep) (test_path (by decide) hheads))⟩

/-- Wherever the consumer is, it goes on to print the slot that is next, if
the producer's head is not there. -/
theorem prints_next {sh : Shared} {c : Pc} {d : Nat} (hplace : c ≠ .store ∧ c ≠ .advance)
    (hhead : sh.consumerHead = slot d) (hne : slot (d + c.owed) ≠ sh.producerHead) :
    ∃ x, Path producerTest .consumer [(.consumer, .printed (sh.data (slot (d + c.owed))).toInt)] (sh, c) x := by
  cases c with
  | store => exact absurd rfl hplace.1
  | advance => exact absurd rfl hplace.2
  | test i =>
    have hslot : slot (d + Pc.owed (.test i)) = sh.consumerHead := hhead.symm
    rw [hslot] at hne ⊢
    exact test_prints hne i
  | print i =>
    have hslot : slot (d + Pc.owed (.print i)) = sh.consumerHead := hhead.symm
    rw [hslot]
    exact ⟨_, Path.single (producerTest.consumer .print)⟩
  | next i =>
    have hslot : slot (d + Pc.owed (.next i)) = slot (sh.consumerHead + 1) := by
      rw [hhead, slot_succ]
      rfl
    rw [hslot] at hne ⊢
    obtain ⟨x, hx⟩ := @test_prints { sh with consumerHead := slot (sh.consumerHead + 1) } hne (i + 1)
    exact ⟨x, .quiet (.consumer .next) hx⟩
  | sleep =>
    have hslot : slot (d + Pc.owed .sleep) = sh.consumerHead := hhead.symm
    rw [hslot] at hne ⊢
    obtain ⟨x, hx⟩ := test_prints hne 0
    exact ⟨x, .quiet (.consumer .sleep) hx⟩

/-- **Overrun**: a store into a full ring is followed by a print out of order,
as soon as the consumer gets to run. -/
theorem overrun (h : Run producerTest start tr s) (hint : produced tr + 1 < 2 ^ 31) (hpaced : Paced tr)
    (hstore : s.loc .producer = .store) (hfull : produced tr = (printed tr).length + dataSz) :
    ∃ tr' s', Run producerTest start (tr ++ tr') s' ∧ produced (tr ++ tr') < 2 ^ 31 ∧ ¬ InOrder (tr ++ tr') := by
  obtain ⟨a, d, hchase⟩ := chase_of_run h (Nat.lt_of_succ_lt hint) hpaced
  rw [hstore] at hchase
  have ha : a = produced tr := hchase.made
  have hother : Thread.consumer ≠ .producer := by decide
  have hstored := h.path (hstore ▸ turn_path s.shared)
  have hslot : slot (d + (s.loc .consumer).owed) = s.shared.producerHead := by
    rw [hchase.producerHead, hchase.shown, ha, hfull, slot_wraps]
  have hhead : s.shared.turn.producerHead = slot (produced tr + 1) := by
    rw [Shared.turn, hchase.producerHead, slot_succ, ha]
  have hne : slot (d + (s.loc .consumer).owed) ≠ s.shared.turn.producerHead := by
    rw [hslot, hhead, hchase.producerHead, ha]
    exact slot_ne (Nat.lt_succ_self _) (Nat.add_lt_add_left (by decide) _)
  have hconsumer : s.shared.turn.consumerHead = slot d := hchase.consumerHead
  obtain ⟨x, hx⟩ := prints_next hchase.place hconsumer hne
  have hvalue : (s.shared.turn.data (slot (d + (s.loc .consumer).owed))).toInt = produced tr := by
    rw [hslot, Shared.turn_data, hchase.counter, toInt_ofNat_of_lt (Nat.lt_of_succ_lt hint)]
  rw [hvalue] at hx
  have hprinted := hstored.path (p := .consumer) (by rwa [State.move_other hother])
  rw [List.append_assoc] at hprinted
  refine ⟨_, _, hprinted, ?_, ?_⟩
  · rw [produced_append]
    exact hint
  · intro h
    obtain ⟨k, -, hk⟩ := h
    have hlast : printed tr ++ [(produced tr : Int)] = (List.range k).map Int.ofNat := by
      rw [← hk, printed_append]
      rfl
    have hlength : (printed tr).length + 1 = k := by simpa using congrArg List.length hlast
    rw [← hlength, List.range_succ, List.map_append, List.map_singleton] at hlast
    have hvalue := (List.append_inj' hlast rfl).2
    rw [List.singleton_inj] at hvalue
    have hcount : produced tr = (printed tr).length := Int.ofNat.inj hvalue
    have := dataSz_pos
    omega

theorem turns_path (k : Nat) (sh : Shared) :
    ∃ sh', Path producerTest .producer (List.replicate k (.producer, .produced)) (sh, .store) (sh', .store) := by
  induction k generalizing sh with
  | zero => exact ⟨sh, .refl⟩
  | succ k ih =>
    obtain ⟨sh', hpath⟩ := ih sh.turn
    exact ⟨sh', (turn_path sh).trans hpath⟩

/-- **Loss**: the producer goes around the ring once before the consumer runs,
and stores one more value. -/
theorem printed_out_of_order : ∃ tr s, Run producerTest start tr s ∧ produced tr < 2 ^ 31 ∧ ¬ InOrder tr := by
  have hstart : Run producerTest start [] start := .nil
  obtain ⟨sh, hpath⟩ := turns_path dataSz start.shared
  have hturns := hstart.path hpath
  rw [List.nil_append] at hturns
  have hproduced : produced (List.replicate dataSz (.producer, .produced)) = dataSz := by
    rw [produced, List.countP_replicate, if_pos (by decide)]
  have hprinted : printed (List.replicate dataSz (.producer, .produced)) = [] :=
    List.filterMap_replicate_of_none rfl
  have hpaced : Paced (List.replicate dataSz (.producer, .produced)) :=
    paced_of_length (Nat.le_of_eq List.length_replicate)
  obtain ⟨tr, s, hrun, hint, hbad⟩ := overrun hturns (by rw [hproduced]; decide) hpaced (State.move_self _ _ _ _)
    (by rw [hproduced, hprinted, List.length_nil, Nat.zero_add])
  exact ⟨_, s, hrun, hint, hbad⟩

end SugarNSpice.ProducerTest
