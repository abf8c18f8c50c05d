/-
When the client counts whole packets between two alarms.

`bytes_in` is always the bytes since the last packet was counted. As long as no
`recv` returns 0, a packet is counted when there are 256 of them. A `recv` that
returns 0 ends the inner loop like a full packet does: the outer loop counts a
packet that is not there and goes on. And an alarm in the middle of a packet
clears the count of its first bytes, but the packet is counted after it.
-/
import SugarNSpice.TestSocket
import Mathlib.Algebra.BigOperators.Group.List.Basic
import Mathlib.Algebra.Order.BigOperators.Group.List
import Mathlib.Data.List.Induction

namespace SugarNSpice.TestSocket

open CLang

/-- What a loop is to do with the results `rs` of an interval that begins
after `es`: it counts packets of 256 bytes, so that the counters agree whenever
the outer loop begins; and a closed connection ends it. -/
structure CountsPackets (turn : Counters → Int → Turn Counters Int) (es : List Event) (rs : List Int) : Prop where
  packet : ∀ pre ret s since s', pre ++ [ret] <+: rs → transfer turn (es ++ interval pre) = (.next s, since) →
    turn s ret = .next s' → s'.pktsCount ≠ s.pktsCount → since + ret = pktSize
  top : ∀ pre s since, pre <+: rs → transfer turn (es ++ interval pre) = (.next s, since) → s.bytesIn = 0 →
    s.bytesCount = pktSize * s.pktsCount
  closed : ∀ pre s since, pre ++ [0] <+: rs → transfer turn (es ++ interval pre) = (.next s, since) →
    ∃ code, turn s 0 = .done code

/-- An interval begins with the program or with an alarm. -/
def Begins (es : List Event) : Prop := es = [] ∨ ∃ before, es = before ++ [.sigalrm]

/-! ## One result -/

theorem transferTurn_pos {failed : Int → Int} {s : Counters} {ret : Int} (h : 0 < ret) :
    transferTurn failed s ret = .next
      (if s.bytesIn + ret.toNat < pktSize then ⟨s.bytesIn + ret.toNat, s.bytesCount + ret.toNat, s.pktsCount⟩
        else ⟨0, s.bytesCount + ret.toNat, s.pktsCount + 1⟩) := by
  unfold transferTurn
  rw [if_neg (by omega)]
  by_cases hlt : s.bytesIn + ret.toNat < pktSize
  · simp only [h, hlt, true_and, if_true]
  · simp only [hlt, and_false, if_false]

/-- **A closed connection is counted as a packet.** -/
theorem transferTurn_zero (failed : Int → Int) (s : Counters) :
    transferTurn failed s 0 = .next ⟨0, s.bytesCount, s.pktsCount + 1⟩ := by
  simp [transferTurn]

theorem transferTurn_neg (failed : Int → Int) (s : Counters) : transferTurn failed s (-1) = .done (failed (-1)) := by
  simp [transferTurn]

/-- `bytes_in` is the bytes since the last packet was counted. -/
structure Collecting (s : Counters) (since : Nat) : Prop where
  bytesIn : s.bytesIn = since
  lt : since < pktSize

theorem Collecting.result {failed : Int → Int} {s s' : Counters} {since : Nat} {ret : Int} (h : Collecting s since)
    (hret : IsResult s ret) (hnext : transferTurn failed s ret = .next s') :
    Collecting s' (sinceCounted s since ret (.next s')) := by
  obtain ⟨rfl, hlt⟩ := h
  rcases hret with rfl | rfl | ⟨hpos, -⟩
  · rw [transferTurn_neg] at hnext
    cases hnext
  · rw [transferTurn_zero, Turn.next.injEq] at hnext
    subst hnext
    simp only [sinceCounted, Nat.succ_ne_self, if_false]
    exact ⟨rfl, by decide⟩
  · rw [transferTurn_pos hpos, Turn.next.injEq] at hnext
    by_cases hfull : s.bytesIn + ret.toNat < pktSize
    · rw [if_pos hfull] at hnext
      subst hnext
      simp only [sinceCounted, if_true]
      exact ⟨rfl, hfull⟩
    · rw [if_neg hfull] at hnext
      subst hnext
      simp only [sinceCounted, Nat.succ_ne_self, if_false]
      exact ⟨rfl, by decide⟩

/-- In an interval that began with `b` bytes of a packet collected and none
counted. -/
structure Counted (b : Nat) (s : Counters) (since : Nat) : Prop extends Collecting s since where
  bytesCount : s.bytesCount + b = pktSize * s.pktsCount + since

theorem Counted.result {failed : Int → Int} {b : Nat} {s s' : Counters} {since : Nat} {ret : Int}
    (h : Counted b s since) (hret : IsResult s ret) (h0 : ret ≠ 0) (hnext : transferTurn failed s ret = .next s') :
    Counted b s' (sinceCounted s since ret (.next s')) ∧ s'.bytesCount = s.bytesCount + ret.toNat ∧
      (s'.pktsCount ≠ s.pktsCount → since + ret = pktSize) := by
  have hcollecting := h.toCollecting.result hret hnext
  obtain ⟨⟨rfl, hlt⟩, hcount⟩ := h
  rcases hret with rfl | rfl | ⟨hpos, hle⟩
  · rw [transferTurn_neg] at hnext
    cases hnext
  · exact absurd rfl h0
  · rw [transferTurn_pos hpos, Turn.next.injEq] at hnext
    by_cases hfull : s.bytesIn + ret.toNat < pktSize
    · rw [if_pos hfull] at hnext
      subst hnext
      refine ⟨⟨hcollecting, ?_⟩, rfl, fun h => absurd rfl h⟩
      simp only [sinceCounted, if_true]
      omega
    · rw [if_neg hfull] at hnext
      subst hnext
      refine ⟨⟨hcollecting, ?_⟩, rfl, fun _ => by omega⟩
      simp only [sinceCounted, Nat.succ_ne_self, if_false, Nat.mul_add]
      omega

/-! ## Runs -/

theorem AreResults.before {turn : Counters → Int → Turn Counters Int} {es es' : List Event} (h : AreResults turn es)
    (hp : es' <+: es) : AreResults turn es' := fun pre ret hpre => h pre ret (hpre.trans hp)

theorem AreResults.append {turn : Counters → Int → Turn Counters Int} {es : List Event} (h : AreResults turn es)
    {e : Event} (he : ∀ ret, e = .returns ret → ∃ s since, transfer turn es = (.next s, since) ∧ IsResult s ret) :
    AreResults turn (es ++ [e]) := by
  intro pre r hpre
  rcases List.prefix_concat_iff.1 hpre with heq | hpre
  · obtain ⟨rfl, hr⟩ := List.append_inj' heq rfl
    exact he r (List.singleton_inj.1 hr).symm
  · exact h pre r hpre

theorem transfer_append (turn : Counters → Int → Turn Counters Int) (es : List Event) (e : Event) :
    transfer turn (es ++ [e]) = transferStep turn (transfer turn es) e := by simp [transfer]

theorem transfer_sigalrm {turn : Counters → Int → Turn Counters Int} {es : List Event} {s' : Counters} {since : Nat}
    (h : transfer turn (es ++ [.sigalrm]) = (.next s', since)) :
    ∃ s, transfer turn es = (.next s, since) ∧ sigalrmHdlr s = s' := by
  rw [transfer_append] at h
  rcases hes : transfer turn es with ⟨s | code, since₀⟩
  · rw [hes] at h
    cases h
    exact ⟨s, rfl, rfl⟩
  · rw [hes] at h
    cases h

theorem interval_append (es : List Event) (rs : List Int) (ret : Int) :
    es ++ interval (rs ++ [ret]) = es ++ interval rs ++ [.returns ret] := by simp [interval]

theorem isPrefix_interval {rs rs' : List Int} (es : List Event) (h : rs' <+: rs) :
    es ++ interval rs' <+: es ++ interval rs := (List.prefix_append_right_inj es).2 (h.map _)

theorem AreResults.call {turn : Counters → Int → Turn Counters Int} {es : List Event} {rs pre : List Int} {ret : Int}
    (h : AreResults turn (es ++ interval rs)) (hpre : pre ++ [ret] <+: rs) :
    ∃ s since, transfer turn (es ++ interval pre) = (.next s, since) ∧ IsResult s ret :=
  h _ ret (interval_append es pre ret ▸ isPrefix_interval es hpre)

theorem transfer_collecting {failed : Int → Int} {es : List Event} (h : AreResults (transferTurn failed) es) :
    ∀ {s since}, transfer (transferTurn failed) es = (.next s, since) → Collecting s since := by
  induction es using List.reverseRecOn with
  | nil =>
    intro s since hs
    cases hs
    exact ⟨rfl, by decide⟩
  | append_singleton es e ih =>
    intro s' since' hs'
    have hbefore := h.before (List.prefix_append es [e])
    rw [transfer_append] at hs'
    cases e with
    | returns ret =>
      obtain ⟨s, since, hs, hret⟩ := h es ret List.prefix_rfl
      rw [hs, transferStep, Prod.mk.injEq] at hs'
      obtain ⟨hturn, rfl⟩ := hs'
      rw [hturn]
      exact (ih hbefore hs).result hret hturn
    | sigalrm =>
      rw [← transfer_append] at hs'
      obtain ⟨s, hs, rfl⟩ := transfer_sigalrm hs'
      exact ⟨(ih hbefore hs).bytesIn, (ih hbefore hs).lt⟩

theorem Begins.counters {turn : Counters → Int → Turn Counters Int} {es : List Event} (h : Begins es) {s : Counters}
    {since : Nat} (hs : transfer turn es = (.next s, since)) : s.bytesCount = 0 ∧ s.pktsCount = 0 := by
  rcases h with rfl | ⟨before, rfl⟩
  · cases hs
    exact ⟨rfl, rfl⟩
  · obtain ⟨s, -, rfl⟩ := transfer_sigalrm hs
    exact ⟨rfl, rfl⟩

/-- An interval without a 0, and the bytes of its results. -/
theorem transfer_counted {failed : Int → Int} {es : List Event} {rs : List Int} {b since₀ : Nat} {s₀ : Counters}
    (hbegin : Begins es) (hs₀ : transfer (transferTurn failed) es = (.next s₀, since₀)) (hb : s₀.bytesIn = b)
    (h : AreResults (transferTurn failed) (es ++ interval rs)) (h0 : 0 ∉ rs) :
    ∀ {s since}, transfer (transferTurn failed) (es ++ interval rs) = (.next s, since) →
      Counted b s since ∧ s.bytesCount = (rs.map Int.toNat).sum := by
  induction rs using List.reverseRecOn with
  | nil =>
    intro s since hs
    have hcollecting := transfer_collecting h hs
    simp only [interval, List.map_nil, List.append_nil] at hs
    rw [hs₀] at hs
    cases hs
    obtain ⟨hcount, hpkts⟩ := hbegin.counters hs₀
    refine ⟨⟨hcollecting, ?_⟩, by simp [hcount]⟩
    rw [hcount, hpkts, ← hcollecting.bytesIn, hb]
    omega
  | append_singleton rs ret ih =>
    intro s' since' hs'
    rw [List.mem_append, not_or] at h0
    obtain ⟨s, since, hs, hret⟩ := h.call List.prefix_rfl
    obtain ⟨hcounted, hsum⟩ := ih (h.before (isPrefix_interval es (List.prefix_append _ _))) h0.1 hs
    rw [interval_append, transfer_append, hs, transferStep, Prod.mk.injEq] at hs'
    obtain ⟨hturn, rfl⟩ := hs'
    rw [hturn]
    obtain ⟨hcounted', hbytes, -⟩ := hcounted.result hret (by simpa [eq_comm] using h0.2) hturn
    exact ⟨hcounted', by simp [hbytes, hsum]⟩

/-! ## When packets are counted whole -/

theorem CountsPackets.before {turn : Counters → Int → Turn Counters Int} {es : List Event} {rs rs' : List Int}
    (h : CountsPackets turn es rs) (hp : rs' <+: rs) : CountsPackets turn es rs' :=
  ⟨fun pre ret s since s' hpre => h.packet pre ret s since s' (hpre.trans hp),
    fun pre s since hpre => h.top pre s since (hpre.trans hp), fun pre s since hpre => h.closed pre s since (hpre.trans hp)⟩

/-- An interval that begins with bytes of a packet collected and counts packets
whole ends before that packet is complete. -/
theorem CountsPackets.incomplete {failed : Int → Int} {es : List Event} {rs : List Int} {b since₀ : Nat} {s₀ : Counters}
    (hbegin : Begins es) (hs₀ : transfer (transferTurn failed) es = (.next s₀, since₀)) (hb : s₀.bytesIn = b)
    (h : AreResults (transferTurn failed) (es ++ interval rs)) (h0 : 0 ∉ rs) (hpos : b ≠ 0)
    (hcounts : CountsPackets (transferTurn failed) es rs) : b + (rs.map Int.toNat).sum < pktSize := by
  induction rs using List.reverseRecOn with
  | nil =>
    have hcollecting := transfer_collecting (h.before (List.prefix_append es _)) hs₀
    simpa [← hb, hcollecting.bytesIn] using hcollecting.lt
  | append_singleton rs ret ih =>
    have hpre : rs <+: rs ++ [ret] := List.prefix_append _ _
    obtain ⟨s, since, hs, hret⟩ := h.call List.prefix_rfl
    have hno : 0 ∉ rs := fun hm => h0 (hpre.subset hm)
    have hbefore := h.before (isPrefix_interval es hpre)
    have hlt := ih hbefore hno (hcounts.before hpre)
    obtain ⟨hcounted, hsum⟩ := transfer_counted hbegin hs₀ hb hbefore hno hs
    have hcount := hcounted.bytesCount
    have hin := hcounted.bytesIn
    have hfew : since < pktSize := hcounted.lt
    rw [List.map_append, List.sum_append, List.map_singleton, List.sum_singleton]
    rcases hret with rfl | rfl | ⟨hret, hle⟩
    · simpa using hlt
    · simp at h0
    · by_contra hfull
      have hnext : transferTurn failed s ret = .next ⟨0, s.bytesCount + ret.toNat, s.pktsCount + 1⟩ := by
        rw [transferTurn_pos hret, if_neg]
        unfold pktSize at *
        omega
      have htop := hcounts.top _ ⟨0, s.bytesCount + ret.toNat, s.pktsCount + 1⟩
        (sinceCounted s since ret (transferTurn failed s ret)) List.prefix_rfl
        (by rw [interval_append, transfer_append, hs, transferStep, hnext]) rfl
      simp only [Nat.mul_add] at htop
      unfold pktSize at *
      omega

/-- **When a loop counts whole packets.** For any run up to an alarm and any
results of the calls until the next, the loop counts packets of 256 bytes only
and ends with the connection exactly when no call returns 0 and the interval
begins at a packet's boundary or ends before the packet begun is complete. -/
theorem transfer_countsPackets_iff {failed : Int → Int} {es : List Event} {rs : List Int} {s : Counters} {since : Nat}
    (hbegin : Begins es) (hs : transfer (transferTurn failed) es = (.next s, since))
    (h : AreResults (transferTurn failed) (es ++ interval rs)) :
    CountsPackets (transferTurn failed) es rs ↔
      0 ∉ rs ∧ (s.bytesIn = 0 ∨ s.bytesIn + (rs.map Int.toNat).sum < pktSize) := by
  constructor
  · intro hcounts
    have h0 : 0 ∉ rs := by
      intro h0
      obtain ⟨pre, post, rfl⟩ := List.append_of_mem h0
      have hpre : pre ++ [0] <+: pre ++ 0 :: post := ⟨post, by simp⟩
      obtain ⟨t, since', ht, -⟩ := h.call hpre
      obtain ⟨code, hdone⟩ := hcounts.closed pre t since' hpre ht
      rw [transferTurn_zero] at hdone
      cases hdone
    exact ⟨h0, or_iff_not_imp_left.2 fun hpos => hcounts.incomplete hbegin hs rfl h h0 hpos⟩
  · intro h
    obtain ⟨h0, hstart⟩ := h
    refine ⟨fun pre ret t since' t' hpre ht hnext hne => ?_, fun pre t since' hpre ht hin => ?_,
      fun pre t since' hpre _ => absurd (hpre.subset (by simp)) h0⟩
    · have hle : pre <+: rs := (List.prefix_append _ _).trans hpre
      have hcounted := (transfer_counted hbegin hs rfl (h.before (isPrefix_interval es hle))
        (fun hm => h0 (hle.subset hm)) ht).1
      obtain ⟨u, since'', hu, hret⟩ := h.call hpre
      rw [ht] at hu
      cases hu
      exact (hcounted.result hret (fun hr => h0 (hr ▸ hpre.subset (by simp))) hnext).2.2 hne
    · obtain ⟨hcounted, hsum⟩ := transfer_counted hbegin hs rfl (h.before (isPrefix_interval es hpre))
        (fun hm => h0 (hpre.subset hm)) ht
      have hcount := hcounted.bytesCount
      have hbytes := hcounted.bytesIn
      have hle : (pre.map Int.toNat).sum ≤ (rs.map Int.toNat).sum :=
        (hpre.map _).sublist.sum_le_sum fun _ _ => Nat.zero_le _
      unfold pktSize at *
      omega

/-- **The server's packets.** -/
theorem server_countsPackets_iff {es : List Event} {rs : List Int} {s : Counters} {since : Nat} (hbegin : Begins es)
    (hs : transfer serverTurn es = (.next s, since)) (h : AreResults serverTurn (es ++ interval rs)) :
    CountsPackets serverTurn es rs ↔ 0 ∉ rs ∧ (s.bytesIn = 0 ∨ s.bytesIn + (rs.map Int.toNat).sum < pktSize) :=
  transfer_countsPackets_iff hbegin hs h

theorem AreResults.returns {turn : Counters → Int → Turn Counters Int} {es : List Event} (h : AreResults turn es)
    {s : Counters} {since : Nat} (hs : transfer turn es = (.next s, since)) {ret : Int} (hret : IsResult s ret) :
    AreResults turn (es ++ [.returns ret]) :=
  h.append fun r hr => ⟨s, since, hs, by cases hr; exact hret⟩

theorem AreResults.alarm {turn : Counters → Int → Turn Counters Int} {es : List Event} (h : AreResults turn es) :
    AreResults turn (es ++ [.sigalrm]) := h.append fun r hr => by cases hr

end SugarNSpice.TestSocket
