/-
What the client of `test_udp.c` detects.

`verify_seq_number` returns 0 whatever it is asked, so `recver` takes every
full-size message for the next one. That is right in a run just as long as the
network brings the messages in the order of sending, none lost or doubled
(`detects_iff_in_order`).
-/
import SugarNSpice.TestUdp
import Mathlib.Data.List.Induction

namespace SugarNSpice.TestUdp

open Processes CLang

variable {mode : Mode} {tr : Trace} {s : State Party Shared Place}

/-! ## Numbers in order -/

def numbers (k : Nat) : List Int := (List.range k).map Int.ofNat

theorem numbers_succ (k : Nat) : numbers (k + 1) = numbers k ++ [(k : Int)] := by
  rw [numbers, numbers, List.range_succ, List.map_append]
  rfl

@[simp] theorem length_numbers (k : Nat) : (numbers k).length = k := by
  rw [numbers, List.length_map, List.length_range]

theorem mem_numbers {k : Nat} {x : Int} (h : x ∈ numbers k) : ∃ i < k, x = i := by
  obtain ⟨i, hi, rfl⟩ := List.mem_map.1 h
  exact ⟨i, List.mem_range.1 hi, rfl⟩

theorem numbers_prefix_iff {j k : Nat} : numbers j <+: numbers k ↔ j ≤ k := by
  constructor
  · intro h
    simpa using h.length_le
  · intro h
    refine List.IsPrefix.map _ ?_
    rw [List.prefix_iff_eq_take, List.length_range, List.take_range, Nat.min_eq_left h]

/-- What comes before a prefix of the numbers ends is such a prefix too. -/
theorem eq_numbers_of_prefix {l : List Int} {k : Nat} (h : l <+: numbers k) : l = numbers l.length := by
  have hle : l.length ≤ k := by simpa using h.length_le
  rw [List.prefix_iff_eq_take.1 h, List.length_take, length_numbers, Nat.min_eq_left hle, numbers, ← List.map_take,
    List.take_range, Nat.min_eq_left hle, numbers]

/-- The number expected after `seen`: one more with each that was expected. -/
def expected (seen : List Int) : Int := seen.foldl (fun next seqNo => if seqNo = next then next + 1 else next) 0

theorem expected_append (seen : List Int) (seqNo : Int) :
    expected (seen ++ [seqNo]) = if seqNo = expected seen then expected seen + 1 else expected seen := by
  rw [expected, List.foldl_append]
  rfl

theorem expected_numbers (k : Nat) : expected (numbers k) = k := by
  induction k with
  | zero => rfl
  | succ k ih => rw [numbers_succ, expected_append, ih, if_pos rfl, Int.natCast_succ]

theorem expected_of_numbers {l : List Int} (h : l = numbers l.length) : expected l = l.length := by
  rw [h, expected_numbers, length_numbers]

/-! ## Traces -/

theorem sent_append (tr tr' : Trace) : sent (tr ++ tr') = sent tr ++ sent tr' := List.filterMap_append

theorem received_append (tr tr' : Trace) : received (tr ++ tr') = received tr ++ received tr' :=
  List.filterMap_append

/-- At every full-size message `recver` has got, it has returned a negative
value and called the number bad just if that is not the one expected. -/
def Detects (tr : Trace) : Prop :=
  ∀ pre p seqNo rc bad, pre ++ [(p, .rx seqNo rc bad)] <+: tr →
    (rc < 0 ↔ seqNo ≠ expected (received pre)) ∧ (bad = true ↔ seqNo ≠ expected (received pre))

theorem Detects.before {tr' : Trace} (h : Detects (tr ++ tr')) : Detects tr :=
  fun pre p seqNo rc bad hpre => h pre p seqNo rc bad (hpre.trans (List.prefix_append _ _))

theorem detects_tx_iff {p : Party} {seqNo : Int} : Detects (tr ++ [(p, .tx seqNo)]) ↔ Detects tr := by
  refine ⟨Detects.before, fun h pre q seqNo' rc bad hpre => ?_⟩
  rcases List.prefix_concat_iff.1 hpre with heq | hpre
  · simp at heq
  · exact h pre q seqNo' rc bad hpre

/-- A message that `recver` says nothing about has to be the one expected. -/
theorem detects_rx_iff {p : Party} {seqNo : Int} :
    Detects (tr ++ [(p, .rx seqNo 0 false)]) ↔ Detects tr ∧ seqNo = expected (received tr) := by
  constructor
  · intro h
    refine ⟨h.before, ?_⟩
    by_contra hne
    exact absurd ((h tr p seqNo 0 false List.prefix_rfl).1.2 hne) (by decide)
  · intro h pre q seqNo' rc bad hpre
    obtain ⟨h, hexpected⟩ := h
    rcases List.prefix_concat_iff.1 hpre with heq | hpre
    · obtain ⟨rfl, hev⟩ := List.append_inj' heq rfl
      simp only [List.cons.injEq, Prod.mk.injEq, Event.rx.injEq, and_true] at hev
      obtain ⟨-, rfl, rfl, rfl⟩ := hev
      simp [hexpected]
    · exact h pre q seqNo' rc bad hpre

/-- No number has been called bad. -/
def Quiet (tr : Trace) : Prop := ∀ p seqNo rc bad, (p, .rx seqNo rc bad) ∈ tr → rc = 0 ∧ bad = false

/-- If none is, all have to be the ones expected. -/
theorem detects_iff_numbers (hquiet : Quiet tr) : Detects tr ↔ received tr = numbers (received tr).length := by
  induction tr using List.reverseRecOn with
  | nil => simp [Detects, received, numbers]
  | append_singleton tr x ih =>
    have ih := ih fun p seqNo rc bad h => hquiet p seqNo rc bad (List.mem_append_left _ h)
    obtain ⟨p, e⟩ := x
    cases e with
    | tx seqNo =>
      have hsame : received (tr ++ [(p, .tx seqNo)]) = received tr := (received_append _ _).trans (List.append_nil _)
      rw [detects_tx_iff, hsame, ih]
    | rx seqNo rc bad =>
      obtain ⟨rfl, rfl⟩ := hquiet p seqNo rc bad (List.mem_append_right _ (List.mem_singleton_self _))
      have hlast : received (tr ++ [(p, .rx seqNo 0 false)]) = received tr ++ [seqNo] := received_append _ _
      rw [detects_rx_iff, ih, hlast, List.length_append, List.length_singleton, numbers_succ]
      constructor
      · intro h
        obtain ⟨hnumbers, hseq⟩ := h
        rw [hseq, expected_of_numbers hnumbers, ← hnumbers]
      · intro h
        obtain ⟨hnumbers, hseq⟩ := List.append_inj' h rfl
        exact ⟨hnumbers, (List.singleton_inj.1 hseq).trans (expected_of_numbers hnumbers).symm⟩

/-! ## The client -/

theorem getMySeqNumber_ok {mySeqNo seqNo next : Int} (h : getMySeqNumber mySeqNo = .ok (seqNo, next)) :
    seqNo = mySeqNo ∧ next = mySeqNo + 1 := by
  unfold getMySeqNumber int at h
  split at h
  · cases h
    exact ⟨rfl, rfl⟩
  · cases h

theorem verifySeqNumber_ok {mySeqNo seqNo rc : Int} (h : verifySeqNumber mySeqNo seqNo = .ok rc) : rc = 0 := by
  obtain ⟨_, -, hrc⟩ := bind_ok_iff.1 h
  cases hrc
  rfl

theorem quiet_of_run (h : Run (testUdp mode) (start mode) tr s) : Quiet tr := by
  refine Run.invariant (I := fun tr _ => Quiet tr) (by simp [Quiet]) ?_ h
  intro tr s p e sh l _ ih hstep q seqNo rc bad hmem
  rcases List.mem_append.1 hmem with hmem | hmem
  · exact ih q seqNo rc bad hmem
  obtain ⟨-, rfl⟩ := mem_events.1 hmem
  generalize s.loc p = l₀ at hstep
  cases hstep with
  | sender hstep => cases hstep
  | recver _ hstep =>
    cases hstep with
    | verify hrc =>
      obtain rfl := verifySeqNumber_ok hrc
      exact ⟨rfl, rfl⟩
  | echoer hstep => cases hstep

/-! ## Numbers given -/

/-- A number that is taken and not yet sent. -/
def Place.taken : Place → Nat
  | .sendto _ => 1
  | _ => 0

/-- The message a party works on. -/
def Place.held : Place → Option MyMsg
  | .verify msg | .echo msg => some msg
  | _ => none

theorem afterSender_idle (mode : Mode) (rc : Int) :
    (mode.afterSender rc).taken = 0 ∧ (mode.afterSender rc).held = none := by
  cases mode with
  | plain =>
    rw [Mode.afterSender]
    split <;> exact ⟨rfl, rfl⟩
  | threads => exact ⟨rfl, rfl⟩

theorem afterRecver_idle (mode : Mode) (rc : Int) :
    (mode.afterRecver rc).taken = 0 ∧ (mode.afterRecver rc).held = none := by
  cases mode with
  | plain =>
    rw [Mode.afterRecver]
    split <;> exact ⟨rfl, rfl⟩
  | threads => exact ⟨rfl, rfl⟩

/-- The numbers sent are 0, 1, 2 and so on, and `my_seq_no` is the next. -/
structure Numbered (tr : Trace) (sh : Shared) (l : Place) : Prop where
  order : sent tr = numbers (sent tr).length
  counter : sh.mySeqNo = (sent tr).length + l.taken
  message : ∀ msg, l = .sendto msg → msg.seqNo = (sent tr).length

theorem Numbered.settled {tr : Trace} {sh : Shared} {l : Place} (horder : sent tr = numbers (sent tr).length)
    (hcounter : sh.mySeqNo = (sent tr).length) (hl : l.taken = 0) : Numbered tr sh l := by
  refine ⟨horder, ?_, ?_⟩
  · rw [hcounter, hl]
    rfl
  · rintro msg rfl
    exact absurd hl Nat.one_ne_zero

theorem Numbered.send {sh sh' : Shared} {l' : Place} {msg : MyMsg} (h : Numbered tr sh (.sendto msg))
    (hsame : sh'.mySeqNo = sh.mySeqNo) (hl' : l'.taken = 0) :
    Numbered (tr ++ events .sender (some (.tx msg.seqNo))) sh' l' := by
  have hsent : sent (tr ++ events .sender (some (.tx msg.seqNo))) = sent tr ++ [msg.seqNo] := sent_append _ _
  have hlength : (sent tr ++ [msg.seqNo]).length = (sent tr).length + 1 := List.length_append
  refine .settled ?_ ?_ hl'
  · rw [hsent, hlength, numbers_succ, ← h.order, h.message msg rfl]
  · rw [hsame, h.counter, hsent, hlength]
    rfl

theorem Numbered.step {sh sh' : Shared} {l l' : Place} {e : Option Event} (h : Numbered tr sh l)
    (hstep : senderStep mode sh l e sh' l') : Numbered (tr ++ events .sender e) sh' l' := by
  cases hstep with
  | number hnumber =>
    obtain ⟨rfl, rfl⟩ := getMySeqNumber_ok hnumber
    have hcounter : sh.mySeqNo = (sent tr).length := h.counter.trans (Int.add_zero _)
    rw [append_events_none]
    refine ⟨h.order, ?_, ?_⟩
    · rw [← hcounter]
      rfl
    · rintro msg hmsg
      cases hmsg
      exact hcounter
  | sendto => exact h.send rfl (afterSender_idle mode _).1
  | sendtoFails _ => exact h.send rfl (afterSender_idle mode _).1

theorem Numbered.frame {sh sh' : Shared} {l : Place} {e : Option Event} {p : Party} (h : Numbered tr sh l)
    (hsame : sh'.mySeqNo = sh.mySeqNo) (hsent : sent (tr ++ events p e) = sent tr) :
    Numbered (tr ++ events p e) sh' l := by
  refine ⟨?_, ?_, ?_⟩
  · rw [hsent, ← h.order]
  · rw [hsame, hsent, h.counter]
  · rw [hsent]
    exact h.message

theorem recverStep.keeps {sh sh' : Shared} {l l' : Place} {e : Option Event} (p : Party)
    (hstep : recverStep mode sh l e sh' l') :
    sh'.mySeqNo = sh.mySeqNo ∧ sent (tr ++ events p e) = sent tr ∧ l.taken = 0 ∧ l'.taken = 0 := by
  have hnone : ∀ tr' : Trace, sent tr' = [] → sent (tr ++ tr') = sent tr := fun tr' h => by
    rw [sent_append, h, List.append_nil]
  cases hstep with
  | recvfrom _ _ => exact ⟨rfl, hnone _ rfl, rfl, rfl⟩
  | recvfromFails _ => exact ⟨rfl, hnone _ rfl, rfl, (afterRecver_idle mode _).1⟩
  | badMsg _ _ => exact ⟨rfl, hnone _ rfl, rfl, (afterRecver_idle mode _).1⟩
  | verify _ => exact ⟨rfl, hnone _ rfl, rfl, (afterRecver_idle mode _).1⟩

theorem echoerStep.keeps {sh sh' : Shared} {l l' : Place} {e : Option Event} (hstep : echoerStep sh l e sh' l') :
    sh'.mySeqNo = sh.mySeqNo ∧ e = none := by
  cases hstep <;> exact ⟨rfl, rfl⟩

theorem networkStep.keeps {sh sh' : Shared} (hstep : networkStep sh sh') : sh'.mySeqNo = sh.mySeqNo := by
  cases hstep <;> rfl

theorem numbered_of_run (h : Run (testUdp mode) (start mode) tr s) : Numbered tr s.shared (s.loc .sender) := by
  refine Run.invariant (I := fun tr s => Numbered tr s.shared (s.loc .sender)) (.settled rfl rfl rfl) ?_ h
  intro tr s p e sh l _ ih hstep
  generalize hl₀ : s.loc p = l₀ at hstep
  cases hstep with
  | sender hstep =>
    rw [State.move_shared, State.move_self]
    rw [hl₀] at ih
    exact ih.step hstep
  | recver _ hstep =>
    obtain ⟨hsame, hsent, hl, hl'⟩ := recverStep.keeps p hstep
    have hframe := ih.frame hsame hsent
    by_cases hp : Party.sender = p
    · subst hp
      rw [State.move_shared, State.move_self]
      have hcounter := hframe.counter
      rw [hl₀, hl] at hcounter
      exact .settled hframe.order (hcounter.trans (Int.add_zero _)) hl'
    · rwa [State.move_shared, State.move_other hp]
  | echoer hstep =>
    obtain ⟨hsame, rfl⟩ := hstep.keeps
    rw [State.move_shared, State.move_other (by decide)]
    exact ih.frame hsame (congrArg sent (append_events_none _ _))
  | network hstep =>
    rw [State.move_shared, State.move_other (by decide)]
    exact ih.frame hstep.keeps (congrArg sent (append_events_none _ _))

/-! ## Datagrams -/

/-- Whatever is on its way, or has got through, was sent. -/
structure Known (tr : Trace) (sh : Shared) (loc : Party → Place) : Prop where
  toServer : ∀ msg ∈ sh.toServer, msg.seqNo ∈ sent tr
  toClient : ∀ msg ∈ sh.toClient, msg.seqNo ∈ sent tr
  held : ∀ p msg, (loc p).held = some msg → msg.seqNo ∈ sent tr
  received : ∀ seqNo ∈ received tr, seqNo ∈ sent tr

theorem mem_of_taken {l l' : List MyMsg} {msg msg' : MyMsg} (h : msg' ∈ l ++ l') : msg' ∈ l ++ msg :: l' :=
  ((List.sublist_cons_self msg l').append_left l).subset h

theorem Disturbs.mem {l l' : List MyMsg} (h : Disturbs l l') {msg : MyMsg} (hmsg : msg ∈ l') : msg ∈ l := by
  cases h with
  | drop => exact mem_of_taken hmsg
  | duplicate =>
    rcases List.mem_append.1 hmsg with hmsg | hmsg
    · exact List.mem_append_left _ hmsg
    · rcases List.mem_cons.1 hmsg with rfl | hmsg
      · exact List.mem_append_right _ (.head _)
      · exact List.mem_append_right _ hmsg

theorem Known.next {tr' : Trace} {sh sh' : Shared} {loc : Party → Place} {p : Party} {l : Place}
    (h : Known tr sh loc) (hserver : ∀ msg ∈ sh'.toServer, msg ∈ sh.toServer ∨ msg.seqNo ∈ sent tr')
    (hclient : ∀ msg ∈ sh'.toClient, msg ∈ sh.toClient ∨ msg.seqNo ∈ sent tr)
    (hheld : ∀ msg, l.held = some msg → msg.seqNo ∈ sent tr)
    (hreceived : ∀ seqNo ∈ TestUdp.received tr', seqNo ∈ sent tr) :
    Known (tr ++ tr') sh' (Function.update loc p l) := by
  have hmono : ∀ seqNo ∈ sent tr, seqNo ∈ sent (tr ++ tr') := fun seqNo hs => by
    rw [sent_append]
    exact List.mem_append_left _ hs
  refine ⟨fun msg hmsg => ?_, fun msg hmsg => ?_, fun q msg hq => hmono _ ?_, fun seqNo hs => ?_⟩
  · rcases hserver msg hmsg with hmsg | hmsg
    · exact hmono _ (h.toServer msg hmsg)
    · rw [sent_append]
      exact List.mem_append_right _ hmsg
  · rcases hclient msg hmsg with hmsg | hmsg
    · exact hmono _ (h.toClient msg hmsg)
    · exact hmono _ hmsg
  · by_cases hqp : q = p
    · subst hqp
      rw [Function.update_self] at hq
      exact hheld msg hq
    · rw [Function.update_of_ne hqp] at hq
      exact h.held q msg hq
  · rw [received_append] at hs
    rcases List.mem_append.1 hs with hs | hs
    · exact hmono _ (h.received seqNo hs)
    · exact hmono _ (hreceived seqNo hs)

section Steps

variable {sh sh' : Shared} {loc : Party → Place} {l l' : Place} {e : Option Event} {p : Party}

theorem Known.sender (h : Known tr sh loc) (hstep : senderStep mode sh l e sh' l') :
    Known (tr ++ events p e) sh' (Function.update loc p l') := by
  have hidle : ∀ rc msg, (mode.afterSender rc).held = some msg → msg.seqNo ∈ sent tr := fun rc msg hmsg => by
    rw [(afterSender_idle mode rc).2] at hmsg
    cases hmsg
  cases hstep with
  | number _ => exact h.next (fun _ => .inl) (fun _ => .inl) nofun nofun
  | sendto =>
    refine h.next (fun msg hmsg => ?_) (fun _ => .inl) (hidle _) nofun
    rcases List.mem_cons.1 hmsg with rfl | hmsg
    · exact .inr (List.mem_singleton_self _)
    · exact .inl hmsg
  | sendtoFails _ => exact h.next (fun _ => .inl) (fun _ => .inl) (hidle _) nofun

theorem Known.recver (h : Known tr sh loc) (hl : loc p = l) (hstep : recverStep mode sh l e sh' l') :
    Known (tr ++ events p e) sh' (Function.update loc p l') := by
  have hidle : ∀ rc msg, (mode.afterRecver rc).held = some msg → msg.seqNo ∈ sent tr := fun rc msg hmsg => by
    rw [(afterRecver_idle mode rc).2] at hmsg
    cases hmsg
  cases hstep with
  | @recvfrom msg _ _ hclient _ =>
    have hsent : msg.seqNo ∈ sent tr := h.toClient msg (hclient ▸ List.mem_append_right _ (.head _))
    refine h.next (fun _ => .inl) (fun _ hmsg => .inl (hclient ▸ mem_of_taken hmsg)) ?_ nofun
    rintro _ ⟨⟩
    exact hsent
  | recvfromFails _ => exact h.next (fun _ => .inl) (fun _ => .inl) (hidle _) nofun
  | badMsg hclient _ =>
    exact h.next (fun _ => .inl) (fun _ hmsg => .inl (hclient ▸ mem_of_taken hmsg)) (hidle _) nofun
  | @verify msg _ _ =>
    have hsent : msg.seqNo ∈ sent tr := h.held p msg (congrArg Place.held hl)
    refine h.next (fun _ => .inl) (fun _ => .inl) (hidle _) fun seqNo hseq => ?_
    rw [List.mem_singleton.1 hseq]
    exact hsent

theorem Known.echoer (h : Known tr sh loc) (hl : loc p = l) (hstep : echoerStep sh l e sh' l') :
    Known (tr ++ events p e) sh' (Function.update loc p l') := by
  cases hstep with
  | @recvfrom msg _ _ hserver =>
    have hsent : msg.seqNo ∈ sent tr := h.toServer msg (hserver ▸ List.mem_append_right _ (.head _))
    refine h.next (fun _ hmsg => .inl (hserver ▸ mem_of_taken hmsg)) (fun _ => .inl) ?_ nofun
    rintro _ ⟨⟩
    exact hsent
  | recvfromFails => exact h.next (fun _ => .inl) (fun _ => .inl) nofun nofun
  | sendto =>
    refine h.next (fun _ => .inl) (fun msg hmsg => ?_) nofun nofun
    rcases List.mem_cons.1 hmsg with rfl | hmsg
    · exact .inr (h.held p msg (congrArg Place.held hl))
    · exact .inl hmsg
  | sendtoFails => exact h.next (fun _ => .inl) (fun _ => .inl) nofun nofun

theorem Known.network (h : Known tr sh loc) (hstep : networkStep sh sh') :
    Known (tr ++ events p none) sh' (Function.update loc p .network) := by
  cases hstep with
  | toServer hd => exact h.next (fun _ hmsg => .inl (hd.mem hmsg)) (fun _ => .inl) nofun nofun
  | toClient hd => exact h.next (fun _ => .inl) (fun _ hmsg => .inl (hd.mem hmsg)) nofun nofun

end Steps

theorem known_of_run (h : Run (testUdp mode) (start mode) tr s) : Known tr s.shared s.loc := by
  refine Run.invariant (I := fun tr s => Known tr s.shared s.loc) ?_ ?_ h
  · refine ⟨nofun, nofun, fun p msg hp => ?_, nofun⟩
    cases p <;> cases mode <;> exact nomatch hp
  · intro tr s p e sh l _ ih hstep
    generalize hl₀ : s.loc p = l₀ at hstep
    cases hstep with
    | sender hstep => exact ih.sender hstep
    | recver _ hstep => exact ih.recver hl₀ hstep
    | echoer hstep => exact ih.echoer hl₀ hstep
    | network hstep => exact ih.network hstep

/-- **Detection**: in a run the client judges every full-size message right
just when those it has got are the first ones sent, in the order of sending. -/
theorem detects_iff_in_order (h : Run (testUdp mode) (start mode) tr s) : Detects tr ↔ received tr <+: sent tr := by
  have horder := (numbered_of_run h).order
  rw [detects_iff_numbers (quiet_of_run h)]
  constructor
  · intro hreceived
    rw [hreceived, horder, numbers_prefix_iff]
    cases hk : (received tr).length with
    | zero => exact Nat.zero_le _
    | succ k =>
      -- The last number received has been sent, and so have those before it.
      have hlast : (k : Int) ∈ received tr := by
        rw [hreceived, hk, numbers_succ]
        exact List.mem_append_right _ (List.mem_singleton_self _)
      have hsent := (known_of_run h).received k hlast
      rw [horder] at hsent
      obtain ⟨i, hi, heq⟩ := mem_numbers hsent
      omega
  · intro hprefix
    rw [horder] at hprefix
    exact eq_numbers_of_prefix hprefix

/-! ## Two runs -/

theorem length_newMsg (seqNo : Int) : (newMsg seqNo).length = sizeofMyMsg + packetSize := by
  rw [MyMsg.length, newMsg, List.length_replicate]

theorem recvfrom_newMsg (seqNo : Int) : recvfrom (newMsg seqNo) = newMsg seqNo := by
  rw [recvfrom, newMsg, List.take_replicate, Nat.min_self]

theorem sends (next : Int) (hint : IsInt (next + 1)) (toServer toClient : List MyMsg) :
    Path (testUdp mode) .sender [(.sender, .tx next)] (⟨next, toServer, toClient⟩, .sender)
      (⟨next + 1, newMsg next :: toServer, toClient⟩, mode.afterSender (sizeofMyMsg + packetSize : Nat)) := by
  have hnumber : getMySeqNumber next = .ok (next, next + 1) := by
    rw [getMySeqNumber, int_ok hint]
    rfl
  have hsendto : senderStep mode ⟨next + 1, toServer, toClient⟩ (.sendto (newMsg next)) (some (.tx next))
      ⟨next + 1, newMsg next :: toServer, toClient⟩ (mode.afterSender (sizeofMyMsg + packetSize : Nat)) := by
    rw [← length_newMsg next]
    exact .sendto
  exact Path.quiet (testUdp.sender (.number hnumber)) (Path.single (testUdp.sender hsendto))

theorem echoes (next seqNo : Int) (toServer toClient : List MyMsg) :
    Path (testUdp mode) .echoer [] (⟨next, newMsg seqNo :: toServer, toClient⟩, .echoer)
      (⟨next, toServer, newMsg seqNo :: toClient⟩, .echoer) := by
  have hrecv : echoerStep ⟨next, newMsg seqNo :: toServer, toClient⟩ .echoer none ⟨next, toServer, toClient⟩
      (.echo (recvfrom (newMsg seqNo))) := .recvfrom (l := []) rfl
  rw [recvfrom_newMsg] at hrecv
  exact Path.quiet (testUdp.echoer hrecv) (Path.single (testUdp.echoer .sendto))

theorem receives (next : Int) (hint : IsInt (next + 1)) {p : Party} (hp : p = .sender ∨ p = .recver) (seqNo : Int)
    (toServer toClient : List MyMsg) :
    Path (testUdp mode) p [(p, .rx seqNo 0 false)] (⟨next, toServer, newMsg seqNo :: toClient⟩, .recver)
      (⟨next, toServer, toClient⟩, mode.afterRecver 0) := by
  have hrecv : recverStep mode ⟨next, toServer, newMsg seqNo :: toClient⟩ .recver none ⟨next, toServer, toClient⟩
      (.verify (recvfrom (newMsg seqNo))) :=
    .recvfrom (l := []) rfl (by rw [recvfrom_newMsg, length_newMsg])
  have hok : verifySeqNumber next (newMsg seqNo).seqNo = .ok 0 := by
    rw [verifySeqNumber, int_ok hint]
    rfl
  have hverify : recverStep mode ⟨next, toServer, toClient⟩ (.verify (newMsg seqNo)) (some (.rx seqNo 0 false))
      ⟨next, toServer, toClient⟩ (mode.afterRecver 0) := .verify hok
  rw [recvfrom_newMsg] at hrecv
  exact Path.quiet (testUdp.recver hp hrecv) (Path.single (testUdp.recver hp hverify))

/-- Two messages that the server takes in the wrong order and the client in the
right one, and a third on its way. -/
theorem detects_two_of_three :
    ∃ tr s, Run (testUdp .threads) (start .threads) tr s ∧ sent tr = [0, 1, 2] ∧ received tr = [0, 1] ∧ Detects tr := by
  have hstart : Run (testUdp .threads) (start .threads) [] (start .threads) := .nil
  have hfirst := hstart.path (sends 0 (by decide) [] [])
  have hsecond := hfirst.path (p := .sender) (sends 1 (by decide) [newMsg 0] [])
  have hlate := hsecond.path (p := .echoer) (echoes 2 1 [newMsg 0] [])
  have hechoed := hlate.path (p := .echoer) (echoes 2 0 [] [newMsg 1])
  have hgot := hechoed.path (p := .recver) (receives 2 (by decide) (.inr rfl) 0 [] [newMsg 1])
  have hthird := hgot.path (p := .sender) (sends 2 (by decide) [] [newMsg 1])
  have hboth := hthird.path (p := .recver) (receives 3 (by decide) (.inr rfl) 1 [newMsg 2] [])
  have hprefix : [(0 : Int), 1] <+: [0, 1, 2] := by decide
  exact ⟨_, _, hboth, rfl, rfl, (detects_iff_in_order hboth).2 hprefix⟩

/-- **A loss is not detected**: the first of two messages is lost, and `recver`
takes the second for the first. -/
theorem loss_undetected : ∃ s, Run (testUdp .threads) (start .threads)
    [(.sender, .tx 0), (.sender, .tx 1), (.recver, .rx 1 0 false)] s ∧
      ¬ Detects [(.sender, .tx 0), (.sender, .tx 1), (.recver, .rx 1 0 false)] := by
  have hstart : Run (testUdp .threads) (start .threads) [] (start .threads) := .nil
  have hfirst := hstart.path (sends 0 (by decide) [] [])
  have hsecond := hfirst.path (p := .sender) (sends 1 (by decide) [newMsg 0] [])
  have hdrop : Disturbs [newMsg 1, newMsg 0] [newMsg 1] := .drop (l := [newMsg 1])
  have hlost := hsecond.path (p := .network) (Path.single (.network (.toServer hdrop)))
  have hechoed := hlost.path (p := .echoer) (echoes 2 1 [] [])
  have hgot := hechoed.path (p := .recver) (receives 2 (by decide) (.inr rfl) 1 [] [])
  refine ⟨_, hgot, fun h => ?_⟩
  have hjudged := (h [(.sender, .tx 0), (.sender, .tx 1)] .recver 1 0 false List.prefix_rfl).1
  exact absurd hjudged (by decide)

end SugarNSpice.TestUdp
