/-
`producer_test.c`: a producer and a consumer that share a ring, with nothing
between them but the two heads.

Steps are the accesses to what is shared: the store into the ring, with the
increment of the counter that only the producer uses, the advance of a head,
the comparison of the heads, and the print of a value from the ring. The
delays (`loop` in the producer, `sleep` in the consumer) take any time.
-/
import SugarNSpice.Processes

namespace SugarNSpice.ProducerTest

open Processes

def dataSz : Nat := 204800

def consumeRate : Nat := 100

/-- `k % DATA_SZ`. -/
def slot (k : Nat) : Fin dataSz := ⟨k % dataSz, Nat.mod_lt k (Nat.succ_pos _)⟩

structure Shared where
  data : Fin dataSz → BitVec 32
  producerHead : Fin dataSz
  dIProducer : BitVec 32
  consumerHead : Fin dataSz

inductive Thread where
  | producer
  | consumer
  deriving DecidableEq, Repr

inductive Pc where
  /-- The producer, before `data[producer_head] = _d_i_producer++`. -/
  | store
  /-- The producer, before it advances `producer_head`. -/
  | advance
  /-- The consumer, before the condition of its `for`. -/
  | test (i : Nat)
  | print (i : Nat)
  /-- The consumer, before it advances `consumer_head`. -/
  | next (i : Nat)
  | sleep
  deriving DecidableEq, Repr

/-- A value was stored, or a number printed. -/
inductive Event where
  | produced
  | printed (v : Int)
  deriving DecidableEq, Repr

inductive producerThread : Shared → Pc → Option Event → Shared → Pc → Prop
  | store {sh} : producerThread sh .store (some .produced)
      { sh with data := Function.update sh.data sh.producerHead sh.dIProducer, dIProducer := sh.dIProducer + 1 } .advance
  | advance {sh} : producerThread sh .advance none { sh with producerHead := slot (sh.producerHead + 1) } .store

inductive consumerThread : Shared → Pc → Option Event → Shared → Pc → Prop
  | test {sh i} : i < consumeRate → sh.consumerHead ≠ sh.producerHead →
      consumerThread sh (.test i) none sh (.print i)
  | testFails {sh i} : ¬ (i < consumeRate ∧ sh.consumerHead ≠ sh.producerHead) →
      consumerThread sh (.test i) none sh .sleep
  | print {sh i} : consumerThread sh (.print i) (some (.printed (sh.data sh.consumerHead).toInt)) sh (.next i)
  | next {sh i} :
      consumerThread sh (.next i) none { sh with consumerHead := slot (sh.consumerHead + 1) } (.test (i + 1))
  | sleep {sh} : consumerThread sh .sleep none sh (.test 0)

inductive producerTest : Program Thread Shared Pc Event
  | producer {sh l e sh' l'} : producerThread sh l e sh' l' → producerTest .producer sh l e sh' l'
  | consumer {sh l e sh' l'} : consumerThread sh l e sh' l' → producerTest .consumer sh l e sh' l'

/-- Both threads created, all globals 0. -/
def start : State Thread Shared Pc :=
  ⟨⟨fun _ => 0, slot 0, 0, slot 0⟩, fun p =>
    match p with
    | .producer => .store
    | .consumer => .test 0⟩

abbrev Trace := List (Thread × Event)

/-- How many values have been stored. -/
def produced (tr : Trace) : Nat := tr.countP fun x => x.2 = .produced

/-- The numbers printed so far. -/
def printed (tr : Trace) : List Int :=
  tr.filterMap fun x =>
    match x.2 with
    | .produced => none
    | .printed v => some v

end SugarNSpice.ProducerTest
