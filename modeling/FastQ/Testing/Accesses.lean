import FastQ.Queue.Accesses
import FastQ.Testing.Correctness

/-!
# The memory accesses of `test_spsc_correctness`

The correctness test with the accesses that its threads make to the memory they share: those of the
queue, and the release store and the acquire loads of `done` (`Location.flag`). Here the loads of
the queue and of `done` may be stale. The variables `i`, `value` and `expected` belong to one
thread, and are left out, as is the `start` flag.

* `queueAct`: the step of the queue that a turn makes.
* `TracedTest.step`: a step of the test, its loads `k` stores behind, with its accesses.
-/

namespace FastQ

namespace Correctness

/-- The step of the queue that a turn makes, if any. -/
def queueAct (b : Correctness) : Turn → Option (Act (BitVec 64))
  | .producer =>
    match b.producer with
    | .call => some (.push b.i)
    | .inside =>
      match b.s.producer with
      | .idle (some (.push _)) => none
      | _ => some (.producer 0)
    | _ => none
  | .consumer _ =>
    match b.consumer with
    | .call | .drainCall => some .pop
    | .flushCall => some .consumerFlush
    | .inside | .drainInside =>
      match b.s.consumer with
      | .idle (some (.pop _)) => none
      | _ => some (.consumer 0)
    | .flushInside =>
      match b.s.consumer with
      | .idle (some .flush) => none
      | _ => some (.consumer 0)
    | _ => none

/-- The same step with a load `k` stores behind. -/
def behind (k : Nat) : Act (BitVec 64) → Act (BitVec 64)
  | .producer _ => .producer k
  | .consumer _ => .consumer k
  | a => a

/-- The step of the queue that a turn makes, with a load `k` stores behind. -/
def queueActAt (k : Nat) (b : Correctness) (u : Turn) : Option (Act (BitVec 64)) :=
  (b.queueAct u).map (behind k)

end Correctness

/-- The test, and the stores that loads may read; `done` is the store of the flag. -/
structure TracedTest where
  b : Correctness
  src : Sources
  done : Option Nat

namespace TracedTest

open Correctness

/-- Before the first step. -/
def start (q : SPSC (BitVec 64) (BitVec 64)) : TracedTest := ⟨.start q, .start, none⟩

variable (PublishBatch N : BitVec 64)

/-- The accesses of a step that is not inside a call of the queue, but for `empty()`. -/
def otherAccesses (k : Nat) (T : TracedTest) : Turn → List (Access Party (Location (BitVec 64)))
  | .producer =>
    match T.b.producer with
    | .check => if T.b.i < N then [] else [⟨.producer, .flag, .release⟩]
    | _ => []
  | .consumer readerFirst =>
    match T.b.consumer with
    | .loadDone => [⟨.consumer, .flag, .acquire (if k = 0 then T.done else none)⟩]
    | .empty => [⟨.consumer, .shared (if readerFirst then .consumer else .producer), .relaxed⟩]
    | .loadedWriter _ => [⟨.consumer, .shared .consumer, .relaxed⟩]
    | .loadedReader _ => [⟨.consumer, .shared .producer, .relaxed⟩]
    | _ => []

/-- The accesses of a step. -/
def accesses (k : Nat) (T : TracedTest) (u : Turn) : List (Access Party (Location (BitVec 64))) :=
  match T.b.queueActAt k u with
  | some a => T.b.s.accesses T.src a
  | none => otherAccesses N k T u

/-- The stores that loads may read after a step. -/
def sources (k : Nat) (T : TracedTest) (u : Turn) : Sources :=
  match T.b.queueActAt k u with
  | some a => T.b.s.sources T.src a
  | none => { T.src with clock := T.src.clock + (otherAccesses N k T u).length }

/-- The producer's step, with a load `k` stores behind. -/
def stepProducer (k : Nat) (b : Correctness) : Option Correctness :=
  match b.queueActAt k .producer with
  | some (.producer k) => (access PublishBatch b (.producer k) []).map Prod.fst
  | _ => (b.stepProducer PublishBatch N).map Prod.fst

/-- The consumer's step, with a load `k` stores behind. A stale load of `done` gives `false`. -/
def stepConsumer (k : Nat) (readerFirst : Bool) (b : Correctness) : Option Correctness :=
  match b.queueActAt k (.consumer readerFirst), b.consumer with
  | some (.consumer k), _ => (access PublishBatch b (.consumer k) []).map Prod.fst
  | _, .loadDone =>
    if k = 0 then (b.stepConsumer PublishBatch N readerFirst).map Prod.fst
    else some { b with consumer := .call }
  | _, _ => (b.stepConsumer PublishBatch N readerFirst).map Prod.fst

/-- A step of the test, with a load `k` stores behind. -/
def next (k : Nat) (b : Correctness) : Turn → Option Correctness
  | .producer => stepProducer PublishBatch N k b
  | .consumer readerFirst => stepConsumer PublishBatch N k readerFirst b

/-- A step of the test, with its accesses. -/
def step (T : TracedTest) (a : Turn × Nat) :
    Option (TracedTest × List (Access Party (Location (BitVec 64)))) :=
  (next PublishBatch N a.2 T.b a.1).map fun b =>
    (⟨b, sources N a.2 T a.1, if b.done && !T.b.done then some T.src.clock else T.done⟩,
      accesses N a.2 T a.1)

end TracedTest

/-- `test_spsc_correctness` for `N` elements, with its memory accesses. -/
def tracedTest (PublishBatch N : BitVec 64) :
    Machine TracedTest (Turn × Nat) (Access Party (Location (BitVec 64))) :=
  ⟨TracedTest.step PublishBatch N⟩

end FastQ
