import FastQ.Queue.Steps

/-!
# `test_spsc_correctness`

The two threads of the correctness test over a queue, for any number `N` of elements. A step is one
access of a thread: a load or the store of `done`, one of the two loads of `empty()`, or an access
inside a `push`, a `pop` or the `flush`, with loads that return the newest value. The threads
interleave in any order. The loads of `empty()` are operands of one `==`, so they come in either
order.

Left out: the `start` flag, which only delays the first step of the producer, and the messages.
-/

namespace FastQ

/-- Where the producer of the test is. -/
inductive TestProducer where
  /-- `i < N`; when this fails, `done.store(true)`. -/
  | check
  /-- `while (!q.push(i))`, before the call. -/
  | call
  /-- Inside the call, or at its result. -/
  | inside
  | returned
  deriving DecidableEq, Repr

/-- Where the consumer of the test is. -/
inductive TestConsumer where
  /-- `!done.load()`. -/
  | loadDone
  /-- `!q.empty()`, before its loads. -/
  | empty
  /-- In `empty()`, with `writer_` loaded. -/
  | loadedWriter (x : BitVec 64)
  /-- In `empty()`, with `reader_` loaded. -/
  | loadedReader (y : BitVec 64)
  /-- `if (q.pop(value))`, before the call. -/
  | call
  | inside
  /-- `q.flush()`, before the call. -/
  | flushCall
  | flushInside
  /-- `while (q.pop(value))`, before the call. -/
  | drainCall
  | drainInside
  /-- `if (expected != N)`. -/
  | finished
  | passed
  /-- `std::abort()`. -/
  | aborted
  deriving DecidableEq, Repr

/-- The queue, the threads with their variables, and the flag. -/
structure Correctness where
  s : State (BitVec 64) (BitVec 64)
  i : BitVec 64
  producer : TestProducer
  done : Bool
  expected : BitVec 64
  consumer : TestConsumer

/-- Whose step it is. The consumer in `empty()` loads `reader_` first, or `writer_`. -/
inductive Turn where
  | producer
  | consumer (readerFirst : Bool)
  deriving DecidableEq, Repr

/-- What a step shows: the consumer starts an iteration of its first loop. -/
inductive Loop where
  | iterate
  deriving DecidableEq, Repr

namespace Correctness

/-- Before the first step. -/
def start (q : SPSC (BitVec 64) (BitVec 64)) : Correctness :=
  ⟨State.start q, 0, .check, false, 0, .loadDone⟩

variable (PublishBatch N : BitVec 64)

/-- A step of the queue. -/
def access (b : Correctness) (a : Act (BitVec 64)) (es : List Loop) :
    Option (Correctness × List Loop) :=
  ((spsc PublishBatch).step b.s a).map fun (s, _) => ({ b with s }, es)

/-- A step of the producer. -/
def stepProducer (b : Correctness) : Option (Correctness × List Loop) :=
  match b.producer with
  | .check =>
    if b.i < N then some ({ b with producer := .call }, [])
    else some ({ b with done := true, producer := .returned }, [])
  | .call => access PublishBatch { b with producer := .inside } (.push b.i) []
  | .inside =>
    match b.s.producer with
    | .idle (some (.push true)) => some ({ b with i := b.i + 1, producer := .check }, [])
    | .idle (some (.push false)) => some ({ b with producer := .call }, [])
    | _ => access PublishBatch b (.producer 0) []
  | .returned => none

/-- The result of a `pop`: an element is checked and counted, and the loop goes on at `next`;
without one the consumer is at `last`. -/
def count (b : Correctness) (next last : TestConsumer) : Option (BitVec 64) → Correctness
  | some value =>
    if value ≠ b.expected then { b with consumer := .aborted }
    else { b with expected := b.expected + 1, consumer := next }
  | none => { b with consumer := last }

/-- The result of `empty()`: the first loop ends, or goes on. -/
def test (b : Correctness) (writer reader : BitVec 64) : Correctness :=
  if writer = reader then { b with consumer := .flushCall } else { b with consumer := .call }

/-- A step of the consumer. -/
def stepConsumer (readerFirst : Bool) (b : Correctness) : Option (Correctness × List Loop) :=
  match b.consumer with
  | .loadDone =>
    if b.done then some ({ b with consumer := .empty }, [])
    else some ({ b with consumer := .call }, [])
  | .empty =>
    if readerFirst then some ({ b with consumer := .loadedReader b.s.q.reader.value }, [])
    else some ({ b with consumer := .loadedWriter b.s.q.writer.value }, [])
  | .loadedWriter x => some (b.test x b.s.q.reader.value, [])
  | .loadedReader y => some (b.test b.s.q.writer.value y, [])
  | .call => access PublishBatch { b with consumer := .inside } .pop [.iterate]
  | .inside =>
    match b.s.consumer with
    | .idle (some (.pop r)) => some (b.count .loadDone .loadDone r, [])
    | _ => access PublishBatch b (.consumer 0) []
  | .flushCall => access PublishBatch { b with consumer := .flushInside } .consumerFlush []
  | .flushInside =>
    match b.s.consumer with
    | .idle (some .flush) => some ({ b with consumer := .drainCall }, [])
    | _ => access PublishBatch b (.consumer 0) []
  | .drainCall => access PublishBatch { b with consumer := .drainInside } .pop []
  | .drainInside =>
    match b.s.consumer with
    | .idle (some (.pop r)) => some (b.count .drainCall .finished r, [])
    | _ => access PublishBatch b (.consumer 0) []
  | .finished =>
    if b.expected ≠ N then some ({ b with consumer := .aborted }, [])
    else some ({ b with consumer := .passed }, [])
  | .passed => none
  | .aborted => none

def step (b : Correctness) : Turn → Option (Correctness × List Loop)
  | .producer => stepProducer PublishBatch N b
  | .consumer readerFirst => stepConsumer PublishBatch N readerFirst b

end Correctness

/-- `test_spsc_correctness` for `N` elements, as a machine. -/
def testSpscCorrectness (PublishBatch N : BitVec 64) : Machine Correctness Turn Loop :=
  ⟨Correctness.step PublishBatch N⟩

end FastQ
