import FastQ.Queue.Steps

/-!
# `run_spsc_benchmark`

The two threads of the benchmark over a queue, and the main thread that sets `stop`. A step is one
access of a thread: a load of `stop`, or an access inside a `push` or a `pop`, with loads that
return the newest value. The threads interleave in any order, and `stop` is set once, at any time.

Left out: the `ready`/`start` handshake, which only delays the first step of the threads; the
pinning, the yield of the retry loop and the clock; the sums of the consumer, which no step reads
back. `FastQ/Testing/Results.lean` adds the handshake and the sums.
-/

namespace FastQ

/-- Where the producer thread is. -/
inductive ProducerThread where
  /-- `while (!stop.load())`. -/
  | check
  /-- `while (!push(q, payload))`, before the call. -/
  | call
  /-- Inside the call, or at its result. -/
  | inside
  | returned
  deriving DecidableEq, Repr

/-- Where the consumer thread is. -/
inductive ConsumerThread where
  /-- `while (!stop.load())`. -/
  | check
  /-- `if (pop(q, payload))`, before the call. -/
  | call
  | inside
  /-- `while (pop(q, payload))`, before the call. -/
  | drainCall
  | drainInside
  | returned
  deriving DecidableEq, Repr

/-- The queue, the threads and the flag. -/
structure Benchmark where
  s : State (BitVec 64) (BitVec 64)
  payload : BitVec 64
  producer : ProducerThread
  consumer : ConsumerThread
  stop : Bool

/-- Whose step it is. -/
inductive Thread where
  | producer
  | consumer
  | main
  deriving DecidableEq, Repr

namespace Benchmark

/-- Before the first step. -/
def start (q : SPSC (BitVec 64) (BitVec 64)) : Benchmark :=
  ⟨State.start q, 0, .check, .check, false⟩

variable (PublishBatch : BitVec 64)

/-- A step of the queue. -/
def access (b : Benchmark) (a : Act (BitVec 64)) :
    Option (Benchmark × List (Event (BitVec 64) (BitVec 64))) :=
  ((spsc PublishBatch).step b.s a).map fun (s, e) => ({ b with s }, e)

/-- A step of the producer thread. -/
def stepProducer (b : Benchmark) : Option (Benchmark × List (Event (BitVec 64) (BitVec 64))) :=
  match b.producer with
  | .check =>
    if b.stop then some ({ b with producer := .returned }, [])
    else some ({ b with producer := .call }, [])
  | .call => access PublishBatch { b with producer := .inside } (.push b.payload)
  | .inside =>
    match b.s.producer with
    | .idle (some (.push true)) =>
      some ({ b with payload := b.payload + 1, producer := .check }, [])
    | .idle (some (.push false)) => some ({ b with producer := .call }, [])
    | _ => access PublishBatch b (.producer 0)
  | .returned => none

/-- A step of the consumer thread. -/
def stepConsumer (b : Benchmark) : Option (Benchmark × List (Event (BitVec 64) (BitVec 64))) :=
  match b.consumer with
  | .check =>
    if b.stop then some ({ b with consumer := .drainCall }, [])
    else some ({ b with consumer := .call }, [])
  | .call => access PublishBatch { b with consumer := .inside } .pop
  | .inside =>
    match b.s.consumer with
    | .idle (some (.pop _)) => some ({ b with consumer := .check }, [])
    | _ => access PublishBatch b (.consumer 0)
  | .drainCall => access PublishBatch { b with consumer := .drainInside } .pop
  | .drainInside =>
    match b.s.consumer with
    | .idle (some (.pop r)) =>
      if r.isSome then some ({ b with consumer := .drainCall }, [])
      else some ({ b with consumer := .returned }, [])
    | _ => access PublishBatch b (.consumer 0)
  | .returned => none

/-- `stop.store(true)` of the main thread. -/
def stepMain (b : Benchmark) : Option (Benchmark × List (Event (BitVec 64) (BitVec 64))) :=
  if b.stop then none else some ({ b with stop := true }, [])

def step (b : Benchmark) : Thread → Option (Benchmark × List (Event (BitVec 64) (BitVec 64)))
  | .producer => stepProducer PublishBatch b
  | .consumer => stepConsumer PublishBatch b
  | .main => stepMain b

end Benchmark

/-- `run_spsc_benchmark`, as a machine. -/
def runSpscBenchmark (PublishBatch : BitVec 64) :
    Machine Benchmark Thread (Event (BitVec 64) (BitVec 64)) := ⟨Benchmark.step PublishBatch⟩

end FastQ
