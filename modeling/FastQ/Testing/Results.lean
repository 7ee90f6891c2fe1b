import FastQ.Testing.Benchmark

/-!
# What `run_spsc_benchmark` measures

The benchmark with what `FastQ/Testing/Benchmark.lean` leaves out: the `ready`/`start` handshake of
the threads, the sums of the consumer, and the main thread with its two joins. The value that it
returns is made of `ops` and `sum`; the clock, by which it divides `ops`, is left out, as are the
pinning and the yield.

* `Measurement.tally`: what the consumer does with the result of a pop, beside going on.
* A thread that is not in its loops yet is at its `ready.fetch_add(1)` or spins on `start`.
* A spin that does not end is a step that changes nothing; a join that has to wait is not enabled.
-/

namespace FastQ

/-- Where a thread is before its loops. -/
inductive Startup where
  /-- `ready.fetch_add(1)`. -/
  | announce
  /-- `while (!start.load())`. -/
  | await
  | running
  deriving DecidableEq, Repr

/-- Where the main thread is. -/
inductive MainThread where
  /-- `while (ready.load() < 2)`. -/
  | awaitReady
  /-- `start.store(true)`. -/
  | storeStart
  /-- `stop.store(true)`, after the sleep. -/
  | storeStop
  /-- `producer.join()`. -/
  | joinProducer
  /-- `consumer.join()`. -/
  | joinConsumer
  | returned
  deriving DecidableEq, Repr

/-- The loops of the threads, and the variables around them. -/
structure Measurement where
  b : Benchmark
  producer : Startup
  consumer : Startup
  main : MainThread
  ready : Nat
  start : Bool
  localOps : BitVec 64
  localSum : BitVec 64
  ops : BitVec 64
  sum : BitVec 64

namespace Measurement

/-- Before the first step. -/
def begin (q : SPSC (BitVec 64) (BitVec 64)) : Measurement :=
  ⟨.start q, .announce, .announce, .awaitReady, 0, false, 0, 0, 0, 0⟩

/-- What the consumer does with the result of its pop. -/
def tally (r : Measurement) : Measurement :=
  match r.b.consumer, r.b.s.consumer with
  | .inside, .idle (some (.pop (some payload))) =>
    { r with localSum := r.localSum + payload, localOps := r.localOps + 1 }
  | .drainInside, .idle (some (.pop (some payload))) =>
    { r with localSum := r.localSum + payload }
  | .drainInside, .idle (some (.pop none)) => { r with ops := r.localOps, sum := r.localSum }
  | _, _ => r

variable (PublishBatch : BitVec 64)

/-- A step of the producer thread. -/
def stepProducer (r : Measurement) : Option (Measurement × List (Event (BitVec 64) (BitVec 64))) :=
  match r.producer with
  | .announce => some ({ r with ready := r.ready + 1, producer := .await }, [])
  | .await => some (if r.start then { r with producer := .running } else r, [])
  | .running => (r.b.stepProducer PublishBatch).map fun (b, e) => ({ r with b }, e)

/-- A step of the consumer thread. -/
def stepConsumer (r : Measurement) : Option (Measurement × List (Event (BitVec 64) (BitVec 64))) :=
  match r.consumer with
  | .announce => some ({ r with ready := r.ready + 1, consumer := .await }, [])
  | .await => some (if r.start then { r with consumer := .running } else r, [])
  | .running => (r.b.stepConsumer PublishBatch).map fun (b, e) => ({ r.tally with b }, e)

/-- A step of the main thread. -/
def stepMain (r : Measurement) : Option (Measurement × List (Event (BitVec 64) (BitVec 64))) :=
  match r.main with
  | .awaitReady => some (if r.ready < 2 then r else { r with main := .storeStart }, [])
  | .storeStart => some ({ r with start := true, main := .storeStop }, [])
  | .storeStop => r.b.stepMain.map fun (b, e) => ({ r with b, main := .joinProducer }, e)
  | .joinProducer =>
    if r.b.producer = .returned then some ({ r with main := .joinConsumer }, []) else none
  | .joinConsumer =>
    if r.b.consumer = .returned then some ({ r with main := .returned }, []) else none
  | .returned => none

def step (r : Measurement) : Thread → Option (Measurement × List (Event (BitVec 64) (BitVec 64)))
  | .producer => r.stepProducer PublishBatch
  | .consumer => r.stepConsumer PublishBatch
  | .main => r.stepMain

end Measurement

/-- The whole of `run_spsc_benchmark`, as a machine. -/
def measurement (PublishBatch : BitVec 64) :
    Machine Measurement Thread (Event (BitVec 64) (BitVec 64)) := ⟨Measurement.step PublishBatch⟩

end FastQ
