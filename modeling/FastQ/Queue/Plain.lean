import FastQ.Queue.Script

/-!
# The queue without its cached indices

`PlainSPSC` is `SPSC` without `cachedReader_` and `cachedWriter_`: `push` loads `reader_` in every
call and `pop` loads `writer_`, and everything else is as in `SPSC`. It says what the caches are an
optimisation of: `SPSC.plain` forgets them, and `FastQ/Proofs/Caches.lean` shows that nothing else
is lost.
-/

namespace FastQ

/-- `ProducerState` without its cache. -/
structure PlainProducer (κ : Type) where
  localWriter : κ
  lastPublished : κ
  deriving DecidableEq, Repr

/-- `ConsumerState` without its cache. -/
structure PlainConsumer (κ : Type) where
  localReader : κ
  lastPublished : κ
  deriving DecidableEq, Repr

/-- The data members of `SPSC` without the caches. -/
structure PlainSPSC (α κ : Type) where
  buffer : κ → α
  writer : κ
  reader : κ
  mask : κ
  capacity : κ
  producer : PlainProducer κ
  consumer : PlainConsumer κ

/-- Forgets the caches. -/
def SPSC.plain {α κ : Type} (q : SPSC α κ) : PlainSPSC α κ where
  buffer := q.buffer
  writer := q.writer.value
  reader := q.reader.value
  mask := q.mask
  capacity := q.capacity
  producer := ⟨q.producer.localWriter, q.producer.lastPublished⟩
  consumer := ⟨q.consumer.localReader, q.consumer.lastPublished⟩

namespace PlainSPSC

variable {α κ : Type}

/-- `publish_writer`. -/
def publishWriter (q : PlainSPSC α κ) : PlainSPSC α κ :=
  { q with
    writer := q.producer.localWriter
    producer := { q.producer with lastPublished := q.producer.localWriter } }

/-- `publish_reader`. -/
def publishReader (q : PlainSPSC α κ) : PlainSPSC α κ :=
  { q with
    reader := q.consumer.localReader
    consumer := { q.consumer with lastPublished := q.consumer.localReader } }

/-- `flush`. -/
def flush (q : PlainSPSC α κ) : PlainSPSC α κ := q.publishReader.publishWriter

/-- The constructor. -/
def new [OfNat κ 0] [OfNat κ 1] [Sub κ] [AndOp κ] [DecidableEq κ] (capacity : κ) (memory : κ → α) :
    Except Error (PlainSPSC α κ) :=
  if capacity = 0 ∨ capacity &&& (capacity - 1) ≠ 0 then
    .error (.invalidArgument "Capacity must be non-zero power of 2")
  else
    .ok {
      buffer := memory
      writer := 0
      reader := 0
      mask := capacity - 1
      capacity := capacity
      producer := ⟨0, 0⟩
      consumer := ⟨0, 0⟩ }

section Calls

variable [OfNat κ 1] [Add κ] [Sub κ] [AndOp κ] [LE κ] [DecidableEq κ] [DecidableLE κ]

/-- The full check, of the value of `reader_`. -/
def isFull (q : PlainSPSC α κ) : Bool := q.producer.localWriter - q.reader = q.capacity

/-- The empty check, of the value of `writer_`. -/
def isEmpty (q : PlainSPSC α κ) : Bool := q.consumer.localReader = q.writer

/-- The second half of `push`, once there is room. -/
def enqueue (PublishBatch : κ) (q : PlainSPSC α κ) (data : α) : PlainSPSC α κ :=
  let q := { q with
    buffer := Function.update q.buffer (q.producer.localWriter &&& q.mask) data
    producer := { q.producer with localWriter := q.producer.localWriter + 1 } }
  if PublishBatch ≤ q.producer.localWriter - q.producer.lastPublished then q.publishWriter else q

/-- `push`. -/
def push (PublishBatch : κ) (q : PlainSPSC α κ) (data : α) : Bool × PlainSPSC α κ :=
  if q.isFull then (false, q.publishWriter) else (true, q.enqueue PublishBatch data)

/-- The second half of `pop`, once there is an element. -/
def dequeue (PublishBatch : κ) (q : PlainSPSC α κ) : Option α × PlainSPSC α κ :=
  let data := q.buffer (q.consumer.localReader &&& q.mask)
  let q := { q with consumer := { q.consumer with localReader := q.consumer.localReader + 1 } }
  (some data, if PublishBatch ≤ q.consumer.localReader - q.consumer.lastPublished
    then q.publishReader else q)

/-- `pop`. -/
def pop (PublishBatch : κ) (q : PlainSPSC α κ) : Option α × PlainSPSC α κ :=
  if q.isEmpty then (none, q.publishReader) else q.dequeue PublishBatch

/-- `size`. -/
def size (q : PlainSPSC α κ) : κ := q.writer - q.reader

/-- `empty`. -/
def empty (q : PlainSPSC α κ) : Bool := q.writer = q.reader

/-- One call. -/
def call (PublishBatch : κ) (q : PlainSPSC α κ) : Call α → PlainSPSC α κ × List (Answer α κ)
  | .push data => ((q.push PublishBatch data).2, [.push (q.push PublishBatch data).1])
  | .pop => ((q.pop PublishBatch).2, [.pop (q.pop PublishBatch).1])
  | .flush => (q.flush, [])
  | .size => (q, [.size q.size])
  | .empty => (q, [.empty q.empty])

end Calls

end PlainSPSC

/-- The plain queue, as a machine whose steps are whole calls. -/
def plainCalls {α κ : Type} [OfNat κ 1] [Add κ] [Sub κ] [AndOp κ] [LE κ] [DecidableEq κ]
    [DecidableLE κ] (PublishBatch : κ) : Machine (PlainSPSC α κ) (Call α) (Answer α κ) :=
  ⟨fun q c => some (q.call PublishBatch c)⟩

end FastQ
