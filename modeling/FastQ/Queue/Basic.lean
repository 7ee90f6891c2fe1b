import Mathlib.Logic.Function.Basic

/-!
# The queue `fastq::SPSC` and its calls, run one at a time

The data members of the class and its member functions, as `spsc_queue.hpp` has them. The counter
type `κ` is a parameter: `BitVec 64` is the code's `std::size_t`, and `Nat` is the same program with
counters that never wrap (`FastQ/Proofs/Lockstep.lean` relates the two). The element type `α` is the
template parameter `T`; `PublishBatch` is an argument of the calls that use it.

A call here runs from its start to its return with no other call in between, and its loads return
the newest value. `FastQ/Queue/Steps.lean` breaks the calls into their accesses, and
`FastQ/Proofs/Alone.lean` shows that a call whose accesses are not interrupted is the function here.

* `Atomic`: one of the two shared counters. Besides its value it records the older values that the
  party which loads it may still see: those stored at or after the value it read last. The party
  that loads `writer_` is the consumer, the one that loads `reader_` is the producer.
* The buffer is a function of the slot number. `allocate` does not initialise it, so the constructor
  takes the contents of the fresh memory as an argument.
-/

namespace FastQ

/-- What the constructor throws. -/
inductive Error where
  | invalidArgument (what : String)
  deriving DecidableEq, Repr

/-- A shared counter (module doc): its value, and the older values that its loading party may still
see, newest first. -/
structure Atomic (κ : Type) where
  value : κ
  stale : List κ
  deriving DecidableEq, Repr

namespace Atomic

variable {κ : Type}

/-- The values that a load by the loading party may return, newest first. -/
def visible (a : Atomic κ) : List κ := a.value :: a.stale

/-- A store by a party that does not load this counter. -/
def store (a : Atomic κ) (x : κ) : Atomic κ := ⟨x, a.value :: a.stale⟩

/-- A store by the loading party itself: from then on it reads this value or a newer one. -/
def overwrite (_ : Atomic κ) (x : κ) : Atomic κ := ⟨x, []⟩

/-- An acquire load by the loading party that returns the value `k` stores behind the newest. The
values older than that one are not seen again. -/
def load (a : Atomic κ) (k : Nat) : Option (κ × Atomic κ) :=
  (a.visible[k]?).map fun x => (x, ⟨a.value, a.stale.take k⟩)

/-- The load of the newest value. -/
def loadNewest (a : Atomic κ) : κ × Atomic κ := (a.value, ⟨a.value, []⟩)

theorem load_zero (a : Atomic κ) : a.load 0 = some a.loadNewest := by
  simp [load, visible, loadNewest]

end Atomic

/-- `ProducerState`: what only the producer uses (but `flush`). -/
structure ProducerState (κ : Type) where
  localWriter : κ
  cachedReader : κ
  lastPublished : κ
  deriving DecidableEq, Repr

/-- `ConsumerState`: what only the consumer uses (but `flush`). -/
structure ConsumerState (κ : Type) where
  localReader : κ
  cachedWriter : κ
  lastPublished : κ
  deriving DecidableEq, Repr

/-- The data members of `SPSC`. -/
structure SPSC (α κ : Type) where
  buffer : κ → α
  writer : Atomic κ
  reader : Atomic κ
  mask : κ
  capacity : κ
  producer : ProducerState κ
  consumer : ConsumerState κ

namespace SPSC

/-! ## Single accesses -/

section Accesses

variable {α κ : Type}

/-- `writer_.value_.store(x)` by the producer. -/
def storeWriter (q : SPSC α κ) (x : κ) : SPSC α κ := { q with writer := q.writer.store x }

/-- `reader_.value_.store(x)` by the consumer. -/
def storeReader (q : SPSC α κ) (x : κ) : SPSC α κ := { q with reader := q.reader.store x }

/-- `writer_.value_.store(x)` by the consumer, in `flush`. -/
def overwriteWriter (q : SPSC α κ) (x : κ) : SPSC α κ := { q with writer := q.writer.overwrite x }

/-- `reader_.value_.store(x)` by the producer, in `flush`. -/
def overwriteReader (q : SPSC α κ) (x : κ) : SPSC α κ := { q with reader := q.reader.overwrite x }

/-- `producer_.lastPublished_ = x`. -/
def markWriter (q : SPSC α κ) (x : κ) : SPSC α κ :=
  { q with producer := { q.producer with lastPublished := x } }

/-- `consumer_.lastPublished_ = x`. -/
def markReader (q : SPSC α κ) (x : κ) : SPSC α κ :=
  { q with consumer := { q.consumer with lastPublished := x } }

/-- `producer_.cachedReader_ = reader_.value_.load()`, the load having given `p`. -/
def cacheReader (q : SPSC α κ) (p : κ × Atomic κ) : SPSC α κ :=
  { q with reader := p.2, producer := { q.producer with cachedReader := p.1 } }

/-- `consumer_.cachedWriter_ = writer_.value_.load()`, the load having given `p`. -/
def cacheWriter (q : SPSC α κ) (p : κ × Atomic κ) : SPSC α κ :=
  { q with writer := p.2, consumer := { q.consumer with cachedWriter := p.1 } }

section

variable [AndOp κ]

/-- `localWriter_ & mask_`. -/
def writeIndex (q : SPSC α κ) : κ := q.producer.localWriter &&& q.mask

/-- `localReader_ & mask_`. -/
def readIndex (q : SPSC α κ) : κ := q.consumer.localReader &&& q.mask

/-- `buffer_[localWriter_ & mask_] = data`. -/
def writeSlot [DecidableEq κ] (q : SPSC α κ) (data : α) : SPSC α κ :=
  { q with buffer := Function.update q.buffer q.writeIndex data }

/-- `buffer_[localReader_ & mask_]`. -/
def readSlot (q : SPSC α κ) : α := q.buffer q.readIndex

end

section

variable [Add κ] [OfNat κ 1]

/-- `++localWriter_`. -/
def advanceWriter (q : SPSC α κ) : SPSC α κ :=
  { q with producer := { q.producer with localWriter := q.producer.localWriter + 1 } }

/-- `++localReader_`. -/
def advanceReader (q : SPSC α κ) : SPSC α κ :=
  { q with consumer := { q.consumer with localReader := q.consumer.localReader + 1 } }

end

end Accesses

/-! ## The tests of `push` and `pop` -/

section Tests

variable {α κ : Type} [Sub κ] [LE κ] [DecidableEq κ] [DecidableLE κ]

/-- The full check of `push`. -/
def isFull (q : SPSC α κ) : Bool :=
  q.producer.localWriter - q.producer.cachedReader = q.capacity

/-- The batch test of `push`. -/
def pushDue (PublishBatch : κ) (q : SPSC α κ) : Bool :=
  PublishBatch ≤ q.producer.localWriter - q.producer.lastPublished

/-- The empty check of `pop`. -/
def isEmpty (q : SPSC α κ) : Bool := q.consumer.localReader = q.consumer.cachedWriter

/-- The batch test of `pop`. -/
def popDue (PublishBatch : κ) (q : SPSC α κ) : Bool :=
  PublishBatch ≤ q.consumer.localReader - q.consumer.lastPublished

end Tests

/-! ## The member functions -/

section Calls

variable {α κ : Type}

/-- `publish_writer`. -/
def publishWriter (q : SPSC α κ) : SPSC α κ :=
  let q := q.storeWriter q.producer.localWriter
  q.markWriter q.producer.localWriter

/-- `publish_reader`. -/
def publishReader (q : SPSC α κ) : SPSC α κ :=
  let q := q.storeReader q.consumer.localReader
  q.markReader q.consumer.localReader

/-- `flush`. -/
def flush (q : SPSC α κ) : SPSC α κ := q.publishReader.publishWriter

section New

variable [OfNat κ 0] [OfNat κ 1] [Sub κ]

/-- The members after the constructor, for a capacity that it accepts. -/
def fresh (capacity : κ) (memory : κ → α) : SPSC α κ where
  buffer := memory
  writer := ⟨0, []⟩
  reader := ⟨0, []⟩
  mask := capacity - 1
  capacity := capacity
  producer := ⟨0, 0, 0⟩
  consumer := ⟨0, 0, 0⟩

/-- The constructor. `memory` is what the allocated slots hold. -/
def new [AndOp κ] [DecidableEq κ] (capacity : κ) (memory : κ → α) : Except Error (SPSC α κ) :=
  if capacity = 0 ∨ capacity &&& (capacity - 1) ≠ 0 then
    .error (.invalidArgument "Capacity must be non-zero power of 2")
  else .ok (fresh capacity memory)

/-- What the constructor accepts, and what it makes of it. -/
theorem new_eq [AndOp κ] [DecidableEq κ] {capacity : κ} {memory : κ → α} {q : SPSC α κ}
    (h : new capacity memory = .ok q) :
    q = fresh capacity memory ∧ capacity ≠ 0 ∧ capacity &&& (capacity - 1) = 0 := by
  unfold new at h
  split at h
  · cases h
  · rename_i hcap
    cases h
    exact ⟨rfl, by simpa [not_or] using hcap⟩

end New

variable [OfNat κ 1] [Add κ] [Sub κ] [AndOp κ] [LE κ] [DecidableEq κ] [DecidableLE κ]

/-- The second half of `push`, once there is room. -/
def enqueue (PublishBatch : κ) (q : SPSC α κ) (data : α) : SPSC α κ :=
  let q := (q.writeSlot data).advanceWriter
  if q.pushDue PublishBatch then q.publishWriter else q

/-- `push`. -/
def push (PublishBatch : κ) (q : SPSC α κ) (data : α) : Bool × SPSC α κ :=
  if q.isFull then
    let q := q.cacheReader q.reader.loadNewest
    if q.isFull then (false, q.publishWriter) else (true, q.enqueue PublishBatch data)
  else (true, q.enqueue PublishBatch data)

/-- The second half of `pop`, once there is an element. -/
def dequeue (PublishBatch : κ) (q : SPSC α κ) : Option α × SPSC α κ :=
  let data := q.readSlot
  let q := q.advanceReader
  (some data, if q.popDue PublishBatch then q.publishReader else q)

/-- `pop`: `some data` is a return of `true` with the popped element, `none` is a return of
`false`. -/
def pop (PublishBatch : κ) (q : SPSC α κ) : Option α × SPSC α κ :=
  if q.isEmpty then
    let q := q.cacheWriter q.writer.loadNewest
    if q.isEmpty then (none, q.publishReader) else q.dequeue PublishBatch
  else q.dequeue PublishBatch

end Calls

/-- `size`, with both loads at one moment. -/
def size {α κ : Type} [Sub κ] (q : SPSC α κ) : κ := q.writer.value - q.reader.value

/-- `empty`, with both loads at one moment. -/
def empty {α κ : Type} [DecidableEq κ] (q : SPSC α κ) : Bool := q.writer.value = q.reader.value

end SPSC

end FastQ
