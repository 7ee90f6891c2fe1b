import Mathlib.Algebra.Group.Nat.Defs
import FastQ.Lib.Fifo
import FastQ.Queue.Script

/-!
# `rigtorp::SPSCQueue`, access by access

The queue of `includes/SPSCQueue.h` that the benchmark compares with. Its two indices stay below
`capacity_` and wrap by a test, so that one of the `capacity_` slots is always free: a queue is
empty if the indices are equal, and full if the next write index is the read index. Every call
publishes what it did.

* A slot is raw memory (`none`) or holds a constructed object. Only `capacity_` of the slots are
  modelled; the `kPadding` slots before and after them are never accessed.
* `emplace` waits for a free slot, `try_emplace` does not; `push` and `try_push` are these two.
* `front` gives a pointer to the oldest element, or `nullptr`. The consumer can read the element,
  and call `pop`, only while it has a pointer; this is what the assertion of `pop` is about.
* Loads with `memory_order_relaxed` are of a party's own index, and give its newest value. A load of
  the other index is `k` stores behind the newest, as in `FastQ/Queue/Steps.lean`.

The indices are numbers without a bound here: none of the sums in the calls reaches `2 ^ 64`
(`FastQ/Proofs/Rigtorp.lean`). The sum of the constructor does for one capacity, and wraps
(`new_capacity_sizeMax`).
-/

namespace FastQ

namespace Rigtorp

/-- The data members of `SPSCQueue`. -/
structure SPSCQueue (α : Type) where
  capacity : Nat
  slots : Nat → Option α
  writeIdx : Atomic Nat
  readIdxCache : Nat
  readIdx : Atomic Nat
  writeIdxCache : Nat

/-- `SIZE_MAX`. -/
def sizeMax : Nat := 2 ^ 64 - 1

/-- The constructor. `allocate` is the number of slots that the allocator gives for a request: more
than requested only with `allocate_at_least`. -/
def SPSCQueue.new {α : Type} (kPadding : Nat) (allocate : Nat → Nat) (capacity : Nat) :
    SPSCQueue α :=
  let capacity := if capacity < 1 then 1 else capacity
  let capacity := (capacity + 1) % 2 ^ 64
  let capacity := if sizeMax - 2 * kPadding < capacity then sizeMax - 2 * kPadding else capacity
  ⟨allocate (capacity + 2 * kPadding) - 2 * kPadding, fun _ => none, ⟨0, []⟩, 0, ⟨0, []⟩, 0⟩

/-- `capacity()`. The difference is a `size_t`. -/
def SPSCQueue.userCapacity {α : Type} (q : SPSCQueue α) : Nat :=
  if q.capacity = 0 then sizeMax else q.capacity - 1

/-- The next index. -/
def SPSCQueue.next {α : Type} (q : SPSCQueue α) (i : Nat) : Nat :=
  if i + 1 = q.capacity then 0 else i + 1

/-- `readIdxCache_ = readIdx_.load()`, the load having given `p`. -/
def SPSCQueue.cacheReadIdx {α : Type} (q : SPSCQueue α) (p : Nat × Atomic Nat) : SPSCQueue α :=
  { q with readIdx := p.2, readIdxCache := p.1 }

/-- `writeIdxCache_ = writeIdx_.load()`, the load having given `p`. -/
def SPSCQueue.cacheWriteIdx {α : Type} (q : SPSCQueue α) (p : Nat × Atomic Nat) : SPSCQueue α :=
  { q with writeIdx := p.2, writeIdxCache := p.1 }

section

variable {α : Type} (q : SPSCQueue α) (p : Nat × Atomic Nat)

/-- One slot is for no element. -/
theorem userCapacity_add_one (h : 0 < q.capacity) : q.userCapacity + 1 = q.capacity := by
  unfold SPSCQueue.userCapacity
  rw [if_neg (Nat.ne_of_gt h), Nat.sub_add_cancel h]

@[simp] theorem next_cacheReadIdx (i : Nat) : (q.cacheReadIdx p).next i = q.next i := rfl
@[simp] theorem writeIdx_cacheReadIdx : (q.cacheReadIdx p).writeIdx = q.writeIdx := rfl
@[simp] theorem readIdxCache_cacheReadIdx : (q.cacheReadIdx p).readIdxCache = p.1 := rfl
@[simp] theorem readIdx_cacheWriteIdx : (q.cacheWriteIdx p).readIdx = q.readIdx := rfl
@[simp] theorem writeIdxCache_cacheWriteIdx : (q.cacheWriteIdx p).writeIdxCache = p.1 := rfl

end

/-- Where the producer is. -/
inductive ProducerPc (α : Type) where
  /-- Between calls, with the result of the last one (`true` for `emplace`). -/
  | idle (last : Option Bool)
  /-- `writeIdx_.load()`, in `emplace` (`wait`) or `try_emplace`. -/
  | loadWrite (wait : Bool) (data : α)
  /-- `nextWriteIdx == readIdxCache_`. -/
  | check (wait : Bool) (data : α) (writeIdx : Nat)
  /-- `readIdxCache_ = readIdx_.load()`. -/
  | loadRead (wait : Bool) (data : α) (writeIdx : Nat)
  /-- The second test of `try_emplace`. -/
  | recheck (data : α) (writeIdx : Nat)
  /-- `new (&slots_[writeIdx + kPadding]) T(...)`. -/
  | construct (data : α) (writeIdx : Nat)
  /-- `writeIdx_.store(nextWriteIdx)`. -/
  | storeWrite (data : α) (writeIdx : Nat)
  deriving DecidableEq, Repr

/-- Where the consumer is. -/
inductive ConsumerPc where
  /-- Between calls, with the pointer of the last `front` that was not followed by a `pop`. -/
  | idle (ptr : Option Nat)
  /-- `readIdx_.load()`, in `front`. -/
  | frontLoad
  /-- `readIdx == writeIdxCache_`. -/
  | check (readIdx : Nat)
  /-- `writeIdxCache_ = writeIdx_.load()`. -/
  | loadWrite (readIdx : Nat)
  /-- `writeIdxCache_ == readIdx`. -/
  | recheck (readIdx : Nat)
  /-- `readIdx_.load()`, in `pop`. -/
  | popLoad
  /-- `assert(writeIdx_.load() != readIdx)`. -/
  | assertWrite (readIdx : Nat)
  /-- `slots_[readIdx + kPadding].~T()`. -/
  | destroy (readIdx : Nat)
  /-- `readIdx_.store(nextReadIdx)`. -/
  | storeRead (readIdx : Nat)
  /-- The assertion has failed. -/
  | aborted
  deriving DecidableEq, Repr

/-- What a step shows. -/
inductive Event (α : Type) where
  /-- An element is published. -/
  | push (data : α)
  /-- The consumer reads the element that it has a pointer to. -/
  | read (data : α)
  /-- An element is destroyed. -/
  | pop (data : α)
  deriving DecidableEq, Repr

/-- Who goes next, and with what. -/
inductive Act (α : Type) where
  | emplace (data : α)
  | tryEmplace (data : α)
  /-- The next access of the producer's call; a load is `k` stores behind. -/
  | producer (k : Nat)
  | front
  /-- `*ptr`. -/
  | deref
  | pop
  /-- The next access of the consumer's call; a load is `k` stores behind. -/
  | consumer (k : Nat)
  deriving DecidableEq, Repr

/-- The queue and the two parties. -/
structure State (α : Type) where
  q : SPSCQueue α
  producer : ProducerPc α
  consumer : ConsumerPc

variable {α : Type}

/-- Before the first call. -/
def State.start (q : SPSCQueue α) : State α := ⟨q, .idle none, .idle none⟩

/-- The producer's next access: the queue, the producer and the events after it. -/
def stepProducer (k : Nat) (q : SPSCQueue α) :
    ProducerPc α → Option (SPSCQueue α × ProducerPc α × List (Event α))
  | .idle _ => none
  | .loadWrite wait data => some (q, .check wait data q.writeIdx.value, [])
  | .check wait data w =>
    some (q, if q.next w = q.readIdxCache then .loadRead wait data w else .construct data w, [])
  | .loadRead wait data w =>
    (q.readIdx.load k).map fun p =>
      (q.cacheReadIdx p, if wait then .check wait data w else .recheck data w, [])
  | .recheck data w =>
    some (q, if q.next w = q.readIdxCache then .idle (some false) else .construct data w, [])
  | .construct data w =>
    some ({ q with slots := Function.update q.slots w (some data) }, .storeWrite data w, [])
  | .storeWrite data w =>
    some ({ q with writeIdx := q.writeIdx.store (q.next w) }, .idle (some true), [.push data])

/-- The consumer's next access: the queue, the consumer and the events after it. -/
def stepConsumer (k : Nat) (q : SPSCQueue α) :
    ConsumerPc → Option (SPSCQueue α × ConsumerPc × List (Event α))
  | .idle _ => none
  | .frontLoad => some (q, .check q.readIdx.value, [])
  | .check r => some (q, if r = q.writeIdxCache then .loadWrite r else .idle (some r), [])
  | .loadWrite r => (q.writeIdx.load k).map fun p => (q.cacheWriteIdx p, .recheck r, [])
  | .recheck r => some (q, if q.writeIdxCache = r then .idle none else .idle (some r), [])
  | .popLoad => some (q, .assertWrite q.readIdx.value, [])
  | .assertWrite r =>
    (q.writeIdx.load k).map fun p =>
      ({ q with writeIdx := p.2 }, if p.1 = r then .aborted else .destroy r, [])
  | .destroy r =>
    (q.slots r).map fun data =>
      ({ q with slots := Function.update q.slots r none }, .storeRead r, [.pop data])
  | .storeRead r => some ({ q with readIdx := q.readIdx.store (q.next r) }, .idle none, [])
  | .aborted => none

/-- One step of the two parties. -/
def step (s : State α) : Act α → Option (State α × List (Event α))
  | .emplace data =>
    match s.producer with
    | .idle _ => some ({ s with producer := .loadWrite true data }, [])
    | _ => none
  | .tryEmplace data =>
    match s.producer with
    | .idle _ => some ({ s with producer := .loadWrite false data }, [])
    | _ => none
  | .producer k =>
    (stepProducer k s.q s.producer).map fun (q, pc, e) => (⟨q, pc, s.consumer⟩, e)
  | .front =>
    match s.consumer with
    | .idle _ => some ({ s with consumer := .frontLoad }, [])
    | _ => none
  | .deref =>
    match s.consumer with
    | .idle (some i) => (s.q.slots i).map fun data => (s, [.read data])
    | _ => none
  | .pop =>
    match s.consumer with
    | .idle (some _) => some ({ s with consumer := .popLoad }, [])
    | _ => none
  | .consumer k =>
    (stepConsumer k s.q s.consumer).map fun (q, pc, e) => (⟨q, s.producer, pc⟩, e)

/-- The queue with its two parties, as a machine. -/
def spscQueue : Machine (State α) (Act α) (Event α) := ⟨step⟩

/-- The values of the pushes, in order. -/
def pushed (es : List (Event α)) : List α :=
  es.filterMap fun
    | .push data => some data
    | _ => none

/-- The values that were destroyed, in order. -/
def popped (es : List (Event α)) : List α :=
  es.filterMap fun
    | .pop data => some data
    | _ => none

/-- A push or a pop, for the abstract queue: an element is taken out when it is destroyed. -/
def op : Event α → Option (Fifo.Op α)
  | .push data => some (.enq data)
  | .read _ => none
  | .pop data => some (.deq data)

def ops (es : List (Event α)) : List (Fifo.Op α) := es.filterMap op

/-! ## Whole calls -/

namespace SPSCQueue

/-- An element is constructed at the write index, and published. -/
def put (q : SPSCQueue α) (data : α) : SPSCQueue α :=
  let w := q.writeIdx.value
  { q with slots := Function.update q.slots w (some data), writeIdx := q.writeIdx.store (q.next w) }

/-- `try_emplace`. -/
def tryEmplace (q : SPSCQueue α) (data : α) : Bool × SPSCQueue α :=
  if q.next q.writeIdx.value = q.readIdxCache then
    let q := q.cacheReadIdx q.readIdx.loadNewest
    if q.next q.writeIdx.value = q.readIdxCache then (false, q) else (true, q.put data)
  else (true, q.put data)

/-- `front`: the slot that the pointer is to, or `none` for `nullptr`. -/
def front (q : SPSCQueue α) : Option Nat × SPSCQueue α :=
  let r := q.readIdx.value
  if r = q.writeIdxCache then
    let q := q.cacheWriteIdx q.writeIdx.loadNewest
    if q.writeIdxCache = r then (none, q) else (some r, q)
  else (some r, q)

/-- `pop`; `none` if the assertion fails or there is no object to destroy. -/
def pop (q : SPSCQueue α) : Option (SPSCQueue α) :=
  let r := q.readIdx.value
  let p := q.writeIdx.loadNewest
  if p.1 = r then none
  else
    (q.slots r).map fun _ =>
      { q with
        writeIdx := p.2
        slots := Function.update q.slots r none
        readIdx := q.readIdx.store (q.next r) }

/-- What `main` pops with: `front`, and `*ptr` and `pop` if there is an element. -/
def frontPop (q : SPSCQueue α) : Option (Option α × SPSCQueue α) :=
  match q.front with
  | (none, q) => some (none, q)
  | (some r, q) => (q.slots r).bind fun data => q.pop.map fun q => (some data, q)

/-- The loop of the destructor: `while (front()) pop();`. `none` if `pop` goes wrong, or the fuel is
not enough. -/
def destructor : Nat → SPSCQueue α → Option (SPSCQueue α)
  | 0, _ => none
  | n + 1, q =>
    match q.front with
    | (none, q) => some q
    | (some _, q) => q.pop.bind (destructor n)

/-- What `size` returns if its loads gave these values. The difference is a `ptrdiff_t`; the sum
with `capacity_`, and the result, are 64-bit numbers again. -/
def sizeResult (q : SPSCQueue α) (writeIdx readIdx : Nat) : Nat :=
  let diff := BitVec.ofNat 64 writeIdx - BitVec.ofNat 64 readIdx
  (if diff.slt 0 then diff + BitVec.ofNat 64 q.capacity else diff).toNat

/-- What `empty` returns if its loads gave these values. -/
def emptyResult (writeIdx readIdx : Nat) : Bool := writeIdx = readIdx

/-- One call; there is no `flush`. -/
def call (q : SPSCQueue α) : Call α → Option (SPSCQueue α × List (Answer α Nat))
  | .push data => some ((q.tryEmplace data).2, [.push (q.tryEmplace data).1])
  | .pop => q.frontPop.map fun p => (p.2, [.pop p.1])
  | .flush => none
  | .size => some (q, [.size (q.sizeResult q.writeIdx.value q.readIdx.value)])
  | .empty => some (q, [.empty (emptyResult q.writeIdx.value q.readIdx.value)])

end SPSCQueue

/-- The queue, as a machine whose steps are whole calls. -/
def rigtorpCalls : Machine (SPSCQueue α) (Call α) (Answer α Nat) := ⟨SPSCQueue.call⟩

end Rigtorp

end FastQ
